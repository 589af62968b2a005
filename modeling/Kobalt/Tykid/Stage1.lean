/-
  Subject: THE FIRST SCAN OF A DRIVER IMAGE (`security/tykid/src/tykid_threat.c`): the bounds an
  accepted ELF image keeps, and the bytes its verdict depends on.

  The byte `m x` is the one at `image + x`; the image has `len` bytes, and other memory follows.
-/
import Kobalt.Lib.Bytes

namespace Kobalt.Tykid.Stage1

variable (m : Bytes) (len : Nat)

def phoff : Nat := leAt m 32 8
def shoff : Nat := leAt m 40 8
def phentsize : Nat := leAt m 54 2
def phnum : Nat := leAt m 56 2
def shsize : Nat := leAt m 58 2 * leAt m 60 2

/-- A field of the program header `i`, wherever the pointer ends. -/
def phdr (i off n : Nat) : Nat := leAt (fun x => m (x % 2 ^ 64)) (phoff m + phentsize m * i + off) n

/-- A `PT_LOAD` segment with `seg_fsz > 0 && seg_off + seg_fsz > image_len`. -/
def exceeds (i : Nat) : Bool :=
  phdr m i 0 4 = 1 ∧ 0 < phdr m i 32 8 ∧ len < (phdr m i 8 8 + phdr m i 32 8) % 2 ^ 64

/-- `ty_scan_stage1_elf`: `none` for `TY_THREAT_NONE`, the text of the report for `TY_THREAT_RUBBISH`
    (always with `TYKID_ERR_ELF_MALFORMED`). -/
def tyScanStage1Elf : Option String :=
  if len < 64 then some "image too small for ELF64 header"
  else if leAt m 0 4 ≠ 0x464C457F then some "ELF magic mismatch"
  else if leAt m 4 1 ≠ 2 then some "not ELFCLASS64"
  else if leAt m 18 2 ≠ 62 then some "not EM_X86_64"
  else if leAt m 16 2 ≠ 1 ∧ leAt m 16 2 ≠ 2 ∧ leAt m 16 2 ≠ 3 then some "unrecognised ELF e_type"
  else if shoff m ≠ 0 ∧ len < (shoff m + shsize m) % 2 ^ 64 then some "section header table out of bounds"
  else if phoff m = 0 ∨ phnum m = 0 then none
  else if len < (phoff m + phentsize m * phnum m) % 2 ^ 64 then some "program header table out of bounds"
  else if (List.range (phnum m)).any (exceeds m len) then some "PT_LOAD segment exceeds file size"
  else none

/-- The number of program headers the scan looks at. -/
def examined : Nat := if phoff m = 0 then 0 else phnum m

/-- **Everything the headers name lies in the image.** -/
structure Inside : Prop where
  sections : shoff m ≠ 0 → shoff m + shsize m ≤ len
  table : 0 < examined m → phoff m + phentsize m * phnum m ≤ len
  headers : ∀ i < examined m, phoff m + phentsize m * i + 56 ≤ len
  segments : ∀ i < examined m, phdr m i 0 4 = 1 → 0 < phdr m i 32 8 → phdr m i 8 8 + phdr m i 32 8 ≤ len

/-- **The scan should be sound**: an accepted image has everything inside that its headers name, and the verdict is a
    function of the image. -/
structure Sound : Prop where
  inside : tyScanStage1Elf m len = none → Inside m len
  image : ∀ m' : Bytes, (∀ x < len, m' x = m x) → tyScanStage1Elf m' len = tyScanStage1Elf m len

/-- No sum that is compared wraps around, and the program headers that are read lie in the image. -/
structure NoWrap : Prop where
  sections : shoff m ≠ 0 → shoff m + shsize m < 2 ^ 64
  table : 0 < examined m → phoff m + phentsize m * phnum m < 2 ^ 64
  headers : ∀ i < examined m, phoff m + phentsize m * i + 56 ≤ len
  segments : ∀ i < examined m, phdr m i 0 4 = 1 → 0 < phdr m i 32 8 → phdr m i 8 8 + phdr m i 32 8 < 2 ^ 64

/-- The scan comes to the program headers. -/
structure Scans : Prop where
  size : 64 ≤ len
  ident : leAt m 0 4 = 0x464C457F ∧ leAt m 4 1 = 2 ∧ leAt m 18 2 = 62
  type : leAt m 16 2 = 1 ∨ leAt m 16 2 = 2 ∨ leAt m 16 2 = 3
  sections : shoff m = 0 ∨ (shoff m + shsize m) % 2 ^ 64 ≤ len

/-- **The image is refused for what it holds itself**: for its file header, for the place of a table, or for the
    segment of a program header that lies in it. -/
def Refused : Prop :=
  Scans m len → 0 < examined m ∧ (len < (phoff m + phentsize m * phnum m) % 2 ^ 64 ∨
    ∃ i < phnum m, exceeds m len i = true ∧ phoff m + phentsize m * i + 56 ≤ len)

variable {m len}

theorem ite_some_eq_none {c : Prop} [Decidable c] {x : α} {r : Option α} :
    (if c then some x else r) = none ↔ ¬ c ∧ r = none := by
  split <;> simp [*]

theorem lt_of_examined {i : Nat} (hi : i < examined m) : phoff m ≠ 0 ∧ i < phnum m := by
  unfold examined at hi
  split at hi
  · omega
  · exact ⟨‹_›, hi⟩

theorem examined_pos : 0 < examined m ↔ ¬ (phoff m = 0 ∨ phnum m = 0) := by
  unfold examined
  split <;> omega

section Agree

variable {m' : Bytes} (heq : ∀ x < len, m' x = m x)
include heq

theorem leAt_agree {a n : Nat} (h : a + n ≤ len) : leAt m' a n = leAt m a n := leAt_congr fun x _ hx => heq x (by omega)

theorem exceeds_agree (hlen : len < 2 ^ 64) (h64 : 64 ≤ len) {i : Nat} (hin : phoff m + phentsize m * i + 56 ≤ len) :
    exceeds m' len i = exceeds m len i := by
  have hoff : phoff m' = phoff m := leAt_agree heq (by omega)
  have hsz : phentsize m' = phentsize m := leAt_agree heq (by omega)
  have hp : ∀ off n, off + n ≤ 56 → phdr m' i off n = phdr m i off n := by
    intro off n ho
    rw [phdr, hoff, hsz]
    refine leAt_congr fun x _ hx => ?_
    rw [Nat.mod_eq_of_lt (by omega)]
    exact heq x (by omega)
  simp [exceeds, hp]

/-- **Other memory behind the image changes nothing** if it does not change what the loop finds. -/
theorem scan_agree (hany : Scans m len → 0 < examined m → (phoff m + phentsize m * phnum m) % 2 ^ 64 ≤ len →
      (List.range (phnum m)).any (exceeds m' len) = (List.range (phnum m)).any (exceeds m len)) :
    tyScanStage1Elf m' len = tyScanStage1Elf m len := by
  unfold tyScanStage1Elf
  by_cases hl : len < 64
  · rw [if_pos hl, if_pos hl]
  have hh : ∀ a n, a + n ≤ 64 → leAt m' a n = leAt m a n := fun a n ha => leAt_agree heq (by omega)
  have hoff : phoff m' = phoff m := hh 32 8 (by decide)
  have hsz : phentsize m' = phentsize m := hh 54 2 (by decide)
  have hnum : phnum m' = phnum m := hh 56 2 (by decide)
  have hsh : shoff m' = shoff m := hh 40 8 (by decide)
  have hss : shsize m' = shsize m := by rw [shsize, shsize, hh 58 2 (by decide), hh 60 2 (by decide)]
  simp only [hoff, hsz, hnum, hsh, hss, hh, Nat.reduceAdd, Nat.reduceLeDiff]
  by_cases hloop : Scans m len ∧ 0 < examined m ∧ (phoff m + phentsize m * phnum m) % 2 ^ 64 ≤ len
  · rw [hany hloop.1 hloop.2.1 hloop.2.2]
  · -- some test before the loop decides
    split_ifs with h2 h3 h4 h5 h6 h7 h8 h9
    all_goals first
      | rfl
      | exact absurd ⟨⟨by omega, ⟨not_not.1 h2, not_not.1 h3, not_not.1 h4⟩, by omega, by omega⟩,
          examined_pos.2 h7, by omega⟩ hloop

end Agree

/-- An executable with one program header, a `PT_LOAD` segment at offset 0. -/
def oneSegment (phoff phentsize filesz : Nat) : Bytes :=
  [(0, 0x457F), (2, 0x464C), (4, 2), (16, 2), (18, 62), (32, phoff), (54, phentsize), (56, 1), (phoff, 1),
    (phoff + 32, filesz)].foldl (fun m p => putLE m p.1 2 p.2) zeroBytes

end Kobalt.Tykid.Stage1

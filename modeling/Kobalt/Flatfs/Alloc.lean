/-
  Subject: THE BLOCK ALLOCATOR (`flatfs_alloc.c`) and its invariant over every run.

  Every group block carries 2048 bits although the last group reaches past the end of the
  device. What keeps an allocation inside `[data_start, total_blocks)` is that the search is a
  GLOBAL first fit: no bit below the group hint is clear (`AllocInv.hintFull`), so the first
  clear bit the search meets is the lowest clear bit of all, and while `free_blocks` is not
  zero that one is in range (`allocSearch_lowest`).
-/
import Kobalt.Flatfs.Image
import Kobalt.Lib.Run
import Mathlib.Data.Finset.Card
import Mathlib.Data.Finset.Range

namespace Kobalt.Flatfs

open Function Finset Nat

variable (s : FS) {k : Nat}

/-! ## 1. The code -/

def bitmapTest (bm : Bytes) (bit : Nat) : Bool :=
  (bm (bit >>> 3)) >>> UInt8.ofNat (bit &&& 7) &&& 1 = 1

def bitmapSet (bm : Bytes) (bit : Nat) : Bytes :=
  update bm (bit >>> 3) (bm (bit >>> 3) ||| 1 <<< UInt8.ofNat (bit &&& 7))

def bitmapClr (bm : Bytes) (bit : Nat) : Bytes :=
  update bm (bit >>> 3) (bm (bit >>> 3) &&& ~~~ (1 <<< UInt8.ofNat (bit &&& 7)))

/-- The group block `flatfs_alloc_init` writes where it finds no group. -/
def freshGroup (sb : Super) (gi : Nat) : FlGroup :=
  { magic := freelistMagic, groupIdx := gi, baseBlk := u64 (sb.dataStart + gi * groupBlocks)
    freeCount := groupBlocks, bitmap := zeroBytes }

/-- `flatfs_alloc_init`. Its loop counter is 32 bits wide and is compared with a 64-bit group
    count: from `2 ^ 32` groups on the loop never ends, which is the `none` here. -/
def flatfsAllocInit : Option FS :=
  if s.super.freelistBlocks < 4294967296 then
    some { s with
      galloc := { ngroups := s.super.freelistBlocks, groupHint := 0 }
      group := fun gi =>
        if gi < s.super.freelistBlocks ∧ (s.group gi).magic ≠ freelistMagic then
          freshGroup s.super gi
        else s.group gi }
  else none

def groupFindFree (g : FlGroup) : Option Nat :=
  (List.range groupBlocks).find? fun i => !bitmapTest g.bitmap i

/-- The search loop of `flatfs_alloc_block`: the group and the bit it settles on. -/
def allocSearch : Option (Nat × Nat) :=
  (List.range s.galloc.ngroups).findSome? fun gi =>
    let idx := u32 (s.galloc.groupHint + gi) % u32 s.galloc.ngroups
    if (s.group idx).freeCount = 0 then none
    else (groupFindFree (s.group idx)).map fun bit => (idx, bit)

/-- What `flatfs_alloc_block` does once it has found a clear bit. -/
def allocTake (idx bit : Nat) : Nat × FS :=
  let g := s.group idx
  let g' := { g with bitmap := bitmapSet g.bitmap bit, freeCount := g.freeCount - 1 }
  let out := u64 (g.baseBlk + bit)
  (out, { s with
    group := update s.group idx g'
    super := { s.super with freeBlocks := s.super.freeBlocks - 1 }
    galloc := { s.galloc with groupHint := idx }
    blk := update s.blk out zeroBytes })

def flatfsAllocBlock : Result Nat × FS :=
  if s.super.freeBlocks = 0 then (.error .nospace, s) else
  match allocSearch s with
  | none => (.error .nospace, s)
  | some (idx, bit) => (.ok (allocTake s idx bit).1, (allocTake s idx bit).2)

/-- What `flatfs_free_block` does to a set bit. -/
def freeGive (gi bit : Nat) : FS :=
  let g := s.group gi
  let g' := { g with bitmap := bitmapClr g.bitmap bit, freeCount := u32 (g.freeCount + 1) }
  { s with
    group := update s.group gi g'
    super := { s.super with freeBlocks := u64 (s.super.freeBlocks + 1) }
    galloc := { s.galloc with
      groupHint := if gi < s.galloc.groupHint then gi else s.galloc.groupHint } }

def flatfsFreeBlock (blk : Nat) : Done :=
  if blk < s.super.dataStart ∨ blk ≥ s.super.totalBlocks then (.bounds, s) else
  let localOff := blk - s.super.dataStart
  let gi := u32 (localOff / groupBlocks)
  let bit := u32 (localOff % groupBlocks)
  if gi ≥ s.galloc.ngroups then (.bounds, s)
  else if !bitmapTest (s.group gi).bitmap bit then (.inval, s)
  else (.ok, freeGive s gi bit)

/-- The roll-back loop of `flatfs_alloc_blocks`. -/
def freeEach (blks : List Nat) : FS :=
  blks.foldl (fun s b => (flatfsFreeBlock s b).2) s

/-- The loop of `flatfs_alloc_blocks`: `out` is what was allocated so far. -/
def allocBlocksLoop (s : FS) (out : List Nat) : Nat → Result (List Nat) × FS
  | 0 => (.ok out, s)
  | n + 1 =>
    match flatfsAllocBlock s with
    | (.error e, s') => (.error e, freeEach s' out)
    | (.ok b, s') => allocBlocksLoop s' (out ++ [b]) n

def flatfsAllocBlocks (count : Nat) : Result (List Nat) × FS :=
  allocBlocksLoop s [] count

/-- The loop of `flatfs_free_blocks`, from index `i` on with `n` blocks to go. -/
def freeBlocksLoop (s : FS) (blk i : Nat) : Nat → Done
  | 0 => (.ok, s)
  | n + 1 =>
    match flatfsFreeBlock s (u64 (blk + i)) with
    | (.ok, s') => freeBlocksLoop s' blk (i + 1) n
    | (e, s') => (e, s')

def flatfsFreeBlocks (blk count : Nat) : Done := freeBlocksLoop s blk 0 count

variable {s}

/-! ## 2. Bits -/

theorem bit_address (i : Nat) : i &&& 7 = i % 8 ∧ i >>> 3 = i / 8 ∧ i % 8 < 8 :=
  ⟨and_two_pow_sub_one_eq_mod i 3, shiftRight_eq_div_pow i 3, mod_lt _ (by decide)⟩

theorem bitmapTest_eq (bm : Bytes) (bit : Nat) :
    bitmapTest bm bit = (bm (bit / 8)).toNat.testBit (bit % 8) := by
  obtain ⟨h8, h3, hm⟩ := bit_address bit
  rw [bitmapTest, h8, h3, testBit_eq_decide_div_mod_eq]
  refine decide_eq_decide.mpr ?_
  rw [← UInt8.toNat_inj]
  simp [shiftRight_eq_div_pow, and_one_is_mod, mod_eq_of_lt (show bit % 8 < 256 by omega)]

theorem shiftOne_toNat (h : k < 8) : ((1 : UInt8) <<< UInt8.ofNat k).toNat = 2 ^ k := by
  have : ∀ k < 8, ((1 : UInt8) <<< UInt8.ofNat k).toNat = 2 ^ k := by decide
  exact this k h

theorem notShiftOne_testBit {j : Nat} (h : k < 8) (h' : j < 8) :
    (~~~ ((1 : UInt8) <<< UInt8.ofNat k)).toNat.testBit j = decide (j ≠ k) := by
  have : ∀ k < 8, ∀ j < 8,
      (~~~ ((1 : UInt8) <<< UInt8.ofNat k)).toNat.testBit j = decide (j ≠ k) := by decide
  exact this k h j h'

theorem bitmapTest_set (bm : Bytes) (i j : Nat) :
    bitmapTest (bitmapSet bm i) j = (decide (j = i) || bitmapTest bm j) := by
  obtain ⟨h8, h3, hm⟩ := bit_address i
  rw [bitmapTest_eq, bitmapTest_eq, bitmapSet, h8, h3]
  by_cases hb : j / 8 = i / 8
  · rw [hb, update_self, UInt8.toNat_or, shiftOne_toNat hm, testBit_or, testBit_two_pow, Bool.or_comm]
    grind
  grind

theorem bitmapTest_clr (bm : Bytes) (i j : Nat) :
    bitmapTest (bitmapClr bm i) j = (decide (j ≠ i) && bitmapTest bm j) := by
  obtain ⟨h8, h3, hm⟩ := bit_address i
  have hj : j % 8 < 8 := mod_lt _ (by decide)
  rw [bitmapTest_eq, bitmapTest_eq, bitmapClr, h8, h3]
  by_cases hb : j / 8 = i / 8
  · rw [hb, update_self, UInt8.toNat_and, testBit_and, notShiftOne_testBit hm hj, Bool.and_comm]
    grind
  grind

theorem bitmapTest_zero (j : Nat) : bitmapTest zeroBytes j = false := by
  rw [bitmapTest_eq]
  exact zero_testBit _

/-! ## 3. The invariant -/

/-- The bit of the `k`th block of the data area, over all groups of `FLATFS_GROUP_BLOCKS` bits. -/
def FS.bitAt (s : FS) (k : Nat) : Bool :=
  bitmapTest (s.group (k / 2048)).bitmap (k % 2048)

/-- The number of blocks of the data area. -/
def FS.dataBlocks (s : FS) : Nat := s.super.totalBlocks - s.super.dataStart

/-- The set bits over all groups. -/
def FS.usedBits (s : FS) : Finset Nat :=
  {k ∈ range (s.galloc.ngroups * 2048) | s.bitAt k = true}

/-- The clear bits of a group. -/
def clearBits (g : FlGroup) : Finset Nat :=
  {i ∈ range 2048 | bitmapTest g.bitmap i = false}

/-- Block `b` of the data area has its allocator bit set. -/
def FS.Allocated (s : FS) (b : Nat) : Prop :=
  s.super.dataStart ≤ b ∧ b < s.super.totalBlocks ∧ s.bitAt (b - s.super.dataStart) = true

/-- **The allocator invariant.** -/
structure AllocInv (s : FS) : Prop where
  ngroupsPos : 0 < s.galloc.ngroups
  ngroupsLt : s.galloc.ngroups < 4294967296
  dataLe : s.super.dataStart ≤ s.super.totalBlocks
  top : s.super.dataStart + s.galloc.ngroups * 2048 ≤ 18446744073709551616
  covers : s.dataBlocks ≤ s.galloc.ngroups * 2048
  base : ∀ gi < s.galloc.ngroups, (s.group gi).baseBlk = s.super.dataStart + gi * 2048
  inRange : ∀ k < s.galloc.ngroups * 2048, s.bitAt k = true → k < s.dataBlocks
  counts : ∀ gi < s.galloc.ngroups, (s.group gi).freeCount = (clearBits (s.group gi)).card
  free : s.super.freeBlocks + s.usedBits.card = s.dataBlocks
  hintLt : s.galloc.groupHint < s.galloc.ngroups
  hintFull : ∀ k < s.galloc.groupHint * 2048, s.bitAt k = true

theorem AllocInv.congr {s' : FS} (h : AllocInv s) (hg : s'.group = s.group) (ha : s'.galloc = s.galloc)
    (hd : s'.super.dataStart = s.super.dataStart) (ht : s'.super.totalBlocks = s.super.totalBlocks)
    (hf : s'.super.freeBlocks = s.super.freeBlocks) : AllocInv s' := by
  have hn : s'.dataBlocks = s.dataBlocks := by rw [FS.dataBlocks, hd, ht]; rfl
  have hb : s'.bitAt = s.bitAt := funext fun k => by rw [FS.bitAt, hg]; rfl
  have hu : s'.usedBits = s.usedBits := by rw [FS.usedBits, hb, ha]; rfl
  constructor <;> simp only [hn, hb, hu, hg, ha, hd, ht, hf]
  exacts [h.ngroupsPos, h.ngroupsLt, h.dataLe, h.top, h.covers, h.base, h.inRange, h.counts, h.free, h.hintLt, h.hintFull]

theorem mem_usedBits : k ∈ s.usedBits ↔ k < s.galloc.ngroups * 2048 ∧ s.bitAt k = true := by
  simp [FS.usedBits]

theorem mem_clearBits {g : FlGroup} {i : Nat} : i ∈ clearBits g ↔ i < 2048 ∧ bitmapTest g.bitmap i = false := by
  simp [clearBits]

theorem groupFindFree_eq_some {g : FlGroup} {i : Nat} (hi : i < 2048)
    (hc : bitmapTest g.bitmap i = false) (hlow : ∀ j < i, bitmapTest g.bitmap j = true) :
    groupFindFree g = some i := by
  refine List.find?_range_eq_some.mpr ⟨by simp [hc], List.mem_range.mpr hi, fun j hj => ?_⟩
  simp [hlow j hj]

theorem groupFindFree_eq_none {g : FlGroup}
    (h : ∀ j < 2048, bitmapTest g.bitmap j = true) : groupFindFree g = none := by
  refine List.find?_eq_none.mpr fun j hj => ?_
  simp [h j (List.mem_range.mp hj)]

theorem findSome_range {α : Type*} {f : Nat → Option α} {n a : Nat} {b : α} (ha : a < n)
    (hb : f a = some b) (hlow : ∀ x < a, f x = none) : (List.range n).findSome? f = some b := by
  obtain ⟨c, rfl⟩ : ∃ c, n = a + (c + 1) := ⟨n - a - 1, by omega⟩
  have h1 : (List.range a).findSome? f = none :=
    List.findSome?_eq_none_iff.mpr fun x hx => hlow x (List.mem_range.mp hx)
  rw [List.range_add, List.findSome?_append, h1, List.range_succ_eq_map]
  simp [hb]

/-- **The search is a global first fit**: it settles on the lowest clear bit of all groups. -/
theorem allocSearch_lowest (hI : AllocInv s) (hk : k < s.galloc.ngroups * 2048) (hc : s.bitAt k = false)
    (hlow : ∀ j < k, s.bitAt j = true) : allocSearch s = some (k / 2048, k % 2048) := by
  have hn := hI.ngroupsLt
  have hhint : s.galloc.groupHint ≤ k / 2048 := by
    -- a clear bit below the hint would contradict `hintFull`
    refine Nat.le_of_not_lt fun hlt => ?_
    have h := hI.hintFull k ((Nat.div_lt_iff_lt_mul (by decide)).mp hlt)
    rw [hc] at h
    cases h
  have hidx : ∀ gi, s.galloc.groupHint + gi < s.galloc.ngroups →
      u32 (s.galloc.groupHint + gi) % u32 s.galloc.ngroups = s.galloc.groupHint + gi := by
    intro gi hgi
    rw [u32_of_lt (by omega), u32_of_lt hn, Nat.mod_eq_of_lt hgi]
  refine findSome_range (a := k / 2048 - s.galloc.groupHint) (by omega) ?_ fun gi hgi => ?_
  · simp only
    rw [hidx _ (by omega), Nat.add_sub_cancel' hhint]
    have hfind : groupFindFree (s.group (k / 2048)) = some (k % 2048) := by
      refine groupFindFree_eq_some (by omega) hc fun j hj => ?_
      have := hlow (k / 2048 * 2048 + j) (by omega)
      rwa [FS.bitAt, show (k / 2048 * 2048 + j) / 2048 = k / 2048 by
        omega, show (k / 2048 * 2048 + j) % 2048 = j by omega] at this
    have hcount : (s.group (k / 2048)).freeCount ≠ 0 := by
      rw [hI.counts _ (by omega)]
      exact card_ne_zero_of_mem (mem_clearBits.mpr ⟨by omega, hc⟩)
    rw [if_neg hcount, hfind]
    rfl
  · -- the groups between the hint and the one found are full
    simp only
    rw [hidx _ (by omega)]
    have hfull : groupFindFree (s.group (s.galloc.groupHint + gi)) = none := by
      refine groupFindFree_eq_none fun j hj => ?_
      have := hlow ((s.galloc.groupHint + gi) * 2048 + j) (by omega)
      rwa [FS.bitAt, show ((s.galloc.groupHint + gi) * 2048 + j) / 2048 =
        s.galloc.groupHint + gi by omega,
        show ((s.galloc.groupHint + gi) * 2048 + j) % 2048 = j by omega] at this
    rw [hfull]
    simp

/-! ## 4. Taking and giving back one bit -/

/-- The state after the allocation of the `k`th block of the data area. -/
def FS.takeBit (s : FS) (k : Nat) : FS := (allocTake s (k / 2048) (k % 2048)).2

/-- The state after the release of the `k`th block of the data area. -/
def FS.giveBit (s : FS) (k : Nat) : FS := freeGive s (k / 2048) (k % 2048)

theorem bitAt_takeBit (s : FS) (k j : Nat) : (s.takeBit k).bitAt j = (decide (j = k) || s.bitAt j) := by
  simp only [FS.takeBit, allocTake, FS.bitAt]
  by_cases hg : j / 2048 = k / 2048
  · rw [hg, update_self]
    simp only [bitmapTest_set]
    grind
  grind

theorem bitAt_giveBit (s : FS) (k j : Nat) : (s.giveBit k).bitAt j = (decide (j ≠ k) && s.bitAt j) := by
  simp only [FS.giveBit, freeGive, FS.bitAt]
  by_cases hg : j / 2048 = k / 2048
  · rw [hg, update_self]
    simp only [bitmapTest_clr]
    grind
  grind

theorem usedBits_takeBit (hk : k < s.galloc.ngroups * 2048) : (s.takeBit k).usedBits = insert k s.usedBits := by
  ext j
  rw [mem_insert, mem_usedBits, mem_usedBits, bitAt_takeBit]
  show j < s.galloc.ngroups * 2048 ∧ _ ↔ _
  grind

theorem usedBits_giveBit (s : FS) (k : Nat) : (s.giveBit k).usedBits = s.usedBits.erase k := by
  ext j
  rw [mem_erase, mem_usedBits, mem_usedBits, bitAt_giveBit]
  show j < s.galloc.ngroups * 2048 ∧ _ ↔ _
  grind

theorem clearBits_set (g : FlGroup) (i n : Nat) :
    clearBits { g with bitmap := bitmapSet g.bitmap i, freeCount := n } = (clearBits g).erase i := by
  ext j
  rw [mem_erase, mem_clearBits, mem_clearBits, bitmapTest_set]
  grind

theorem clearBits_clr (g : FlGroup) {i : Nat} (n : Nat) (hi : i < 2048) :
    clearBits { g with bitmap := bitmapClr g.bitmap i, freeCount := n } =
      insert i (clearBits g) := by
  ext j
  rw [mem_insert, mem_clearBits, mem_clearBits, bitmapTest_clr]
  grind

theorem card_clearBits_le (g : FlGroup) : (clearBits g).card ≤ 2048 := by
  have h := card_filter_le (range 2048) (fun i => bitmapTest g.bitmap i = false)
  rwa [card_range] at h

theorem allocated_takeBit (hk : k < s.dataBlocks) (b : Nat) :
    (s.takeBit k).Allocated b ↔ b = s.super.dataStart + k ∨ s.Allocated b := by
  have hd : s.dataBlocks = s.super.totalBlocks - s.super.dataStart := rfl
  show (s.super.dataStart ≤ b ∧ b < s.super.totalBlocks ∧
    (s.takeBit k).bitAt (b - s.super.dataStart) = true) ↔ _
  rw [bitAt_takeBit]
  constructor
  · rintro ⟨h1, h2, h3⟩
    by_cases hb : b - s.super.dataStart = k
    · exact .inl (by omega)
    · exact .inr ⟨h1, h2, by simpa [hb] using h3⟩
  · rintro (rfl | ⟨h1, h2, h3⟩)
    · exact ⟨by omega, by omega, by simp⟩
    · exact ⟨h1, h2, by simp [h3]⟩

section Inv

variable (hI : AllocInv s)
include hI

/-- The used bits are below `dataBlocks` and miss a clear one. -/
theorem usedBits_card_lt (hk : k < s.dataBlocks) (hc : s.bitAt k = false) :
    s.usedBits.card < s.dataBlocks := by
  have hsub : s.usedBits ⊆ (range s.dataBlocks).erase k := by
    intro j hj
    obtain ⟨h1, h2⟩ := mem_usedBits.mp hj
    refine mem_erase.mpr ⟨fun e => ?_, mem_range.mpr (hI.inRange j h1 h2)⟩
    rw [e, hc] at h2
    cases h2
  have hle := card_le_card hsub
  rw [card_erase_of_mem (mem_range.mpr hk), card_range] at hle
  omega

theorem allocInv_takeBit (hk : k < s.dataBlocks)
    (hc : s.bitAt k = false) (hlow : ∀ j < k, s.bitAt j = true) : AllocInv (s.takeBit k) := by
  have hcov := hI.covers
  have hkn : k < s.galloc.ngroups * 2048 := by omega
  have hnot : k ∉ s.usedBits := by simp [mem_usedBits, hc]
  refine ⟨hI.ngroupsPos, hI.ngroupsLt, hI.dataLe, hI.top, hI.covers, fun gi hgi => ?_,
    fun j hj hb => ?_, fun gi hgi => ?_, ?_, ?_, fun j hj => ?_⟩
  · show (update s.group (k / 2048) _ gi).baseBlk = _
    by_cases hg : gi = k / 2048
    · subst hg; rw [update_self]; exact hI.base _ hgi
    · rw [update_of_ne hg]; exact hI.base gi hgi
  · rw [bitAt_takeBit] at hb
    by_cases hjk : j = k
    · subst hjk; exact hk
    · simp only [hjk, decide_false, Bool.false_or] at hb
      exact hI.inRange j hj hb
  · show (update s.group (k / 2048) _ gi).freeCount =
      (clearBits (update s.group (k / 2048) _ gi)).card
    by_cases hg : gi = k / 2048
    · subst hg
      rw [update_self, clearBits_set, card_erase_of_mem, ← hI.counts _ hgi]
      exact mem_clearBits.mpr ⟨mod_lt _ (by decide), hc⟩
    · rw [update_of_ne hg]; exact hI.counts gi hgi
  · rw [usedBits_takeBit hkn, card_insert_of_notMem hnot]
    have hf := hI.free
    have hne := usedBits_card_lt hI hk hc
    show s.super.freeBlocks - 1 + (s.usedBits.card + 1) = s.dataBlocks
    omega
  · exact (div_lt_iff_lt_mul (by decide)).mpr hkn
  · rw [bitAt_takeBit, hlow j, Bool.or_true]
    exact lt_of_lt_of_le hj (div_mul_le_self k 2048)

theorem allocInv_giveBit (hk : k < s.galloc.ngroups * 2048)
    (hc : s.bitAt k = true) : AllocInv (s.giveBit k) := by
  have hmem : k ∈ s.usedBits := mem_usedBits.mpr ⟨hk, hc⟩
  refine ⟨hI.ngroupsPos, hI.ngroupsLt, hI.dataLe, hI.top, hI.covers, fun gi hgi => ?_,
    fun j hj hb => ?_, fun gi hgi => ?_, ?_, ?_, fun j hj => ?_⟩
  · show (update s.group (k / 2048) _ gi).baseBlk = _
    by_cases hg : gi = k / 2048
    · subst hg; rw [update_self]; exact hI.base _ hgi
    · rw [update_of_ne hg]; exact hI.base gi hgi
  · rw [bitAt_giveBit, Bool.and_eq_true] at hb
    exact hI.inRange j hj hb.2
  · show (update s.group (k / 2048) _ gi).freeCount =
      (clearBits (update s.group (k / 2048) _ gi)).card
    by_cases hg : gi = k / 2048
    · subst hg
      have hle := card_clearBits_le (s.group (k / 2048))
      rw [update_self, clearBits_clr _ _ (mod_lt _ (by decide)),
        card_insert_of_notMem, ← hI.counts _ hgi]
      · grind [hI.counts, u32_of_lt]
      · intro h
        have h2 := (mem_clearBits.mp h).2
        rw [FS.bitAt, h2] at hc
        cases hc
    · rw [update_of_ne hg]; exact hI.counts gi hgi
  · have hf := hI.free
    have hpos := card_pos.mpr ⟨k, hmem⟩
    have hcov := hI.covers
    have hn := hI.ngroupsLt
    rw [usedBits_giveBit, card_erase_of_mem hmem]
    show u64 (s.super.freeBlocks + 1) + (s.usedBits.card - 1) = s.dataBlocks
    rw [u64_of_lt (by omega)]
    omega
  · show (if k / 2048 < s.galloc.groupHint then k / 2048 else s.galloc.groupHint) < _
    have := hI.hintLt
    split
    · exact (div_lt_iff_lt_mul (by decide)).mpr hk
    · exact this
  · -- below the new hint the old one vouches, and `k` itself is not below it
    have hj' : j < (if k / 2048 < s.galloc.groupHint then k / 2048 else s.galloc.groupHint) * 2048 :=
      hj
    grind [bitAt_giveBit, hI.hintFull]

/-! ## 5. One spec lemma for each entry point -/

/-- While a block of the data area is free there is a lowest clear bit, and it is in range. -/
theorem exists_lowest_clear (hf : s.super.freeBlocks ≠ 0) :
    ∃ k < s.dataBlocks, s.bitAt k = false ∧ ∀ j < k, s.bitAt j = true := by
  have hex : ∃ k, k < s.dataBlocks ∧ s.bitAt k = false := by
    refine Classical.byContradiction fun hno => ?_
    have hall : range s.dataBlocks ⊆ s.usedBits := by
      intro k hk
      have hk' := mem_range.mp hk
      have hcov := hI.covers
      refine mem_usedBits.mpr ⟨by omega, ?_⟩
      cases hb : s.bitAt k with
      | true => rfl
      | false => exact absurd ⟨k, hk', hb⟩ hno
    have hle := card_le_card hall
    rw [card_range] at hle
    have := hI.free
    omega
  refine ⟨Nat.find hex, (Nat.find_spec hex).1, (Nat.find_spec hex).2, fun j hj => ?_⟩
  grind [Nat.find_min]

theorem allocTake_fst (hk : k < s.dataBlocks) :
    (allocTake s (k / 2048) (k % 2048)).1 = s.super.dataStart + k := by
  have hcov := hI.covers
  have htop := hI.top
  have hgi : k / 2048 < s.galloc.ngroups :=
    (div_lt_iff_lt_mul (by decide)).mpr (by omega)
  show u64 ((s.group (k / 2048)).baseBlk + k % 2048) = _
  rw [hI.base _ hgi, u64_of_lt (by omega)]
  omega

/-- **`flatfs_alloc_block`**: it fails, with the state unchanged, exactly when the counter is
    zero; otherwise it takes the lowest clear bit, which lies in the data area. -/
theorem flatfsAllocBlock_spec :
    (s.super.freeBlocks = 0 ∧ flatfsAllocBlock s = (.error .nospace, s)) ∨
    ∃ k < s.dataBlocks, s.bitAt k = false ∧
      flatfsAllocBlock s = (.ok (s.super.dataStart + k), s.takeBit k) ∧ AllocInv (s.takeBit k) := by
  by_cases hf : s.super.freeBlocks = 0
  · exact .inl ⟨hf, by simp [flatfsAllocBlock, hf]⟩
  obtain ⟨k, hk, hc, hlow⟩ := exists_lowest_clear hI hf
  have hcov := hI.covers
  have hkn : k < s.galloc.ngroups * 2048 := by omega
  refine .inr ⟨k, hk, hc, ?_, allocInv_takeBit hI hk hc hlow⟩
  simp only [flatfsAllocBlock, if_neg hf, allocSearch_lowest hI hkn hc hlow, allocTake_fst hI hk]
  rfl

/-- **`flatfs_free_block`**: it clears the bit of an allocated block of the data area and
    refuses everything else with the state unchanged. -/
theorem flatfsFreeBlock_spec (b : Nat) :
    (s.Allocated b ∧ flatfsFreeBlock s b = (.ok, s.giveBit (b - s.super.dataStart)) ∧
      AllocInv (s.giveBit (b - s.super.dataStart))) ∨
    (¬ s.Allocated b ∧ ∃ e, e ≠ .ok ∧ flatfsFreeBlock s b = (e, s)) := by
  by_cases hr : b < s.super.dataStart ∨ b ≥ s.super.totalBlocks
  · refine .inr ⟨fun h => ?_, .bounds, by decide, by simp [flatfsFreeBlock, hr]⟩
    obtain ⟨h1, h2, _⟩ := h
    omega
  have hcov := hI.covers
  have hn := hI.ngroupsLt
  have hd : s.dataBlocks = s.super.totalBlocks - s.super.dataStart := rfl
  have hk : b - s.super.dataStart < s.galloc.ngroups * 2048 := by omega
  have hgi := (div_lt_iff_lt_mul (show 0 < 2048 by decide)).mpr hk
  have e1 : u32 ((b - s.super.dataStart) / groupBlocks) = (b - s.super.dataStart) / 2048 :=
    u32_of_lt (by unfold groupBlocks; omega)
  have e2 : u32 ((b - s.super.dataStart) % groupBlocks) = (b - s.super.dataStart) % 2048 :=
    u32_of_lt (by unfold groupBlocks; omega)
  have hg : ¬ (b - s.super.dataStart) / 2048 ≥ s.galloc.ngroups := by omega
  unfold flatfsFreeBlock
  cases hb : s.bitAt (b - s.super.dataStart) with
  | true =>
    refine .inl ⟨⟨by omega, by omega, hb⟩, ?_, allocInv_giveBit hI hk hb⟩
    unfold FS.bitAt at hb
    simp only [if_neg hr, e1, e2, if_neg hg, hb, Bool.not_true]
    rfl
  | false =>
    refine .inr ⟨fun h => ?_, .inval, by decide, ?_⟩
    · rw [h.2.2] at hb
      cases hb
    · unfold FS.bitAt at hb
      simp only [if_neg hr, e1, e2, if_neg hg, hb, Bool.not_false]
      rfl

theorem allocInv_freeEach (blks : List Nat) : AllocInv (freeEach s blks) := by
  induction blks generalizing s with
  | nil => exact hI
  | cons b blks ih =>
    refine ih ?_
    show AllocInv (flatfsFreeBlock s b).2
    rcases flatfsFreeBlock_spec hI b with ⟨_, he, hI'⟩ | ⟨_, e, _, he⟩
    · rw [he]; exact hI'
    · rw [he]; exact hI

theorem allocInv_freeBlocksLoop (b i n : Nat) : AllocInv (freeBlocksLoop s b i n).2 := by
  induction n generalizing s i with
  | zero => exact hI
  | succ n ih =>
    rcases flatfsFreeBlock_spec hI (u64 (b + i)) with ⟨_, he, hI'⟩ | ⟨_, e, hne, he⟩
    · grind [freeBlocksLoop]
    grind [freeBlocksLoop]

/-- **The loop of `flatfs_alloc_blocks`**: the invariant survives, with or without roll-back,
    and what a successful call adds to `out` is fresh, in range and without repetition. -/
theorem allocBlocksLoop_spec (out : List Nat) (n : Nat) :
    AllocInv (allocBlocksLoop s out n).2 ∧
    ∀ bs, (allocBlocksLoop s out n).1 = .ok bs → ∃ new, bs = out ++ new ∧ new.Nodup ∧
      ∀ b ∈ new, s.super.dataStart ≤ b ∧ b < s.super.totalBlocks ∧ ¬ s.Allocated b := by
  induction n generalizing s out with
  | zero =>
    refine ⟨hI, fun bs hbs => ⟨[], ?_, List.nodup_nil, by simp⟩⟩
    grind [allocBlocksLoop]
  | succ n ih =>
    rcases flatfsAllocBlock_spec hI with ⟨_, he⟩ | ⟨k, hk, hc, he, hI'⟩
    · grind [allocBlocksLoop, allocInv_freeEach]
    · simp only [allocBlocksLoop, he]
      obtain ⟨h1, h2⟩ := ih hI' (out ++ [s.super.dataStart + k])
      refine ⟨h1, fun bs hbs => ?_⟩
      obtain ⟨new, hnew, hnd, hall⟩ := h2 bs hbs
      have hd : s.dataBlocks = s.super.totalBlocks - s.super.dataStart := rfl
      refine ⟨(s.super.dataStart + k) :: new, by simp [hnew], ?_, fun b hb => ?_⟩
      · grind [allocated_takeBit]
      · rcases List.mem_cons.mp hb with rfl | hb
        · refine ⟨by omega, by omega, fun ha => ?_⟩
          grind [ha.2.2]
        · obtain ⟨h3, h4, h5⟩ := hall b hb
          exact ⟨h3, h4, fun ha => h5 ((allocated_takeBit hk b).mpr (.inr ha))⟩

/-! ## 6. Runs of the allocator -/

/-- A call of the allocator's interface. -/
inductive AllocOp where
  | allocBlock
  | allocBlocks (count : Nat)
  | freeBlock (blk : Nat)
  | freeBlocks (blk count : Nat)

/-- The answer of a call that returns only an error code. -/
def errAnswer (r : Done) : Result (List Nat) × FS :=
  (if r.1 = .ok then .ok [] else .error r.1, r.2)

/-- **One call**: the blocks it returns (none for a release), and the state after it. -/
def allocStep (s : FS) : AllocOp → Result (List Nat) × FS
  | .allocBlock => ((flatfsAllocBlock s).1.map fun b => [b], (flatfsAllocBlock s).2)
  | .allocBlocks count => flatfsAllocBlocks s count
  | .freeBlock blk => errAnswer (flatfsFreeBlock s blk)
  | .freeBlocks blk count => errAnswer (flatfsFreeBlocks s blk count)

/-- **The allocator laws in one state**: the two counters agree with the bitmaps, what the next
    call returns is in range and was free, and `flatfs_alloc_block` runs out exactly when every
    block of the data area is allocated. -/
structure AllocLaws (s : FS) : Prop where
  groupCount : ∀ gi < s.galloc.ngroups, (s.group gi).freeCount = (clearBits (s.group gi)).card
  freeBlocks : s.super.freeBlocks + s.usedBits.card = s.super.totalBlocks - s.super.dataStart
  returned : ∀ op bs s', allocStep s op = (.ok bs, s') → bs.Nodup ∧
    ∀ b ∈ bs, s.super.dataStart ≤ b ∧ b < s.super.totalBlocks ∧ ¬ s.Allocated b
  nospace : (flatfsAllocBlock s).1 = .error .nospace ↔
    ∀ b, s.super.dataStart ≤ b → b < s.super.totalBlocks → s.Allocated b

/-- The laws hold in every state any sequence of calls reaches. -/
def AllocSafe (s0 : FS) : Prop := ∀ h s, Reach anyInput allocStep s0 h s → AllocLaws s

theorem allocInv_step (op : AllocOp) : AllocInv (allocStep s op).2 := by
  cases op with
  | allocBlock =>
    rcases flatfsAllocBlock_spec hI with ⟨_, he⟩ | ⟨k, _, _, he, hI'⟩
    · simp only [allocStep, he]; exact hI
    · simp only [allocStep, he]; exact hI'
  | allocBlocks count => exact (allocBlocksLoop_spec hI [] count).1
  | freeBlock blk =>
    rcases flatfsFreeBlock_spec hI blk with ⟨_, he, hI'⟩ | ⟨_, e, _, he⟩
    · simp only [allocStep, he]; exact hI'
    · simp only [allocStep, he]; exact hI
  | freeBlocks blk count => exact allocInv_freeBlocksLoop hI blk 0 count

theorem allocInv_returned {op : AllocOp} {bs : List Nat} {s' : FS}
    (h : allocStep s op = (.ok bs, s')) : bs.Nodup ∧
    ∀ b ∈ bs, s.super.dataStart ≤ b ∧ b < s.super.totalBlocks ∧ ¬ s.Allocated b := by
  have h1 : (allocStep s op).1 = .ok bs := by rw [h]
  have hfree : ∀ r : Done, (errAnswer r).1 = .ok bs → bs = [] := by
    intro r hr
    simp only [errAnswer] at hr
    split at hr
    · simpa using hr.symm
    · cases hr
  cases op with
  | allocBlock =>
    rcases flatfsAllocBlock_spec hI with ⟨_, he⟩ | ⟨k, hk, hc, he, _⟩
    · simp only [allocStep, he] at h1
      cases h1
    · simp only [allocStep, he, Except.map, Except.ok.injEq] at h1
      subst h1
      have hd : s.dataBlocks = s.super.totalBlocks - s.super.dataStart := rfl
      refine ⟨List.nodup_singleton _, fun b hb => ?_⟩
      rw [List.mem_singleton.mp hb]
      refine ⟨by omega, by omega, fun ha => ?_⟩
      grind [ha.2.2]
  | allocBlocks count =>
    obtain ⟨new, hnew, hnd, hall⟩ := (allocBlocksLoop_spec hI [] count).2 bs h1
    grind
  | freeBlock blk => rw [hfree _ h1]; simp
  | freeBlocks blk count => rw [hfree _ h1]; simp

theorem allocLaws_of_inv : AllocLaws s := by
  refine ⟨hI.counts, hI.free, fun op bs s' h => allocInv_returned hI h, ?_⟩
  have hd : s.dataBlocks = s.super.totalBlocks - s.super.dataStart := rfl
  rcases flatfsAllocBlock_spec hI with ⟨hf, he⟩ | ⟨k, hk, hc, he, _⟩
  · refine ⟨fun _ b h1 h2 => ⟨h1, h2, ?_⟩, fun _ => by rw [he]⟩
    -- with the counter at zero the used bits fill the data area
    have hcard := hI.free
    have hsub : s.usedBits ⊆ range s.dataBlocks := fun j hj =>
      mem_range.mpr (hI.inRange j (mem_usedBits.mp hj).1 (mem_usedBits.mp hj).2)
    have heq := eq_of_subset_of_card_le hsub (by rw [card_range]; omega)
    have hmem : b - s.super.dataStart ∈ s.usedBits := by
      rw [heq]; exact mem_range.mpr (by omega)
    exact (mem_usedBits.mp hmem).2
  · refine ⟨fun h => ?_, fun hall => ?_⟩
    · rw [he] at h; cases h
    · have h3 := (hall (s.super.dataStart + k) (by omega) (by omega)).2.2
      grind

theorem allocSafe_of_inv : AllocSafe s := fun _ _ hr =>
  allocLaws_of_inv (hr.invState hI fun _ op h _ => allocInv_step h op)

end Inv

/-! ## 7. From a format to the invariant -/

/-- A group block `flatfs_alloc_init` would write itself, up to fields nothing reads. -/
def FlGroup.Empty (g : FlGroup) (sb : Super) (gi : Nat) : Prop :=
  g.baseBlk = sb.dataStart + gi * 2048 ∧ g.freeCount = 2048 ∧
    ∀ i < 2048, bitmapTest g.bitmap i = false

/-- **The layout a format computes** when the number of data blocks is found without underflow:
    the groups lie between `freelist_start` and `data_start`, cover every block after
    `data_start`, and no sum wraps. -/
theorem flatfsSuperInit_layout {s1 : FS} {cap ninodes : Nat} {label : Option Text}
    (hcap : cap < 2 ^ 64) (hfmt : flatfsSuperInit s cap label ninodes = (.ok, s1))
    (hdata : s1.super.freelistStart + 2 ≤ s1.super.totalBlocks) : s1.super.totalBlocks < 2 ^ 52 ∧
    s1.super.dataStart = s1.super.freelistStart + s1.super.freelistBlocks ∧
    s1.super.freelistBlocks = (s1.super.totalBlocks - s1.super.freelistStart + 2046) / 2048 ∧
    s1.super.freeBlocks = s1.super.totalBlocks - s1.super.dataStart ∧ s1.group = s.group := by
  unfold flatfsSuperInit at hfmt
  split at hfmt
  · cases hfmt
  · obtain rfl := (Prod.mk.inj hfmt).2
    simp only [flatfsSuperUpdateCrc, blockShift, shiftRight_eq_div_pow, groupBlocks] at hdata ⊢
    -- only the start of the groups and the block count matter from here on
    generalize u64 (u64 _ + 1) = f at hdata ⊢
    have hT : cap / 2 ^ 12 < 2 ^ 52 := by omega
    generalize cap / 2 ^ 12 = T at hdata hT ⊢
    rw [sub64_of_le (a := T) (b := f) (by omega) (by omega), sub64_of_le (by omega) (by omega),
      u64_of_lt (x := T - f - 1 + 2048 - 1) (by omega)]
    rw [u64_of_lt (x := f + (T - f - 1 + 2048 - 1) / 2048) (by omega),
      sub64_of_le (by omega) (by omega)]
    exact ⟨hT, rfl, by omega, rfl, trivial⟩

/-- A mount of a formatted image whose buffer held no used group block has the invariant. -/
theorem allocInv_mount {s1 s2 : FS} {cap ninodes : Nat} {label : Option Text}
    (hcap : cap < 2 ^ 64) (hfmt : flatfsSuperInit s cap label ninodes = (.ok, s1))
    (hdata : s1.super.freelistStart + 2 ≤ s1.super.totalBlocks) (hmount : flatfsAllocInit s1 = some s2)
    (hstale : ∀ gi < s1.super.freelistBlocks, (s.group gi).magic = freelistMagic →
      (s.group gi).Empty s1.super gi) : AllocInv s2 := by
  obtain ⟨htot, hds, hng, hfree, hgrp⟩ := flatfsSuperInit_layout hcap hfmt hdata
  unfold flatfsAllocInit at hmount
  split at hmount
  · rename_i hlt
    have hs2 := Option.some.inj hmount
    have hempty : ∀ gi < s1.super.freelistBlocks, (s2.group gi).Empty s1.super gi := by
      intro gi hgi
      rw [← hs2]
      dsimp only
      by_cases hm : (s1.group gi).magic ≠ freelistMagic
      · rw [if_pos ⟨hgi, hm⟩]
        refine ⟨u64_of_lt ?_, rfl, fun i _ => bitmapTest_zero i⟩
        unfold groupBlocks
        omega
      · grind
    have hbit : ∀ k < s1.super.freelistBlocks * 2048, s2.bitAt k = false := fun k hk =>
      (hempty (k / 2048) ((div_lt_iff_lt_mul (by decide)).mpr hk)).2.2 _ (mod_lt _ (by decide))
    have h0 : s2.usedBits = ∅ := by
      refine filter_false_of_mem fun k hk => ?_
      rw [← hs2] at hk
      rw [hbit k (mem_range.mp hk)]
      decide
    have hd : s1.super.totalBlocks - s1.super.dataStart ≤ s1.super.freelistBlocks * 2048 := by
      omega
    subst hs2
    refine ⟨?_, hlt, ?_, ?_, hd, fun gi hgi => (hempty gi hgi).1, fun k hk hb => ?_,
      fun gi hgi => ?_, ?_, ?_, fun k hk => ?_⟩
    · show 0 < s1.super.freelistBlocks
      omega
    · grind
    · grind
    · rw [hbit k hk] at hb
      cases hb
    · obtain ⟨_, hc, hz⟩ := hempty gi hgi
      refine hc.trans ?_
      grind [clearBits, filter_true_of_mem]
    · rw [h0, card_empty]
      exact hfree
    · show 0 < s1.super.freelistBlocks
      omega
    · have hk0 : k < 0 * 2048 := hk
      omega
  · cases hmount

/-- **The allocator laws after a format and a mount**, in every state any finite sequence of
    `flatfs_alloc_block`, `flatfs_alloc_blocks`, `flatfs_free_block` and `flatfs_free_blocks`
    reaches, provided no block of the new free list still carries the group magic of an older
    file system -- or, if it does, describes an empty group of the new layout. -/
theorem flatfsAlloc_safe (s s1 s2 : FS) (cap ninodes : Nat) (label : Option Text)
    (hcap : cap < 2 ^ 64) (hfmt : flatfsSuperInit s cap label ninodes = (.ok, s1))
    (hdata : s1.super.freelistStart + 2 ≤ s1.super.totalBlocks) (hmount : flatfsAllocInit s1 = some s2)
    (hstale : ∀ gi < s1.super.freelistBlocks, (s.group gi).magic = freelistMagic →
      (s.group gi).Empty s1.super gi) : AllocSafe s2 :=
  allocSafe_of_inv (allocInv_mount hcap hfmt hdata hmount hstale)

/-- A buffer whose free-list blocks are given by `grp` and which is zero otherwise. -/
def bufferWith (grp : Nat → FlGroup) : FS :=
  { super := {}, backup := {}, galloc := {}, group := grp, inode := fun _ => {}, inoHint := 1
    blk := fun _ => zeroBytes }

/-- The buffer after a format for 1100 blocks and 64 inodes. -/
def formatted1100 (grp : Nat → FlGroup) : FS :=
  (flatfsSuperInit (bufferWith grp) 4505600 none 64).2

/-- The mounted allocator state of `formatted1100`: one group, 66 data blocks from 1034 on. -/
def mounted1100 (grp : Nat → FlGroup) : FS :=
  { formatted1100 grp with
    galloc := { ngroups := 1, groupHint := 0 }
    group := fun gi =>
      if gi < 1 ∧ (grp gi).magic ≠ freelistMagic then freshGroup (formatted1100 grp).super gi
      else grp gi }

theorem allocInv_1100 : AllocInv (mounted1100 fun _ => {}) :=
  allocInv_mount (show 4505600 < 2 ^ 64 by decide)
    (show flatfsSuperInit (bufferWith fun _ => {}) _ none 64 = (.ok, formatted1100 fun _ => {}) from rfl)
    (by decide) rfl fun gi _ h => absurd h (by simp [bufferWith, freelistMagic])

theorem flatfsAlloc_safe_1100 : AllocSafe (mounted1100 fun _ => {}) :=
  flatfsAlloc_safe (bufferWith fun _ => {}) (formatted1100 fun _ => {}) _ 4505600 64 none
    (by decide) rfl (by decide) rfl fun gi _ h => absurd h (by simp [bufferWith, freelistMagic])

/-- What a used group of an older file system looks like: its first block is allocated. -/
def staleGroup : FlGroup :=
  { magic := freelistMagic, baseBlk := 1034, freeCount := 2047
    bitmap := bitmapSet zeroBytes 0 }

/-- **A format keeps stale groups**: formatting and mounting a buffer whose group block is still
    that of a used file system breaks the accounting at once. -/
theorem flatfsAlloc_stale_group : flatfsSuperInit (bufferWith fun _ => staleGroup) 4505600 none 64 =
      (.ok, formatted1100 fun _ => staleGroup) ∧ (formatted1100 fun _ => staleGroup).super.freelistStart + 2 ≤
      (formatted1100 fun _ => staleGroup).super.totalBlocks ∧
    flatfsAllocInit (formatted1100 fun _ => staleGroup) = some (mounted1100 fun _ => staleGroup) ∧
    ¬ AllocSafe (mounted1100 fun _ => staleGroup) := by
  refine ⟨rfl, by decide, rfl, fun hsafe => ?_⟩
  have hlaw := (hsafe [] _ .start).freeBlocks
  have hmem : 0 ∈ (mounted1100 fun _ => staleGroup).usedBits := mem_usedBits.mpr ⟨by decide, by decide⟩
  have hpos := card_pos.mpr ⟨0, hmem⟩
  have h66 : (mounted1100 fun _ => staleGroup).super.freeBlocks =
    (mounted1100 fun _ => staleGroup).super.totalBlocks -
      (mounted1100 fun _ => staleGroup).super.dataStart := by decide
  omega

end Kobalt.Flatfs

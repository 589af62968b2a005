/-
  Subject: THE ELF LOADER (`kposixz_spawn` in `kapi/src/kposixz_proc.c`): it checks the file header,
  makes a process, maps and fills the `PT_LOAD` segments and builds the stack.

  Memory is one byte store over 64-bit addresses, so that a copy outside the image or outside the
  pages mapped for it is a read or a write like any other. `vmm_alloc_pages` is an oracle `Vmm`: it is
  `kmalloc`, which does not look at the address asked for. What it gives is memory of its own as long as
  no copy has gone elsewhere (`Vmm.Apart`).
-/
import Mathlib.Data.Nat.Count
import Kobalt.Kapi.Wait

namespace Kobalt.Kapi

open Function

/-! ## 1. Memory -/

/-- A 64-bit word. -/
def wrap64 (x : Nat) : Nat := x % 2 ^ 64

/-- `x & ~(k - 1)` for a power of two `k`. -/
def alignDown (x k : Nat) : Nat := x - x % k

section Code

variable (mem : Bytes)

/-- The byte at an address. -/
def load (p : Nat) : UInt8 := mem (wrap64 p)

def store (p : Nat) (v : UInt8) : Bytes := update mem (wrap64 p) v

/-- The little-endian word of `n` bytes at an address. -/
def word (p n : Nat) : Nat := leAt (load mem) p n

def kpzMemzero (mem : Bytes) (p : Nat) : Nat → Bytes
  | 0 => mem
  | n + 1 => kpzMemzero (store mem p 0) (p + 1) n

def kpzMemcpy (mem : Bytes) (dst src : Nat) : Nat → Bytes
  | 0 => mem
  | n + 1 => kpzMemcpy (store mem dst (load mem src)) (dst + 1) (src + 1) n

/-- Copy the bytes of a list to `p`. -/
def putBytes (mem : Bytes) (p : Nat) : Text → Bytes
  | [] => mem
  | b :: bs => putBytes (store mem p b) (p + 1) bs

/-- Write a little-endian word of `n` bytes. -/
def putWord (p n v : Nat) : Bytes := putBytes mem p ((List.range n).map (leByte v))

/-! ## 2. The code -/

/-- The answer of `vmm_alloc_pages` to the `k`-th call, for a hint and a number of pages; 0 if it
    fails. -/
abbrev Vmm := Nat → Nat → Nat → Nat

def kobaltVmmAlloc (vmm : Vmm) (k hint size : Nat) : Nat :=
  if size = 0 then 0 else vmm k hint (wrap64 (size + 0xFFF) / 2 ^ 12)

/-- The fields of `Elf64_Phdr` the loader reads. -/
structure Phdr where
  type : Nat
  flags : Nat
  offset : Nat
  vaddr : Nat
  filesz : Nat
  memsz : Nat
  deriving DecidableEq, Repr

def phdrAt (p : Nat) : Phdr where
  type := word mem p 4
  flags := word mem (p + 4) 4
  offset := word mem (p + 8) 8
  vaddr := word mem (p + 16) 8
  filesz := word mem (p + 32) 8
  memsz := word mem (p + 40) 8

def ptLoad : Nat := 1

def Phdr.segEnd (ph : Phdr) : Nat := wrap64 (ph.vaddr + ph.memsz)

def Phdr.pageStart (ph : Phdr) : Nat := alignDown ph.vaddr 0x1000

def Phdr.pageEnd (ph : Phdr) : Nat := alignDown (wrap64 (ph.segEnd + 0xFFF)) 0x1000

def Phdr.mapSz (ph : Phdr) : Nat := wrap64 (ph.pageEnd + 2 ^ 64 - ph.pageStart)

/-- `elf_prot`: `PF_R`, `PF_W`, `PF_X` to `KPZ_PROT_READ`, `KPZ_PROT_WRITE`, `KPZ_PROT_EXEC`. -/
def elfProt (pflags : Nat) : Nat :=
  (if pflags.testBit 2 then 1 else 0) + (if pflags.testBit 1 then 2 else 0) +
    if pflags.testBit 0 then 4 else 0

/-- What was done for one segment: `size` bytes were mapped at `mapped`, and `filesz` bytes copied
    from `src` to `vaddr`. -/
structure Segment where
  mapped : Nat
  size : Nat
  src : Nat
  vaddr : Nat
  filesz : Nat
  prot : Nat
  deriving DecidableEq, Repr

/-- The segment of a header, if it is mapped by the `k`-th call. -/
def segmentOf (vmm : Vmm) (img k : Nat) (ph : Phdr) : Segment where
  mapped := kobaltVmmAlloc vmm k ph.pageStart ph.mapSz
  size := ph.mapSz
  src := wrap64 (img + ph.offset)
  vaddr := ph.vaddr
  filesz := ph.filesz
  prot := elfProt ph.flags

structure LoadState where
  mem : Bytes
  /-- the calls of `kobalt_vmm_alloc` made -/
  calls : Nat
  loadBase : Nat
  brkEnd : Nat
  /-- the segments loaded, the last one first -/
  segs : List Segment

/-- Clear the pages of a segment and copy what the file has of it. -/
def Segment.copy (sg : Segment) (mem : Bytes) : Bytes :=
  if sg.filesz = 0 then kpzMemzero mem sg.mapped sg.size
  else kpzMemcpy (kpzMemzero mem sg.mapped sg.size) sg.vaddr sg.src sg.filesz

/-- The body of the loop for a `PT_LOAD` header; `none` if nothing can be mapped. -/
def loadSegment (vmm : Vmm) (img : Nat) (st : LoadState) (ph : Phdr) : Option LoadState :=
  let sg := segmentOf vmm img st.calls ph
  if sg.mapped = 0 then none
  else some
    { mem := sg.copy st.mem
      calls := st.calls + 1
      loadBase := if st.loadBase = 0 ∨ ph.pageStart < st.loadBase then ph.pageStart else st.loadBase
      brkEnd := if ph.segEnd > st.brkEnd then ph.segEnd else st.brkEnd
      segs := sg :: st.segs }

/-- `e_phnum` -/
def phnum (img : Nat) : Nat := word mem (img + 56) 2

/-- Entry `i` of the program header table; `ph` is its address. -/
def entry (ph i : Nat) : Phdr := phdrAt mem (ph + 56 * i)

/-- The loop over the program headers, which are read from memory as it is by then. -/
def loadLoop (vmm : Vmm) (img ph : Nat) : Nat → Nat → LoadState → Option LoadState
  | 0, _, st => some st
  | fuel + 1, i, st =>
    if i < phnum st.mem img then
      if (entry st.mem ph i).type ≠ ptLoad then loadLoop vmm img ph fuel (i + 1) st
      else (loadSegment vmm img st (entry st.mem ph i)).bind (loadLoop vmm img ph fuel (i + 1))
    else some st

/-- The table is where `e_phoff` says. -/
def phTable (img : Nat) : Nat := wrap64 (img + word mem (img + 32) 8)

def loadSegments (vmm : Vmm) (img : Nat) : Option LoadState :=
  loadLoop vmm img (phTable mem img) (2 ^ 16) 0 ⟨mem, 0, 0, 0, []⟩

/-- The test on the file header. -/
def headerOk (img : Nat) : Bool :=
  load mem img = 0x7f && load mem (img + 1) = 0x45 && load mem (img + 2) = 0x4c && load mem (img + 3) = 0x46 &&
    load mem (img + 4) = 2 && load mem (img + 5) = 1 && word mem (img + 18) 2 = 62 &&
    (word mem (img + 16) 2 = 2 || word mem (img + 16) 2 = 3) && word mem (img + 54) 2 = 56

def userStackSize : Nat := 2 * 1024 * 1024
def userStackTop : Nat := 0x7fff00000000

/-- The strings of `argv` or `envp`: the loader keeps 64 pointers. -/
structure Strings where
  strs : List Text
  fits : strs.length ≤ 64

/-- Copy the strings below `p`, the last one first; the new bottom and where each one is. -/
def pushStrings (mem : Bytes) (p : Nat) : List Text → Bytes × Nat × List Nat
  | [] => (mem, p, [])
  | s :: ss =>
    let (mem, p, ptrs) := pushStrings mem p ss
    let p := wrap64 (p + 2 ^ 64 - (s.length + 1))
    (putBytes mem p (s ++ [0]), p, p :: ptrs)

/-- `*(--sp) = v` for each `v`. -/
def pushWords (mem : Bytes) (sp : Nat) : List Nat → Bytes × Nat
  | [] => (mem, sp)
  | v :: vs =>
    let sp := wrap64 (sp + 2 ^ 64 - 8)
    pushWords (putWord mem sp 8 v) sp vs

/-- The stack: strings, auxiliary vector, `envp`, `argv` and `argc`. The result is the memory, the
    stack pointer and the entry point. -/
def buildStack (img : Nat) (argv envp : Strings) : Bytes × Nat × Nat :=
  let mem := kpzMemzero mem (userStackTop - userStackSize) userStackSize
  let (mem, p, envPtrs) := pushStrings mem (userStackTop - 8) envp.strs
  let (mem, p, argPtrs) := pushStrings mem p argv.strs
  let (mem, sp) := pushWords mem (alignDown p 0x10) [0, 0]
  let e := word mem (img + 24) 8
  let (mem, sp) := pushWords mem sp
    ([e, 9, 4096, 6, 0] ++ envPtrs.reverse ++ [0] ++ argPtrs.reverse ++ [argv.strs.length])
  (mem, sp, e)

/-- What a process starts with. -/
structure Loaded where
  /-- its record in the pool -/
  slot : Nat
  segs : List Segment
  mmBase : Nat
  mmBrk : Nat
  stackTop : Nat
  entryPoint : Nat
  mem : Bytes

/-- What `kposixz_spawn` returns and leaves behind. -/
structure Spawned where
  ret : Int
  ps : ProcSys
  loaded : Option Loaded

/-- `kposixz_spawn` once `img` and `isz` are known. -/
def spawnImage (vmm : Vmm) (ps : ProcSys) (kstack : Bool) (img isz : Nat) (argv envp : Strings) :
    Spawned :=
  if img = 0 ∨ isz < 64 then ⟨kpzErr .noent, ps, none⟩
  else if headerOk mem img = false then ⟨kpzErr .noexec, ps, none⟩
  else
    let (i, ps) := kpzProcAlloc ps 0 kstack
    if i = 0 then ⟨kpzErr .nomem, ps, none⟩
    else
      match loadSegments mem vmm img with
      | none => ⟨kpzErr .nomem, kpzProcFree ps i, none⟩
      | some st =>
        if kobaltVmmAlloc vmm st.calls (userStackTop - userStackSize) userStackSize = 0 then
          ⟨kpzErr .nomem, kpzProcFree ps i, none⟩
        else
          let (mem, sp, e) := buildStack st.mem img argv envp
          { ret := (ps.proc i).pid
            ps := ps.setState i .running
            loaded := some ⟨i, st.segs, st.loadBase, alignDown (wrap64 (st.brkEnd + 0xFFF)) 0x1000, sp, e, mem⟩ }

end Code

/-! ## 3. Images that can be loaded -/

/-- The segment of a program header lies inside an image of `isz` bytes, and its sums do not wrap. -/
structure Phdr.Inside (ph : Phdr) (isz : Nat) : Prop where
  file : ph.offset + ph.filesz ≤ isz
  mem : ph.filesz ≤ ph.memsz
  addr : ph.vaddr + ph.memsz < 2 ^ 64

section Image

variable (mem : Bytes) (vmm : Vmm) (img isz : Nat)

/-- The program header table lies inside the image. -/
def TableInside : Prop := word mem (img + 32) 8 + 56 * phnum mem img ≤ isz

/-- Entry `i` of the table is to be loaded. -/
abbrev IsLoad (i : Nat) : Prop := (entry mem (phTable mem img) i).type = ptLoad

/-- **The program headers and the segments they describe lie inside the image**, as integers. -/
structure ImageOk : Prop where
  table : TableInside mem img isz
  segments : ∀ i < phnum mem img, IsLoad mem img i → (entry mem (phTable mem img) i).Inside isz

/-- The segment of entry `i`; those before it were mapped by the calls before. -/
def segmentAt (i : Nat) : Segment :=
  segmentOf vmm img (Nat.count (IsLoad mem img) i) (entry mem (phTable mem img) i)

end Image

/-- The bytes copied come from the image and go to the pages mapped for the segment. -/
def Segment.Safe (sg : Segment) (img isz : Nat) : Prop :=
  sg.filesz ≠ 0 → img ≤ sg.src ∧ sg.src + sg.filesz ≤ img + isz ∧
    sg.mapped ≤ sg.vaddr ∧ sg.vaddr + sg.filesz ≤ sg.mapped + sg.size

/-- **What `kposixz_spawn` should do**: a pid for such an image only, and safe copies; a failed call
    is an error and leaves no process. -/
structure SpawnLaw (mem : Bytes) (ps : ProcSys) (img isz : Nat) (r : Spawned) : Prop where
  pid : ∀ l, r.loaded = some l → ImageOk mem img isz ∧ ∀ sg ∈ l.segs, sg.Safe img isz
  error : r.loaded = none → r.ret < 0 ∧ ∀ i, r.ps.Live i ↔ ps.Live i

/-- The pages of the segment are mapped where it asks for them. -/
def Segment.Placed (sg : Segment) : Prop :=
  sg.filesz ≠ 0 → sg.mapped ≤ sg.vaddr ∧ sg.vaddr + sg.filesz ≤ sg.mapped + sg.size

section Calls

variable (mem : Bytes) (vmm : Vmm) (img isz : Nat)

/-- The pages of entry `i` are, if it is loaded. -/
def PlacedAt (i : Nat) : Prop := IsLoad mem img i → (segmentAt mem vmm img i).Placed

/-- **Pages are refused** before a copy has gone elsewhere: those of a segment, or the stack. -/
def Denied : Prop :=
  (∃ i < phnum mem img, IsLoad mem img i ∧ (segmentAt mem vmm img i).mapped = 0 ∧ ∀ j < i, PlacedAt mem vmm img j) ∨
  (∀ j < phnum mem img, PlacedAt mem vmm img j) ∧
    kobaltVmmAlloc vmm (Nat.count (IsLoad mem img) (phnum mem img)) (userStackTop - userStackSize) userStackSize = 0

/-- **The loader leaves the image or its pages**: a header is read behind the image, or the first copy that
    does not go to the pages mapped for it is made. -/
def Wild : Prop := ¬ TableInside mem img isz ∨ ∃ i < phnum mem img, IsLoad mem img i ∧
  (segmentAt mem vmm img i).mapped ≠ 0 ∧ ¬ (segmentAt mem vmm img i).Placed ∧ ∀ j < i, PlacedAt mem vmm img j

/-- No record of the pool is free, or no kernel stack. -/
def NoProcess (ps : ProcSys) (kstack : Bool) : Prop :=
  (¬ ∃ i, ps.Unused i) ∨ kstack = false

/-- **The call is refused.** -/
def Refused (ps : ProcSys) (kstack : Bool) : Prop :=
  img = 0 ∨ isz < 64 ∨ headerOk mem img = false ∨ NoProcess ps kstack ∨ TableInside mem img isz ∧ Denied mem vmm img

/-- **What the page allocator gives is memory, and not the image's**, as long as every copy before went to the
    pages mapped for it. (One that did not may have hit the records of the heap.) -/
def Vmm.Apart : Prop :=
  ∀ i < phnum mem img, IsLoad mem img i → (∀ j < i, PlacedAt mem vmm img j) → (segmentAt mem vmm img i).mapped ≠ 0 →
    (segmentAt mem vmm img i).mapped + (segmentAt mem vmm img i).size ≤ 2 ^ 64 ∧
      ((segmentAt mem vmm img i).mapped + (segmentAt mem vmm img i).size ≤ img ∨
        img + isz ≤ (segmentAt mem vmm img i).mapped)

end Calls

/-! ## 4. The image is left alone -/

/-- Two memories agree on the image. -/
def Intact (mem mem' : Bytes) (img isz : Nat) : Prop := ∀ x, img ≤ x → x < img + isz → mem' x = mem x

section Frame

variable {mem mem' : Bytes} {img isz p n : Nat}

theorem wrap64_of_lt {x : Nat} (h : x < 2 ^ 64) : wrap64 x = x := Nat.mod_eq_of_lt h

theorem Intact.refl (mem : Bytes) (img isz : Nat) : Intact mem mem img isz := fun _ _ _ => rfl

section

variable (h : Intact mem mem' img isz)
include h

theorem Intact.store {v : UInt8} (hp : p < 2 ^ 64) (ho : p < img ∨ img + isz ≤ p) :
    Intact mem (store mem' p v) img isz := by
  intro x h1 h2
  rw [Kapi.store, wrap64_of_lt hp, update_of_ne (by omega)]
  exact h x h1 h2

theorem Intact.memzero (hp : p + n ≤ 2 ^ 64) (ho : p + n ≤ img ∨ img + isz ≤ p) :
    Intact mem (kpzMemzero mem' p n) img isz := by
  induction n generalizing mem' p with
  | zero => exact h
  | succ n ih => exact ih (h.store (by omega) (by omega)) (by omega) (by omega)

theorem Intact.memcpy {src : Nat} (hp : p + n ≤ 2 ^ 64)
    (ho : p + n ≤ img ∨ img + isz ≤ p) : Intact mem (kpzMemcpy mem' p src n) img isz := by
  induction n generalizing mem' p src with
  | zero => exact h
  | succ n ih => exact ih (h.store (by omega) (by omega)) (by omega) (by omega)

theorem Intact.word (hi : img + isz ≤ 2 ^ 64) (h1 : img ≤ p) (h2 : p + n ≤ img + isz) :
    word mem' p n = word mem p n := by
  refine leAt_congr fun x hx1 hx2 => ?_
  rw [load, load, wrap64_of_lt (by omega)]
  exact h x (by omega) (by omega)

theorem Intact.phdrAt (hi : img + isz ≤ 2 ^ 64) (h1 : img ≤ p)
    (h2 : p + 56 ≤ img + isz) : phdrAt mem' p = phdrAt mem p := by grind [Kapi.phdrAt, h.word]

end

end Frame

/-! ## 5. The loop -/

section Loop

variable {mem : Bytes} {vmm : Vmm} {img isz : Nat}

theorem TableInside.entry_inside (ht : TableInside mem img isz) (hi : img + isz ≤ 2 ^ 64) {i : Nat}
    (h : i < phnum mem img) : img ≤ phTable mem img + 56 * i ∧ phTable mem img + 56 * i + 56 ≤ img + isz := by
  unfold TableInside at ht
  rw [phTable, wrap64_of_lt (by omega)]
  omega

theorem Segment.copy_intact {sg : Segment} {mem' : Bytes} (hm : Intact mem mem' img isz) (hfit : sg.mapped + sg.size ≤ 2 ^ 64)
    (hout : sg.mapped + sg.size ≤ img ∨ img + isz ≤ sg.mapped) (hp : sg.Placed) : Intact mem (sg.copy mem') img isz := by
  have hzero := hm.memzero hfit hout
  rw [Segment.copy]
  split
  · exact hzero
  · next hz =>
    obtain ⟨h1, h2⟩ := hp hz
    exact hzero.memcpy (by omega) (by omega)

/-- The source of a segment inside the image is, so its copy is safe if its pages are mapped where it asks
    for them. -/
theorem segmentAt_safe {i : Nat} (hi : img + isz ≤ 2 ^ 64) (hin : (entry mem (phTable mem img) i).Inside isz)
    (hp : (segmentAt mem vmm img i).Placed) : (segmentAt mem vmm img i).Safe img isz := by
  intro hz
  have hfile := hin.file
  have hlen : (segmentAt mem vmm img i).filesz = (entry mem (phTable mem img) i).filesz := rfl
  have hsrc : (segmentAt mem vmm img i).src = img + (entry mem (phTable mem img) i).offset := by
    rw [hlen] at hz
    exact wrap64_of_lt (by omega)
  refine ⟨?_, ?_, hp hz⟩
  · rw [hsrc]
    omega
  · rw [hsrc, hlen]
    omega

/-- The loop at entry `m`: the image is as it was, and the segments so far are those of the entries before. -/
structure LoadedTo (mem : Bytes) (vmm : Vmm) (img isz m : Nat) (st : LoadState) : Prop where
  intact : Intact mem st.mem img isz
  calls : st.calls = Nat.count (IsLoad mem img) m
  segs : ∀ sg ∈ st.segs, ∃ j < m, IsLoad mem img j ∧ sg = segmentAt mem vmm img j

section Table

variable (hi : img + isz ≤ 2 ^ 64) (h64 : 64 ≤ isz) (ht : TableInside mem img isz)
include hi h64 ht

theorem loadLoop_round {i fuel : Nat} {st : LoadState} (h : LoadedTo mem vmm img isz i st) (hlt : i < phnum mem img) :
    loadLoop vmm img (phTable mem img) (fuel + 1) i st =
      if IsLoad mem img i then (loadSegment vmm img st (entry mem (phTable mem img) i)).bind
        (loadLoop vmm img (phTable mem img) fuel (i + 1))
      else loadLoop vmm img (phTable mem img) fuel (i + 1) st := by
  obtain ⟨hin1, hin2⟩ := ht.entry_inside hi hlt
  have hnum : phnum st.mem img = phnum mem img := h.intact.word hi (by omega) (by omega)
  have hent : entry st.mem (phTable mem img) i = entry mem (phTable mem img) i := h.intact.phdrAt hi hin1 hin2
  rw [loadLoop, hnum, if_pos hlt, hent]
  by_cases hty : IsLoad mem img i
  · rw [if_pos hty, if_neg (not_not.2 hty)]
  · rw [if_neg hty, if_pos hty]

/-- **The loop up to entry `m`**, if the pages of the entries before are mapped where they ask for them: it
    fails, or it comes there. -/
theorem loadLoop_upto (hv : vmm.Apart mem img isz) {m : Nat} (hm : m ≤ phnum mem img)
    (hpl : ∀ j < m, PlacedAt mem vmm img j) : ∀ (k i fuel : Nat) (st : LoadState), i + k = m → k ≤ fuel →
      LoadedTo mem vmm img isz i st → loadLoop vmm img (phTable mem img) fuel i st = none ∧
          (∃ j < m, IsLoad mem img j ∧ (segmentAt mem vmm img j).mapped = 0) ∨
        ∃ st', loadLoop vmm img (phTable mem img) fuel i st = loadLoop vmm img (phTable mem img) (fuel - k) m st' ∧
          LoadedTo mem vmm img isz m st' := by
  intro k
  induction k with
  | zero =>
    intro i fuel st him _ h
    obtain rfl : i = m := him
    exact .inr ⟨st, rfl, h⟩
  | succ k ih =>
    intro i fuel st him hf h
    obtain ⟨fuel, rfl⟩ : ∃ f, fuel = f + 1 := ⟨fuel - 1, by omega⟩
    rw [loadLoop_round hi h64 ht h (by omega), Nat.add_sub_add_right]
    by_cases hty : IsLoad mem img i
    swap
    · rw [if_neg hty]
      refine ih (i + 1) fuel st (by omega) (by omega) ⟨h.intact, ?_, fun sg hsg => ?_⟩
      · rw [Nat.count_succ, if_neg hty, h.calls, Nat.add_zero]
      · obtain ⟨j, hj, hsg⟩ := h.segs sg hsg
        exact ⟨j, by omega, hsg⟩
    rw [if_pos hty]
    have hseg : segmentOf vmm img st.calls (entry mem (phTable mem img) i) = segmentAt mem vmm img i := by
      rw [segmentAt, h.calls]
    unfold loadSegment
    dsimp only
    rw [hseg]
    by_cases h0 : (segmentAt mem vmm img i).mapped = 0
    · rw [if_pos h0]
      exact .inl ⟨rfl, i, by omega, hty, h0⟩
    rw [if_neg h0, Option.bind_some]
    obtain ⟨hfit, hout⟩ := hv i (by omega) hty (fun j hj => hpl j (by omega)) h0
    have hcopy : Intact mem ((segmentAt mem vmm img i).copy st.mem) img isz :=
      Segment.copy_intact h.intact hfit hout (hpl i (by omega) hty)
    refine ih (i + 1) fuel _ (by omega) (by omega) ?_
    refine ⟨by dsimp only; exact hcopy, ?_, fun sg hsg => ?_⟩
    · rw [Nat.count_succ, if_pos hty, ← h.calls]
    · rcases List.mem_cons.1 hsg with rfl | hsg
      · exact ⟨i, by omega, hty, rfl⟩
      · obtain ⟨j, hj, hsg⟩ := h.segs sg hsg
        exact ⟨j, by omega, hsg⟩

theorem loadSegments_upto (hv : vmm.Apart mem img isz) {m : Nat} (hm : m ≤ phnum mem img)
    (hpl : ∀ j < m, PlacedAt mem vmm img j) : loadSegments mem vmm img = none ∧
          (∃ j < m, IsLoad mem img j ∧ (segmentAt mem vmm img j).mapped = 0) ∨
        ∃ st, loadSegments mem vmm img = loadLoop vmm img (phTable mem img) (2 ^ 16 - m) m st ∧
          LoadedTo mem vmm img isz m st := by
  have hlt : phnum mem img < 2 ^ 16 := leAt_lt ..
  exact loadLoop_upto hi h64 ht hv hm hpl m 0 _ _ (Nat.zero_add m) (by omega)
    ⟨Intact.refl mem img isz, (Nat.count_zero _).symm, fun _ h => nomatch h⟩

/-- **A loop that keeps to its pages** fails, or ends with the segments of the image. -/
theorem loadSegments_placed (hv : vmm.Apart mem img isz) (hpl : ∀ j < phnum mem img, PlacedAt mem vmm img j) :
    loadSegments mem vmm img = none ∧
        (∃ j < phnum mem img, IsLoad mem img j ∧ (segmentAt mem vmm img j).mapped = 0) ∨
      ∃ st, loadSegments mem vmm img = some st ∧ LoadedTo mem vmm img isz (phnum mem img) st := by
  refine (loadSegments_upto hi h64 ht hv le_rfl hpl).imp_right fun ⟨st, hst, h⟩ => ⟨st, ?_, h⟩
  have hnum : phnum st.mem img = phnum mem img := h.intact.word hi (by omega) (by omega)
  rw [hst]
  cases 2 ^ 16 - phnum mem img with
  | zero => rfl
  | succ f => rw [loadLoop, hnum, if_neg (Nat.lt_irrefl _)]

end Table

end Loop

/-! ## 6. The whole call -/

section Spawn

variable {mem : Bytes} {vmm : Vmm} {ps : ProcSys} {kstack : Bool} {img isz : Nat} {argv envp : Strings}

/-- The process a call makes; 0 if none. -/
def Spawned.slot (r : Spawned) : Nat := (r.loaded.map Loaded.slot).getD 0

theorem spawnImage_spawnProc (mem : Bytes) (vmm : Vmm) (ps : ProcSys) (kstack : Bool) (img isz : Nat)
    (argv envp : Strings) : ∃ e, spawnProc ps kstack e = ((spawnImage mem vmm ps kstack img isz argv envp).slot,
      (spawnImage mem vmm ps kstack img isz argv envp).ret, (spawnImage mem vmm ps kstack img isz argv envp).ps) := by
  unfold spawnImage
  split
  · exact ⟨.refused .noent, rfl⟩
  split
  · exact ⟨.refused .noexec, rfl⟩
  dsimp only
  split
  · next h0 => exact ⟨.loaded, by rw [spawnProc]; simp only [h0, if_true]; rfl⟩
  · next h0 =>
    split
    · exact ⟨.unmapped, by rw [spawnProc]; simp only [h0, if_false]; rfl⟩
    · split
      · exact ⟨.unmapped, by rw [spawnProc]; simp only [h0, if_false]; rfl⟩
      · exact ⟨.loaded, by rw [spawnProc]; simp only [h0, if_false]; rfl⟩

theorem spawnProc_failed (ps : ProcSys) (kstack : Bool) (e : SpawnEnd) (h : (spawnProc ps kstack e).1 = 0) :
    (spawnProc ps kstack e).2.1 < 0 ∧ ∀ k, (spawnProc ps kstack e).2.2.Live k ↔ ps.Live k := by
  cases e with
  | refused e => exact ⟨kpzErr_neg e, fun _ => Iff.rfl⟩
  | unmapped =>
    rcases alloc_live ps kstack with ⟨h0, -, hl⟩ | ⟨i, hi, he⟩
    · simp only [spawnProc, h0, if_true]
      exact ⟨kpzErr_neg _, fun k => (hl k).1⟩
    · simp only [spawnProc, he, if_neg (show i ≠ 0 by omega)]
      exact ⟨kpzErr_neg _, made_free_live hi 0⟩
  | loaded =>
    rcases alloc_live ps kstack with ⟨h0, -, hl⟩ | ⟨i, hi, he⟩
    · simp only [spawnProc, h0, if_true]
      exact ⟨kpzErr_neg _, fun k => (hl k).1⟩
    · rw [spawnProc, he] at h
      dsimp only at h
      rw [if_neg (by omega)] at h
      exact absurd h (by simp; omega)

/-- **When a call returns a pid**: nothing is asked of the program headers. -/
theorem spawnImage_loaded_iff (mem : Bytes) (vmm : Vmm) (ps : ProcSys) (kstack : Bool) (img isz : Nat)
    (argv envp : Strings) (segs : List Segment) :
    (∃ l, (spawnImage mem vmm ps kstack img isz argv envp).loaded = some l ∧ l.segs = segs) ↔
      img ≠ 0 ∧ 64 ≤ isz ∧ headerOk mem img = true ∧ (kpzProcAlloc ps 0 kstack).1 ≠ 0 ∧
      ∃ st, loadSegments mem vmm img = some st ∧ st.segs = segs ∧
        kobaltVmmAlloc vmm st.calls (userStackTop - userStackSize) userStackSize ≠ 0 := by
  unfold spawnImage
  split
  · next h => exact iff_of_false (fun ⟨_, h, _⟩ => nomatch h) fun h' => by omega
  next h0 =>
  split
  · next h1 => exact iff_of_false (fun ⟨_, h, _⟩ => nomatch h) fun h' => by rw [h1] at h'; exact nomatch h'.2.2.1
  next h1 =>
  dsimp only
  split
  · next h2 => exact iff_of_false (fun ⟨_, h, _⟩ => nomatch h) fun h' => h'.2.2.2.1 h2
  next h2 =>
  have hpre : img ≠ 0 ∧ 64 ≤ isz ∧ headerOk mem img = true := ⟨by omega, by omega, by simpa using h1⟩
  split
  · next h3 => grind
  next st h3 =>
  split
  · next h4 => grind
  grind

theorem kpzProcAlloc_eq_zero (ps : ProcSys) (kstack : Bool) : (kpzProcAlloc ps 0 kstack).1 = 0 ↔ NoProcess ps kstack := by
  rcases kpzProcAlloc_cases ps 0 kstack with ⟨hno, he⟩ | ⟨i, hi, he⟩
  · rw [he]
    exact iff_of_true rfl (.inl hno)
  · rw [he]
    cases kstack with
    | false => exact iff_of_true rfl (.inr rfl)
    | true => exact iff_of_false (by simp; omega) fun h => h.elim (fun h => h ⟨i, hi⟩) nofun

section Ends

variable (ps : ProcSys) (kstack : Bool) (argv envp : Strings) (hi : img + isz ≤ 2 ^ 64) (hv : vmm.Apart mem img isz)
include hi hv

theorem spawnImage_refused (h : Refused mem vmm img isz ps kstack) :
    (spawnImage mem vmm ps kstack img isz argv envp).loaded = none := by
  cases hl : (spawnImage mem vmm ps kstack img isz argv envp).loaded with
  | none => rfl
  | some l =>
    obtain ⟨h0, h64, hh, hp, st, hst, -, hstack⟩ := (spawnImage_loaded_iff ..).mp ⟨l, hl, rfl⟩
    rcases h with h | h | h | h | ⟨ht, h⟩
    · exact absurd h h0
    · omega
    · exact nomatch h.symm.trans hh
    · exact absurd ((kpzProcAlloc_eq_zero ..).2 h) hp
    rcases h with ⟨i, hlt, hty, hz, hpl⟩ | ⟨hpl, hz⟩
    · rcases loadSegments_upto hi h64 ht hv (Nat.le_of_lt hlt) hpl with ⟨hn, -⟩ | ⟨st', he, hto⟩
      · exact nomatch hn.symm.trans hst
      · -- at entry `i` nothing can be mapped
        have hnum : phnum mem img < 2 ^ 16 := leAt_lt ..
        rw [show 2 ^ 16 - i = 2 ^ 16 - i - 1 + 1 by omega, loadLoop_round hi h64 ht hto hlt, if_pos hty, loadSegment] at he
        rw [hto.calls, ← segmentAt, if_pos hz] at he
        exact nomatch he.symm.trans hst
    · rcases loadSegments_placed hi h64 ht hv hpl with ⟨hn, -⟩ | ⟨st', he, hto⟩
      · exact nomatch hn.symm.trans hst
      · obtain rfl := Option.some.inj (he.symm.trans hst)
        rw [hto.calls] at hstack
        exact absurd hz hstack

theorem spawnImage_accepted (h : ¬ Refused mem vmm img isz ps kstack) (hw : ¬ Wild mem vmm img isz) :
    (∃ l, (spawnImage mem vmm ps kstack img isz argv envp).loaded = some l) ∧
      ∀ j < phnum mem img, PlacedAt mem vmm img j := by
  obtain ⟨ht, hplaced⟩ : TableInside mem img isz ∧ _ := not_or.1 hw |>.imp_left not_not.1
  have hr : ¬ (img = 0) ∧ ¬ (isz < 64) ∧ ¬ headerOk mem img = false ∧ ¬ NoProcess ps kstack ∧
      ¬ (TableInside mem img isz ∧ Denied mem vmm img) := by simpa only [Refused, not_or] using h
  obtain ⟨h0, h64, hh, hp, hden⟩ := hr
  have hd : ¬ Denied mem vmm img := fun h => hden ⟨ht, h⟩
  -- by strong induction: the first entry whose pages are elsewhere would be a wild copy, or have no pages
  have hpl : ∀ j < phnum mem img, PlacedAt mem vmm img j := by
    intro j
    induction j using Nat.strong_induction_on with
    | _ j ih =>
      intro hj hty
      by_contra hnot
      have hbefore : ∀ k < j, PlacedAt mem vmm img k := fun k hk => ih k hk (by omega)
      refine hplaced ⟨j, hj, hty, fun hz => ?_, hnot, hbefore⟩
      exact hd (.inl ⟨j, hj, hty, hz, hbefore⟩)
  refine ⟨?_, hpl⟩
  rcases loadSegments_placed hi (by omega) ht hv hpl with ⟨-, j, hj, hty, hz⟩ | ⟨st, he, hto⟩
  · exact absurd (.inl ⟨j, hj, hty, hz, fun k hk => hpl k (by omega)⟩) hd
  · obtain ⟨l, hl, -⟩ := (spawnImage_loaded_iff mem vmm ps kstack img isz argv envp st.segs).mpr
      ⟨h0, by omega, by simpa using hh, fun h => hp ((kpzProcAlloc_eq_zero ..).1 h), st, he, rfl, fun hz => hd
        (.inr ⟨hpl, hto.calls ▸ hz⟩)⟩
    exact ⟨l, hl⟩

end Ends

end Spawn

/-- A file header with the program header table at `phoff`. -/
def elfHeader (phoff phnum : UInt8) : Text :=
  [0x7f, 0x45, 0x4c, 0x46, 2, 1, 1, 0, 0, 0, 0, 0, 0, 0, 0, 0, 2, 0, 62, 0, 1, 0, 0, 0, 0, 0, 0x40, 0, 0, 0, 0, 0,
    phoff, 0, 0, 0, 0, 0, 0, 0, 0, 0, 0, 0, 0, 0, 0, 0, 0, 0, 0, 0, 64, 0, 56, 0, phnum, 0, 0, 0, 0, 0, 0, 0]

/-- A `PT_LOAD` header: 120 bytes from the start of the file go to 0x400000. -/
def elfLoad : Text :=
  [1, 0, 0, 0, 5, 0, 0, 0, 0, 0, 0, 0, 0, 0, 0, 0, 0, 0, 0x40, 0, 0, 0, 0, 0, 0, 0, 0x40, 0, 0, 0, 0, 0,
    120, 0, 0, 0, 0, 0, 0, 0, 120, 0, 0, 0, 0, 0, 0, 0, 0, 0x10, 0, 0, 0, 0, 0, 0]

/-- Memory that holds an image at 0x1000 and is zero elsewhere. -/
def imageMem (img : Text) : Bytes := fun x => img.getD (x - 0x1000) 0

/-- An allocator that gives the address asked for, above the image and below the kernel. -/
def lowVmm : Vmm := fun _ hint n => if 0x10000 ≤ hint ∧ hint + n * 0x1000 ≤ 2 ^ 47 then hint else 0

def noStrings : Strings := ⟨[], by decide⟩

end Kobalt.Kapi

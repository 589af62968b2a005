/-
  Subject: SPAWNING BY PATH (`kposixz_spawn`, `kpz_kfs_open` and `sys_execve`). The file is opened,
  and the image is taken to be at `elf_file->priv`; what is there is the record that `kpz_kfs_open`
  keeps about the open file.
-/
import Kobalt.Kapi.Elf

namespace Kobalt.Kapi

open Function

/-! ## 1. The code -/

inductive Node where
  | reg (contents : Text)
  | dir
  deriving DecidableEq, Repr

/-- The file systems below `vfs_open`, as far as one call goes. -/
structure Kfs where
  node : Text → Option Node
  /-- `g_fd[i].used` -/
  used : Nat → Bool
  /-- the driver's `open` succeeds -/
  opens : Bool
  /-- the driver has an `fstat`, and it succeeds -/
  fstat : Bool
  /-- what `kmalloc` gives for the file; 0 if it fails -/
  file : Nat
  /-- the addresses of `kpz_kfs_ops` and `kpz_kfs_dir_ops` -/
  ops : Nat
  dirOps : Nat

def vfsMaxFds : Nat := 256

/-- `vfs_open`. -/
def vfsOpen (k : Kfs) (path : Text) : Option Nat :=
  if k.opens && (k.node path).isSome then (List.range vfsMaxFds).find? fun i => !k.used i else none

/-- The sizes of `kposixz_file_t` and `kpz_kfs_priv_t`. -/
def fileSize : Nat := 40
def privSize : Nat := 536

def fileLen : Option Node → Nat
  | some (.reg c) => c.length
  | _ => 0

/-- The fields of `kposixz_file_t`. -/
def putFile (mem : Bytes) (f ops mode flags : Nat) : Bytes :=
  putWord (putWord (putWord (putWord (putWord (putWord mem f 8 ops) (f + 28) 4 mode) (f + 8) 8 (f + fileSize))
    (f + 16) 8 0) (f + 24) 4 flags) (f + 32) 4 1

/-- The memory after `kpz_kfs_open` and the size its `stat` gives. -/
def kpzKfsOpen (k : Kfs) (mem : Bytes) (path : Text) (flags : Nat) : Option (Bytes × Nat) :=
  let vfd := vfsOpen k path
  if vfd = none ∧ k.node path ≠ some .dir then none
  else if k.file = 0 then none
  else
    let mem := kpzMemzero mem k.file (fileSize + privSize)
    let priv := k.file + fileSize
    if k.node path = some .dir ∧ (vfd = none ∨ k.fstat) then
      let mem := putWord (putWord (putWord mem (priv + 16) 1 1) priv 4 (2 ^ 32 - 1)) (priv + 8) 8 0
      let mem := putBytes mem (priv + 17) (path.take 511 ++ [0])
      some (putFile mem k.file k.dirOps 0o040555 flags, 0)
    else
      let size := if k.fstat then fileLen (k.node path) else 0
      let mem := putWord (putWord mem priv 4 (vfd.getD 0)) (priv + 8) 8 size
      some (putFile mem k.file k.ops 0o100444 flags, size)

def kposixzSpawn (k : Kfs) (mem : Bytes) (vmm : Vmm) (ps : ProcSys) (kstack : Bool) (path : Option Text)
    (img isz : Nat) (argv envp : Strings) : Spawned :=
  match path with
  | none => spawnImage mem vmm ps kstack img isz argv envp
  | some path =>
    if img ≠ 0 then spawnImage mem vmm ps kstack img isz argv envp
    else
      match kpzKfsOpen k mem path 0 with
      | none => ⟨kpzErr .noent, ps, none⟩
      | some (mem, size) => spawnImage mem vmm ps kstack (k.file + fileSize) size argv envp

/-! ## 2. The record of the open file is no image -/

section Writes

variable {mem : Bytes} {p q : Nat}

theorem load_store_ne (h : wrap64 q ≠ wrap64 p) (v : UInt8) : load (store mem p v) q = load mem q :=
  update_of_ne h _ _

theorem load_putBytes_of_ne {bs : Text} (hp : p + bs.length ≤ 2 ^ 64) (hq : q < 2 ^ 64)
    (h : q < p ∨ p + bs.length ≤ q) : load (putBytes mem p bs) q = load mem q := by
  induction bs generalizing mem p with
  | nil => rfl
  | cons b bs ih => grind [putBytes, load_store_ne, wrap64_of_lt]

theorem load_putBytes_add {bs : Text} {i : Nat} (hp : p + bs.length ≤ 2 ^ 64) (hi : i < bs.length) :
    load (putBytes mem p bs) (p + i) = bs[i] := by
  induction bs generalizing mem p i with
  | nil => exact nomatch hi
  | cons b bs ih =>
    simp only [List.length_cons] at hp hi
    cases i with
    | zero =>
      rw [putBytes, load_putBytes_of_ne (by omega) (by omega) (by omega)]
      exact update_self ..
    | succ i =>
      rw [putBytes, show p + (i + 1) = p + 1 + i by omega]
      exact ih (by omega) (by omega)

theorem load_putWord_of_ne {n v : Nat} (hp : p + n ≤ 2 ^ 64) (hq : q < 2 ^ 64) (h : q < p ∨ p + n ≤ q) :
    load (putWord mem p n v) q = load mem q := by
  have hlen : ((List.range n).map (leByte v)).length = n := by simp
  exact load_putBytes_of_ne (by omega) hq (by omega)

theorem load_putWord_add {n v i : Nat} (hp : p + n ≤ 2 ^ 64) (hi : i < n) :
    load (putWord mem p n v) (p + i) = leByte v i := by grind [putWord, load_putBytes_add]

theorem load_putFile {f ops mode flags : Nat} (hf : f + fileSize ≤ q) (hq : q < 2 ^ 64) :
    load (putFile mem f ops mode flags) q = load mem q := by grind [fileSize, putFile, load_putWord_of_ne]

end Writes

section Path

variable {k : Kfs} {mem : Bytes} {path : Text}

theorem vfsOpen_lt {fd : Nat} (h : vfsOpen k path = some fd) : fd < vfsMaxFds := by grind [vfsOpen]

/-- **A file that is opened** has a size below that of a header, or its private data does not begin
    with the magic number: a descriptor is below 256, so its second byte is 0. -/
theorem kpzKfsOpen_no_header {flags size : Nat} {mem' : Bytes} (hk : k.file + (fileSize + privSize) ≤ 2 ^ 64)
    (h : kpzKfsOpen k mem path flags = some (mem', size)) :
    size < 64 ∨ headerOk mem' (k.file + fileSize) = false := by
  have hs : fileSize = 40 := rfl
  have hp : privSize = 536 := rfl
  unfold kpzKfsOpen at h
  dsimp only at h
  split at h
  · exact nomatch h
  next hopen =>
  split at h
  · exact nomatch h
  split at h
  · grind
  · next hdir =>
    refine .inr ?_
    obtain ⟨hm, -⟩ := Prod.mk.inj (Option.some.inj h)
    obtain ⟨fd, hfd⟩ : ∃ fd, vfsOpen k path = some fd := by
      refine Option.ne_none_iff_exists'.mp fun hn => hdir ⟨?_, .inl hn⟩
      grind
    have hbyte : load mem' (k.file + fileSize + 1) = 0 := by
      rw [← hm, load_putFile (by omega) (by omega), load_putWord_of_ne (by omega) (by omega) (by omega),
        load_putWord_add (by omega) (by omega), hfd]
      have hlt := vfsOpen_lt hfd
      have hmax : vfsMaxFds = 256 := rfl
      rw [leByte, Option.getD_some, Nat.div_eq_of_lt (by omega)]
      rfl
    rw [headerOk, hbyte]
    simp

/-! ## 3. By path and by image -/

/-- The address belongs to a page mapped for the process or to its stack. -/
def Loaded.Maps (l : Loaded) (x : Nat) : Prop :=
  (∃ sg ∈ l.segs, sg.mapped ≤ x ∧ x < sg.mapped + sg.size) ∨
    userStackTop - userStackSize ≤ x ∧ x < userStackTop

/-- **Two calls do the same**: they succeed alike, and start the process alike. -/
structure SameLoad (r r' : Spawned) : Prop where
  succeeds : r.loaded.isSome = r'.loaded.isSome
  starts : ∀ l l', r.loaded = some l → r'.loaded = some l' →
    l.segs.map (fun sg => (sg.mapped, sg.size, sg.vaddr, sg.filesz, sg.prot)) =
      l'.segs.map (fun sg => (sg.mapped, sg.size, sg.vaddr, sg.filesz, sg.prot)) ∧
    l.entryPoint = l'.entryPoint ∧ l.mmBase = l'.mmBase ∧ l.mmBrk = l'.mmBrk ∧ l.stackTop = l'.stackTop ∧
    ∀ x, l.Maps x → l.mem x = l'.mem x

/-- Memory holds the bytes at `a`. -/
def Holds (mem : Bytes) (a : Nat) (bs : Text) : Prop := ∀ i (h : i < bs.length), load mem (a + i) = bs[i]

/-- The bytes of a list, as a memory that starts with them. -/
def fileBytes (c : Text) : Bytes := fun x => c.getD x 0

theorem Holds.headerOk {c : Text} {a : Nat} (hc : Holds mem a c) (h64 : 64 ≤ c.length) :
    headerOk mem a = headerOk (fileBytes c) 0 := by
  have hload : ∀ i < 64, load mem (a + i) = load (fileBytes c) (0 + i) := by
    intro i hi
    rw [hc i (by omega), load, wrap64_of_lt (by omega), fileBytes, Nat.zero_add]
    simp [show i < c.length by omega]
  have hword : ∀ i n, i + n ≤ 64 → word mem (a + i) n = word (fileBytes c) (0 + i) n := by
    intro i n hn
    refine leAt_shift fun j hj => ?_
    rw [Nat.add_assoc, Nat.add_assoc]
    exact hload (i + j) (by omega)
  unfold Kapi.headerOk
  rw [hload 1 (by omega), hload 2 (by omega), hload 3 (by omega), hload 4 (by omega), hload 5 (by omega),
    hword 18 2 (by omega), hword 16 2 (by omega), hword 54 2 (by omega), show load mem a = _ from hload 0 (by omega)]

variable (vmm : Vmm) (ps : ProcSys) (kstack : Bool) (argv envp : Strings)

/-- **A call by path fails**, with ENOEXEC once the file was opened and has 64 bytes. -/
theorem spawn_path_eq {c : Text} (hfile : k.node path = some (.reg c)) (hk : k.file + (fileSize + privSize) ≤ 2 ^ 64) :
    kposixzSpawn k mem vmm ps kstack (some path) 0 0 argv envp =
      ⟨kpzErr (if vfsOpen k path ≠ none ∧ k.file ≠ 0 ∧ k.fstat = true ∧ 64 ≤ c.length then .noexec else .noent), ps,
        none⟩ := by
  have hno : ∀ mem' size, kpzKfsOpen k mem path 0 = some (mem', size) →
      size < 64 ∨ headerOk mem' (k.file + fileSize) = false := fun mem' size => kpzKfsOpen_no_header hk
  rw [kposixzSpawn, if_neg (by simp)]
  unfold kpzKfsOpen at hno ⊢
  rw [hfile] at hno ⊢
  dsimp only at hno ⊢
  by_cases hv : vfsOpen k path = none
  · rw [if_pos ⟨hv, by simp⟩, if_neg fun h => h.1 hv]
  by_cases hf : k.file = 0
  · rw [if_neg fun h => hv h.1, if_pos hf, if_neg fun h => h.2.1 hf]
  rw [if_neg fun h => hv h.1, if_neg hf, if_neg (by simp)] at hno ⊢
  have := hno _ _ rfl
  dsimp only [fileLen] at this ⊢
  unfold spawnImage
  by_cases hsize : (if k.fstat = true then c.length else 0) < 64
  · rw [if_pos (.inr hsize), if_neg]
    rintro ⟨-, -, hs, h64⟩
    rw [if_pos hs] at hsize
    omega
  · rw [if_neg (by have : fileSize = 40 := rfl; omega), if_pos (this.resolve_left hsize), if_pos]
    by_cases hs : k.fstat = true
    · rw [if_pos hs] at hsize
      exact ⟨hv, hf, hs, by omega⟩
    · rw [if_neg hs] at hsize
      omega

/-- The contents `c` of the file, at `a`, are refused as an image. -/
def FileRefused (mem : Bytes) (a : Nat) (c : Text) : Prop :=
  c.length < 64 ∨ headerOk (fileBytes c) 0 = false ∨ NoProcess ps kstack ∨ TableInside mem a c.length ∧ Denied mem vmm a

end Path

/-- A file system with one file, `/a`; the file structure is made at 0x8000. -/
def oneFile (c : Text) : Kfs where
  node := fun path => if path = [0x2f, 0x61] then some (.reg c) else none
  used := fun _ => false
  opens := true
  fstat := true
  file := 0x8000
  ops := 0
  dirOps := 0

/-- The file `/a` with the contents `c` is spawned. -/
def byPath (c : Text) : Spawned :=
  kposixzSpawn (oneFile c) (imageMem c) lowVmm .start true (some [0x2f, 0x61]) 0 0 noStrings noStrings

def byImage (c : Text) : Spawned :=
  kposixzSpawn (oneFile c) (imageMem c) lowVmm .start true none 0x1000 c.length noStrings noStrings

end Kobalt.Kapi

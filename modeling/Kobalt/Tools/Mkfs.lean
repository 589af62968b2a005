/-
  Subject: THE HOST'S `mkfs.flatfs` (`tools/mkfs_flatfs.c`) AND THE KERNEL: two programs that write
  and read one format.

  The tool writes the image block by block: the superblock and its copy, the journal superblock, the
  groups of the free list, the root of the tree, and the root directory. The kernel mounts what it left.
-/
import Kobalt.Flatfs.Hash
import Kobalt.Flatfs.Recover

namespace Kobalt.Tools

open Flatfs Flatfs.Journal Flatfs.Disk List

/-! ## 1. Records -/

/-- A field of a record: its offset, its length, and a value. -/
structure Field where
  off : Nat
  len : Nat
  val : Nat

/-- The fields are stored one after the other. -/
def putFields (base : Nat) (m : Bytes) : List Field → Bytes
  | [] => m
  | f :: fs => putFields base (putLE m (base + f.off) f.len f.val) fs

section Fields

variable {base b k x : Nat} {m : Bytes}

/-- All fields end before an offset. -/
def endsBefore (n : Nat) (fs : List Field) : Bool := fs.all fun f => f.off + f.len ≤ n

/-- The fields keep away from one. -/
def apartFrom (g : Field) (fs : List Field) : Bool := fs.all fun f => g.off + g.len ≤ f.off || f.off + f.len ≤ g.off

theorem putFields_same (n : Nat) : ∀ {fs : List Field} {m : Bytes}, endsBefore n fs = true → x < base ∨ base + n ≤ x →
    putFields base m fs x = m x := by
  intro fs
  induction fs with
  | nil => exact fun _ _ => rfl
  | cons f fs ih =>
    intro m h hx
    obtain ⟨hf, hfs⟩ := Bool.and_eq_true_iff.1 h
    have hf := of_decide_eq_true hf
    rw [putFields, ih hfs hx, putLE, fill_of_not_mem (by omega)]

theorem leAt_putFields_apart {g : Field} : ∀ (fs : List Field) (m : Bytes), apartFrom g fs = true →
    leAt (putFields base m fs) (base + g.off) g.len = leAt m (base + g.off) g.len := by
  intro fs
  induction fs with
  | nil => exact fun _ _ => rfl
  | cons f fs ih =>
    intro m h
    obtain ⟨hf, hfs⟩ := Bool.and_eq_true_iff.1 h
    have hf : g.off + g.len ≤ f.off ∨ f.off + f.len ≤ g.off := by simpa using hf
    rw [putFields, ih _ hfs]
    exact leAt_putLE_of_disjoint (by omega)

theorem leAt_putFields {g : Field} : ∀ {fs : List Field} (i : Nat) (m : Bytes), fs[i]? = some g →
    apartFrom g (fs.drop (i + 1)) = true → g.val < 256 ^ g.len →
      leAt (putFields base m fs) (base + g.off) g.len = g.val := by
  intro fs
  induction fs with
  | nil => exact fun i m h => nomatch h
  | cons f fs ih => grind [putFields, leAt_putFields_apart, leAt_putLE_self]

end Fields

/-! ## 2. The tool -/

def toolCrc32 (data : Text) : Nat := (data.foldl crcByte 0xFFFFFFFF ^^^ 0xFFFFFFFF).toNat

/-- `set_crc` on a block: the checksum is over the bytes before it. -/
def setCrc (m : Bytes) (a : Nat) : Bytes := putLE m (a + 4092) 4 (toolCrc32 (bytesAt m a 4092))

/-- The checksum of the superblock, over the whole block. -/
def superCrc (m : Bytes) : Bytes :=
  let m := putLE m 4092 4 0
  putLE m 4092 4 (toolCrc32 (bytesAt m 0 4096))

/-- The address of a block in the mapping. -/
def blkAddr (b : Nat) : Nat := b * blockSize

def defaultInodes : Nat := 65536
def defaultJournalBlks : Nat := 1024
def minSizeBytes : Nat := 4 * 1024 * 1024

/-- Where the tool puts things, in blocks. -/
structure MkfsLayout where
  total : Nat
  journalStart : Nat
  inodeTable : Nat
  inodeBlks : Nat
  btreeRoot : Nat
  freelist : Nat
  ngroups : Nat
  dataStart : Nat

def mkfsLayout (cap ninodes jblks : Nat) : MkfsLayout :=
  let total := cap / 4096
  let journalStart := 4
  let inodeTable := u64 (journalStart + jblks)
  let iblks := u64 (ninodes + 15) / 16
  let btreeRoot := u64 (inodeTable + iblks)
  let freelist := u64 (btreeRoot + 1)
  let dataBlks := sub64 (sub64 total freelist) 1
  let ngroups := u64 (dataBlks + 2047) / 2048
  ⟨total, journalStart, inodeTable, iblks, btreeRoot, freelist, ngroups, u64 (freelist + ngroups)⟩

/-- The rest of what the tool is given: the label, and what comes from the clock and the address of the mapping. -/
structure MkfsArgs where
  label : Text
  uuid0 : Nat
  uuid1 : Nat
  time : Nat

section Main

variable (cap ninodes jblks : Nat) (args : MkfsArgs) (l : MkfsLayout) (m : Bytes)

/-- The fields of the superblock, in the order of the source. -/
def superFields : List Field :=
  [⟨0, 4, flatfsMagic⟩, ⟨4, 4, flatfsVersion⟩, ⟨160, 4, 4096⟩, ⟨164, 4, 256⟩, ⟨152, 8, cap⟩, ⟨24, 8, l.total⟩,
    ⟨8, 8, args.uuid0⟩, ⟨16, 8, args.uuid1⟩, ⟨128, 8, args.time⟩, ⟨64, 8, l.journalStart⟩, ⟨72, 8, jblks⟩,
    ⟨80, 8, l.inodeTable⟩, ⟨88, 8, l.inodeBlks⟩, ⟨40, 8, ninodes⟩, ⟨48, 8, sub64 ninodes 2⟩, ⟨96, 8, l.btreeRoot⟩,
    ⟨104, 8, l.freelist⟩, ⟨112, 8, l.ngroups⟩, ⟨120, 8, l.dataStart⟩, ⟨32, 8, sub64 l.total l.dataStart⟩,
    ⟨56, 8, 1⟩, ⟨168, 4, featuresAll⟩, ⟨172, 4, stateClean⟩, ⟨184, 4, 30⟩]

/-- The first 16 MiB are cleared, and the superblock is written and copied. -/
def putSuper : Bytes :=
  let m := fill m 0 (min cap (16 * 1024 * 1024)) zeroBytes
  let m := putFields 0 m (superFields cap ninodes jblks args l)
  superCopy (superCrc (fill m 196 63 fun i => (args.label.takeWhile (· ≠ 0)).getD i 0))

/-- The journal superblock and its copy, two blocks before `journal_start`. -/
def putJournal : Bytes :=
  let a := blkAddr (l.journalStart - 2)
  let m := putFields a m [⟨0, 4, Journal.journalMagic⟩, ⟨4, 4, 1⟩, ⟨8, 8, 1⟩, ⟨16, 8, 0⟩, ⟨24, 8, 0⟩,
    ⟨32, 8, l.journalStart⟩, ⟨40, 8, sub64 jblks 2⟩, ⟨4092, 4, 0⟩]
  let m := setCrc m a
  fill m (a + 4096) 4096 fun i => m (a + i)

def putGroup (gi : Nat) : Bytes :=
  let a := blkAddr (l.freelist + gi)
  let m := fill m a 4096 zeroBytes
  setCrc (putFields a m [⟨0, 4, freelistMagic⟩, ⟨4, 4, u32 gi⟩, ⟨8, 8, u64 (l.dataStart + gi * 2048)⟩, ⟨16, 4, 2048⟩]) a

def putRoot : Bytes :=
  let a := blkAddr l.btreeRoot
  let m := fill m a 4096 zeroBytes
  setCrc (putFields a m [⟨0, 4, Disk.btreeMagic⟩, ⟨4, 2, 1⟩, ⟨6, 2, 0⟩, ⟨16, 8, l.btreeRoot⟩]) a

/-- The address of the root inode. -/
def rootInodeAt : Nat := blkAddr l.inodeTable + 256

/-- The root inode, but for what depends on its block. -/
def putRootInode : Bytes :=
  putFields (rootInodeAt l) (fill m (rootInodeAt l) 256 zeroBytes) [⟨0, 8, 1⟩, ⟨8, 2, 0x41ED⟩, ⟨10, 2, 0⟩, ⟨12, 2, 0⟩,
    ⟨14, 2, 2⟩, ⟨56, 8, args.time⟩, ⟨32, 8, args.time⟩, ⟨40, 8, args.time⟩, ⟨48, 8, args.time⟩, ⟨64, 4, flHtree⟩,
    ⟨252, 4, inodeMagicValue⟩]

/-- `sb->free_blocks--` -/
def takeFree : Bytes := putLE m 32 8 (sub64 (leAt m 32 8) 1)

/-- The block of the root directory. -/
def putDirBlock : Bytes :=
  let a := blkAddr l.dataStart
  setCrc (putFields a (fill m a 4096 zeroBytes) [⟨0, 4, htreeMagic⟩, ⟨4, 4, 2⟩, ⟨8, 4, 1⟩]) a

/-- The bit of that block, which the tool sets 20 bytes into the group, and the group's count. -/
def setDirBit : Bytes :=
  let g := blkAddr l.freelist
  let m := fill m (g + 20) 1 fun _ => m (g + 20) ||| 1
  setCrc (putLE m (g + 16) 4 (u32 (leAt m (g + 16) 4 + 4294967295))) g

/-- The rest of the inode, with its checksum. -/
def finishInode : Bytes :=
  let m := putFields (rootInodeAt l) m [⟨16, 8, 2⟩, ⟨248, 4, 0⟩]
  putLE m (rootInodeAt l + 248) 4 (toolCrc32 (bytesAt m (rootInodeAt l) 256))

def putRootDir : Bytes :=
  let m := putDirBlock l (takeFree (putRootInode args l m))
  finishInode l (setDirBit l (putFields (rootInodeAt l) m [⟨176, 8, l.dataStart⟩, ⟨184, 4, 1⟩]))

/-- A block of the mapping, which ends with the page of the last byte. -/
def Mapped (b : Nat) : Prop := blkAddr b < cap

/-- All blocks that are written behind the journal superblock are mapped. -/
structure Fits : Prop where
  inodes : Mapped cap l.inodeTable
  root : Mapped cap l.btreeRoot
  groups : ∀ gi < l.ngroups, Mapped cap (l.freelist + gi)
  first : Mapped cap l.freelist
  dir : Mapped cap l.dataStart

instance : Decidable (Fits cap l) :=
  decidable_of_iff (blkAddr l.inodeTable < cap ∧ blkAddr l.btreeRoot < cap ∧
      (∀ gi < l.ngroups, blkAddr (l.freelist + gi) < cap) ∧ blkAddr l.freelist < cap ∧ blkAddr l.dataStart < cap)
    ⟨fun h => ⟨h.1, h.2.1, h.2.2.1, h.2.2.2.1, h.2.2.2.2⟩, fun h => ⟨h.inodes, h.root, h.groups, h.first, h.dir⟩⟩

/-- What `main` leaves on a device with the contents `m`. -/
def mkfsImage : Bytes :=
  let m := putJournal jblks l (putSuper cap ninodes jblks args l m)
  let m := (List.range l.ngroups).foldl (putGroup l) m
  superCopy (superCrc (putRootDir args l (putRoot l m)))

/-- `main` of `mkfs_flatfs.c`, on a device of `cap` bytes; no image where it refuses or writes outside of its
    mapping. -/
def mkfsMain : Option Bytes :=
  if ninodes < 16 ∨ jblks < 16 ∨ cap < minSizeBytes then none
  else if Fits cap (mkfsLayout cap ninodes jblks) then
    some (mkfsImage cap ninodes jblks args (mkfsLayout cap ninodes jblks) m)
  else none

end Main

/-! ## 3. The layout -/

/-- A layout on `t` blocks, with `n` groups, where no sum has wrapped around. -/
structure Plain (l : MkfsLayout) (t n : Nat) : Prop where
  total : l.total = t
  journalStart : l.journalStart = 4
  inodeTable : 20 ≤ l.inodeTable
  btreeRoot : l.inodeTable < l.btreeRoot
  freelist : l.freelist = l.btreeRoot + 1
  ngroups : l.ngroups = n
  dataStart : l.dataStart = l.freelist + n

/-- Where all writes are mapped, the groups and the block behind them are inside, and cover the rest. -/
theorem plain_of_fits {cap ninodes jblks : Nat} {l : MkfsLayout} (hl : mkfsLayout cap ninodes jblks = l)
    (hi : 16 ≤ ninodes ∧ ninodes < 2 ^ 63) (hj : 16 ≤ jblks ∧ jblks < 2 ^ 63) (hcap : cap < 2 ^ 64) (h : Fits cap l) :
    ∃ n, Plain l (cap / 4096) n ∧ l.dataStart ≤ cap / 4096 ∧ 2048 * n < cap / 4096 + 2047 ∧
      (0 < n → l.dataStart < cap / 4096 ∧ cap / 4096 ≤ l.dataStart + 2048 * n) := by
  obtain ⟨r, n, hr, hl', hn⟩ : ∃ r n, r = 4 + jblks + (ninodes + 15) / 16 ∧
      l = ⟨cap / 4096, 4, 4 + jblks, (ninodes + 15) / 16, r, r + 1, n, u64 (r + 1 + n)⟩ ∧
      n = u64 (sub64 (sub64 (cap / 4096) (r + 1)) 1 + 2047) / 2048 := by
    refine ⟨_, _, rfl, ?_, rfl⟩
    rw [← hl, mkfsLayout, u64_of_lt (x := 4 + jblks) (by omega), u64_of_lt (x := ninodes + 15) (by omega),
      u64_of_lt (x := 4 + jblks + _) (by omega), u64_of_lt (x := 4 + jblks + _ + 1) (by omega)]
  have hfirst := h.first
  have hdir := h.dir
  subst hl'
  simp only [Mapped, blkAddr, blockSize] at hfirst hdir ⊢
  have hn' : n < 2 ^ 53 := by
    rw [hn]
    unfold u64
    omega
  have hds : u64 (r + 1 + n) = r + 1 + n := u64_of_lt (by omega)
  rw [hds] at hdir ⊢
  refine ⟨n, ⟨rfl, rfl, by dsimp only; omega, by dsimp only; omega, rfl, rfl, rfl⟩, by omega, ?_⟩
  rw [sub64_of_le (a := cap / 4096) (by omega) (by omega)] at hn
  by_cases heq : cap / 4096 = r + 1
  · -- no block is left, and the sum that the groups are counted from wraps around to 2046
    rw [heq, Nat.sub_self] at hn
    have hnone : n = 0 := hn
    omega
  · rw [sub64_of_le (by omega) (by omega), u64_of_lt (by omega)] at hn
    omega

/-! ## 4. The image -/

section Image

variable {cap ninodes jblks x : Nat} {args : MkfsArgs} {m : Bytes} {l : MkfsLayout}

theorem setCrc_same {a : Nat} (h : x < a + 4092 ∨ a + 4096 ≤ x) : setCrc m a x = m x :=
  fill_of_not_mem (by omega)

theorem leAt_setCrc {a b k : Nat} (h : b + k ≤ a + 4092 ∨ a + 4096 ≤ b) : leAt (setCrc m a) b k = leAt m b k :=
  leAt_putLE_of_disjoint (by omega)

theorem blkAddr_add (b k : Nat) : blkAddr (b + k) = blkAddr b + 4096 * k := by
  unfold blkAddr blockSize
  omega

theorem superCrc_eq (m : Bytes) : superCrc m = flatfsSuperUpdateCrc m 0 := rfl

theorem superFields_ends : endsBefore 188 (superFields cap ninodes jblks args l) = true := rfl

/-- What is behind the superblock's fields: the label, the checksum and the copy. -/
theorem putSuper_same (h : 188 ≤ x ∧ x < 196 ∨ 259 ≤ x ∧ x < 4092 ∨ 8192 ≤ x) :
    putSuper cap ninodes jblks args l m x = fill m 0 (min cap 16777216) zeroBytes x := by
  unfold putSuper
  rw [(superCopy_onlyIn _).same x (by omega), superCrc_eq,
    (updateCrc_onlyIn _ 0).same x (by omega), fill_of_not_mem (by omega),
    putFields_same 188 superFields_ends (by omega)]

theorem leAt_putSuper {b k : Nat} (h : b + k ≤ 188) : leAt (putSuper cap ninodes jblks args l m) b k =
    leAt (putFields 0 (fill m 0 (min cap 16777216) zeroBytes) (superFields cap ninodes jblks args l)) b k := by
  unfold putSuper
  rw [(superCopy_onlyIn _).leAt (by omega), superCrc_eq, (updateCrc_onlyIn _ 0).leAt (by omega),
    leAt_fill_of_disjoint (by omega)]

theorem putJournal_same (h : x < blkAddr (l.journalStart - 2) ∨ blkAddr (l.journalStart - 2) + 8192 ≤ x) :
    putJournal jblks l m x = m x := by
  unfold putJournal
  generalize blkAddr (l.journalStart - 2) = a at h ⊢
  rw [fill_of_not_mem (by omega), setCrc_same (by omega), putFields_same 4096 rfl (by omega)]

theorem putGroup_same {gi : Nat} (h : x < blkAddr (l.freelist + gi) ∨ blkAddr (l.freelist + gi) + 4096 ≤ x) :
    putGroup l m gi x = m x := by
  unfold putGroup
  generalize blkAddr (l.freelist + gi) = a at h ⊢
  rw [setCrc_same (by omega), putFields_same 20 rfl (by omega),
    fill_of_not_mem (by omega)]

/-- What a group holds: the magic number, the first block, the count, and a clear bitmap. -/
structure GroupAt (m : Bytes) (l : MkfsLayout) (gi : Nat) : Prop where
  magic : leAt m (blkAddr (l.freelist + gi)) 4 = freelistMagic
  base : leAt m (blkAddr (l.freelist + gi) + 8) 8 = l.dataStart + gi * 2048
  bits : ∀ j, 108 ≤ j → j < 364 → m (blkAddr (l.freelist + gi) + j) = 0

theorem groupAt_putGroup {gi : Nat} (hn : l.dataStart + gi * 2048 < 2 ^ 64) : GroupAt (putGroup l m gi) l gi := by
  have hbase : u64 (l.dataStart + gi * 2048) = l.dataStart + gi * 2048 := u64_of_lt hn
  unfold putGroup
  dsimp only
  rw [hbase]
  refine ⟨?_, ?_, fun j h1 h2 => ?_⟩ <;> generalize blkAddr (l.freelist + gi) = a
  · rw [leAt_setCrc (by omega)]
    exact leAt_putFields (g := ⟨0, 4, freelistMagic⟩) 0 _ rfl rfl (by decide)
  · rw [leAt_setCrc (by omega)]
    exact leAt_putFields (g := ⟨8, 8, l.dataStart + gi * 2048⟩) 2 _ rfl rfl hn
  · rw [setCrc_same (by omega), putFields_same 20 rfl (by omega),
      fill_of_mem (by omega) (by omega)]
    rfl

theorem GroupAt.congr {m' : Bytes} {gi : Nat} (h : GroupAt m l gi)
    (hs : ∀ j < 16, m' (blkAddr (l.freelist + gi) + j) = m (blkAddr (l.freelist + gi) + j))
    (hb : ∀ j, 108 ≤ j → j < 364 → m' (blkAddr (l.freelist + gi) + j) = m (blkAddr (l.freelist + gi) + j)) :
    GroupAt m' l gi := by
  refine ⟨?_, ?_, fun j h1 h2 => ?_⟩
  · grind [h.magic, leAt_shift]
  · rw [← h.base]
    refine leAt_shift fun i hi => ?_
    rw [Nat.add_assoc]
    exact hs (8 + i) (by omega)
  · rw [hb j h1 h2]
    exact h.bits j h1 h2

theorem groups_same : ∀ k, x < blkAddr l.freelist ∨ blkAddr (l.freelist + k) ≤ x →
    (List.range k).foldl (putGroup l) m x = m x := by
  intro k
  induction k with
  | zero => exact fun _ => rfl
  | succ k ih =>
    intro h
    rw [blkAddr_add] at h
    rw [range_succ, foldl_append, foldl_cons, foldl_nil, putGroup_same (by rw [blkAddr_add]; omega),
      ih (by rw [blkAddr_add]; omega)]

theorem groups_at : ∀ k, l.dataStart + k * 2048 < 2 ^ 64 → ∀ gi < k,
    GroupAt ((List.range k).foldl (putGroup l) m) l gi := by
  intro k
  induction k with
  | zero => exact fun _ _ h => absurd h (Nat.not_lt_zero _)
  | succ k ih =>
    intro hk gi hgi
    have hk' : l.dataStart + k * 2048 < 2 ^ 64 := by
      rw [Nat.succ_mul] at hk
      exact Nat.lt_of_le_of_lt (Nat.add_le_add_left (Nat.le_add_right _ _) _) hk
    rw [range_succ, foldl_append, foldl_cons, foldl_nil]
    by_cases hlast : gi = k
    · rw [hlast]
      exact groupAt_putGroup hk'
    · have hle : blkAddr (l.freelist + gi) + 4096 ≤ blkAddr (l.freelist + k) := by
        rw [blkAddr_add, blkAddr_add]
        omega
      exact (ih hk' gi (by omega)).congr (fun j hj => putGroup_same (by omega))
        fun j _ hj => putGroup_same (by omega)

theorem putRoot_same (h : x < blkAddr l.btreeRoot ∨ blkAddr l.btreeRoot + 4096 ≤ x) : putRoot l m x = m x := by
  unfold putRoot
  generalize blkAddr l.btreeRoot = a at h ⊢
  rw [setCrc_same (by omega), putFields_same 24 rfl (by omega),
    fill_of_not_mem (by omega)]

theorem putRoot_magic : leAt (putRoot l m) (blkAddr l.btreeRoot) 4 = Disk.btreeMagic := by
  unfold putRoot
  generalize blkAddr l.btreeRoot = a
  rw [leAt_setCrc (by omega)]
  exact leAt_putFields (g := ⟨0, 4, Disk.btreeMagic⟩) 0 _ rfl rfl (by decide)

theorem putRootInode_same (h : x < rootInodeAt l ∨ rootInodeAt l + 256 ≤ x) : putRootInode args l m x = m x := by
  unfold putRootInode
  rw [putFields_same 256 rfl h, fill_of_not_mem h]

theorem takeFree_same (h : x < 32 ∨ 40 ≤ x) : takeFree m x = m x := fill_of_not_mem (by omega)

theorem putDirBlock_same (h : x < blkAddr l.dataStart ∨ blkAddr l.dataStart + 4096 ≤ x) : putDirBlock l m x = m x := by
  unfold putDirBlock
  rw [setCrc_same (by omega), putFields_same 12 rfl (by omega),
    fill_of_not_mem (by omega)]

/-- Of a group, the tool changes the count, a byte behind it, and the checksum. -/
theorem setDirBit_same (h : x < blkAddr l.freelist + 16 ∨
    blkAddr l.freelist + 21 ≤ x ∧ (x < blkAddr l.freelist + 4092 ∨ blkAddr l.freelist + 4096 ≤ x)) :
    setDirBit l m x = m x := by
  unfold setDirBit
  rw [setCrc_same (by omega), putLE, fill_of_not_mem (by omega), fill_of_not_mem (by omega)]

theorem finishInode_same (h : x < rootInodeAt l + 16 ∨ rootInodeAt l + 24 ≤ x ∧ x < rootInodeAt l + 248 ∨
    rootInodeAt l + 256 ≤ x) : finishInode l m x = m x := by
  unfold finishInode
  rw [putLE, fill_of_not_mem (by omega), putFields, putFields, putFields]
  dsimp only
  rw [putLE, putLE, fill_of_not_mem (by omega), fill_of_not_mem (by omega)]

/-- What the root directory leaves alone. -/
structure OffRootDir (l : MkfsLayout) (x : Nat) : Prop where
  inode : x < rootInodeAt l ∨ rootInodeAt l + 256 ≤ x
  free : x < 32 ∨ 40 ≤ x
  dir : x < blkAddr l.dataStart ∨ blkAddr l.dataStart + 4096 ≤ x
  group : x < blkAddr l.freelist + 16 ∨
    blkAddr l.freelist + 21 ≤ x ∧ (x < blkAddr l.freelist + 4092 ∨ blkAddr l.freelist + 4096 ≤ x)

theorem putRootDir_same (h : OffRootDir l x) : putRootDir args l m x = m x := by
  have hi := h.inode
  unfold putRootDir
  rw [finishInode_same (by omega), setDirBit_same h.group,
    putFields_same 256 rfl hi, putDirBlock_same h.dir, takeFree_same h.free,
    putRootInode_same hi]

theorem Plain.addr {t n : Nat} (h : Plain l t n) : blkAddr (l.journalStart - 2) = 8192 ∧ 81920 ≤ rootInodeAt l ∧
    rootInodeAt l + 256 ≤ blkAddr l.btreeRoot ∧ blkAddr l.freelist = blkAddr l.btreeRoot + 4096 ∧
    blkAddr l.dataStart = blkAddr l.freelist + 4096 * n := by
  have hi := h.inodeTable
  have hr := h.btreeRoot
  unfold rootInodeAt blkAddr blockSize
  rw [h.journalStart, h.dataStart, h.freelist]
  omega

section Whole

variable {t n : Nat}

theorem Plain.order (h : Plain l t n) :
    l.inodeTable < l.btreeRoot ∧ l.freelist = l.btreeRoot + 1 ∧ l.dataStart = l.freelist + n :=
  ⟨h.btreeRoot, h.freelist, h.dataStart⟩

/-- Below the copy of the superblock and behind it, the last two writes change the checksum only. -/
theorem mkfsImage_same (h : x < 4092 ∨ 8192 ≤ x) : ∀ y, superCopy (superCrc y) x = y x := by
  intro y
  rw [(superCopy_onlyIn _).same x (by omega), superCrc_eq, (updateCrc_onlyIn _ 0).same x (by omega)]

/-- The fields of the superblock are those first written, but for the count of free blocks. -/
theorem mkfsImage_low (hp : Plain l t n) (h : x < 188) (hf : x < 32 ∨ 40 ≤ x) :
    mkfsImage cap ninodes jblks args l m x = putSuper cap ninodes jblks args l m x := by
  obtain ⟨hj, hi, hr, hg, hd⟩ := hp.addr
  unfold mkfsImage
  rw [mkfsImage_same (by omega), putRootDir_same ⟨by omega, hf, by omega, by omega⟩, putRoot_same (by omega),
    groups_same _ (by omega), putJournal_same (by omega)]

theorem mkfsImage_field (hp : Plain l t n) {i : Nat} {g : Field} (hg : (superFields cap ninodes jblks args l)[i]? = some g)
    (hpost : apartFrom g ((superFields cap ninodes jblks args l).drop (i + 1)) = true) (hv : g.val < 256 ^ g.len)
    (hend : g.off + g.len ≤ 188 ∧ (g.off + g.len ≤ 32 ∨ 40 ≤ g.off)) :
    leAt (mkfsImage cap ninodes jblks args l m) g.off g.len = g.val := by
  have hread : leAt (putFields 0 _ _) (0 + g.off) g.len = g.val :=
    leAt_putFields i (fill m 0 (min cap 16777216) zeroBytes) hg hpost hv
  rw [Nat.zero_add] at hread
  rw [← hread, ← leAt_putSuper hend.1]
  grind [leAt_congr, mkfsImage_low]

theorem mkfsImage_free (hp : Plain l t n) (hle : l.dataStart ≤ t) (ht : t < 2 ^ 64) :
    leAt (mkfsImage cap ninodes jblks args l m) 32 8 = sub64 (t - l.dataStart) 1 := by
  obtain ⟨hj, hi, hr, hg, hd⟩ := hp.addr
  have hsub : sub64 t l.dataStart = t - l.dataStart := sub64_of_le hle ht
  have hput : leAt (putSuper cap ninodes jblks args l m) 32 8 = t - l.dataStart := by
    have hread : leAt (putFields 0 _ _) (0 + 32) 8 = _ := leAt_putFields (g := ⟨32, 8, sub64 l.total l.dataStart⟩) 19
      (fill m 0 (min cap 16777216) zeroBytes) (show (superFields cap ninodes jblks args l)[19]? = _ from rfl) rfl
      (by rw [hp.total, hsub]; dsimp only; omega)
    rw [hp.total, hsub] at hread
    rw [leAt_putSuper (by omega)]
    exact hread
  have hpre : leAt (putRootInode args l (putRoot l ((List.range l.ngroups).foldl (putGroup l)
      (putJournal jblks l (putSuper cap ninodes jblks args l m))))) 32 8 = t - l.dataStart := by
    rw [← hput]
    refine leAt_congr fun x h1 h2 => ?_
    rw [putRootInode_same (by omega), putRoot_same (by omega), groups_same _ (by omega), putJournal_same (by omega)]
  have hpost : ∀ w, leAt (superCopy (superCrc (finishInode l (setDirBit l (putFields (rootInodeAt l) (putDirBlock l w)
      [⟨176, 8, l.dataStart⟩, ⟨184, 4, 1⟩]))))) 32 8 = leAt w 32 8 := by
    intro w
    refine leAt_congr fun x h1 h2 => ?_
    rw [mkfsImage_same (by omega), finishInode_same (by omega), setDirBit_same (by omega),
      putFields_same 256 rfl (by omega), putDirBlock_same (by omega)]
  grind [mkfsImage, putRootDir, takeFree, leAt_putLE_self, sub64]

/-- Behind the superblocks, the last steps change only what belongs to the root directory. -/
theorem mkfsImage_high (hx : 8192 ≤ x) (h : OffRootDir l x) : mkfsImage cap ninodes jblks args l m x =
    putRoot l ((List.range l.ngroups).foldl (putGroup l) (putJournal jblks l (putSuper cap ninodes jblks args l m))) x := by
  unfold mkfsImage
  rw [mkfsImage_same (.inr hx), putRootDir_same h]

theorem mkfsImage_group (hp : Plain l t n) (hn : l.dataStart + n * 2048 < 2 ^ 64) {gi : Nat} (hgi : gi < n) :
    GroupAt (mkfsImage cap ninodes jblks args l m) l gi := by
  obtain ⟨hj, hi, hr, hg, hd⟩ := hp.addr
  have ha := blkAddr_add l.freelist gi
  have hsame : ∀ j, j < 16 ∨ 108 ≤ j ∧ j < 364 → mkfsImage cap ninodes jblks args l m (blkAddr (l.freelist + gi) + j) =
      (List.range l.ngroups).foldl (putGroup l) (putJournal jblks l (putSuper cap ninodes jblks args l m))
        (blkAddr (l.freelist + gi) + j) := by
    intro j hj'
    rw [mkfsImage_high (by omega) ⟨by omega, by omega, by omega, by omega⟩, putRoot_same (by omega)]
  rw [← hp.ngroups] at hn
  rw [← hp.ngroups] at hgi
  exact (groups_at l.ngroups hn gi hgi).congr (fun j hj' => hsame j (.inl hj'))
    fun j h1 h2 => hsame j (.inr ⟨h1, h2⟩)

theorem mkfsImage_dir (hp : Plain l t n) (hn : l.dataStart < 2 ^ 64) :
    leAt (mkfsImage cap ninodes jblks args l m) (rootInodeAt l + 176) 8 = l.dataStart := by
  obtain ⟨hj, hi, hr, hg, hd⟩ := hp.addr
  have hpost : ∀ w, leAt (superCopy (superCrc (finishInode l (setDirBit l w)))) (rootInodeAt l + 176) 8 =
      leAt w (rootInodeAt l + 176) 8 := by
    intro w
    refine leAt_congr fun x h1 h2 => ?_
    rw [mkfsImage_same (by omega), finishInode_same (by omega), setDirBit_same (by omega)]
  unfold mkfsImage putRootDir
  rw [hpost]
  exact leAt_putFields (g := ⟨176, 8, l.dataStart⟩) 0 _ rfl rfl (by dsimp only; omega)

theorem mkfsImage_crc : flatfsCrc32 (bytesAt (putLE (mkfsImage cap ninodes jblks args l m) (0 + 4092) 4 0) 0 blockSize) =
    leAt (mkfsImage cap ninodes jblks args l m) (0 + 4092) 4 := by
  unfold mkfsImage
  dsimp only
  generalize putRootDir args l _ = w
  rw [superCrc_eq]
  have hcrc := updateCrc_crc w 0
  generalize flatfsSuperUpdateCrc w 0 = u at hcrc ⊢
  have hcopy := superCopy_onlyIn u
  rw [hcopy.leAt (by omega), ← hcrc]
  refine congrArg flatfsCrc32 (bytesAt_congr fun x _ h2 => ?_)
  unfold putLE fill
  rw [hcopy.same x (.inl (by rwa [zero_add] at h2))]

/-- The count of the first group, less the block of the root directory. -/
theorem mkfsImage_count (hp : Plain l t n) (hn : 0 < n) :
    leAt (mkfsImage cap ninodes jblks args l m) (blkAddr l.freelist + 16) 4 = 2047 := by
  obtain ⟨hj, hi, hr, hg, hd⟩ := hp.addr
  generalize hgdef : blkAddr l.freelist = g
  -- the count that the groups are written with
  have hpre : ∀ k, 0 < k → leAt ((List.range k).foldl (putGroup l)
      (putJournal jblks l (putSuper cap ninodes jblks args l m))) (g + 16) 4 = 2048 := by
    intro k
    induction k with
    | zero => exact fun h => absurd h (Nat.lt_irrefl 0)
    | succ k ih =>
      intro _
      rw [range_succ, foldl_append, foldl_cons, foldl_nil]
      by_cases hk : k = 0
      · subst hk
        unfold putGroup
        rw [Nat.add_zero, hgdef, leAt_setCrc (by omega)]
        exact leAt_putFields (g := ⟨16, 4, 2048⟩) 3 _ rfl rfl (by decide)
      · rw [← ih (by omega)]
        refine leAt_congr fun x h1 h2 => putGroup_same ?_
        rw [blkAddr_add]
        omega
  have hpost : ∀ w, leAt w (g + 16) 4 = 2048 →
      leAt (superCopy (superCrc (finishInode l (setDirBit l w)))) (g + 16) 4 = 2047 := by
    intro w hw
    have hsame : leAt (superCopy (superCrc (finishInode l (setDirBit l w)))) (g + 16) 4 = leAt (setDirBit l w) (g + 16) 4 :=
      leAt_congr fun x h1 h2 => by rw [mkfsImage_same (by omega), finishInode_same (by omega)]
    rw [hsame]
    unfold setDirBit
    dsimp only
    rw [hgdef, leAt_setCrc (by omega), leAt_putLE_self (by unfold u32; omega), leAt_fill_of_disjoint (by omega), hw]
    rfl
  unfold mkfsImage putRootDir
  rw [hpost]
  rw [← hpre l.ngroups (by rw [hp.ngroups]; exact hn)]
  refine leAt_congr fun x h1 h2 => ?_
  rw [putFields_same 256 rfl (by omega), putDirBlock_same (by omega),
    takeFree_same (by omega), putRootInode_same (by omega), putRoot_same (by omega)]

/-- **What the tool's image holds**, on `t` blocks with `n` groups. -/
structure Produced (m : Bytes) (l : MkfsLayout) (t n : Nat) : Prop where
  header : t ≤ maxBlocks → HeaderOk m 0
  crc : flatfsCrc32 (bytesAt (putLE m (0 + 4092) 4 0) 0 blockSize) = leAt m (0 + 4092) 4
  mac : leAt m (0 + (blockSize - 12)) 8 = 0
  backup : SameBlock m m 0 blockSize
  state : sbState m = stateClean
  total : leAt m 24 8 = t
  free : leAt m 32 8 = sub64 (t - l.dataStart) 1
  journalStart : journalStart m = 4
  inodeTable : leAt m 80 8 = l.inodeTable
  btreeRoot : leAt m 96 8 = l.btreeRoot
  freelist : leAt m 104 8 = l.freelist
  ngroups : leAt m 112 8 = n
  dataStart : leAt m 120 8 = l.dataStart
  toolJournal : leAt m (blkAddr (l.journalStart - 2)) 4 = Journal.journalMagic
  root : leAt m (blkAddr l.btreeRoot) 4 = Disk.btreeMagic
  dir : leAt m (rootInodeAt l + 176) 8 = l.dataStart
  groups : ∀ gi < n, GroupAt m l gi
  count : 0 < n → leAt m (blkAddr l.freelist + 16) 4 = 2047

theorem produced_image (hp : Plain l t n) (hcap : minSizeBytes ≤ cap) (hle : l.dataStart ≤ t) (ht : t < 2 ^ 52) :
    Produced (mkfsImage cap ninodes jblks args l m) l t n := by
  obtain ⟨hj, hi, hr, hg, hd⟩ := hp.addr
  obtain ⟨htree, hlist, hdata⟩ := hp.order
  have hfield : ∀ i {off len val v}, (superFields cap ninodes jblks args l)[i]? = some ⟨off, len, val⟩ →
      apartFrom ⟨off, len, val⟩ ((superFields cap ninodes jblks args l).drop (i + 1)) = true → val = v → v < 256 ^ len →
      off + len ≤ 188 ∧ (off + len ≤ 32 ∨ 40 ≤ off) → leAt (mkfsImage cap ninodes jblks args l m) off len = v := by
    rintro i off len val _ h1 h2 rfl h3 h4
    exact mkfsImage_field (g := ⟨off, len, val⟩) hp h1 h2 h3 h4
  have htotal := hfield 5 rfl rfl hp.total (by omega) (by decide)
  refine ⟨fun hmax => ⟨?_, ?_, ?_, ?_, ?_⟩, ?_, ?_, superCopy_same _, ?_, htotal, mkfsImage_free hp hle (by omega), ?_, ?_, ?_, ?_, ?_, ?_,
    ?_, ?_, mkfsImage_dir hp (by omega), fun gi hgi => mkfsImage_group hp (by omega) hgi, mkfsImage_count hp⟩
  · exact hfield 0 rfl rfl rfl (by decide) (by decide)
  · exact hfield 1 rfl rfl rfl (by decide) (by decide)
  · exact hfield 2 rfl rfl rfl (by decide) (by decide)
  · exact hfield 3 rfl rfl rfl (by decide) (by decide)
  · rw [Nat.zero_add, htotal]
    exact hmax
  · exact mkfsImage_crc
  · refine leAt_eq_zero fun x h1 h2 => ?_
    simp only [blockSize] at h1 h2
    have hmin : 4092 ≤ min cap 16777216 := by
      unfold minSizeBytes at hcap
      omega
    unfold mkfsImage
    rw [mkfsImage_same (by omega), putRootDir_same ⟨by omega, by omega, by omega, by omega⟩, putRoot_same (by omega),
      groups_same _ (by omega), putJournal_same (by omega), putSuper_same (by omega), fill_of_mem (by omega) (by omega)]
    rfl
  · exact hfield 22 rfl rfl rfl (by decide) (by decide)
  · exact hfield 9 rfl rfl hp.journalStart (by decide) (by decide)
  · exact hfield 11 rfl rfl rfl (by omega) (by decide)
  · exact hfield 15 rfl rfl rfl (by omega) (by decide)
  · exact hfield 16 rfl rfl rfl (by omega) (by decide)
  · exact hfield 17 rfl rfl hp.ngroups (by omega) (by decide)
  · exact hfield 18 rfl rfl rfl (by omega) (by decide)
  · have hput : leAt (putJournal jblks l (putSuper cap ninodes jblks args l m)) (blkAddr (l.journalStart - 2)) 4 =
        Journal.journalMagic := by
      unfold putJournal
      generalize blkAddr (l.journalStart - 2) = a
      rw [leAt_fill_of_disjoint (by omega), leAt_setCrc (by omega)]
      exact leAt_putFields (g := ⟨0, 4, Journal.journalMagic⟩) 0 _ rfl rfl (by decide)
    rw [← hput]
    refine leAt_congr fun x h1 h2 => ?_
    rw [mkfsImage_high (by omega) ⟨by omega, by omega, by omega, by omega⟩, putRoot_same (by omega), groups_same _ (by omega)]
  · have hroot := putRoot_magic (l := l) (m := (List.range l.ngroups).foldl (putGroup l)
      (putJournal jblks l (putSuper cap ninodes jblks args l m)))
    rw [← hroot]
    exact leAt_congr fun x h1 h2 => mkfsImage_high (by omega) ⟨by omega, by omega, by omega, by omega⟩

end Whole

end Image

/-! ## 5. The mount of the image -/

/-- What the allocator sees of a mounted image. -/
def allocView (m : Bytes) : FS where
  super :=
    { totalBlocks := leAt m 24 8, freeBlocks := leAt m 32 8, freelistStart := leAt m 104 8
      freelistBlocks := leAt m 112 8, dataStart := leAt m 120 8 }
  backup := {}
  galloc := { ngroups := leAt m 112 8, groupHint := 0 }
  group gi :=
    let a := blkPtr (leAt m 104 8 + gi)
    { magic := leAt m a 4, groupIdx := leAt m (a + 4) 4, baseBlk := leAt m (a + 8) 8
      freeCount := leAt m (a + 16) 4, bitmap := fun i => m (a + 108 + i) }
  inode _ := {}
  inoHint := 0
  blk b i := m (blkPtr b + i)

/-- The inode table, the root of the tree, the groups and the root directory are where the tool put them. -/
structure RegionsAt (l : MkfsLayout) (m : Bytes) : Prop where
  inodes : leAt m 80 8 = l.inodeTable
  tree : leAt m 96 8 = l.btreeRoot
  freelist : leAt m 104 8 = l.freelist
  ngroups : leAt m 112 8 = l.ngroups
  groups : ∀ gi < l.ngroups, leAt m (blkPtr (leAt m 104 8 + gi)) 4 = freelistMagic
  dir : leAt m (blkPtr (leAt m 80 8) + 256 + 176) 8 = l.dataStart

/-- **The mounted image is what the tool meant.** Below the data area the allocator has no bits; the block that
    the tool uses in it is that of the root directory. -/
structure FoundAt (l : MkfsLayout) (m : Bytes) : Prop extends RegionsAt l m where
  journal : jsuper m = blkAddr (l.journalStart - 2)
  logStart : jsLogStart m (jsuper m) = l.journalStart
  used : (allocView m).Allocated l.dataStart
  free : (allocView m).super.freeBlocks = clearBlocks (allocView m)

/-- **The tool and the kernel agree** on an image: it is mounted, and everything is found. -/
def Agrees (mac : Mac) (fuel cap : Nat) (l : MkfsLayout) (m : Bytes) : Prop :=
  ∃ m', flatfsMount mac fuel cap m = some (.ok, m') ∧ FoundAt l m'

section Mounting

variable {mac : Mac} {fuel cap t n : Nat} {l : MkfsLayout} {m m' : Bytes}

theorem validate_total {a : Nat} (h : flatfsSuperValidate m a = .ok) : leAt m (a + 24) 8 ≤ maxBlocks := by
  unfold Disk.flatfsSuperValidate at h
  split_ifs at h with h1 h2 h3 h4 h5
  exact Nat.le_of_not_lt h5

theorem mount_produced_large (h : Produced m l t n) (ht : maxBlocks < t) :
    flatfsMount mac fuel cap m ≠ some (.ok, m') := by
  have h0 : flatfsSuperValidate m 0 ≠ .ok := by
    intro hv
    have hle := validate_total hv
    rw [Nat.zero_add, h.total] at hle
    omega
  have h1 : flatfsSuperValidate m blockSize ≠ .ok := by
    intro hv
    have hle := validate_total hv
    rw [h.backup.leAt 24 8 (by omega), Nat.zero_add, h.total] at hle
    omega
  grind [Disk.flatfsSuperRead, Disk.flatfsMount]

theorem blkPtr_addr {b : Nat} (h : b < maxBlocks) : blkPtr b = blkAddr b := by
  rw [blkPtr_eq h, blkAddr, blockSize, Nat.mul_comm]

theorem allocInit_same (hn : leAt m 112 8 < 2 ^ 32)
    (hg : ∀ gi < leAt m 112 8, leAt m (blkPtr (leAt m 104 8 + gi)) 4 = freelistMagic) :
    Disk.flatfsAllocInit m = some m := by
  have hfold : ∀ k ≤ leAt m 112 8, (List.range k).foldl groupInit m = m := by
    intro k
    induction k with
    | zero => exact fun _ => rfl
    | succ k ih =>
      intro hk
      rw [range_succ, foldl_append, ih (by omega), foldl_cons, foldl_nil, groupInit]
      exact if_neg (not_not.2 (hg k hk))
  rw [Disk.flatfsAllocInit, if_pos hn, hfold _ le_rfl]

/-- **The image is mounted**: the journal that the kernel looks for is not there, and it makes one in the log
    of the tool's. -/
theorem mount_produced (h : Produced m l t n) (hp : Plain l t n) (hcap : blockSize * 32 ≤ cap) (ht : t ≤ maxBlocks)
    (hle : l.dataStart ≤ t) (hn : n < 2 ^ 32) : ∃ m', flatfsMount mac fuel cap m = some (.ok, m') ∧
      ∀ x, x < 172 ∨ 24576 ≤ x → m' x = m x := by
  obtain ⟨hj, hi, hr, hg, hd⟩ := hp.addr
  obtain ⟨htree, hlist, hdata⟩ := hp.order
  have hok : SuperOk mac m 0 := by
    refine ⟨h.header ht, h.crc, ?_⟩
    unfold Disk.flatfsTykidMacOk
    cases mac with
    | none => rfl
    | some f =>
      dsimp only
      rw [h.mac, beq_self_eq_true, Bool.or_true, Bool.true_or]
  have hclean : sbState m &&& stateDirty = 0 := by
    rw [h.state]
    decide
  generalize hdirty : flatfsSuperMarkDirty mac m = d
  have hsame : ∀ x, x < 172 ∨ 8192 ≤ x → d x = m x := fun x hx => hdirty ▸ markDirty_same hx
  have hfield : ∀ a k, a + k ≤ 172 ∨ 8192 ≤ a → leAt d a k = leAt m a k :=
    fun a k ha => leAt_congr fun x h1 h2 => hsame x (by omega)
  have hstart : journalStart d = 4 := (hfield 64 8 (by omega)).trans h.journalStart
  have halloc : Disk.flatfsAllocInit d = some d := by
    refine allocInit_same ?_ fun gi hgi => ?_
    · grind [h.ngroups]
    · rw [hfield 112 8 (by omega), h.ngroups] at hgi
      have hmagic := (h.groups gi hgi).magic
      rw [hfield 104 8 (by omega), h.freelist, blkPtr_addr (by omega), ← hmagic]
      exact hfield _ _ (.inr (by rw [blkAddr_add]; omega))
  generalize hrdef : Disk.flatfsJournalInit d = r
  have hrsame : ∀ x, x < 16384 ∨ 24576 ≤ x → r x = d x := by
    intro x hx
    rw [← hrdef]
    exact journalInit_same (by omega) (by rw [hstart]; decide) (by omega)
  have hfield' : ∀ a k, a + k ≤ 172 ∨ 24576 ≤ a → leAt r a k = leAt m a k := by
    intro a k ha
    rw [← hfield a k (by omega)]
    exact leAt_congr fun x h1 h2 => hrsame x (by omega)
  have hroot : Disk.flatfsBtreeInit mac r = (.ok, r) := by
    unfold Disk.flatfsBtreeInit
    dsimp only
    rw [hfield' 96 8 (by omega), hfield' 24 8 (by omega), h.btreeRoot, h.total, if_pos (by omega),
      blkPtr_addr (by omega), hfield' _ 4 (by omega), h.root, if_neg (not_not.2 rfl)]
  grind [mount_clean, mountRest]

/-- **The allocator misses the root directory**: its bit is clear, the count of free blocks is one below the
    clear bits, and the first block that is allocated is the directory's. -/
structure DirFree (l : MkfsLayout) (m : Bytes) : Prop where
  bit : ¬(allocView m).Allocated l.dataStart
  count : clearBlocks (allocView m) = (allocView m).super.freeBlocks + 1
  alloc : (allocView m).super.freeBlocks ≠ 0 → (flatfsAllocBlock (allocView m)).1 = .ok l.dataStart

theorem leAt_mounted (hsame : ∀ x, x < 172 ∨ 24576 ≤ x → m' x = m x) (a k : Nat) (ha : a + k ≤ 172 ∨ 24576 ≤ a) :
    leAt m' a k = leAt m a k :=
  leAt_congr fun x h1 h2 => hsame x (by omega)

section Mounted

variable (h : Produced m l t n) (hp : Plain l t n) (hsame : ∀ x, x < 172 ∨ 24576 ≤ x → m' x = m x)
include h hp hsame

theorem mounted_journal : jsuper m' = blkAddr l.journalStart := by
  have hs : journalStart m' = 4 := (leAt_mounted hsame 64 8 (by omega)).trans h.journalStart
  rw [jsuper, hs, hp.journalStart]
  rfl

theorem mounted_group {gi : Nat} (hgi : gi < n) (hmax : l.dataStart ≤ maxBlocks) :
    blkPtr (leAt m' 104 8 + gi) = blkAddr (l.freelist + gi) := by
  rw [hp.dataStart] at hmax
  rw [leAt_mounted hsame 104 8 (by omega), h.freelist, blkPtr_addr (by omega)]

theorem mounted_regions (hmax : l.dataStart ≤ maxBlocks) : RegionsAt l m' := by
  have hread := leAt_mounted hsame
  obtain ⟨hj, hi, hr, hg, hd⟩ := hp.addr
  obtain ⟨htree, hlist, hdata⟩ := hp.order
  refine ⟨?_, ?_, ?_, ?_, fun gi hgi => ?_, ?_⟩
  · rw [hread 80 8 (by omega), h.inodeTable]
  · rw [hread 96 8 (by omega), h.btreeRoot]
  · rw [hread 104 8 (by omega), h.freelist]
  · rw [hread 112 8 (by omega), h.ngroups, hp.ngroups]
  · rw [hp.ngroups] at hgi
    rw [mounted_group h hp hsame hgi hmax, hread _ 4 (by rw [blkAddr_add]; omega)]
    exact (h.groups gi hgi).magic
  · rw [hread 80 8 (by omega), h.inodeTable, blkPtr_addr (by omega), ← h.dir]
    exact hread (rootInodeAt l + 176) 8 (by omega)

theorem mounted_bitAt (hmax : l.dataStart ≤ maxBlocks) {k : Nat} (hk : k < 2048 * n) : (allocView m').bitAt k = false := by
  obtain ⟨hj, hi, hr, hg, hd⟩ := hp.addr
  have hgi : k / 2048 < n := by omega
  rw [FS.bitAt, bitmapTest_eq]
  have hbyte : ((allocView m').group (k / 2048)).bitmap (k % 2048 / 8) = 0 := by
    show m' (blkPtr (leAt m' 104 8 + k / 2048) + 108 + k % 2048 / 8) = 0
    rw [mounted_group h hp hsame hgi hmax, hsame _ (.inr (by rw [blkAddr_add]; omega)), Nat.add_assoc]
    exact (h.groups _ hgi).bits _ (by omega) (by omega)
  rw [hbyte]
  exact Nat.zero_testBit _

theorem mounted_dirFree (hpos : 0 < n) (hmax : t ≤ maxBlocks) (hle : l.dataStart < t)
    (hcover : t ≤ l.dataStart + 2048 * n) : DirFree l m' := by
  have hread := leAt_mounted hsame
  obtain ⟨hj, hi, hr, hg, hd⟩ := hp.addr
  have hin : l.dataStart ≤ maxBlocks := by omega
  have ht : t ≤ 2 ^ 41 := hmax
  have hbits := fun k => mounted_bitAt h hp hsame hin (k := k)
  have htotal : (allocView m').super.totalBlocks = t := (hread 24 8 (by omega)).trans h.total
  have hstart : (allocView m').super.dataStart = l.dataStart := (hread 120 8 (by omega)).trans h.dataStart
  have hngroups : (allocView m').galloc.ngroups = n := (hread 112 8 (by omega)).trans h.ngroups
  have hfree : (allocView m').super.freeBlocks = t - l.dataStart - 1 := by
    refine (hread 32 8 (by omega)).trans (h.free.trans ?_)
    exact sub64_of_le (by omega) (by omega)
  have hdata : (allocView m').dataBlocks = t - l.dataStart := by rw [FS.dataBlocks, htotal, hstart]
  refine ⟨?_, ?_, fun hne => ?_⟩
  · intro hb
    have hset := hb.2.2
    rw [hstart, Nat.sub_self, hbits 0 (by omega)] at hset
    cases hset
  · grind [clearBlocks, Finset.filter_true_of_mem]
  · -- the search stops at the first bit of the first group
    have hgroup : blkPtr (leAt m' 104 8 + 0) = blkAddr l.freelist := mounted_group h hp hsame hpos hin
    have hcount : ((allocView m').group 0).freeCount = 2047 := by
      show leAt m' (blkPtr (leAt m' 104 8 + 0) + 16) 4 = 2047
      rw [hgroup, hread _ 4 (by omega)]
      exact h.count hpos
    have hbase : ((allocView m').group 0).baseBlk = l.dataStart := by
      have hb := (h.groups 0 hpos).base
      show leAt m' (blkPtr (leAt m' 104 8 + 0) + 8) 8 = l.dataStart
      rw [hgroup, hread _ 8 (by omega)]
      rw [Nat.add_zero, Nat.zero_mul, Nat.add_zero] at hb
      exact hb
    have hfind : groupFindFree ((allocView m').group 0) = some 0 :=
      groupFindFree_eq_some (by decide) (hbits 0 (by omega)) fun j hj => absurd hj (Nat.not_lt_zero j)
    have hsearch : allocSearch (allocView m') = some (0, 0) := by
      refine findSome_range (a := 0) (by rw [hngroups]; exact hpos) ?_ fun x hx => absurd hx (Nat.not_lt_zero x)
      have hidx : u32 ((allocView m').galloc.groupHint + 0) % u32 (allocView m').galloc.ngroups = 0 := Nat.zero_mod _
      dsimp only
      rw [hidx, if_neg (by rw [hcount]; decide), hfind]
      rfl
    unfold flatfsAllocBlock
    rw [if_neg hne, hsearch]
    show Except.ok (u64 (((allocView m').group 0).baseBlk + 0)) = _
    rw [hbase, Nat.add_zero, u64_of_lt (by omega)]

end Mounted

theorem mkfsMain_produced {ninodes jblks : Nat} {m₀ : Bytes} {args : MkfsArgs} (hcap : cap < 2 ^ 64)
    (hi : ninodes < 2 ^ 63) (hj : jblks < 2 ^ 63) (hl : mkfsLayout cap ninodes jblks = l)
    (h : mkfsMain cap ninodes jblks args m₀ = some m) : ∃ n, Plain l (cap / 4096) n ∧ Produced m l (cap / 4096) n ∧
      blockSize * 32 ≤ cap ∧ l.dataStart ≤ cap / 4096 ∧ 2048 * n < cap / 4096 + 2047 ∧
      (0 < n → l.dataStart < cap / 4096 ∧ cap / 4096 ≤ l.dataStart + 2048 * n) := by
  unfold mkfsMain at h
  split_ifs at h with hopts hfits
  obtain rfl := Option.some.inj h
  rw [hl] at hfits ⊢
  obtain ⟨n, hp, hdir, hn⟩ := plain_of_fits hl (by omega) (by omega) hcap hfits
  have hmin : minSizeBytes ≤ cap := by omega
  refine ⟨n, hp, produced_image hp hmin hdir (by omega), ?_, hdir, hn⟩
  unfold minSizeBytes at hmin
  unfold blockSize
  omega

/-- **The tool and the kernel never agree**, with any options that are not negative. Every image that the kernel
    takes is mounted with the inode table, the tree, the groups and the root directory in their places. The journal is
    not found, as the kernel looks for it two blocks behind the tool's; and where there is a group, the allocator gives
    the root directory away. -/
theorem mkfs_never_agrees (mac : Mac) (fuel cap ninodes jblks : Nat) (hcap : cap < 2 ^ 64) (hi : ninodes < 2 ^ 63)
    (hj : jblks < 2 ^ 63) (args : MkfsArgs) (m₀ m : Bytes) (h : mkfsMain cap ninodes jblks args m₀ = some m) :
    ¬Agrees mac fuel cap (mkfsLayout cap ninodes jblks) m ∧
    (cap / 4096 ≤ maxBlocks → ∃ m', flatfsMount mac fuel cap m = some (.ok, m') ∧
      RegionsAt (mkfsLayout cap ninodes jblks) m' ∧
      jsuper m' = blkAddr (mkfsLayout cap ninodes jblks).journalStart ∧
      (0 < (mkfsLayout cap ninodes jblks).ngroups → DirFree (mkfsLayout cap ninodes jblks) m')) := by
  generalize hl : mkfsLayout cap ninodes jblks = l
  obtain ⟨n, hp, hprod, hcap', hle, hn, hpos⟩ := mkfsMain_produced hcap hi hj hl h
  have hmount : cap / 4096 ≤ maxBlocks → ∃ m', flatfsMount mac fuel cap m = some (.ok, m') ∧
      ∀ x, x < 172 ∨ 24576 ≤ x → m' x = m x := by
    intro hmax
    refine mount_produced hprod hp hcap' hmax hle ?_
    simp only [maxBlocks] at hmax
    omega
  refine ⟨fun hag => ?_, fun hmax => ?_⟩
  · obtain ⟨w, hw, hfound⟩ := hag
    by_cases hmax : cap / 4096 ≤ maxBlocks
    · obtain ⟨m', hm, hsame⟩ := hmount hmax
      obtain rfl : m' = w := (Prod.mk.inj (Option.some.inj (hm.symm.trans hw))).2
      have hj := (mounted_journal hprod hp hsame).symm.trans hfound.journal
      rw [hp.journalStart] at hj
      exact absurd hj (by decide)
    · exact mount_produced_large hprod (by omega) hw
  · obtain ⟨m', hm, hsame⟩ := hmount hmax
    refine ⟨m', hm, mounted_regions hprod hp hsame (by omega), mounted_journal hprod hp hsame, fun h0 => ?_⟩
    rw [hp.ngroups] at h0
    obtain ⟨hlt, hcover⟩ := hpos h0
    exact mounted_dirFree hprod hp hsame h0 hmax hlt hcover

end Mounting

/-! ## 6. A device of 32 MiB -/

def device32 : Bytes := zeroBytes

def args32 : MkfsArgs := ⟨[], 0, 0, 0⟩

theorem mkfsMain_device32 : ∃ m, mkfsMain 33554432 defaultInodes defaultJournalBlks args32 device32 = some m := by
  have hfits : Fits 33554432 (mkfsLayout 33554432 defaultInodes defaultJournalBlks) := by decide
  exact ⟨_, by rw [mkfsMain, if_neg (by decide), if_pos hfits]⟩

theorem mkfs_never_agrees_device32 : ∃ m, mkfsMain 33554432 defaultInodes defaultJournalBlks args32 device32 = some m ∧
    ¬Agrees none 0 33554432 (mkfsLayout 33554432 defaultInodes defaultJournalBlks) m := by
  obtain ⟨m, hm⟩ := mkfsMain_device32
  exact ⟨m, hm, (mkfs_never_agrees none 0 33554432 _ _ (by decide) (by decide) (by decide) args32 device32 m hm).1⟩

/-- The tool's journal superblock is in block 2. The device is mounted with another one in block 4, and the first
    block that is allocated is that of the root directory. -/
theorem mkfs_dir_given_away : ∃ m m', mkfsMain 33554432 defaultInodes defaultJournalBlks args32 device32 = some m ∧
    flatfsMount none 0 33554432 m = some (.ok, m') ∧ leAt m 8192 4 = Journal.journalMagic ∧ jsuper m' = 16384 ∧
    leAt m' (4210944 + 176) 8 = 5127 ∧ ¬(allocView m').Allocated 5127 ∧
    (flatfsAllocBlock (allocView m')).1 = .ok 5127 := by
  obtain ⟨m, hm⟩ := mkfsMain_device32
  obtain ⟨n, hp, hprod, hcap, hle, -, hpos⟩ := mkfsMain_produced (by decide) (by decide) (by decide) rfl hm
  obtain rfl : n = 2 := hp.ngroups.symm
  obtain ⟨hlt, hcover⟩ := hpos (by decide)
  obtain ⟨m', hmount, hsame⟩ : ∃ m', flatfsMount none 0 33554432 m = some (.ok, m') ∧ _ :=
    mount_produced hprod hp hcap (by decide) hle (by decide)
  have hfree := mounted_dirFree hprod hp hsame (by decide) (by decide) hlt hcover
  have hfield : (allocView m').super.freeBlocks = sub64 (8192 - (5125 + 2)) 1 :=
    (leAt_mounted hsame 32 8 (by omega)).trans hprod.free
  refine ⟨m, m', hm, hmount, hprod.toolJournal, mounted_journal hprod hp hsame, ?_, hfree.bit, hfree.alloc ?_⟩
  · rw [leAt_mounted hsame _ 8 (by omega)]
    exact hprod.dir
  · rw [hfield]
    decide

end Kobalt.Tools

/-
  Subject: THE DATA MODEL OF FLATFS: the constants and error codes of `flatfs.h`, the on-disk
  records, and the state of a mounted file system.

  The image is modelled by its regions: the two superblocks, the free-list group blocks
  (`flatfs_flgroup_t`, by group index), the inode table (`flatfs_inode_t`, by inode number) and
  every other block by its bytes. The union `data` of an inode stays a byte range, read as
  inline bytes or as block pointers. Machine words are natural numbers; arithmetic that can
  wrap is written with `u32`, `u64` and `sub64`.
-/
import Kobalt.Flatfs.Crc

namespace Kobalt.Flatfs

open Function

/-! ## 1. Machine words, constants, error codes -/

/-- Unsigned 32-bit wrap-around. -/
def u32 (x : Nat) : Nat := x % 4294967296

/-- Unsigned 64-bit wrap-around. -/
def u64 (x : Nat) : Nat := x % 18446744073709551616

/-- Unsigned 64-bit subtraction. -/
def sub64 (a b : Nat) : Nat := (a + 18446744073709551616 - b) % 18446744073709551616

theorem u32_of_lt {x : Nat} (h : x < 4294967296) : u32 x = x := Nat.mod_eq_of_lt h

theorem u64_of_lt {x : Nat} (h : x < 18446744073709551616) : u64 x = x := Nat.mod_eq_of_lt h

theorem sub64_of_le {a b : Nat} (h : b ≤ a) (ha : a < 18446744073709551616) : sub64 a b = a - b := by
  unfold sub64
  omega

def blockSize : Nat := 4096
def blockShift : Nat := 12
def flatfsMagic : Nat := 0x464C4154
def flatfsVersion : Nat := 1
def maxBlocks : Nat := 2 ^ 41
def inodeSize : Nat := 256
def inodesPerBlk : Nat := 16
def inlineMax : Nat := 96
def inodeMagicValue : Nat := 0x464C494e
def journalBlocksDefault : Nat := 1024
def groupBlocks : Nat := 2048
def freelistMagic : Nat := 0x46465253
def featuresAll : Nat := 0xFF
def stateClean : Nat := 0x0001

/-- `flatfs_err_t`. -/
inductive FlatfsErr where
  | ok | inval | noinit | notfound | exist | nospace | rdonly | crc | corrupt | overflow | bounds
  | badstate | isdir | notdir | notempty | loop | nametoolong | perm | io | journal | btree
  | alloc | tykid | toobig | nosys | magic | handoff
  deriving DecidableEq, Repr

abbrev Result (α : Type) := Except FlatfsErr α

/-! ## 2. On-disk records -/

/-- `flatfs_super_t`. -/
structure Super where
  magic : Nat := 0
  version : Nat := 0
  uuid0 : Nat := 0
  uuid1 : Nat := 0
  totalBlocks : Nat := 0
  freeBlocks : Nat := 0
  totalInodes : Nat := 0
  freeInodes : Nat := 0
  rootIno : Nat := 0
  journalStart : Nat := 0
  journalBlocks : Nat := 0
  inodeTableStart : Nat := 0
  inodeTableBlocks : Nat := 0
  btreeRootBlk : Nat := 0
  freelistStart : Nat := 0
  freelistBlocks : Nat := 0
  dataStart : Nat := 0
  mkfsTime : Nat := 0
  mountTime : Nat := 0
  unmountTime : Nat := 0
  capacityBytes : Nat := 0
  blockSize : Nat := 0
  inodeSize : Nat := 0
  features : Nat := 0
  state : Nat := 0
  errorCount : Nat := 0
  mountCount : Nat := 0
  maxMounts : Nat := 0
  tykidSeq : Nat := 0
  label : Text := List.replicate 64 0
  monReadOps : Nat := 0
  monWriteOps : Nat := 0
  monAllocOps : Nat := 0
  monJournalCommits : Nat := 0
  crc32 : Nat := 0

/-- `n` little-endian bytes of `v`: how a packed record stores an integer field. -/
def leBytes (n v : Nat) : Text := (List.range n).map (leByte v)

/-- The 4096 bytes of a superblock. -/
def Super.bytes (sb : Super) : Text :=
  leBytes 4 sb.magic ++ leBytes 4 sb.version ++ leBytes 8 sb.uuid0 ++ leBytes 8 sb.uuid1 ++
  leBytes 8 sb.totalBlocks ++ leBytes 8 sb.freeBlocks ++ leBytes 8 sb.totalInodes ++
  leBytes 8 sb.freeInodes ++ leBytes 8 sb.rootIno ++ leBytes 8 sb.journalStart ++
  leBytes 8 sb.journalBlocks ++ leBytes 8 sb.inodeTableStart ++ leBytes 8 sb.inodeTableBlocks ++
  leBytes 8 sb.btreeRootBlk ++ leBytes 8 sb.freelistStart ++ leBytes 8 sb.freelistBlocks ++
  leBytes 8 sb.dataStart ++ leBytes 8 sb.mkfsTime ++ leBytes 8 sb.mountTime ++
  leBytes 8 sb.unmountTime ++ leBytes 8 sb.capacityBytes ++ leBytes 4 sb.blockSize ++
  leBytes 4 sb.inodeSize ++ leBytes 4 sb.features ++ leBytes 4 sb.state ++
  leBytes 4 sb.errorCount ++ leBytes 4 sb.mountCount ++ leBytes 4 sb.maxMounts ++
  leBytes 8 sb.tykidSeq ++ sb.label ++ leBytes 8 sb.monReadOps ++ leBytes 8 sb.monWriteOps ++
  leBytes 8 sb.monAllocOps ++ leBytes 8 sb.monJournalCommits ++ List.replicate 3800 0 ++
  leBytes 4 sb.crc32

/-- `flatfs_flgroup_t`: the bitmap of 2048 blocks. The fields `order_free` and `crc32` are
    written but read by no allocator function and are left out. -/
structure FlGroup where
  magic : Nat := 0
  groupIdx : Nat := 0
  baseBlk : Nat := 0
  freeCount : Nat := 0
  bitmap : Bytes := zeroBytes

/-- `flatfs_inode_t`. The union `data` is its 96 bytes. -/
structure Inode where
  ino : Nat := 0
  mode : Nat := 0
  uid : Nat := 0
  gid : Nat := 0
  nlink : Nat := 0
  size : Nat := 0
  blocks : Nat := 0
  atimeNs : Nat := 0
  mtimeNs : Nat := 0
  ctimeNs : Nat := 0
  crtimeNs : Nat := 0
  flags : Nat := 0
  generation : Nat := 0
  data : Bytes := zeroBytes
  parentIno : Nat := 0
  dirHtreeBlk : Nat := 0
  htreeDepth : Nat := 0
  res0 : Nat := 0
  tykidLast : Nat := 0
  pad : Bytes := zeroBytes
  crc32 : Nat := 0
  inodeMagic : Nat := 0

/-- The 256 bytes of an inode. -/
def Inode.bytes (i : Inode) : Text :=
  leBytes 8 i.ino ++ leBytes 2 i.mode ++ leBytes 2 i.uid ++ leBytes 2 i.gid ++
  leBytes 2 i.nlink ++ leBytes 8 i.size ++ leBytes 8 i.blocks ++ leBytes 8 i.atimeNs ++
  leBytes 8 i.mtimeNs ++ leBytes 8 i.ctimeNs ++ leBytes 8 i.crtimeNs ++ leBytes 4 i.flags ++
  leBytes 4 i.generation ++ bytesAt i.data 0 96 ++ leBytes 8 i.parentIno ++
  leBytes 8 i.dirHtreeBlk ++ leBytes 4 i.htreeDepth ++ leBytes 4 i.res0 ++
  leBytes 8 i.tykidLast ++ bytesAt i.pad 0 48 ++ leBytes 4 i.crc32 ++ leBytes 4 i.inodeMagic

/-! ## 3. The state of a mounted file system -/

/-- `g_alloc`, without its two operation counters. -/
structure AllocState where
  ngroups : Nat := 0
  groupHint : Nat := 0

/-- **The file system**: the image by regions, and the in-memory state of the modules. -/
structure FS where
  super : Super
  backup : Super
  galloc : AllocState
  group : Nat → FlGroup
  inode : Nat → Inode
  inoHint : Nat
  blk : Nat → Bytes

/-- What a call that changes the image answers, and the state it leaves. -/
abbrev Done := FlatfsErr × FS

/-- Replace the bytes of one block. -/
def FS.setBlk (s : FS) (b : Nat) (c : Bytes) : FS := { s with blk := update s.blk b c }

@[simp] theorem FS.setBlk_blk_self (s : FS) (b : Nat) (c : Bytes) : (s.setBlk b c).blk b = c :=
  update_self ..

theorem FS.setBlk_blk_of_ne {s : FS} {b x : Nat} {c : Bytes} (h : x ≠ b) :
    (s.setBlk b c).blk x = s.blk x := update_of_ne h ..

/-- Replace one inode slot. -/
def FS.setInode (s : FS) (ino : Nat) (i : Inode) : FS :=
  { s with inode := update s.inode ino i }

theorem FS.setInode_setInode (s : FS) (ino : Nat) (i j : Inode) :
    (s.setInode ino i).setInode ino j = s.setInode ino j := by
  unfold FS.setInode
  congr 1
  exact update_idem ..

/-! ## 4. Formatting -/

/-- `fstrlen`: the length of a NUL-terminated string, cut at `max`. -/
def fstrlen (s : Text) (max : Nat) : Nat := ((s.takeWhile (· ≠ 0)).take max).length

def flatfsSuperUpdateCrc (sb : Super) : Super :=
  { sb with crc32 := flatfsCrc32 (Super.bytes { sb with crc32 := 0 }) }

/-- `flatfs_super_init`: the superblock a format writes, to the first block and its backup.
    Nothing else of the buffer is touched. -/
def flatfsSuperInit (s : FS) (cap : Nat) (label : Option Text) (ninodes : Nat) :
    Done :=
  if cap < blockSize * 16 then (.inval, s) else
  let totalBlks := cap >>> blockShift
  let off := 2
  let journalStart := off + 2
  let off := journalStart + journalBlocksDefault
  let inodeBlks := u64 (ninodes + inodesPerBlk - 1) / inodesPerBlk
  let inodeTableStart := off
  let off := u64 (off + inodeBlks)
  let btreeRootBlk := off
  let off := u64 (off + 1)
  let dataBlks := sub64 (sub64 totalBlks off) 1
  let ngroups := u64 (dataBlks + groupBlocks - 1) / groupBlocks
  let freelistStart := off
  let off := u64 (off + ngroups)
  let labelBytes := match label with
    | none => List.replicate 64 0
    | some l => l.take (fstrlen l 63) ++ List.replicate (64 - fstrlen l 63) 0
  let sb : Super :=
    { magic := flatfsMagic, version := flatfsVersion, blockSize := blockSize
      inodeSize := inodeSize, capacityBytes := cap, totalBlocks := totalBlks
      journalStart := journalStart, journalBlocks := journalBlocksDefault
      inodeTableStart := inodeTableStart, inodeTableBlocks := inodeBlks
      totalInodes := ninodes, freeInodes := sub64 ninodes 1, btreeRootBlk := btreeRootBlk
      freelistStart := freelistStart, freelistBlocks := ngroups, dataStart := off
      freeBlocks := sub64 totalBlks off, rootIno := 1, features := featuresAll
      state := stateClean, maxMounts := 30, label := labelBytes }
  let sb := flatfsSuperUpdateCrc sb
  (.ok, { s with super := sb, backup := sb })

end Kobalt.Flatfs

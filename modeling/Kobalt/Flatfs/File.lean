/-
  Subject: INODES AND FILE CONTENTS (`flatfs_inode.c`, `flatfs_inline.c`, `flatfs_file.c`): the
  code, translated. No theorem about runs here.

  A file keeps its bytes in the inode (flag `FLATFS_FL_INLINE`) or in blocks reached through ten
  direct pointers, one indirect block and one double-indirect block, all of them words of the
  inode's union `data`. A data block of a file with `FLATFS_FL_HASCRC` is sealed: its last four
  bytes hold a CRC, and the eight before them a MAC while TYKID is bound (`mac`, the keyed hash
  of the session; `none` while unbound).

  The functions work on a local copy `in` of the inode and on the file system, and return both:
  an error does not undo what was done before it. `none` as the result of a whole call stands
  for a write outside the object the C code holds a pointer to.
-/
import Kobalt.Flatfs.Alloc

namespace Kobalt.Flatfs

/-! ## 1. Inodes -/

def flInline : Nat := 1
def flHtree : Nat := 4
def flHascrc : Nat := 512

/-- `flags & FLATFS_FL_INLINE`. -/
def Inode.isInline (i : Inode) : Bool := i.flags &&& flInline != 0

/-- `flags & FLATFS_FL_HASCRC`. -/
def Inode.hasCrc (i : Inode) : Bool := i.flags &&& flHascrc != 0

/-- `data.blk_ptrs[k]`. -/
def Inode.blkPtr (i : Inode) (k : Nat) : Nat := leAt i.data (8 * k) 8

def Inode.setBlkPtr (i : Inode) (k v : Nat) : Inode := { i with data := putLE i.data (8 * k) 8 v }

/-- The checksum `flatfs_inode_write` stores and `flatfs_inode_read` expects. -/
def inodeCrc (i : Inode) : Nat := flatfsCrc32 (Inode.bytes { i with crc32 := 0 })

def flatfsInodeRead (s : FS) (ino : Nat) : Result Inode :=
  if ino = 0 ∨ ino ≥ s.super.totalInodes then .error .bounds else
  let out := s.inode ino
  if out.inodeMagic = 0 then .error .notfound
  else if out.inodeMagic ≠ inodeMagicValue then .error .corrupt
  else if inodeCrc out = out.crc32 then .ok out else .error .crc

def flatfsInodeWrite (s : FS) (i : Inode) : Done :=
  if i.ino = 0 ∨ i.ino ≥ s.super.totalInodes then (.bounds, s)
  else (.ok, s.setInode i.ino { i with crc32 := inodeCrc i })

/-- `flatfs_inode_alloc`: the first slot from the hint on, round the table, whose magic is 0. -/
def flatfsInodeAlloc (s : FS) : Result Nat × FS :=
  if s.super.freeInodes = 0 then (.error .nospace, s) else
  match (List.range s.super.totalInodes).find? fun k =>
      let ino := u64 (s.inoHint + k) % s.super.totalInodes
      ino != 0 && (s.inode ino).inodeMagic == 0 with
  | none => (.error .nospace, s)
  | some k =>
    let ino := u64 (s.inoHint + k) % s.super.totalInodes
    (.ok ino, { s with
      inoHint := ino + 1
      super := { s.super with freeInodes := s.super.freeInodes - 1 } })

def flatfsInodeFree (s : FS) (ino : Nat) : Done :=
  if ino = 0 ∨ ino ≥ s.super.totalInodes then (.bounds, s)
  else if (s.inode ino).inodeMagic = 0 then (.notfound, s)
  else (.ok, { s.setInode ino {} with
    super := { s.super with freeInodes := u64 (s.super.freeInodes + 1) }
    inoHint := if ino < s.inoHint then ino else s.inoHint })

def flatfsInodeInit (ino mode uid gid : Nat) : Inode :=
  { ino := ino, mode := mode, uid := uid, gid := gid, nlink := 1, inodeMagic := inodeMagicValue }

/-! ## 2. The block map -/

/-- Word `j` of a block, read as a block pointer. -/
def ptrAt (b : Bytes) (j : Nat) : Nat := leAt b (8 * j) 8

def setPtr (b : Bytes) (j v : Nat) : Bytes := putLE b (8 * j) 8 v

/-- `in->blocks += FLATFS_BLOCK_SIZE / 512`. -/
def Inode.addBlock (i : Inode) : Inode := { i with blocks := u64 (i.blocks + 8) }

/-- What one level of `map_block` finds, with the inode and the file system it leaves. -/
abbrev Level := Result (Option Nat) × Inode × FS

section Walk

variable (s : FS) (i : Inode)

/-- One level of `map_block` at a pointer of the inode: the block there, allocated on demand;
    `none` for a hole that is not to be filled. -/
def inodeSlot (k : Nat) (alloc : Bool) : Level :=
  if i.blkPtr k = 0 then
    if alloc then
      match flatfsAllocBlock s with
      | (.error e, s') => (.error e, i, s')
      | (.ok b, s') => (.ok (some b), (i.setBlkPtr k b).addBlock, s')
    else (.ok none, i, s)
  else (.ok (some (i.blkPtr k)), i, s)

/-- One level of `map_block` at word `j` of the pointer block `p`. -/
def blockSlot (p j : Nat) (alloc : Bool) : Level :=
  if ptrAt (s.blk p) j = 0 then
    if alloc then
      match flatfsAllocBlock s with
      | (.error e, s') => (.error e, i, s')
      | (.ok b, s') => (.ok (some b), i.addBlock, s'.setBlk p (setPtr (s'.blk p) j b))
    else (.ok none, i, s)
  else (.ok (some (ptrAt (s.blk p) j)), i, s)

/-- Continue a walk below the block just found; a hole or an error ends it. -/
def walkOn (r : Level) (next : FS → Inode → Nat → Level) : Level :=
  match r with
  | (.ok (some p), i, s) => next s i p
  | (.ok none, i, s) => (.ok none, i, s)
  | (.error e, i, s) => (.error e, i, s)

/-- The walk of `map_block`, before a hole is turned into block 0. -/
def mapWalk (lblk : Nat) (alloc : Bool) : Level :=
  if lblk < 10 then inodeSlot s i lblk alloc
  else if lblk - 10 < 512 then
    walkOn (inodeSlot s i 10 alloc) fun s i p => blockSlot s i p (lblk - 10) alloc
  else if lblk - 10 - 512 < 512 * 512 then
    walkOn (inodeSlot s i 11 alloc) fun s i p =>
      walkOn (blockSlot s i p ((lblk - 10 - 512) / 512) alloc) fun s i q =>
        blockSlot s i q ((lblk - 10 - 512) % 512) alloc
  else (.error .toobig, i, s)

/-- `map_block`: the physical block of a logical one, 0 for a hole. -/
def mapBlock (lblk : Nat) (alloc : Bool) : Result Nat × Inode × FS :=
  let r := mapWalk s i lblk alloc
  (r.1.map fun o => o.getD 0, r.2)

end Walk

/-! ## 3. Sealed blocks -/

section Seal

variable (mac : Mac) (s : FS) (i : Inode)

def flatfsTykidMacSet (b : Bytes) (sz : Nat) : Bytes :=
  match mac with
  | none => b
  | some f => if sz < 12 then b else putLE b (sz - 12) 8 (f (bytesAt b 0 (sz - 12))).toNat

/-- `flatfs_tykid_mac_ok`: a zero MAC field is accepted. -/
def flatfsTykidMacOk (b : Bytes) (sz : Nat) : Bool :=
  match mac with
  | none => true
  | some f =>
    if sz < 12 then true
    else leAt b (sz - 12) 8 == 0 || leAt b (sz - 12) 8 == (f (bytesAt b 0 (sz - 12))).toNat

/-- What `flatfs_file_write_blk` does to the bytes of a block of a checksummed file. -/
def sealBlock (b : Bytes) : Bytes := flatfsBlockCrcSet (flatfsTykidMacSet mac b 4096) 4096

def flatfsFileReadBlk (lblk : Nat) : Result Bytes :=
  match (mapBlock s i lblk false).1 with
  | .error e => .error e
  | .ok pblk =>
    if pblk = 0 then .ok zeroBytes
    else if i.hasCrc && !(flatfsBlockCrcOk (s.blk pblk) 4096 && flatfsTykidMacOk mac (s.blk pblk) 4096)
    then .error .crc
    else .ok (s.blk pblk)

def flatfsFileWriteBlk (lblk : Nat) (data : Bytes) : FlatfsErr × Inode × FS :=
  match mapBlock s i lblk true with
  | (.error e, i', s') => (e, i', s')
  | (.ok pblk, i', s') =>
    (.ok, i', s'.setBlk pblk (if i'.hasCrc then sealBlock mac data else data))

end Seal

/-! ## 4. Inline files -/

def flatfsInlineFits (sz : Nat) : Bool := sz ≤ inlineMax

/-- `flatfs_inline_read`. Positions from 96 on are the bytes that follow the union. -/
def flatfsInlineRead (i : Inode) (off len : Nat) : Result Text :=
  if !i.isInline then .error .inval
  else if off ≥ i.size then .ok []
  else .ok (bytesAt i.data off (min len (i.size - off)))

/-- `flatfs_inline_write`. The sum `off + len` is 64 bits wide: when it wraps, the copy goes
    outside the inode (`none`). -/
def flatfsInlineWrite (i : Inode) (off : Nat) (buf : Text) :
    Option (Result Nat × Inode) :=
  let e := u64 (off + buf.length)
  if e > inlineMax then some (.error .toobig, i)
  else if off + buf.length > inlineMax then none
  else some (.ok buf.length, { i with
    data := fill i.data off buf.length fun j => buf.getD j 0
    size := if e > i.size then e else i.size
    flags := i.flags ||| flInline })

/-- `flatfs_inline_to_block`. The copy is `in->size` bytes long: past one block it leaves the
    new block (`none`). -/
def flatfsInlineToBlock (s : FS) (i : Inode) : Option (FlatfsErr × Inode × FS) :=
  if !i.isInline then some (.ok, i, s) else
  match flatfsAllocBlock s with
  | (.error e, s') => some (e, i, s')
  | (.ok b, s') =>
    if i.size > 4096 then none else
    let dst := fill zeroBytes 0 i.size i.data
    let s' := s'.setBlk b (flatfsBlockCrcSet dst 4096)
    let i' := { i with
      data := putLE (fill i.data 0 96 fun _ => 0) 0 8 b
      blocks := 8
      flags := i.flags &&& 0xFFFFFFFE }
    let r := flatfsInodeWrite s' i'
    some (r.1, i', r.2)

/-! ## 5. Reading, writing, truncating -/

section File

variable (mac : Mac) (s : FS) (i : Inode)

/-- The loop of `flatfs_file_pread`: `out` is what was copied so far, `fuel` bounds the rounds. -/
def preadLoop (off len : Nat) : Nat → Text → Result Text
  | 0, out => .ok out
  | fuel + 1, out =>
    if out.length < len then
      let pos := u64 (off + out.length)
      let boff := pos % 4096
      let chunk := min (4096 - boff) (len - out.length)
      match flatfsFileReadBlk mac s i (pos / 4096) with
      | .error e => .error e
      | .ok b => preadLoop off len fuel (out ++ bytesAt b boff chunk)
    else .ok out

def flatfsFilePread (off len : Nat) : Result Text :=
  if i.isInline then flatfsInlineRead i off len
  else if off ≥ i.size then .ok []
  else
    let len := min len (i.size - off)
    preadLoop mac s i off len len []

/-- The loop of `flatfs_file_pwrite`, with `done` bytes written so far. -/
def pwriteLoop (off : Nat) (buf : Text) :
    Nat → FS → Inode → Nat → Result Nat × Inode × FS
  | 0, s, i, done => (.ok done, i, s)
  | fuel + 1, s, i, done =>
    if done < buf.length then
      let pos := u64 (off + done)
      let boff := pos % 4096
      let chunk := min (4096 - boff) (buf.length - done)
      match (if boff ≠ 0 ∨ chunk < 4096 then flatfsFileReadBlk mac s i (pos / 4096)
        else .ok zeroBytes) with
      | .error e => (.error e, i, s)
      | .ok b =>
        match flatfsFileWriteBlk mac s i (pos / 4096)
          (fill b boff chunk fun j => buf.getD (done + j) 0) with
        | (.ok, i', s') => pwriteLoop off buf fuel s' i' (done + chunk)
        | (e, i', s') => (.error e, i', s')
    else (.ok done, i, s)

/-- The part of `flatfs_file_pwrite` after the inline cases. -/
def pwriteBlocks (off : Nat) (buf : Text) : Result Nat × Inode × FS :=
  match pwriteLoop mac off buf buf.length s i 0 with
  | (.error e, i', s') => (.error e, i', s')
  | (.ok done, i', s') =>
    let i' := if u64 (off + done) > i'.size then { i' with size := u64 (off + done) } else i'
    match flatfsInodeWrite s' i' with
    | (.ok, s') => (.ok done, i', s')
    | (e, s') => (.error e, i', s')

def flatfsFilePwrite (off : Nat) (buf : Text) : Option (Result Nat × Inode × FS) :=
  if i.isInline then
    if flatfsInlineFits (u64 (off + buf.length)) then
      (flatfsInlineWrite i off buf).map fun r => (r.1, r.2, s)
    else
      match flatfsInlineToBlock s i with
      | none => none
      | some (.ok, i', s') => some (pwriteBlocks mac s' i' off buf)
      | some (e, i', s') => some (.error e, i', s')
  else some (pwriteBlocks mac s i off buf)

end File

/-- The loop body of `flatfs_file_truncate`: free what logical block `lb` is mapped to. -/
def truncateOne (i : Inode) (s : FS) (lb : Nat) : FS :=
  match (mapBlock s i lb false).1 with
  | .ok pb => if pb = 0 then s else (flatfsFreeBlock s pb).2
  | .error _ => s

/-- The number of blocks `sz` bytes take, as `flatfs_file_truncate` computes it. -/
def blocksFor (sz : Nat) : Nat := u64 (sz + 4095) / 4096

def flatfsFileTruncate (s : FS) (i : Inode) (newSz : Nat) : FlatfsErr × Inode × FS :=
  if newSz > i.size then
    let i' := { i with size := newSz }
    let r := flatfsInodeWrite s i'
    (r.1, i', r.2)
  else if newSz = i.size then (.ok, i, s)
  else
    let lbs := (List.range (blocksFor i.size - blocksFor newSz)).map (blocksFor newSz + ·)
    let s' := lbs.foldl (truncateOne i) s
    let i' := { i with size := newSz }
    let i' := if newSz = 0 ∧ i'.isInline then { i' with data := fill i'.data 0 96 fun _ => 0 }
      else i'
    let r := flatfsInodeWrite s' i'
    (r.1, i', r.2)

end Kobalt.Flatfs

/-
  Subject: THE NAMES OF TMPFS (`fs/tmpfs/tmpfs_dir.c`, `fs/tmpfs/tmpfs_inode.c` and the part of
  `fs/vfs/tmpfs_vfs.c` that creates and removes files): inodes in the chains of a hash table,
  directory entries in a list per directory, and entries that name inodes by number.

  Inodes and entries are objects of two heaps; an address that is not allocated, or not any more, is
  `none` there, and a function that follows a pointer to it is `none`. What `kmalloc` answers is an
  input.
-/
import Mathlib.Data.List.Forall2
import Kobalt.Lib.Chain
import Kobalt.Lib.NameTree
import Kobalt.Mm.Kmalloc
import Kobalt.Tmpfs.File

namespace Kobalt.Tmpfs

open Function

/-! ## 1. The code -/

abbrev Name := Text

def tmpfsNameMax : Nat := 255
def tmpfsHtabSz : Nat := 512
def vfsPathMax : Nat := 512

inductive NsCode where
  | ok | enoent | enomem | eexist | enotdir | eisdir | einval | enotempty
  deriving DecidableEq, Repr

/-- `tmpfs_dirent_t` -/
structure Dirent where
  ino : Nat
  next : Nat
  name : Name

/-- `tmpfs_inode_t`; `file` is what the file functions use of it. -/
structure Inode where
  ino : Nat
  nlink : Nat
  deHead : Nat
  deCount : Nat
  htNext : Nat
  file : TmpfsInode

/-- `tmpfs_sb_t` and the objects it leads to. -/
structure Sb where
  inoNext : Nat
  nrInodes : Nat
  htab : Nat → Nat
  root : Nat
  inode : Nat → Option Inode
  dirent : Nat → Option Dirent

/-- Every list of objects is shorter: they have different addresses in the pool. -/
def heapFuel : Nat := Mm.heapPoolSize + 1

def htBucket (ino : Nat) : Nat := ino * 0x9E3779B97F4A7C15 % 2 ^ 64 / 2 ^ 55 % tmpfsHtabSz

/-- `!strncmp(a, b, n)`; a list is a string without its terminating zero. -/
def strncmpEq : Nat → Name → Name → Bool
  | 0, _, _ => true
  | _ + 1, [], [] => true
  | n + 1, a :: as, b :: bs => a == b && strncmpEq n as bs
  | _ + 1, _, _ => false

def nmEq (a b : Name) : Bool := strncmpEq (tmpfsNameMax + 1) a b

section Code

variable (s : Sb)

/-- `tmpfs_inode_get`; 0 is `NULL`. -/
def tmpfsInodeGet (ino : Nat) : Option Nat :=
  (walk s.inode Inode.htNext (fun _ i => i.ino == ino) heapFuel 0 (s.htab (htBucket ino))).map Prod.snd

/-- The number of the entry the loop of `tmpfs_dir_lookup` ends at. -/
def foundIno (p : Nat) : Nat := ((s.dirent p).map Dirent.ino).getD 0

/-- The loops over the entries of a directory. -/
def direntWalk (d : Inode) (name : Name) : Option (Nat × Nat) :=
  walk s.dirent Dirent.next (fun _ e => nmEq e.name name) heapFuel 0 d.deHead

def tmpfsDirLookup (dir : Nat) (name : Name) : Option Nat :=
  (s.inode dir).bind fun d =>
    if d.file.type ≠ .dir then some 0
    else (direntWalk s d name).bind fun w =>
      if w.2 = 0 ∨ foundIno s w.2 = 0 then some 0 else tmpfsInodeGet s (foundIno s w.2)

/-- `tmpfs_inode_alloc`, with what `kmalloc` gives; the caller sets `nlink`. -/
def Sb.inodeAlloc (ip : Nat) (type : TmpfsType) (nlink : Nat) : Sb :=
  let h := htBucket s.inoNext
  { s with
    inoNext := (s.inoNext + 1) % 2 ^ 64
    nrInodes := (s.nrInodes + 1) % 2 ^ 32
    htab := update s.htab h ip
    inode := update s.inode ip (some ⟨s.inoNext, nlink, 0, 0, s.htab h, tmpfsInodeAlloc type⟩) }

def Inode.setHtNext (i : Inode) (q : Nat) : Inode := { i with htNext := q }

def Dirent.setNext (e : Dirent) (q : Nat) : Dirent := { e with next := q }

/-- `while (de)` of `tmpfs_inode_free`. -/
def freeDirents : Nat → (Nat → Option Dirent) → Nat → Option (Nat → Option Dirent)
  | 0, _, _ => none
  | fuel + 1, dirent, de =>
    if de = 0 then some dirent
    else (dirent de).bind fun e => freeDirents fuel (update dirent de none) e.next

/-- The inode found is taken out of its chain. -/
def Sb.htRemove (i : Inode) (w : Nat × Nat) : Sb :=
  if w.2 = 0 then s
  else
    let x := unhook Inode.setHtNext s.inode (s.htab (htBucket i.ino)) w.1 i.htNext
    { s with inode := x.1, htab := update s.htab (htBucket i.ino) x.2, nrInodes := (s.nrInodes + 2 ^ 32 - 1) % 2 ^ 32 }

/-- `tmpfs_inode_free`. -/
def Sb.inodeFree (ip : Nat) : Option Sb :=
  (s.inode ip).bind fun i =>
    (walk s.inode Inode.htNext (fun p _ => p == ip) heapFuel 0 (s.htab (htBucket i.ino))).bind fun w =>
      let s := s.htRemove i w
      (freeDirents heapFuel s.dirent i.deHead).map fun dirent =>
        { s with dirent := dirent, inode := update s.inode ip none }

/-- The entry `de` is put in front of the entries of `dir`. -/
def Sb.putEntry (dir : Nat) (d : Inode) (name : Name) (ino de : Nat) : Sb :=
  { s with
    dirent := update s.dirent de (some ⟨ino, d.deHead, name⟩)
    inode := update s.inode dir (some { d with deHead := de, deCount := (d.deCount + 1) % 2 ^ 32 }) }

/-- `tmpfs_dir_link`, with what `kmalloc` gives for the entry. -/
def Sb.dirLink (dir : Nat) (name : Name) (ino de : Nat) : Option (NsCode × Sb) :=
  (s.inode dir).bind fun d =>
    if d.file.type ≠ .dir then some (.enotdir, s)
    else if name.length = 0 ∨ name.length > tmpfsNameMax then some (.einval, s)
    else if de = 0 then some (.enomem, s)
    else (direntWalk s d name).map fun w =>
      if w.2 ≠ 0 then (.eexist, s) else (.ok, s.putEntry dir d name ino de)

/-- The entry `del` at `w.2`, behind the one at `w.1`, is taken out of the entries of `dir` and freed. -/
def Sb.dropEntry (dir : Nat) (d : Inode) (w : Nat × Nat) (del : Dirent) : Sb :=
  let x := unhook Dirent.setNext s.dirent d.deHead w.1 del.next
  { s with
    dirent := update x.1 w.2 none
    inode := update s.inode dir (some { d with deHead := x.2, deCount := (d.deCount + 2 ^ 32 - 1) % 2 ^ 32 }) }

/-- `tmpfs_dir_unlink`. -/
def Sb.dirUnlink (dir : Nat) (name : Name) : Option (NsCode × Sb) :=
  (s.inode dir).bind fun d =>
    if d.file.type ≠ .dir then some (.enotdir, s)
    else (direntWalk s d name).bind fun w =>
      if w.2 = 0 then some (.enoent, s)
      else (s.dirent w.2).map fun del => (.ok, s.dropEntry dir d w del)

/-- `while (*rel)` of `path_resolve`; every round takes at least one byte. -/
def pathLoop (s : Sb) : Nat → Nat → Text → Option Nat
  | 0, cur, _ => some cur
  | fuel + 1, cur, rel =>
    if rel = [] then some cur
    else
      let comp := rel.takeWhile (· ≠ 0x2f)
      let rest := rel.drop (comp.length + 1)
      if comp = [] then pathLoop s fuel cur rest
      else if comp.length > tmpfsNameMax then some 0
      else (tmpfsDirLookup s cur comp).bind fun c => if c = 0 then some 0 else pathLoop s fuel c rest

/-- `path_resolve`; a slash in front is skipped by the loop as well. -/
def pathResolve (rel : Text) : Option Nat := pathLoop s rel.length s.root rel

/-- `tf_strrchr`: where the last slash is. -/
def lastSlash : Text → Option Nat
  | [] => none
  | a :: l =>
    match lastSlash l with
    | some k => some (k + 1)
    | none => if a = 0x2f then some 0 else none

/-- `path_parent`: the directory and the last component. -/
def pathParent (rel : Text) : Option (Nat × Name) :=
  match lastSlash rel with
  | none => some (s.root, rel)
  | some 0 => some (s.root, rel.drop 1)
  | some (k + 1) =>
    if k + 1 ≥ vfsPathMax then some (0, [])
    else (pathResolve s (rel.take (k + 1))).map fun dir => (dir, rel.drop (k + 2))

/-- What `tf_open` and `tf_mkdir` share: a new inode `ip` is linked in with the entry `de`, or freed
    again. -/
def Sb.create (dir : Nat) (leaf : Name) (type : TmpfsType) (nlink ip de : Nat) : Option (NsCode × Sb) :=
  if ip = 0 then some (.enomem, s)
  else ((s.inodeAlloc ip type nlink).dirLink dir leaf s.inoNext de).bind fun r =>
    if r.1 = .ok then some r else (r.2.inodeFree ip).map fun s => (r.1, s)

/-- The answers of `kmalloc` for an inode, an entry and a handle. -/
structure Mem where
  ip : Nat
  de : Nat
  hdl : Nat
  deriving DecidableEq, Repr

/-- `tf_open`: the code and the inode the handle points to. -/
def tfOpen (rel : Text) (creat : Bool) (m : Mem) : Option (NsCode × Nat × Sb) :=
  (pathResolve s rel).bind fun ip =>
    if ip ≠ 0 then some (if m.hdl = 0 then .enomem else .ok, ip, s)
    else if creat = false then some (.enoent, 0, s)
    else (pathParent s rel).bind fun x =>
      if x.1 = 0 ∨ x.2 = [] then some (.enoent, 0, s)
      else (s.create x.1 x.2 .reg 1 m.ip m.de).map fun r =>
        if r.1 = .ok then (if m.hdl = 0 then .enomem else .ok, m.ip, r.2) else (r.1, 0, r.2)

def Sb.setNlink (a : Nat) (f : Nat → Nat) : Sb :=
  { s with inode := update s.inode a ((s.inode a).map fun i => { i with nlink := f i.nlink }) }

def tfMkdir (rel : Text) (m : Mem) : Option (NsCode × Sb) :=
  (pathParent s rel).bind fun x =>
    if x.1 = 0 ∨ x.2 = [] then some (.enoent, s)
    else (s.create x.1 x.2 .dir 2 m.ip m.de).map fun r =>
      if r.1 = .ok then (.ok, r.2.setNlink x.1 fun n => (n + 1) % 2 ^ 32) else r

def tfUnlink (rel : Text) : Option (NsCode × Sb) :=
  (pathParent s rel).bind fun x =>
    if x.1 = 0 then some (.enoent, s)
    else (tmpfsDirLookup s x.1 x.2).bind fun tgt =>
      if tgt = 0 then some (.enoent, s)
      else (s.inode tgt).bind fun i =>
        if i.file.type = .dir then some (.eisdir, s)
        else (s.dirUnlink x.1 x.2).bind fun r =>
          if r.1 ≠ .ok then some r
          else
            let s := r.2.setNlink tgt fun n => (n + 2 ^ 32 - 1) % 2 ^ 32
            if (i.nlink + 2 ^ 32 - 1) % 2 ^ 32 = 0 then (s.inodeFree tgt).map fun s => (.ok, s) else some (.ok, s)

def tfRmdir (rel : Text) : Option (NsCode × Sb) :=
  (pathParent s rel).bind fun x =>
    if x.1 = 0 then some (.enoent, s)
    else (tmpfsDirLookup s x.1 x.2).bind fun tgt =>
      if tgt = 0 then some (.enoent, s)
      else (s.inode tgt).bind fun i =>
        if i.file.type ≠ .dir then some (.enotdir, s)
        else if i.deCount ≠ 0 then some (.enotempty, s)
        else (s.dirUnlink x.1 x.2).bind fun r =>
          if r.1 ≠ .ok then some r
          else
            let s := (r.2.setNlink x.1 fun n => if n > 0 then n - 1 else n).setNlink tgt fun _ => 0
            (s.inodeFree tgt).map fun s => (.ok, s)

end Code

/-- `tmpfs_sb_alloc`, with the root inode at `root`. -/
def Sb.mount (root : Nat) : Sb :=
  { Sb.inodeAlloc ⟨1, 0, fun _ => 0, 0, fun _ => none, fun _ => none⟩ root .dir 2 with root := root }

end Kobalt.Tmpfs

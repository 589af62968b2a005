/-
  Subject: THE CALLS THAT TAKE A NAME AWAY (`flatfs.c`): `flatfs_unlink`, `flatfs_rmdir`,
  `flatfs_rename`, translated; and why no directory is ever made.

  As in `Path.lean` the caller's locals are arguments (`Outs`): `path_walk` leaves `last` alone
  when the path ends in more than one slash, and `parent` when it fails.
-/
import Kobalt.Flatfs.Placed

namespace Kobalt.Flatfs

/-! ## 1. The calls -/

/-- `flatfs_dir_remove`; `none` for an inode number outside the table. -/
def flatfsDirRemove (s : FS) (dirIno : Nat) (name : Text) : Option Done :=
  if dirIno < s.super.totalInodes then some (flatfsHtreeRemove s dirIno name) else none

/-- `flatfs_htree_isempty`; it does not look at the magic. -/
def flatfsHtreeIsempty (s : FS) (dirIno : Nat) : Bool :=
  match htroot s dirIno with
  | none => true
  | some rt => rtCount (s.blk rt) == 0

section Calls

variable (mac : Mac) (tails : Nat → Text) (s : FS)
  (path : Text) (o : Outs)

/-- `flatfs_unlink` behind its removal, on the inode it read before. -/
def dropLink (s : FS) (i : Inode) (ino : Nat) : Done :=
  let i := { i with nlink := (i.nlink + 65535) % 65536 }
  if i.nlink = 0 then flatfsInodeFree (flatfsFileTruncate s i 0).2.2 ino
  else flatfsInodeWrite s i

def flatfsUnlink : Option Done :=
  match pathWalk mac s tails true 9 path o with
  | none => none
  | some (e, o) =>
    if e ≠ .ok then some (e, s) else
    match flatfsInodeRead s o.ino with
    | .error e => some (e, s)
    | .ok i =>
      if sIsDir i.mode then some (.isdir, s) else
      (flatfsDirRemove s o.parent o.last).map fun r =>
        if r.1 = .ok then dropLink r.2 i o.ino else r

def flatfsRmdir : Option Done :=
  match pathWalk mac s tails true 9 path o with
  | none => none
  | some (e, o) =>
    if e ≠ .ok then some (e, s) else
    match flatfsInodeRead s o.ino with
    | .error e => some (e, s)
    | .ok i =>
      if sIsDir i.mode = false then some (.notdir, s) else
      if flatfsHtreeIsempty s o.ino = false then some (.notempty, s) else
      (flatfsDirRemove s o.parent o.last).map fun r =>
        if r.1 = .ok then flatfsInodeFree r.2 o.ino else r

/-- `flatfs_rename`; `newOut` is what its locals for the new path held. -/
def flatfsRename (newp : Text) (newOut : Outs) : Option Done :=
  match pathWalk mac s tails true 9 path o with
  | none => none
  | some (e, o) =>
    if e ≠ .ok then some (e, s) else
    match pathWalk mac s tails true 9 newp newOut with
    | none => none
    | some (e, n) =>
      if e ≠ .ok ∧ e ≠ .notfound then some (e, s) else
      match flatfsInodeRead s o.ino with
      | .error e => some (e, s)
      | .ok i =>
        match flatfsDirRemove s o.parent o.last with
        | none => none
        | some (.ok, s) => flatfsDirInsert s n.parent n.last o.ino
            (if sIsDir i.mode then dtDir else if sIsLnk i.mode then dtLnk else dtReg)
        | some (e, s) => some (e, s)

def flatfsDirCreate (parent : Nat) (name : Text) (mode : Nat) : Option Done :=
  (dirCreateBegin s parent name mode).bind Begun.run

end Calls

/-! ## 2. Making a directory and removing it -/

/-- **The books are as they were**: the entries of every directory, the free blocks, the bitmap
    and the free inodes. -/
structure SameBooks (s s' : FS) : Prop where
  entries : ∀ x, s.IsDir x → ∀ b < 256, leafBytes s' x b = leafBytes s x b
  freeBlocks : s'.super.freeBlocks = s.super.freeBlocks
  bitmap : ∀ b, s'.Allocated b ↔ s.Allocated b
  freeInodes : s'.super.freeInodes = s.super.freeInodes

section Mkdir

variable (mac : Mac) (tails : Nat → Text) (s : FS)
  (path : Text) (o : Outs)

/-- **A directory is made below `d` and removed again**: `made` is how the call that made it
    ended. In between `.` leads to the directory itself and `..` to `d`. -/
def MkdirLaw (d : Nat) (made : Option Done) : Prop :=
  ∃ s1 o1 s2, made = some (.ok, s1) ∧ pathWalk mac s1 tails true 9 path o = some (.ok, o1) ∧
    flatfsHtreeLookup s1 o1.ino [46] = .ok o1.ino ∧ flatfsHtreeLookup s1 o1.ino [46, 46] = .ok d ∧
    flatfsRmdir mac tails s1 path o = some (.ok, s2) ∧ SameBooks s s2

variable {mac tails s path o}

theorem MkdirLaw.made_ok {d : Nat} {made : Option Done}
    (h : MkdirLaw mac tails s path o d made) : ∃ s1, made = some (.ok, s1) := by
  obtain ⟨s1, -, -, h1, -⟩ := h
  exact ⟨s1, h1⟩

theorem flatfsDirCreate_fails (hT : TreeOk s) (parent : Nat) (name : Text) (mode : Nat) :
    ∃ e s', flatfsDirCreate s parent name mode = some (e, s') ∧ e ≠ .ok ∧
      (Room s → e = .bounds ∧ s'.super.freeInodes = s.super.freeInodes - 1) := by
  obtain ⟨e, s', hd, hok, -, hroom⟩ := dirCreateBegin_fails hT parent name mode
  refine ⟨e, s', ?_, hok, hroom⟩
  unfold flatfsDirCreate
  rw [hd]
  rfl

theorem flatfsMkdir_absent {o' : Outs} (hw : pathWalk mac s tails true 9 path o = some (.notfound, o'))
    (mode : Nat) : flatfsMkdir mac tails s path o mode = flatfsDirCreate s o'.parent o'.last mode := by
  unfold flatfsMkdir mkdirBegin flatfsDirCreate
  rw [hw]
  rfl

theorem flatfsMkdir_fails (hT : TreeOk s) (path : Text) (o : Outs) (mode : Nat) :
    ∃ e s', flatfsMkdir mac tails s path o mode = some (e, s') ∧ e ≠ .ok := by
  obtain ⟨e, o', hw, -, -⟩ := pathWalk_cases mac tails hT true path o
  by_cases hn : e = .notfound
  · subst hn
    obtain ⟨e, s', hd, hok, -⟩ := flatfsDirCreate_fails hT o'.parent o'.last mode
    grind [flatfsMkdir_absent]
  · unfold flatfsMkdir mkdirBegin
    rw [hw]
    dsimp only
    by_cases hok : e = .ok
    · rw [if_pos hok]
      exact ⟨.exist, s, rfl, by simp⟩
    · rw [if_neg hok, if_pos hn]
      exact ⟨e, s, rfl, hok⟩

end Mkdir

/-- **No directory is ever made.** In every consistent file system, for every path and every parent,
    neither `flatfs_mkdir` nor `flatfs_dir_create` does what it should; with an inode and a block to
    spare, an absent name gets BOUNDS, and the count of free inodes is one too low from then on. -/
theorem mkdir_law_never (mac : Mac) (tails : Nat → Text) (s : FS)
    (hT : TreeOk s) (path : Text) (o : Outs) (mode d : Nat) (name : Text) :
    ¬ MkdirLaw mac tails s path o d (flatfsMkdir mac tails s path o mode) ∧
      ¬ MkdirLaw mac tails s path o d (flatfsDirCreate s d name mode) ∧
      (Room s → ∀ o', pathWalk mac s tails true 9 path o = some (.notfound, o') →
        ∃ s', flatfsMkdir mac tails s path o mode = some (.bounds, s') ∧
          s'.super.freeInodes = s.super.freeInodes - 1) := by
  refine ⟨fun h => ?_, fun h => ?_, fun hR o' hw => ?_⟩
  · obtain ⟨s1, h1⟩ := h.made_ok
    obtain ⟨e, s', he, hok⟩ : ∃ e s', flatfsMkdir mac tails s path o mode = some (e, s') ∧ e ≠ .ok :=
      flatfsMkdir_fails hT path o mode
    grind
  · obtain ⟨s1, h1⟩ := h.made_ok
    obtain ⟨e, s', he, hok, -⟩ := flatfsDirCreate_fails hT d name mode
    grind
  · obtain ⟨e, s', he, -, hroom⟩ := flatfsDirCreate_fails hT o'.parent o'.last mode
    grind [flatfsMkdir_absent]

theorem room_newDir : Room newDir := ⟨⟨2, by decide⟩, by decide⟩

/-- `mkdir("/al")` in an empty file system with room. -/
theorem mkdir_law_never_al : TreeOk newDir ∧ Room newDir ∧
    ¬ MkdirLaw none (fun _ => []) newDir (slash :: nameAl) ⟨0, 1, []⟩ 1
      (flatfsMkdir none (fun _ => []) newDir (slash :: nameAl) ⟨0, 1, []⟩ 0o755) :=
  ⟨treeOk_newDir, room_newDir, (mkdir_law_never none (fun _ => []) newDir treeOk_newDir
    (slash :: nameAl) ⟨0, 1, []⟩ 0o755 1 nameAl).1⟩

/-- **`mkdir("/al")`** in an empty file system with room, when `parent` happens to hold the number
    of the root: the name is absent and the root exists; the call answers BOUNDS. -/
theorem mkdir_al_bounds : TreeOk newDir ∧ Room newDir ∧ Resolves none newDir newDir.super.rootIno (comps []) 1 ∧
    flatfsHtreeLookup newDir 1 nameAl = .error .notfound ∧
    ∃ s', flatfsMkdir none (fun _ => []) newDir (slash :: nameAl) ⟨0, 1, []⟩ 0o755 =
        some (.bounds, s') ∧ s'.super.freeInodes + 1 = newDir.super.freeInodes := by
  have h : (flatfsMkdir none (fun _ => []) newDir (slash :: nameAl) ⟨0, 1, []⟩ 0o755).map
      (fun r => (r.1, r.2.super.freeInodes + 1)) = some (.bounds, newDir.super.freeInodes) := by decide +kernel
  obtain ⟨⟨e, s'⟩, hs, hr⟩ := Option.map_eq_some_iff.1 h
  obtain ⟨rfl, hfree⟩ := Prod.mk.inj hr
  exact ⟨treeOk_newDir, room_newDir, .here 1, newDir_lookup nameOk_al, s', hs, hfree⟩

end Kobalt.Flatfs

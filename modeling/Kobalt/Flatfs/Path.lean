/-
  Subject: PATHS AND THE CALLS THAT CREATE A NAME (`flatfs.c`, `flatfs_dir.c`): the code,
  translated, and what `path_walk` has assigned at each of its exits.

  `path_walk` writes through three pointers of its caller. `out_ino` and `out_parent` are assigned
  at its last line only, `out_last` when the last component of the path it is walking is reached.
  The caller's locals are therefore arguments here (`Outs`): what a call finds in them before the
  walk is any value. So are the bytes `newpath` holds behind what was copied into it (`tails`),
  which the walk reads when more than 256 bytes of the path follow a symbolic link.
-/
import Kobalt.Flatfs.Contents
import Kobalt.Flatfs.Hash

namespace Kobalt.Flatfs

open List

variable {e : FlatfsErr} {x : Nat}

/-! ## 1. The walk -/

def symlinkMax : Nat := 4096
def flSymlinkInln : Nat := 1024

/-- `FLATFS_S_ISDIR(mode)`. -/
def sIsDir (mode : Nat) : Bool := mode &&& 0xF000 == 0x4000

/-- `FLATFS_S_ISLNK(mode)`. -/
def sIsLnk (mode : Nat) : Bool := mode &&& 0xF000 == 0xA000

/-- `'/'`. -/
def slash : UInt8 := 47

/-- The bytes of a string before its first NUL. -/
def cstr (l : Text) : Text := l.takeWhile (· ≠ 0)

section Cstr

variable {name : Text}

theorem fstrlen_of_short (h : (cstr name).length ≤ 108) : fstrlen name nameMax = (cstr name).length := by
  grind [fstrlen, nameMax, cstr]

theorem cstr_getD {j : Nat} (h : j < (cstr name).length) : name.getD j 0 = (cstr name).getD j 0 ∧ (cstr name).getD j 0 ≠ 0 := by
  have hp : cstr name <+: name := List.takeWhile_prefix _
  obtain ⟨t, ht⟩ := hp
  have hname : name.getD j 0 = (cstr name).getD j 0 := by
    conv_lhs => rw [← ht]
    rw [getD_append _ _ _ _ h]
  refine ⟨hname, fun h0 => ?_⟩
  rw [getD_eq_getElem _ _ h] at h0
  have := mem_takeWhile_imp (getElem_mem h)
  simp [h0] at this

theorem deName_putDirent_cstr {de : Bytes} {i ino h ftype : Nat} (hlen : (cstr name).length ≤ 108) :
    deName (putDirent de i ino h (cstr name).length ftype name) i = cstr name := by
  unfold deName
  rw [deNameLen_putDirent (by omega), eq_bytesAt_iff]
  intro j hj
  unfold putDirent putLE
  rw [fill_of_not_mem (by omega), fill_of_not_mem (by omega), fill_of_mem (by omega) (by omega),
    show 128 * i + 16 + j - (128 * i + 16) = j by omega]
  exact (cstr_getD hj).1

end Cstr

/-- The caller's locals `path_walk` writes through its pointers. -/
structure Outs where
  ino : Nat
  parent : Nat
  last : Text
  deriving DecidableEq

variable {restart : Text → Text → Outs → Option (FlatfsErr × Outs)}

section Walk

variable (mac : Mac) (s : FS)

/-- The target of a symbolic link as `path_walk` reads it; `none` when the copy leaves `target`.
    A target in blocks comes with the NUL that `flatfs_symlink` stored behind it. -/
def linkTarget (i : Inode) : Option (Result Text) :=
  if i.flags &&& flSymlinkInln ≠ 0 then
    if i.size ≥ symlinkMax then none else some (.ok (bytesAt i.data 0 i.size))
  else some (flatfsFilePread mac s i 0 (symlinkMax - 1))

/-- `newpath`: the target and what follows the link. `fstrlen(p, 256)` stops at 256 bytes; of a
    longer rest 257 bytes are copied and no NUL, so the string goes on with what `newpath` held. -/
def newPath (target p tail : Text) : Text :=
  cstr (target ++ if p = [] then [] else slash :: if p.length ≤ 256 then p else p.take 257 ++ tail)

/-- The loop of `path_walk` over the rest `p` of the path. `wantLast` says that `out_last` is not
    null; `restart` is the recursive call. `fuel` bounds the rounds. -/
def walkLoop (wantLast : Bool)
    (restart : Text → Text → Outs → Option (FlatfsErr × Outs)) :
    Nat → Text → Nat → Nat → Outs → Option (FlatfsErr × Outs)
  | 0, _, cur, par, o => some (.ok, { o with ino := cur, parent := par })
  | fuel + 1, p, cur, par, o =>
    if p = [] then some (.ok, { o with ino := cur, parent := par }) else
    let comp := p.takeWhile (· ≠ slash)
    if comp = [] then walkLoop wantLast restart fuel p.tail cur par o else
    if comp.length ≥ nameMax then some (.nametoolong, o) else
    let rest := (p.drop comp.length).tail
    let lastOne := rest.isEmpty && wantLast
    let o := if lastOne then { o with last := comp } else o
    match flatfsHtreeLookup s cur comp with
    | .error e => some (e, o)
    | .ok next =>
      if lastOne then walkLoop wantLast restart fuel rest next cur o else
      match flatfsInodeRead s next with
      | .error e => some (e, o)
      | .ok i =>
        if sIsLnk i.mode then
          match linkTarget mac s i with
          | none => none
          | some (.error e) => some (e, o)
          | some (.ok target) =>
            if target.length + 1 + min rest.length 256 + 1 > symlinkMax + 256
            then some (.nametoolong, o)
            else restart target rest o
        else walkLoop wantLast restart fuel rest next cur o

/-- `path_walk` at `symlink_depth = 9 - k`. -/
def pathWalk (tails : Nat → Text) (wantLast : Bool) :
    Nat → Text → Outs → Option (FlatfsErr × Outs)
  | 0, path, o => some (if path.head? = some slash then .loop else .inval, o)
  | k + 1, path, o =>
    if path.head? = some slash then
      walkLoop mac s wantLast
        (fun target rest o => pathWalk tails wantLast k (newPath target rest (tails k)) o)
        path.tail.length path.tail s.super.rootIno s.super.rootIno o
    else some (.inval, o)

end Walk

/-! ## 2. The calls -/

def oCreat : Nat := 0x0040
def oExcl : Nat := 0x0080
def oTrunc : Nat := 0x0200
def dtDir : Nat := 4
def dtReg : Nat := 8
def dtLnk : Nat := 10

def modeToDt (mode : Nat) : Nat :=
  if mode &&& 0xF000 = 0x8000 then dtReg
  else if mode &&& 0xF000 = 0x4000 then dtDir
  else if mode &&& 0xF000 = 0xA000 then dtLnk
  else if mode &&& 0xF000 = 0x6000 then 6
  else if mode &&& 0xF000 = 0x2000 then 2
  else if mode &&& 0xF000 = 0x1000 then 1
  else if mode &&& 0xF000 = 0xC000 then 12
  else 0

/-- `flatfs_dir_insert`; `none` also for an inode number outside the table. -/
def flatfsDirInsert (s : FS) (dirIno : Nat) (name : Text) (ino ftype : Nat) :
    Option Done :=
  if dirIno < s.super.totalInodes then flatfsHtreeInsert s dirIno name ino ftype else none

/-- A creating call up to its `flatfs_dir_insert`: it has ended before, or it inserts and then
    goes on with `finish`. -/
inductive Begun where
  | ended (e : FlatfsErr) (s : FS)
  | insert (s : FS) (dir : Nat) (name : Text) (ino ftype : Nat)
      (finish : Done → Done)

/-- The whole call. -/
def Begun.run : Begun → Option Done
  | .ended e s => some (e, s)
  | .insert s dir name ino ftype finish => (flatfsDirInsert s dir name ino ftype).map finish

section Calls

variable (mac : Mac) (tails : Nat → Text) (s : FS)
  (path : Text) (o : Outs)

/-- The end of `flatfs_open`, with the inode found. -/
def openInode (s : FS) (ino flags : Nat) : Done :=
  match flatfsInodeRead s ino with
  | .error e => (e, s)
  | .ok i =>
    if sIsDir i.mode then (.isdir, s)
    else if flags &&& oTrunc ≠ 0 then ((flatfsFileTruncate s i 0).1, (flatfsFileTruncate s i 0).2.2)
    else (.ok, s)

/-- `flatfs_open` up to the insertion. -/
def openBegin (flags ts : Nat) : Option Begun :=
  match pathWalk mac s tails true 9 path o with
  | none => none
  | some (e, o) =>
    if e = .notfound ∧ flags &&& oCreat ≠ 0 then
      match flatfsInodeAlloc s with
      | (.error e, s) => some (.ended e s)
      | (.ok ino, s) =>
        match flatfsInodeWrite s (flatfsOpenInode ino ts) with
        | (.ok, s) => some (.insert s o.parent o.last ino dtReg fun r =>
            if r.1 = .ok then openInode r.2 ino flags else (r.1, (flatfsInodeFree r.2 ino).2))
        | (e, s) => some (.ended e (flatfsInodeFree s ino).2)
    else if e ≠ .ok then some (.ended e s)
    else if flags &&& oExcl ≠ 0 then some (.ended .exist s)
    else some (.ended (openInode s o.ino flags).1 (openInode s o.ino flags).2)

/-- `flatfs_dir_create` up to the insertion. The entry it makes in the inode B-tree at its end is
    left out: no call gets that far (`mkdirBegin_spec`). -/
def dirCreateBegin (parent : Nat) (name : Text) (mode : Nat) : Option Begun :=
  match flatfsInodeAlloc s with
  | (.error e, s) => some (.ended e s)
  | (.ok ino, s) =>
    match flatfsAllocBlock s with
    | (.error e, s) => some (.ended e (flatfsInodeFree s ino).2)
    | (.ok rtblk, s) =>
      let undo := fun s => (flatfsInodeFree (flatfsFreeBlock s rtblk).2 ino).2
      match flatfsHtreeInit s ino rtblk with
      | (.ok, s) =>
        match flatfsHtreeInsert s ino [46] ino dtDir with
        | none => none
        | some (_, s) =>
          match flatfsHtreeInsert s ino [46, 46] parent dtDir with
          | none => none
          | some (_, s) =>
            match flatfsInodeWrite s
              { flatfsInodeInit ino (0x4000 ||| (mode &&& 0x1FF)) 0 0 with nlink := 2 } with
            | (.ok, s) => some (.insert s parent name ino (modeToDt (0x4000 ||| mode)) fun r =>
                if r.1 = .ok then
                  match flatfsInodeRead r.2 parent with
                  | .ok i => (.ok, (flatfsInodeWrite r.2 { i with nlink := (i.nlink + 1) % 65536 }).2)
                  | .error _ => (.ok, r.2)
                else (r.1, undo r.2))
            | (e, s) => some (.ended e (undo s))
      | (e, s) => some (.ended e (undo s))

/-- `flatfs_mkdir` up to the insertion. -/
def mkdirBegin (mode : Nat) : Option Begun :=
  match pathWalk mac s tails true 9 path o with
  | none => none
  | some (e, o) =>
    if e = .ok then some (.ended .exist s)
    else if e ≠ .notfound then some (.ended e s)
    else dirCreateBegin s o.parent o.last mode

/-- The inode `flatfs_symlink` stores: a target that fits goes into it, with its NUL. -/
def symlinkInode (ino : Nat) (target : Text) : Inode :=
  let i := flatfsInodeInit ino (0xA000 ||| 0o777) 0 0
  let tlen := fstrlen target symlinkMax
  if flatfsInlineFits (tlen + 1) then
    { i with
      data := fill i.data 0 (tlen + 1) fun j => target.getD j 0
      size := tlen
      flags := flInline ||| flSymlinkInln }
  else i

/-- `flatfs_symlink` up to the insertion. -/
def symlinkBegin (target : Text) : Option Begun :=
  match pathWalk mac s tails true 9 path o with
  | none => none
  | some (e, o) =>
    if e = .ok then some (.ended .exist s)
    else if e ≠ .notfound then some (.ended e s)
    else
      match flatfsInodeAlloc s with
      | (.error e, s) => some (.ended e s)
      | (.ok ino, s) =>
        let i := symlinkInode ino target
        match flatfsInodeWrite s i with
        | (.ok, s) =>
          if i.flags &&& flSymlinkInln ≠ 0 then some (.insert s o.parent o.last ino dtLnk id)
          else
            match flatfsFilePwrite mac s i 0
              ((List.range (fstrlen target symlinkMax + 1)).map fun j => target.getD j 0) with
            | none => none
            | some (.error e, _, s) => some (.ended e (flatfsInodeFree s ino).2)
            | some (.ok _, _, s) => some (.insert s o.parent o.last ino dtLnk id)
        | (e, s) => some (.ended e (flatfsInodeFree s ino).2)

/-- `flatfs_link` up to the insertion; `oldOut` is what its local `oino` held. -/
def linkBegin (old : Text) (oldOut : Outs) : Option Begun :=
  match pathWalk mac s tails false 9 old oldOut with
  | none => none
  | some (e, oo) =>
    if e ≠ .ok then some (.ended e s) else
    match pathWalk mac s tails true 9 path o with
    | none => none
    | some (e, o) =>
      if e = .ok then some (.ended .exist s)
      else if e ≠ .notfound then some (.ended e s)
      else
        match flatfsInodeRead s oo.ino with
        | .error e => some (.ended e s)
        | .ok i =>
          if sIsDir i.mode then some (.ended .isdir s) else
          match flatfsInodeWrite s { i with nlink := (i.nlink + 1) % 65536 } with
          | (.ok, s) => some (.insert s o.parent o.last oo.ino (if sIsLnk i.mode then dtLnk else dtReg) id)
          | (e, s) => some (.ended e s)

def flatfsOpen (flags ts : Nat) : Option Done :=
  (openBegin mac tails s path o flags ts).bind Begun.run

def flatfsMkdir (mode : Nat) : Option Done :=
  (mkdirBegin mac tails s path o mode).bind Begun.run

def flatfsSymlink (target : Text) : Option Done :=
  (symlinkBegin mac tails s path o target).bind Begun.run

def flatfsLink (old : Text) (oldOut : Outs) : Option Done :=
  (linkBegin mac tails s path o old oldOut).bind Begun.run

end Calls

/-! ## 3. The codes of the file functions -/

/-- The codes reading and writing blocks of a file can fail with. -/
def FileErr (e : FlatfsErr) : Prop := e = .nospace ∨ e = .toobig ∨ e = .crc

theorem FileErr.ne_ok (h : FileErr e) : e ≠ .ok := by
  rcases h with rfl | rfl | rfl <;> simp

theorem FileErr.ne_notfound (h : FileErr e) : e ≠ .notfound := by
  rcases h with rfl | rfl | rfl <;> simp

section Codes

variable {s : FS} {i : Inode} {e : FlatfsErr}

theorem flatfsAllocBlock_error (h : (flatfsAllocBlock s).1 = .error e) : FileErr e := by
  unfold flatfsAllocBlock at h
  split at h
  · exact .inl (Except.error.inj h).symm
  · split at h
    · exact .inl (Except.error.inj h).symm
    · cases h

theorem inodeSlot_error {k : Nat} {alloc : Bool} (h : (inodeSlot s i k alloc).1 = .error e) :
    FileErr e := by grind [inodeSlot, flatfsAllocBlock_error]

theorem blockSlot_error {p j : Nat} {alloc : Bool} (h : (blockSlot s i p j alloc).1 = .error e) :
    FileErr e := by grind [blockSlot, flatfsAllocBlock_error]

theorem walkOn_error {r : Level} {next : FS → Inode → Nat → Level}
    (hr : ∀ e, r.1 = .error e → FileErr e) (hn : ∀ s i p e, (next s i p).1 = .error e → FileErr e)
    (h : (walkOn r next).1 = .error e) : FileErr e := by
  obtain ⟨x, j, t⟩ := r
  unfold walkOn at h
  grind

theorem mapBlock_error {l : Nat} {alloc : Bool} (h : (mapBlock s i l alloc).1 = .error e) : FileErr e := by
  have hw : ∀ e, (mapWalk s i l alloc).1 = .error e → FileErr e := by
    intro e he
    unfold mapWalk at he
    split at he
    · exact inodeSlot_error he
    split at he
    · exact walkOn_error (fun _ => inodeSlot_error) (fun _ _ _ _ => blockSlot_error) he
    split at he
    · exact walkOn_error (fun _ => inodeSlot_error) (fun _ _ _ _ =>
        walkOn_error (fun _ => blockSlot_error) fun _ _ _ _ => blockSlot_error) he
    · exact .inr (.inl (Except.error.inj he).symm)
  unfold mapBlock at h
  cases hm : (mapWalk s i l alloc).1 with
  | error e' =>
    simp only [hm] at h
    obtain rfl := Except.error.inj h
    exact hw _ hm
  | ok o => simp only [hm] at h; cases h

variable (mac : Mac)

theorem flatfsFileReadBlk_error {l : Nat} (h : flatfsFileReadBlk mac s i l = .error e) : FileErr e := by
  unfold flatfsFileReadBlk at h
  split at h
  · grind [mapBlock_error]
  · split at h
    · cases h
    · split at h
      · exact .inr (.inr (Except.error.inj h).symm)
      · cases h

theorem flatfsFileWriteBlk_error {l : Nat} {c : Bytes} (he : e ≠ .ok)
    (h : (flatfsFileWriteBlk mac s i l c).1 = e) : FileErr e := by grind [flatfsFileWriteBlk, mapBlock_error]

theorem preadLoop_error {off len : Nat} (fuel : Nat) :
    ∀ out, preadLoop mac s i off len fuel out = .error e → FileErr e := by
  induction fuel with
  | zero => intro out h; cases h
  | succ fuel ih => grind [preadLoop, flatfsFileReadBlk_error]

theorem pwriteLoop_error {off : Nat} {buf : Text} (fuel : Nat) :
    ∀ s i done, (pwriteLoop mac off buf fuel s i done).1 = .error e → FileErr e := by
  induction fuel with
  | zero => intro s i done h; cases h
  | succ fuel ih => grind [pwriteLoop, flatfsFileReadBlk_error, flatfsFileWriteBlk_error]

end Codes

/-! ## 4. A consistent tree -/

/-- An inode in use. -/
def FS.Live (s : FS) (x : Nat) : Prop := x < s.super.totalInodes ∧ (s.inode x).inodeMagic ≠ 0

/-- A directory: an inode in use that has a hash tree. -/
def FS.IsDir (s : FS) (x : Nat) : Prop := s.Live x ∧ HasRoot s x

/-- **A consistent directory tree.** -/
structure TreeOk (s : FS) : Prop where
  wf : Wf s
  total : s.super.totalInodes < 256 ^ 8
  root : s.Live s.super.rootIno
  read : ∀ x, s.Live x → flatfsInodeRead s x = .ok (s.inode x)
  self : ∀ x, s.Live x → (s.inode x).ino = x
  free : ∀ x < s.super.totalInodes, (s.inode x).inodeMagic = 0 →
    (s.inode x).ino = 0 ∧ (s.inode x).dirHtreeBlk = 0
  /-- every entry of a directory names an inode in use -/
  entry : ∀ x, s.IsDir x → ∀ b < 256, ∀ i < 32, deIno (leafBytes s x b) i ≠ 0 →
    s.Live (deIno (leafBytes s x b) i)
  /-- a target kept in the inode fits there -/
  link : ∀ x, s.Live x → (s.inode x).flags &&& flSymlinkInln ≠ 0 → (s.inode x).size ≤ inlineMax

section Tree

variable {s : FS} (hT : TreeOk s)
include hT

theorem TreeOk.pos (h : s.Live x) : x ≠ 0 := by
  rintro rfl
  have := hT.read 0 h
  unfold flatfsInodeRead at this
  rw [if_pos (.inl rfl)] at this
  cases this

theorem TreeOk.isDir (hx : x < s.super.totalInodes) (h : HasRoot s x) : s.IsDir x := by
  refine ⟨⟨hx, fun h0 => h.1 ?_⟩, h⟩
  show htreeBlk s x = 0
  unfold htreeBlk
  rw [if_pos hx, (hT.free x hx h0).2]

theorem TreeOk.dirSelf (h : s.Live x) : DirSelf s x := ⟨h.1, hT.pos h, hT.self x h⟩

theorem TreeOk.lookup_live {y : Nat} {name : Text} (hx : s.Live x)
    (h : flatfsHtreeLookup s x name = .ok y) : s.Live y := by
  by_cases hR : HasRoot s x
  · rw [flatfsHtreeLookup_eq hx.1 hR] at h
    cases hs : scanMatch s x name with
    | none => rw [hs] at h; cases h
    | some i =>
      rw [hs] at h
      obtain rfl : deIno (callLeaf s x name) i = y := Except.ok.inj h
      have hm := List.find?_some hs
      simp only [deMatches, Bool.and_eq_true, bne_iff_ne] at hm
      exact hT.entry x ⟨hx, hR⟩ _ (callHash_lt name) i
        (mem_range.1 (mem_of_find?_eq_some hs)) hm.1.1.1
  · rw [flatfsHtreeLookup_corrupt hx.1 hR] at h
    cases h

theorem TreeOk.linkTarget_ne_none (h : s.Live x) (mac : Mac) :
    linkTarget mac s (s.inode x) ≠ none := by
  unfold linkTarget
  split
  · rename_i hf
    have := hT.link x h hf
    rw [if_neg (by unfold inlineMax at this; unfold symlinkMax; omega)]
    simp
  · simp

end Tree

/-! ## 5. What the walk has assigned -/

/-- **The exits of `path_walk`**: it comes to one; a walk that succeeds ends at an inode in use
    with a parent in use, one that fails leaves `ino` and `parent` as they were. -/
structure WalkEnds (s : FS) (o : Outs) (r : Option (FlatfsErr × Outs)) : Prop where
  ends : r ≠ none
  found : ∀ o', r = some (.ok, o') → s.Live o'.ino ∧ s.Live o'.parent
  failed : ∀ e o', r = some (e, o') → e ≠ .ok → o'.ino = o.ino ∧ o'.parent = o.parent

section Ends

variable {s : FS} {o : Outs}

theorem WalkEnds.error {o' : Outs} (he : e ≠ .ok) (h : o'.ino = o.ino)
    (h' : o'.parent = o.parent) : WalkEnds s o (some (e, o')) := by
  refine ⟨by simp, fun o'' ho => ?_, fun e' o'' ho _ => ?_⟩
  · exact absurd (Prod.mk.inj (Option.some.inj ho)).1 he
  grind

theorem WalkEnds.ok {o' : Outs} (h : s.Live o'.ino) (h' : s.Live o'.parent) : WalkEnds s o (some (.ok, o')) := by
  refine ⟨by simp, fun o'' ho => ?_, fun e' o'' ho he => ?_⟩
  · grind
  grind

theorem WalkEnds.withLast {r : Option (FlatfsErr × Outs)} {c : Text} {b : Bool}
    (h : WalkEnds s (if b then { o with last := c } else o) r) : WalkEnds s o r := by
  cases b
  · exact h
  · exact ⟨h.ends, h.found, h.failed⟩

theorem flatfsHtreeLookup_error (hx : x < s.super.totalInodes) {name : Text}
    (h : flatfsHtreeLookup s x name = .error e) : e = .notfound ∨ e = .corrupt := by
  by_cases hR : HasRoot s x
  · grind [flatfsHtreeLookup_eq]
  grind [flatfsHtreeLookup_corrupt]

variable (mac : Mac)

theorem flatfsFilePread_ne_ok (i : Inode) (off len : Nat) : flatfsFilePread mac s i off len ≠ .error .ok := by
  intro h
  unfold flatfsFilePread at h
  split at h
  · grind [flatfsInlineRead]
  · split at h
    · cases h
    · exact (preadLoop_error mac _ _ h).ne_ok rfl

theorem linkTarget_ne_ok (i : Inode) : linkTarget mac s i ≠ some (.error .ok) := by
  grind [linkTarget, flatfsFilePread_ne_ok]

variable {mac} (hT : TreeOk s)
include hT

/-- **The loop**: every round ends the walk, restarts it, or goes on from an inode in use. -/
theorem walkLoop_ends {wantLast : Bool}
    (hr : ∀ target rest o, WalkEnds s o (restart target rest o)) (fuel : Nat) :
    ∀ p cur par o, s.Live cur → s.Live par → WalkEnds s o (walkLoop mac s wantLast restart fuel p cur par o) := by
  induction fuel with
  | zero => exact fun p cur par o hcur hpar => .ok hcur hpar
  | succ fuel ih =>
    intro p cur par o hcur hpar
    unfold walkLoop
    split
    · exact .ok hcur hpar
    dsimp only
    split
    · exact ih _ _ _ _ hcur hpar
    split
    · exact .error (by simp) rfl rfl
    generalize p.takeWhile (· ≠ slash) = comp
    generalize (p.drop comp.length).tail = rest
    refine WalkEnds.withLast (c := comp) (b := rest.isEmpty && wantLast) ?_
    generalize (if (rest.isEmpty && wantLast) = true then { o with last := comp } else o) = o1
    cases hl : flatfsHtreeLookup s cur comp with
    | error e =>
      refine .error ?_ rfl rfl
      grind [flatfsHtreeLookup_error, hcur.1]
    | ok next =>
      have hnext := hT.lookup_live hcur hl
      dsimp only
      split
      · exact ih _ _ _ _ hnext hcur
      rw [hT.read next hnext]
      dsimp only
      split
      · cases ht : linkTarget mac s (s.inode next) with
        | none => exact absurd ht (hT.linkTarget_ne_none hnext mac)
        | some x =>
          cases x with
          | error e => exact .error (fun he => linkTarget_ne_ok mac _ (he ▸ ht)) rfl rfl
          | ok target =>
            dsimp only
            split
            · exact .error (by simp) rfl rfl
            · exact hr _ _ _
      · exact ih _ _ _ _ hnext hcur

theorem pathWalk_spec (mac : Mac) (tails : Nat → Text) (wantLast : Bool) (k : Nat) :
    ∀ path o, WalkEnds s o (pathWalk mac s tails wantLast k path o) := by
  induction k with
  | zero =>
    intro path o
    refine .error ?_ rfl rfl
    split <;> simp
  | succ k ih =>
    intro path o
    unfold pathWalk
    split
    · exact walkLoop_ends hT (fun _ _ _ => ih _ _) _ _ _ _ _ hT.root hT.root
    · exact .error (by simp) rfl rfl

end Ends

/-! ## 6. Where a path leads -/

/-- The components of a path. -/
def comps (path : Text) : List Text := (path.splitOn slash).filter (· ≠ [])

section Resolution

variable (mac : Mac) (s : FS)

/-- **Resolution**: the components `cs` lead from directory `x` to `d`. A symbolic link on the way
    is replaced by its target, which has to be absolute. -/
inductive Resolves : Nat → List Text → Nat → Prop
  | here (x : Nat) : Resolves x [] x
  | step {x y d : Nat} {c : Text} {cs : List Text} : c.length < nameMax →
      flatfsHtreeLookup s x c = .ok y → sIsLnk (s.inode y).mode = false → Resolves y cs d →
      Resolves x (c :: cs) d
  | link {x y d : Nat} {c b : Text} {cs : List Text} : c.length < nameMax →
      flatfsHtreeLookup s x c = .ok y → sIsLnk (s.inode y).mode = true →
      linkTarget mac s (s.inode y) = some (.ok b) → (cstr b).head? = some slash →
      Resolves s.super.rootIno (comps (cstr b) ++ cs) d → Resolves x (c :: cs) d

/-- **A component does not exist** on the way from directory `x`. -/
inductive Missing : Nat → List Text → Prop
  | here {x : Nat} {c : Text} {cs : List Text} : c.length < nameMax →
      flatfsHtreeLookup s x c = .error .notfound → Missing x (c :: cs)
  | step {x y : Nat} {c : Text} {cs : List Text} : c.length < nameMax →
      flatfsHtreeLookup s x c = .ok y → sIsLnk (s.inode y).mode = false → Missing y cs →
      Missing x (c :: cs)
  | link {x y : Nat} {c b : Text} {cs : List Text} : c.length < nameMax →
      flatfsHtreeLookup s x c = .ok y → sIsLnk (s.inode y).mode = true →
      linkTarget mac s (s.inode y) = some (.ok b) → (cstr b).head? = some slash →
      Missing s.super.rootIno (comps (cstr b) ++ cs) → Missing x (c :: cs)

end Resolution

end Kobalt.Flatfs

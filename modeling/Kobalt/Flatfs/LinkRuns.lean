/-
  Subject: THE BOOKS OVER WHOLE RUNS. Creating, linking, renaming and removing names, in any order:
  link counts, the count of free inodes, and that every inode in use has a name.

  Each call gives and takes references one at a time (`Links.lean`), so one lemma per call shows that
  it leaves nothing in hand. Where it does leave something -- a link whose entry was not written, a
  directory inode that never came to be, a rename that lost its entry -- the call is excluded by
  `NameOp.Sound`, the condition on the call and the state before it.
-/
import Mathlib.Data.Nat.Bitwise
import Kobalt.Flatfs.Links

namespace Kobalt.Flatfs

open Function Finset

variable {s : FS} {i : Inode} {old : Text} {x : Nat} {oldOut : Outs}

/-! ## 1. Calls and their condition -/

/-- A call on names, with what its locals held before. -/
inductive NameOp where
  | openFile (path : Text) (o : Outs) (flags ts : Nat)
  | mkdir (path : Text) (o : Outs) (mode : Nat)
  | symlink (path : Text) (o : Outs) (target : Text)
  | link (path : Text) (o : Outs) (old : Text) (oldOut : Outs)
  | unlink (path : Text) (o : Outs)
  | rmdir (path : Text) (o : Outs)
  | rename (path : Text) (o : Outs) (newp : Text) (newOut : Outs)

/-- An insertion, with `n` blocks taken before, that stays within the inode table and within its entry. -/
structure InsertFits (s : FS) (dir : Nat) (name : Text) (n : Nat) : Prop where
  table : dir < s.super.totalInodes
  name : ∀ i, FreeAt s dir name n i → fstrlen name nameMax ≤ 112

/-- The leaf of `name'` in `dir'` once the entry of `name` in `dir` is clear. -/
def leafWithout (s : FS) (dir : Nat) (name : Text) (dir' : Nat) (name' : Text) : Bytes :=
  match scanMatch s dir name with
  | some k => if dir' = dir then update (leafBytes s dir) (callHash name / 16777216)
      (fill (callLeaf s dir name) (128 * k) 128 fun _ => 0) (callHash name' / 16777216) else callLeaf s dir' name'
  | none => callLeaf s dir' name'

/-- A truncation to nothing gives back no block in use. It clears no pointer, so a block it gave back
    would have two owners as soon as it is allocated again. -/
def FreesNone (s : FS) (i : Inode) : Prop := ∀ lb ∈ cutBlocks i 0, ¬ s.Allocated (mappedTo s i lb)

/-- The bytes of an inline file, taken for a block pointer, name no block in use. -/
structure Harmless (s : FS) (i : Inode) : Prop where
  size : i.size ≤ 4096
  block : i.size ≠ 0 → ¬ s.Allocated (i.blkPtr 0)

section Calls

variable (mac : Mac) (tails : Nat → Text)

def NameOp.call (s : FS) : NameOp → Option Done
  | .openFile path o flags ts => flatfsOpen mac tails s path o flags ts
  | .mkdir path o mode => flatfsMkdir mac tails s path o mode
  | .symlink path o target => flatfsSymlink mac tails s path o target
  | .link path o old oldOut => flatfsLink mac tails s path o old oldOut
  | .unlink path o => flatfsUnlink mac tails s path o
  | .rmdir path o => flatfsRmdir mac tails s path o
  | .rename path o newp newOut => flatfsRename mac tails s path o newp newOut

/-- The call as a step; no answer when it leaves its objects. -/
def nameCall (s : FS) (op : NameOp) : Option FlatfsErr × FS :=
  match op.call mac tails s with
  | some (e, s') => (some e, s')
  | none => (none, s)

theorem call_of_nameCall {mac : Mac} {tails : Nat → Text}
    {op : NameOp} {e : FlatfsErr} (h : (nameCall mac tails s op).1 = some e) :
    op.call mac tails s = some (e, (nameCall mac tails s op).2) := by
  unfold nameCall at h ⊢
  cases hc : op.call mac tails s with
  | none => rw [hc] at h; cases h
  | some r => rw [hc] at h; cases h; rfl

/-- **The condition on a call**, in the state before it and the values its locals hold. -/
def NameOp.Sound (s : FS) : NameOp → Prop
  | .openFile path o flags ts =>
    (flags &&& oCreat ≠ 0 → ∀ last n, (Create.openCreat flags ts).Inserts mac tails s path o last n →
      InsertFits s o.parent last n) ∧
    ∀ o', pathWalk mac s tails true 9 path o = some (.ok, o') → flags &&& oTrunc ≠ 0 →
      sIsDir (s.inode o'.ino).mode = false → FreesNone s (s.inode o'.ino)
  | .mkdir path o _ =>
    -- it does not come to take an inode
    ∀ o', pathWalk mac s tails true 9 path o = some (.notfound, o') → ¬ s.FreeInode
  | .symlink path o target => ∀ last n, (Create.symlink target).Inserts mac tails s path o last n →
    InsertFits s o.parent last n ∧ ∃ i, FreeAt s o.parent last n i
  | .link path o old oldOut => ∀ last n, (Create.link old oldOut).Inserts mac tails s path o last n →
    (InsertFits s o.parent last n ∧ ∃ i, FreeAt s o.parent last n i) ∧
      ∀ oo, pathWalk mac s tails false 9 old oldOut = some (.ok, oo) → (s.inode oo.ino).nlink < 65535
  | .unlink path o => ∀ o' y, pathWalk mac s tails true 9 path o = some (.ok, o') →
    sIsDir (s.inode o'.ino).mode = false → flatfsHtreeLookup s o'.parent o'.last = .ok y →
      y = o'.ino ∧
        ((s.inode o'.ino).nlink = 1 → (s.inode o'.ino).isInline = true → Harmless s (s.inode o'.ino))
  | .rmdir path o => ∀ o' y, pathWalk mac s tails true 9 path o = some (.ok, o') →
    sIsDir (s.inode o'.ino).mode = true → flatfsHtreeIsempty s o'.ino = true →
    flatfsHtreeLookup s o'.parent o'.last = .ok y →
      y = o'.ino ∧ s.links [] o'.ino = 1 ∧ o'.ino ≠ s.super.rootIno
  | .rename path o newp newOut => ∀ o' e n y,
    pathWalk mac s tails true 9 path o = some (.ok, o') →
    pathWalk mac s tails true 9 newp newOut = some (e, n) → e = .ok ∨ e = .notfound →
    flatfsHtreeLookup s o'.parent o'.last = .ok y →
      y = o'.ino ∧ n.parent < s.super.totalInodes ∧ fstrlen n.last nameMax ≤ 112 ∧
        ∃ i, FreeEntry s n.parent n.last 0 (leafWithout s o'.parent o'.last n.parent n.last) i

end Calls

/-! ## 2. Giving an inode back -/

section Back

variable {s : FS} {x : Nat} {l : List Nat}

theorem Booked.no_entries (hB : Booked s l) (hx : x < s.super.totalInodes)
    (hm : sIsDir (s.inode x).mode = false) (q : Nat × Nat) : s.entry (x, q) = 0 := by
  refine if_neg fun hR => ?_
  grind [hB.plain, hB.tree.isDir]

theorem allocInv_inodeFree {t : FS} (h : AllocInv t) (x : Nat) : AllocInv (flatfsInodeFree t x).2 := by
  unfold flatfsInodeFree
  split
  · exact h
  split
  · exact h
  · exact h.congr rfl rfl rfl rfl rfl

/-- `flatfs_inode_free` on an inode in use, behind a release of blocks and a write of that inode. -/
theorem freed_inodeFree {t t' : FS} {B : Nat → Prop} (h0 : x ≠ 0) (hlt : x < s.super.totalInodes)
    (hrel : Released s B t) (hB : ∀ a : Slot, a.inode ≠ x → s.val a ≠ 0 → ¬ B (s.val a)) (hO : Own s)
    (ht' : t' = t.setInode x i) (hm : i.inodeMagic ≠ 0) :
    (flatfsInodeFree t' x).1 = .ok ∧ Freed s x (flatfsInodeFree t' x).2 := by
  obtain ⟨fb, hsup⟩ : ∃ fb, t'.super = { s.super with freeBlocks := fb } := by
    rw [ht']
    exact ⟨_, hrel.super⟩
  have htot : t'.super.totalInodes = s.super.totalInodes := by rw [hsup]
  have hat : t'.inode x = i := by
    rw [ht']
    exact update_self ..
  have hinv : AllocInv t' := by
    rw [ht']
    exact hrel.inv.congr rfl rfl rfl rfl rfl
  have hfree := allocInv_inodeFree hinv x
  have heq : flatfsInodeFree t' x = (.ok, { t'.setInode x {} with
      super := { t'.super with freeInodes := u64 (t'.super.freeInodes + 1) }
      inoHint := if x < t'.inoHint then x else t'.inoHint }) := by
    unfold flatfsInodeFree
    rw [if_neg (by omega), if_neg (by rw [hat]; exact hm)]
  rw [heq] at hfree ⊢
  refine ⟨rfl, ?_, ?_, hfree, ?_, fun a ha hv => ?_⟩
  · show update t'.inode x {} = _
    rw [ht']
    show update (update t.inode x i) x {} = _
    rw [update_idem, hrel.inode]
  · show t'.blk = _
    rw [ht']
    exact hrel.blk
  · grind
  · have hal := (hrel.alloc (s.val a)).2 ⟨hO.alloc a hv, hB a ha hv⟩
    rw [ht']
    exact hal

theorem Booked.inodeFree (hB : Booked s (x :: l)) (hx : s.links l x = 0)
    (hroot : x ≠ s.super.rootIno) (hempty : ∀ q ∈ positions, s.entry (x, q) = 0) :
    (flatfsInodeFree s x).1 = .ok ∧ Booked (flatfsInodeFree s x).2 l := by
  have hl := hB.hand x (List.mem_cons_self ..)
  have hsame : s = s.setInode x (s.inode x) := by
    unfold FS.setInode
    rw [update_eq_self]
  obtain ⟨hok, hf⟩ := freed_inodeFree (hB.tree.pos hl) hl.1 (Released.none hB.tree.wf.inv)
    (fun _ _ _ => id) hB.tree.wf.own hsame hl.2
  exact ⟨hok, hf.booked hB hx hroot hempty⟩

theorem restored_nlink (hT : TreeOk s) (hx : s.Live x) (n : Nat) :
    Restored s x { s.inode x with nlink := n } (s.over (Inode.stored { s.inode x with nlink := n })) := by
  have hp := prepared_link hT hx n
  obtain ⟨j, hj⟩ : ∃ j : Inode, j = { s.inode x with nlink := n } := ⟨_, rfl⟩
  rw [← hj] at hp ⊢
  have hino : j.ino = x := by rw [hj]; exact hT.self x hx
  refine ⟨?_, hp.kept, hp.wf, rfl, hino, by rw [hj], by rw [hj], by rw [hj], by rw [hj], fun hf => ?_⟩
  · show update s.inode j.stored.ino j.stored = _
    rw [j.stored_upToCrc.ino, hino]
  · rw [hj] at hf ⊢
    exact hT.link x hx hf

theorem lslot_inode (y lb : Nat) : (lslot y lb).inode = y := by
  unfold lslot
  split
  · rfl
  · split <;> rfl

theorem truncated_own (hT : TreeOk s) (hx : s.Live x)
    (hh : (s.inode x).isInline = true → Harmless s (s.inode x)) (n : Nat) {a : Slot}
    (ha : a.inode ≠ x) (hv : s.val a ≠ 0) : ¬ (s.val a ≠ 0 ∧ ∃ lb ∈ cutBlocks { s.inode x with nlink := n } 0,
      mappedTo s { s.inode x with nlink := n } lb = s.val a) := by
  obtain ⟨j, hj⟩ : ∃ j : Inode, j = { s.inode x with nlink := n } := ⟨_, rfl⟩
  rw [← hj]
  have hino : j.ino = x := by rw [hj]; exact hT.self x hx
  rintro ⟨-, lb, hlb, hm⟩
  by_cases hin : (s.inode x).isInline = true
  · have hH := hh hin
    have hsize : j.size = (s.inode x).size := by rw [hj]
    have hlt := (mem_cutBlocks.mp hlb).2
    have hle := hH.size
    have hlt' : lb < 1 ∧ j.size ≠ 0 := by
      unfold blocksFor u64 at hlt
      omega
    obtain rfl : lb = 0 := by omega
    rw [mappedTo_zero] at hm
    refine hH.block (by rw [← hsize]; exact hlt'.2) ?_
    rw [show (s.inode x).blkPtr 0 = j.blkPtr 0 by rw [hj]; rfl, hm]
    exact hT.wf.own.alloc a hv
  · have hmap : j.mapped = true := by
      have : j.mapped = (s.inode x).mapped := by rw [hj]; rfl
      rw [this]
      unfold Inode.mapped
      simp [hx.2, hin]
    by_cases hbig : 262666 ≤ lb
    · grind [mappedTo_toobig]
    · rw [mappedTo_eq_val hmap (by rw [hino]; exact hx.1) (by omega), hino] at hm
      have hval : (s.over j).val = s.val := by
        unfold FS.over
        rw [hino]
        exact val_setInode_congr (by rw [hj]; rfl) (fun _ _ _ => by rw [hj]; rfl) (by rw [hj])
      rw [hval] at hm
      grind [hT.wf.own.inj, lslot_inode]

theorem Booked.dropLink (hB : Booked s (x :: l)) (hm : sIsDir (s.inode x).mode = false)
    (hh : (s.inode x).nlink = 1 → (s.inode x).isInline = true → Harmless s (s.inode x)) :
    Booked (dropLink s (s.inode x) x).2 l := by
  have hT := hB.tree
  have hx := hB.hand x (List.mem_cons_self ..)
  have hsmall := hB.small x hx
  have hnl := hB.nlink x hx hm
  rw [links_cons_self] at hnl
  have hroot : x ≠ s.super.rootIno := by
    intro e
    rw [e, hB.rootDir] at hm
    cases hm
  have hdec : ((s.inode x).nlink + 65535) % 65536 = s.links l x := by omega
  rw [Flatfs.dropLink, hdec]
  dsimp only
  have hself := hT.self x hx
  by_cases h0 : s.links l x = 0
  swap
  · rw [if_neg h0, flatfsInodeWrite_stored (by rw [hself]; exact hT.pos hx) (by rw [hself]; exact hx.1)]
    refine (restored_nlink hT hx (s.links l x)).booked hB hx (by show s.links l x < 65536; omega)
      (fun _ => rfl) (fun _ => by omega) (fun a ha => (links_cons_of_ne (Ne.symm ha)).symm) fun y hy =>
        hB.hand y (List.mem_cons_of_mem _ hy)
  rw [if_pos h0, h0]
  have hempty : ∀ q ∈ positions, s.entry (x, q) = 0 := fun q _ => hB.no_entries hx.1 hm q
  by_cases hsz : (s.inode x).size = 0
  · have htr : flatfsFileTruncate s { s.inode x with nlink := 0 } 0 =
        (.ok, { s.inode x with nlink := 0 }, s) := by
      unfold flatfsFileTruncate
      rw [if_neg (by omega), if_pos (by exact hsz.symm)]
    rw [htr]
    exact (hB.inodeFree h0 hroot hempty).2
  · obtain ⟨t, hrel, htr⟩ := flatfsFileTruncate_shrink (i := { s.inode x with nlink := 0 }) hT.wf.inv
      (n := 0) (by show 0 < (s.inode x).size; omega)
    obtain ⟨j, hj⟩ : ∃ j, j = Inode.cut { s.inode x with nlink := 0 } 0 := ⟨_, rfl⟩
    have hjino : j.ino = x ∧ j.inodeMagic = (s.inode x).inodeMagic := by
      rw [hj]
      unfold Inode.cut
      split
      · exact ⟨hself, rfl⟩
      · exact ⟨hself, rfl⟩
    have htot : t.super.totalInodes = s.super.totalInodes := by rw [hrel.super]
    rw [htr, ← hj, flatfsInodeWrite_stored (by rw [hjino.1]; exact hT.pos hx)
      (by rw [hjino.1, htot]; exact hx.1)]
    have hone : (s.inode x).nlink = 1 := by omega
    obtain ⟨-, hf⟩ : _ ∧ Freed s x (flatfsInodeFree (t.over j.stored) x).2 :=
      freed_inodeFree (i := j.stored) (hT.pos hx) hx.1 hrel (fun a ha hv => truncated_own hT hx (hh hone) 0 ha hv) hT.wf.own
      (by unfold FS.over; rw [j.stored_upToCrc.ino, hjino.1])
      (by rw [j.stored_upToCrc.magic, hjino.2]; exact hx.2)
    exact hf.booked hB h0 hroot hempty

end Back

/-! ## 3. The calls -/

section Each

variable {mac : Mac} {tails : Nat → Text} {s : FS} {path : Text}
  {o : Outs} (hB : Booked s [])
include hB

/-- A call has come to an end, and the books are right. -/
def EndsBooked (r : Option Done) : Prop := ∃ q, r = some q ∧ Booked q.2 []

theorem ends_same (e : FlatfsErr) : EndsBooked (some (e, s)) := ⟨_, rfl, hB⟩

omit hB in
theorem Released.val {t : FS} {B : Nat → Prop} (h : Released s B t) : t.val = s.val := by
  have htot : t.super.totalInodes = s.super.totalInodes := by rw [h.super]
  funext a
  cases a <;> simp [FS.val, rootPtr, wordOf, childOf, htreeBlk, h.blk, h.inode, htot]

theorem Booked.truncated (hx : s.Live x) (hno : FreesNone s (s.inode x)) :
    Booked (flatfsFileTruncate s (s.inode x) 0).2.2 [] := by
  have hT := hB.tree
  have hself := hT.self x hx
  by_cases hsz : (s.inode x).size = 0
  · unfold flatfsFileTruncate
    rw [if_neg (by omega), if_pos hsz.symm]
    exact hB
  obtain ⟨t, hrel, htr⟩ := flatfsFileTruncate_shrink hT.wf.inv (Nat.pos_of_ne_zero hsz)
  have htot : t.super.totalInodes = s.super.totalInodes := by rw [hrel.super]
  obtain ⟨j, hj⟩ : ∃ j, j = (s.inode x).cut 0 := ⟨_, rfl⟩
  -- size and inline bytes apart the inode is as it was
  obtain ⟨d, hd, hmap⟩ : ∃ d, j = { s.inode x with size := 0, data := d } ∧
      (j.mapped = true → d = (s.inode x).data) := by
    rw [hj]
    unfold Inode.cut
    split
    · rename_i hin
      refine ⟨_, rfl, fun hm => absurd hm ?_⟩
      have : (s.inode x).isInline = true := hin.2
      simp [Inode.mapped, Inode.isInline] at this ⊢
      exact fun _ => this
    · exact ⟨_, rfl, fun _ => rfl⟩
  have hjino : j.ino = x := by rw [hd]; exact hself
  have hu := j.stored_upToCrc
  rw [htr, ← hj, flatfsInodeWrite_stored (by rw [hjino]; exact hT.pos hx) (by rw [hjino, htot]; exact hx.1)]
  have hval : (t.over j.stored).val = s.val := by
    rw [hu.val, FS.over, hjino, ← hrel.val]
    refine val_setInode_congr ?_ (fun hm k _ => ?_) ?_
    · rw [hrel.inode, hd]
      rfl
    · rw [hrel.inode, Inode.blkPtr, Inode.blkPtr, ← hmap hm, hd]
    · rw [hrel.inode, hd]
  have hW : Wf (t.over j.stored) := by
    refine wf_of_le hT.wf (allocInv_over.2 hrel.inv) (by show t.super.dataStart = _; rw [hrel.super]) (fun b hb => ?_)
      fun a => .inr (by rw [hval])
    refine (hrel.alloc b).2 ⟨hb, ?_⟩
    rintro ⟨-, lb, hlb, e⟩
    exact hno lb hlb (e ▸ hb)
  have hres : Restored s x j (t.over j.stored) := by
    refine ⟨?_, .of_eq hval hrel.blk, hW, hrel.super, hjino, by rw [hd], by rw [hd], by rw [hd], by rw [hd], fun _ => ?_⟩
    · show update t.inode j.stored.ino j.stored = _
      rw [hu.ino, hjino, hrel.inode]
    · rw [show j.size = 0 by rw [hd]]
      exact Nat.zero_le _
  have hnl : j.nlink = (s.inode x).nlink := by rw [hd]
  exact hres.booked hB hx (hnl ▸ hB.small x hx) (fun hm => hnl.trans (hB.nlink x hx hm)) (hB.held x hx)
    (fun _ _ => rfl) (by simp)

theorem openInode_booked (hx : s.Live x) (flags : Nat)
    (h : flags &&& oTrunc ≠ 0 → sIsDir (s.inode x).mode = false → FreesNone s (s.inode x)) :
    Booked (openInode s x flags).2 [] := by
  unfold openInode
  rw [hB.tree.read x hx]
  dsimp only
  split
  · exact hB
  rename_i hd
  split
  · rename_i hf
    exact hB.truncated hx (h hf (by simpa using hd))
  · exact hB

omit hB in
theorem Booked.unnamed (hB : Booked s [x]) (hm : sIsDir (s.inode x).mode = false)
    (hone : (s.inode x).nlink = 1) : Booked (flatfsInodeFree s x).2 [] := by
  have hx := hB.hand x (List.mem_cons_self ..)
  grind [hB.nlink, links_cons_self, hB.rootDir, hB.inodeFree, hB.no_entries, hx.1]

omit hB in
theorem Booked.grown {i1 : Inode} {s1 : FS} (hB : Booked s [i.ino])
    (hat : s.inode i.ino = i.stored) (hfl : i.flags = 0) (hg : Grown s i i1 s1) (z : Nat) :
    Booked (s1.over (Inode.stored { i1 with size := z })) [i.ino] := by
  have hx := hB.hand i.ino (List.mem_cons_self ..)
  have hu := SameInode.stored i
  have hsame := hg.ext.same
  obtain ⟨hk, hW, hin⟩ := hg.stored hat z
  have hres : Restored s i.ino { i1 with size := z } (s1.over (Inode.stored { i1 with size := z })) := by
    refine ⟨hin, hk, hW, hg.super, ?_, ?_, ?_, ?_, ?_, fun hf => absurd ?_ hf⟩
    · rw [hsame]
    · rw [hat, hu.magic, hsame]
    · rw [hat, hu.mode, hsame]
    · rw [hat, hu.flags, hsame]
    · rw [hat, hu.hroot, hsame]
    · rw [hsame, hfl]
      exact Nat.zero_and _
  have hnl : i1.nlink = (s.inode i.ino).nlink := by rw [hat, hu.nlink, hsame]
  exact hres.booked hB hx (hnl ▸ hB.small _ hx) (fun hm => hnl.trans (hB.nlink _ hx hm)) (fun hr => hB.held _ hx hr)
    (fun _ _ => rfl) hB.hand

omit hB in
/-- Giving an inode back does not ask whether its last contents were stored. -/
theorem flatfsInodeFree_over {t : FS} {j : Inode} (hb : ¬ (j.ino = 0 ∨ j.ino ≥ t.super.totalInodes))
    (hm : (t.inode j.ino).inodeMagic ≠ 0) (hjm : j.inodeMagic ≠ 0) : flatfsInodeFree (t.over j) j.ino = flatfsInodeFree t j.ino := by
  have hat : (t.over j).inode j.ino = j := update_self ..
  have hset : (t.over j).setInode j.ino {} = t.setInode j.ino {} := FS.setInode_setInode ..
  unfold flatfsInodeFree
  rw [hset, hat, if_neg hm, if_neg hjm, if_neg hb, if_neg (by exact hb)]
  rfl

/-- **A new inode whose blocks could not be written is given back.** -/
theorem Booked.dropped {j j1 : Inode} {s1 : FS} (hj : NewInode s j) (hfl : j.flags = 0)
    (hg : Grown ((s.tookInode j.ino).over j.stored) j j1 s1) : Booked (flatfsInodeFree s1 j.ino).2 [] := by
  have hat := over_stored_self (s.tookInode j.ino) j
  have hB1 := (hB.fresh hj).grown hat hfl hg j1.size
  have htot : s1.super.totalInodes = s.super.totalInodes := by rw [hg.super]; rfl
  have hu := SameInode.stored j1
  have hsame := hg.ext.same
  have hino : j1.stored.ino = j.ino := by rw [hu.ino, hsame]
  have hm : j1.stored.inodeMagic = inodeMagicValue := by rw [hu.magic, hsame]; exact hj.magic
  have hold : (s1.inode j.ino).inodeMagic = inodeMagicValue := by
    rw [hg.disk, hat, (SameInode.stored j).magic, hj.magic]
  have hpos := hj.pos
  have hlt := hj.lt
  have hfree := flatfsInodeFree_over (t := s1) (j := j1.stored) (by rw [hino, htot]; omega)
    (by rw [hino, hold]; decide) (by rw [hm]; decide)
  have hnew : (s1.over j1.stored).inode j.ino = j1.stored := by
    rw [← hino]
    exact update_self ..
  rw [hino] at hfree
  rw [← hfree]
  refine hB1.unnamed ?_ ?_
  · rw [hnew, hu.mode, hsame]
    exact hj.mode
  · rw [hnew, hu.nlink, hsame]
    exact hj.nlink

/-- The inode that is linked once more has a link to spare. -/
def Create.Spare (mac : Mac) (tails : Nat → Text) (s : FS) (c : Create) : Prop :=
  ∀ old oldOut oo, c = .link old oldOut → pathWalk mac s tails false 9 old oldOut = some (.ok, oo) →
    (s.inode oo.ino).nlink < 65535

theorem Stores.booked {c : Create} {s' : FS} (h : Stores mac tails s c x s') (hsmall : c.Spare mac tails s) :
    Booked s' [x] := by
  cases h with
  | made j hj => exact hB.fresh hj
  | written j j1 s1 z hj hfl hg => exact (hB.fresh hj).grown (over_stored_self _ j) hfl hg z
  | linked old oldOut oo hc hw hx hd =>
    have hlt := hsmall old oldOut oo hc hw
    have hnl := hB.nlink _ hx hd
    rw [Nat.mod_eq_of_lt (show (s.inode oo.ino).nlink + 1 < 65536 by omega)]
    refine (restored_nlink hB.tree hx _).booked hB hx ?_ (fun _ => ?_) (fun _ => ?_)
      (fun a ha => (links_cons_of_ne (Ne.symm ha))) fun y hy => ?_
    · show _ + 1 < 65536
      omega
    · rw [links_cons_self, ← hnl]
    · rw [links_cons_self]
      omega
    · rw [List.mem_singleton.1 hy]
      exact hx

/-- What is inserted is no directory, and has one link unless it is an old inode. -/
theorem Stores.plain {c : Create} {s' : FS} (h : Stores mac tails s c x s') : sIsDir (s'.inode x).mode = false ∧
    ((∀ old oldOut, c ≠ .link old oldOut) → (s'.inode x).nlink = 1) := by
  cases h with
  | made j hj =>
    have hu := SameInode.stored j
    rw [over_stored_self, hu.mode, hu.nlink]
    exact ⟨hj.mode, fun _ => hj.nlink⟩
  | written j j1 s1 z hj hfl hg =>
    have hu := SameInode.stored { j1 with size := z }
    rw [(hg.stored (over_stored_self _ j) z).2.2, update_self, hu.mode, hu.nlink, hg.ext.same]
    exact ⟨hj.mode, fun _ => hj.nlink⟩
  | linked old oldOut oo hc hw hx hd =>
    refine ⟨?_, fun hno => absurd hc (hno old oldOut)⟩
    rw [(restored_nlink hB.tree hx _).inode, update_self, (SameInode.stored _).mode]
    exact hd

/-- **A call that inserts.** It succeeds exactly if there is an entry for the name; if it fails, the inode is in
    hand until the call gives it back. -/
theorem Create.inserted {c : Create} {last : Text} {n : Nat} (hins : c.Inserts mac tails s path o last n)
    (hfit : InsertFits s o.parent last n) (hsmall : c.Spare mac tails s) :
    ∃ ino e s2, c.call mac tails s path o = some (e, if e = .ok then s2 else c.undo ino s2) ∧
      (e = .ok ↔ ∃ i, FreeAt s o.parent last n i) ∧ (e = .ok → Booked s2 []) ∧
      (e ≠ .ok → Booked s2 [ino]) ∧ sIsDir (s2.inode ino).mode = false ∧
      ((∀ old oldOut, c ≠ .link old oldOut) → (s2.inode ino).nlink = 1) := by
  have hspec := c.begun_spec mac tails hB.tree path o
  rw [c.call_eq]
  generalize c.begun mac tails s path o = b at hspec
  cases hspec with
  | ended e s' _ _ _ hno _ => exact absurd hins (hno last n)
  | insert s1 o' ino ft n' finish hins' hn hst _ herr hfin =>
    obtain ⟨rfl, rfl⟩ := hins.unique hins'
    have hp := hst.prepared hB.tree
    have hlen : ∀ i, FreeAt s1 o.parent o'.last 0 i → fstrlen o'.last nameMax ≤ 112 :=
      fun i hi => hfit.name i ((hp.freeEntry hn).1 hi)
    have hB1 := hst.booked hB hsmall
    obtain ⟨⟨e, s2⟩, hr, hiff, hok, hfail, hsame, hoth, hlive⟩ := hB1.dirInsert (by rw [hp.total]; exact hfit.table) hlen ft
    have hiff : e = .ok ↔ ∃ i, FreeAt s o.parent o'.last n' i :=
      hiff.trans (exists_congr fun i => hp.freeEntry hn)
    have hlt := ((hlive ino).2 (hB1.hand ino (List.mem_cons_self ..))).1
    obtain ⟨hm, hone⟩ := hst.plain hB
    rw [Begun.run_insert, hr]
    refine ⟨ino, e, s2, congrArg some ?_, hiff, hok, hfail, (hsame ino).mode ▸ hm, fun hc => (hsame ino).nlink.trans (hone hc)⟩
    by_cases he : e = .ok
    · subst he
      obtain ⟨i, hi⟩ := hiff.1 rfl
      have hR := (hp.kept.hasRoot _).2 hi.root
      rw [if_pos rfl]
      exact hfin s2 (fun h => hoth _ fun e => h (e ▸ hR)) hlt
    · rw [if_neg he]
      exact herr e s2 he

/-- What fails to insert and takes nothing back leaves the inode in hand. -/
theorem Create.lost {c : Create} {last : Text} {n : Nat} {e : FlatfsErr} {s' : FS}
    (hins : c.Inserts mac tails s path o last n) (hfit : InsertFits s o.parent last n) (hsmall : c.Spare mac tails s)
    (hundo : ∀ ino s2, c.undo ino s2 = s2) (hcall : c.call mac tails s path o = some (e, s')) (he : e ≠ .ok) :
    ∃ ino, Booked s' [ino] ∧ sIsDir (s'.inode ino).mode = false ∧
      ((∀ old oldOut, c ≠ .link old oldOut) → (s'.inode ino).nlink = 1) := by
  obtain ⟨ino, e', s2, hc, -, -, hfail, hplain⟩ := Create.inserted hB hins hfit hsmall
  rw [hcall] at hc
  cases hc
  rw [if_neg he, hundo]
  exact ⟨ino, hfail he, hplain⟩

theorem Create.booked {c : Create} (hend : ∀ s', c.Ended mac tails s path o s' → Booked s' [])
    (hs : ∀ last n, c.Inserts mac tails s path o last n → InsertFits s o.parent last n ∧
      ((∃ flags ts, c = .openCreat flags ts) ∨ ∃ i, FreeAt s o.parent last n i) ∧ c.Spare mac tails s) :
    EndsBooked (c.call mac tails s path o) := by
  by_cases hins : ∃ last n, c.Inserts mac tails s path o last n
  · obtain ⟨last, n, hins⟩ := hins
    obtain ⟨hfit, hor, hsmall⟩ := hs last n hins
    obtain ⟨ino, e, s2, hcall, hiff, hok, hfail, hm, hone⟩ := Create.inserted hB hins hfit hsmall
    refine ⟨_, hcall, ?_⟩
    by_cases he : e = .ok
    · rw [if_pos he]
      exact hok he
    rw [if_neg he]
    rcases hor with ⟨flags, ts, rfl⟩ | hi
    · exact (hfail he).unnamed hm (hone nofun)
    · exact absurd (hiff.2 hi) he
  · have hspec := c.begun_spec mac tails hB.tree path o
    rw [c.call_eq]
    generalize c.begun mac tails s path o = b at hspec
    cases hspec with
    | ended e s' _ _ _ _ h => exact ⟨_, rfl, hend s' h⟩
    | insert s1 o' ino ft n finish h => exact absurd ⟨_, _, h⟩ hins

omit hB in
theorem or_oCreat_of_set {flags : Nat} (h : flags &&& oCreat ≠ 0) : flags ||| oCreat = flags := by
  have h6 : flags.testBit 6 = true := by
    rw [show oCreat = 2 ^ 6 from rfl, Nat.and_two_pow] at h
    by_contra hf
    simp [hf] at h
  refine Nat.eq_of_testBit_eq fun k => ?_
  rw [Nat.testBit_or, show oCreat = 2 ^ 6 from rfl, Nat.testBit_two_pow]
  by_cases hk : 6 = k
  · rw [← hk, h6, Bool.true_or]
  · simp [hk]

theorem open_booked {flags ts : Nat} (hs : (NameOp.openFile path o flags ts).Sound mac tails s) :
    EndsBooked (flatfsOpen mac tails s path o flags ts) := by
  obtain ⟨hfit, htr⟩ := hs
  have hopen : ∀ o', pathWalk mac s tails true 9 path o = some (.ok, o') → Booked (openInode s o'.ino flags).2 [] :=
    fun o' hw => openInode_booked hB ((pathWalk_spec hB.tree mac tails true 9 path o).found o' hw).1 flags (htr o' hw)
  by_cases hc : flags &&& oCreat ≠ 0
  · have hfl := or_oCreat_of_set hc
    have hcall : flatfsOpen mac tails s path o flags ts = (Create.openCreat flags ts).call mac tails s path o := by
      rw [Create.call, hfl]
    rw [hcall]
    refine Create.booked hB (fun s' h => ?_) fun last n h => ⟨hfit hc last n h, .inl ⟨_, _, rfl⟩, nofun⟩
    rcases h with rfl | ⟨o', hw, rfl⟩
    · exact hB
    · rw [hfl]
      exact hopen o' hw
  · obtain ⟨e, o', hw, -, -⟩ := pathWalk_cases mac tails hB.tree true path o
    unfold flatfsOpen openBegin
    rw [hw]
    dsimp only
    rw [if_neg fun h => hc h.2]
    split
    · exact ends_same hB e
    rename_i hok
    split
    · exact ends_same hB .exist
    · exact ⟨_, rfl, hopen o' (by rw [hw, not_not.1 hok])⟩

theorem mkdir_booked {mode : Nat} (hs : (NameOp.mkdir path o mode).Sound mac tails s) :
    EndsBooked (flatfsMkdir mac tails s path o mode) := by
  refine Create.booked (c := .mkdir mode) hB (fun s' h => ?_) fun last n h => h.2.elim
  rcases h with rfl | ⟨hsome, o', hw⟩
  · exact hB
  · exact absurd hsome (hs o' hw)

theorem symlink_booked {target : Text} (hs : (NameOp.symlink path o target).Sound mac tails s) :
    EndsBooked (flatfsSymlink mac tails s path o target) := by
  refine Create.booked (c := .symlink target) hB (fun s' h => ?_) fun last n h => ⟨(hs last n h).1, .inr (hs last n h).2, nofun⟩
  rcases h with rfl | ⟨j, j1, s1, hj, hfl, hg, rfl⟩
  · exact hB
  · exact hB.dropped hj hfl hg

theorem link_booked (hs : (NameOp.link path o old oldOut).Sound mac tails s) :
    EndsBooked (flatfsLink mac tails s path o old oldOut) := by
  refine Create.booked (c := .link old oldOut) hB (fun s' h => ?_) fun last n h =>
    ⟨(hs last n h).1.1, .inr (hs last n h).1.2, fun _ _ oo hc hw => ?_⟩
  · rcases h with rfl | h
    · exact hB
    · exact h.elim
  · cases hc
    exact (hs last n h).2 oo hw

omit hB in
theorem flatfsInodeWrite_frame (t : FS) (i : Inode) :
    (flatfsInodeWrite t i).2.super = t.super ∧ (flatfsInodeWrite t i).2.group = t.group := by
  unfold flatfsInodeWrite
  split
  · exact ⟨rfl, rfl⟩
  · exact ⟨rfl, rfl⟩

omit hB in
theorem flatfsHtreeRemove_frame (s : FS) (dir : Nat) (name : Text) :
    (flatfsHtreeRemove s dir name).2.super = s.super ∧ (flatfsHtreeRemove s dir name).2.group = s.group := by
  unfold flatfsHtreeRemove
  split
  · exact ⟨rfl, rfl⟩
  split
  · exact ⟨rfl, rfl⟩
  dsimp only
  split
  · exact ⟨rfl, rfl⟩
  split
  · exact ⟨rfl, rfl⟩
  · exact flatfsInodeWrite_frame ..

omit hB in
theorem flatfsHtreeRemove_allocated (s : FS) (dir : Nat) (name : Text) (b : Nat) :
    (flatfsHtreeRemove s dir name).2.Allocated b ↔ s.Allocated b := by
  obtain ⟨h1, h2⟩ := flatfsHtreeRemove_frame s dir name
  unfold FS.Allocated FS.bitAt
  rw [h1, h2]

omit hB in
/-- **A free entry is there behind a removal** if it is in the leaf without the removed entry. -/
theorem FreeEntry.removed {dir dir' k : Nat} {name name' : Text} {s1 : FS}
    (h : FreeEntry s dir' name' 0 (leafWithout s dir name dir' name') k) (hW : Wf s) (hD : DirSelf s dir)
    (hrem : flatfsHtreeRemove s dir name = (.ok, s1)) : FreeAt s1 dir' name' 0 k := by
  have hfb : s1.super.freeBlocks = s.super.freeBlocks := by
    have := (flatfsHtreeRemove_frame s dir name).1
    rw [hrem] at this
    rw [show s1.super = s.super from this]
  have hout := flatfsHtreeRemove_outcome name hW hD
  rw [hrem] at hout
  cases hout with
  | clear _ i hs hstep =>
    have hleaf : callLeaf s1 dir' name' = leafWithout s dir name dir' name' := by
      unfold leafWithout
      rw [hs]
      dsimp only
      split
      · rename_i hdd
        rw [callLeaf, hdd]
        exact hstep.leaf _ (callHash_lt name')
      · rename_i hdd
        exact hstep.leafBytes_other hdd _
    rw [FreeAt, hleaf]
    refine ⟨(hstep.hasRoot_iff dir').2 h.root, h.short, ?_, h.fit, h.free⟩
    rw [hfb]
    refine h.leaf.imp_left fun hv => ?_
    by_cases hdd : dir' = dir
    · subst hdd
      rw [hstep.keep _ hv]
      exact hv
    · rw [hstep.val _ (by simp [hdd])]
      exact hv

/-- **A name that was found is removed**: its entry is clear and the inode it named is in hand. -/
theorem removed_booked {o' : Outs} (hw : pathWalk mac s tails true 9 path o = some (.ok, o'))
    (hlook : ∀ y, flatfsHtreeLookup s o'.parent o'.last = .ok y → y = o'.ino) :
    ∃ e s1, flatfsDirRemove s o'.parent o'.last = some (e, s1) ∧ (e ≠ .ok → s1 = s) ∧
      (e = .ok → flatfsHtreeLookup s o'.parent o'.last = .ok o'.ino ∧
        flatfsHtreeRemove s o'.parent o'.last = (.ok, s1) ∧ s.IsDir o'.parent ∧
        Booked s1 [o'.ino] ∧ ∃ q, s.entry (o'.parent, q) = o'.ino ∧ EntrySet s o'.parent q 0 s1) := by
  have hp := ((pathWalk_spec hB.tree mac tails true 9 path o).found o' hw).2
  obtain ⟨⟨e, s1⟩, hr, herr, hok⟩ := hB.dirRemove hp.1 o'.last
  have hr' : flatfsHtreeRemove s o'.parent o'.last = (e, s1) := by
    unfold flatfsDirRemove at hr
    rw [if_pos hp.1] at hr
    exact Option.some.inj hr
  refine ⟨e, s1, hr, herr, fun he => ?_⟩
  obtain ⟨q, hl, hdir, hB1, hset⟩ := hok he
  have hq := hlook _ hl
  rw [hq] at hl hB1
  exact ⟨hl, he ▸ hr', hdir, hB1, q, hq, hset⟩

theorem unlink_booked (hs : (NameOp.unlink path o).Sound mac tails s) :
    EndsBooked (flatfsUnlink mac tails s path o) := by
  have hT := hB.tree
  obtain ⟨e, o', hw, hlive, -⟩ := pathWalk_cases mac tails hT true path o
  unfold flatfsUnlink
  rw [hw]
  dsimp only
  by_cases hok : e = .ok
  swap
  · rw [if_pos hok]
    exact ends_same hB e
  subst hok
  have hx := hlive rfl
  rw [if_neg (not_not.2 rfl), hT.read _ hx]
  dsimp only
  by_cases hd : sIsDir (s.inode o'.ino).mode = true
  · rw [if_pos hd]
    exact ends_same hB _
  rw [if_neg hd]
  rw [Bool.not_eq_true] at hd
  obtain ⟨e, s1, hr, herr, hgone⟩ := removed_booked hB hw fun y h => (hs o' y hw hd h).1
  rw [hr]
  refine ⟨_, rfl, ?_⟩
  dsimp only
  by_cases he : e = .ok
  swap
  · rw [if_neg he, herr he]
    exact hB
  rw [if_pos he]
  obtain ⟨hl, hrem, hdir, hB1, q, -, hset⟩ := hgone he
  obtain ⟨-, hharm⟩ := hs o' _ hw hd hl
  have hne : o'.ino ≠ o'.parent := fun h => by
    rw [h, (hB.plain _ hdir).1] at hd
    cases hd
  have hal := flatfsHtreeRemove_allocated s o'.parent o'.last
  rw [hrem] at hal
  rw [← hset.other hne] at hd hharm ⊢
  refine hB1.dropLink hd fun h1 h2 => ⟨(hharm h1 h2).size, fun h0 => ?_⟩
  rw [hal]
  exact (hharm h1 h2).block h0

theorem empty_no_entries (hx : s.Live x) (he : flatfsHtreeIsempty s x = true)
    {q : Nat × Nat} (hq : q ∈ positions) : s.entry (x, q) = 0 := by
  by_cases hR : HasRoot s x
  swap
  · exact if_neg hR
  have hcount : s.dirCount x = 0 := by
    unfold flatfsHtreeIsempty at he
    rw [htroot_eq hx.1, if_neg hR.1] at he
    unfold FS.dirCount
    simpa using he
  rw [hB.count x ⟨hx, hR⟩] at hcount
  by_contra h0
  grind [refs_pos, FS.usedEntries]

theorem rmdir_booked (hs : (NameOp.rmdir path o).Sound mac tails s) :
    EndsBooked (flatfsRmdir mac tails s path o) := by
  have hT := hB.tree
  obtain ⟨e, o', hw, hlive, -⟩ := pathWalk_cases mac tails hT true path o
  unfold flatfsRmdir
  rw [hw]
  dsimp only
  by_cases hok : e = .ok
  swap
  · rw [if_pos hok]
    exact ends_same hB e
  subst hok
  have hx := hlive rfl
  rw [if_neg (not_not.2 rfl), hT.read _ hx]
  dsimp only
  by_cases hd : sIsDir (s.inode o'.ino).mode = true
  swap
  · rw [if_pos (by simpa using hd)]
    exact ends_same hB _
  by_cases hempty : flatfsHtreeIsempty s o'.ino = true
  swap
  · rw [if_neg (by simp [hd]), if_pos (by simpa using hempty)]
    exact ends_same hB _
  rw [if_neg (by simp [hd]), if_neg (by simp [hempty])]
  obtain ⟨e, s1, hr, herr, hgone⟩ := removed_booked hB hw fun y h => (hs o' y hw hd hempty h).1
  rw [hr]
  refine ⟨_, rfl, ?_⟩
  dsimp only
  by_cases he : e = .ok
  swap
  · rw [if_neg he, herr he]
    exact hB
  rw [if_pos he]
  obtain ⟨hl, hrem, hdir, hB1, q, hq, hset⟩ := hgone he
  obtain ⟨-, hone, hroot⟩ := hs o' _ hw hd hempty hl
  have hlinks := hset.links hdir.1.1 [] o'.ino
  rw [hq, links_cons_self, links_cons_of_ne (Ne.symm (hT.pos hx)), hone] at hlinks
  refine (hB1.inodeFree (by omega) (by rw [hset.super]; exact hroot) fun p hp => ?_).2
  rw [hset.entry _ (mem_places.mpr ⟨hx.1, hp⟩), update_apply]
  grind [empty_no_entries]

theorem rename_booked {newp : Text} {newOut : Outs}
    (hs : (NameOp.rename path o newp newOut).Sound mac tails s) :
    EndsBooked (flatfsRename mac tails s path o newp newOut) := by
  have hT := hB.tree
  obtain ⟨e, o', hw, hlive, -⟩ := pathWalk_cases mac tails hT true path o
  obtain ⟨en, n, hwn, -, -⟩ := pathWalk_cases mac tails hT true newp newOut
  unfold flatfsRename
  rw [hw]
  dsimp only
  by_cases hok : e = .ok
  swap
  · rw [if_pos hok]
    exact ends_same hB e
  subst hok
  have hx := hlive rfl
  rw [if_neg (not_not.2 rfl), hwn]
  dsimp only
  by_cases hen : en ≠ .ok ∧ en ≠ .notfound
  · rw [if_pos hen]
    exact ends_same hB en
  rw [if_neg hen, hT.read _ hx]
  dsimp only
  have hs' := fun y => hs o' en n y hw hwn (by tauto)
  obtain ⟨e, s1, hr, herr, hgone⟩ := removed_booked hB hw fun y h => (hs' y h).1
  rw [hr]
  by_cases he : e = .ok
  swap
  · cases e with
    | ok => exact absurd rfl he
    | _ => exact ⟨_, rfl, herr he ▸ hB⟩
  subst he
  obtain ⟨hl, hrem, hdir, hB1, -⟩ := hgone rfl
  dsimp only
  obtain ⟨-, hpar, hlen, i, hi⟩ := hs' _ hl
  have hi1 := hi.removed hT.wf (hT.dirSelf hdir.1) hrem
  have htot : s1.super.totalInodes = s.super.totalInodes := by
    rw [← show (flatfsHtreeRemove s o'.parent o'.last).2 = s1 by rw [hrem], (flatfsHtreeRemove_frame s _ _).1]
  obtain ⟨r, hins, hiff, hok, -⟩ := hB1.dirInsert (by rw [htot]; exact hpar) (fun _ _ => hlen)
    (if sIsDir (s.inode o'.ino).mode then dtDir else if sIsLnk (s.inode o'.ino).mode then dtLnk
      else dtReg)
  exact ⟨r, hins, hok (hiff.2 ⟨i, hi1⟩)⟩

theorem nameCall_booked {op : NameOp} (hs : op.Sound mac tails s) :
    (nameCall mac tails s op).1 ≠ none ∧ Booked (nameCall mac tails s op).2 [] := by
  have hends : EndsBooked (op.call mac tails s) := by
    cases op with
    | openFile path o flags ts => exact open_booked hB hs
    | mkdir path o mode => exact mkdir_booked hB hs
    | symlink path o target => exact symlink_booked hB hs
    | link path o old oldOut => exact link_booked hB hs
    | unlink path o => exact unlink_booked hB hs
    | rmdir path o => exact rmdir_booked hB hs
    | rename path o newp newOut => exact rename_booked hB hs
  obtain ⟨⟨e, s'⟩, hc, hB'⟩ := hends
  grind [nameCall]

end Each

/-! ## 4. Whole runs -/

/-- **The law of the links**: an inode that is no directory counts its entries, and an inode other
    than the root is in use exactly while an entry names it. -/
structure LinkLaw (s : FS) : Prop where
  nlink : ∀ x, s.Live x → sIsDir (s.inode x).mode = false → (s.inode x).nlink = s.links [] x
  freed : ∀ x, x ≠ 0 → x ≠ s.super.rootIno → (s.Live x ↔ 0 < s.links [] x)

/-- **The law of the inode table**: the superblock counts the free slots, and an entry names every
    inode in use but the root. -/
structure InodeLaw (s : FS) : Prop where
  free : s.super.freeInodes = s.freeSlots
  held : ∀ x, s.Live x → x ≠ s.super.rootIno → 0 < s.links [] x

section Runs

variable {s : FS} {x : Nat}

theorem Booked.linkLaw (hB : Booked s []) : LinkLaw s := by
  refine ⟨hB.nlink, fun y h0 hr => ⟨fun hy => hB.held y hy hr, fun h => ?_⟩⟩
  obtain ⟨⟨d, q⟩, hp, he⟩ := exists_of_refs_pos h
  obtain ⟨hd, hq⟩ := mem_places.1 hp
  grind [hB.tree.entry_live]

theorem Booked.inodeLaw (hB : Booked s []) : InodeLaw s := ⟨hB.free, hB.held⟩

theorem Booked.not_linkLaw (hB : Booked s [x]) (hm : sIsDir (s.inode x).mode = false) : ¬ LinkLaw s := by
  intro h
  have hx := hB.hand x (List.mem_cons_self ..)
  have h1 := hB.nlink x hx hm
  rw [links_cons_self, h.nlink x hx hm] at h1
  omega

theorem Booked.not_inodeLaw (hB : Booked s [x]) (hm : sIsDir (s.inode x).mode = false)
    (hone : (s.inode x).nlink = 1) : ¬ InodeLaw s := by
  intro h
  have hx := hB.hand x (List.mem_cons_self ..)
  have h1 := hB.nlink x hx hm
  have h2 := h.held x hx fun e => by
    rw [e, hB.rootDir] at hm
    cases hm
  rw [links_cons_self, hone] at h1
  omega

end Runs

/-- **Link counts.** From a file system whose books are right, in every run of creating, linking,
    removing and renaming calls that all meet their condition, every call returns and the law of the
    links holds in every state. -/
theorem link_counts_hold (mac : Mac) (tails : Nat → Text) (s0 : FS)
    (hB : Booked s0 []) (h : Log NameOp (Option FlatfsErr)) (s : FS)
    (hr : Reach (fun s op => op.Sound mac tails s) (nameCall mac tails) s0 h s) :
    LinkLaw s ∧ ∀ q ∈ h, q.2 ≠ none := by
  have inv : Booked s [] ∧ ∀ q ∈ h, q.2 ≠ none := by
    refine hr.inv (I := fun h s => Booked s [] ∧ ∀ q ∈ h, q.2 ≠ none) ⟨hB, by simp⟩ ?_
    intro h s op hI hs
    obtain ⟨h1, h2⟩ := nameCall_booked hI.1 hs
    refine ⟨h2, fun q hq => ?_⟩
    rcases List.mem_cons.1 hq with rfl | hq
    · exact h1
    · exact hI.2 q hq
  exact ⟨inv.1.linkLaw, inv.2⟩

/-- **Inode accounting.** In the same runs the count of free inodes is that of the free slots, and
    every inode in use but the root has a name. -/
theorem inode_accounts_hold (mac : Mac) (tails : Nat → Text) (s0 : FS)
    (hB : Booked s0 []) (h : Log NameOp (Option FlatfsErr)) (s : FS)
    (hr : Reach (fun s op => op.Sound mac tails s) (nameCall mac tails) s0 h s) : InodeLaw s :=
  (hr.invState (I := fun s => Booked s []) hB fun _ _ hI hs => (nameCall_booked hI hs).2).inodeLaw

/-- **The tree.** In the same runs no block gets two owners and no entry names a free inode. -/
theorem nameCalls_tree (hB : Booked s0 [])
    (hr : Reach (fun s op => op.Sound mac tails s) (nameCall mac tails) s0 h s) : TreeOk s :=
  (hr.invState (I := fun s => Booked s []) hB fun _ _ hI hs => (nameCall_booked hI hs).2).tree

/-! ## 5. The first file -/

theorem TreeOk.tookInode (hT : TreeOk s) (x : Nat) : TreeOk (s.tookInode x) :=
  ⟨⟨hT.wf.inv.congr rfl rfl rfl rfl rfl, hT.wf.dataPos, ⟨hT.wf.own.alloc, hT.wf.own.inj⟩⟩, hT.total, hT.root, hT.read, hT.self,
    hT.free, hT.entry, hT.link⟩

/-- A file system whose only inode is the root, an empty directory. -/
def bookedDir : FS := newDir.tookInode 1

theorem newDir_entry (p : Nat × Nat × Nat) : newDir.entry p = 0 := by
  by_cases hR : HasRoot newDir p.1
  swap
  · exact if_neg hR
  have h1 : p.1 = 1 := by
    by_contra hne
    refine hR.1 ?_
    show htreeBlk newDir p.1 = 0
    unfold htreeBlk
    split
    · rw [newDir_inode_of_ne hne]
    · rfl
  unfold FS.entry
  rw [if_pos hR, h1, newDir_ok.2.2]
  exact leAt_zeroBytes _ _

theorem usedEntries_empty (h : ∀ p, s.entry p = 0) (x : Nat) : s.usedEntries x = 0 := by
  by_contra h0
  obtain ⟨q, -, hq⟩ := exists_of_refs_pos (Nat.pos_of_ne_zero h0)
  exact of_decide_eq_true hq (h _)

theorem booked_empty (hT : TreeOk s) (hlive : ∀ x, s.Live x → x = s.super.rootIno)
    (hent : ∀ p, s.entry p = 0) (hmode : sIsDir (s.inode s.super.rootIno).mode = true)
    (hflags : (s.inode s.super.rootIno).flags &&& flSymlinkInln = 0) (hsmall : (s.inode s.super.rootIno).nlink < 65536)
    (hcount : s.dirCount s.super.rootIno = 0) (hfree : s.super.freeInodes = s.freeSlots) : Booked s [] := by
  refine ⟨hT, hmode, fun x hx => ?_, fun x hx hm => ?_, fun x hx => ?_, fun x hx hr => ?_, by simp,
    fun x hx => ?_, hfree⟩
  · rw [hlive x hx.1]
    exact ⟨hmode, hflags⟩
  · rw [hlive x hx, hmode] at hm
    cases hm
  · rw [hlive x hx]
    exact hsmall
  · exact absurd (hlive x hx) hr
  · rw [hlive x hx.1, hcount, usedEntries_empty hent]

theorem booked_bookedDir : Booked bookedDir [] := by
  have hu := SameInode.stored (bareDir.withRoot 1034)
  have hin : bookedDir.inode bookedDir.super.rootIno = (bareDir.withRoot 1034).stored := newDir_inode_one
  refine booked_empty (treeOk_newDir.tookInode 1) (fun x hx => newDir_live.1 hx) newDir_entry ?_ ?_ ?_ ?_ ?_
  · rw [hin, hu.mode]
    decide
  · rw [hin, hu.flags]
    decide
  · rw [hin, hu.nlink]
    decide
  · show rtCount (newDir.blk (newDir.val (.hroot 1))) = 0
    decide
  · show newDir.super.freeInodes - 1 = newDir.freeSlots
    decide +kernel

/-- `open("/al", O_CREAT)` when `parent` happens to hold the number of the root. -/
def makeAl : NameOp := .openFile (slash :: nameAl) ⟨0, 1, []⟩ oCreat 0

theorem makeAl_sound : makeAl.Sound none (fun _ => []) bookedDir := by
  have hw : (pathWalk none bookedDir (fun _ => []) true 9 (slash :: nameAl) ⟨0, 1, []⟩).map (fun r => r.2.last) =
      some nameAl := by decide +kernel
  refine ⟨fun _ last n h => ⟨by decide, fun _ _ => ?_⟩, fun _ _ ht => absurd rfl ht⟩
  obtain ⟨⟨o', ho, rfl⟩, -⟩ := h
  rw [ho] at hw
  obtain hlast : o'.last = nameAl := Option.some.inj hw
  rw [hlast]
  decide

/-- The file `/al` is made. -/
def madeAl : FS := (nameCall none (fun _ => []) bookedDir makeAl).2

set_option maxRecDepth 100000 in
theorem makeAl_ok : (nameCall none (fun _ => []) bookedDir makeAl).1 = some .ok := by decide +kernel

theorem makeAl_run {P : FS → NameOp → Prop} (h : P bookedDir makeAl) :
    Reach P (nameCall none fun _ => []) bookedDir [(makeAl, some .ok)] madeAl := by
  rw [madeAl]
  exact Reach.start.eval h makeAl_ok

/-- `link("/al", "/bb")` when `parent` happens to hold the number of the root, or 0. -/
def linkAlBb (parent : Nat) : NameOp := .link (slash :: nameBb) ⟨0, parent, []⟩ (slash :: nameAl) ⟨0, 0, []⟩

/-- What is asked of a state in which `/al` is the inode 2 and `/bb` is missing. -/
abbrev HasAl (s : FS) : Prop :=
  (pathWalk none s (fun _ => []) true 9 (slash :: nameBb) ⟨0, 1, []⟩ =
      some (.notfound, ⟨0, 1, nameBb⟩) ∧
    pathWalk none s (fun _ => []) true 9 (slash :: nameBb) ⟨0, 0, []⟩ = some (.notfound, ⟨0, 0, nameBb⟩) ∧
    pathWalk none s (fun _ => []) false 9 (slash :: nameAl) ⟨0, 0, []⟩ = some (.ok, ⟨2, 1, []⟩) ∧
    pathWalk none s (fun _ => []) true 9 (slash :: nameAl) ⟨0, 0, []⟩ = some (.ok, ⟨2, 1, nameAl⟩) ∧
    flatfsHtreeLookup s 1 nameAl = .ok 2) ∧
    (sIsDir (s.inode 2).mode = false ∧ (s.inode 2).nlink < 65535 ∧ (s.inode 2).size = 0) ∧
    (1 < s.super.totalInodes ∧ s.val (.hroot 1) ≠ 0 ∧
      rtMagic (s.blk (s.val (.hroot 1))) = htreeMagic ∧ 0 < s.super.freeBlocks) ∧
    (fitIn nameBb (callLeaf s 1 nameBb) = some 1 ∧ deIno (callLeaf s 1 nameBb) 1 = 0 ∧
      fitIn nameBb (leafWithout s 1 nameAl 1 nameBb) = some 0 ∧
      deIno (leafWithout s 1 nameAl 1 nameBb) 0 = 0) ∧
    (nameCall none (fun _ => []) s (linkAlBb 1)).1 = some .ok ∧
    (nameCall none (fun _ => []) s (linkAlBb 0)).1 = some .corrupt

-- one evaluation for all of it: the state is computed anew by every one
set_option maxRecDepth 100000 in
theorem madeAl_hasAl : HasAl madeAl := by decide +kernel

theorem linkAlBb_sound (h : HasAl s) : (linkAlBb 1).Sound none (fun _ => []) s := by
  obtain ⟨⟨hw, -, hold, -⟩, ⟨-, hsmall, -⟩, ⟨ht, h1, h2, h3⟩, ⟨h4, h5, -⟩, -⟩ := h
  rintro last n ⟨⟨o', ho, rfl⟩, -, rfl⟩
  cases hw.symm.trans ho
  refine ⟨⟨⟨ht, fun _ _ => by decide⟩, 1, ⟨h1, h2⟩, by decide, .inr h3, h4, h5⟩, fun oo hoo => ?_⟩
  cases hold.symm.trans hoo
  exact hsmall

def unlinkAl : NameOp := .unlink (slash :: nameAl) ⟨0, 0, []⟩

theorem unlinkAl_sound (h : HasAl s) : unlinkAl.Sound none (fun _ => []) s := by
  obtain ⟨⟨-, -, -, hw, hl⟩, ⟨-, -, hz⟩, -⟩ := h
  intro o' y ho _ hy
  cases hw.symm.trans ho
  exact ⟨Except.ok.inj (hy.symm.trans hl), fun _ _ => ⟨hz ▸ Nat.zero_le _, fun h => absurd hz h⟩⟩

/-- `rename("/al", "/bb")` when the new `parent` happens to hold the number of the root. -/
def renameAl : NameOp := .rename (slash :: nameAl) ⟨0, 0, []⟩ (slash :: nameBb) ⟨0, 1, []⟩

theorem renameAl_sound (h : HasAl s) : renameAl.Sound none (fun _ => []) s := by
  obtain ⟨⟨hb, -, -, hw, hl⟩, -, ⟨ht, h1, h2, h3⟩, ⟨-, -, h4, h5⟩, -⟩ := h
  intro o' e n y ho hn _ hy
  cases hw.symm.trans ho
  cases hb.symm.trans hn
  exact ⟨Except.ok.inj (hy.symm.trans hl), ht, by decide, 0, ⟨h1, h2⟩, by decide, .inr h3, h4, h5⟩

/-- A file is made and linked. -/
theorem link_counts_hold_al : Booked bookedDir [] ∧ ∃ s, Reach (fun s op => NameOp.Sound none (fun _ => []) s op)
    (nameCall none fun _ => []) bookedDir [(linkAlBb 1, some .ok), (makeAl, some .ok)] s ∧ LinkLaw s := by
  have hr := (makeAl_run makeAl_sound).eval (linkAlBb_sound madeAl_hasAl) madeAl_hasAl.2.2.2.2.1
  exact ⟨booked_bookedDir, _, hr, (link_counts_hold none _ _ booked_bookedDir _ _ hr).1⟩

/-- A file is made and removed. -/
theorem inode_accounts_hold_al : Booked bookedDir [] ∧ ∃ a s, Reach (fun s op => NameOp.Sound none (fun _ => []) s op)
    (nameCall none fun _ => []) bookedDir [(unlinkAl, a), (makeAl, some .ok)] s ∧ InodeLaw s := by
  have hr := Reach.step _ _ unlinkAl (makeAl_run makeAl_sound) (unlinkAl_sound madeAl_hasAl)
  exact ⟨booked_bookedDir, _, _, hr, inode_accounts_hold none _ _ booked_bookedDir _ _ hr⟩

/-- A file is made and renamed. -/
theorem nameCalls_tree_al : TreeOk (nameCall none (fun _ => []) madeAl renameAl).2 :=
  nameCalls_tree booked_bookedDir (.step _ _ renameAl (makeAl_run makeAl_sound) (renameAl_sound madeAl_hasAl))

/-! ## 6. References that stay in hand -/

theorem linkAlBb_lost (h : HasAl s) (hB : Booked s []) : ¬ LinkLaw (nameCall none (fun _ => []) s (linkAlBb 0)).2 := by
  obtain ⟨⟨-, hw, hold, -⟩, ⟨hm, hsmall, -⟩, ⟨ht, -⟩, -, -, ha⟩ := h
  have hins : Create.Inserts none (fun _ => []) s (slash :: nameBb) ⟨0, 0, []⟩ (.link (slash :: nameAl) ⟨0, 0, []⟩)
      nameBb 0 := ⟨⟨_, hw, rfl⟩, ⟨_, hold, hm⟩, rfl⟩
  obtain ⟨ino, hB', hd, -⟩ := Create.lost hB hins ⟨Nat.zero_lt_of_lt ht, fun _ _ => by decide⟩ (fun _ _ oo hc hoo => by
    cases hc
    cases hold.symm.trans hoo
    exact hsmall) (fun _ _ => rfl) (call_of_nameCall ha) (by decide)
  exact hB'.not_linkLaw hd

/-- **A link without an entry**: `/al` is made and linked to `/bb`; the insertion fails, and the
    count of `/al` stays at 2. -/
theorem link_counts_lost : Booked bookedDir [] ∧ ∃ s, Reach anyInput (nameCall none fun _ => [])
    bookedDir [(linkAlBb 0, some .corrupt), (makeAl, some .ok)] s ∧ ¬ LinkLaw s := by
  have hB : Booked madeAl [] := by
    rw [madeAl]
    exact (nameCall_booked booked_bookedDir makeAl_sound).2
  exact ⟨booked_bookedDir, _, (makeAl_run (P := anyInput) trivial).eval trivial madeAl_hasAl.2.2.2.2.2,
    linkAlBb_lost madeAl_hasAl hB⟩

/-- `symlink("x", "/al")` when `parent` happens to hold 0. -/
def symlinkAl : NameOp := .symlink (slash :: nameAl) ⟨0, 0, []⟩ [120]

set_option maxRecDepth 100000 in
theorem symlinkAl_corrupt : (nameCall none (fun _ => []) bookedDir symlinkAl).1 = some .corrupt ∧
    pathWalk none bookedDir (fun _ => []) true 9 (slash :: nameAl) ⟨0, 0, []⟩ = some (.notfound, ⟨0, 0, nameAl⟩) := by
  decide +kernel

/-- **An inode without a name**: a symbolic link is made, the insertion fails, and its inode stays
    in use. -/
theorem inode_accounts_lost : Booked bookedDir [] ∧ ∃ s, Reach anyInput (nameCall none fun _ => [])
    bookedDir [(symlinkAl, some .corrupt)] s ∧ ¬ InodeLaw s := by
  obtain ⟨ha, hw⟩ := symlinkAl_corrupt
  have hfree : bookedDir.FreeInode := ⟨by decide, 0, by decide, by decide +kernel⟩
  obtain ⟨ino, hB', hd, hone⟩ := Create.lost (c := .symlink [120]) booked_bookedDir
    ⟨⟨_, hw, rfl⟩, hfree, rfl, by decide⟩ ⟨by decide, fun _ _ => by decide⟩ nofun (fun _ _ => rfl)
    (call_of_nameCall ha) (by decide)
  exact ⟨booked_bookedDir, _, Reach.start.eval trivial ha, hB'.not_inodeLaw hd (hone nofun)⟩

end Kobalt.Flatfs

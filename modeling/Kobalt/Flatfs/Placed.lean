/-
  Subject: WHERE A NEW NAME GOES. What it means that a creating call put its entry in the right
  directory, and the exact condition under which it does.

  The entry goes to the directory whose number the uninitialised `parent` happens to hold; when a
  component before the last is missing, the calls go on to create all the same, and the name is
  what the uninitialised `last` happens to hold.
-/
import Kobalt.Flatfs.Create

namespace Kobalt.Flatfs

open Function List

/-! ## 1. The entry in its place -/

/-- Entry `i` of leaf `b` of directory `x` is new. -/
structure NewEntry (s s' : FS) (x b i : Nat) : Prop where
  dir : s.IsDir x
  bucket : b < 256
  slot : i < 32
  free : deIno (leafBytes s x b) i = 0
  used : deIno (leafBytes s' x b) i ≠ 0

section Placed

variable (mac : Mac) (tails : Nat → Text) (s : FS)

/-- **A call on `P/name` did what it should**: a new entry is called `name`, lies in the directory
    `P` resolves to, and no other directory changed; if a component of `P` does not exist, the call
    failed with NOTFOUND and changed no directory. -/
structure Placed (P name : Text) (r : Done) : Prop where
  entry : r.1 = .ok → ∀ x b i, NewEntry s r.2 x b i →
    Resolves mac s s.super.rootIno (comps P) x ∧ deName (leafBytes r.2 x b) i = name ∧
      ∀ y, s.IsDir y → y ≠ x → ∀ b < 256, leafBytes r.2 y b = leafBytes s y b
  missing : Missing mac s s.super.rootIno (comps P) → r.1 = .notfound ∧
    ∀ y, s.IsDir y → ∀ b < 256, leafBytes r.2 y b = leafBytes s y b

/-- **The condition**, on the state and the locals before the call. Every component of `P` exists, or it is
    `flatfs_link` and the old path does not. If the call comes to insert, what the uninitialised `parent` held
    is the number of an inode; if that has an entry for the name, it is the directory `P` resolves to, and
    `last` is `name`, which fits its field. -/
structure RightPlace (c : Create) (path P name : Text) (o : Outs) : Prop where
  missing : Missing mac s s.super.rootIno (comps P) → c.OldMissing mac tails s
  insert : ∀ last n, c.Inserts mac tails s path o last n → o.parent < s.super.totalInodes ∧
    ∀ i, FreeAt s o.parent last n i →
      Resolves mac s s.super.rootIno (comps P) o.parent ∧ cstr last = name ∧ name.length ≤ 108

/-- **A name longer than its field** gets an entry. -/
def LongName (c : Create) (path : Text) (o : Outs) : Prop :=
  ∃ last n i, c.Inserts mac tails s path o last n ∧ FreeAt s o.parent last n i ∧
    108 < (cstr last).length

end Placed

section Right

variable {mac : Mac} {tails : Nat → Text} {s s1 : FS}
  {P name : Text}

/-- A call that failed, but not with NOTFOUND, is right exactly if nothing is missing. -/
theorem placed_error_iff {e : FlatfsErr} (h : e ≠ .ok) (h' : e ≠ .notfound) (s' : FS) :
    Placed mac s P name (e, s') ↔ ¬ Missing mac s s.super.rootIno (comps P) :=
  ⟨fun hp hm => h' (hp.missing hm).1, fun hm => ⟨fun he => absurd he h, fun hm' => absurd hm' hm⟩⟩

theorem Inserted.ne_notfound {dir ino ftype : Nat} {last : Text} {r : Done}
    (h : Inserted s dir last ino ftype r) : r.1 ≠ .notfound := by
  cases h <;> simp

theorem Prepared.callLeaf (hp : Prepared s s1) (dir : Nat) (last : Text) :
    callLeaf s1 dir last = callLeaf s dir last := hp.kept.leafBytes _ _

/-- **The entry is there before the call exactly if it is there when the call inserts.** -/
theorem Prepared.freeEntry {n : Nat} (hp : Prepared s s1) (hn : s1.super.freeBlocks + n = s.super.freeBlocks)
    {dir i : Nat} {last : Text} : FreeEntry s1 dir last 0 (Flatfs.callLeaf s1 dir last) i ↔
      FreeEntry s dir last n (Flatfs.callLeaf s dir last) i := by
  rw [hp.callLeaf]
  constructor
  · intro h
    refine ⟨(hp.kept.hasRoot _).1 h.root, h.short, ?_, h.fit, h.free⟩
    rw [← hp.kept.hleaf]
    exact h.leaf.imp_right fun h => by omega
  · intro h
    refine ⟨(hp.kept.hasRoot _).2 h.root, h.short, ?_, h.fit, h.free⟩
    rw [hp.kept.hleaf]
    exact h.leaf.imp_right fun h => by omega

/-- **An insertion that succeeded**, of a name that fits its field, is right exactly if it went to the right
    directory with the right name, and nothing was missing. -/
theorem placed_put_iff (hp : Prepared s s1) {dir i ino ftype : Nat}
    {last : Text} {s' : FS} (hdir : s.IsDir dir) (h0 : ino ≠ 0) (hlt : ino < 256 ^ 8)
    (hlen : (cstr last).length ≤ 108) (hi : i < 32) (hfree : deIno (Flatfs.callLeaf s dir last) i = 0)
    (hstep : DirStep s1 dir (update (leafBytes s1 dir) (callHash last / 16777216)
      (putDirent (Flatfs.callLeaf s dir last) i ino (callHash last) (cstr last).length ftype last)) n s') :
    Placed mac s P name (.ok, s') ↔ ¬ Missing mac s s.super.rootIno (comps P) ∧
      Resolves mac s s.super.rootIno (comps P) dir ∧ cstr last = name := by
  have hb := callHash_lt last
  have hnew : leafBytes s' dir (callHash last / 16777216) =
      putDirent (Flatfs.callLeaf s dir last) i ino (callHash last) (cstr last).length ftype last := by
    rw [hstep.leaf _ hb, update_self]
  have hother : ∀ x b, x ≠ dir → leafBytes s' x b = leafBytes s x b := fun x b hx => by
    rw [hstep.leafBytes_other hx, hp.kept.leafBytes]
  have hname : deName (leafBytes s' dir (callHash last / 16777216)) i = cstr last := by
    rw [hnew]
    exact deName_putDirent_cstr hlen
  constructor
  · intro h
    have hentry : NewEntry s s' dir (callHash last / 16777216) i :=
      ⟨hdir, hb, hi, hfree, by rw [hnew, deIno_putDirent hlt]; exact h0⟩
    obtain ⟨h1, h2, -⟩ := h.entry rfl dir _ i hentry
    exact ⟨fun hm => absurd (h.missing hm).1 (by simp), h1, hname ▸ h2⟩
  · rintro ⟨hm, hres, rfl⟩
    refine ⟨fun _ x b j hne => ?_, fun h => absurd h hm⟩
    -- the new entry is the one that was put
    obtain rfl : x = dir := by
      by_contra hx
      exact hne.used (hother x b hx ▸ hne.free)
    obtain rfl : b = callHash last / 16777216 := by
      by_contra hbb
      have := hne.used
      rw [hstep.leaf _ hne.bucket, update_of_ne hbb, hp.kept.leafBytes] at this
      exact this hne.free
    obtain rfl : j = i := by
      by_contra hj
      have := hne.used
      rw [hnew, (deEntry_congr fun x h1 h2 => putDirent_outside (by omega) (by omega)).1] at this
      exact this hne.free
    exact ⟨hres, hname, fun y _ hy b _ => hother y b hy⟩

/-- **The call at its insertion**: it is right if the condition holds there, and only then, long names aside. -/
theorem insert_placed_iff (hT : TreeOk s) (hp : Prepared s s1) {n ino ftype : Nat} {last : Text} {o : Outs}
    {finish : Done → Done} (hn : s1.super.freeBlocks + n = s.super.freeBlocks) (h0 : ino ≠ 0)
    (hlt : ino < s.super.totalInodes) (herr : ∀ e s2, e ≠ .ok → (finish (e, s2)).1 = e)
    (hfin : ∀ dir L n s2, HasRoot s1 dir → DirStep s1 dir L n s2 → finish (.ok, s2) = (.ok, s2))
    (hlen : ∀ i, FreeAt s o.parent last n i → (cstr last).length ≤ 108) :
    (∃ r, (flatfsDirInsert s1 o.parent last ino ftype).map finish = some r ∧ Placed mac s P name r) ↔
      ¬ Missing mac s s.super.rootIno (comps P) ∧ o.parent < s.super.totalInodes ∧
        ∀ i, FreeAt s o.parent last n i →
          Resolves mac s s.super.rootIno (comps P) o.parent ∧ cstr last = name := by
  unfold flatfsDirInsert
  rw [hp.total]
  by_cases hpar : o.parent < s.super.totalInodes
  swap
  · rw [if_neg hpar]
    exact ⟨fun ⟨_, h, _⟩ => (by cases h), fun h => absurd h.2.1 hpar⟩
  rw [if_pos hpar]
  -- a failed insertion, and no free entry
  have hfail : ∀ e s', e ≠ .ok → e ≠ .notfound →
      (∀ i, ¬ FreeEntry s o.parent last n (Flatfs.callLeaf s o.parent last) i) →
      ((∃ r, (some (e, s')).map finish = some r ∧ Placed mac s P name r) ↔
        ¬ Missing mac s s.super.rootIno (comps P) ∧ o.parent < s.super.totalInodes ∧
        ∀ i, FreeEntry s o.parent last n (Flatfs.callLeaf s o.parent last) i →
          Resolves mac s s.super.rootIno (comps P) o.parent ∧ cstr last = name) := by
    intro e s' he he' hno
    have hcall : (∃ r, (some (e, s')).map finish = some r ∧ Placed mac s P name r) ↔
        Placed mac s P name ((finish (e, s')).1, (finish (e, s')).2) := by simp
    rw [hcall, herr e s' he, placed_error_iff he he']
    exact ⟨fun h => ⟨h, hpar, fun i hi => absurd hi (hno i)⟩, fun h => h.1⟩
  by_cases hR : HasRoot s1 o.parent
  swap
  · rw [flatfsHtreeInsert_corrupt (by rw [hp.total]; exact hpar) hR]
    exact hfail _ _ (by simp) (by simp) fun i h => hR ((hp.kept.hasRoot _).2 h.root)
  have hdir := hT.isDir hpar ((hp.kept.hasRoot _).1 hR)
  have hD : DirSelf s1 o.parent := ⟨by rw [hp.total]; exact hpar, hT.pos hdir.1, hp.self _ hdir.1⟩
  rcases flatfsHtreeInsert_cases last hp.wf hD ino ftype with ⟨r, hins, hI, hok, -⟩ | ⟨-, i, hi, hout⟩
  swap
  · have h1 := hlen i ((hp.freeEntry hn).1 hi)
    have h2 := fitIn_lt hi.fit
    have h3 := fstrlen_of_short h1
    omega
  rw [hins]
  obtain ⟨e, s'⟩ := r
  by_cases he : e = .ok
  swap
  · exact hfail e s' he hI.ne_notfound fun i hi => he (hok.2 ⟨i, (hp.freeEntry hn).2 hi⟩)
  subst he
  obtain ⟨i, hi⟩ := hok.1 rfl
  have hi' := (hp.freeEntry hn).1 hi
  have hshort := hlen i hi'
  cases hI with
  | put _ j hs hj hstep =>
    obtain rfl : j = i := Option.some.inj (hs.symm.trans hi.fit)
    rw [hp.callLeaf, fstrlen_of_short hshort] at hstep
    have hcall : (∃ r, (some (FlatfsErr.ok, s')).map finish = some r ∧ Placed mac s P name r) ↔
        Placed mac s P name (finish (.ok, s')) := by simp
    rw [hcall, hfin _ _ _ _ hR hstep, placed_put_iff hp hdir h0 (hlt.trans hT.total) hshort (fitIn_lt hi.fit) hi'.free hstep]
    exact ⟨fun ⟨h1, h2⟩ => ⟨h1, hpar, fun _ _ => h2⟩, fun ⟨h1, _, h2⟩ => ⟨h1, h2 j hi'⟩⟩

theorem Create.Inserts.unique {c : Create} {path : Text} {o : Outs} {last last' : Text} {n n' : Nat}
    (h : c.Inserts mac tails s path o last n) (h' : c.Inserts mac tails s path o last' n') : last' = last ∧ n' = n := by
  obtain ⟨⟨o1, hw, rfl⟩, hc⟩ := h
  obtain ⟨⟨o2, hw', rfl⟩, hc'⟩ := h'
  obtain rfl : o1 = o2 := (Prod.mk.inj (Option.some.inj (hw.symm.trans hw'))).2
  refine ⟨rfl, ?_⟩
  cases c with
  | openCreat flags ts => exact hc'.2.trans hc.2.symm
  | mkdir mode => exact hc.elim
  | symlink target => exact hc'.2.1.trans hc.2.1.symm
  | link old oldOut => exact hc'.2.trans hc.2.symm

theorem call_placed_iff (hT : TreeOk s) (c : Create) (path : Text) (o : Outs)
    (hshort : ¬ LongName mac tails s c path o) :
    (∃ r, c.call mac tails s path o = some r ∧ Placed mac s P name r) ↔
      RightPlace mac tails s c path P name o := by
  have hspec := c.begun_spec mac tails hT path o
  rw [c.call_eq]
  generalize c.begun mac tails s path o = b at hspec
  cases hspec with
  | ended e s' hleaf hnf hsame hno _ =>
    have hrun : (some (Begun.ended e s')).bind Begun.run = some (e, s') := rfl
    rw [hrun]
    constructor
    · rintro ⟨r, hr, hp⟩
      obtain rfl := Option.some.inj hr
      exact ⟨fun hm => hnf.1 (hp.missing hm).1, fun last n h => absurd h (hno last n)⟩
    · intro h
      refine ⟨_, rfl, fun he x b i hn => absurd hn.free ?_, fun hm => ?_⟩
      · rw [← hleaf he]
        exact hn.used
      have he := hnf.2 (h.missing hm)
      exact ⟨he, fun y _ b _ => by rw [hsame he]⟩
  | insert s1 o' ino ftype n finish hins hn hst hold herr hfin =>
    have hp := hst.prepared hT
    obtain ⟨h0, hlt⟩ := hst.ino hT
    have hlen : ∀ i, FreeAt s o.parent o'.last n i → (cstr o'.last).length ≤ 108 :=
      fun i hi => Nat.not_lt.1 fun h => hshort ⟨_, n, i, hins, hi, h⟩
    rw [Begun.run_insert, insert_placed_iff hT hp hn h0 hlt (fun e s2 he => congrArg Prod.fst (herr e s2 he))
      (fun dir L n s2 hR hstep => hfin s2 (fun h => hstep.other _ fun e => h (e ▸ hR))
        (by rw [hstep.super, hp.total]; exact hlt)) hlen]
    constructor
    · rintro ⟨hm, hpar, h⟩
      refine ⟨fun hm' => absurd hm' hm, fun last n' h' => ?_⟩
      obtain ⟨rfl, rfl⟩ := hins.unique h'
      exact ⟨hpar, fun i hi => ⟨(h i hi).1, (h i hi).2, (h i hi).2 ▸ hlen i hi⟩⟩
    · intro h
      obtain ⟨hpar, hfit⟩ := h.insert _ _ hins
      exact ⟨fun hm => hold (h.missing hm), hpar, fun i hi => ⟨(hfit i hi).1, (hfit i hi).2.1⟩⟩

end Right

/-- **Where a new name goes.** In every consistent tree, for every value the locals of a creating
    call on `P/name` may hold before `path_walk`, the call is right under `RightPlace`, and only then
    unless it writes a name that is longer than its field. -/
theorem create_placed_iff (mac : Mac) (tails : Nat → Text) (s : FS)
    (hT : TreeOk s) (c : Create) (P name : Text) (o : Outs) :
    (RightPlace mac tails s c (P ++ slash :: name) P name o →
      ∃ r, c.call mac tails s (P ++ slash :: name) o = some r ∧ Placed mac s P name r) ∧
    ((∃ r, c.call mac tails s (P ++ slash :: name) o = some r ∧ Placed mac s P name r) →
      RightPlace mac tails s c (P ++ slash :: name) P name o ∨ LongName mac tails s c (P ++ slash :: name) o) := by
  refine ⟨fun h => (call_placed_iff hT c _ o ?_).2 h, fun h => ?_⟩
  · rintro ⟨last, n, i, hins, hi, hlong⟩
    obtain ⟨-, rfl, hlen⟩ := (h.insert last n hins).2 i hi
    omega
  · by_cases hlong : LongName mac tails s c (P ++ slash :: name) o
    · exact .inr hlong
    · exact .inl ((call_placed_iff hT c _ o hlong).1 h)

/-! ## 2. Two calls -/

theorem newDir_inode_one : newDir.inode 1 = (bareDir.withRoot 1034).stored := by
  unfold newDir
  rw [flatfsHtreeInit_eq 1034 dirSelf_beforeInit, show beforeInit.inode 1 = bareDir from rfl]
  show update beforeInit.inode 1 (bareDir.withRoot 1034).stored 1 = _
  rw [update_self]

theorem newDir_inode_of_ne {x : Nat} (h : x ≠ 1) : newDir.inode x = {} := by
  unfold newDir
  rw [flatfsHtreeInit_eq 1034 dirSelf_beforeInit]
  show update beforeInit.inode 1 _ x = {}
  rw [update_of_ne h]
  show update (fun _ => ({} : Inode)) 1 bareDir x = {}
  rw [update_of_ne h]

theorem newDir_live {x : Nat} : newDir.Live x ↔ x = 1 := by
  constructor
  · intro h
    by_contra hx
    exact h.2 (by rw [newDir_inode_of_ne hx])
  · rintro rfl
    refine ⟨by decide, ?_⟩
    rw [newDir_inode_one, (Inode.stored_upToCrc _).magic]
    decide

theorem treeOk_newDir : TreeOk newDir := by
  obtain ⟨-, hok, hz⟩ := newDir_ok
  have hu := (bareDir.withRoot 1034).stored_upToCrc
  refine ⟨hok.wf, by decide, newDir_live.2 rfl, fun x hx => ?_, fun x hx => ?_, fun x _ h0 => ?_,
    fun x hx b _ i _ h => ?_, fun x hx hf => ?_⟩
  · obtain rfl := newDir_live.1 hx
    rw [flatfsInodeRead_stored newDir_inode_one (by decide) hx.1 rfl, newDir_inode_one]
  · obtain rfl := newDir_live.1 hx
    rw [newDir_inode_one, hu.ino]
    rfl
  · rw [newDir_inode_of_ne fun e => (newDir_live.2 e).2 h0]
    exact ⟨rfl, rfl⟩
  · obtain rfl := newDir_live.1 hx.1
    rw [hz] at h
    exact absurd (leAt_zeroBytes _ _) h
  · obtain rfl := newDir_live.1 hx
    rw [newDir_inode_one, hu.size]
    decide

theorem newDir_lookup {name : Text} (hN : NameOk name) :
    flatfsHtreeLookup newDir 1 name = .error .notfound := by
  obtain ⟨-, hok, hz⟩ := newDir_ok
  rw [flatfsHtreeLookup_eq_dirFind hok hN, dirFind_zero hz]

/-- `open("/al", O_CREAT)` when `parent` happens to hold the number of the root. -/
theorem create_placed_al : TreeOk newDir ∧
    ∃ r, (Create.openCreat 0 0).call none (fun _ => []) newDir ([] ++ slash :: nameAl) ⟨0, 1, []⟩ =
      some r ∧ Placed none newDir [] nameAl r := by
  have hT := treeOk_newDir
  have hw : (pathWalk none newDir (fun _ => []) true 9 ([] ++ slash :: nameAl) ⟨0, 1, []⟩).map
      (fun r => r.2.last) = some nameAl := by decide +kernel
  refine ⟨hT, (create_placed_iff none (fun _ => []) newDir hT (.openCreat 0 0) [] nameAl ⟨0, 1, []⟩).1
    ⟨fun hm => (by cases hm), fun last n h => ⟨by decide, fun i _ => ⟨.here _, ?_⟩⟩⟩⟩
  obtain ⟨⟨o', ho, rfl⟩, -⟩ := h
  rw [ho] at hw
  obtain hlast : o'.last = nameAl := Option.some.inj hw
  rw [hlast]
  decide

theorem missing_al : Missing none newDir newDir.super.rootIno (comps (slash :: nameAl)) := by
  rw [show comps (slash :: nameAl) = [nameAl] by decide +kernel]
  exact .here (by decide) (newDir_lookup nameOk_al)

set_option maxRecDepth 100000 in
/-- **A name in a directory that is not there**: `open("/al/bb", O_CREAT)` in an empty file system,
    when `parent` happens to hold the number of the root and `last` the string `al`. There is no
    `/al`; the call succeeds, and makes a file `/al`. -/
theorem create_missing_directory : TreeOk newDir ∧
    Missing none newDir newDir.super.rootIno (comps (slash :: nameAl)) ∧
    ∃ s', (Create.openCreat 0 0).call none (fun _ => []) newDir (slash :: nameAl ++ slash :: nameBb)
        ⟨0, 1, nameAl⟩ = some (.ok, s') ∧
      (∃ b i, NewEntry newDir s' 1 b i ∧ deName (leafBytes s' 1 b) i = nameAl) ∧
      ¬ Placed none newDir (slash :: nameAl) nameBb (.ok, s') := by
  have ha : ((Create.openCreat 0 0).call none (fun _ => []) newDir (slash :: nameAl ++ slash :: nameBb)
      ⟨0, 1, nameAl⟩).map (fun r => (r.1, deIno (leafBytes r.2 1 63) 0, deName (leafBytes r.2 1 63) 0)) =
      some (.ok, 2, nameAl) := by decide +kernel
  obtain ⟨⟨e, s'⟩, hcall, hr⟩ := Option.map_eq_some_iff.1 ha
  simp only [Prod.mk.injEq] at hr
  obtain ⟨rfl, hino, hname⟩ := hr
  refine ⟨treeOk_newDir, missing_al, s', hcall, ⟨63, 0, ⟨⟨newDir_live.2 rfl, newDir_ok.2.1.root⟩, by decide, by decide,
    ?_, by rw [hino]; decide⟩, hname⟩, fun h => absurd (h.missing missing_al).1 (by simp)⟩
  rw [newDir_ok.2.2]
  exact leAt_zeroBytes _ _

end Kobalt.Flatfs

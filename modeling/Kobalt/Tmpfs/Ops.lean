/-
  Subject: CREATING AND REMOVING FILES IN TMPFS (`tf_open`, `tf_mkdir`, `tf_unlink`, `tf_rmdir`)
  keeps the tree of names.
-/
import Kobalt.Tmpfs.Tree

namespace Kobalt.Tmpfs

open Function List Option

variable {d : Inode} {name : Name} {w : Nat × Nat}

/-! ## 1. The invariant as a whole -/

/-- **The inodes and entries form a tree of names under the root.** -/
structure NsOk (hp : Mm.HeapPool) (s : Sb) (tab ents : Nat → List Nat) (t : NameTree Nat Name) : Prop where
  ht : HtOk hp s tab
  dirs : DirOk hp s ents
  tree : TreeOk s ents t
  links : ∀ a i, s.inode a = some i → i.file.type ≠ .dir → i.nlink = 1
  pos : 0 < s.inoNext

def NsTree (hp : Mm.HeapPool) (s : Sb) : Prop := ∃ tab ents t, NsOk hp s tab ents t

/-- An answer of `kmalloc`: `NULL`, or an address of the pool at which there is no object. -/
def Fresh {α : Type*} (hp : Mm.HeapPool) (heap : Nat → Option α) (a : Nat) : Prop :=
  a = 0 ∨ a ≠ 0 ∧ InPool hp a ∧ heap a = none

/-- What identifies an inode, and what the file functions see of it. -/
def Inode.face (i : Inode) : Nat × TmpfsInode := (i.ino, i.file)

/-- What the file functions see of the inodes, and their link counts. -/
def Inode.body (i : Inode) : Nat × TmpfsInode := (i.nlink, i.file)

section Parts

variable {hp : Mm.HeapPool} {s s' : Sb} {tab ents : Nat → List Nat} {t : NameTree Nat Name} {ip dir de : Nat}

theorem NsOk.nodes_length (h : NsOk hp s tab ents t) : t.nodes.length < heapFuel := by
  refine length_lt_heapFuel hp h.tree.ok.nodup fun a ha => ?_
  grind [h.tree.mem, h.ht.pool]

/-- `tmpfs_inode_free` of an inode without entries that is found behind `prev`. -/
theorem inodeFree_eq {i : Inode} {prev : Nat} (hi : s.inode ip = some i) (h0 : ip ≠ 0) (hde : i.deHead = 0)
    (hw : walk s.inode Inode.htNext (fun p _ => p == ip) heapFuel 0 (s.htab (htBucket i.ino)) = some (prev, ip)) :
    s.inodeFree ip = some { s with
      inode := update (unhook Inode.setHtNext s.inode (s.htab (htBucket i.ino)) prev i.htNext).1 ip none
      htab := update s.htab (htBucket i.ino)
        (unhook Inode.setHtNext s.inode (s.htab (htBucket i.ino)) prev i.htNext).2
      nrInodes := (s.nrInodes + 2 ^ 32 - 1) % 2 ^ 32 } := by
  unfold Sb.inodeFree
  simp only [hi, hw, hde, bind_some]
  rw [Sb.htRemove, if_neg h0]
  rfl

theorem inodeFree_inodeAlloc (hf : s.inode ip = none) (h0 : ip ≠ 0) (hn : s.nrInodes < 2 ^ 32) (type : TmpfsType)
    (nlink : Nat) :
    (s.inodeAlloc ip type nlink).inodeFree ip = some { s with inoNext := (s.inoNext + 1) % 2 ^ 64 } := by
  obtain ⟨i, hi⟩ : ∃ i : Inode, i = ⟨s.inoNext, nlink, 0, 0, s.htab (htBucket s.inoNext), tmpfsInodeAlloc type⟩ :=
    ⟨_, rfl⟩
  have hin : (s.inodeAlloc ip type nlink).inode = update s.inode ip (some i) := by rw [hi]; rfl
  have hip : (s.inodeAlloc ip type nlink).inode ip = some i := by rw [hin, update_self]
  have hno : i.ino = s.inoNext := by rw [hi]
  have hhead : (s.inodeAlloc ip type nlink).htab (htBucket i.ino) = ip := by
    rw [hno]
    exact update_self ..
  have hw : walk (s.inodeAlloc ip type nlink).inode Inode.htNext (fun p _ => p == ip) heapFuel 0
      ((s.inodeAlloc ip type nlink).htab (htBucket i.ino)) = some (0, ip) := by
    rw [hhead]
    exact walk_hit Mm.heapPoolSize 0 h0 hip (by simp)
  rw [inodeFree_eq hip h0 (by rw [hi]) hw, hhead, hno, hin]
  unfold unhook
  have h1 : update (update s.inode ip (some i)) ip none = s.inode := by
    rw [update_idem, ← hf, update_eq_self]
  have h2 : update (s.inodeAlloc ip type nlink).htab (htBucket s.inoNext) i.htNext = s.htab := by
    rw [hi]
    change update (update s.htab _ ip) _ (s.htab (htBucket s.inoNext)) = s.htab
    rw [update_idem, update_eq_self]
  have h3 : ((s.inodeAlloc ip type nlink).nrInodes + 2 ^ 32 - 1) % 2 ^ 32 = s.nrInodes := by
    change ((s.nrInodes + 1) % 2 ^ 32 + 2 ^ 32 - 1) % 2 ^ 32 = s.nrInodes
    omega
  simp only [if_true, h1, h2, h3]
  rfl

/-- An entry more or less changes the head and the count of its directory only. -/
theorem putEntry_map {β : Type*} (hdir : s.inode dir = some d) (f : Inode → β)
    (hf : ∀ i x y, f { i with deHead := x, deCount := y } = f i) {ino : Nat} (a : Nat) :
    ((s.putEntry dir d name ino de).inode a).map f = (s.inode a).map f :=
  map_update_of_eq hdir (hf d _ _) a

theorem dropEntry_map {β : Type*} (hdir : s.inode dir = some d) (f : Inode → β)
    (hf : ∀ i x y, f { i with deHead := x, deCount := y } = f i) {del : Dirent} (a : Nat) :
    ((s.dropEntry dir d w del).inode a).map f = (s.inode a).map f :=
  map_update_of_eq hdir (hf d _ _) a

theorem NsOk.bump (h : NsOk hp s tab ents t) {n : Nat} (hn : s.inoNext ≤ n) :
    NsOk hp { s with inoNext := n } tab ents t where
  ht := h.ht.congr rfl hn fun _ => rfl
  dirs := h.dirs.congr rfl fun _ i hi => ⟨i, hi, rfl⟩
  tree := h.tree.congr rfl rfl (fun _ => rfl) fun _ => rfl
  links := h.links
  pos := Nat.lt_of_lt_of_le h.pos hn

/-! ## 2. Creating -/

theorem NsOk.linked (h : NsOk hp s tab ents t) (hdir : s.inode dir = some d) (hty : d.file.type = .dir)
    (hip : ip ≠ 0 ∧ InPool hp ip ∧ s.inode ip = none) (hde : de ≠ 0 ∧ InPool hp de ∧ s.dirent de = none)
    (hlt : s.inoNext + 1 < 2 ^ 64) (hnew : name ∉ (t.kids dir).map Prod.fst)
    (hlen : name.length ≤ tmpfsNameMax) {type : TmpfsType} {nlink : Nat} (hlinks : type ≠ .dir → nlink = 1) :
    NsTree hp ((s.inodeAlloc ip type nlink).putEntry dir d name s.inoNext de) := by
  have hne : dir ≠ ip := by
    rintro rfl
    exact nomatch hdir.symm.trans hip.2.2
  generalize hs1 : s.inodeAlloc ip type nlink = s1
  generalize hs2 : s1.putEntry dir d name s.inoNext de = s2
  have hin1 : s1.inode = update s.inode ip
      (some ⟨s.inoNext, nlink, 0, 0, s.htab (htBucket s.inoNext), tmpfsInodeAlloc type⟩) := by rw [← hs1]; rfl
  have hin2 : s2.inode = update s1.inode dir (some { d with deHead := de, deCount := (d.deCount + 1) % 2 ^ 32 }) := by
    rw [← hs2]; rfl
  have hdir1 : s1.inode dir = some d := by rw [hin1, update_of_ne hne, hdir]
  have hcase1 : ∀ a i, s1.inode a = some i →
      (a = ip ∧ i = ⟨s.inoNext, nlink, 0, 0, s.htab (htBucket s.inoNext), tmpfsInodeAlloc type⟩) ∨
        (a ≠ ip ∧ s.inode a = some i) := fun a i hi => of_update_some (hin1 ▸ hi)
  -- an entry changes no number, chain or link count
  have hmap : ∀ {β : Type} (f : Inode → β), (∀ i x y, f { i with deHead := x, deCount := y } = f i) → ∀ a,
      (s2.inode a).map f = (s1.inode a).map f := fun f hf a => hs2 ▸ putEntry_map hdir1 f hf a
  have hht : HtOk hp s2 (update tab (htBucket s.inoNext) (ip :: tab (htBucket s.inoNext))) := by
    refine HtOk.congr (s := s1) ?_ (by rw [← hs2]; rfl) (by rw [← hs2]; rfl) (hmap _ fun _ _ _ => rfl)
    rw [← hs1]
    exact h.ht.alloc hip.2.2 hip.1 hip.2.1 h.pos hlt type nlink
  have hd1 : DirOk hp s1 (update ents ip []) := by
    refine h.dirs.alloc (by rw [← hs1]; rfl) fun a i hi => ?_
    rcases hcase1 a i hi with ⟨rfl, rfl⟩ | h2
    · exact .inl ⟨rfl, rfl, rfl⟩
    · exact .inr h2
  have hd2 : DirOk hp s2 (update (update ents ip []) dir (de :: update ents ip [] dir)) := by
    refine hd1.link (e := ⟨s.inoNext, d.deHead, name⟩) hdir1 hty ?_ hde.1 hde.2.1 rfl ?_ hin2
    · rw [← hs1]
      exact hde.2.2
    · rw [← hs2]
      rfl
  refine ⟨_, _, t.add dir name ip, hht, hd2, ?_, fun a i hi hty' => ?_, ?_⟩
  · have hno : ∀ a, a ≠ ip → (s2.inode a).map Inode.ino = (s.inode a).map Inode.ino := fun a ha => by
      rw [hmap Inode.ino (fun _ _ _ => rfl), hin1, update_of_ne ha]
    refine h.tree.add ((h.tree.mem dir).mpr ⟨d, hdir⟩) hip.2.2 hde.2.2 hnew hlen (by rw [← hs2, ← hs1]; rfl) ?_
      (fun x hx => ?_) hno ?_ (fun a ha1 ha2 => ?_) ?_ ?_
    · have hlen' := h.nodes_length
      have hfuel : heapFuel = 16777217 := rfl
      rw [← hs2, ← hs1]
      change (s.nrInodes + 1) % 2 ^ 32 = s.nrInodes + 1
      rw [h.tree.nr]
      omega
    · rw [← hs2, ← hs1]
      change (update s.dirent de _ x).map _ = _
      rw [update_of_ne hx]
    · refine ⟨⟨s.inoNext, d.deHead, name⟩, ⟨s.inoNext, nlink, 0, 0, s.htab (htBucket s.inoNext), tmpfsInodeAlloc type⟩,
        ?_, rfl, ?_, rfl⟩
      · rw [← hs2]
        exact update_self ..
      · rw [hin2, update_of_ne hne.symm, hin1, update_self]
    · rw [update_of_ne ha1, update_of_ne ha2]
    · rw [update_self, update_of_ne hne]
    · rw [update_of_ne hne.symm, update_self]
  · obtain ⟨i1, hi1, he⟩ := some_of_map_eq (hmap Inode.body (fun _ _ _ => rfl) a) hi
    obtain ⟨he1, he2⟩ := Prod.mk.inj he
    rw [← he1]
    rcases hcase1 a i1 hi1 with ⟨-, rfl⟩ | ⟨-, h2⟩
    · rw [← he2] at hty'
      exact hlinks hty'
    · exact h.links a i1 h2 (he2 ▸ hty')
  · rw [← hs2, ← hs1]
    change 0 < (s.inoNext + 1) % 2 ^ 64
    omega

theorem dirLink_spec (hdir : s.inode dir = some d) (hw : direntWalk s d name = some w) (ino de : Nat) :
    (∃ code, code ≠ .ok ∧ s.dirLink dir name ino de = some (code, s)) ∨
    (d.file.type = .dir ∧ name.length ≤ tmpfsNameMax ∧ de ≠ 0 ∧ w.2 = 0 ∧
      s.dirLink dir name ino de = some (.ok, s.putEntry dir d name ino de)) := by grind [Sb.dirLink]

/-- What creating a file left of the other inodes. -/
structure Created (hp : Mm.HeapPool) (s s' : Sb) (ip : Nat) (type : TmpfsType) : Prop where
  tree : NsTree hp s'
  fresh : ip ≠ 0 ∧ s.inode ip = none
  made : ∃ i, s'.inode ip = some i ∧ i.face = (s.inoNext, tmpfsInodeAlloc type)
  others : ∀ a, a ≠ ip → (s'.inode a).map Inode.face = (s.inode a).map Inode.face
  root : s'.root = s.root
  next : s'.inoNext = s.inoNext + 1

theorem create_spec (h : NsOk hp s tab ents t) (hdir : s.inode dir = some d) (hip : Fresh hp s.inode ip)
    (hde : Fresh hp s.dirent de) (hlt : s.inoNext + 1 < 2 ^ 64) (name : Name) (type : TmpfsType) (nlink : Nat)
    (hlinks : type ≠ .dir → nlink = 1) :
    ∃ code s', s.create dir name type nlink ip de = some (code, s') ∧ s'.inoNext ≤ s.inoNext + 1 ∧
      ((code ≠ .ok ∧ (s' = s ∨ s' = { s with inoNext := s.inoNext + 1 })) ∨
        (code = .ok ∧ d.file.type = .dir ∧ Created hp s s' ip type)) := by
  rcases hip with rfl | hip
  · exact ⟨.enomem, s, if_pos rfl, Nat.le_succ _, .inl ⟨nofun, .inl rfl⟩⟩
  have hne : dir ≠ ip := by
    rintro rfl
    exact nomatch hdir.symm.trans hip.2.2
  have hlen := h.nodes_length
  have hfuel : heapFuel = 16777217 := rfl
  have hdir1 : (s.inodeAlloc ip type nlink).inode dir = some d := (update_of_ne hne _ _).trans hdir
  obtain ⟨w, hw, hnew⟩ : ∃ w, direntWalk (s.inodeAlloc ip type nlink) d name = some w ∧
      (w.2 = 0 → name ∉ (t.kids dir).map Prod.fst) := by
    change ∃ w, direntWalk s d name = some w ∧ _
    rcases h.tree.walk h.dirs hdir name with ⟨hw, hnew⟩ | ⟨l₁, c, l₂, b, -, hw, hc0, -⟩
    · exact ⟨_, hw, fun _ => hnew⟩
    · exact ⟨_, hw, fun h0 => absurd h0 hc0⟩
  rcases dirLink_spec hdir1 hw s.inoNext de with ⟨code, hcode, he⟩ | ⟨hty, hn, hde0, hw0, hlink⟩
  · -- a failure of `tmpfs_dir_link` frees the inode again
    refine ⟨code, { s with inoNext := s.inoNext + 1 }, ?_, Nat.le_refl _, .inl ⟨hcode, .inr rfl⟩⟩
    rw [Sb.create, if_neg hip.1, he, bind_some, if_neg hcode]
    dsimp only
    rw [inodeFree_inodeAlloc hip.2.2 hip.1 (by rw [h.tree.nr]; omega), Nat.mod_eq_of_lt hlt]
    rfl
  have hde := hde.resolve_left hde0
  refine ⟨.ok, (s.inodeAlloc ip type nlink).putEntry dir d name s.inoNext de, ?_, Nat.mod_le _ _,
    .inr ⟨rfl, hty, ?_, ⟨hip.1, hip.2.2⟩, ?_, fun a ha => ?_, rfl, Nat.mod_eq_of_lt hlt⟩⟩
  · rw [Sb.create, if_neg hip.1, hlink, bind_some, if_pos rfl]
  · exact h.linked hdir hty hip hde hlt (hnew hw0) hn hlinks
  · exact ⟨_, (update_of_ne hne.symm _ _).trans (update_self ..), rfl⟩
  · rw [putEntry_map hdir1 Inode.face fun _ _ _ => rfl]
    rw [show (s.inodeAlloc ip type nlink).inode a = s.inode a from update_of_ne ha _ _]

/-! ## 3. Removing -/

/-- Everything about an inode but its link count. -/
def Inode.core (i : Inode) : Nat × Nat × (Nat × Nat × TmpfsType) × TmpfsInode := (i.ino, i.htNext, i.dir, i.file)

/-- Link counts are changed. -/
structure Relinked (s s' : Sb) : Prop where
  rest : s' = { s with inode := s'.inode }
  core : ∀ a, (s'.inode a).map Inode.core = (s.inode a).map Inode.core

theorem Relinked.setNlink (s : Sb) (a : Nat) (f : Nat → Nat) : Relinked s (s.setNlink a f) where
  rest := rfl
  core := fun b => by
    change (update s.inode a _ b).map _ = _
    by_cases hb : b = a
    · subst hb
      rw [update_self, Option.map_map]
      rfl
    · rw [update_of_ne hb]

theorem setNlink_of_ne {a b : Nat} (hb : b ≠ a) (f : Nat → Nat) : (s.setNlink a f).inode b = s.inode b :=
  update_of_ne hb _ _

theorem Relinked.trans {s₁ s₂ s₃ : Sb} (h : Relinked s₁ s₂) (h' : Relinked s₂ s₃) : Relinked s₁ s₃ where
  rest := by
    rw [h'.rest, h.rest]
  core := fun a => (h'.core a).trans (h.core a)

theorem Relinked.map {β : Type*} (h : Relinked s s') (f : Nat × Nat × (Nat × Nat × TmpfsType) × TmpfsInode → β)
    (a : Nat) : (s'.inode a).map (fun i => f i.core) = (s.inode a).map fun i => f i.core := by
  have := congrArg (Option.map f) (h.core a)
  rwa [Option.map_map, Option.map_map] at this

theorem Relinked.file (h : Relinked s s') (a : Nat) : (s'.inode a).map Inode.file = (s.inode a).map Inode.file :=
  h.map (fun x => x.2.2.2) a

theorem Relinked.face (h : Relinked s s') (a : Nat) : (s'.inode a).map Inode.face = (s.inode a).map Inode.face :=
  h.map (fun x => (x.1, x.2.2.2)) a

theorem NsOk.relink (h : NsOk hp s tab ents t) (hr : Relinked s s')
    (hl : ∀ a i, s'.inode a = some i → i.file.type ≠ .dir → i.nlink = 1) : NsOk hp s' tab ents t where
  ht := h.ht.congr (by rw [hr.rest]) (by rw [hr.rest]) (hr.map fun x => (x.1, x.2.1))
  dirs := h.dirs.congr (by rw [hr.rest]) fun a i' hi' => some_of_map_eq (hr.map (fun x => x.2.2.1) a) hi'
  tree := h.tree.congr (by rw [hr.rest]) (by rw [hr.rest]) (fun _ => by rw [hr.rest]) (hr.map fun x => x.1)
  links := hl
  pos := by
    rw [hr.rest]
    exact h.pos

theorem NsOk.setNlink (h : NsOk hp s tab ents t) (hdir : s.inode dir = some d) (hty : d.file.type = .dir)
    (f : Nat → Nat) : NsOk hp (s.setNlink dir f) tab ents t := by
  refine h.relink (Relinked.setNlink ..) fun a i hi hty' => ?_
  by_cases ha : a = dir
  · subst ha
    obtain ⟨j, hj, he⟩ := some_of_map_eq ((Relinked.setNlink s a f).file a) hi
    grind
  grind [setNlink_of_ne, h.links]

/-- What removing a file left of the other inodes. -/
structure Removed (hp : Mm.HeapPool) (s s' : Sb) (tgt : Nat) : Prop where
  tree : NsTree hp s'
  gone : s'.inode tgt = none
  others : ∀ a, a ≠ tgt → (s'.inode a).map Inode.face = (s.inode a).map Inode.face
  root : s'.root = s.root
  next : s'.inoNext = s.inoNext

/-- **The entry is dropped, and the inode it names is freed**, whatever happened to link counts in
    between. -/
theorem NsOk.removed (h : NsOk hp s tab ents t) (hdir : s.inode dir = some d) {tgt : Nat}
    (hkid : (name, tgt) ∈ t.kids dir) (hempty : ents tgt = []) {l₁ l₂ : List Nat} {c : Nat} {e : Dirent}
    (hl : ents dir = l₁ ++ c :: l₂) (he : s.dirent c = some e) (hc : s.Names c (name, tgt)) {s₂ : Sb}
    (hr : Relinked (s.dropEntry dir d (l₁.getLastD 0, c) e) s₂)
    (hlinks : ∀ a, a ≠ tgt → ∀ i, s₂.inode a = some i → i.file.type ≠ .dir → i.nlink = 1) :
    ∃ s₃, s₂.inodeFree tgt = some s₃ ∧ Removed hp s s₃ tgt := by
  have hdirn : dir ∈ t.nodes := (h.tree.mem dir).mpr ⟨d, hdir⟩
  obtain ⟨htn, -⟩ := h.tree.ok.kid dir hdirn _ hkid
  obtain ⟨i, hi⟩ := (h.tree.mem tgt).mp htn
  obtain ⟨s₁, hs₁⟩ : ∃ s₁, s₁ = s.dropEntry dir d (l₁.getLastD 0, c) e := ⟨_, rfl⟩
  have hmap1 : ∀ {β : Type} (f : Inode → β), (∀ i x y, f { i with deHead := x, deCount := y } = f i) → ∀ a,
      (s₁.inode a).map f = (s.inode a).map f := fun f hf a => hs₁ ▸ dropEntry_map hdir f hf a
  rw [← hs₁] at hr
  -- the table and the lists in the state before the inode is freed
  have hht1 : HtOk hp s₁ tab :=
    h.ht.congr (by rw [hs₁]; rfl) (by rw [hs₁]; rfl) (hmap1 _ fun _ _ _ => rfl)
  have hht2 : HtOk hp s₂ tab :=
    hht1.congr (by rw [hr.rest]) (by rw [hr.rest]) (hr.map fun x => (x.1, x.2.1))
  have hd1 : DirOk hp s₁ (update ents dir (l₁ ++ l₂)) :=
    h.dirs.unlink hdir hl he (by rw [hs₁]; rfl) (by rw [hs₁]; rfl)
  have hd2 : DirOk hp s₂ (update ents dir (l₁ ++ l₂)) :=
    hd1.congr (by rw [hr.rest]) fun a i' hi' => some_of_map_eq (hr.map (fun x => x.2.2.1) a) hi'
  have hne : tgt ≠ dir := by
    rintro rfl
    rw [hempty] at hl
    simp at hl
  have hi1 : s₁.inode tgt = some i := by
    rw [hs₁]
    exact (update_of_ne hne _ _).trans hi
  obtain ⟨i₂, hi₂, hcore⟩ := some_of_map_eq (hr.core tgt).symm hi1
  have hhead : i₂.deHead = 0 := by
    have := hd2.chain tgt i₂ hi₂
    rwa [update_of_ne hne, hempty] at this
  obtain ⟨k₁, k₂, hk, hw⟩ := hht2.split hi₂
  have h0 : tgt ≠ 0 := ((hht2.chain _).alloc (a := tgt) (by rw [hk]; simp)).1
  obtain ⟨s₃, hs₃⟩ : ∃ s₃, s₂.inodeFree tgt = some s₃ := ⟨_, inodeFree_eq hi₂ h0 hhead hw⟩
  have heq := Option.some.inj (hs₃.symm.trans (inodeFree_eq hi₂ h0 hhead hw))
  have hin3 : s₃.inode = update (unhook Inode.setHtNext s₂.inode (s₂.htab (htBucket i₂.ino)) (k₁.getLastD 0) i₂.htNext).1
      tgt none := by rw [heq]
  have hmap3 : ∀ {β : Type} (f : Inode → β), (∀ i x, f { i with htNext := x } = f i) → ∀ a, a ≠ tgt →
      (s₃.inode a).map f = (s₂.inode a).map f := fun f hf a ha => by
    rw [hin3, update_of_ne ha]
    exact unhook_map Inode.setHtNext f hf ..
  have hgone : s₃.inode tgt = none := by rw [hin3, update_self]
  have hback : ∀ {β : Type} (f : Inode → β), (∀ i x, f { i with htNext := x } = f i) → ∀ a i', s₃.inode a = some i' →
      a ≠ tgt ∧ ∃ i, s₂.inode a = some i ∧ f i = f i' := fun f hf a i' hi' => by
    have ha : a ≠ tgt := by
      rintro rfl
      exact nomatch hgone.symm.trans hi'
    exact ⟨ha, some_of_map_eq (hmap3 f hf a ha) hi'⟩
  have hht3 := hht2.remove hi₂ hk hin3 (by rw [heq]) (by rw [heq])
  have hd3 : DirOk hp s₃ (update ents dir (l₁ ++ l₂)) :=
    hd2.congr (by rw [heq]) fun a i' hi' => (hback Inode.dir (fun _ _ => rfl) a i' hi').2
  have hnr : s₃.nrInodes + 1 = s.nrInodes := by
    have hlen := h.nodes_length
    have hfuel : heapFuel = 16777217 := rfl
    have hpos : 0 < t.nodes.length := length_pos_of_mem htn
    have hs2 : s₂.nrInodes = s.nrInodes := by rw [hr.rest, hs₁]; rfl
    rw [heq, hs2, h.tree.nr]
    change (t.nodes.length + 2 ^ 32 - 1) % 2 ^ 32 + 1 = t.nodes.length
    omega
  have hnot : c ∉ l₁ ++ l₂ :=
    (nodup_cons.mp (nodup_middle.mp (hl ▸ (h.dirs.chain dir d hdir).nodup))).1
  have hdirent : ∀ x, x ≠ c → (s₃.dirent x).map Dirent.label = (s.dirent x).map Dirent.label := fun x hx => by
    have : s₃.dirent = s₁.dirent := by rw [heq, hr.rest]
    rw [this, hs₁]
    unfold Sb.dropEntry
    grind [unhook_map, Dirent.setNext, Dirent.label]
  have hall : ∀ {β : Type} (f : Nat × (TmpfsInode) → β) a, a ≠ tgt →
      (s₃.inode a).map (fun i => f (i.ino, i.file)) = (s.inode a).map fun i => f (i.ino, i.file) := by
    intro β f a ha
    rw [hmap3 (fun i => f (i.ino, i.file)) (fun _ _ => rfl) a ha, ← hmap1 (fun i => f (i.ino, i.file)) (fun _ _ _ => rfl)]
    exact hr.map (fun x => f (x.1, x.2.2.2)) a
  have htree : TreeOk s₃ (update ents dir (l₁ ++ l₂)) (t.remove dir name tgt) := by
    refine h.tree.remove hdirn hkid hempty hl hc h.ht.inj (by rw [heq, hr.rest, hs₁]; rfl) hnr hdirent
      (hall Prod.fst) hgone (fun a ha had hm => ?_) hnot
    obtain ⟨j, hj⟩ := (h.tree.mem a).mp ha
    exact had (h.dirs.apart a dir j d c hj hdir hm (by rw [hl]; simp))
  refine ⟨s₃, hs₃, ⟨_, _, _, hht3, hd3, htree, fun a i' hi' hty => ?_, ?_⟩, hgone, hall id, ?_, ?_⟩
  · obtain ⟨ha, j, hj, hb⟩ := hback Inode.body (fun _ _ => rfl) a i' hi'
    obtain ⟨h1, h2⟩ := Prod.mk.inj hb
    grind
  · rw [heq, hr.rest, hs₁]
    exact h.pos
  · rw [heq, hr.rest, hs₁]
    rfl
  · rw [heq, hr.rest, hs₁]
    rfl

theorem dirUnlink_eq (hdir : s.inode dir = some d) (hty : d.file.type = .dir)
    (hw : direntWalk s d name = some w) (h0 : w.2 ≠ 0) {e : Dirent} (he : s.dirent w.2 = some e) :
    s.dirUnlink dir name = some (.ok, s.dropEntry dir d w e) := by
  unfold Sb.dirUnlink
  grind

/-- **A name of a directory is taken away with the inode it names**: `tmpfs_dir_unlink`, a change of
    their link counts, `tmpfs_inode_free`. -/
theorem remove_spec (h : NsOk hp s tab ents t) (hdir : s.inode dir = some d) (hty : d.file.type = .dir)
    {tgt : Nat} (hkid : (name, tgt) ∈ t.kids dir) (hempty : ents tgt = []) :
    ∃ s₁, s.dirUnlink dir name = some (.ok, s₁) ∧
      ∀ s₂, Relinked s₁ s₂ → (∀ a, a ≠ tgt → a ≠ dir → s₂.inode a = s₁.inode a) →
        ∃ s₃, s₂.inodeFree tgt = some s₃ ∧ Removed hp s s₃ tgt := by
  have hdirn : dir ∈ t.nodes := (h.tree.mem dir).mpr ⟨d, hdir⟩
  rcases h.tree.walk h.dirs hdir name with ⟨-, hno⟩ | ⟨l₁, c, l₂, b, hl, hw, hc0, hkid', hN⟩
  · exact absurd (mem_map_of_mem hkid) hno
  · obtain rfl := h.tree.ok.kid_unique hdirn hkid hkid'
    have hN' := hN
    obtain ⟨e, -, he, -⟩ := hN'
    refine ⟨_, dirUnlink_eq hdir hty hw hc0 he, fun s₂ hr hsame => h.removed hdir hkid hempty hl he hN hr fun a ha i hi hity => ?_⟩
    have hbody : ∀ a, ((s.dropEntry dir d (l₁.getLastD 0, c) e).inode a).map Inode.body = _ :=
      dropEntry_map hdir Inode.body fun _ _ _ => rfl
    by_cases had : a = dir
    · subst had
      obtain ⟨k, hk, hfile⟩ := some_of_map_eq (hr.file a) hi
      obtain ⟨k', hk', hb⟩ := some_of_map_eq (hbody a) hk
      obtain rfl := Option.some.inj (hk'.symm.trans hdir)
      rw [← hfile, ← (Prod.mk.inj hb).2] at hity
      exact absurd hty hity
    · rw [hsame a ha had] at hi
      obtain ⟨k, hk, hb⟩ := some_of_map_eq (hbody a) hi
      obtain ⟨hn, hfile⟩ := Prod.mk.inj hb
      exact hn ▸ h.links a k hk (hfile ▸ hity)

/-! ## 4. The operations -/

/-- What an operation leaves when nothing is created or removed. -/
def Kept (s s' : Sb) : Prop := s' = s ∨ s' = { s with inoNext := s.inoNext + 1 }

variable (h : NsOk hp s tab ents t)
include h

theorem NsOk.kept (hk : Kept s s') : NsOk hp s' tab ents t ∧ s'.inode = s.inode ∧
    s'.inoNext ≤ s.inoNext + 1 := by
  rcases hk with rfl | rfl
  · exact ⟨h, rfl, Nat.le_succ _⟩
  grind [h.bump]

theorem tfOpen_spec {m : Mem} (hip : Fresh hp s.inode m.ip) (hde : Fresh hp s.dirent m.de)
    (hlt : s.inoNext + 1 < 2 ^ 64) (rel : Text) (creat : Bool) :
    ∃ code ip s', tfOpen s rel creat m = some (code, ip, s') ∧ s'.inoNext ≤ s.inoNext + 1 ∧
      ((Kept s s' ∧ (code = .ok → m.hdl ≠ 0 ∧ ∃ i, s.inode ip = some i)) ∨
        (Created hp s s' m.ip .reg ∧ (code = .ok → m.hdl ≠ 0 ∧ ip = m.ip))) := by
  have hopen : ∀ {P : Prop}, P → (if m.hdl = 0 then NsCode.enomem else .ok) = .ok → m.hdl ≠ 0 ∧ P := by
    intro P hP he
    by_cases h0 : m.hdl = 0
    · rw [if_pos h0] at he
      exact nomatch he
    · exact ⟨h0, hP⟩
  obtain ⟨r, hr, hnode⟩ := h.tree.pathResolve h.ht h.dirs rel
  unfold tfOpen
  rw [hr, bind_some]
  by_cases hr0 : r ≠ 0
  · obtain ⟨i, hi⟩ := hnode.resolve_left hr0
    exact ⟨_, r, s, if_pos hr0, Nat.le_succ _, .inl ⟨.inl rfl, hopen ⟨i, hi⟩⟩⟩
  rw [if_neg hr0]
  by_cases hcr : creat = false
  · exact ⟨.enoent, 0, s, if_pos hcr, Nat.le_succ _, .inl ⟨.inl rfl, nofun⟩⟩
  obtain ⟨dir, leaf, hp', hdir⟩ := h.tree.pathParent h.ht h.dirs rel
  rw [if_neg hcr, hp', bind_some]
  by_cases hno : dir = 0 ∨ leaf = []
  · exact ⟨.enoent, 0, s, if_pos hno, Nat.le_succ _, .inl ⟨.inl rfl, nofun⟩⟩
  obtain ⟨d, hd⟩ := hdir.resolve_left fun h0 => hno (.inl h0)
  obtain ⟨code, s', hc, hle, hres⟩ := create_spec h hd hip hde hlt leaf .reg 1 fun _ => rfl
  rw [if_neg hno, hc, map_some]
  rcases hres with ⟨hne, hk⟩ | ⟨rfl, -, hcr'⟩
  · exact ⟨code, 0, s', by rw [if_neg hne], hle, .inl ⟨hk, fun he => absurd he hne⟩⟩
  grind

theorem tfMkdir_spec {m : Mem} (hip : Fresh hp s.inode m.ip) (hde : Fresh hp s.dirent m.de)
    (hlt : s.inoNext + 1 < 2 ^ 64) (rel : Text) :
    ∃ code s', tfMkdir s rel m = some (code, s') ∧ s'.inoNext ≤ s.inoNext + 1 ∧
      (Kept s s' ∨ Created hp s s' m.ip .dir) := by
  unfold tfMkdir
  obtain ⟨dir, leaf, hp', hdir⟩ := h.tree.pathParent h.ht h.dirs rel
  rw [hp', bind_some]
  by_cases hno : dir = 0 ∨ leaf = []
  · exact ⟨.enoent, s, if_pos hno, Nat.le_succ _, .inl (.inl rfl)⟩
  obtain ⟨d, hd⟩ := hdir.resolve_left fun h0 => hno (.inl h0)
  obtain ⟨code, s', hc, hle, hres⟩ :=
    create_spec h hd hip hde hlt leaf .dir 2 fun h => absurd rfl h
  rw [if_neg hno, hc, map_some]
  rcases hres with ⟨hne, hk⟩ | ⟨rfl, hty, hcr⟩
  · exact ⟨code, s', by rw [if_neg hne], hle, .inl hk⟩
  generalize hs'' : (s'.setNlink dir fun n => (n + 1) % 2 ^ 32) = s''
  have hr : Relinked s' s'' := hs'' ▸ Relinked.setNlink ..
  refine ⟨.ok, s'', by rw [if_pos rfl, ← hs''], by rw [hr.rest]; exact hle, .inr ⟨?_, hcr.fresh, ?_, fun a ha => ?_, ?_, ?_⟩⟩
  · have hne : dir ≠ m.ip := by
      rintro rfl
      exact nomatch hd.symm.trans hcr.fresh.2
    obtain ⟨d', hd', he⟩ := some_of_map_eq (hcr.others dir hne).symm hd
    obtain ⟨tab', ents', t', h'⟩ := hcr.tree
    refine ⟨tab', ents', t', hs'' ▸ h'.setNlink hd' ?_ _⟩
    rw [show d'.file = d.file from congrArg Prod.snd he]
    exact hty
  · obtain ⟨i, hi, hf⟩ := hcr.made
    obtain ⟨j, hj, he⟩ := some_of_map_eq (hr.face m.ip).symm hi
    exact ⟨j, hj, he.trans hf⟩
  · exact (hr.face a).trans (hcr.others a ha)
  · rw [hr.rest]
    exact hcr.root
  · rw [hr.rest]
    exact hcr.next

/-- What the last component of a path names; 0 if nothing. -/
def tfTarget (s : Sb) (rel : Text) : Option Nat :=
  (pathParent s rel).bind fun x => if x.1 = 0 then some 0 else tmpfsDirLookup s x.1 x.2

/-- A call that removes the inode the path leads to if `P` holds of it, and nothing if not. -/
def Removes (hp : Mm.HeapPool) (s : Sb) (rel : Text) (P : Inode → Prop) (r : Option (NsCode × Sb)) : Prop :=
  ∃ tgt, tfTarget s rel = some tgt ∧
    ((∀ i, s.inode tgt = some i → ¬ P i) ∧ (∃ code, r = some (code, s)) ∨
      ∃ i, s.inode tgt = some i ∧ P i ∧ ∃ s', r = some (.ok, s') ∧ Removed hp s s' tgt)

theorem NsOk.null : s.inode 0 = none := by
  refine Option.eq_none_iff_forall_ne_some.2 fun i hi => ?_
  have h1 := (h.ht.pool 0 i hi).1
  have h2 := hp.pos
  omega

/-- **`tf_unlink` and `tf_rmdir` look the path up alike**, and differ in what they do with the inode. -/
theorem NsOk.removes {rel : Text} {P : Inode → Prop} {r : Option (NsCode × Sb)}
    {body : Nat × Name → Nat → Inode → Option (NsCode × Sb)} (hr : r = (pathParent s rel).bind fun x =>
      if x.1 = 0 then some (.enoent, s) else (tmpfsDirLookup s x.1 x.2).bind fun tgt =>
        if tgt = 0 then some (.enoent, s) else (s.inode tgt).bind fun i => body x tgt i)
    (hbody : ∀ dir leaf d tgt i, s.inode dir = some d → d.file.type = .dir → (leaf, tgt) ∈ t.kids dir →
      s.inode tgt = some i → (¬ P i ∧ ∃ code, body (dir, leaf) tgt i = some (code, s)) ∨
        (P i ∧ ∃ s', body (dir, leaf) tgt i = some (.ok, s') ∧ Removed hp s s' tgt)) : Removes hp s rel P r := by
  obtain ⟨dir, leaf, hp', hdir⟩ := h.tree.pathParent h.ht h.dirs rel
  have hnull : ∀ i, s.inode 0 = some i → ¬ P i := fun i hi => nomatch h.null.symm.trans hi
  simp only [Removes, tfTarget, hr, hp', bind_some]
  by_cases h0 : dir = 0
  · exact ⟨0, if_pos h0, .inl ⟨hnull, _, if_pos h0⟩⟩
  simp only [if_neg h0]
  obtain ⟨d, hd⟩ := hdir.resolve_left h0
  rcases h.tree.lookup h.ht h.dirs hd leaf with hl | ⟨tgt, i, hl, ht0, hty, hkid, hi⟩
  · exact ⟨0, hl, .inl ⟨hnull, _, by rw [hl, bind_some, if_pos rfl]⟩⟩
  simp only [hl, bind_some]
  refine ⟨tgt, rfl, ?_⟩
  simp only [if_neg ht0, hi, bind_some]
  rcases hbody dir leaf d tgt i hd hty hkid hi with ⟨hP, hb⟩ | ⟨hP, hb⟩
  · exact .inl ⟨fun i' hi' => Option.some.inj hi' ▸ hP, hb⟩
  · exact .inr ⟨i, rfl, hP, hb⟩

theorem tfUnlink_spec (rel : Text) :
    Removes hp s rel (fun i => i.file.type ≠ .dir) (tfUnlink s rel) := by
  refine h.removes rfl fun dir leaf d tgt i hd hty hkid hi => ?_
  by_cases hity : i.file.type = .dir
  · exact .inl ⟨not_not.2 hity, _, if_pos hity⟩
  obtain ⟨s₁, hu, hrem⟩ := remove_spec h hd hty hkid (h.dirs.file tgt i hi hity)
  have hlink : (i.nlink + 2 ^ 32 - 1) % 2 ^ 32 = 0 := by
    rw [h.links tgt i hi hity]
    rfl
  obtain ⟨s₃, hs₃, hR⟩ := hrem (s₁.setNlink tgt fun n => (n + 2 ^ 32 - 1) % 2 ^ 32) (Relinked.setNlink ..)
    fun a ha _ => setNlink_of_ne ha _
  refine .inr ⟨hity, s₃, ?_, hR⟩
  rw [if_neg hity, hu, bind_some, if_neg (not_not.mpr rfl)]
  dsimp only
  rw [if_pos hlink, hs₃]
  rfl

theorem tfRmdir_spec (rel : Text) :
    Removes hp s rel (fun i => i.file.type = .dir ∧ i.deCount = 0) (tfRmdir s rel) := by
  refine h.removes rfl fun dir leaf d tgt i hd hty hkid hi => ?_
  by_cases hity : i.file.type = .dir
  swap
  · exact .inl ⟨fun hP => hity hP.1, _, if_pos hity⟩
  rw [if_neg (not_not.mpr hity)]
  by_cases hcnt : i.deCount = 0
  swap
  · exact .inl ⟨fun hP => hcnt hP.2, _, if_pos hcnt⟩
  have hempty : ents tgt = [] := eq_nil_of_length_eq_zero ((h.dirs.count tgt i hi).symm.trans hcnt)
  obtain ⟨s₁, hu, hrem⟩ := remove_spec h hd hty hkid hempty
  obtain ⟨s₃, hs₃, hR⟩ := hrem
    ((s₁.setNlink dir fun n => if n > 0 then n - 1 else n).setNlink tgt fun _ => 0)
    ((Relinked.setNlink ..).trans (Relinked.setNlink ..)) fun a ha had => by
      rw [setNlink_of_ne ha, setNlink_of_ne had]
  refine .inr ⟨⟨hity, hcnt⟩, s₃, ?_, hR⟩
  rw [if_neg (not_not.mpr hcnt), hu, bind_some, if_neg (not_not.mpr rfl)]
  dsimp only
  rw [hs₃]
  rfl

end Parts

/-! ## 5. Runs -/

inductive NsOp where
  | openFile (rel : Text) (creat : Bool) (m : Mem)
  | mkdir (rel : Text) (m : Mem)
  | unlink (rel : Text)
  | rmdir (rel : Text)
  deriving DecidableEq, Repr

/-- A step shows the code; `none` if a pointer to nothing was followed. -/
def nsStep (s : Sb) : NsOp → Option NsCode × Sb
  | .openFile rel creat m => ((tfOpen s rel creat m).map fun r => (some r.1, r.2.2)).getD (none, s)
  | .mkdir rel m => ((tfMkdir s rel m).map fun r => (some r.1, r.2)).getD (none, s)
  | .unlink rel => ((tfUnlink s rel).map fun r => (some r.1, r.2)).getD (none, s)
  | .rmdir rel => ((tfRmdir s rel).map fun r => (some r.1, r.2)).getD (none, s)

/-- `kmalloc` gives what it may give. -/
def NsOp.Given (hp : Mm.HeapPool) (s : Sb) : NsOp → Prop
  | .openFile _ _ m => Fresh hp s.inode m.ip ∧ Fresh hp s.dirent m.de
  | .mkdir _ m => Fresh hp s.inode m.ip ∧ Fresh hp s.dirent m.de
  | .unlink _ => True
  | .rmdir _ => True

section Runs

variable {hp : Mm.HeapPool}

theorem NsTree.mount {root : Nat} (h0 : root ≠ 0) (hpool : InPool hp root) : NsTree hp (Sb.mount root) := by
  obtain ⟨i, hi⟩ : ∃ i : Inode, i = ⟨1, 2, 0, 0, 0, tmpfsInodeAlloc .dir⟩ := ⟨_, rfl⟩
  have hin : (Sb.mount root).inode = update (fun _ => none) root (some i) := by rw [hi]; rfl
  have hroot : (Sb.mount root).inode root = some i := by rw [hin, update_self]
  have honly : ∀ a j, (Sb.mount root).inode a = some j → a = root ∧ j = i := by
    intro a j hj
    exact (of_update_some (hin ▸ hj)).resolve_right fun h => nomatch (show none = some j from h.2)
  have hnext : (Sb.mount root).inoNext = 2 := rfl
  refine ⟨update (fun _ => []) (htBucket 1) [root], fun _ => [], ⟨root, [root], fun _ => []⟩, ?_, ?_, ?_, ?_, by omega⟩
  · refine ⟨fun b => ?_, fun b a => ?_, fun a j hj => ?_, fun a a' j j' hj hj' _ => ?_, fun a j hj => ?_⟩
    · change Chain _ _ (update (fun _ => 0) (htBucket 1) root b) _
      by_cases hb : b = htBucket 1
      · subst hb
        rw [update_self, update_self]
        exact ⟨rfl, h0, i, hroot, by rw [hi]; rfl⟩
      · rw [update_of_ne hb, update_of_ne hb]
        rfl
    · have hmem : a ∈ update (fun _ => []) (htBucket 1) [root] b ↔ a = root ∧ b = htBucket 1 := by
        by_cases hb : b = htBucket 1
        · subst hb; simp
        · simp [hb]
      grind
    · grind
    · exact (honly a j hj).1.trans (honly a' j' hj').1.symm
    · exact (honly a j hj).1 ▸ hpool
  · refine ⟨fun a j hj => ?_, fun a j hj => ?_, fun a a' j j' d _ _ hd => (nomatch hd), fun _ _ _ _ => rfl,
      fun d e he => (nomatch he)⟩
    · rw [(honly a j hj).2, hi]
      rfl
    · rw [(honly a j hj).2, hi]
      rfl
  · refine ⟨⟨nodup_singleton _, mem_singleton_self _, fun _ _ _ hx => (nomatch hx),
      fun _ _ _ _ _ _ _ hx => (nomatch hx), fun _ _ => nodup_nil, fun a ha => ?_⟩, rfl, fun a => ?_, rfl,
      fun _ _ => .nil, fun _ _ _ hx => (nomatch hx)⟩
    · rw [mem_singleton.mp ha]
      exact .root
    grind
  · intro a j hj hty
    rw [(honly a j hj).2, hi] at hty
    exact absurd rfl hty

theorem nsStep_keeps {s : Sb} (h : NsTree hp s) (hlt : s.inoNext + 1 < 2 ^ 64) {op : NsOp} (hg : op.Given hp s) :
    (nsStep s op).1 ≠ none ∧ NsTree hp (nsStep s op).2 ∧ (nsStep s op).2.inoNext ≤ s.inoNext + 1 := by
  obtain ⟨tab, ents, t, h⟩ := h
  have hself : NsTree hp s ∧ s.inoNext ≤ s.inoNext + 1 := ⟨⟨tab, ents, t, h⟩, Nat.le_succ _⟩
  have hgone : ∀ {tgt s'}, Removed hp s s' tgt → NsTree hp s' ∧ s'.inoNext ≤ s.inoNext + 1 := fun hR =>
    ⟨hR.tree, hR.next ▸ Nat.le_succ _⟩
  cases op with
  | openFile rel creat m =>
    obtain ⟨code, ip, s', he, hle, hres⟩ := tfOpen_spec h hg.1 hg.2 hlt rel creat
    simp only [nsStep, he, map_some, getD_some]
    refine ⟨nofun, ?_, hle⟩
    rcases hres with ⟨hk, -⟩ | ⟨hc, -⟩
    · exact ⟨tab, ents, t, (h.kept hk).1⟩
    · exact hc.tree
  | mkdir rel m =>
    obtain ⟨code, s', he, hle, hres⟩ := tfMkdir_spec h hg.1 hg.2 hlt rel
    simp only [nsStep, he, map_some, getD_some]
    refine ⟨nofun, ?_, hle⟩
    rcases hres with hk | hc
    · exact ⟨tab, ents, t, (h.kept hk).1⟩
    · exact hc.tree
  | unlink rel =>
    obtain ⟨tgt, -, ⟨-, code, he⟩ | ⟨i, -, -, s', he, hR⟩⟩ := tfUnlink_spec h rel <;>
      simp only [nsStep, he, map_some, getD_some]
    · exact ⟨nofun, hself⟩
    · exact ⟨nofun, hgone hR⟩
  | rmdir rel =>
    obtain ⟨tgt, -, ⟨-, code, he⟩ | ⟨i, -, -, s', he, hR⟩⟩ := tfRmdir_spec h rel <;>
      simp only [nsStep, he, map_some, getD_some]
    · exact ⟨nofun, hself⟩
    · exact ⟨nofun, hgone hR⟩

end Runs

/-! ## 6. The counter of inode numbers wraps -/

/-- A heap at 2 MiB; the root is at its start, and `kmalloc` gives two more addresses. -/
def somePool : Mm.HeapPool := ⟨0x200000, by decide, by decide, by decide⟩

def mem₁ : Mem := ⟨0x201000, 0x201000, 0x201000⟩
def mem₂ : Mem := ⟨0x202000, 0x202000, 0x202000⟩

/-- The state after `mkdir a`, with another counter: the directory has the number 2. -/
def oneDir (n : Nat) : Sb where
  inoNext := n
  nrInodes := 2
  htab := update (update (fun _ => 0) (htBucket 1) 0x200000) (htBucket 2) 0x201000
  root := 0x200000
  inode := update (update (fun _ => none) 0x201000 (some ⟨2, 2, 0, 0, 0, tmpfsInodeAlloc .dir⟩))
    0x200000 (some ⟨1, 3, 0x201000, 1, 0, tmpfsInodeAlloc .dir⟩)
  dirent := update (fun _ => none) 0x201000 (some ⟨2, 0, [0x61]⟩)

theorem given₁ : (NsOp.mkdir [0x61] mem₁).Given somePool (Sb.mount 0x200000) :=
  ⟨.inr ⟨by decide, ⟨by decide, by decide⟩, rfl⟩, .inr ⟨by decide, ⟨by decide, by decide⟩, rfl⟩⟩

theorem given₂ (rel : Text) (n : Nat) : (NsOp.mkdir rel mem₂).Given somePool (oneDir n) :=
  ⟨.inr ⟨by decide, ⟨by decide, by decide⟩, rfl⟩, .inr ⟨by decide, ⟨by decide, by decide⟩, rfl⟩⟩

theorem oneDir_first : nsStep (Sb.mount 0x200000) (.mkdir [0x61] mem₁) = (some .ok, oneDir 3) := by
  have h : nsStep (Sb.mount 0x200000) (.mkdir [0x61] mem₁) =
      (some .ok, (((Sb.mount 0x200000).inodeAlloc 0x201000 .dir 2).putEntry 0x200000
        ⟨1, 2, 0, 0, 0, tmpfsInodeAlloc .dir⟩ [0x61] 2 0x201000).setNlink 0x200000 fun n => (n + 1) % 2 ^ 32) := rfl
  rw [h]
  simp only [oneDir, Prod.mk.injEq, true_and, Sb.setNlink, Sb.putEntry, Sb.inodeAlloc, Sb.mk.injEq]
  refine ⟨rfl, rfl, rfl, rfl, funext fun a => ?_, rfl⟩
  by_cases h1 : a = 0x200000
  · rw [h1]
    rfl
  · rw [update_of_ne h1, update_of_ne h1, update_of_ne h1]
    by_cases h2 : a = 0x201000
    · rw [h2, update_self, update_self,
        show (Sb.mount 0x200000).htab (htBucket (Sb.mount 0x200000).inoNext) = 0 by decide +kernel]
      rfl
    · simp [Sb.mount, Sb.inodeAlloc, h1, h2]

theorem oneDir_again (n : Nat) : nsStep (oneDir n) (.mkdir [0x61] mem₂) = (some .eexist, oneDir ((n + 1) % 2 ^ 64)) := by
  have hw : direntWalk ((oneDir n).inodeAlloc mem₂.ip .dir 2) ⟨1, 3, 0x201000, 1, 0, tmpfsInodeAlloc .dir⟩ [0x61] =
      some (0, 0x201000) := walk_hit Mm.heapPoolSize 0 (by decide) (x := ⟨2, 0, [0x61]⟩) rfl rfl
  have hlink : ((oneDir n).inodeAlloc mem₂.ip .dir 2).dirLink 0x200000 [0x61] (oneDir n).inoNext mem₂.de =
      some (.eexist, (oneDir n).inodeAlloc mem₂.ip .dir 2) := by
    unfold Sb.dirLink
    rw [show ((oneDir n).inodeAlloc mem₂.ip .dir 2).inode 0x200000 = some _ from rfl, bind_some, if_neg (by decide),
      if_neg (by decide), if_neg (by decide), hw]
    rfl
  rw [nsStep, tfMkdir, show pathParent (oneDir n) [0x61] = some (0x200000, [0x61]) from rfl, bind_some,
    if_neg (by decide), Sb.create, if_neg (by decide), hlink, bind_some, if_neg nofun]
  dsimp only
  rw [inodeFree_inodeAlloc rfl (by decide) (by decide : 2 < 2 ^ 32)]
  rfl

theorem oneDir_reached (k : Nat) :
    ∃ h, Reach (fun s op => op.Given somePool s) nsStep (Sb.mount 0x200000) h (oneDir ((3 + k) % 2 ^ 64)) := by
  induction k with
  | zero =>
    exact ⟨_, Reach.next .start given₁ oneDir_first⟩
  | succ k ih =>
    obtain ⟨h, hr⟩ := ih
    have he := oneDir_again ((3 + k) % 2 ^ 64)
    rw [show ((3 + k) % 2 ^ 64 + 1) % 2 ^ 64 = (3 + (k + 1)) % 2 ^ 64 by omega] at he
    exact ⟨_, hr.next (given₂ _ _) he⟩

/-! ## 7. The tree in every run -/

/-- **The names form a tree in every state reached** by fewer than 2^64 - 2 operations, and none of
    them follows a pointer to nothing. -/
theorem tmpfs_names_tree {hp : Mm.HeapPool} {root : Nat} (h0 : root ≠ 0) (hpool : InPool hp root) {h : Log NsOp (Option NsCode)} {s : Sb}
    (hr : Reach (fun s op => op.Given hp s) nsStep (Sb.mount root) h s) (hlen : h.length + 2 < 2 ^ 64) :
    NsTree hp s ∧ ∀ x ∈ h, x.2 ≠ none := by
  have key : h.length + 2 < 2 ^ 64 → NsTree hp s ∧ (∀ x ∈ h, x.2 ≠ none) ∧ s.inoNext ≤ h.length + 2 := by
    refine hr.inv (I := fun h s => h.length + 2 < 2 ^ 64 →
      NsTree hp s ∧ (∀ x ∈ h, x.2 ≠ none) ∧ s.inoNext ≤ h.length + 2) ?_ fun h s op ih hg hl => ?_
    · exact fun _ => ⟨NsTree.mount h0 hpool, fun _ hx => (nomatch hx), Nat.le_refl _⟩
    · grind [nsStep_keeps]
  exact ⟨(key hlen).1, (key hlen).2.1⟩

theorem tmpfs_names_two : NsTree somePool (oneDir 4) :=
  (tmpfs_names_tree (by decide) ⟨by decide, by decide⟩
    ((Reach.next .start given₁ oneDir_first).next (given₂ _ _) (oneDir_again 3)) (by decide)).1

/-- **The counter wraps**: `a` has the number 2, and after 2^64 - 1 calls of `mkdir a` that fail the
    new directory `b` gets it too. Then the name `a` leads to the inode of `b`, and the inode of `a` is
    found by no name. -/
theorem tmpfs_names_wrapped : ∃ h s, Reach (fun s op => op.Given somePool s) nsStep (Sb.mount 0x200000) h s ∧
      (∃ i, s.inode 0x201000 = some i ∧ i.ino = 2) ∧ (∃ j, s.inode 0x202000 = some j ∧ j.ino = 2) ∧
      tmpfsDirLookup s s.root [0x61] = some 0x202000 ∧ ¬ NsTree somePool s := by
  obtain ⟨h, hr⟩ := oneDir_reached (2 ^ 64 - 1)
  rw [show (3 + (2 ^ 64 - 1)) % 2 ^ 64 = 2 by decide] at hr
  have hr' := hr.eval (i := .mkdir [0x62] mem₂) (o := some .ok) (given₂ _ _) (by decide +kernel)
  have hi : ((nsStep (oneDir 2) (.mkdir [0x62] mem₂)).2.inode 0x201000).map Inode.ino = some 2 := by decide +kernel
  have hj : ((nsStep (oneDir 2) (.mkdir [0x62] mem₂)).2.inode 0x202000).map Inode.ino = some 2 := by decide +kernel
  have hl : tmpfsDirLookup (nsStep (oneDir 2) (.mkdir [0x62] mem₂)).2
      (nsStep (oneDir 2) (.mkdir [0x62] mem₂)).2.root [0x61] = some 0x202000 := by decide +kernel
  generalize (nsStep (oneDir 2) (.mkdir [0x62] mem₂)).2 = s at *
  obtain ⟨i, hi, hi2⟩ := map_eq_some_iff.1 hi
  obtain ⟨j, hj, hj2⟩ := map_eq_some_iff.1 hj
  refine ⟨_, s, hr', ⟨i, hi, hi2⟩, ⟨j, hj, hj2⟩, hl, ?_⟩
  rintro ⟨tab, ents, t, hn⟩
  exact absurd (hn.ht.inj _ _ i j hi hj (hi2.trans hj2.symm)) (by decide)

end Kobalt.Tmpfs

/-
  Subject: THE NAMES OF TMPFS FORM A TREE, in every state that creating and removing files reaches.

  The invariant has three parts, one for each structure: the hash table, the lists of entries, and the tree.
-/
import Mathlib.Data.List.Perm.Subperm
import Kobalt.Tmpfs.Names

namespace Kobalt.Tmpfs

open Function List Option

variable {l₁ l₂ : List Nat} {α β : Type*}

/-- An address in the kernel heap. -/
def InPool (hp : Mm.HeapPool) (a : Nat) : Prop := hp.base ≤ a ∧ a < hp.base + Mm.heapPoolSize

/-! ## 1. The invariant -/

/-- **The hash table**: chain `b` holds the inodes whose number hashes to `b`, and numbers differ. -/
structure HtOk (hp : Mm.HeapPool) (s : Sb) (tab : Nat → List Nat) : Prop where
  chain : ∀ b, Chain s.inode Inode.htNext (s.htab b) (tab b)
  bucket : ∀ b a, a ∈ tab b ↔ ∃ i, s.inode a = some i ∧ htBucket i.ino = b
  ino : ∀ a i, s.inode a = some i → 0 < i.ino ∧ i.ino < s.inoNext
  inj : ∀ a a' i i', s.inode a = some i → s.inode a' = some i' → i.ino = i'.ino → a = a'
  pool : ∀ a i, s.inode a = some i → InPool hp a

/-- **The entry lists** `ents`: no two directories share an entry, and only directories have any. -/
structure DirOk (hp : Mm.HeapPool) (s : Sb) (ents : Nat → List Nat) : Prop where
  chain : ∀ a i, s.inode a = some i → Chain s.dirent Dirent.next i.deHead (ents a)
  count : ∀ a i, s.inode a = some i → i.deCount = (ents a).length
  apart : ∀ a a' i i' d, s.inode a = some i → s.inode a' = some i' → d ∈ ents a → d ∈ ents a' → a = a'
  file : ∀ a i, s.inode a = some i → i.file.type ≠ .dir → ents a = []
  pool : ∀ d e, s.dirent d = some e → InPool hp d

/-- The entry `d` has the name `x.1` and the number of the inode `x.2`. -/
def Sb.Names (s : Sb) (d : Nat) (x : Name × Nat) : Prop :=
  ∃ e i, s.dirent d = some e ∧ e.name = x.1 ∧ s.inode x.2 = some i ∧ e.ino = i.ino

/-- **The tree** the entries make of the inodes. -/
structure TreeOk (s : Sb) (ents : Nat → List Nat) (t : NameTree Nat Name) : Prop where
  ok : t.Ok
  root : t.root = s.root
  mem : ∀ a, a ∈ t.nodes ↔ ∃ i, s.inode a = some i
  nr : s.nrInodes = t.nodes.length
  entries : ∀ a ∈ t.nodes, List.Forall₂ s.Names (ents a) (t.kids a)
  short : ∀ a ∈ t.nodes, ∀ x ∈ t.kids a, x.1.length ≤ tmpfsNameMax

/-! ## 2. Looking things up -/

theorem strncmpEq_iff {n : Nat} {a b : Name} (h : a.length < n) : strncmpEq n a b = true ↔ a = b := by
  induction n generalizing a b with
  | zero => exact nomatch h
  | succ n ih =>
    cases a with
    | nil => cases b <;> simp [strncmpEq]
    | cons x a =>
      cases b with
      | nil => simp [strncmpEq]
      | cons y b =>
        rw [strncmpEq, Bool.and_eq_true, beq_iff_eq, ih (Nat.lt_of_succ_lt_succ h), List.cons.injEq]

theorem nmEq_iff {a b : Name} (h : a.length ≤ tmpfsNameMax) : nmEq a b = true ↔ a = b :=
  strncmpEq_iff (Nat.lt_succ_of_le h)

theorem length_lt_heapFuel (hp : Mm.HeapPool) {l : List Nat} (hn : l.Nodup) (h : ∀ a ∈ l, InPool hp a) :
    l.length < heapFuel := by
  have hsub : l ⊆ List.range' hp.base Mm.heapPoolSize := fun a ha =>
    mem_range'_1.mpr (h a ha)
  have := (subperm_of_subset hn hsub).length_le
  rw [length_range'] at this
  exact Nat.lt_succ_of_le this

section Lookup

variable {hp : Mm.HeapPool} {s : Sb} {tab ents : Nat → List Nat} {t : NameTree Nat Name}

theorem HtOk.tab_length (h : HtOk hp s tab) (b : Nat) : (tab b).length < heapFuel := by
  refine length_lt_heapFuel hp (h.chain b).nodup fun a ha => ?_
  grind [h.bucket, h.pool]

theorem DirOk.ents_length (h : DirOk hp s ents) {a : Nat} {i : Inode} (hi : s.inode a = some i) :
    (ents a).length < heapFuel := by
  refine length_lt_heapFuel hp (h.chain a i hi).nodup fun d hd => ?_
  obtain ⟨e, he⟩ := ((h.chain a i hi).alloc hd).2
  exact h.pool d e he

theorem HtOk.get (h : HtOk hp s tab) (ino : Nat) :
    (tmpfsInodeGet s ino = some 0 ∧ ∀ a i, s.inode a = some i → i.ino ≠ ino) ∨
    ∃ a i, tmpfsInodeGet s ino = some a ∧ a ≠ 0 ∧ s.inode a = some i ∧ i.ino = ino := by
  have hc := h.chain (htBucket ino)
  rcases walk_spec (fun _ i => i.ino == ino) 0 hc (h.tab_length _) with
    ⟨hw, hno⟩ | ⟨l₁, c, l₂, i, hl, hi, htest, -, hw⟩
  · grind [tmpfsInodeGet, h.bucket]
  · refine .inr ⟨c, i, by rw [tmpfsInodeGet, hw]; rfl, ?_, hi, by simpa using htest⟩
    exact (hc.alloc (by rw [hl]; simp)).1

theorem TreeOk.mem_ents (h : TreeOk s ents t) {a d : Nat} (ha : a ∈ t.nodes) (hd : d ∈ ents a) :
    ∃ x ∈ t.kids a, s.Names d x := by
  obtain ⟨n, hn, rfl⟩ := getElem_of_mem hd
  have hf := List.forall₂_iff_get.mp (h.entries a ha)
  exact ⟨_, getElem_mem (hf.1 ▸ hn), hf.2 n hn (hf.1 ▸ hn)⟩

theorem TreeOk.mem_kids (h : TreeOk s ents t) {a : Nat} {x : Name × Nat} (ha : a ∈ t.nodes) (hx : x ∈ t.kids a) :
    ∃ d ∈ ents a, s.Names d x := by
  obtain ⟨n, hn, rfl⟩ := getElem_of_mem hx
  have hf := List.forall₂_iff_get.mp (h.entries a ha)
  exact ⟨_, getElem_mem (hf.1 ▸ hn), hf.2 n (hf.1 ▸ hn) hn⟩

/-- **The loop over a directory** finds the entry of a name, if there is one. -/
theorem TreeOk.walk (ht : TreeOk s ents t) (hd : DirOk hp s ents) {dir : Nat} {d : Inode} (hi : s.inode dir = some d)
    (name : Name) : (direntWalk s d name = some ((ents dir).getLastD 0, 0) ∧ name ∉ (t.kids dir).map Prod.fst) ∨
    ∃ l₁ c l₂ b, ents dir = l₁ ++ c :: l₂ ∧ direntWalk s d name = some (l₁.getLastD 0, c) ∧ c ≠ 0 ∧
      (name, b) ∈ t.kids dir ∧ s.Names c (name, b) := by
  have hdir : dir ∈ t.nodes := (ht.mem dir).mpr ⟨d, hi⟩
  have hc := hd.chain dir d hi
  rcases walk_spec (fun _ e => nmEq e.name name) 0 hc (hd.ents_length hi) with
    ⟨hw, hno⟩ | ⟨l₁, c, l₂, e, hl, he, htest, -, hw⟩
  · refine .inl ⟨hw, fun hn => ?_⟩
    obtain ⟨x, hx, rfl⟩ := mem_map.mp hn
    obtain ⟨c, hcm, e, i, he, hname, -⟩ := ht.mem_kids hdir hx
    grind [nmEq_iff, ht.short]
  · have hcm : c ∈ ents dir := by rw [hl]; simp
    obtain ⟨⟨m, b⟩, hx, e', i, he', hname, hb, hino⟩ := ht.mem_ents hdir hcm
    obtain rfl := Option.some.inj (he.symm.trans he')
    have hnm : e.name = name := by
      refine (nmEq_iff ?_).mp htest
      rw [hname]
      exact ht.short dir hdir _ hx
    obtain rfl : m = name := hname.symm.trans hnm
    exact .inr ⟨l₁, c, l₂, b, hl, hw, (hc.alloc hcm).1, hx, e, i, he, hname, hb, hino⟩

section

variable (ht : TreeOk s ents t) (hh : HtOk hp s tab) (hd : DirOk hp s ents)
include ht hh hd

theorem TreeOk.lookup {dir : Nat} {d : Inode}
    (hi : s.inode dir = some d) (name : Name) : tmpfsDirLookup s dir name = some 0 ∨
    ∃ b i, tmpfsDirLookup s dir name = some b ∧ b ≠ 0 ∧ d.file.type = .dir ∧ (name, b) ∈ t.kids dir ∧
      s.inode b = some i := by
  unfold tmpfsDirLookup
  rw [hi, bind_some]
  by_cases hty : d.file.type = .dir
  · rw [if_neg (not_not.mpr hty)]
    rcases ht.walk hd hi name with ⟨hw, -⟩ | ⟨l₁, c, l₂, b, -, hw, hc0, hx, e, i, he, -, hb, hino⟩
    · grind
    · have hfound : foundIno s c = i.ino := by rw [foundIno, he, ← hino]; rfl
      have hpos := (hh.ino b i hb).1
      rw [hw, bind_some, if_neg (by rw [hfound]; omega), hfound]
      grind [hh.get, hh.inj]
  · exact .inl (if_pos hty)

theorem TreeOk.pathLoop : ∀ (fuel : Nat) {cur : Nat} {i : Inode} (rel : Text), s.inode cur = some i →
    ∃ r, pathLoop s fuel cur rel = some r ∧ (r = 0 ∨ ∃ j, s.inode r = some j) := by
  intro fuel
  induction fuel with
  | zero => exact fun rel hi => ⟨_, rfl, .inr ⟨_, hi⟩⟩
  | succ fuel ih =>
    intro cur i rel hi
    unfold Tmpfs.pathLoop
    dsimp only
    split_ifs
    · exact ⟨cur, rfl, .inr ⟨i, hi⟩⟩
    · exact ih _ hi
    · exact ⟨0, rfl, .inl rfl⟩
    · rcases ht.lookup hh hd hi (rel.takeWhile (· ≠ 0x2f)) with hl | ⟨b, j, hl, hb0, -, -, hj⟩
      · rw [hl]
        exact ⟨0, rfl, .inl rfl⟩
      · rw [hl, bind_some, if_neg hb0]
        exact ih _ hj

omit ht hh hd in
theorem TreeOk.rootInode (ht : TreeOk s ents t) : ∃ i, s.inode s.root = some i :=
  (ht.mem _).mp (ht.root ▸ ht.ok.root)

theorem TreeOk.pathResolve (rel : Text) :
    ∃ r, pathResolve s rel = some r ∧ (r = 0 ∨ ∃ j, s.inode r = some j) := by
  obtain ⟨i, hi⟩ := ht.rootInode
  exact ht.pathLoop hh hd _ rel hi

theorem TreeOk.pathParent (rel : Text) :
    ∃ dir leaf, pathParent s rel = some (dir, leaf) ∧ (dir = 0 ∨ ∃ j, s.inode dir = some j) := by
  unfold Tmpfs.pathParent
  split
  · exact ⟨_, _, rfl, .inr ht.rootInode⟩
  · exact ⟨_, _, rfl, .inr ht.rootInode⟩
  · split
    · exact ⟨0, [], rfl, .inl rfl⟩
    · next k _ _ =>
      obtain ⟨r, hr, h⟩ := ht.pathResolve hh hd (rel.take (k + 1))
      exact ⟨r, _, by rw [hr]; rfl, h⟩

end

end Lookup

/-! ## 3. The hash table -/

theorem some_of_map_eq {f : α → β} {o o' : Option α} {x : α} (h : o.map f = o'.map f) (hx : o = some x) :
    ∃ y, o' = some y ∧ f y = f x := by
  rw [hx, map_some] at h
  obtain ⟨y, hy, he⟩ := map_eq_some_iff.mp h.symm
  exact ⟨y, hy, he⟩

theorem exists_some_congr {f : α → β} {o o' : Option α} (h : o.map f = o'.map f) :
    (∃ x, o = some x) ↔ ∃ x, o' = some x :=
  ⟨fun ⟨_, hx⟩ => (some_of_map_eq h hx).imp fun _ => And.left,
    fun ⟨_, hx⟩ => (some_of_map_eq h.symm hx).imp fun _ => And.left⟩

theorem map_update_of_eq {f : α → β} {heap : Nat → Option α} {b : Nat} {x y : α} (hx : heap b = some x)
    (hf : f y = f x) (a : Nat) : (update heap b (some y) a).map f = (heap a).map f := by grind

theorem of_update_some {heap : Nat → Option α} {a b : Nat} {x y : α} (h : update heap b (some x) a = some y) :
    (a = b ∧ y = x) ∨ (a ≠ b ∧ heap a = some y) := by grind

section Table

variable {hp : Mm.HeapPool} {s s' : Sb} {tab : Nat → List Nat} {ip : Nat} {i : Inode}

theorem HtOk.split (h : HtOk hp s tab) (hi : s.inode ip = some i) : ∃ l₁ l₂, tab (htBucket i.ino) = l₁ ++ ip :: l₂ ∧
    walk s.inode Inode.htNext (fun p _ => p == ip) heapFuel 0 (s.htab (htBucket i.ino)) =
      some (l₁.getLastD 0, ip) := by
  rcases walk_spec (fun p _ => p == ip) 0 (h.chain (htBucket i.ino)) (h.tab_length _) with
    ⟨-, hno⟩ | ⟨l₁, c, l₂, x, hl, -, htest, -, hw⟩
  · grind [h.bucket]
  grind

theorem HtOk.congr (h : HtOk hp s tab) (ht : s'.htab = s.htab) (hn : s.inoNext ≤ s'.inoNext)
    (hi : ∀ a, (s'.inode a).map (fun i => (i.ino, i.htNext)) = (s.inode a).map fun i => (i.ino, i.htNext)) :
    HtOk hp s' tab := by
  have hback : ∀ a i', s'.inode a = some i' → ∃ i, s.inode a = some i ∧ i.ino = i'.ino := fun a i' h' => by
    obtain ⟨i, h1, h2⟩ := some_of_map_eq (hi a) h'
    exact ⟨i, h1, (Prod.mk.inj h2).1⟩
  have hforth : ∀ a i, s.inode a = some i → ∃ i', s'.inode a = some i' ∧ i'.ino = i.ino ∧ i'.htNext = i.htNext :=
    fun a i h' => by grind [some_of_map_eq]
  clear hi
  refine ⟨fun b => ?_, fun b a => ?_, fun a i' hi' => ?_, fun a a' i' j' hi' hj' he => ?_, fun a i' hi' => ?_⟩
  · rw [ht]
    exact (h.chain b).congr fun a _ x hx => by grind
  · grind [h.bucket]
  · obtain ⟨i, h1, h2⟩ := hback a i' hi'
    have := h.ino a i h1
    omega
  · grind [h.inj]
  · grind [h.pool]

/-- **A new inode** is put in front of the chain of its number, which is nobody's. -/
theorem HtOk.alloc (h : HtOk hp s tab) (hf : s.inode ip = none) (h0 : ip ≠ 0) (hpool : InPool hp ip)
    (hpos : 0 < s.inoNext) (hlt : s.inoNext + 1 < 2 ^ 64) (type : TmpfsType) (nlink : Nat) :
    HtOk hp (s.inodeAlloc ip type nlink)
      (update tab (htBucket s.inoNext) (ip :: tab (htBucket s.inoNext))) := by
  have hnot : ∀ b, ip ∉ tab b := by grind [h.bucket]
  have hnext : (s.inodeAlloc ip type nlink).inoNext = s.inoNext + 1 := Nat.mod_eq_of_lt hlt
  have hcases : ∀ a i, (s.inodeAlloc ip type nlink).inode a = some i →
      (a = ip ∧ i.ino = s.inoNext) ∨ (a ≠ ip ∧ s.inode a = some i) := by
    intro a i hi
    exact (of_update_some (show update s.inode ip _ a = some i from hi)).imp_left fun h => ⟨h.1, by rw [h.2]⟩
  clear hlt
  refine ⟨fun b => ?_, fun b a => ?_, fun a i hi => ?_, fun a a' i i' hi hi' he => ?_, fun a i hi => ?_⟩
  · by_cases hb : b = htBucket s.inoNext
    · subst hb
      rw [update_self]
      change Chain (update s.inode ip _) _ (update s.htab _ ip _) _
      rw [update_self]
      exact (h.chain _).push h0 (hnot _) rfl
    · rw [update_of_ne hb]
      change Chain (update s.inode ip _) _ (update s.htab _ ip b) _
      rw [update_of_ne hb]
      exact (h.chain b).frame (hnot b) _
  · have hmem : a ∈ update tab (htBucket s.inoNext) (ip :: tab (htBucket s.inoNext)) b ↔
        (a = ip ∧ b = htBucket s.inoNext) ∨ a ∈ tab b := by
      by_cases hb : b = htBucket s.inoNext
      · subst hb; simp
      · simp [hb]
    rw [hmem, h.bucket]
    change _ ↔ ∃ i, update s.inode ip _ a = some i ∧ _
    by_cases ha : a = ip
    · subst ha
      rw [hf, update_self]
      simp [eq_comm]
    · rw [update_of_ne ha]
      simp [ha]
  · have := h.ino a i
    grind
  · grind [h.ino, h.inj]
  · grind [h.pool]

theorem HtOk.remove (h : HtOk hp s tab) (hi : s.inode ip = some i) (hl : tab (htBucket i.ino) = l₁ ++ ip :: l₂)
    (hin : s'.inode = update (unhook Inode.setHtNext s.inode (s.htab (htBucket i.ino)) (l₁.getLastD 0) i.htNext).1 ip none)
    (hht : s'.htab = update s.htab (htBucket i.ino)
      (unhook Inode.setHtNext s.inode (s.htab (htBucket i.ino)) (l₁.getLastD 0) i.htNext).2)
    (hn : s'.inoNext = s.inoNext) : HtOk hp s' (update tab (htBucket i.ino) (l₁ ++ l₂)) := by
  have hchain := h.chain (htBucket i.ino)
  rw [hl] at hchain
  have hnot : ip ∉ l₁ ++ l₂ := (nodup_cons.mp (nodup_middle.mp hchain.nodup)).1
  have hmap : ∀ a, a ≠ ip → (s'.inode a).map Inode.ino = (s.inode a).map Inode.ino := fun a ha => by
    rw [hin, update_of_ne ha]
    exact unhook_map Inode.setHtNext Inode.ino (fun _ _ => rfl) ..
  have hgone : s'.inode ip = none := by rw [hin, update_self]
  have hback : ∀ a j', s'.inode a = some j' → a ≠ ip ∧ ∃ j, s.inode a = some j ∧ j.ino = j'.ino := fun a j' h' => by
    have ha : a ≠ ip := by grind
    exact ⟨ha, some_of_map_eq (hmap a ha) h'⟩
  refine ⟨fun b => ?_, fun b a => ?_, fun a j' hj' => ?_, fun a a' j' k' hj' hk' he => ?_, fun a j' hj' => ?_⟩
  · by_cases hb : b = htBucket i.ino
    · subst hb
      rw [hht, hin, update_self, update_self]
      exact (hchain.unhook (fun _ _ => rfl) hi).frame hnot _
    · rw [hht, hin, update_of_ne hb, update_of_ne hb]
      -- the chains are disjoint, so the object before `ip` is not in this one
      have hother : ∀ a ∈ tab b, a ≠ 0 ∧ a ∉ tab (htBucket i.ino) := fun a ha =>
        ⟨((h.chain b).alloc ha).1, by grind [h.bucket]⟩
      refine (h.chain b).congr fun a ha x hx => ⟨x, ?_, rfl⟩
      grind [unhook_of_ne]
  · have hmem : a ∈ update tab (htBucket i.ino) (l₁ ++ l₂) b ↔ a ≠ ip ∧ a ∈ tab b := by
      by_cases hb : b = htBucket i.ino
      · subst hb
        grind
      · rw [update_of_ne hb]
        refine ⟨fun ha => ⟨?_, ha⟩, And.right⟩
        grind [h.bucket]
    grind [h.bucket, some_of_map_eq]
  · obtain ⟨-, j, hj, he⟩ := hback a j' hj'
    rw [← he, hn]
    exact h.ino a j hj
  · grind [h.inj]
  · grind [h.pool]

end Table

/-! ## 4. The entry lists -/

/-- What an inode says about its entries. -/
def Inode.dir (i : Inode) : Nat × Nat × TmpfsType := (i.deHead, i.deCount, i.file.type)

section Dirs

variable {hp : Mm.HeapPool} {s s' : Sb} {ents : Nat → List Nat} {dir ip de c : Nat} {d : Inode}

theorem DirOk.congr (h : DirOk hp s ents) (hd : s'.dirent = s.dirent)
    (hi : ∀ a i', s'.inode a = some i' → ∃ i, s.inode a = some i ∧ i.dir = i'.dir) : DirOk hp s' ents := by
  have hdir : ∀ i i' : Inode, i.dir = i'.dir → i.deHead = i'.deHead ∧ i.deCount = i'.deCount ∧ i.file.type = i'.file.type :=
    fun i i' he => ⟨congrArg Prod.fst he, congrArg (·.2.1) he, congrArg (·.2.2) he⟩
  refine ⟨fun a i' hi' => ?_, fun a i' hi' => ?_, fun a a' i' j' x hi' hj' => ?_, fun a i' hi' hty => ?_,
    fun x e he => h.pool x e (hd ▸ he)⟩
  · grind [h.chain]
  · grind [h.count]
  · grind [h.apart]
  · grind [h.file]

theorem DirOk.alloc (h : DirOk hp s ents) (hd : s'.dirent = s.dirent)
    (hi : ∀ a i', s'.inode a = some i' → (a = ip ∧ i'.deHead = 0 ∧ i'.deCount = 0) ∨ (a ≠ ip ∧ s.inode a = some i')) :
    DirOk hp s' (update ents ip []) := by
  have hnil : Chain s.dirent Dirent.next 0 [] := rfl
  refine ⟨fun a i' hi' => ?_, fun a i' hi' => ?_, fun a a' i' j' x hi' hj' hx hx' => ?_, fun a i' hi' hty => ?_,
    fun x e he => h.pool x e (hd ▸ he)⟩
  · grind [h.chain]
  · grind [h.count]
  · grind [h.apart]
  · grind [h.file]

theorem DirOk.link (h : DirOk hp s ents) (hdir : s.inode dir = some d) (hty : d.file.type = .dir)
    (hf : s.dirent de = none) (h0 : de ≠ 0) (hpool : InPool hp de) {e : Dirent} (he : e.next = d.deHead)
    (hd : s'.dirent = update s.dirent de (some e))
    (hi : s'.inode = update s.inode dir (some { d with deHead := de, deCount := (d.deCount + 1) % 2 ^ 32 })) :
    DirOk hp s' (update ents dir (de :: ents dir)) := by
  have hnot : ∀ a i, s.inode a = some i → de ∉ ents a := by
    intro a i hi hm
    obtain ⟨e', he'⟩ := ((h.chain a i hi).alloc hm).2
    exact nomatch hf.symm.trans he'
  have hcount := h.count dir d hdir
  have hlen := h.ents_length hdir
  have hfuel : heapFuel = 16777217 := rfl
  refine ⟨fun a i' hi' => ?_, fun a i' hi' => ?_, fun a a' i' j' x hi' hj' hx hx' => ?_, fun a i' hi' hty' => ?_,
    fun x e' he' => ?_⟩
  · rw [hi] at hi'
    by_cases ha : a = dir
    · have := (h.chain dir d hdir).push h0 (hnot dir d hdir) he
      grind
    · have := (h.chain a i' (by grind)).frame (hnot a i' (by grind))
      grind
  · rw [hi] at hi'
    grind [h.count]
  · rw [hi] at hi' hj'
    grind [h.apart]
  · rw [hi] at hi'
    grind [h.file]
  · rw [hd] at he'
    grind [h.pool]

theorem DirOk.unlink (h : DirOk hp s ents) (hdir : s.inode dir = some d)
    (hl : ents dir = l₁ ++ c :: l₂) {e : Dirent} (he : s.dirent c = some e)
    (hd : s'.dirent = update (unhook Dirent.setNext s.dirent d.deHead (l₁.getLastD 0) e.next).1 c none)
    (hi : s'.inode = update s.inode dir (some { d with
      deHead := (unhook Dirent.setNext s.dirent d.deHead (l₁.getLastD 0) e.next).2
      deCount := (d.deCount + 2 ^ 32 - 1) % 2 ^ 32 })) :
    DirOk hp s' (update ents dir (l₁ ++ l₂)) := by
  have hchain := h.chain dir d hdir
  have hlen := h.ents_length hdir
  have hcount := h.count dir d hdir
  rw [hl] at hchain hlen hcount
  have hfuel : heapFuel = 16777217 := rfl
  have hnot : c ∉ l₁ ++ l₂ := (nodup_cons.mp (nodup_middle.mp hchain.nodup)).1
  obtain ⟨d', hd'⟩ : ∃ d', d' = { d with
    deHead := (unhook Dirent.setNext s.dirent d.deHead (l₁.getLastD 0) e.next).2
    deCount := (d.deCount + 2 ^ 32 - 1) % 2 ^ 32 } := ⟨_, rfl⟩
  rw [← hd'] at hi
  have hcases : ∀ a i', s'.inode a = some i' → (a = dir ∧ i' = d') ∨ (a ≠ dir ∧ s.inode a = some i') :=
    fun a i' hi' => of_update_some (hi ▸ hi')
  have hty : d'.file = d.file := by rw [hd']
  have hents : ∀ a x, x ∈ update ents dir (l₁ ++ l₂) a → x ∈ ents a := by grind
  refine ⟨fun a i' hi' => ?_, fun a i' hi' => ?_, fun a a' i' j' x hi' hj' hx hx' => ?_, fun a i' hi' hty' => ?_,
    fun x e' he' => ?_⟩
  · rcases hcases a i' hi' with ⟨rfl, rfl⟩ | ⟨ha, h1⟩
    · rw [update_self, hd, hd']
      exact (hchain.unhook (fun _ _ => rfl) he).frame hnot _
    · rw [update_of_ne ha, hd]
      -- the entry before `c` is the directory's, so it is not in this list
      have hother : ∀ x ∈ ents a, x ≠ 0 ∧ x ∉ ents dir := fun x hx =>
        ⟨((h.chain a i' h1).alloc hx).1, fun hx' => ha (h.apart a dir i' d x h1 hdir hx hx')⟩
      refine (h.chain a i' h1).congr fun x hx y hy => ⟨y, ?_, rfl⟩
      grind [unhook_of_ne]
  · grind [h.count]
  · clear hd'
    grind [h.apart]
  · clear hd'
    grind [h.file]
  · rw [hd] at he'
    by_cases hx : x = c
    · grind
    · rw [update_of_ne hx] at he'
      obtain ⟨y, hy, -⟩ := some_of_map_eq (unhook_map Dirent.setNext Dirent.ino (fun _ _ => rfl) ..) he'
      exact h.pool x y hy

end Dirs

/-! ## 5. The tree -/

def Dirent.label (e : Dirent) : Nat × Name := (e.ino, e.name)

section Tree

variable {s s' : Sb} {ents ents' : Nat → List Nat} {t : NameTree Nat Name} {dir ip de c : Nat} {name : Name}

theorem Sb.Names.congr {d : Nat} {x : Name × Nat} (h : s.Names d x)
    (hd : (s'.dirent d).map Dirent.label = (s.dirent d).map Dirent.label)
    (hi : (s'.inode x.2).map Inode.ino = (s.inode x.2).map Inode.ino) : s'.Names d x := by
  obtain ⟨e, i, h1, h2, h3, h4⟩ := h
  obtain ⟨e', h5, h6⟩ := some_of_map_eq hd.symm h1
  obtain ⟨i', h7, h8⟩ := some_of_map_eq hi.symm h3
  obtain ⟨h9, h10⟩ := Prod.mk.inj h6
  exact ⟨e', i', h5, h10.trans h2, h7, h9.trans (h4.trans h8.symm)⟩

theorem TreeOk.congr (h : TreeOk s ents t) (hr : s'.root = s.root) (hn : s'.nrInodes = s.nrInodes)
    (hd : ∀ d, (s'.dirent d).map Dirent.label = (s.dirent d).map Dirent.label)
    (hi : ∀ a, (s'.inode a).map Inode.ino = (s.inode a).map Inode.ino) : TreeOk s' ents t := by
  have hmem : ∀ a, (∃ i, s'.inode a = some i) ↔ ∃ i, s.inode a = some i := fun a => exists_some_congr (hi a)
  exact ⟨h.ok, h.root.trans hr.symm, fun a => (h.mem a).trans (hmem a).symm, hn.trans h.nr,
    fun a ha => (h.entries a ha).imp fun d x hx => hx.congr (hd d) (hi x.2), h.short⟩

theorem TreeOk.add (h : TreeOk s ents t) (hdir : dir ∈ t.nodes) (hf : s.inode ip = none) (hfree : s.dirent de = none)
    (hnew : name ∉ (t.kids dir).map Prod.fst) (hlen : name.length ≤ tmpfsNameMax)
    (hr : s'.root = s.root) (hn : s'.nrInodes = s.nrInodes + 1)
    (hd : ∀ d, d ≠ de → (s'.dirent d).map Dirent.label = (s.dirent d).map Dirent.label)
    (hi : ∀ a, a ≠ ip → (s'.inode a).map Inode.ino = (s.inode a).map Inode.ino)
    (hname : s'.Names de (name, ip)) (hents : ∀ a, a ≠ dir → a ≠ ip → ents' a = ents a)
    (hents1 : ents' dir = de :: ents dir) (hents2 : ents' ip = []) : TreeOk s' ents' (t.add dir name ip) := by
  have hip : ip ∉ t.nodes := by grind [h.mem]
  have hne : dir ≠ ip := fun he => hip (he ▸ hdir)
  have hold : ∀ a ∈ t.nodes, List.Forall₂ s'.Names (ents a) (t.kids a) := by
    intro a ha
    refine (h.entries a ha).imp fun d x hx => ?_
    obtain ⟨e, i, h1, -, h3, -⟩ := id hx
    exact hx.congr (hd d (by grind)) (hi x.2 (by grind))
  refine ⟨h.ok.add hdir hip hnew, h.root.trans hr.symm, fun a => ?_, ?_, fun a ha => ?_, fun a ha => ?_⟩
  · change a ∈ ip :: t.nodes ↔ _
    obtain ⟨-, i, -, -, h3, -⟩ := hname
    by_cases ha : a = ip
    · grind
    · rw [exists_some_congr (hi a ha), ← h.mem, mem_cons, or_iff_right ha]
  · rw [hn, h.nr]
    rfl
  · by_cases had : a = dir
    · subst had
      rw [hents1, NameTree.add_kids_self]
      exact .cons hname (hold a hdir)
    · by_cases hai : a = ip
      · rw [hai, hents2, NameTree.add_kids_new hne]
        exact .nil
      · rw [hents a had hai, NameTree.add_kids_of_ne had hai]
        exact hold a ((mem_cons.mp ha).resolve_left hai)
  · by_cases had : a = dir
    · subst had
      rw [NameTree.add_kids_self]
      exact forall_mem_cons.mpr ⟨hlen, h.short a hdir⟩
    · by_cases hai : a = ip
      · grind [NameTree.add_kids_new]
      · rw [NameTree.add_kids_of_ne had hai]
        exact h.short a ((mem_cons.mp ha).resolve_left hai)

theorem forall₂_imp_of_mem {R R' : α → β → Prop} {l : List α} {k : List β} (h : List.Forall₂ R l k)
    (hR : ∀ x ∈ l, ∀ y ∈ k, R x y → R' x y) : List.Forall₂ R' l k := by
  induction h with
  | nil => exact .nil
  | cons hxy _ ih =>
    refine .cons (hR _ mem_cons_self _ mem_cons_self hxy) (ih fun x hx y hy => ?_)
    grind

theorem forall₂_split {R : α → β → Prop} {l₁ l₂ : List α} {x : α} {k : List β}
    (h : List.Forall₂ R (l₁ ++ x :: l₂) k) :
    ∃ k₁ y k₂, k = k₁ ++ y :: k₂ ∧ List.Forall₂ R l₁ k₁ ∧ R x y ∧ List.Forall₂ R l₂ k₂ := by
  induction l₁ generalizing k with
  | nil =>
    obtain ⟨y, k₂, hxy, hk, rfl⟩ := List.forall₂_cons_left_iff.mp h
    exact ⟨[], y, k₂, rfl, .nil, hxy, hk⟩
  | cons a l₁ ih =>
    obtain ⟨b, k', hab, hk, rfl⟩ := List.forall₂_cons_left_iff.mp h
    obtain ⟨k₁, y, k₂, rfl, h1, h2, h3⟩ := ih hk
    exact ⟨b :: k₁, y, k₂, rfl, .cons hab h1, h2, h3⟩

theorem TreeOk.remove (h : TreeOk s ents t) (hdir : dir ∈ t.nodes) (hkid : (name, ip) ∈ t.kids dir)
    (hempty : ents ip = []) (hl : ents dir = l₁ ++ c :: l₂) (hc : s.Names c (name, ip))
    (hinj : ∀ a a' i i', s.inode a = some i → s.inode a' = some i' → i.ino = i'.ino → a = a')
    (hr : s'.root = s.root) (hn : s'.nrInodes + 1 = s.nrInodes)
    (hd : ∀ d, d ≠ c → (s'.dirent d).map Dirent.label = (s.dirent d).map Dirent.label)
    (hi : ∀ a, a ≠ ip → (s'.inode a).map Inode.ino = (s.inode a).map Inode.ino) (hgone : s'.inode ip = none)
    (hapart : ∀ a ∈ t.nodes, a ≠ dir → c ∉ ents a) (hnd : c ∉ l₁ ++ l₂) :
    TreeOk s' (update ents dir (l₁ ++ l₂)) (t.remove dir name ip) := by
  have hipn : ip ∈ t.nodes := (h.ok.kid dir hdir _ hkid).1
  have hkids : t.kids ip = [] := by
    have := h.entries ip hipn
    rw [hempty] at this
    exact List.forall₂_nil_left_iff.mp this
  have hnodes : ∀ a, a ∈ (t.remove dir name ip).nodes ↔ a ≠ ip ∧ a ∈ t.nodes := fun a => h.ok.nodup.mem_erase_iff
  -- entries other than `c` name other inodes than `ip`
  have hkeep : ∀ a ∈ t.nodes, ∀ d x, d ≠ c → x ∈ t.kids a → x ≠ (name, ip) → s.Names d x → s'.Names d x := by
    rintro a ha d ⟨m, b⟩ hdc hx hne hN
    refine hN.congr (hd d hdc) (hi b ?_)
    rintro rfl
    obtain ⟨-, rfl⟩ := h.ok.once a ha dir hdir m name b hx hkid
    exact hne rfl
  refine ⟨h.ok.remove hdir hkid hkids, h.root.trans hr.symm, fun a => ?_, ?_, fun a ha => ?_, fun a ha x hx => ?_⟩
  · rw [hnodes, h.mem]
    by_cases ha : a = ip
    · grind
    · rw [exists_some_congr (hi a ha), and_iff_right ha]
  · change s'.nrInodes = (t.nodes.erase ip).length
    grind [h.nr]
  · have ha' := ((hnodes a).mp ha).2
    by_cases had : a = dir
    · subst had
      rw [update_self]
      have hent := h.entries a ha'
      rw [hl] at hent
      obtain ⟨k₁, y, k₂, hk, h1, hy, h2⟩ := forall₂_split hent
      -- the child that `c` names is the one to go
      obtain rfl : y = (name, ip) := by
        obtain ⟨e, i, he, hname, hi1, hino⟩ := hc
        obtain ⟨e', i', he', hname', hi1', hino'⟩ := hy
        grind
      have hndk : (t.kids a).Nodup := (h.ok.names a ha').of_map
      rw [hk] at hndk
      have hnk : (name, ip) ∉ k₁ ++ k₂ := (nodup_cons.mp (nodup_middle.mp hndk)).1
      rw [NameTree.remove_kids_middle hk fun hm => hnk (mem_append_left _ hm)]
      refine forall₂_imp_of_mem (rel_append h1 h2) fun d hd1 x hx1 hN => ?_
      grind
    · rw [update_of_ne had, NameTree.remove_kids_of_ne had]
      refine forall₂_imp_of_mem (h.entries a ha') fun d hd1 x hx1 hN => ?_
      grind [h.ok.once]
  · exact h.short a ((hnodes a).mp ha).2 x (NameTree.mem_kids_of_remove hx)

end Tree

end Kobalt.Tmpfs

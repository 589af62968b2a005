/-
  Subject: WHO NAMES AN INODE. The entries of all directories as one table, the links of an inode as
  the references to it in that table (`Kobalt.Lib.Refs`), and what the calls on a directory do to
  the table.

  A call that has changed a link count, or taken an entry out, and has not yet done the other half
  holds a reference in its hand; `FS.links s l` counts those in `l` along.
-/
import Mathlib.Data.Finset.Prod
import Kobalt.Lib.Refs
import Kobalt.Flatfs.Remove
import Kobalt.Flatfs.Truncate

namespace Kobalt.Flatfs

open Function Finset

variable {name : Text} {L : Nat → Bytes}

/-! ## 1. The table of entries -/

instance (s : FS) (dir : Nat) : Decidable (HasRoot s dir) := inferInstanceAs (Decidable (_ ∧ _))

/-- The places of entries in a directory: bucket and position in the leaf. -/
def positions : Finset (Nat × Nat) := range 256 ×ˢ range 32

theorem mem_positions {b i : Nat} : (b, i) ∈ positions ↔ b < 256 ∧ i < 32 := by
  rw [positions, mem_product, mem_range, mem_range]

theorem card_positions : positions.card = 8192 := by
  rw [positions, card_product, card_range, card_range]

attribute [irreducible] positions

/-- The places of entries, with the directory. -/
def FS.places (s : FS) : Finset (Nat × Nat × Nat) := range s.super.totalInodes ×ˢ positions

/-- **The inode an entry names**, 0 for a free one. -/
def FS.entry (s : FS) (p : Nat × Nat × Nat) : Nat :=
  if HasRoot s p.1 then deIno (leafBytes s p.1 p.2.1) p.2.2 else 0

/-- **The links of an inode**: the entries that name it, and the references in hand. -/
def FS.links (s : FS) (l : List Nat) (x : Nat) : Nat := refs s.places s.entry l x

/-- The entries of a directory in use. -/
def FS.usedEntries (s : FS) (dir : Nat) : Nat :=
  refs positions (fun q => decide (s.entry (dir, q) ≠ 0)) [] true

/-- The free slots of the inode table; slot 0 is never given out. -/
def FS.freeSlots (s : FS) : Nat :=
  refs ((range s.super.totalInodes).erase 0) (fun x => decide ((s.inode x).inodeMagic = 0)) []
    true

section Table

variable {s s' : FS} {dir : Nat}

theorem mem_places {d : Nat} {q : Nat × Nat} : (d, q) ∈ s.places ↔ d < s.super.totalInodes ∧ q ∈ positions := by
  simp [FS.places]

theorem DirStep.hasRoot_iff (h : DirStep s dir L n s') (x : Nat) : HasRoot s' x ↔ HasRoot s x := by
  have hr : s'.val (.hroot x) = s.val (.hroot x) := h.val _ (by simp)
  unfold HasRoot
  rw [hr]
  refine and_congr_right fun h0 => ?_
  by_cases hx : x = dir
  · subst hx
    rw [h.magic]
  grind [h.blk, Slot.ofDir]

theorem DirStep.entry_eq (h : DirStep s dir L n s') (hR : HasRoot s dir)
    {d b i : Nat} (hb : b < 256) :
    s'.entry (d, b, i) = if d = dir then deIno (L b) i else s.entry (d, b, i) := by
  unfold FS.entry
  dsimp only
  rw [if_congr (h.hasRoot_iff d) rfl rfl]
  by_cases hd : d = dir
  · subst hd
    rw [if_pos hR, if_pos rfl, h.leaf b hb]
  · rw [if_neg hd, h.leafBytes_other hd]

end Table

/-! ## 2. One entry is written -/

/-- **The entry `q` of directory `dir` becomes `v`**, the count follows, and at most the inode of
    the directory is stored anew. -/
structure EntrySet (s : FS) (dir : Nat) (q : Nat × Nat) (v : Nat) (s' : FS) : Prop where
  step : ∃ L n, DirStep s dir L n s'
  root : HasRoot s dir
  mem : q ∈ positions
  entry : ∀ p ∈ s.places, s'.entry p = update s.entry (dir, q) v p
  count : u32 (s'.dirCount dir + if s.entry (dir, q) = 0 then 0 else 1) =
    u32 (s.dirCount dir + if v = 0 then 0 else 1)

section Write

variable {s s' : FS} {dir : Nat}

theorem dirCount_lt (s : FS) (dir : Nat) : s.dirCount dir < 4294967296 := by
  have := leAt_lt (s.blk (s.val (.hroot dir))) 4 4
  unfold FS.dirCount rtCount
  omega

theorem entry_of_leaf (hR : HasRoot s dir) {b i : Nat} {c : Bytes}
    (hc : ∀ x, x < 128 * i ∨ 128 * i + 128 ≤ x → c x = leafBytes s dir b x)
    (hstep : DirStep s dir (update (leafBytes s dir) b c) n s') :
    ∀ p ∈ s.places, s'.entry p = update s.entry (dir, b, i) (deIno c i) p := by
  intro p hp
  obtain ⟨d, b', j⟩ := p
  obtain ⟨hb', -⟩ := mem_positions.mp (mem_places.mp hp).2
  rw [hstep.entry_eq hR hb']
  by_cases hd : d = dir
  swap
  · rw [if_neg hd, update_of_ne fun e => hd (Prod.mk.inj e).1]
  subst hd
  have hold : ∀ k, s.entry (d, b', k) = deIno (leafBytes s d b') k := fun k => if_pos hR
  rw [if_pos rfl]
  by_cases hbb : b' = b
  swap
  · rw [update_of_ne hbb, update_of_ne fun e => hbb (Prod.mk.inj (Prod.mk.inj e).2).1, hold]
  subst hbb
  rw [update_self]
  by_cases hj : j = i
  · rw [hj, update_self]
  grind [deEntry_congr]

/-- **How an insertion ends**: refused at once, refused with the directory's leaf made at most, or
    with a free entry written. -/
inductive InsertEnds (s : FS) (dir ino : Nat) : Done → Prop
  | refused (e : FlatfsErr) : e ≠ .ok → InsertEnds s dir ino (e, s)
  | kept (e : FlatfsErr) (s' : FS) : e ≠ .ok → EntrySet s dir (0, 0) (s.entry (dir, 0, 0)) s' →
      InsertEnds s dir ino (e, s')
  | put (s' : FS) (q : Nat × Nat) : s.entry (dir, q) = 0 → EntrySet s dir q ino s' →
      InsertEnds s dir ino (.ok, s')

/-- **How a removal ends.** -/
inductive RemoveEnds (s : FS) (dir : Nat) (name : Text) : Done → Prop
  | refused (e : FlatfsErr) : e ≠ .ok → RemoveEnds s dir name (e, s)
  | clear (s' : FS) (q : Nat × Nat) : s.entry (dir, q) ≠ 0 →
      flatfsHtreeLookup s dir name = .ok (s.entry (dir, q)) → EntrySet s dir q 0 s' →
      RemoveEnds s dir name (.ok, s')

/-- **`flatfs_htree_insert` on the table**, for a name that fits the entry it gets. -/
theorem flatfsHtreeInsert_ends (hW : Wf s) (hD : DirSelf s dir)
    {ino ftype : Nat} (h0 : ino ≠ 0) (hino : ino < 256 ^ 8)
    (hn : ∀ i, FreeAt s dir name 0 i → fstrlen name nameMax ≤ 112) :
    ∃ r, flatfsHtreeInsert s dir name ino ftype = some r ∧ InsertEnds s dir ino r ∧
      (r.1 = .ok ↔ ∃ i, FreeAt s dir name 0 i) := by
  rcases flatfsHtreeInsert_cases name hW hD ino ftype with ⟨⟨e, s'⟩, he, hr, hok, -⟩ | ⟨-, i, hi, hout⟩
  swap
  · have h1 := hn i hi
    have h2 := fitIn_lt hi.fit
    omega
  refine ⟨_, he, ?_, hok⟩
  by_cases hR : HasRoot s dir
  swap
  · rw [flatfsHtreeInsert_corrupt hD.lt hR] at he
    obtain ⟨rfl, rfl⟩ := Prod.mk.inj (Option.some.inj he)
    exact .refused _ (by simp)
  have hkept : e ≠ .ok → DirStep s dir (leafBytes s dir) (s.dirCount dir) s' → InsertEnds s dir ino (e, s') := by
    intro hne hstep
    refine .kept e s' hne ⟨⟨_, _, hstep⟩, hR, mem_positions.mpr (by decide), fun p hp => ?_,
      by rw [hstep.dirCount]⟩
    obtain ⟨d, b, i⟩ := p
    rw [update_eq_self, hstep.entry_eq hR (mem_positions.mp (mem_places.mp hp).2).1]
    split
    · rename_i hd
      subst hd
      exact (if_pos hR).symm
    · rfl
  cases hr with
  | corrupt h => exact absurd hR h
  | tooLong => exact .refused _ (by simp)
  | noRoom => exact .refused _ (by simp)
  | full _ _ hstep => exact hkept (by simp) hstep
  | found _ _ _ _ hstep => exact hkept (by simp) hstep
  | put _ i hs hi hstep =>
    have hi32 : i < 32 := fitIn_lt hs
    obtain ⟨j, hj⟩ := hok.1 rfl
    have hlen := hn j hj
    have hfree : s.entry (dir, callHash name / 16777216, i) = 0 := (if_pos hR).trans hi
    refine .put s' (callHash name / 16777216, i) hfree ⟨⟨_, _, hstep⟩, hR, ?_, ?_, ?_⟩
    · exact mem_positions.mpr ⟨callHash_lt name, hi32⟩
    · have := entry_of_leaf hR (fun x hx => putDirent_outside hlen hx) hstep
      rwa [deIno_putDirent hino] at this
    · rw [hstep.dirCount, if_pos hfree, if_neg h0]
      unfold u32
      omega

theorem flatfsHtreeRemove_ends (hW : Wf s) (hD : DirSelf s dir) (name : Text) :
    RemoveEnds s dir name (flatfsHtreeRemove s dir name) := by
  have hr := flatfsHtreeRemove_outcome name hW hD
  generalize hq : flatfsHtreeRemove s dir name = r at hr
  cases hr with
  | corrupt => exact .refused _ (by simp)
  | absent => exact .refused _ (by simp)
  | clear s' i hs hstep =>
    have hi32 : i < 32 := List.mem_range.1 (List.mem_of_find?_eq_some hs)
    have hm := List.find?_some hs
    have hR : HasRoot s dir := by
      by_contra hR
      rw [flatfsHtreeRemove_corrupt hD.lt hR] at hq
      cases hq
    have hold : s.entry (dir, callHash name / 16777216, i) = deIno (callLeaf s dir name) i := if_pos hR
    have hused : s.entry (dir, callHash name / 16777216, i) ≠ 0 := by
      simp only [deMatches, Bool.and_eq_true, bne_iff_ne] at hm
      rw [hold]
      exact hm.1.1.1
    refine .clear s' (callHash name / 16777216, i) hused ?_
      ⟨⟨_, _, hstep⟩, hR, mem_positions.mpr ⟨callHash_lt name, hi32⟩, ?_, ?_⟩
    · rw [flatfsHtreeLookup_eq hD.lt hR, hs, hold]
    · have := entry_of_leaf (c := fill (callLeaf s dir name) (128 * i) 128 fun _ => 0) hR
        (fun x hx => fill_of_not_mem hx) hstep
      grind [deIno, leAt_eq_zero, fill_of_mem]
    · rw [hstep.dirCount, if_neg hused, if_pos rfl]
      grind [u32]

end Write

/-! ## 3. The books -/

/-- **The books are right**, with the references `l` in hand. -/
structure Booked (s : FS) (l : List Nat) : Prop where
  tree : TreeOk s
  rootDir : sIsDir (s.inode s.super.rootIno).mode = true
  plain : ∀ x, s.IsDir x → sIsDir (s.inode x).mode = true ∧ (s.inode x).flags &&& flSymlinkInln = 0
  nlink : ∀ x, s.Live x → sIsDir (s.inode x).mode = false → (s.inode x).nlink = s.links l x
  small : ∀ x, s.Live x → (s.inode x).nlink < 65536
  /-- every inode but the root has a name -/
  held : ∀ x, s.Live x → x ≠ s.super.rootIno → 0 < s.links l x
  hand : ∀ x ∈ l, s.Live x
  count : ∀ x, s.IsDir x → s.dirCount x = s.usedEntries x
  free : s.super.freeInodes = s.freeSlots

/-- The fields a call on a directory leaves alone. -/
structure SameInode (i j : Inode) : Prop where
  ino : j.ino = i.ino
  magic : j.inodeMagic = i.inodeMagic
  mode : j.mode = i.mode
  nlink : j.nlink = i.nlink
  flags : j.flags = i.flags
  hroot : j.dirHtreeBlk = i.dirHtreeBlk

theorem SameInode.refl (i : Inode) : SameInode i i := ⟨rfl, rfl, rfl, rfl, rfl, rfl⟩

theorem SameInode.crc (i : Inode) (c : Nat) : SameInode i { i with crc32 := c } :=
  ⟨rfl, rfl, rfl, rfl, rfl, rfl⟩

theorem SameInode.stored (i : Inode) : SameInode i i.stored := .crc i (inodeCrc i)

theorem SameInode.sized (i : Inode) (n : Nat) : SameInode i (Inode.stored { i with size := n }) :=
  let h := SameInode.stored { i with size := n }
  ⟨h.ino, h.magic, h.mode, h.nlink, h.flags, h.hroot⟩

theorem flatfsInodeRead_congr {t t' : FS} {x : Nat} (hi : t'.inode x = t.inode x)
    (hs : t'.super.totalInodes = t.super.totalInodes) : flatfsInodeRead t' x = flatfsInodeRead t x := by
  unfold flatfsInodeRead
  rw [hi, hs]

section Stored

variable {s t : FS} {x d : Nat} {l l' : List Nat} {q : Nat × Nat}

/-- An inode that can be read is as `flatfs_inode_write` stores it. -/
theorem TreeOk.stored (hT : TreeOk s) (hx : s.Live x) :
    (s.inode x).inodeMagic = inodeMagicValue ∧ (s.inode x).stored = s.inode x := by
  have hr := hT.read x hx
  unfold flatfsInodeRead at hr
  have hx0 := hT.pos hx
  have hlt := hx.1
  rw [if_neg (by omega)] at hr
  dsimp only at hr
  rw [if_neg hx.2] at hr
  split at hr
  · cases hr
  rename_i hm
  split at hr
  · rename_i hc
    refine ⟨not_not.1 hm, ?_⟩
    unfold Inode.stored
    rw [hc]
  · cases hr

theorem TreeOk.entry_live (hT : TreeOk s) (hd : d < s.super.totalInodes) (hq : q ∈ positions)
    (hu : s.entry (d, q) ≠ 0) : s.Live (s.entry (d, q)) := by
  obtain ⟨b, i⟩ := q
  obtain ⟨hb, hi⟩ := mem_positions.mp hq
  have hR : HasRoot s d := by
    by_contra hR
    exact hu (if_neg hR)
  rw [show s.entry (d, b, i) = deIno (leafBytes s d b) i from if_pos hR] at hu ⊢
  exact hT.entry d (hT.isDir hd hR) b hb i hi hu

theorem freeSlots_update (hlt : x < s.super.totalInodes) (h0 : x ≠ 0) {i : Inode}
    (hin : t.inode = update s.inode x i) (hs : t.super.totalInodes = s.super.totalInodes) :
    t.freeSlots + (if (s.inode x).inodeMagic = 0 then 1 else 0) =
      s.freeSlots + if i.inodeMagic = 0 then 1 else 0 := by
  have hmem : x ∈ (range s.super.totalInodes).erase 0 :=
    mem_erase.mpr ⟨h0, mem_range.mpr hlt⟩
  have hset : ∀ y ∈ (range s.super.totalInodes).erase 0, decide ((t.inode y).inodeMagic = 0) =
      update (fun y => decide ((s.inode y).inodeMagic = 0)) x (decide (i.inodeMagic = 0)) y := by
    intro y _
    rw [hin]
    by_cases hy : y = x
    · rw [hy, update_self, update_self]
    · rw [update_of_ne hy, update_of_ne hy]
  unfold FS.freeSlots
  rw [hs]
  simpa using refs_flip hmem hset

theorem Booked.stored {j : Inode} (hB : Booked s l) (hW : Wf t) (htot : t.super.totalInodes = s.super.totalInodes)
    (hri : t.super.rootIno = s.super.rootIno) (hin : t.inode = update s.inode x j.stored) (h0 : x ≠ 0)
    (hlt : x < s.super.totalInodes) (hself : j.ino = x) (hmag : j.inodeMagic = inodeMagicValue)
    (hlink : j.flags &&& flSymlinkInln ≠ 0 → j.size ≤ inlineMax)
    (hdir : x = s.super.rootIno → sIsDir j.mode = true) (hroot : ∀ y, HasRoot t y ↔ HasRoot s y)
    (hplain : HasRoot s x → sIsDir j.mode = true ∧ j.flags &&& flSymlinkInln = 0)
    (hent : ∀ p ∈ s.places, t.entry p ≠ 0 → s.Live (t.entry p))
    (hcount : ∀ y < s.super.totalInodes, HasRoot s y → t.dirCount y = t.usedEntries y)
    (hlinks : ∀ y, y ≠ x → y ≠ 0 → t.links l' y = s.links l y)
    (hnl : sIsDir j.mode = false → j.nlink = t.links l' x) (hsmall : j.nlink < 65536)
    (hheld : x ≠ s.super.rootIno → 0 < t.links l' x) (hhand : ∀ y ∈ l', y = x ∨ s.Live y)
    (hfree : t.super.freeInodes = s.super.freeInodes - if (s.inode x).inodeMagic = 0 then 1 else 0) :
    Booked t l' := by
  have hT := hB.tree
  have hat : t.inode x = j.stored := by rw [hin, update_self]
  have hoth : ∀ y, y ≠ x → t.inode y = s.inode y := fun y hy => by rw [hin, update_of_ne hy]
  have hu := SameInode.stored j
  have hm0 : j.stored.inodeMagic ≠ 0 := by
    rw [hu.magic, hmag]
    decide
  have hlive : ∀ y, t.Live y ↔ y = x ∨ s.Live y := by
    intro y
    unfold FS.Live
    rw [htot]
    by_cases hy : y = x
    · grind
    · rw [hoth y hy]
      simp [hy]
  have hold : ∀ y, t.Live y → y ≠ x → s.Live y ∧ t.links l' y = s.links l y := fun y hy hne =>
    have hl := ((hlive y).1 hy).resolve_left hne
    ⟨hl, hlinks y hne (hT.pos hl)⟩
  refine ⟨⟨hW, by rw [htot]; exact hT.total, ?_, fun y hy => ?_, fun y hy => ?_, fun y hy hy0 => ?_,
    fun y hy b hb i hi hne => ?_, fun y hy hf => ?_⟩, ?_, fun y hy => ?_, fun y hy hm => ?_,
    fun y hy => ?_, fun y hy hr => ?_, fun y hy => (hlive y).2 (hhand y hy), fun y hy => ?_, ?_⟩
  · rw [hlive, hri]
    exact .inr hT.root
  · by_cases hyx : y = x
    · grind [flatfsInodeRead_stored]
    · rw [flatfsInodeRead_congr (hoth y hyx) htot, hoth y hyx]
      exact hT.read y (hold y hy hyx).1
  · grind [hT.self, hu.ino]
  · grind [hT.free]
  · have he : t.entry (y, b, i) = deIno (leafBytes t y b) i := if_pos hy.2
    rw [← he] at hne ⊢
    exact (hlive _).2 (.inr (hent _ (mem_places.mpr ⟨htot ▸ hy.1.1, mem_positions.mpr ⟨hb, hi⟩⟩) hne))
  · by_cases hyx : y = x
    · rw [hyx, hat, hu.flags] at hf
      rw [hyx, hat, j.stored_upToCrc.size]
      exact hlink hf
    · rw [hoth y hyx] at hf ⊢
      exact hT.link y (hold y hy hyx).1 hf
  · grind [hB.rootDir, hu.mode]
  · have hR := (hroot y).1 hy.2
    by_cases hyx : y = x
    · rw [hyx, hat, hu.mode, hu.flags]
      exact hplain (hyx ▸ hR)
    · rw [hoth y hyx]
      exact hB.plain y ⟨(hold y hy.1 hyx).1, hR⟩
  · grind [hB.nlink, hu.mode, hu.nlink]
  · by_cases hyx : y = x
    · rw [hyx, hat, hu.nlink]
      exact hsmall
    · rw [hoth y hyx]
      exact hB.small y (hold y hy hyx).1
  · rw [hri] at hr
    by_cases hyx : y = x
    · exact hyx ▸ hheld (hyx ▸ hr)
    · rw [(hold y hy hyx).2]
      exact hB.held y (hold y hy hyx).1 hr
  · exact hcount y (htot ▸ hy.1.1) ((hroot y).1 hy.2)
  · have hf := freeSlots_update hlt h0 hin htot
    rw [if_neg hm0] at hf
    grind [hB.free]

end Stored

section Set

variable {s s' : FS} {dir v : Nat} {q : Nat × Nat}

variable (h : EntrySet s dir q v s')
include h

theorem EntrySet.other {x : Nat} (hx : x ≠ dir) : s'.inode x = s.inode x := by
  obtain ⟨L, n, hstep⟩ := h.step
  exact hstep.other x hx

theorem EntrySet.same (x : Nat) : SameInode (s.inode x) (s'.inode x) := by
  by_cases hx : x = dir
  · subst hx
    obtain ⟨L, n, hstep⟩ := h.step
    rcases hstep.inode with hi | ⟨n, hi⟩
    · rw [hi]
      exact .refl _
    · rw [hi, update_self]
      exact .sized _ n
  · rw [h.other hx]
    exact .refl _

theorem EntrySet.super : s'.super = { s.super with freeBlocks := s'.super.freeBlocks } := by
  obtain ⟨L, n, hstep⟩ := h.step
  exact hstep.super

theorem EntrySet.live (x : Nat) : s'.Live x ↔ s.Live x := by
  unfold FS.Live
  rw [h.super, (h.same x).magic]

theorem EntrySet.places : s'.places = s.places := by
  unfold FS.places
  rw [h.super]

theorem EntrySet.links (hd : dir < s.super.totalInodes) (l : List Nat) (a : Nat) :
    s'.links (s.entry (dir, q) :: l) a = s.links (v :: l) a := by
  have hmem : (dir, q) ∈ s.places := mem_places.mpr ⟨hd, h.mem⟩
  unfold FS.links
  rw [h.places, refs_congr h.entry]
  exact refs_store hmem v l a

theorem EntrySet.usedEntries (hd : dir < s.super.totalInodes) :
    s'.usedEntries dir + (if s.entry (dir, q) = 0 then 0 else 1) =
      s.usedEntries dir + if v = 0 then 0 else 1 := by
  have hset : ∀ p ∈ positions, decide (s'.entry (dir, p) ≠ 0) =
      update (fun p => decide (s.entry (dir, p) ≠ 0)) q (decide (v ≠ 0)) p := by
    intro p hp
    rw [h.entry (dir, p) (mem_places.mpr ⟨hd, hp⟩)]
    by_cases hpq : p = q
    · rw [hpq, update_self, update_self]
    · rw [update_of_ne hpq, update_of_ne fun e => hpq (Prod.mk.inj e).2]
  have hcond : ∀ n : Nat, (if decide (n ≠ 0) = true then 1 else 0) = if n = 0 then 0 else 1 := by
    intro n
    by_cases hn : n = 0 <;> simp [hn]
  have hflip := refs_flip h.mem hset
  rw [hcond, hcond] at hflip
  exact hflip

omit h in
theorem usedEntries_le (s : FS) (x : Nat) : s.usedEntries x ≤ 8192 := by
  grind [FS.usedEntries, refs, card_positions]

theorem EntrySet.count_eq (hd : dir < s.super.totalInodes) (hc : s.dirCount dir = s.usedEntries dir) :
    s'.dirCount dir = s'.usedEntries dir := by grind [h.count, h.usedEntries, usedEntries_le, dirCount_lt, u32]

theorem EntrySet.count_other {x : Nat} (hx : x ≠ dir) (hR : HasRoot s x) (hlt : x < s.super.totalInodes) :
    s'.dirCount x = s.dirCount x ∧ s'.usedEntries x = s.usedEntries x := by
  obtain ⟨L, n, hstep⟩ := h.step
  constructor
  · unfold FS.dirCount
    rw [hstep.val _ (by simp), hstep.blk (.hroot x) (by simpa [Slot.ofDir] using hx) hR.1]
  · refine refs_congr fun p hp => ?_
    rw [h.entry (x, p) (mem_places.mpr ⟨hlt, hp⟩), update_of_ne fun e => hx (Prod.mk.inj e).1]

theorem EntrySet.booked {l l' : List Nat} (hB : Booked s l) (hd : s.Live dir)
    (hv : v = 0 ∨ s.Live v) (hlinks : ∀ a, a ≠ 0 → s'.links l' a = s.links l a)
    (hhand : ∀ x ∈ l', s.Live x) : Booked s' l' := by
  have hsup := h.super
  obtain ⟨L, n, hstep⟩ := h.step
  have hT := hB.tree
  obtain ⟨n, hin⟩ : ∃ n, s'.inode = update s.inode dir (Inode.stored { s.inode dir with size := n }) := by
    rcases hstep.inode with hi | hi
    · exact ⟨(s.inode dir).size, by rw [hi, show Inode.stored _ = _ from (hT.stored hd).2, update_eq_self]⟩
    · exact hi
  have hplain := hB.plain dir ⟨hd, h.root⟩
  have hcl := hlinks dir (hT.pos hd)
  refine hB.stored hstep.wf (by rw [hsup]) (by rw [hsup]) hin (hT.pos hd) hd.1 (hT.self _ hd) (hT.stored hd).1
    (fun hf => absurd hplain.2 hf) (fun _ => hplain.1) hstep.hasRoot_iff (fun _ => hplain) (fun p hp hu => ?_)
    (fun x hlt hR => ?_) (fun x _ h0 => hlinks x h0) (fun hm => (hB.nlink _ hd hm).trans hcl.symm) (hB.small _ hd)
    (fun hr => hcl ▸ hB.held _ hd hr) (fun x hx => .inr (hhand x hx)) (by rw [if_neg hd.2, hsup]; rfl)
  · rw [h.entry p hp] at hu ⊢
    by_cases hpq : p = (dir, q)
    · rw [hpq, update_self] at hu ⊢
      exact hv.resolve_left hu
    · rw [update_of_ne hpq] at hu ⊢
      exact hT.entry_live (mem_places.mp hp).1 (mem_places.mp hp).2 hu
  · have hc := hB.count x (hT.isDir hlt hR)
    by_cases hxd : x = dir
    · subst hxd
      exact h.count_eq hlt hc
    · grind [h.count_other]

end Set

/-! ## 4. The table as the calls change it -/

section Calls

variable {s s' : FS} {dir x : Nat} {q : Nat × Nat} {l : List Nat}

theorem links_cons_of_ne {a : Nat} (h : x ≠ a) : s.links (x :: l) a = s.links l a :=
  refs_cons_of_ne h

theorem links_cons_self : s.links (x :: l) x = s.links l x + 1 := refs_cons_self

theorem Booked.put (hB : Booked s (x :: l)) (hd : s.Live dir) (hq : s.entry (dir, q) = 0)
    (h : EntrySet s dir q x s') : Booked s' l := by
  refine h.booked hB hd (.inr (hB.hand x (List.mem_cons_self ..))) (fun a ha => ?_)
    fun y hy => hB.hand y (List.mem_cons_of_mem _ hy)
  rw [← h.links hd.1, hq, links_cons_of_ne (Ne.symm ha)]

theorem Booked.take (hB : Booked s l) (hd : s.Live dir) (hq : s.entry (dir, q) ≠ 0)
    (h : EntrySet s dir q 0 s') : Booked s' (s.entry (dir, q) :: l) := by
  refine h.booked hB hd (.inl rfl) (fun a ha => ?_) fun y hy => ?_
  · rw [h.links hd.1, links_cons_of_ne (Ne.symm ha)]
  grind [hB.tree.entry_live, hd.1, h.mem, hB.hand]

theorem Booked.keep (hB : Booked s l) (hd : s.Live dir)
    (h : EntrySet s dir q (s.entry (dir, q)) s') : Booked s' l := by
  refine h.booked hB hd ?_ (fun a ha => ?_) hB.hand
  · grind [hB.tree.entry_live, hd.1, h.mem]
  · have := h.links hd.1 l a
    grind [FS.links, refs_cons]

theorem TreeOk.dirSelf_of_root (hT : TreeOk s) (hlt : dir < s.super.totalInodes)
    (hR : HasRoot s dir) : DirSelf s dir := hT.dirSelf (hT.isDir hlt hR).1

/-- **`flatfs_dir_insert` of a reference in hand**: if it succeeds the hand is empty. -/
theorem Booked.dirInsert (hB : Booked s (x :: l)) (hlt : dir < s.super.totalInodes)
    (hn : ∀ i, FreeAt s dir name 0 i → fstrlen name nameMax ≤ 112)
    (ftype : Nat) : ∃ r, flatfsDirInsert s dir name x ftype = some r ∧
      (r.1 = .ok ↔ ∃ i, FreeAt s dir name 0 i) ∧
      (r.1 = .ok → Booked r.2 l) ∧ (r.1 ≠ .ok → Booked r.2 (x :: l)) ∧
      (∀ z, SameInode (s.inode z) (r.2.inode z)) ∧ (∀ z, z ≠ dir → r.2.inode z = s.inode z) ∧
      ∀ z, r.2.Live z ↔ s.Live z := by
  have hx := hB.hand x (List.mem_cons_self ..)
  unfold flatfsDirInsert
  rw [if_pos hlt]
  by_cases hR : HasRoot s dir
  swap
  · exact ⟨_, flatfsHtreeInsert_corrupt hlt hR x ftype, ⟨fun h => (by cases h), fun ⟨i, hi⟩ => absurd hi.root hR⟩,
      fun h => (by cases h), fun _ => hB, fun z => .refl _, fun _ _ => rfl, fun _ => Iff.rfl⟩
  have hd := hB.tree.isDir hlt hR
  obtain ⟨r, hr, hends, hiff⟩ : ∃ r, flatfsHtreeInsert s dir name x ftype = some r ∧ _ ∧ _ :=
    flatfsHtreeInsert_ends hB.tree.wf (hB.tree.dirSelf_of_root hlt hR) (hB.tree.pos hx) (hx.1.trans hB.tree.total) hn
  refine ⟨r, hr, hiff, ?_⟩
  cases hends with
  | refused e he =>
    exact ⟨fun h => absurd h he, fun _ => hB, fun z => .refl _, fun _ _ => rfl, fun _ => Iff.rfl⟩
  | kept e s' he hset =>
    exact ⟨fun h => absurd h he, fun _ => hB.keep hd.1 hset, hset.same, fun z hz => hset.other hz,
      hset.live⟩
  | put s' q hq hset =>
    exact ⟨fun _ => hB.put hd.1 hq hset, fun h => absurd rfl h, hset.same,
      fun z hz => hset.other hz, hset.live⟩

theorem Booked.dirRemove (hB : Booked s l) (hlt : dir < s.super.totalInodes) (name : Text) :
    ∃ r, flatfsDirRemove s dir name = some r ∧ (r.1 ≠ .ok → r.2 = s) ∧
      (r.1 = .ok → ∃ q, flatfsHtreeLookup s dir name = .ok (s.entry (dir, q)) ∧ s.IsDir dir ∧
        Booked r.2 (s.entry (dir, q) :: l) ∧ EntrySet s dir q 0 r.2) := by
  unfold flatfsDirRemove
  rw [if_pos hlt]
  refine ⟨_, rfl, ?_⟩
  by_cases hR : HasRoot s dir
  swap
  · grind [flatfsHtreeRemove_corrupt]
  have hd := (hB.tree.isDir hlt hR).1
  have hends := flatfsHtreeRemove_ends hB.tree.wf (hB.tree.dirSelf_of_root hlt hR) name
  generalize flatfsHtreeRemove s dir name = r at hends
  cases hends with
  | refused e he => exact ⟨fun _ => rfl, fun h => absurd h he⟩
  | clear s' q hq hlook hset =>
    exact ⟨fun h => absurd rfl h, fun _ => ⟨_, hlook, ⟨hd, hR⟩, hB.take hd hq hset, hset⟩⟩

end Calls

/-! ## 5. Inodes as the calls change them -/

section Inodes

variable {s t : FS} {x : Nat} {l : List Nat}

theorem DirsKept.entry_eq (h : DirsKept s t) : t.entry = s.entry := by grind [FS.entry, h.hasRoot, h.leafBytes]

theorem DirsKept.usedEntries (h : DirsKept s t) (y : Nat) : t.usedEntries y = s.usedEntries y := by
  unfold FS.usedEntries
  rw [h.entry_eq]

theorem DirsKept.dirCount (h : DirsKept s t) {y : Nat} (hR : HasRoot s y) : t.dirCount y = s.dirCount y := by
  unfold FS.dirCount
  rw [h.hroot, h.root y hR.1]

theorem DirsKept.links (h : DirsKept s t) (hs : t.super.totalInodes = s.super.totalInodes)
    (l : List Nat) (a : Nat) : t.links l a = s.links l a := by
  unfold FS.links FS.places
  rw [h.entry_eq, hs]

theorem Booked.links_of_not_live (hB : Booked s l) (h : ¬ s.Live x) (h0 : x ≠ 0) : s.links l x = 0 := by
  by_contra hne
  unfold FS.links refs at hne
  rcases Nat.eq_zero_or_pos (s.places.filter fun p => s.entry p = x).card with hz | hpos
  · rw [hz, Nat.zero_add] at hne
    grind [hB.hand]
  · obtain ⟨⟨d, q⟩, hp⟩ := card_pos.mp hpos
    obtain ⟨hmem, he⟩ := mem_filter.mp hp
    obtain ⟨hd, hq⟩ := mem_places.mp hmem
    grind [hB.tree.entry_live]

/-- **An inode is stored anew**: the same kind of inode, with the links the new list says. -/
structure Restored (s : FS) (x : Nat) (j : Inode) (t : FS) : Prop where
  inode : t.inode = update s.inode x j.stored
  kept : DirsKept s t
  wf : Wf t
  super : t.super = { s.super with freeBlocks := t.super.freeBlocks }
  self : j.ino = x
  magic : j.inodeMagic = (s.inode x).inodeMagic
  mode : j.mode = (s.inode x).mode
  flags : j.flags = (s.inode x).flags
  hroot : j.dirHtreeBlk = (s.inode x).dirHtreeBlk
  link : j.flags &&& flSymlinkInln ≠ 0 → j.size ≤ inlineMax

section Restored

variable {j : Inode} (h : Restored s x j t)
include h

theorem Restored.booked {l' : List Nat} (hB : Booked s l) (hx : s.Live x) (hsmall : j.nlink < 65536)
    (hnl : sIsDir (s.inode x).mode = false → j.nlink = s.links l' x)
    (hheld : x ≠ s.super.rootIno → 0 < s.links l' x)
    (hlinks : ∀ a, a ≠ x → s.links l' a = s.links l a) (hhand : ∀ y ∈ l', s.Live y) : Booked t l' := by
  have hT := hB.tree
  have hlk := h.kept.links (by rw [h.super]) l'
  refine hB.stored h.wf (by rw [h.super]) (by rw [h.super]) h.inode (hT.pos hx) hx.1 h.self
    (h.magic.trans (hT.stored hx).1) h.link (fun e => ?_) h.kept.hasRoot (fun hR => ?_) (fun p hp hu => ?_)
    (fun y hlt hR => ?_) (fun y hy _ => (hlk y).trans (hlinks y hy)) (fun hm => ?_) hsmall
    (fun hr => by rw [hlk]; exact hheld hr) (fun y hy => .inr (hhand y hy)) (by rw [if_neg hx.2, h.super]; rfl)
  · rw [h.mode, e]
    exact hB.rootDir
  · rw [h.mode, h.flags]
    exact hB.plain x ⟨hx, hR⟩
  · rw [h.kept.entry_eq] at hu ⊢
    exact hT.entry_live (mem_places.mp hp).1 (mem_places.mp hp).2 hu
  · rw [h.kept.dirCount hR, h.kept.usedEntries]
    exact hB.count y (hT.isDir hlt hR)
  · rw [hlk]
    exact hnl (h.mode ▸ hm)

end Restored

/-- **A new inode**, not a directory, with the one link its creator has in hand. -/
theorem Booked.fresh (hB : Booked s l) {j : Inode} (hj : NewInode s j) :
    Booked ((s.tookInode j.ino).over j.stored) (j.ino :: l) := by
  have hT := hB.tree
  have hp := hj.prepared hT
  generalize ht : (s.tookInode j.ino).over j.stored = t
  have hin : t.inode = update s.inode j.ino j.stored := by
    rw [← ht]
    show update s.inode j.stored.ino j.stored = _
    rw [(SameInode.stored j).ino]
  have hsup : t.super = { s.super with freeInodes := s.super.freeInodes - 1 } := by rw [← ht]; rfl
  rw [ht] at hp
  have hnew : ¬ s.Live j.ino := fun h => h.2 hj.unused
  have hlk := hp.kept.links hp.total (j.ino :: l)
  -- the new inode is no directory
  have hno : ¬ HasRoot s j.ino := fun hR => hnew (hT.isDir hj.lt hR).1
  refine hB.stored hp.wf hp.total (by rw [hsup]) hin hj.pos hj.lt rfl hj.magic hj.link
    (fun e => absurd (e ▸ hT.root) hnew) hp.kept.hasRoot (fun hR => absurd hR hno) (fun p hm hu => ?_)
    (fun y hy hR => ?_) (fun y hy _ => (hlk y).trans (links_cons_of_ne (Ne.symm hy))) (fun _ => ?_)
    (by rw [hj.nlink]; decide) (fun _ => ?_) (fun y hy => (List.mem_cons.1 hy).imp id (hB.hand y))
    (by rw [if_pos hj.unused, hsup])
  · rw [hp.kept.entry_eq] at hu ⊢
    exact hT.entry_live (mem_places.mp hm).1 (mem_places.mp hm).2 hu
  · rw [hp.kept.dirCount hR, hp.kept.usedEntries]
    exact hB.count y (hT.isDir hy hR)
  · rw [hlk, hj.nlink, links_cons_self, hB.links_of_not_live hnew hj.pos]
  · rw [hlk, links_cons_self]
    omega

/-- The inode a slot belongs to. -/
def Slot.inode : Slot → Nat
  | .ptr x _ | .ind x _ | .dbl x _ | .dblInd x _ _ | .hroot x | .hleaf x _ => x

/-- **An inode is given back** with whatever it held: its blocks may have been given back too. -/
structure Freed (s : FS) (x : Nat) (t : FS) : Prop where
  inode : t.inode = update s.inode x {}
  blk : t.blk = s.blk
  inv : AllocInv t
  super : t.super = { s.super with freeBlocks := t.super.freeBlocks, freeInodes := u64 (s.super.freeInodes + 1) }
  alloc : ∀ a : Slot, a.inode ≠ x → s.val a ≠ 0 → t.Allocated (s.val a)

section Freed

variable (h : Freed s x t)
include h

theorem Freed.val (a : Slot) : t.val a = if a.inode = x then 0 else s.val a := by
  have hroot : ∀ y k, rootPtr t y k = if y = x then 0 else rootPtr s y k := by
    intro y k
    unfold rootPtr
    rw [h.inode, h.super]
    by_cases hy : y = x
    · rw [hy, update_self, if_pos rfl, if_neg]
      rintro ⟨-, hm, -⟩
      cases hm
    · rw [update_of_ne hy, if_neg hy]
  have hht : ∀ y, htreeBlk t y = if y = x then 0 else htreeBlk s y := by
    intro y
    unfold htreeBlk
    rw [h.inode, h.super]
    by_cases hy : y = x
    · grind
    · rw [update_of_ne hy, if_neg hy]
  have hw : ∀ p k, wordOf t p k = wordOf s p k := fun p k => by unfold wordOf; rw [h.blk]
  have hc : ∀ p k, childOf t p k = childOf s p k := fun p k => by unfold childOf; rw [h.blk]
  have hw0 : ∀ k, wordOf s 0 k = 0 := fun k => by simp [wordOf]
  cases a with
  | ptr y k => exact hroot y k
  | hroot y => exact hht y
  | ind y k =>
    show wordOf t (rootPtr t y 10) k = if y = x then 0 else wordOf s (rootPtr s y 10) k
    grind
  | dbl y k =>
    show wordOf t (rootPtr t y 11) k = if y = x then 0 else wordOf s (rootPtr s y 11) k
    grind
  | dblInd y j k =>
    show wordOf t (wordOf t (rootPtr t y 11) j) k =
      if y = x then 0 else wordOf s (wordOf s (rootPtr s y 11) j) k
    grind
  | hleaf y b =>
    show childOf t (htreeBlk t y) b = if y = x then 0 else childOf s (htreeBlk s y) b
    grind [childOf]

theorem Freed.wf (hW : Wf s) : Wf t := by
  have hown : ∀ a, t.val a ≠ 0 → a.inode ≠ x ∧ t.val a = s.val a := by
    intro a ha
    rw [h.val] at ha ⊢
    by_cases hx : a.inode = x
    · rw [if_pos hx] at ha
      exact absurd rfl ha
    · exact ⟨hx, if_neg hx⟩
  refine ⟨h.inv, by rw [h.super]; exact hW.dataPos, fun a ha => ?_, fun a b hab ha => ?_⟩
  · grind [h.alloc]
  grind [hW.own.inj]

theorem Freed.hasRoot {y : Nat} (hy : y ≠ x) : HasRoot t y ↔ HasRoot s y := by
  unfold HasRoot
  rw [h.val, h.blk, if_neg (show (Slot.hroot y).inode ≠ x from hy)]

theorem Freed.leafBytes {y : Nat} (hy : y ≠ x) (b : Nat) : leafBytes t y b = leafBytes s y b := by
  unfold Flatfs.leafBytes
  rw [h.val, h.blk, if_neg (show (Slot.hleaf y b).inode ≠ x from hy)]

theorem Freed.not_hasRoot : ¬ HasRoot t x := by
  intro hR
  refine hR.1 ?_
  rw [h.val]
  exact if_pos rfl

theorem Freed.entry (hempty : ∀ q ∈ positions, s.entry (x, q) = 0) : ∀ p ∈ s.places, t.entry p = s.entry p := by
  intro p hp
  obtain ⟨y, q⟩ := p
  by_cases hy : y = x
  · subst hy
    rw [hempty q (mem_places.mp hp).2]
    exact if_neg h.not_hasRoot
  · unfold FS.entry
    dsimp only
    rw [if_congr (h.hasRoot hy) rfl rfl, h.leafBytes hy]

theorem Freed.booked (hB : Booked s (x :: l)) (hx : s.links l x = 0) (hroot : x ≠ s.super.rootIno)
    (hempty : ∀ q ∈ positions, s.entry (x, q) = 0) : Booked t l := by
  have hT := hB.tree
  have hxl := hB.hand x (List.mem_cons_self ..)
  have htot : t.super.totalInodes = s.super.totalInodes := by rw [h.super]
  have hri : t.super.rootIno = s.super.rootIno := by rw [h.super]
  have hself : t.inode x = {} := by rw [h.inode, update_self]
  have hoth : ∀ y, y ≠ x → t.inode y = s.inode y := fun y hy => by rw [h.inode, update_of_ne hy]
  have hent := h.entry hempty
  have hlive : ∀ y, t.Live y ↔ y ≠ x ∧ s.Live y := by
    intro y
    unfold FS.Live
    rw [htot]
    by_cases hy : y = x
    · grind
    · rw [hoth y hy]
      simp [hy]
  have hdir : ∀ y, t.IsDir y → y ≠ x ∧ s.IsDir y := fun y hy =>
    have hl := (hlive y).1 hy.1
    ⟨hl.1, hl.2, (h.hasRoot hl.1).1 hy.2⟩
  have hlinks : ∀ a, a ≠ x → t.links l a = s.links (x :: l) a := by
    intro a ha
    rw [links_cons_of_ne (Ne.symm ha)]
    unfold FS.links FS.places
    rw [htot]
    exact refs_congr hent
  have hnone : ∀ y q, (y, q) ∈ s.places → s.entry (y, q) ≠ x := fun y q hp e => by grind [refs_pos, FS.links]
  refine ⟨⟨h.wf hT.wf, by rw [htot]; exact hT.total, ?_, fun y hy => ?_, fun y hy => ?_, fun y hy hy0 => ?_,
    fun y hy b hb i hi hu => ?_, fun y hy hf => ?_⟩, ?_, fun y hy => ?_, fun y hy hym => ?_,
    fun y hy => ?_, fun y hy hr => ?_, fun y hy => ?_, fun y hy => ?_, ?_⟩
  · grind [hT.root]
  · obtain ⟨hyx, hyl⟩ := (hlive y).1 hy
    rw [flatfsInodeRead_congr (hoth y hyx) htot, hoth y hyx]
    exact hT.read y hyl
  · grind [hT.self]
  · by_cases hyx : y = x
    · rw [hyx, hself]
      exact ⟨rfl, rfl⟩
    grind [hT.free]
  · obtain ⟨hyx, hyd⟩ := hdir y hy
    rw [h.leafBytes hyx] at hu ⊢
    refine (hlive _).2 ⟨?_, hT.entry y hyd b hb i hi hu⟩
    have hp : (y, b, i) ∈ s.places := mem_places.mpr ⟨hyd.1.1, mem_positions.mpr ⟨hb, hi⟩⟩
    have := hnone y (b, i) hp
    rwa [show s.entry (y, b, i) = deIno (Flatfs.leafBytes s y b) i from if_pos hyd.2] at this
  · obtain ⟨hyx, hyl⟩ := (hlive y).1 hy
    rw [hoth y hyx] at hf ⊢
    exact hT.link y hyl hf
  · grind [hB.rootDir]
  · grind [hB.plain]
  · grind [hB.nlink]
  · obtain ⟨hyx, hyl⟩ := (hlive y).1 hy
    rw [hoth y hyx]
    exact hB.small y hyl
  · obtain ⟨hyx, hyl⟩ := (hlive y).1 hy
    rw [hlinks y hyx]
    exact hB.held y hyl (by rw [hri] at hr; exact hr)
  · grind [hB.hand, FS.links, refs]
  · obtain ⟨hyx, hyd⟩ := hdir y hy
    have h1 : t.dirCount y = s.dirCount y := by
      unfold FS.dirCount
      rw [h.val, h.blk, if_neg (show (Slot.hroot y).inode ≠ x from hyx)]
    have h2 : t.usedEntries y = s.usedEntries y :=
      refs_congr fun q hq => by rw [hent (y, q) (mem_places.mpr ⟨hyd.1.1, hq⟩)]
    rw [h1, h2]
    exact hB.count y hyd
  · have hf := freeSlots_update hxl.1 (hT.pos hxl) h.inode htot
    rw [if_neg hxl.2, if_pos rfl] at hf
    have hle : t.freeSlots < s.super.totalInodes := by
      unfold FS.freeSlots refs
      rw [htot]
      have h1 := card_filter_le ((range s.super.totalInodes).erase 0)
        fun y => decide ((t.inode y).inodeMagic = 0) = true
      have h2 := card_erase_lt_of_mem (mem_range.mpr (Nat.zero_lt_of_lt hxl.1))
      rw [card_range] at h2
      simp only [List.count_nil, Nat.add_zero]
      omega
    grind [hT.total, hB.free, h.super, u64_of_lt]

end Freed

end Inodes

end Kobalt.Flatfs

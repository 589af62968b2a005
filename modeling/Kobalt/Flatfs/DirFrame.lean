/-
  Subject: THE FRAME OF A DIRECTORY INSERTION (`flatfs_htree_insert`): what it leaves alone.

  An entry has 128 bytes and 108 of them are the name; the code accepts names of up to 255 bytes. The
  bytes of a name from 108 on lie under the checksum of the entry and, from 112 on, in the next entry.
-/
import Kobalt.Flatfs.Hash

namespace Kobalt.Flatfs

open Function

variable {s s' : FS} {dir : Nat} {name : Text} {ino ftype : Nat}

/-- What a file system keeps besides inodes and blocks: superblock, backup, allocator, groups, hint. -/
def FS.books (s : FS) : Super × Super × AllocState × (Nat → FlGroup) × Nat :=
  (s.super, s.backup, s.galloc, s.group, s.inoHint)

/-- **The leaf `lb` of the bucket `b`**: it was there and the books are as before, or it is a block that was
    free, held by no slot, and the books are those of its allocation. -/
inductive LeafOf (s s' : FS) (dir b lb : Nat) : Prop where
  | kept : s.val (.hleaf dir b) = lb → s'.books = s.books → LeafOf s s' dir b lb
  | made (k : Nat) : s.val (.hleaf dir b) = 0 → s.bitAt k = false → s.super.dataStart + k = lb →
      (∀ a, s.val a ≠ lb) → s'.books = (s.takeBit k).books → LeafOf s s' dir b lb

/-- **The frame of a successful insertion.** -/
structure InsertFrame (s s' : FS) (dir : Nat) (name : Text) (ino : Nat) : Prop where
  /-- the live entries of the directory keep their bytes -/
  entry : ∀ b < 256, ∀ j < 32, deIno (leafBytes s dir b) j ≠ 0 →
    ∀ x < 128, leafBytes s' dir b (128 * j + x) = leafBytes s dir b (128 * j + x)
  /-- besides the root of the directory one block changes, the leaf of the name -/
  blk : ∃ lb, LeafOf s s' dir (callHash name / 16777216) lb ∧
    ∀ x, x ≠ s.val (.hroot dir) → x ≠ lb → s'.blk x = s.blk x
  inode : ∀ x, x ≠ dir → s'.inode x = s.inode x
  lookup : flatfsHtreeLookup s' dir name = .ok ino

/-! ## 1. The entry -/

theorem fstrncmp_congr {a a' b : Nat → UInt8} {n : Nat} (h : ∀ j < n, a j = a' j) :
    fstrncmp a b n = fstrncmp a' b n := by
  induction n generalizing a a' b with
  | zero => rfl
  | succ n ih =>
    unfold fstrncmp
    rw [h 0 (Nat.succ_pos n), ih fun j hj => h (j + 1) (by omega)]

theorem fstrncmp_self {a : Nat → UInt8} {n : Nat} : fstrncmp a a n = 0 := by
  induction n generalizing a with
  | zero => rfl
  | succ n ih => simp [fstrncmp, ih]

theorem deMatches_congr {de de' : Bytes} {h nlen j : Nat} (hn : nlen ≤ 108)
    (hx : ∀ x, 128 * j ≤ x → x < 128 * j + 128 → de' x = de x) :
    deMatches de' h nlen name j = deMatches de h nlen name j := by
  obtain ⟨h1, h2, h3, -⟩ := deEntry_congr hx
  unfold deMatches
  rw [h1, h2, h3, fstrncmp_congr fun k hk => hx (128 * j + 16 + k) (by omega) (by omega)]

theorem deMatches_putDirent {de : Bytes} {i h nlen : Nat} (hn : nlen ≤ 108) (hh : h < 256 ^ 4)
    (h0 : ino ≠ 0) (hino : ino < 256 ^ 8) :
    deMatches (putDirent de i ino h nlen ftype name) h nlen name i = true := by
  have hname : ∀ j < nlen, putDirent de i ino h nlen ftype name (128 * i + 16 + j) = name.getD j 0 := by
    intro j hj
    unfold putDirent putLE
    rw [fill_of_not_mem (by omega), fill_of_not_mem (by omega), fill_of_mem (by omega) (by omega)]
    congr 1
    omega
  unfold deMatches
  rw [deIno_putDirent hino, deHash_putDirent hh, deNameLen_putDirent (by omega), fstrncmp_congr hname, fstrncmp_self,
    Nat.mod_eq_of_lt (by omega)]
  simp [h0]

/-! ## 2. The blocks -/

theorem ensureLeaf_blk (hW : Wf s) (hr : s.val (.hroot dir) ≠ 0) {b lb : Nat} {s1 : FS} (hb : b < 256)
    (he : ensureLeaf s (s.val (.hroot dir)) b = (lb, s1)) (h0 : lb ≠ 0) :
    LeafOf s s1 dir b lb ∧ ∀ x, x ≠ s.val (.hroot dir) → x ≠ lb → s1.blk x = s.blk x := by
  unfold ensureLeaf at he
  rw [← val_hleaf hr hb] at he
  split at he
  · cases he
    exact ⟨.kept rfl rfl, fun _ _ _ => rfl⟩
  rename_i hnone
  rcases flatfsAllocBlock_spec hW.inv with ⟨-, ha⟩ | ⟨k, hk, hc, ha, hI⟩
  · rw [ha] at he
    cases he
    exact absurd rfl h0
  · rw [ha] at he
    cases he
    have hF := fresh_takeBit hW hk hc hI
    refine ⟨.made k (not_not.1 hnone) hc rfl hF.no rfl, fun x h1 h2 => ?_⟩
    rw [FS.setBlk_blk_of_ne h1, FS.setBlk_blk_of_ne h2, hF.blk, update_of_ne h2]

theorem htreeInsert_blk (hW : Wf s) (hD : DirSelf s dir)
    (h : flatfsHtreeInsert s dir name ino ftype = some (.ok, s')) :
    HasRoot s dir ∧ ∃ lb, LeafOf s s' dir (callHash name / 16777216) lb ∧
      ∀ x, x ≠ s.val (.hroot dir) → x ≠ lb → s'.blk x = s.blk x := by
  by_cases hR : HasRoot s dir
  swap
  · rw [flatfsHtreeInsert_corrupt hD.lt hR] at h
    cases h
  refine ⟨hR, ?_⟩
  unfold flatfsHtreeInsert at h
  rw [htroot_eq hD.lt, if_neg hR.1] at h
  dsimp only at h
  rw [if_neg (not_not.2 hR.2), ← callHash] at h
  split at h
  · cases h
  obtain ⟨⟨lb, s1⟩, he⟩ : ∃ r, ensureLeaf s (s.val (.hroot dir)) (callHash name / 16777216) = r := ⟨_, rfl⟩
  rw [he] at h
  dsimp only at h
  split at h
  · cases h
  rename_i h0
  obtain ⟨hlb, hblk⟩ := ensureLeaf_blk hW hR.1 (callHash_lt name) he h0
  split at h
  · cases h
  split at h
  · cases h
  split at h
  · cases h
  unfold flatfsInodeWrite at h
  split at h
  · cases h
  cases h
  -- the leaf, the root and the inode are stored, none of them in the books
  refine ⟨lb, ?_, fun x h1 h2 => ?_⟩
  · cases hlb with
    | kept h1 h2 => exact .kept h1 h2
    | made k h1 h2 h3 h4 h5 => exact .made k h1 h2 h3 h4 h5
  rw [← hblk x h1 h2]
  exact (FS.setBlk_blk_of_ne h1).trans (FS.setBlk_blk_of_ne h2)

/-! ## 3. The insertion -/

/-- **A name that fits its field**: the insertion leaves everything else alone, and the name is found. -/
theorem htree_insert_frame (hW : Wf s) (hD : DirSelf s dir) (hlen : fstrlen name nameMax ≤ 108) (h0 : ino ≠ 0)
    (hino : ino < 2 ^ 64) (h : flatfsHtreeInsert s dir name ino ftype = some (.ok, s')) :
    InsertFrame s s' dir name ino := by
  have hino' : ino < 256 ^ 8 := hino.trans_eq (by decide)
  obtain ⟨hR, hblk⟩ := htreeInsert_blk hW hD h
  cases flatfsHtreeInsert_inserted hW hD h with
  | put _ i hs hi hstep =>
    have hb := callHash_lt name
    have hleaf : callLeaf s' dir name = putDirent (callLeaf s dir name) i ino (callHash name) (fstrlen name nameMax)
        ftype name := by rw [callLeaf, hstep.leaf _ hb, update_self]
    have hout : ∀ j, j ≠ i → ∀ x, 128 * j ≤ x → x < 128 * j + 128 →
        callLeaf s' dir name x = callLeaf s dir name x := by
      intro j hj x h1 h2
      rw [hleaf, putDirent_outside (by omega) (by omega)]
    refine ⟨fun b hb' j hj hne x hx => ?_, hblk, hstep.other, ?_⟩
    · by_cases hbb : b = callHash name / 16777216
      · subst hbb
        refine hout j ?_ _ (by omega) (by omega)
        rintro rfl
        exact hne hi
      · rw [hstep.leaf b hb', update_of_ne hbb]
    · -- the entries before the free one do not match, and they are what they were
      obtain ⟨-, him, hbefore⟩ := List.find?_range_eq_some.1 hs
      have hm : scanMatch s' dir name = some i := by
        refine List.find?_range_eq_some.2 ⟨?_, him, fun j hj => ?_⟩
        · rw [hleaf]
          exact deMatches_putDirent hlen (UInt32.toNat_lt _) h0 hino'
        · rw [deMatches_congr hlen (hout j (Nat.ne_of_lt hj))]
          have := hbefore j hj
          simp only [Bool.not_or, Bool.and_eq_true] at this
          exact this.2
      rw [flatfsHtreeLookup_eq (hstep.self hD).lt (hstep.root hR), hm, hleaf]
      dsimp only
      rw [deIno_putDirent hino']

theorem htree_insert_frame_al : ∃ s', flatfsHtreeInsert newDir 1 nameAl 5 8 = some (.ok, s') ∧
    InsertFrame newDir s' 1 nameAl 5 := by
  obtain ⟨-, hok, -⟩ := newDir_ok
  have ha : (flatfsHtreeInsert newDir 1 nameAl 5 8).map Prod.fst = some .ok := by decide +kernel
  obtain ⟨⟨e, s'⟩, he, rfl⟩ := Option.map_eq_some_iff.1 ha
  exact ⟨s', he, htree_insert_frame hok.wf hok.self (by decide) (by decide) (by decide) he⟩

set_option maxRecDepth 100000 in
/-- **A name of 109 bytes**: it is accepted, its last byte lies under the checksum, and it is not found. -/
theorem htree_insert_long : Wf newDir ∧ DirSelf newDir 1 ∧ ∃ s',
    flatfsHtreeInsert newDir 1 (List.replicate 109 97) 5 8 = some (.ok, s') ∧
    ¬ InsertFrame newDir s' 1 (List.replicate 109 97) 5 := by
  obtain ⟨-, hok, -⟩ := newDir_ok
  have ha : (flatfsHtreeInsert newDir 1 (List.replicate 109 97) 5 8).map (fun r =>
      (r.1, flatfsHtreeLookup r.2 1 (List.replicate 109 97))) = some (.ok, .error .notfound) := by decide +kernel
  obtain ⟨⟨e, s'⟩, he, hr⟩ := Option.map_eq_some_iff.1 ha
  obtain ⟨rfl, hlook⟩ := Prod.mk.inj hr
  refine ⟨hok.wf, hok.self, s', he, fun hF => ?_⟩
  rw [hF.lookup] at hlook
  cases hlook

end Kobalt.Flatfs

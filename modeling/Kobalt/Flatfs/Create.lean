/-
  Subject: THE CALLS THAT CREATE A NAME, up to the insertion. What each of them has done to the
  directories when it comes to `flatfs_dir_insert`, and with which arguments it comes.

  `flatfs_open`, `flatfs_mkdir`, `flatfs_symlink` and `flatfs_link` create after `path_walk` has
  failed with NOTFOUND, and a walk that fails has not assigned `parent`. `flatfs_mkdir` does not
  come to insert at all: `flatfs_htree_init` fails on an inode that was not stored yet.
-/
import Kobalt.Flatfs.Path

namespace Kobalt.Flatfs

open Function

variable {s s' : FS} {e : FlatfsErr} {i i' : Inode} {d : Text} {off x : Nat}

/-! ## 1. Directories that stay as they were -/

/-- **The directories are as they were**: the blocks of every hash tree, and what is in them. -/
structure DirsKept (t t' : FS) : Prop where
  hroot : ∀ x, t'.val (.hroot x) = t.val (.hroot x)
  hleaf : ∀ x b, t'.val (.hleaf x b) = t.val (.hleaf x b)
  root : ∀ x, t.val (.hroot x) ≠ 0 → t'.blk (t.val (.hroot x)) = t.blk (t.val (.hroot x))
  leaf : ∀ x b, t.val (.hleaf x b) ≠ 0 → t'.blk (t.val (.hleaf x b)) = t.blk (t.val (.hleaf x b))

section Kept

variable {t t' t'' : FS}

theorem DirsKept.of_eq (hv : t'.val = t.val) (hb : t'.blk = t.blk) : DirsKept t t' :=
  ⟨fun _ => by rw [hv], fun _ _ => by rw [hv], fun _ _ => by rw [hb], fun _ _ _ => by rw [hb]⟩

theorem DirsKept.trans (h : DirsKept t t') (h' : DirsKept t' t'') : DirsKept t t'' := by
  refine ⟨fun x => (h'.hroot x).trans (h.hroot x), fun x b => (h'.hleaf x b).trans (h.hleaf x b),
    fun x hx => ?_, fun x b hx => ?_⟩
  · have := h'.root x (by rw [h.hroot]; exact hx)
    rw [h.hroot] at this
    rw [this, h.root x hx]
  · have := h'.leaf x b (by rw [h.hleaf]; exact hx)
    grind [h.hleaf, h.leaf]

theorem Grow.dirsKept (h : Grow t t') : DirsKept t t' :=
  ⟨h.hroot, h.hleaf, fun x hx => h.data (.hroot x) rfl hx, fun x b hx => h.data (.hleaf x b) rfl hx⟩

theorem DirsKept.setBlk (hO : Own t) (ino l : Nat) (c : Bytes) :
    DirsKept t (t.setBlk (t.val (lslot ino l)) c) := by
  have hne : ∀ a, a ≠ lslot ino l → t.val a ≠ 0 → t.val a ≠ t.val (lslot ino l) :=
    fun a ha hv e => ha (hO.inj _ _ e hv)
  have hv := val_setBlk_data hO (lslot_isIndex ino l).1 c
  have hr : ∀ x, .hroot x ≠ lslot ino l := fun x => by unfold lslot; split <;> [skip; split] <;> simp
  have hl : ∀ x b, .hleaf x b ≠ lslot ino l :=
    fun x b => by unfold lslot; split <;> [skip; split] <;> simp
  exact ⟨fun _ => by rw [hv], fun _ _ => by rw [hv],
    fun x hx => FS.setBlk_blk_of_ne (hne _ (hr x) hx),
    fun x b hx => FS.setBlk_blk_of_ne (hne _ (hl x b) hx)⟩

theorem DirsKept.leafBytes (h : DirsKept t t') (x b : Nat) : leafBytes t' x b = leafBytes t x b := by
  grind [Flatfs.leafBytes, h.hleaf, h.leaf]

theorem DirsKept.hasRoot (h : DirsKept t t') (x : Nat) : HasRoot t' x ↔ HasRoot t x := by
  grind [HasRoot, h.hroot, h.root]

theorem DirStep.leafBytes_other {dir : Nat} {L : Nat → Bytes} (h : DirStep t dir L n t')
    (hx : x ≠ dir) (b : Nat) : leafBytes t' x b = leafBytes t x b := by grind [h.val, leafBytes, h.blk, Slot.ofDir]

end Kept

/-! ## 2. Before the insertion -/

/-- **What a call may do before it inserts.** -/
structure Prepared (s s1 : FS) : Prop where
  wf : Wf s1
  total : s1.super.totalInodes = s.super.totalInodes
  kept : DirsKept s s1
  self : ∀ x, s.Live x → (s1.inode x).ino = x

/-- The counters after `flatfs_inode_alloc` has found `ino`. -/
def FS.tookInode (s : FS) (ino : Nat) : FS :=
  { s with inoHint := ino + 1, super := { s.super with freeInodes := s.super.freeInodes - 1 } }

/-- **An inode is free**: the superblock counts one, and a slot the search visits is unused. -/
def FS.FreeInode (s : FS) : Prop := s.super.freeInodes ≠ 0 ∧ ∃ k < s.super.totalInodes,
  u64 (s.inoHint + k) % s.super.totalInodes ≠ 0 ∧
    (s.inode (u64 (s.inoHint + k) % s.super.totalInodes)).inodeMagic = 0

theorem flatfsInodeAlloc_cases (s : FS) : ¬ s.FreeInode ∧ flatfsInodeAlloc s = (.error .nospace, s) ∨
    s.FreeInode ∧ ∃ ino, ino ≠ 0 ∧ ino < s.super.totalInodes ∧ (s.inode ino).inodeMagic = 0 ∧
      flatfsInodeAlloc s = (.ok ino, s.tookInode ino) := by
  unfold flatfsInodeAlloc
  split
  · rename_i h0
    exact .inl ⟨fun h => h.1 h0, rfl⟩
  rename_i h0
  split
  · rename_i hnone
    refine .inl ⟨fun ⟨_, k, hk, h1, h2⟩ => ?_, rfl⟩
    have := List.find?_eq_none.1 hnone k (List.mem_range.2 hk)
    simp [h1, h2] at this
  · rename_i k hk
    have hpos := List.mem_range.1 (List.mem_of_find?_eq_some hk)
    have hp := List.find?_some hk
    simp only [Bool.and_eq_true, bne_iff_ne, beq_iff_eq] at hp
    exact .inr ⟨⟨h0, k, hpos, hp.1, hp.2⟩, _, hp.1, Nat.mod_lt _ (by omega), hp.2, rfl⟩

theorem wf_tookInode (hW : Wf s) (ino : Nat) : Wf (s.tookInode ino) :=
  wf_of_le hW (hW.inv.congr rfl rfl rfl rfl rfl) rfl (fun _ h => h) fun x => .inr (by cases x <;> rfl)

/-- `j` is `i` up to the checksum. -/
structure UpToCrc (i j : Inode) : Prop where
  ino : j.ino = i.ino
  mode : j.mode = i.mode
  size : j.size = i.size
  magic : j.inodeMagic = i.inodeMagic
  hroot : j.dirHtreeBlk = i.dirHtreeBlk
  mapped : j.mapped = i.mapped
  ptr : ∀ k, j.blkPtr k = i.blkPtr k
  crc : inodeCrc j = inodeCrc i

theorem Inode.setCrc_upToCrc (i : Inode) (c : Nat) : UpToCrc i { i with crc32 := c } :=
  ⟨rfl, rfl, rfl, rfl, rfl, rfl, fun _ => rfl, rfl⟩

theorem Inode.stored_upToCrc (i : Inode) : UpToCrc i i.stored := i.setCrc_upToCrc (inodeCrc i)

theorem flatfsInodeWrite_eq (h : flatfsInodeWrite s i = (.ok, s')) : s' = s.over i.stored := by
  unfold flatfsInodeWrite at h
  split at h
  · cases h
  · unfold FS.over
    rw [i.stored_upToCrc.ino]
    exact (Prod.mk.inj h).2.symm

theorem flatfsInodeWrite_stored (h0 : i.ino ≠ 0)
    (hlt : i.ino < s.super.totalInodes) : flatfsInodeWrite s i = (.ok, s.over i.stored) := by
  unfold FS.over
  rw [i.stored_upToCrc.ino]
  exact flatfsInodeWrite_ok h0 hlt

theorem UpToCrc.val {j : Inode} (h : UpToCrc i j) (s : FS) : (s.over j).val = (s.over i).val :=
  val_over_congr h.ino h.mapped (fun _ k _ => h.ptr k) h.hroot

theorem UpToCrc.wf {j : Inode} (h : UpToCrc i j) (hW : Wf (s.over i)) : Wf (s.over j) :=
  wf_over_congr hW h.ino h.mapped (fun _ k _ => h.ptr k) h.hroot

theorem wf_over_stored (hW : Wf s) (hat : s.inode i.ino = i.stored) : Wf (s.over i) := by
  have hu := i.stored_upToCrc
  have hs : s.over i.stored = s := by
    unfold FS.over FS.setInode
    rw [hu.ino, ← hat, update_eq_self]
  exact wf_over_congr (hs.symm ▸ hW) hu.ino.symm hu.mapped.symm (fun _ k _ => (hu.ptr k).symm) hu.hroot.symm

theorem flatfsInodeRead_stored (h : s.inode x = i.stored)
    (hx : x ≠ 0) (hlt : x < s.super.totalInodes) (hm : i.inodeMagic = inodeMagicValue) :
    flatfsInodeRead s x = .ok i.stored := by
  generalize hj : i.stored = j
  have hu := i.stored_upToCrc
  have hc : j.crc32 = inodeCrc i := by rw [← hj]; rfl
  rw [hj] at hu h
  unfold flatfsInodeRead
  rw [if_neg (by omega), h]
  dsimp only
  rw [if_neg (by rw [hu.magic, hm]; decide), if_neg (by rw [hu.magic, hm]; simp), if_pos]
  rw [hu.crc, hc]

section New

variable {s : FS} (hT : TreeOk s) {i : Inode} (hlt : i.ino < s.super.totalInodes)
  (hfree : (s.inode i.ino).inodeMagic = 0)
include hT hlt hfree

theorem prepared_new (hm : i.mapped = true → ∀ k < 12, i.blkPtr k = 0) (hh : i.dirHtreeBlk = 0) :
    Prepared s ((s.tookInode i.ino).over i) := by
  have hroot : ∀ x, ((s.tookInode i.ino).over i).val (.hroot x) = s.val (.hroot x) := by
    intro x
    show htreeBlk _ x = htreeBlk s x
    unfold htreeBlk FS.over FS.setInode
    by_cases hx : x = i.ino
    · subst hx
      simp only [update_self, hh, (hT.free _ hlt hfree).2]
      rfl
    · simp only [update_of_ne hx]
      rfl
  refine ⟨wf_over_empty (wf_tookInode hT.wf i.ino) hm hh, rfl,
    ⟨hroot, fun x k => ?_, fun _ _ => rfl, fun _ _ _ => rfl⟩, fun x hx => ?_⟩
  · show childOf _ (htreeBlk _ x) k = childOf s (htreeBlk s x) k
    rw [show htreeBlk _ x = htreeBlk s x from hroot x]
    rfl
  · show (update s.inode i.ino i x).ino = x
    grind [hT.self]

end New

/-- **An inode a call makes**: of an unused number, no directory, with one link and without a block. -/
structure NewInode (s : FS) (i : Inode) : Prop where
  pos : i.ino ≠ 0
  lt : i.ino < s.super.totalInodes
  unused : (s.inode i.ino).inodeMagic = 0
  noBlock : i.mapped = true → ∀ k < 12, i.blkPtr k = 0
  noTree : i.dirHtreeBlk = 0
  magic : i.inodeMagic = inodeMagicValue
  mode : sIsDir i.mode = false
  nlink : i.nlink = 1
  link : i.flags &&& flSymlinkInln ≠ 0 → i.size ≤ inlineMax

theorem over_stored_self (s : FS) (i : Inode) : (s.over i.stored).inode i.ino = i.stored := by
  rw [← i.stored_upToCrc.ino]
  exact update_self ..

theorem NewInode.prepared (hT : TreeOk s) (h : NewInode s i) : Prepared s ((s.tookInode i.ino).over i.stored) := by
  have hu := i.stored_upToCrc
  have hp := prepared_new (i := i.stored) hT (by rw [hu.ino]; exact h.lt)
    (by rw [hu.ino]; exact h.unused) (fun hm k hk => (hu.ptr k).trans (h.noBlock (hu.mapped ▸ hm) k hk))
    (hu.hroot.trans h.noTree)
  rwa [hu.ino] at hp

section Grown

variable (mac : Mac)

/-- **What writing blocks of a file does**, whether it succeeds or not: the copy `i` of the inode has
    become `i'`, and the inode table has not been written. -/
structure Grown (s : FS) (i i' : Inode) (s' : FS) : Prop where
  dirs : DirsKept (s.over i) (s'.over i')
  wf : Wf (s'.over i')
  ext : Extends i i'
  disk : s'.inode = s.inode
  super : s'.super = { s.super with freeBlocks := s'.super.freeBlocks }

theorem Grown.refl (hW : Wf (s.over i)) : Grown s i i s :=
  ⟨.of_eq rfl rfl, hW, Extends.refl i, rfl, rfl⟩

theorem Grown.trans {s1 : FS} {i1 : Inode} (h : Grown s i i1 s1) (h' : Grown s1 i1 i' s') : Grown s i i' s' :=
  ⟨h.dirs.trans h'.dirs, h'.wf, h.ext.trans h'.ext, h'.disk.trans h.disk, by rw [h'.super, h.super]⟩

section

variable (hm : i.mapped = true) (hino : i.ino < s.super.totalInodes) (hW : Wf (s.over i))
include hm hino hW

theorem flatfsFileWriteBlk_grown {l : Nat} {c : Bytes}
    (h : flatfsFileWriteBlk mac s i l c = (e, i', s')) : Grown s i i' s' := by
  by_cases hl : l < 262666
  swap
  · unfold flatfsFileWriteBlk at h
    rw [mapBlock_toobig (by omega)] at h
    obtain ⟨-, rfl, rfl⟩ : _ ∧ i = i' ∧ s = s' := by simpa using h
    exact .refl hW
  have hw := mapWalk_walked hm hino hW hl
  unfold flatfsFileWriteBlk mapBlock at h
  generalize mapWalk s i l true = r at hw h
  obtain ⟨res, j, s1⟩ := r
  have hg : Grown s i j s1 :=
    ⟨hw.grow.dirsKept, hw.grow.wf, hw.ext, hw.disk, hw.grow.super⟩
  rcases res with e | _ | b
  · obtain ⟨-, rfl, rfl⟩ : _ ∧ j = i' ∧ s1 = s' := by simpa [Except.map] using h
    exact hg
  · exact absurd rfl hw.noHole
  obtain ⟨-, hv⟩ := hw.found b rfl
  obtain ⟨-, rfl, rfl⟩ : _ ∧ j = i' ∧ s1.setBlk b (storedAs mac j c) = s' := by
    simpa [Except.map, storedAs] using h
  have hk := DirsKept.setBlk hw.grow.wf.own i.ino l (storedAs mac j c)
  have hwf := wf_setBlk_data hw.grow.wf (lslot_isIndex i.ino l).1 (storedAs mac j c)
  rw [hv] at hk hwf
  exact hg.trans ⟨hk, hwf, Extends.refl j, rfl, rfl⟩

omit hm hino hW in
theorem pwriteLoop_grown {res : Result Nat} (fuel : Nat) :
    ∀ (s : FS) (i : Inode) (done : Nat), i.mapped = true → i.ino < s.super.totalInodes →
      Wf (s.over i) → pwriteLoop mac off d fuel s i done = (res, i', s') → Grown s i i' s' := by
  induction fuel with
  | zero =>
    intro s i done _ _ hW h
    obtain ⟨-, rfl, rfl⟩ : _ ∧ i = i' ∧ s = s' := by simpa [pwriteLoop] using h
    exact .refl hW
  | succ fuel ih =>
    intro s i done hm hino hW h
    unfold pwriteLoop at h
    by_cases hdone : done < d.length
    · rw [if_pos hdone] at h
      dsimp only at h
      split at h
      · obtain ⟨-, rfl, rfl⟩ : _ ∧ i = i' ∧ s = s' := by simpa using h
        exact .refl hW
      split at h
      · rename_i i1 s1 hw
        have hg := flatfsFileWriteBlk_grown mac hm hino hW hw
        grind [hg.trans, hg.ext.mapped, hg.ext.ino, hg.super, hg.wf]
      grind [flatfsFileWriteBlk_grown]
    · rw [if_neg hdone] at h
      obtain ⟨-, rfl, rfl⟩ : _ ∧ i = i' ∧ s = s' := by simpa using h
      exact .refl hW

theorem pwriteBlocks_stored {n : Nat} (h : pwriteBlocks mac s i off d = (.ok n, i', s')) :
    ∃ i1 s1 z, Grown s i i1 s1 ∧ i' = { i1 with size := z } ∧ s' = s1.over i'.stored := by
  unfold pwriteBlocks at h
  split at h
  · cases h
  rename_i done i1 s1 hl
  have hg := pwriteLoop_grown mac _ _ _ _ hm hino hW hl
  grind [flatfsInodeWrite_eq]

omit hm hino hW in
theorem pwriteBlocks_failed (hm : i.mapped = true) (h0 : i.ino ≠ 0)
    (hino : i.ino < s.super.totalInodes) (hW : Wf (s.over i))
    (h : pwriteBlocks mac s i off d = (.error e, i', s')) : Grown s i i' s' := by
  unfold pwriteBlocks at h
  split at h
  · grind [pwriteLoop_grown]
  rename_i done i1 s1 hl
  have hg := pwriteLoop_grown mac _ _ _ _ hm hino hW hl
  grind [hg.ext.ino, flatfsInodeWrite_stored, hg.super]

end

/-- Blocks were written for an inode that is stored, and it is stored again. -/
theorem Grown.stored {i1 : Inode} {s1 : FS} (hat : s.inode i.ino = i.stored) (hg : Grown s i i1 s1) (z : Nat) :
    DirsKept s (s1.over (Inode.stored { i1 with size := z })) ∧ Wf (s1.over (Inode.stored { i1 with size := z })) ∧
      (s1.over (Inode.stored { i1 with size := z })).inode = update s.inode i.ino (Inode.stored { i1 with size := z }) := by
  have hu := i.stored_upToCrc
  obtain ⟨j, hj⟩ : ∃ j : Inode, j = { i1 with size := z } := ⟨_, rfl⟩
  have hj1 : j.ino = i1.ino := by rw [hj]
  have hv := j.stored_upToCrc
  have hover : (s.over i).val = s.val := by
    unfold FS.over
    exact val_setInode_congr (by rw [hat]; exact hu.mapped.symm) (fun _ k _ => by rw [hat]; exact (hu.ptr k).symm)
      (by rw [hat, hu.hroot])
  have hval : (s1.over j).val = (s1.over i1).val :=
    val_over_congr hj1 (by rw [hj]; rfl) (fun _ _ _ => by rw [hj]; rfl) (by rw [hj])
  rw [← hj]
  refine ⟨(DirsKept.of_eq hover rfl).trans (hg.dirs.trans (.of_eq ((hv.val s1).trans hval) rfl)),
    hv.wf (wf_over_congr hg.wf hj1 (by rw [hj]; rfl) (fun _ _ _ => by rw [hj]; rfl) (by rw [hj])), ?_⟩
  show update s1.inode j.stored.ino j.stored = _
  rw [hv.ino, hg.disk, hj1, hg.ext.ino]

/-- **The first write to a block of a file** takes one block, if one is free. -/
theorem flatfsFileWriteBlk_first {l : Nat} {c : Bytes} (hW : Wf (s.over i)) (hl : l < 10) (h0 : i.blkPtr l = 0)
    (h : flatfsFileWriteBlk mac s i l c = (e, i', s')) :
    s.super.freeBlocks = 0 ∧ e ≠ .ok ∨ e = .ok ∧ s'.super.freeBlocks + 1 = s.super.freeBlocks ∧
      ∀ k, k ≠ l → i'.blkPtr k = i.blkPtr k := by
  unfold flatfsFileWriteBlk mapBlock mapWalk inodeSlot at h
  rw [if_pos hl, if_pos h0, if_pos rfl] at h
  rcases flatfsAllocBlock_over hW with ⟨hf, he⟩ | ⟨n, he, hF⟩
  · rw [he] at h
    cases h
    exact .inl ⟨hf, by simp⟩
  · rw [he] at h
    cases h
    exact .inr ⟨rfl, Nat.sub_add_cancel hF.free, fun k hk => (blkPtr_setBlkPtr hF.lt).trans (if_neg hk)⟩

/-- **Writing a file that has no blocks yet** takes as many as its bytes need, if they are free. -/
theorem pwriteLoop_cost {res : Result Nat} (hd : d.length ≤ 40960) (fuel : Nat) :
    ∀ (s : FS) (i : Inode) (k : Nat), i.mapped = true → i.ino < s.super.totalInodes → Wf (s.over i) →
      (∀ l, k ≤ l → l < 10 → i.blkPtr l = 0) → d.length ≤ 4096 * k + fuel →
      pwriteLoop mac 0 d fuel s i (4096 * k) = (res, i', s') →
      s.super.freeBlocks + k < (d.length + 4095) / 4096 ∧ (∃ e, res = .error e) ∨
        s'.super.freeBlocks + ((d.length + 4095) / 4096 - k) = s.super.freeBlocks ∧ ∃ n, res = .ok n := by
  induction fuel with
  | zero =>
    intro s i k _ _ _ _ hf h
    obtain ⟨rfl, -, rfl⟩ : _ ∧ i = i' ∧ s = s' := by simpa [pwriteLoop] using h
    exact .inr ⟨by omega, _, rfl⟩
  | succ fuel ih =>
    intro s i k hm hino hW h0 hf h
    unfold pwriteLoop at h
    by_cases hdone : 4096 * k < d.length
    swap
    · rw [if_neg hdone] at h
      obtain ⟨rfl, -, rfl⟩ : _ ∧ i = i' ∧ s = s' := by simpa using h
      exact .inr ⟨by omega, _, rfl⟩
    rw [if_pos hdone] at h
    have hpos : u64 (0 + 4096 * k) = 4096 * k := by
      unfold u64
      omega
    have hread : flatfsFileReadBlk mac s i k = .ok zeroBytes := by
      unfold flatfsFileReadBlk mapBlock mapWalk inodeSlot
      rw [if_pos (by omega), if_pos (h0 k le_rfl (by omega))]
      rfl
    have hk : 4096 * k / 4096 = k := by omega
    dsimp only at h
    rw [hpos, hk, hread, ite_self] at h
    dsimp only at h
    generalize hw : flatfsFileWriteBlk mac s i k _ = r at h
    obtain ⟨e, i1, s1⟩ := r
    have hg := flatfsFileWriteBlk_grown mac hm hino hW hw
    rcases flatfsFileWriteBlk_first mac hW (by omega) (h0 k le_rfl (by omega)) hw with ⟨hfree, he⟩ | ⟨rfl, hfree, hptr⟩
    · cases e with
      | ok => exact absurd rfl he
      | _ =>
        cases h
        exact .inl ⟨by omega, _, rfl⟩
    dsimp only at h
    by_cases hlast : d.length ≤ 4096 * (k + 1)
    · -- the last block, perhaps not full
      rw [show 4096 * k + min (4096 - 4096 * k % 4096) (d.length - 4096 * k) = d.length by omega] at h
      have hend : (res, i', s') = (.ok d.length, i1, s1) := by
        rw [← h]
        cases fuel with
        | zero => rfl
        | succ fuel => exact if_neg (lt_irrefl _)
      cases hend
      exact .inr ⟨by omega, _, rfl⟩
    · rw [show 4096 * k + min (4096 - 4096 * k % 4096) (d.length - 4096 * k) = 4096 * (k + 1) by omega] at h
      have := ih s1 i1 (k + 1) (by rw [hg.ext.mapped]; exact hm) (by rw [hg.ext.ino, hg.super]; exact hino) hg.wf
        (fun l h1 h2 => (hptr l (by omega)).trans (h0 l (by omega) h2)) (by omega) h
      rcases this with ⟨h1, h2⟩ | ⟨h1, h2⟩
      · exact .inl ⟨by omega, h2⟩
      · exact .inr ⟨by omega, h2⟩

end Grown

/-! ## 3. The four calls -/

/-- A call that may create a name. -/
inductive Create where
  | openCreat (flags ts : Nat)
  | mkdir (mode : Nat)
  | symlink (target : Text)
  | link (old : Text) (oldOut : Outs)

section Calls

variable (mac : Mac) (tails : Nat → Text) (s : FS)
  (path : Text) (o : Outs)

/-- The call; `flatfs_open` is called with `FLATFS_O_CREAT`. -/
def Create.call : Create → Option Done
  | .openCreat flags ts => flatfsOpen mac tails s path o (flags ||| oCreat) ts
  | .mkdir mode => flatfsMkdir mac tails s path o mode
  | .symlink target => flatfsSymlink mac tails s path o target
  | .link old oldOut => flatfsLink mac tails s path o old oldOut

/-- The call up to its insertion. -/
def Create.begun : Create → Option Begun
  | .openCreat flags ts => openBegin mac tails s path o (flags ||| oCreat) ts
  | .mkdir mode => mkdirBegin mac tails s path o mode
  | .symlink target => symlinkBegin mac tails s path o target
  | .link old oldOut => linkBegin mac tails s path o old oldOut

theorem Create.call_eq (c : Create) :
    c.call mac tails s path o = (c.begun mac tails s path o).bind Begun.run := by
  cases c <;> rfl

theorem Begun.run_insert (s : FS) (dir : Nat) (name : Text) (ino ftype : Nat)
    (finish : Done → Done) :
    (some (Begun.insert s dir name ino ftype finish)).bind Begun.run =
      (flatfsDirInsert s dir name ino ftype).map finish := rfl

/-- `flatfs_link` whose old path does not exist. -/
def Create.OldMissing : Create → Prop
  | .link old oldOut => ∃ oo, pathWalk mac s tails false 9 old oldOut = some (.notfound, oo)
  | _ => False

/-- The blocks the target of a symbolic link takes, with its NUL. -/
def targetBlocks (target : Text) : Nat :=
  if flatfsInlineFits (fstrlen target symlinkMax + 1) then 0 else (fstrlen target symlinkMax + 1 + 4095) / 4096

/-- **The call comes to insert** the name `last`, with `n` blocks taken before: the path leads nowhere and
    the walk leaves `last`, and there is an inode for it. `flatfs_mkdir` never comes so far. -/
def Create.Inserts (c : Create) (last : Text) (n : Nat) : Prop :=
  (∃ o', pathWalk mac s tails true 9 path o = some (.notfound, o') ∧ o'.last = last) ∧
  match c with
  | .openCreat _ _ => s.FreeInode ∧ n = 0
  | .mkdir _ => False
  | .symlink target => s.FreeInode ∧ n = targetBlocks target ∧ n ≤ s.super.freeBlocks
  | .link old oldOut => (∃ oo, pathWalk mac s tails false 9 old oldOut = some (.ok, oo) ∧
      sIsDir (s.inode oo.ino).mode = false) ∧ n = 0

/-- **How the inode that is inserted was stored**: a new one, one whose target went into blocks of its own,
    or an old one with a link more. -/
inductive Stores (c : Create) : Nat → FS → Prop
  | made (j : Inode) : NewInode s j → Stores c j.ino ((s.tookInode j.ino).over j.stored)
  | written (j j1 : Inode) (s1 : FS) (z : Nat) : NewInode s j → j.flags = 0 →
      Grown ((s.tookInode j.ino).over j.stored) j j1 s1 →
      Stores c j.ino (s1.over (Inode.stored { j1 with size := z }))
  | linked (old : Text) (oldOut oo : Outs) : c = .link old oldOut →
      pathWalk mac s tails false 9 old oldOut = some (.ok, oo) → s.Live oo.ino →
      sIsDir (s.inode oo.ino).mode = false → Stores c oo.ino
        (s.over (Inode.stored { s.inode oo.ino with nlink := ((s.inode oo.ino).nlink + 1) % 65536 }))

/-- What a call leaves that ends before it inserts. -/
def Create.Ended (c : Create) (s' : FS) : Prop :=
  s' = s ∨
  match c with
  | .openCreat flags _ => ∃ o', pathWalk mac s tails true 9 path o = some (.ok, o') ∧
      s' = (openInode s o'.ino (flags ||| oCreat)).2
  | .mkdir _ => s.FreeInode ∧ ∃ o', pathWalk mac s tails true 9 path o = some (.notfound, o')
  | .symlink _ => ∃ j j1 s1, NewInode s j ∧ j.flags = 0 ∧ Grown ((s.tookInode j.ino).over j.stored) j j1 s1 ∧
      s' = (flatfsInodeFree s1 j.ino).2
  | .link _ _ => False

/-- What a call does when its insertion has failed. -/
def Create.undo (ino : Nat) (s2 : FS) : Create → FS
  | .openCreat _ _ => (flatfsInodeFree s2 ino).2
  | _ => s2

/-- **How far a call gets.** If it ends before it inserts, it has created nothing. If it inserts,
    then what `last` holds after the walk, into the directory whose number `parent` held before. -/
inductive BeginOk (c : Create) : Option Begun → Prop
  | ended (e : FlatfsErr) (s' : FS) : (e = .ok → ∀ x b, leafBytes s' x b = leafBytes s x b) →
      (e = .notfound ↔ c.OldMissing mac tails s) → (e = .notfound → s' = s) →
      (∀ last n, ¬ c.Inserts mac tails s path o last n) → c.Ended mac tails s path o s' → BeginOk c (some (.ended e s'))
  | insert (s1 : FS) (o' : Outs) (ino ftype n : Nat)
      (finish : Done → Done) :
      c.Inserts mac tails s path o o'.last n → s1.super.freeBlocks + n = s.super.freeBlocks →
      Stores mac tails s c ino s1 → ¬ c.OldMissing mac tails s →
      (∀ e s2, e ≠ .ok → finish (e, s2) = (e, c.undo ino s2)) →
      (∀ s2, (¬ HasRoot s1 ino → s2.inode ino = s1.inode ino) → ino < s2.super.totalInodes →
        finish (.ok, s2) = (.ok, s2)) →
      BeginOk c (some (.insert s1 o.parent o'.last ino ftype finish))

end Calls

section Begin

variable {mac : Mac} {tails : Nat → Text} {s : FS}
  {path : Text} {o : Outs}

theorem BeginOk.error {c : Create} (hc : ¬ c.OldMissing mac tails s)
    (hi : ∀ last n, ¬ c.Inserts mac tails s path o last n) (h : e ≠ .ok) (h' : e ≠ .notfound)
    (hend : c.Ended mac tails s path o s') : BeginOk mac tails s path o c (some (.ended e s')) :=
  .ended e s' (fun he => absurd he h) ⟨fun he => absurd he h', fun he => absurd he hc⟩
    (fun he => absurd he h') hi hend

theorem not_inserts {c : Create} {o' : Outs} (hw : pathWalk mac s tails true 9 path o = some (e, o'))
    (he : e ≠ .notfound) (last : Text) (n : Nat) : ¬ c.Inserts mac tails s path o last n := by
  rintro ⟨⟨o'', h, -⟩, -⟩
  rw [hw] at h
  exact he (Prod.mk.inj (Option.some.inj h)).1

theorem leafBytes_congr (hb : s'.blk = s.blk) (hh : ∀ x, htreeBlk s' x = htreeBlk s x)
    (x b : Nat) : leafBytes s' x b = leafBytes s x b := by
  have hv : s'.val (.hleaf x b) = s.val (.hleaf x b) := by
    show childOf s' (htreeBlk s' x) b = childOf s (htreeBlk s x) b
    unfold childOf
    rw [hh, hb]
  unfold leafBytes
  rw [hv, hb]

theorem truncate_blk (i : Inode) (lbs : List Nat) : ∀ s : FS, (lbs.foldl (truncateOne i) s).blk = s.blk ∧
      (lbs.foldl (truncateOne i) s).inode = s.inode ∧
      (lbs.foldl (truncateOne i) s).super.totalInodes = s.super.totalInodes := by
  induction lbs with
  | nil => exact fun s => ⟨rfl, rfl, rfl⟩
  | cons lb lbs ih =>
    intro s
    obtain ⟨h1, h2, h3⟩ := ih (truncateOne i s lb)
    have hone : (truncateOne i s lb).blk = s.blk ∧ (truncateOne i s lb).inode = s.inode ∧
        (truncateOne i s lb).super.totalInodes = s.super.totalInodes := by
      unfold truncateOne
      split
      · split
        · exact ⟨rfl, rfl, rfl⟩
        · unfold flatfsFreeBlock
          split
          · exact ⟨rfl, rfl, rfl⟩
          · dsimp only
            split
            · exact ⟨rfl, rfl, rfl⟩
            · split
              · exact ⟨rfl, rfl, rfl⟩
              · exact ⟨rfl, rfl, rfl⟩
      · exact ⟨rfl, rfl, rfl⟩
    grind

/-- Storing an inode in its own place, with its hash tree as it was, changes no leaf. -/
theorem leafBytes_inodeWrite (hh : i.dirHtreeBlk = (s.inode i.ino).dirHtreeBlk)
    (x b : Nat) : leafBytes (flatfsInodeWrite s i).2 x b = leafBytes s x b := by
  unfold flatfsInodeWrite
  split
  · rfl
  · refine leafBytes_congr (s := s) (by rfl) (fun y => ?_) x b
    unfold htreeBlk FS.setInode
    grind

theorem flatfsInodeWrite_ne_notfound (i : Inode) : (flatfsInodeWrite s i).1 ≠ .notfound := by
  unfold flatfsInodeWrite
  split <;> simp

theorem truncate_leafBytes (hT : TreeOk s) (hx : s.Live x) (n : Nat) :
    (flatfsFileTruncate s (s.inode x) n).1 ≠ .notfound ∧
      ∀ y b, leafBytes (flatfsFileTruncate s (s.inode x) n).2.2 y b = leafBytes s y b := by
  have hself := hT.self x hx
  unfold flatfsFileTruncate
  split
  · grind [flatfsInodeWrite_ne_notfound, leafBytes_inodeWrite]
  · split
    · exact ⟨by simp, fun _ _ => rfl⟩
    · dsimp only
      generalize hs' : ((List.range (blocksFor (s.inode x).size - blocksFor n)).map
        (blocksFor n + ·)).foldl (truncateOne (s.inode x)) s = s'
      obtain ⟨h1, h2, h3⟩ := truncate_blk (s.inode x) ((List.range (blocksFor (s.inode x).size -
        blocksFor n)).map (blocksFor n + ·)) s
      rw [hs'] at h1 h2 h3
      grind [flatfsInodeWrite_ne_notfound, leafBytes_inodeWrite, leafBytes_congr, htreeBlk]

theorem openInode_leafBytes (hT : TreeOk s) (hx : s.Live x) (flags : Nat) :
    (openInode s x flags).1 ≠ .notfound ∧ ∀ y b, leafBytes (openInode s x flags).2 y b = leafBytes s y b := by
  grind [openInode, hT.read, truncate_leafBytes]

/-- A walk that does not succeed leaves `parent` to the caller's insertion. -/
theorem pathWalk_cases (mac : Mac) (tails : Nat → Text)
    (hT : TreeOk s) (wantLast : Bool) (path : Text) (o : Outs) :
    ∃ e o', pathWalk mac s tails wantLast 9 path o = some (e, o') ∧
      (e = .ok → s.Live o'.ino) ∧ (e ≠ .ok → o'.parent = o.parent) := by
  have hw := pathWalk_spec hT mac tails wantLast 9 path o
  obtain ⟨⟨e, o'⟩, hr⟩ := Option.ne_none_iff_exists'.1 hw.ends
  grind [hw.found, hw.failed]

theorem not_root_over (hlt : i.ino < s.super.totalInodes) (hh : i.dirHtreeBlk = 0)
    (h : HasRoot (s.over i) x) : x ≠ i.ino := by
  rintro rfl
  refine h.1 ?_
  show htreeBlk _ _ = 0
  unfold htreeBlk FS.over FS.setInode
  grind

theorem openInode_new (h : s.inode x = i.stored) (hx : x ≠ 0)
    (hlt : x < s.super.totalInodes) (hm : i.inodeMagic = inodeMagicValue)
    (hd : sIsDir i.mode = false) (hz : i.size = 0) (flags : Nat) : openInode s x flags = (.ok, s) := by
  have hu := i.stored_upToCrc
  have htr : flatfsFileTruncate s i.stored 0 = (.ok, i.stored, s) := by
    unfold flatfsFileTruncate
    rw [if_neg (by omega), if_pos (by rw [hu.size, hz])]
  grind [openInode, flatfsInodeRead_stored, hu.mode]

theorem or_oCreat (flags : Nat) : (flags ||| oCreat) &&& oCreat ≠ 0 := by
  intro h
  have := congrArg (Nat.testBit · 6) h
  grind [oCreat]

theorem newInode_open {ino : Nat} (h0 : ino ≠ 0) (hlt : ino < s.super.totalInodes) (hfree : (s.inode ino).inodeMagic = 0)
    (ts : Nat) : NewInode s (flatfsOpenInode ino ts) := by
  refine ⟨h0, hlt, hfree, fun hm => ?_, rfl, rfl, ?_, rfl, fun _ => Nat.zero_le _⟩
  · simp [Inode.mapped, flatfsOpenInode, Inode.isInline, flInline, flHascrc] at hm
  · show sIsDir 0x81A4 = false
    decide

theorem openBegin_spec (hT : TreeOk s) (path : Text) (o : Outs) (flags ts : Nat) :
    BeginOk mac tails s path o (.openCreat flags ts) (openBegin mac tails s path o (flags ||| oCreat) ts) := by
  have hno : ¬ (Create.openCreat flags ts).OldMissing mac tails s := id
  obtain ⟨e, o', hw, hlive, hpar⟩ := pathWalk_cases mac tails hT true path o
  unfold openBegin
  rw [hw]
  dsimp only
  by_cases he : e = .notfound
  · subst he
    rw [if_pos ⟨rfl, or_oCreat flags⟩, hpar (by simp)]
    rcases flatfsInodeAlloc_cases s with ⟨hnone, ha⟩ | ⟨hsome, ino, h0, hlt, hfree, ha⟩
    · rw [ha]
      exact .error hno (fun _ _ h => hnone h.2.1) (by simp) (by simp) (.inl rfl)
    have hz : (flatfsOpenInode ino ts).size = 0 := rfl
    have hino : (flatfsOpenInode ino ts).ino = ino := rfl
    have hnew := newInode_open h0 hlt hfree ts
    rw [ha]
    dsimp only
    generalize flatfsOpenInode ino ts = j at *
    subst hino
    rw [flatfsInodeWrite_stored (s := s.tookInode j.ino) h0 hlt]
    refine .insert _ o' _ _ 0 _ ⟨⟨o', hw, rfl⟩, hsome, rfl⟩ rfl (.made _ hnew) hno (fun e s2 he => if_neg he)
      fun s2 hin hlt2 => ?_
    rw [if_pos rfl]
    have hu := j.stored_upToCrc
    refine openInode_new ((hin fun hR => ?_).trans (over_stored_self _ j)) h0 hlt2 hnew.magic hnew.mode hz _
    exact not_root_over (s := s.tookInode j.ino) (by rw [hu.ino]; exact hlt) (hu.hroot.trans hnew.noTree) hR hu.ino.symm
  · rw [if_neg fun h => he h.1]
    by_cases hok : e = .ok
    · rw [if_neg (not_not.2 hok)]
      split
      · exact .error hno (not_inserts hw he) (by simp) (by simp) (.inl rfl)
      · obtain ⟨h1, h2⟩ := openInode_leafBytes hT (hlive hok) (flags ||| oCreat)
        exact .ended _ _ (fun _ => h2) ⟨fun h => absurd h h1, fun h => absurd h hno⟩
          (fun h => absurd h h1) (not_inserts hw he) (.inr ⟨o', by rw [hw, hok], rfl⟩)
    · rw [if_pos hok]
      exact .error hno (not_inserts hw he) hok he (.inl rfl)

theorem pwriteBlocks_error (h : (pwriteBlocks mac s i off d).1 = .error e) : e ≠ .ok ∧ e ≠ .notfound := by
  unfold pwriteBlocks at h
  split at h
  · rename_i e' _ _ hl
    obtain rfl := Except.error.inj h
    have := pwriteLoop_error mac _ _ _ _ (congrArg Prod.fst hl)
    exact ⟨this.ne_ok, this.ne_notfound⟩
  · dsimp only at h
    split at h
    · cases h
    · rename_i e' s' hne hw
      obtain rfl := Except.error.inj h
      refine ⟨fun h0 => hne h0, fun h0 => ?_⟩
      exact flatfsInodeWrite_ne_notfound _ ((congrArg Prod.fst hw).trans h0)

theorem pwriteBlocks_cost (hm : i.mapped = true) (h0 : i.ino ≠ 0) (hino : i.ino < s.super.totalInodes)
    (hW : Wf (s.over i)) (hp : ∀ k < 12, i.blkPtr k = 0) (hd : d.length ≤ 40960) {res : Result Nat}
    (h : pwriteBlocks mac s i 0 d = (res, i', s')) :
    s.super.freeBlocks < (d.length + 4095) / 4096 ∧ (∃ e, res = .error e) ∨
      s'.super.freeBlocks + (d.length + 4095) / 4096 = s.super.freeBlocks ∧ ∃ n, res = .ok n := by
  unfold pwriteBlocks at h
  generalize hl : pwriteLoop mac 0 d d.length s i 0 = r at h
  obtain ⟨x, i1, s1⟩ := r
  have hg := pwriteLoop_grown mac _ _ _ _ hm hino hW hl
  rcases pwriteLoop_cost mac hd _ s i 0 hm hino hW (fun l _ hl => hp l (by omega)) (by omega) hl with
    ⟨h1, e, rfl⟩ | ⟨h1, n, rfl⟩
  · cases h
    exact .inl ⟨h1, e, rfl⟩
  · have hi : ∀ z, flatfsInodeWrite s1 { i1 with size := z } =
        (.ok, s1.over (Inode.stored { i1 with size := z })) := fun z =>
      flatfsInodeWrite_stored (by show i1.ino ≠ 0; rw [hg.ext.ino]; exact h0)
        (by show i1.ino < _; rw [hg.ext.ino, hg.super]; exact hino)
    dsimp only at h
    rw [show (if u64 (0 + n) > i1.size then { i1 with size := u64 (0 + n) } else i1) =
      { i1 with size := if u64 (0 + n) > i1.size then u64 (0 + n) else i1.size } by split <;> rfl, hi] at h
    cases h
    exact .inr ⟨h1, n, rfl⟩

theorem newInode_symlink {ino : Nat} (h0 : ino ≠ 0) (hlt : ino < s.super.totalInodes) (hfree : (s.inode ino).inodeMagic = 0)
    (target : Text) : NewInode s (symlinkInode ino target) ∧ (symlinkInode ino target).ino = ino := by
  have hmode : sIsDir (0xA000 ||| 0o777) = false := by decide
  unfold symlinkInode
  dsimp only
  split
  · rename_i hfit
    refine ⟨⟨h0, hlt, hfree, fun hm => ?_, rfl, rfl, hmode, rfl, fun _ => ?_⟩, rfl⟩
    · simp [Inode.mapped, Inode.isInline, flInline, flSymlinkInln] at hm
    · grind [flatfsInlineFits]
  · exact ⟨⟨h0, hlt, hfree, fun _ _ _ => leAt_zeroBytes _ _, rfl, rfl, hmode, rfl, fun _ => Nat.zero_le _⟩, rfl⟩

theorem symlinkBegin_spec (hT : TreeOk s) (path : Text) (o : Outs) (target : Text) :
    BeginOk mac tails s path o (.symlink target) (symlinkBegin mac tails s path o target) := by
  have hno : ¬ (Create.symlink target).OldMissing mac tails s := id
  obtain ⟨e, o', hw, -, hpar⟩ := pathWalk_cases mac tails hT true path o
  unfold symlinkBegin
  rw [hw]
  dsimp only
  split
  · rename_i hok
    exact .error hno (not_inserts hw (by simp [hok])) (by simp) (by simp) (.inl rfl)
  rename_i hok
  split
  · rename_i he
    exact .error hno (not_inserts hw he) hok he (.inl rfl)
  rename_i he
  rw [not_not] at he
  subst he
  rw [hpar hok]
  rcases flatfsInodeAlloc_cases s with ⟨hnone, ha⟩ | ⟨hsome, ino, h0, hlt, hfree, ha⟩
  · rw [ha]
    exact .error hno (fun _ _ h => hnone h.2.1) (by simp) (by simp) (.inl rfl)
  rw [ha]
  dsimp only
  obtain ⟨hnew, hino⟩ := newInode_symlink h0 hlt hfree target
  have hfl : (symlinkInode ino target).flags =
      if flatfsInlineFits (fstrlen target symlinkMax + 1) = true then flInline ||| flSymlinkInln else 0 := by
    unfold symlinkInode
    dsimp only
    split <;> rfl
  generalize symlinkInode ino target = j at *
  subst hino
  rw [flatfsInodeWrite_stored (s := s.tookInode j.ino) h0 hlt]
  dsimp only
  by_cases hfit : flatfsInlineFits (fstrlen target symlinkMax + 1) = true
  · -- the target goes into the inode
    rw [if_pos hfit] at hfl
    rw [if_pos (by rw [hfl]; decide)]
    exact .insert _ o' _ _ 0 _ ⟨⟨o', hw, rfl⟩, hsome, (if_pos hfit).symm, Nat.zero_le _⟩ rfl (.made j hnew) hno
      (fun _ _ _ => rfl) fun _ _ _ => rfl
  · rw [if_neg hfit] at hfl
    have hjm : j.mapped = true := by simp [Inode.mapped, Inode.isInline, hfl, hnew.magic, inodeMagicValue]
    rw [if_neg (by rw [hfl]; decide)]
    unfold flatfsFilePwrite
    rw [if_neg (by simp [Inode.isInline, hfl])]
    have hn : targetBlocks target = (fstrlen target symlinkMax + 1 + 4095) / 4096 := if_neg hfit
    have hd : ((List.range (fstrlen target symlinkMax + 1)).map fun j => target.getD j 0).length =
        fstrlen target symlinkMax + 1 := by simp
    have hlen : fstrlen target symlinkMax ≤ 4096 := List.length_take_le ..
    generalize ((List.range (fstrlen target symlinkMax + 1)).map fun j => target.getD j 0) = d at hd ⊢
    generalize hpw : pwriteBlocks mac ((s.tookInode j.ino).over j.stored) j 0 d = r
    obtain ⟨x, j', s'⟩ := r
    have hW := wf_over_stored (hnew.prepared hT).wf (over_stored_self _ j)
    have hcost := pwriteBlocks_cost hjm h0 (by exact hlt) hW (hnew.noBlock hjm) (by omega) hpw
    rw [hd, ← hn] at hcost
    cases x with
    | error e =>
      obtain ⟨h1, h2⟩ := pwriteBlocks_error (congrArg Prod.fst hpw)
      refine .error hno (fun last n h => ?_) h1 h2
        (.inr ⟨j, j', s', hnew, hfl, pwriteBlocks_failed mac hjm h0 (by exact hlt) hW hpw, rfl⟩)
      rcases hcost with ⟨hlt, -⟩ | ⟨-, n, hn⟩
      · obtain ⟨-, -, rfl, hle⟩ := h
        exact absurd hle (Nat.not_le.2 hlt)
      · cases hn
    | ok n =>
      obtain ⟨hfree', -⟩ := hcost.resolve_left fun h => by cases h.2.choose_spec
      obtain ⟨j1, s1, z, hg, rfl, rfl⟩ := pwriteBlocks_stored mac hjm (by exact hlt) hW hpw
      exact .insert _ o' _ _ _ _ ⟨⟨o', hw, rfl⟩, hsome, rfl, hfree' ▸ Nat.le_add_left ..⟩ hfree'
        (.written j j1 s1 z hnew hfl hg) hno (fun _ _ _ => rfl) fun _ _ _ => rfl

theorem prepared_link (hT : TreeOk s) (hx : s.Live x) (n : Nat) :
    Prepared s (s.over (Inode.stored { s.inode x with nlink := n })) := by
  obtain ⟨j, hj⟩ : ∃ j : Inode, j = { s.inode x with nlink := n } := ⟨_, rfl⟩
  have hu := j.stored_upToCrc
  have hjx : j.ino = x := by rw [hj]; exact hT.self x hx
  rw [← hj]
  have hval : (s.over j).val = s.val := by
    unfold FS.over
    rw [hjx]
    exact val_setInode_congr (by rw [hj]; rfl) (fun _ _ _ => by rw [hj]; rfl) (by rw [hj])
  have hW : Wf (s.over j) := wf_of_le hT.wf (allocInv_over.2 hT.wf.inv) rfl (fun _ h => h)
    fun a => .inr (by rw [hval])
  refine ⟨hu.wf hW, rfl, .of_eq ((hu.val s).trans hval) rfl, fun y hy => ?_⟩
  show (update s.inode j.stored.ino j.stored y).ino = y
  by_cases he : y = x
  · rw [he, hu.ino, hjx, update_self, hu.ino, hjx]
  grind [hT.self]

theorem linkBegin_spec (hT : TreeOk s) (path : Text) (o : Outs) (old : Text) (oldOut : Outs) :
    BeginOk mac tails s path o (.link old oldOut) (linkBegin mac tails s path o old oldOut) := by
  obtain ⟨e, oo, hw, hlive, -⟩ := pathWalk_cases mac tails hT false old oldOut
  have hiff : (Create.link old oldOut).OldMissing mac tails s ↔ e = .notfound := by
    show (∃ oo, pathWalk mac s tails false 9 old oldOut = some (.notfound, oo)) ↔ _
    rw [hw]
    exact ⟨fun ⟨_, h⟩ => (Prod.mk.inj (Option.some.inj h)).1, fun h => ⟨oo, by rw [h]⟩⟩
  unfold linkBegin
  rw [hw]
  dsimp only
  split
  · rename_i hne
    refine .ended e s (fun h => absurd h hne) hiff.symm (fun _ => rfl) (fun _ _ h => ?_) (.inl rfl)
    obtain ⟨-, ⟨oo', h1, -⟩, -⟩ := h
    rw [hw] at h1
    exact hne (Prod.mk.inj (Option.some.inj h1)).1
  rename_i hok
  rw [not_not] at hok
  have hno : ¬ (Create.link old oldOut).OldMissing mac tails s := by
    rw [hiff, hok]
    simp
  have hx := hlive hok
  obtain ⟨e', o', hw', -, hpar⟩ := pathWalk_cases mac tails hT true path o
  rw [hw']
  dsimp only
  split
  · rename_i hok'
    exact .error hno (not_inserts hw' (by simp [hok'])) (by simp) (by simp) (.inl rfl)
  rename_i hok'
  split
  · rename_i he
    exact .error hno (not_inserts hw' he) hok' he (.inl rfl)
  rename_i he
  rw [not_not] at he
  subst he
  rw [hpar hok', hT.read _ hx]
  dsimp only
  split
  · rename_i hd
    refine .error hno (fun _ _ h => ?_) (by simp) (by simp) (.inl rfl)
    obtain ⟨-, ⟨oo', h1, h2⟩, -⟩ := h
    rw [hw] at h1
    rw [← (Prod.mk.inj (Option.some.inj h1)).2, hd] at h2
    cases h2
  rename_i hd
  have hself := hT.self _ hx
  rw [flatfsInodeWrite_stored (i := { s.inode oo.ino with nlink := ((s.inode oo.ino).nlink + 1) % 65536 })
    (by grind [hT.pos])
    (by grind [hx.1])]
  rw [Bool.not_eq_true] at hd
  rw [hok] at hw
  exact .insert _ o' _ _ 0 _ ⟨⟨o', hw', rfl⟩, ⟨oo, hw, hd⟩, rfl⟩ rfl (.linked old oldOut oo rfl hw hx hd) hno
    (fun _ _ _ => rfl) fun _ _ _ => rfl

/-- `flatfs_htree_init` on an inode that is not in use fails: it stores through the number the
    unused inode holds, which is 0. -/
theorem flatfsHtreeInit_unused {ino : Nat} (h : (s.inode ino).ino = 0) (rb : Nat) :
    (flatfsHtreeInit s ino rb).1 = .bounds := by
  unfold flatfsHtreeInit flatfsInodeWrite
  dsimp only
  rw [if_pos]
  exact .inl h

theorem flatfsAllocBlock_inode (s : FS) : (flatfsAllocBlock s).2.inode = s.inode := by
  unfold flatfsAllocBlock
  split
  · rfl
  · split <;> rfl

theorem flatfsFreeBlock_freeInodes (s : FS) (b : Nat) :
    (flatfsFreeBlock s b).2.super.freeInodes = s.super.freeInodes ∧
      (flatfsFreeBlock s b).2.inode = s.inode := by
  unfold flatfsFreeBlock
  split
  · exact ⟨rfl, rfl⟩
  · dsimp only
    split
    · exact ⟨rfl, rfl⟩
    · split <;> exact ⟨rfl, rfl⟩

theorem flatfsAllocBlock_freeInodes (s : FS) :
    (flatfsAllocBlock s).2.super.freeInodes = s.super.freeInodes := by
  unfold flatfsAllocBlock
  split
  · rfl
  · split <;> rfl

/-- An inode and a block are free. -/
structure Room (s : FS) : Prop where
  inode : ∃ ino, (flatfsInodeAlloc s).1 = .ok ino
  block : s.super.freeBlocks ≠ 0

/-- **`flatfs_dir_create` never comes to insert.** With room it fails at `flatfs_htree_init`, and
    the inode it took is lost to the count: `flatfs_inode_free` finds the slot unused. -/
theorem dirCreateBegin_fails (hT : TreeOk s) (parent : Nat) (name : Text) (mode : Nat) :
    ∃ e s', dirCreateBegin s parent name mode = some (.ended e s') ∧ e ≠ .ok ∧ e ≠ .notfound ∧
      (Room s → e = .bounds ∧ s'.super.freeInodes = s.super.freeInodes - 1) := by
  unfold dirCreateBegin
  rcases flatfsInodeAlloc_cases s with ⟨-, ha⟩ | ⟨-, ino, h0, hlt, hfree, ha⟩
  · rw [ha]
    refine ⟨_, _, rfl, by simp, by simp, fun hR => ?_⟩
    grind [hR.inode]
  rw [ha]
  dsimp only
  have hin := flatfsAllocBlock_inode (s.tookInode ino)
  have hfi := flatfsAllocBlock_freeInodes (s.tookInode ino)
  rcases flatfsAllocBlock_spec (wf_tookInode hT.wf ino).inv with ⟨hf, hb⟩ | ⟨k, -, -, hb, -⟩
  · rw [hb]
    exact ⟨_, _, rfl, by simp, by simp, fun hR => absurd hf hR.block⟩
  rw [hb] at hin hfi ⊢
  dsimp only at hin hfi ⊢
  generalize (s.tookInode ino).takeBit k = s1 at hin hfi
  generalize (s.tookInode ino).super.dataStart + k = rb
  have hslot : (s1.inode ino).ino = 0 ∧ (s1.inode ino).inodeMagic = 0 := by
    rw [hin]
    exact ⟨(hT.free ino hlt hfree).1, hfree⟩
  have hb := flatfsHtreeInit_unused hslot.1 rb
  have hkeep : (flatfsHtreeInit s1 ino rb).2.super = s1.super ∧
      ((flatfsHtreeInit s1 ino rb).2.inode ino).inodeMagic = 0 := by
    unfold flatfsHtreeInit flatfsInodeWrite
    dsimp only
    rw [if_pos]
    swap
    · exact .inl hslot.1
    refine ⟨rfl, ?_⟩
    show (update s1.inode ino _ ino).inodeMagic = 0
    rw [update_self]
    exact hslot.2
  generalize flatfsHtreeInit s1 ino rb = q at hb hkeep
  obtain ⟨e, s2⟩ := q
  dsimp only at hb hkeep
  subst hb
  refine ⟨_, _, rfl, by simp, by simp, fun _ => ⟨rfl, ?_⟩⟩
  obtain ⟨hfi', hin'⟩ := flatfsFreeBlock_freeInodes s2 rb
  have hfree' : (flatfsInodeFree (flatfsFreeBlock s2 rb).2 ino).2 = (flatfsFreeBlock s2 rb).2 := by
    unfold flatfsInodeFree
    split
    · rfl
    · rw [if_pos (by rw [hin']; exact hkeep.2)]
  show (flatfsInodeFree (flatfsFreeBlock s2 rb).2 ino).2.super.freeInodes = _
  rw [hfree', hfi', hkeep.1, hfi]
  rfl

theorem mkdirBegin_spec (hT : TreeOk s) (path : Text) (o : Outs) (mode : Nat) :
    BeginOk mac tails s path o (.mkdir mode) (mkdirBegin mac tails s path o mode) := by
  have hno : ¬ (Create.mkdir mode).OldMissing mac tails s := id
  obtain ⟨e, o', hw, -, -⟩ := pathWalk_cases mac tails hT true path o
  unfold mkdirBegin
  rw [hw]
  dsimp only
  split
  · exact .error hno (fun _ _ h => h.2) (by simp) (by simp) (.inl rfl)
  rename_i hok
  split
  · rename_i he
    exact .error hno (fun _ _ h => h.2) hok he (.inl rfl)
  rename_i he
  by_cases hsome : s.FreeInode
  · obtain ⟨e', s', hd, h1, h2, -⟩ := dirCreateBegin_fails hT o'.parent o'.last mode
    rw [hd]
    exact .error hno (fun _ _ h => h.2) h1 h2 (.inr ⟨hsome, o', by rw [hw, not_not.1 he]⟩)
  · have ha := (flatfsInodeAlloc_cases s).resolve_right fun h => hsome h.1
    unfold dirCreateBegin
    rw [ha.2]
    exact .error hno (fun _ _ h => h.2) (by simp) (by simp) (.inl rfl)

theorem Stores.prepared {c : Create} (hT : TreeOk s) (h : Stores mac tails s c x s') : Prepared s s' := by
  cases h with
  | made j hj => exact hj.prepared hT
  | written j j1 s1 z hj _ hg =>
    have hp := hj.prepared hT
    obtain ⟨hk, hW, hin⟩ := hg.stored (over_stored_self _ j) z
    refine ⟨hW, by show s1.super.totalInodes = _; rw [hg.super]; rfl, hp.kept.trans hk, fun y hy => ?_⟩
    have hne : y ≠ j.ino := fun e => hy.2 (e ▸ hj.unused)
    rw [hin, update_of_ne hne]
    exact hp.self y hy
  | linked old oldOut oo _ _ hx _ => exact prepared_link hT hx _

theorem Stores.ino {c : Create} (hT : TreeOk s) (h : Stores mac tails s c x s') : x ≠ 0 ∧ x < s.super.totalInodes := by
  cases h with
  | made j hj => exact ⟨hj.pos, hj.lt⟩
  | written j j1 s1 z hj _ _ => exact ⟨hj.pos, hj.lt⟩
  | linked old oldOut oo _ _ hx _ => exact ⟨hT.pos hx, hx.1⟩

theorem Create.begun_spec (mac : Mac) (tails : Nat → Text)
    (hT : TreeOk s) (c : Create) (path : Text) (o : Outs) :
    BeginOk mac tails s path o c (c.begun mac tails s path o) := by
  cases c with
  | openCreat flags ts => exact openBegin_spec hT path o flags ts
  | mkdir mode => exact mkdirBegin_spec hT path o mode
  | symlink target => exact symlinkBegin_spec hT path o target
  | link old oldOut => exact linkBegin_spec hT path o old oldOut

end Begin

end Kobalt.Flatfs

/-
  Subject: WHO POINTS AT WHICH BLOCK. Every place of the image that can hold a block pointer is a
  `Slot`; `FS.val` reads it; `Own` says that what a slot holds is allocated and that no block is
  held twice. One rule per way a block or a pointer is written.
-/
import Kobalt.Flatfs.File
import Mathlib.Data.Set.Card
import Mathlib.Order.Interval.Finset.Nat

namespace Kobalt.Flatfs

open Function

variable {c : Bytes} {s t : FS} {i : Inode} {b j k l p : Nat}

/-! ## 1. Slots -/

/-- A place that can hold a block pointer. -/
inductive Slot where
  | ptr (ino k : Nat)
  | ind (ino j : Nat)
  | dbl (ino j : Nat)
  | dblInd (ino j k : Nat)
  | hroot (ino : Nat)
  | hleaf (ino b : Nat)
  deriving DecidableEq, Repr

variable {a : Slot}

/-- The slots whose block holds further pointers. -/
def Slot.isIndex : Slot → Bool
  | .ptr _ k => 10 ≤ k
  | .dbl _ _ => true
  | .hroot _ => true
  | _ => false

/-- A live inode that keeps its contents in blocks. -/
def Inode.mapped (i : Inode) : Bool := i.inodeMagic != 0 && !i.isInline

def rootPtr (s : FS) (ino k : Nat) : Nat :=
  if ino < s.super.totalInodes ∧ (s.inode ino).mapped = true ∧ k < 12 then (s.inode ino).blkPtr k
  else 0

def htreeBlk (s : FS) (ino : Nat) : Nat :=
  if ino < s.super.totalInodes then (s.inode ino).dirHtreeBlk else 0

/-- Word `j` of the pointer block `p`; nothing is read through a null pointer. -/
def wordOf (s : FS) (p j : Nat) : Nat := if p = 0 ∨ 512 ≤ j then 0 else ptrAt (s.blk p) j

/-- `children[b]` of the hash-tree root at block `r`. -/
def childOf (s : FS) (r b : Nat) : Nat :=
  if r = 0 ∨ 256 ≤ b then 0 else leAt (s.blk r) (16 + 8 * b) 8

/-- **What a slot holds**, 0 if it is empty or not in use. -/
def FS.val (s : FS) : Slot → Nat
  | .ptr ino k => rootPtr s ino k
  | .ind ino j => wordOf s (rootPtr s ino 10) j
  | .dbl ino j => wordOf s (rootPtr s ino 11) j
  | .dblInd ino j k => wordOf s (wordOf s (rootPtr s ino 11) j) k
  | .hroot ino => htreeBlk s ino
  | .hleaf ino b => childOf s (htreeBlk s ino) b

/-- **Ownership**: what a slot holds is allocated, and no block is held by two slots. -/
structure Own (s : FS) : Prop where
  alloc : ∀ a, s.val a ≠ 0 → s.Allocated (s.val a)
  inj : ∀ a b, s.val a = s.val b → s.val a ≠ 0 → a = b

/-- **A well-formed file system**: the allocator's books are right and so is ownership. -/
structure Wf (s : FS) : Prop where
  inv : AllocInv s
  dataPos : 0 < s.super.dataStart
  own : Own s

/-! ## 2. Writing blocks -/

theorem wordOf_setBlk (h : p ≠ 0 → p ≠ b) : wordOf (s.setBlk b c) p j = wordOf s p j := by
  unfold wordOf
  by_cases hp : p = 0 ∨ 512 ≤ j
  · rw [if_pos hp, if_pos hp]
  · rw [if_neg hp, if_neg hp, FS.setBlk_blk_of_ne (h fun e => hp (.inl e))]

theorem childOf_setBlk {r : Nat} (h : r ≠ 0 → r ≠ b) : childOf (s.setBlk b c) r j = childOf s r j := by
  unfold childOf
  by_cases hp : r = 0 ∨ 256 ≤ j
  · rw [if_pos hp, if_pos hp]
  · rw [if_neg hp, if_neg hp, FS.setBlk_blk_of_ne (h fun e => hp (.inl e))]

/-- **A block no index slot holds can be written freely**: every slot reads as before. -/
theorem val_setBlk (h : ∀ a, a.isIndex = true → s.val a ≠ 0 → s.val a ≠ b) : (s.setBlk b c).val = s.val := by
  have h10 : ∀ ino, rootPtr s ino 10 ≠ 0 → rootPtr s ino 10 ≠ b := fun ino => h (.ptr ino 10) rfl
  have h11 : ∀ ino, rootPtr s ino 11 ≠ 0 → rootPtr s ino 11 ≠ b := fun ino => h (.ptr ino 11) rfl
  funext a
  cases a with
  | ptr ino k => rfl
  | ind ino j => exact wordOf_setBlk (h10 ino)
  | dbl ino j => exact wordOf_setBlk (h11 ino)
  | dblInd ino j k =>
    show wordOf (s.setBlk b c) (wordOf (s.setBlk b c) (rootPtr s ino 11) j) k = _
    rw [wordOf_setBlk (h11 ino)]
    exact wordOf_setBlk (h (.dbl ino j) rfl)
  | hroot ino => rfl
  | hleaf ino j => exact childOf_setBlk (h (.hroot ino) rfl)

theorem val_setBlk_data (hO : Own s) (ha : a.isIndex = false) (c : Bytes) :
    (s.setBlk (s.val a) c).val = s.val := by grind [val_setBlk, hO.inj]

theorem allocInv_setBlk (hI : AllocInv s) (b : Nat) (c : Bytes) : AllocInv (s.setBlk b c) :=
  hI.congr rfl rfl rfl rfl rfl

theorem wf_setBlk_data (hW : Wf s) (ha : a.isIndex = false) (c : Bytes) : Wf (s.setBlk (s.val a) c) := by
  refine ⟨allocInv_setBlk hW.inv _ c, hW.dataPos, ?_, ?_⟩
  · rw [val_setBlk_data hW.own ha]; exact hW.own.alloc
  · rw [val_setBlk_data hW.own ha]; exact hW.own.inj

theorem wf_of_le (hW : Wf s) (hI : AllocInv t) (hd : t.super.dataStart = s.super.dataStart)
    (hal : ∀ b, s.Allocated b → t.Allocated b) (hle : ∀ a, t.val a = 0 ∨ t.val a = s.val a) : Wf t := by
  refine ⟨hI, by rw [hd]; exact hW.dataPos, fun a ha => ?_, fun a b hab ha => ?_⟩
  · grind [hW.own.alloc]
  grind [hW.own.inj]

/-! ## 3. A fresh block -/

theorem FS.takeBit_blk (s : FS) (k : Nat) : (s.takeBit k).blk =
    update s.blk (allocTake s (k / 2048) (k % 2048)).1 zeroBytes := rfl

/-- **A freshly allocated block is held nowhere**, so taking it changes no slot. -/
theorem val_takeBit (hW : Wf s) (hk : k < s.dataBlocks) (hc : s.bitAt k = false) :
    (s.takeBit k).val = s.val ∧ ∀ a, s.val a ≠ s.super.dataStart + k := by
  have hno : ∀ a, s.val a ≠ s.super.dataStart + k := by
    intro a e
    have hpos := hW.dataPos
    have h3 := (hW.own.alloc a (by omega)).2.2
    rw [e, Nat.add_sub_cancel_left, hc] at h3
    cases h3
  refine ⟨?_, hno⟩
  have hv : (s.takeBit k).val = (s.setBlk (s.super.dataStart + k) zeroBytes).val := by
    funext a
    have hb : (s.takeBit k).blk = (s.setBlk (s.super.dataStart + k) zeroBytes).blk := by
      rw [FS.takeBit_blk, allocTake_fst hW.inv hk]
      rfl
    cases a <;> simp only [FS.val, wordOf, childOf, hb] <;> rfl
  rw [hv]
  exact val_setBlk fun a _ _ => hno a

theorem wf_takeBit (hW : Wf s) (hk : k < s.dataBlocks)
    (hc : s.bitAt k = false) (hI : AllocInv (s.takeBit k)) : Wf (s.takeBit k) :=
  wf_of_le hW hI rfl (fun b hb => (allocated_takeBit hk b).mpr (.inr hb))
    fun a => .inr (by rw [(val_takeBit hW hk hc).1])

/-! ## 4. Filling a slot -/

theorem blkPtr_setBlkPtr {v : Nat} (hv : v < 256 ^ 8) :
    (i.setBlkPtr k v).blkPtr j = if j = k then v else i.blkPtr j := by
  unfold Inode.blkPtr Inode.setBlkPtr
  by_cases h : j = k
  · subst h
    rw [if_pos rfl]
    exact leAt_putLE_self hv
  · rw [if_neg h]
    exact leAt_putLE_of_disjoint (by omega)

theorem ptrAt_setPtr {v : Nat} (hv : v < 256 ^ 8) :
    ptrAt (setPtr c k v) j = if j = k then v else ptrAt c j := by
  unfold ptrAt setPtr
  by_cases h : j = k
  · subst h
    rw [if_pos rfl]
    exact leAt_putLE_self hv
  · rw [if_neg h]
    exact leAt_putLE_of_disjoint (by omega)

theorem wordOf_zero (h : s.blk p = zeroBytes) : wordOf s p j = 0 := by
  unfold wordOf
  split
  · rfl
  · rw [h]; exact leAt_zeroBytes _ _

theorem wordOf_setPtr {v q : Nat} (hp : p ≠ 0) (hj : j < 512) (hv : v < 256 ^ 8) :
    wordOf (s.setBlk p (setPtr (s.blk p) j v)) q k = if q = p ∧ k = j then v else wordOf s q k := by
  by_cases hq : q = p
  · subst hq
    unfold wordOf
    by_cases hk : 512 ≤ k
    · grind
    · have hr : ¬ (q = 0 ∨ 512 ≤ k) := by omega
      rw [if_neg hr, if_neg hr, FS.setBlk_blk_self, ptrAt_setPtr hv]
      simp
  · rw [if_neg (fun h => hq h.1)]
    exact wordOf_setBlk fun _ => hq

theorem htreeBlk_setInode {ino : Nat} (hh : i.dirHtreeBlk = (s.inode ino).dirHtreeBlk) (x : Nat) :
    htreeBlk (s.setInode ino i) x = htreeBlk s x := by
  unfold htreeBlk FS.setInode
  by_cases hx : x = ino
  · subst hx; simp only [update_self, hh]
  · simp only [update_of_ne hx]

/-- Replacing an inode by one that agrees with it on the fields slots are read through changes
    no slot. -/
theorem val_setInode_congr {ino : Nat} (hm : i.mapped = (s.inode ino).mapped)
    (hd : i.mapped = true → ∀ k < 12, i.blkPtr k = (s.inode ino).blkPtr k)
    (hh : i.dirHtreeBlk = (s.inode ino).dirHtreeBlk) : (s.setInode ino i).val = s.val := by
  have hroot : ∀ x k, rootPtr (s.setInode ino i) x k = rootPtr s x k := by
    intro x k
    unfold rootPtr FS.setInode
    by_cases hx : x = ino
    · grind
    · simp only [update_of_ne hx]
  funext a
  cases a <;> simp only [FS.val, hroot, htreeBlk_setInode hh] <;> rfl

theorem val_fillPtr {ino : Nat} (hino : ino < s.super.totalInodes)
    (hm : i.mapped = true) (hh : i.dirHtreeBlk = (s.inode ino).dirHtreeBlk)
    (hd : ∀ j < 12, i.blkPtr j = if j = k then b else rootPtr s ino j) (hk : k < 12)
    (h0 : rootPtr s ino k = 0) (hz : 10 ≤ k → s.blk b = zeroBytes) :
    (s.setInode ino i).val = update s.val (.ptr ino k) b := by
  have hroot : ∀ x j, rootPtr (s.setInode ino i) x j =
      if x = ino ∧ j = k then b else rootPtr s x j := by
    intro x j
    by_cases hx : x = ino
    · subst hx
      unfold rootPtr FS.setInode
      simp only [update_self, hm, hino, true_and]
      by_cases hj : j < 12
      · rw [if_pos hj, hd j hj]
        simp [rootPtr, hino]
      grind
    · unfold rootPtr FS.setInode
      grind
  -- below the slot there was nothing, and the new block holds nothing
  have hw : ∀ x l j, 10 ≤ l → wordOf (s.setInode ino i) (rootPtr (s.setInode ino i) x l) j =
      wordOf s (rootPtr s x l) j := by
    intro x l j hl
    rw [hroot]
    by_cases hx : x = ino ∧ l = k
    · obtain ⟨rfl, rfl⟩ := hx
      rw [if_pos ⟨rfl, rfl⟩, h0, wordOf_zero (s := s.setInode x i) (hz hl)]
      simp [wordOf]
    · rw [if_neg hx]
      rfl
  have hht := htreeBlk_setInode hh
  funext a
  cases a with
  | ptr x j =>
    show rootPtr (s.setInode ino i) x j = _
    rw [hroot]
    by_cases hxj : x = ino ∧ j = k
    · grind
    · rw [if_neg hxj, update_of_ne fun e => hxj ⟨(Slot.ptr.inj e).1, (Slot.ptr.inj e).2⟩]
      rfl
  | ind x j =>
    rw [update_of_ne (show Slot.ind x j ≠ .ptr ino k by simp)]
    exact hw x 10 j (by decide)
  | dbl x j =>
    rw [update_of_ne (show Slot.dbl x j ≠ .ptr ino k by simp)]
    exact hw x 11 j (by decide)
  | dblInd x j l =>
    rw [update_of_ne (show Slot.dblInd x j l ≠ .ptr ino k by simp)]
    show wordOf (s.setInode ino i) (wordOf (s.setInode ino i) (rootPtr (s.setInode ino i) x 11) j) l
      = wordOf s (wordOf s (rootPtr s x 11) j) l
    rw [hw x 11 j (by decide)]
    rfl
  | hroot x =>
    rw [update_of_ne (show Slot.hroot x ≠ .ptr ino k by simp)]
    exact hht x
  | hleaf x j =>
    rw [update_of_ne (show Slot.hleaf x j ≠ .ptr ino k by simp)]
    show childOf (s.setInode ino i) (htreeBlk (s.setInode ino i) x) j = childOf s (htreeBlk s x) j
    rw [hht x]
    rfl

/-- The slot a word of an index block is. -/
def Slot.below : Slot → Nat → Slot
  | .ptr ino k, j => if k = 10 then .ind ino j else .dbl ino j
  | .dbl ino i, j => .dblInd ino i j
  | .hroot ino, j => .hleaf ino j
  | a, _ => a

/-- An index slot of a file (not of a directory's hash tree). -/
def Slot.isFileIndex : Slot → Bool
  | .ptr _ k => k = 10 || k = 11
  | .dbl _ _ => true
  | _ => false

theorem Slot.isFileIndex_cases {a : Slot} (ha : a.isFileIndex = true) :
    (∃ ino, a = .ptr ino 10) ∨ (∃ ino, a = .ptr ino 11) ∨ ∃ ino i, a = .dbl ino i := by
  cases a with
  | ptr ino k =>
    simp only [Slot.isFileIndex, Bool.or_eq_true, decide_eq_true_eq] at ha
    rcases ha with rfl | rfl
    · exact .inl ⟨ino, rfl⟩
    · exact .inr (.inl ⟨ino, rfl⟩)
  | dbl ino i => exact .inr (.inr ⟨ino, i, rfl⟩)
  | ind | dblInd | hroot | hleaf => cases ha

/-- Which slots are words of the index block in `a`. -/
structure Slot.Below (a : Slot) (j : Nat) : Prop where
  ptr : ∀ x k, Slot.ptr x k ≠ a.below j
  hroot : ∀ x, Slot.hroot x ≠ a.below j
  hleaf : ∀ x k, Slot.hleaf x k ≠ a.below j
  ind : ∀ x k, Slot.ind x k = a.below j ↔ .ptr x 10 = a ∧ k = j
  dbl : ∀ x k, Slot.dbl x k = a.below j ↔ .ptr x 11 = a ∧ k = j
  dblInd : ∀ x i k, Slot.dblInd x i k = a.below j ↔ .dbl x i = a ∧ k = j

theorem Slot.below_below {a : Slot} (ha : a.isFileIndex = true) (j : Nat) : a.Below j := by
  rcases Slot.isFileIndex_cases ha with ⟨ino, rfl⟩ | ⟨ino, rfl⟩ | ⟨ino, i, rfl⟩ <;>
    constructor <;> simp [Slot.below, and_assoc]

theorem val_below (ha : a.isFileIndex = true) : s.val (a.below j) = wordOf s (s.val a) j := by
  rcases Slot.isFileIndex_cases ha with ⟨ino, rfl⟩ | ⟨ino, rfl⟩ | ⟨ino, i, rfl⟩ <;> rfl

theorem val_below_zero (ha : a.isFileIndex = true) (h : s.val a = 0) : s.val (a.below j) = 0 := by
  rw [val_below ha, h]
  simp [wordOf]

/-- **A word of a file's index block is filled**: that slot, and no other, changes. -/
theorem val_fillWord (hO : Own s) (ha : a.isFileIndex = true)
    (hp : s.val a ≠ 0) (hj : j < 512) (h0 : s.val (a.below j) = 0) (hb : b < 256 ^ 8)
    (hfresh : ∀ x, s.val x ≠ b) (hz : s.blk b = zeroBytes) :
    (s.setBlk (s.val a) (setPtr (s.blk (s.val a)) j b)).val = update s.val (a.below j) b := by
  -- a slot holding the written block is `a` itself
  have huniq : ∀ x, s.val x = s.val a ↔ x = a :=
    fun x => ⟨fun e => hO.inj x a e (e ▸ hp), fun e => e ▸ rfl⟩
  have h10 : ∀ x, rootPtr s x 10 = s.val a ↔ .ptr x 10 = a := fun x => huniq (.ptr x 10)
  have h11 : ∀ x, rootPtr s x 11 = s.val a ↔ .ptr x 11 = a := fun x => huniq (.ptr x 11)
  have hdb : ∀ x i, wordOf s (rootPtr s x 11) i = s.val a ↔ .dbl x i = a :=
    fun x i => huniq (.dbl x i)
  have hword := fun q k => wordOf_setPtr (s := s) (q := q) (k := k) hp hj hb
  have hnb : b ≠ s.val a := fun e => hfresh a e.symm
  have hB := Slot.below_below ha j
  funext x
  cases x with
  | ptr x k => rw [update_of_ne (hB.ptr x k)]; rfl
  | ind x k =>
    show wordOf (s.setBlk _ _) (rootPtr s x 10) k = _
    rw [hword, update_apply]
    simp only [h10, hB.ind]
    rfl
  | dbl x k =>
    show wordOf (s.setBlk _ _) (rootPtr s x 11) k = _
    rw [hword, update_apply]
    simp only [h11, hB.dbl]
    rfl
  | dblInd x i k =>
    show wordOf (s.setBlk _ _) (wordOf (s.setBlk _ _) (rootPtr s x 11) i) k = _
    rw [hword (rootPtr s x 11) i, update_apply]
    simp only [hB.dblInd, ← hdb]
    by_cases hc : rootPtr s x 11 = s.val a ∧ i = j
    · -- the word just filled: nothing below it before, nothing below it now
      have hold : wordOf s (rootPtr s x 11) i = 0 := by
        have hd : Slot.dbl x i = a.below j := (hB.dbl x i).2 ⟨(h11 x).1 hc.1, hc.2⟩
        rw [← hd] at h0
        exact h0
      have hval : s.val (.dblInd x i k) = 0 := by
        show wordOf s (wordOf s (rootPtr s x 11) i) k = 0
        rw [hold]
        simp [wordOf]
      rw [if_pos hc, hword, if_neg (fun h => hnb h.1), wordOf_zero hz, hval, hold,
        if_neg (fun h => hp h.1.symm)]
    · rw [if_neg hc, hword]
      rfl
  | hroot x => rw [update_of_ne (hB.hroot x)]; rfl
  | hleaf x k =>
    rw [update_of_ne (hB.hleaf x k)]
    refine childOf_setBlk fun _ e => ?_
    have hr := (huniq (.hroot x)).1 e
    rw [← hr] at ha
    cases ha

/-! ## 5. Growing -/

/-- **What filling holes of files does.** Every slot in use keeps its block, a block that is not
    a file's index block keeps its bytes, a new data block is zero, and directories are as they
    were. -/
structure Grow (t t' : FS) : Prop where
  wf : Wf t'
  super : t'.super = { t.super with freeBlocks := t'.super.freeBlocks }
  keep : ∀ a, t.val a ≠ 0 → t'.val a = t.val a
  data : ∀ a, a.isFileIndex = false → t.val a ≠ 0 → t'.blk (t.val a) = t.blk (t.val a)
  fresh : ∀ a, a.isFileIndex = false → t.val a = 0 → t'.val a ≠ 0 →
    t'.blk (t'.val a) = zeroBytes
  hroot : ∀ x, t'.val (.hroot x) = t.val (.hroot x)
  hleaf : ∀ x b, t'.val (.hleaf x b) = t.val (.hleaf x b)

theorem Grow.refl (hW : Wf t) : Grow t t :=
  ⟨hW, rfl, fun _ _ => rfl, fun _ _ _ => rfl, fun _ _ h h' => absurd h h', fun _ => rfl, fun _ _ => rfl⟩

theorem Grow.trans {t' t'' : FS} (h : Grow t t') (h' : Grow t' t'') : Grow t t'' := by
  refine ⟨h'.wf, ?_, fun a ha => ?_, fun a ha hv => ?_, fun a ha hv hv'' => ?_,
    fun x => (h'.hroot x).trans (h.hroot x),
    fun x b => (h'.hleaf x b).trans (h.hleaf x b)⟩
  · rw [h'.super, h.super]
  · rw [h'.keep a (by rw [h.keep a ha]; exact ha), h.keep a ha]
  · have hk := h.keep a hv
    grind [h.data, h'.data]
  · by_cases hv' : t'.val a = 0
    · exact h'.fresh a ha hv' hv''
    grind [h'.keep, h'.data, h.fresh]

/-- **An empty slot that gets a fresh block** keeps a file system well formed. -/
theorem wf_fill {t' : FS} (hW : Wf t) (hno : ∀ x, t.val x ≠ t.super.dataStart + k) (hI : AllocInv t')
    (hd : t'.super.dataStart = t.super.dataStart)
    (hal : ∀ b, t'.Allocated b ↔ b = t.super.dataStart + k ∨ t.Allocated b)
    (hv : t'.val = update t.val a (t.super.dataStart + k)) : Wf t' := by
  refine ⟨hI, by rw [hd]; exact hW.dataPos, fun x hx => ?_, fun x y hxy hx => ?_⟩
  · rw [hal]
    rw [hv, update_apply] at hx ⊢
    split at hx
    · exact .inl (if_pos ‹_›)
    · rename_i hxa
      rw [if_neg hxa]
      exact .inr (hW.own.alloc x hx)
  · rw [hv] at hxy hx
    simp only [update_apply] at hxy hx
    by_cases hxa : x = a
    · grind
    · rw [if_neg hxa] at hxy hx
      by_cases hya : y = a
      · grind
      · rw [if_neg hya] at hxy
        exact hW.own.inj x y hxy hx

theorem grow_fill {t' : FS} (hW : Wf t) (hno : ∀ x, t.val x ≠ t.super.dataStart + k) (hI : AllocInv t')
    (hs : t'.super = { t.super with freeBlocks := t'.super.freeBlocks })
    (hal : ∀ b, t'.Allocated b ↔ b = t.super.dataStart + k ∨ t.Allocated b)
    (h0 : t.val a = 0) (hv : t'.val = update t.val a (t.super.dataStart + k))
    (hr : ∀ x, .hroot x ≠ a) (hl : ∀ x b, .hleaf x b ≠ a)
    (hblk : ∀ x, x.isFileIndex = false → t.val x ≠ 0 → t'.blk (t.val x) = t.blk (t.val x))
    (hz : t'.blk (t.super.dataStart + k) = zeroBytes) : Grow t t' := by
  refine ⟨wf_fill hW hno hI (by rw [hs]) hal hv, hs, fun x hx => ?_, hblk, fun x _ hx hx' => ?_, fun x => ?_, fun x b => ?_⟩
  · rw [hv, update_of_ne fun e : x = a => hx (e ▸ h0)]
  · rw [hv, update_apply] at hx' ⊢
    grind
  · rw [hv, update_of_ne (hr x)]
  · rw [hv, update_of_ne (hl x b)]

/-! ## 6. The walk of `map_block` -/

/-- The file system as a call sees it that works on the copy `i` of an inode. -/
def FS.over (s : FS) (i : Inode) : FS := s.setInode i.ino i

theorem allocInv_over : AllocInv (s.over i) ↔ AllocInv s :=
  ⟨fun h => h.congr rfl rfl rfl rfl rfl, fun h => h.congr rfl rfl rfl rfl rfl⟩

theorem FS.over_blk (s : FS) (i : Inode) : (s.over i).blk = s.blk := rfl

theorem FS.over_setBlk (s : FS) (i : Inode) (b : Nat) (c : Bytes) :
    (s.setBlk b c).over i = (s.over i).setBlk b c := rfl

theorem FS.over_takeBit (s : FS) (i : Inode) (k : Nat) : (s.takeBit k).over i = (s.over i).takeBit k := rfl

theorem FS.setInode_over (s : FS) (i j : Inode) (h : j.ino = i.ino) :
    (s.over i).setInode i.ino j = s.over j := by
  unfold FS.over
  rw [h, FS.setInode_setInode]

/-- A copy that agrees on the fields slots are read through gives the same slots. -/
theorem val_over_congr {j : Inode} (h : j.ino = i.ino) (hm : j.mapped = i.mapped)
    (hd : j.mapped = true → ∀ k < 12, j.blkPtr k = i.blkPtr k) (hh : j.dirHtreeBlk = i.dirHtreeBlk) :
    (s.over j).val = (s.over i).val := by
  have hself : (s.over i).inode i.ino = i := update_self ..
  rw [← FS.setInode_over s i j h]
  grind [val_setInode_congr]

theorem flatfsInodeWrite_ok (h0 : i.ino ≠ 0) (hino : i.ino < s.super.totalInodes) :
    flatfsInodeWrite s i = (.ok, s.setInode i.ino { i with crc32 := inodeCrc i }) :=
  if_neg (by omega)

theorem flatfsInodeWrite_set {ino : Nat} (hi : i.ino = ino) (h0 : ino ≠ 0)
    (hlt : ino < s.super.totalInodes) : flatfsInodeWrite (s.setInode ino i) i =
      (.ok, s.setInode ino { i with crc32 := inodeCrc i }) := by
  subst hi
  rw [flatfsInodeWrite_ok (s := s.setInode i.ino i) h0 hlt, FS.setInode_setInode]

theorem wf_over_empty (hW : Wf s)
    (hm : i.mapped = true → ∀ k < 12, i.blkPtr k = 0) (hh : i.dirHtreeBlk = 0) : Wf (s.over i) := by
  have hroot : ∀ x k, rootPtr (s.over i) x k = 0 ∨ rootPtr (s.over i) x k = rootPtr s x k := by
    intro x k
    unfold rootPtr FS.over FS.setInode
    by_cases hx : x = i.ino
    · grind
    · right; simp only [update_of_ne hx]
  have hht : ∀ x, htreeBlk (s.over i) x = 0 ∨ htreeBlk (s.over i) x = htreeBlk s x := by
    intro x
    unfold htreeBlk FS.over FS.setInode
    by_cases hx : x = i.ino
    · left; simp [hx, hh]
    · right; simp only [update_of_ne hx]
  have hword : ∀ {p q : Nat}, p = 0 ∨ p = q → ∀ j, wordOf (s.over i) p j = 0 ∨ wordOf (s.over i) p j = wordOf s q j := by
    rintro p q (rfl | rfl) j
    · exact .inl (if_pos (.inl rfl))
    · exact .inr rfl
  refine wf_of_le hW (allocInv_over.2 hW.inv) rfl (fun _ hb => hb) fun a => ?_
  cases a with
  | ptr x k => exact hroot x k
  | ind x j => exact hword (hroot x 10) j
  | dbl x j => exact hword (hroot x 11) j
  | dblInd x j k => exact hword (hword (hroot x 11) j) k
  | hroot x => exact hht x
  | hleaf x b =>
    show childOf _ (htreeBlk _ x) b = 0 ∨ childOf _ (htreeBlk _ x) b = _
    rcases hht x with h | h
    · rw [h]; exact .inl (by simp [childOf])
    · rw [h]; exact .inr rfl

theorem wf_over_inline (hW : Wf s) (hm : i.mapped = false) (hh : i.dirHtreeBlk = 0) : Wf (s.over i) :=
  wf_over_empty hW (fun h => by rw [hm] at h; cases h) hh

theorem rootPtr_over (hm : i.mapped = true) (hino : i.ino < s.super.totalInodes) (hk : k < 12) :
    rootPtr (s.over i) i.ino k = i.blkPtr k := by
  unfold rootPtr FS.over FS.setInode
  grind

/-- Block `dataStart + k` was free, and taking it is what the allocator does. -/
structure Fresh (t : FS) (k : Nat) : Prop where
  no : ∀ a, t.val a ≠ t.super.dataStart + k
  pos : t.super.dataStart + k ≠ 0
  free : 0 < t.super.freeBlocks
  lt : t.super.dataStart + k < 256 ^ 8
  wf : Wf (t.takeBit k)
  val : (t.takeBit k).val = t.val
  alloc : ∀ b, (t.takeBit k).Allocated b ↔ b = t.super.dataStart + k ∨ t.Allocated b
  blk : (t.takeBit k).blk = update t.blk (t.super.dataStart + k) zeroBytes

theorem fresh_takeBit (hW : Wf t) (hk : k < t.dataBlocks)
    (hc : t.bitAt k = false) (hI : AllocInv (t.takeBit k)) : Fresh t k := by
  have htop := hW.inv.top
  have hcov := hW.inv.covers
  have hpos := hW.dataPos
  obtain ⟨hval, hno⟩ := val_takeBit hW hk hc
  refine ⟨hno, by omega, ?_, ?_, wf_takeBit hW hk hc hI, hval, allocated_takeBit hk, ?_⟩
  · have hused := usedBits_card_lt hW.inv hk hc
    have hfree := hW.inv.free
    omega
  · norm_num
    omega
  · rw [FS.takeBit_blk, allocTake_fst hW.inv hk]

theorem flatfsAllocBlock_fresh (hW : Wf s) : s.super.freeBlocks = 0 ∧ flatfsAllocBlock s = (.error .nospace, s) ∨
    ∃ k, flatfsAllocBlock s = (.ok (s.super.dataStart + k), s.takeBit k) ∧ Fresh s k := by
  refine (flatfsAllocBlock_spec hW.inv).imp_right ?_
  rintro ⟨k, hk, hc, he, hI⟩
  exact ⟨k, he, fresh_takeBit hW hk hc hI⟩

theorem flatfsAllocBlock_over (hW : Wf (s.over i)) :
    s.super.freeBlocks = 0 ∧ flatfsAllocBlock s = (.error .nospace, s) ∨ ∃ k, flatfsAllocBlock s = (.ok (s.super.dataStart + k), s.takeBit k) ∧ Fresh (s.over i) k := by
  rcases flatfsAllocBlock_spec (allocInv_over.1 hW.inv) with h | ⟨k, hk, hc, he, hI⟩
  · exact .inl h
  · exact .inr ⟨k, he, fresh_takeBit hW hk hc ((allocInv_over (i := i)).2 hI)⟩

/-- The copy `j` of an inode after blocks were added to the copy `i`. -/
structure Extends (i j : Inode) : Prop where
  same : j = { i with data := j.data, blocks := j.blocks }
  ptrs : ∀ k < 12, i.blkPtr k ≠ 0 → j.blkPtr k = i.blkPtr k

theorem Extends.refl (i : Inode) : Extends i i := ⟨rfl, fun _ _ _ => rfl⟩

theorem Extends.trans {j l : Inode} (h : Extends i j) (h' : Extends j l) : Extends i l := by
  refine ⟨?_, fun k hk hp => ?_⟩
  · rw [h'.same, h.same]
  grind [h.ptrs, h'.ptrs]

theorem Extends.ino {j : Inode} (h : Extends i j) : j.ino = i.ino := by rw [h.same]

theorem Extends.mapped {j : Inode} (h : Extends i j) : j.mapped = i.mapped := by rw [h.same]; rfl

theorem Extends.addBlock (i : Inode) : Extends i i.addBlock := ⟨rfl, fun _ _ _ => rfl⟩

/-- The blocks the slots hold. -/
def FS.held (t : FS) : Set Nat := {b | b ≠ 0 ∧ ∃ a, t.val a = b}

/-- `in->blocks` counts the blocks held, in units of 512 bytes. -/
def BlockBooks (t : FS) (i : Inode) : Prop := i.blocks = 8 * t.held.ncard

theorem BlockBooks.fill {t' : FS} {j : Inode} {n : Nat} (h : BlockBooks t i) (hW : Wf t) (hF : Fresh t n)
    (h0 : t.val a = 0) (hv : t'.val = update t.val a (t.super.dataStart + n))
    (hj : j.blocks = u64 (i.blocks + 8)) : BlockBooks t' j := by
  have hsub : t.held ⊆ Finset.Ico t.super.dataStart t.super.totalBlocks := by
    rintro _ ⟨hb, x, rfl⟩
    have hx := hW.own.alloc x hb
    exact Finset.mem_coe.2 (Finset.mem_Ico.2 ⟨hx.1, hx.2.1⟩)
  have hcard := Set.ncard_le_ncard hsub (Finset.finite_toSet _)
  rw [Set.ncard_coe_finset, Nat.card_Ico] at hcard
  have heq : t'.held = insert (t.super.dataStart + n) t.held := by
    ext b
    simp only [FS.held, hv, update_apply, Set.mem_insert_iff, Set.mem_ofPred_eq]
    grind [hF.pos]
  have hnew : t.super.dataStart + n ∉ t.held := fun ⟨_, x, hx⟩ => hF.no x hx
  have hcov : t.super.totalBlocks - t.super.dataStart ≤ _ := hW.inv.covers
  have hn := hW.inv.ngroupsLt
  rw [BlockBooks, heq, Set.ncard_insert_of_notMem hnew ((Finset.finite_toSet _).subset hsub), hj, h, u64]
  omega

/-- The block an empty slot needs. -/
def FS.hole (t : FS) (a : Slot) : Nat := if t.val a = 0 then 1 else 0

/-- **The outcome of a walk that fills `n` holes**: the file system grew, and the walk ends at what
    slot `a` holds now, or with the allocator's error where `a` was and is empty; that is so exactly
    if there are fewer than `n` free blocks. -/
structure Walked (s : FS) (i : Inode) (a : Slot) (n : Nat) (r : Level) : Prop where
  grow : Grow (s.over i) (r.2.2.over r.2.1)
  ext : Extends i r.2.1
  disk : r.2.2.inode = s.inode
  found : ∀ b, r.1 = .ok (some b) → b ≠ 0 ∧ (r.2.2.over r.2.1).val a = b
  only : ∀ x, x.isFileIndex = false → x ≠ a → (r.2.2.over r.2.1).val x = (s.over i).val x
  zero : ∀ b, r.1 = .ok (some b) → (s.over i).val a = 0 → r.2.2.blk b = zeroBytes
  same : (s.over i).val a ≠ 0 → r.2 = (i, s)
  cost : s.super.freeBlocks < n ∧ r.1 = .error .nospace ∨
    r.2.2.super.freeBlocks + n = s.super.freeBlocks ∧ ∃ b, r.1 = .ok (some b)
  failed : ∀ e, r.1 = .error e → e = .nospace ∧ (s.over i).val a = 0 ∧ (r.2.2.over r.2.1).val a = 0
  books : BlockBooks (s.over i) i → BlockBooks (r.2.2.over r.2.1) r.2.1

theorem Walked.noHole {n : Nat} {r : Level} (h : Walked s i a n r) :
    r.1 ≠ .ok none := by
  rcases h.cost with ⟨-, he⟩ | ⟨-, b, he⟩ <;> simp [he]

section Walk

variable {s : FS} {i : Inode} (hW : Wf (s.over i))
include hW

theorem walked_full (hb : b ≠ 0) (hv : (s.over i).val a = b) :
    Walked s i a ((s.over i).hole a) (.ok (some b), i, s) := by
  rw [FS.hole, if_neg (hv ▸ hb)]
  exact ⟨Grow.refl hW, Extends.refl i, rfl, fun _ h => by cases h; exact ⟨hb, hv⟩, fun _ _ _ => rfl,
    fun _ _ h => absurd (hv.symm.trans h) hb, fun _ => rfl, .inr ⟨rfl, b, rfl⟩, by simp, id⟩

theorem walked_nospace (h0 : (s.over i).val a = 0) (hf : s.super.freeBlocks = 0) :
    Walked s i a ((s.over i).hole a) (.error .nospace, i, s) := by
  rw [FS.hole, if_pos h0]
  exact ⟨Grow.refl hW, Extends.refl i, rfl, by simp, fun _ _ _ => rfl, by simp, fun h => absurd h0 h,
    .inl ⟨by omega, rfl⟩, fun _ h => by cases h; exact ⟨rfl, h0, h0⟩, id⟩

theorem walked_fill {i' : Inode} {d : Nat → Bytes} {n : Nat} (hF : Fresh (s.over i) n)
    (h0 : (s.over i).val a = 0) (hr : ∀ x, .hroot x ≠ a) (hl : ∀ x b, .hleaf x b ≠ a)
    (hv : ((FS.over { s.takeBit n with blk := d } i').val) = update (s.over i).val a (s.super.dataStart + n))
    (hd : ∀ x, x.isFileIndex = false → (s.over i).val x ≠ 0 → d ((s.over i).val x) = s.blk ((s.over i).val x))
    (hz : d (s.super.dataStart + n) = zeroBytes) (hext : Extends i i') (hb : i'.blocks = u64 (i.blocks + 8)) :
    Walked s i a ((s.over i).hole a) (.ok (some (s.super.dataStart + n)), i', { s.takeBit n with blk := d }) := by
  rw [FS.hole, if_pos h0]
  refine ⟨?_, hext, rfl, fun b hb => ?_, fun x _ hx => ?_, fun b hb _ => ?_, fun h => absurd h0 h,
    .inr ⟨Nat.sub_add_cancel hF.free, _, rfl⟩, by simp, fun h => h.fill hW hF h0 hv hb⟩
  · exact grow_fill hW hF.no (hF.wf.inv.congr rfl rfl rfl rfl rfl) rfl hF.alloc h0 hv hr hl hd hz
  · obtain rfl : s.super.dataStart + n = b := Option.some.inj (Except.ok.inj hb)
    refine ⟨hF.pos, ?_⟩
    rw [hv]
    exact update_self ..
  · rw [hv]
    exact update_of_ne hx ..
  · cases hb
    exact hz

theorem inodeSlot_walked (hm : i.mapped = true) (hino : i.ino < s.super.totalInodes) (hk : k < 12) :
    Walked s i (.ptr i.ino k) ((s.over i).hole (.ptr i.ino k)) (inodeSlot s i k true) := by
  have hroot := rootPtr_over hm hino hk
  unfold inodeSlot
  by_cases h0 : i.blkPtr k = 0
  swap
  · rw [if_neg h0]
    exact walked_full hW h0 hroot
  rw [if_pos h0, if_pos rfl]
  rcases flatfsAllocBlock_over hW with ⟨hf, he⟩ | ⟨n, he, hF⟩
  · rw [he]
    exact walked_nospace hW (hroot.trans h0) hf
  rw [he]
  have hd : ∀ j < 12, ((i.setBlkPtr k (s.super.dataStart + n)).addBlock).blkPtr j =
      if j = k then s.super.dataStart + n else rootPtr ((s.over i).takeBit n) i.ino j := by
    intro j hj
    have hj' : rootPtr ((s.over i).takeBit n) i.ino j = i.blkPtr j :=
      (congrFun hF.val (.ptr i.ino j)).trans (rootPtr_over hm hino hj)
    rw [hj']
    exact blkPtr_setBlkPtr hF.lt
  have hblk : (s.takeBit n).blk = _ := hF.blk
  refine walked_fill hW (d := (s.takeBit n).blk) hF (hroot.trans h0) (by simp) (by simp) ?_ (fun x _ _ => ?_) ?_
    ⟨rfl, fun j _ hp => ?_⟩ rfl
  · show ((s.takeBit n).over ((i.setBlkPtr k (s.super.dataStart + n)).addBlock)).val = _
    rw [← FS.setInode_over (s.takeBit n) i (i.setBlkPtr k (s.super.dataStart + n)).addBlock rfl,
      FS.over_takeBit, ← hF.val]
    refine val_fillPtr hino hm ?_ hd hk ?_ fun _ => ?_
    · show i.dirHtreeBlk = ((s.over i).inode i.ino).dirHtreeBlk
      simp [FS.over, FS.setInode]
    · exact (congrFun hF.val (.ptr i.ino k)).trans (hroot.trans h0)
    · rw [hF.blk]; exact update_self ..
  · rw [hblk]
    exact update_of_ne (hF.no x) ..
  · rw [hblk]
    exact update_self ..
  · exact (blkPtr_setBlkPtr hF.lt).trans (if_neg fun e : j = k => hp (e ▸ h0))

theorem blockSlot_walked (ha : a.isFileIndex = true) (hj : j < 512)
    (hp : p ≠ 0) (hv : (s.over i).val a = p) :
    Walked s i (a.below j) ((s.over i).hole (a.below j)) (blockSlot s i p j true) := by
  have hbelow : (s.over i).val (a.below j) = ptrAt (s.blk p) j := by
    rw [val_below ha, hv]
    unfold wordOf
    rw [if_neg (by omega)]
    rfl
  unfold blockSlot
  by_cases h0 : ptrAt (s.blk p) j = 0
  swap
  · rw [if_neg h0]
    exact walked_full hW h0 hbelow
  rw [if_pos h0, if_pos rfl]
  rcases flatfsAllocBlock_over hW with ⟨hf, he⟩ | ⟨n, he, hF⟩
  · rw [he]
    exact walked_nospace hW (hbelow.trans h0) hf
  rw [he]
  have hblk : (s.takeBit n).blk = update s.blk (s.super.dataStart + n) zeroBytes := hF.blk
  have hpb : s.super.dataStart + n ≠ p := fun e => hF.no a (hv.trans e.symm)
  refine walked_fill hW (d := update _ p _) hF (hbelow.trans h0) (Slot.below_below ha j).hroot
    (Slot.below_below ha j).hleaf ?_ (fun x hx hxv => ?_) ?_ (Extends.addBlock i) rfl
  · show (((s.takeBit n).setBlk p (setPtr ((s.takeBit n).blk p) j _)).over i.addBlock).val = _
    have hv' : ((s.over i).takeBit n).val a = p := by rw [hF.val, hv]
    rw [val_over_congr (i := i) (j := i.addBlock) rfl rfl (fun _ _ _ => rfl) rfl, FS.over_setBlk,
      ← FS.over_blk (s.takeBit n) i, FS.over_takeBit, ← hF.val, ← hv']
    refine val_fillWord hF.wf.own ha (by rw [hv']; exact hp) hj ?_ hF.lt (fun x => ?_) ?_
    · rw [hF.val, hbelow]; exact h0
    · rw [hF.val]; exact hF.no x
    · rw [hF.blk]; exact update_self ..
  · -- a slot holding the written index block would be `a`
    have hne : (s.over i).val x ≠ p := by
      intro e
      rw [hW.own.inj x a (e.trans hv.symm) hxv, ha] at hx
      cases hx
    rw [update_of_ne hne, hblk]
    exact update_of_ne (hF.no x) ..
  · rw [update_of_ne hpb, hblk]
    exact update_self ..

end Walk

theorem Walked.hole_below {n : Nat} {r : Level} (h : Walked s i a n r)
    (ha : a.isFileIndex = true) (hb : r.1 = .ok (some b)) (j : Nat) :
    (r.2.2.over r.2.1).hole (a.below j) = (s.over i).hole (a.below j) := by
  by_cases h0 : (s.over i).val a = 0
  · rw [FS.hole, FS.hole, if_pos (val_below_zero ha h0), if_pos]
    rw [val_below ha, (h.found b hb).2]
    exact wordOf_zero (h.zero b hb h0)
  · rw [h.same h0]

theorem Walked.andThen {a' : Slot} {n n' : Nat} {r : Level} {next : FS → Inode → Nat → Level}
    (h : Walked s i a n r) (ha : a.isFileIndex = true) (ha' : a'.isFileIndex = false)
    (hz : (s.over i).val a = 0 → (s.over i).val a' = 0)
    (hn : ∀ p, p ≠ 0 → (r.2.2.over r.2.1).val a = p → r.1 = .ok (some p) →
      Walked r.2.2 r.2.1 a' n' (next r.2.2 r.2.1 p)) : Walked s i a' (n + n') (walkOn r next) := by
  have honly : ∀ x, x.isFileIndex = false → (r.2.2.over r.2.1).val x = (s.over i).val x := by
    intro x hx
    refine h.only x hx fun e => ?_
    rw [e, ha] at hx
    cases hx
  obtain ⟨res, i', s'⟩ := r
  cases res with
  | error e =>
    have hf := h.failed e rfl
    refine ⟨h.grow, h.ext, h.disk, fun b hb => (by cases hb), fun x hx _ => honly x hx, fun b hb => (by cases hb),
      fun h0 => absurd (hz hf.2.1) h0, .inl ?_, fun e' he => ?_, h.books⟩
    · rcases h.cost with ⟨hlt, he⟩ | ⟨-, b, hb⟩
      · exact ⟨by omega, he⟩
      · cases hb
    · obtain rfl : e = e' := Except.error.inj he
      exact ⟨hf.1, hz hf.2.1, (honly a' ha').trans (hz hf.2.1)⟩
  | ok o =>
    cases o with
    | none => exact absurd rfl h.noHole
    | some p =>
      obtain ⟨hp, hv⟩ := h.found p rfl
      have hw := hn p hp hv rfl
      refine ⟨h.grow.trans hw.grow, h.ext.trans hw.ext, hw.disk.trans h.disk, hw.found,
        fun x hx hxa => (hw.only x hx hxa).trans (honly x hx), fun b hb h0 => hw.zero b hb ((honly a' ha').trans h0),
        fun h0 => ?_, ?_, fun e he => ?_, hw.books ∘ h.books⟩
      · rw [← h.same (mt hz h0)]
        exact hw.same (by rwa [honly a' ha'])
      · rcases h.cost with ⟨-, he⟩ | ⟨hf, -⟩
        · cases he
        · have hf' : s'.super.freeBlocks + n = s.super.freeBlocks := hf
          rcases hw.cost with ⟨hlt, he⟩ | ⟨hf2, hb⟩
          · exact .inl ⟨by simp only at hlt; omega, he⟩
          · exact .inr ⟨by simp only [walkOn] at hf2 ⊢; omega, hb⟩
      · have hf := hw.failed e he
        exact ⟨hf.1, (honly a' ha').symm.trans hf.2.1, hf.2.2⟩

/-! ## 7. The blocks of a file -/

/-- The slot `map_block` reaches for logical block `l`. -/
def lslot (ino l : Nat) : Slot :=
  if l < 10 then .ptr ino l
  else if l < 522 then .ind ino (l - 10)
  else .dblInd ino ((l - 522) / 512) ((l - 522) % 512)

theorem lslot_isIndex (ino l : Nat) : (lslot ino l).isIndex = false ∧ (lslot ino l).isFileIndex = false := by
  grind [lslot, Slot.isIndex, Slot.isFileIndex]

theorem lslot_inj {ino ino' l' : Nat} (h : lslot ino l = lslot ino' l') : ino = ino' ∧ l = l' := by grind [lslot]

/-- How many blocks `map_block` needs for logical block `l`: one for each empty slot on its way. -/
def FS.holes (t : FS) (ino l : Nat) : Nat :=
  if l < 10 then t.hole (.ptr ino l)
  else if l < 522 then t.hole (.ptr ino 10) + t.hole (.ind ino (l - 10))
  else t.hole (.ptr ino 11) +
    (t.hole (.dbl ino ((l - 522) / 512)) + t.hole (.dblInd ino ((l - 522) / 512) ((l - 522) % 512)))

theorem mapBlock_toobig (hl : 262666 ≤ l) (alloc : Bool) : mapBlock s i l alloc = (.error .toobig, i, s) := by
  unfold mapBlock mapWalk
  rw [if_neg (by omega), if_neg (by omega), if_neg (by omega)]
  rfl

theorem inodeSlot_read :
    inodeSlot s i k false = (.ok (if i.blkPtr k = 0 then none else some (i.blkPtr k)), i, s) := by
  unfold inodeSlot
  split <;> rfl

theorem blockSlot_read : blockSlot s i p j false =
    (.ok (if ptrAt (s.blk p) j = 0 then none else some (ptrAt (s.blk p) j)), i, s) := by
  unfold blockSlot
  split <;> rfl

theorem walkOn_read {v : Nat} {next : FS → Inode → Nat → Level} :
    walkOn (.ok (if v = 0 then none else some v), i, s) next =
      if v = 0 then (.ok none, i, s) else next s i v := by
  split <;> rfl

section Walk

variable {s : FS} {i : Inode} (hm : i.mapped = true) (hino : i.ino < s.super.totalInodes)
include hm hino

theorem mapWalk_walked (hW : Wf (s.over i)) (hl : l < 262666) :
    Walked s i (lslot i.ino l) ((s.over i).holes i.ino l) (mapWalk s i l true) := by
  unfold mapWalk lslot FS.holes
  by_cases h1 : l < 10
  · rw [if_pos h1, if_pos h1, if_pos h1]
    exact inodeSlot_walked hW hm hino (by omega)
  rw [if_neg h1, if_neg h1, if_neg h1]
  by_cases h2 : l < 522
  · rw [if_pos h2, if_pos h2, if_pos (show l - 10 < 512 by omega)]
    have hw := inodeSlot_walked hW hm hino (show 10 < 12 by decide)
    refine hw.andThen rfl rfl (val_below_zero (a := .ptr i.ino 10) rfl) fun p hp hv hr => ?_
    have hq := blockSlot_walked (a := .ptr i.ino 10) (j := l - 10) hw.grow.wf rfl (by omega) hp hv
    rwa [hw.hole_below rfl hr] at hq
  · rw [if_neg h2, if_neg h2, if_neg (show ¬ l - 10 < 512 by omega), show l - 10 - 512 = l - 522 by omega,
      if_pos (show l - 522 < 512 * 512 by omega)]
    have hz : ∀ {t : FS} {j k}, t.val (.dbl i.ino j) = 0 → t.val (.dblInd i.ino j k) = 0 :=
      val_below_zero (a := .dbl ..) rfl
    have hw := inodeSlot_walked hW hm hino (show 11 < 12 by decide)
    refine hw.andThen rfl rfl (fun h => hz (val_below_zero (a := .ptr i.ino 11) rfl h)) fun p hp hv hr => ?_
    have hq := blockSlot_walked (a := .ptr i.ino 11) (j := (l - 522) / 512) hw.grow.wf rfl
      (by omega) hp hv
    rw [hw.hole_below rfl hr] at hq
    refine hq.andThen rfl rfl hz fun q hq0 hqv hr' => ?_
    have hd := blockSlot_walked (a := .dbl i.ino ((l - 522) / 512)) (j := (l - 522) % 512) hq.grow.wf rfl
      (Nat.mod_lt _ (by decide)) hq0 hqv
    rwa [hq.hole_below (a := .dbl i.ino ((l - 522) / 512)) rfl hr', FS.hole,
      hw.only (Slot.below (.dbl ..) ((l - 522) % 512)) rfl (by simp [Slot.below])] at hd

theorem mapBlock_read (hl : l < 262666) :
    mapBlock s i l false = (.ok ((s.over i).val (lslot i.ino l)), i, s) := by
  have hword : ∀ p j, p ≠ 0 → j < 512 → wordOf (s.over i) p j = ptrAt (s.blk p) j := by
    intro p j hp hj
    unfold wordOf
    rw [if_neg (by omega)]
    rfl
  have hnone : ∀ v : Nat, (if v = 0 then none else some v).getD 0 = v := by
    intro v
    split
    · rename_i h; exact h.symm
    · rfl
  unfold mapBlock mapWalk lslot
  by_cases h1 : l < 10
  · simp only [if_pos h1, inodeSlot_read, Except.map, hnone]
    rw [show (s.over i).val (.ptr i.ino l) = i.blkPtr l from rootPtr_over hm hino (by omega)]
  by_cases h2 : l < 522
  · have h2' : l - 10 < 512 := by omega
    simp only [if_neg h1, if_pos h2', if_pos h2, inodeSlot_read, walkOn_read, blockSlot_read]
    have hv : (s.over i).val (.ind i.ino (l - 10)) = wordOf (s.over i) (i.blkPtr 10) (l - 10) := by
      show wordOf _ (rootPtr _ _ _) _ = _
      rw [rootPtr_over hm hino (by decide)]
    rw [hv]
    by_cases hp : i.blkPtr 10 = 0
    · simp [hp, Except.map, wordOf]
    · rw [if_neg hp, hword _ _ hp h2']
      simp only [Except.map, hnone]
  · have h2' : ¬ l - 10 < 512 := by omega
    have hsub : l - 10 - 512 = l - 522 := by omega
    have h3 : l - 522 < 512 * 512 := by omega
    simp only [if_neg h1, if_neg h2', hsub, if_pos h3, if_neg h2, inodeSlot_read, walkOn_read, blockSlot_read]
    have hv : (s.over i).val (.dblInd i.ino ((l - 522) / 512) ((l - 522) % 512)) =
        wordOf (s.over i) (wordOf (s.over i) (i.blkPtr 11) ((l - 522) / 512)) ((l - 522) % 512) := by
      show wordOf _ (wordOf _ (rootPtr _ _ _) _) _ = _
      rw [rootPtr_over hm hino (by decide)]
    rw [hv]
    by_cases hp : i.blkPtr 11 = 0
    · simp [hp, Except.map, wordOf]
    · rw [if_neg hp, hword _ _ hp (by omega)]
      by_cases hq : ptrAt (s.blk (i.blkPtr 11)) ((l - 522) / 512) = 0
      · simp [hq, Except.map, wordOf]
      · rw [if_neg hq, hword _ _ hq (Nat.mod_lt _ (by decide))]
        simp only [Except.map, hnone]

end Walk

/-- The bytes of logical block `l` of inode `ino`; a hole is zero. -/
def FS.fileBlock (t : FS) (ino l : Nat) : Bytes :=
  if t.val (lslot ino l) = 0 then zeroBytes else t.blk (t.val (lslot ino l))

theorem Grow.fileBlock {t' : FS} (h : Grow t t') (ino l : Nat) : t'.fileBlock ino l = t.fileBlock ino l := by
  have hx := (lslot_isIndex ino l).2
  unfold FS.fileBlock
  by_cases h0 : t.val (lslot ino l) = 0
  · rw [if_pos h0]
    grind [h.fresh]
  · rw [if_neg h0, if_neg (by rw [h.keep _ h0]; exact h0), h.keep _ h0, h.data _ hx h0]

/-- Writing the block of a logical block changes that block of that file only. -/
theorem fileBlock_setBlk (hW : Wf t) {ino : Nat} (c : Bytes) (h0 : t.val (lslot ino l) ≠ 0) (ino' l' : Nat) :
    (t.setBlk (t.val (lslot ino l)) c).fileBlock ino' l' =
      if ino' = ino ∧ l' = l then c else t.fileBlock ino' l' := by
  unfold FS.fileBlock
  rw [val_setBlk_data hW.own (lslot_isIndex ino l).1]
  by_cases h : ino' = ino ∧ l' = l
  · obtain ⟨rfl, rfl⟩ := h
    rw [if_neg h0, if_pos ⟨rfl, rfl⟩, FS.setBlk_blk_self]
  · rw [if_neg h]
    grind [FS.setBlk_blk_of_ne, lslot_inj, hW.own.inj]

section NoPointers

variable (hroot : ∀ x k, rootPtr s x k = 0) (hht : ∀ x, htreeBlk s x = 0)
include hroot hht

theorem val_of_no_pointers (a : Slot) : s.val a = 0 := by
  cases a <;> simp [FS.val, hroot, hht, wordOf, childOf]

theorem wf_of_no_pointers (hI : AllocInv s) (hd : 0 < s.super.dataStart) : Wf s :=
  have hval := val_of_no_pointers hroot hht
  ⟨hI, hd, fun a h => absurd (hval a) h, fun a _ _ h => absurd (hval a) h⟩

end NoPointers

theorem wf_1100 : Wf (mounted1100 fun _ => {}) := by
  refine wf_of_no_pointers (fun x k => if_neg fun h => ?_) (fun x => ?_) allocInv_1100 (by decide)
  · cases h.2.1
  · unfold htreeBlk
    split <;> rfl

/-! ## 8. Runs of `map_block` -/

/-- What `map_block` looks at of an inode, and of the file system. -/
def Inode.bare (i : Inode) : Inode := { data := i.data, blocks := i.blocks, inodeMagic := 1 }

def FS.bare (s : FS) : FS := { s with inode := fun _ => {}, super := { s.super with totalInodes := 1 } }

/-- The file system in which the inode is the only one, as number 0. -/
def lone (x : Inode × FS) : FS := x.2.bare.over x.1.bare

def bareEnd {ρ : Type*} (r : ρ × Inode × FS) : ρ × Inode × FS := (r.1, r.2.1.bare, r.2.2.bare)

theorem flatfsAllocBlock_bare (s : FS) :
    flatfsAllocBlock s.bare = ((flatfsAllocBlock s).1, (flatfsAllocBlock s).2.bare) := by
  unfold flatfsAllocBlock
  rw [show allocSearch s.bare = allocSearch s from rfl, show s.bare.super.freeBlocks = s.super.freeBlocks from rfl]
  split
  · rfl
  · split <;> rfl

theorem inodeSlot_bare {alloc : Bool} : inodeSlot s.bare i.bare k alloc = bareEnd (inodeSlot s i k alloc) := by
  unfold inodeSlot
  rw [flatfsAllocBlock_bare, show i.bare.blkPtr k = i.blkPtr k from rfl]
  split
  · cases alloc
    · rfl
    · rcases flatfsAllocBlock s with ⟨_ | _, _⟩ <;> rfl
  · rfl

theorem blockSlot_bare {alloc : Bool} :
    blockSlot s.bare i.bare p j alloc = bareEnd (blockSlot s i p j alloc) := by
  unfold blockSlot
  rw [flatfsAllocBlock_bare, show s.bare.blk p = s.blk p from rfl]
  split
  · cases alloc
    · rfl
    · rcases flatfsAllocBlock s with ⟨_ | _, _⟩ <;> rfl
  · rfl

theorem walkOn_bare {r : Level} {next : FS → Inode → Nat → Level}
    (hn : ∀ s i p, next s.bare i.bare p = bareEnd (next s i p)) :
    walkOn (bareEnd r) next = bareEnd (walkOn r next) := by
  obtain ⟨_ | _ | p, i, s⟩ := r
  exacts [rfl, rfl, hn s i p]

theorem mapWalk_bare {alloc : Bool} : mapWalk s.bare i.bare l alloc = bareEnd (mapWalk s i l alloc) := by
  unfold mapWalk
  simp only [inodeSlot_bare, walkOn_bare, blockSlot_bare, implies_true]
  repeat' split
  all_goals rfl

theorem Inode.bare_mapped (i : Inode) : i.bare.mapped = true := by
  simp [Inode.mapped, Inode.bare, Inode.isInline]

/-- `map_block(lblk, alloc = 1)` on the copy of an inode. -/
def mapCall (x : Inode × FS) (l : Nat) : Result Nat × Inode × FS := mapBlock x.2 x.1 l true

/-- The physical block of a logical one, 0 for a hole: what `map_block` answers without allocation. -/
def phys (x : Inode × FS) (l : Nat) : Result Nat := (mapBlock x.2 x.1 l false).1

variable {x : Inode × FS} {h : List (Nat × Result Nat)}

theorem phys_eq (hl : l < 262666) : phys x l = .ok ((lone x).val (lslot 0 l)) := by
  have h := mapBlock_read (s := x.2.bare) x.1.bare_mapped Nat.one_pos hl
  unfold mapBlock at h
  rw [mapWalk_bare] at h
  exact congrArg Prod.fst h

theorem mapCall_cases (hW : Wf (lone x)) (l : Nat) : 262666 ≤ l ∧ mapCall x l = (.error .toobig, x) ∨
    l < 262666 ∧ Grow (lone x) (lone (mapCall x l).2) ∧
      (BlockBooks (lone x) x.1 → BlockBooks (lone (mapCall x l).2) (mapCall x l).2.1) ∧
      ((mapCall x l).1 = .error .nospace ∧ (lone x).val (lslot 0 l) = 0 ∧
          (∀ l', (lone (mapCall x l).2).val (lslot 0 l') = (lone x).val (lslot 0 l')) ∧
          x.2.super.freeBlocks < (lone x).holes 0 l ∨
        ∃ b ≠ 0, (mapCall x l).1 = .ok b ∧ (lone (mapCall x l).2).val (lslot 0 l) = b ∧
          (lone x).holes 0 l ≤ x.2.super.freeBlocks) := by
  by_cases hl : l < 262666
  swap
  · exact .inl ⟨by omega, mapBlock_toobig (by omega) true⟩
  have hw := mapWalk_walked (s := x.2.bare) x.1.bare_mapped Nat.one_pos hW hl
  rw [mapWalk_bare] at hw
  unfold mapCall mapBlock
  generalize mapWalk x.2 x.1 l true = r at hw
  refine .inr ⟨hl, hw.grow, hw.books, ?_⟩
  have hcost := hw.cost
  obtain ⟨e | _ | b, j, t⟩ := r
  · obtain ⟨rfl, h0, h1⟩ := hw.failed e rfl
    refine .inl ⟨rfl, h0, fun l' => ?_, hcost.elim (fun h => h.1) fun h => by obtain ⟨-, b, hb⟩ := h; cases hb⟩
    by_cases hll : lslot 0 l' = lslot 0 l
    · rw [hll]
      exact h1.trans h0.symm
    · exact hw.only _ (lslot_isIndex 0 l').2 hll
  · exact absurd rfl hw.noHole
  · obtain ⟨hb, hv⟩ := hw.found b rfl
    refine .inr ⟨b, hb, rfl, hv, ?_⟩
    rcases hcost with ⟨-, he⟩ | ⟨hf, -⟩
    · cases he
    · exact Nat.le_of_add_left_le hf.le

/-- **What a run of `map_block` with the log `h` has built.** -/
structure Mapping (h : List (Nat × Result Nat)) (x : Inode × FS) : Prop where
  toobig : ∀ l, (mapCall x l).1 = .error .toobig ↔ 262666 ≤ l
  nospace : ∀ l, (mapCall x l).1 = .error .nospace ↔ l < 262666 ∧ x.2.super.freeBlocks < (lone x).holes 0 l
  fails : ∀ l e, (mapCall x l).1 = .error e →
    (e = .toobig ∨ e = .nospace) ∧ ∀ l', phys (mapCall x l).2 l' = phys x l'
  again : ∀ l b, (l, .ok b) ∈ h → b ≠ 0 ∧ phys x l = .ok b ∧ (mapCall x l).1 = .ok b
  inj : ∀ l l' b, b ≠ 0 → phys x l = .ok b → phys x l' = .ok b → l = l'
  apart : ∀ l b a, b ≠ 0 → phys x l = .ok b → a.isIndex = true → (lone x).val a ≠ b
  held : ∀ b, b ∈ (lone x).held ↔ b ≠ 0 ∧
    ((∃ l, phys x l = .ok b) ∨ ∃ a : Slot, a.isIndex = true ∧ (lone x).val a = b)
  alloc : ∀ b ∈ (lone x).held, x.2.Allocated b
  count : x.1.blocks = 8 * (lone x).held.ncard

/-- **A slot of the inode in use** is an index slot or that of a logical block. -/
theorem lone_slot (h : (lone x).val a ≠ 0) : a.isIndex = true ∨ ∃ l < 262666, a = lslot 0 l := by
  have hroot : ∀ {y k}, rootPtr (lone x) y k ≠ 0 → y = 0 ∧ k < 12 := by
    intro y k hr
    unfold rootPtr at hr
    split at hr
    · rename_i hc
      exact ⟨Nat.lt_one_iff.1 hc.1, hc.2.2⟩
    · exact absurd rfl hr
  have hword : ∀ {p j}, wordOf (lone x) p j ≠ 0 → p ≠ 0 ∧ j < 512 := by
    intro p j hw
    unfold wordOf at hw
    split at hw
    · exact absurd rfl hw
    · omega
  cases a with
  | ptr y k =>
    obtain ⟨rfl, -⟩ := hroot h
    by_cases hk : 10 ≤ k
    · exact .inl (decide_eq_true hk)
    · exact .inr ⟨k, by omega, (if_pos (by omega)).symm⟩
  | ind y j =>
    obtain ⟨hp, hj⟩ := hword h
    obtain ⟨rfl, -⟩ := hroot hp
    refine .inr ⟨10 + j, by omega, ?_⟩
    rw [lslot, if_neg (by omega), if_pos (by omega), Nat.add_sub_cancel_left]
  | dbl y j => exact .inl rfl
  | dblInd y j k =>
    obtain ⟨hq, hk⟩ := hword h
    obtain ⟨hp, hj⟩ := hword hq
    obtain ⟨rfl, -⟩ := hroot hp
    refine .inr ⟨522 + (512 * j + k), by omega, ?_⟩
    rw [lslot, if_neg (by omega), if_neg (by omega), Nat.add_sub_cancel_left]
    congr <;> omega
  | hroot y => exact .inl rfl
  | hleaf y b =>
    have hh : htreeBlk (lone x) y = 0 := by
      unfold htreeBlk
      split
      · rename_i hy
        obtain rfl : y = 0 := Nat.lt_one_iff.1 hy
        rfl
      · rfl
    exact absurd (by show childOf _ (htreeBlk _ _) _ = 0; rw [hh]; rfl) h

structure MapInv (h : List (Nat × Result Nat)) (x : Inode × FS) : Prop where
  wf : Wf (lone x)
  books : BlockBooks (lone x) x.1
  said : ∀ l b, (l, .ok b) ∈ h → b ≠ 0 ∧ l < 262666 ∧ (lone x).val (lslot 0 l) = b

theorem MapInv.step (hI : MapInv h x) (l : Nat) : MapInv ((l, (mapCall x l).1) :: h) (mapCall x l).2 := by
  rcases mapCall_cases hI.wf l with ⟨-, he⟩ | ⟨hl, hg, hb, hc⟩
  · rw [he]
    exact ⟨hI.wf, hI.books, fun k b hk => hI.said k b (by simpa using hk)⟩
  refine ⟨hg.wf, hb hI.books, fun k b hk => ?_⟩
  rcases List.mem_cons.1 hk with e | hk
  · obtain ⟨rfl, e⟩ := Prod.mk.inj e
    rcases hc with ⟨he, -⟩ | ⟨c, hc0, he, hv, -⟩
    · rw [he] at e
      cases e
    · obtain rfl : b = c := Except.ok.inj (e.trans he)
      exact ⟨hc0, hl, hv⟩
  · obtain ⟨hb0, hkl, hv⟩ := hI.said k b hk
    exact ⟨hb0, hkl, (hg.keep _ (by rw [hv]; exact hb0)).trans hv⟩

theorem MapInv.mapping (hI : MapInv h x) : Mapping h x := by
  have hp : ∀ {l b}, phys x l = .ok b → b ≠ 0 → l < 262666 ∧ (lone x).val (lslot 0 l) = b := by
    intro l b he hb
    by_cases hl : l < 262666
    · rw [phys_eq hl] at he
      exact ⟨hl, Except.ok.inj he⟩
    · rw [phys, mapBlock_toobig (by omega)] at he
      cases he
  refine ⟨fun l => ?_, fun l => ?_, fun l e he => ?_, fun l b hm => ?_, fun l l' b hb h h' => ?_, fun l b a hb h ha e => ?_,
    fun b => ⟨fun ⟨hb, a, ha⟩ => ⟨hb, ?_⟩, fun ⟨hb, hor⟩ => ⟨hb, ?_⟩⟩, fun b ⟨hb, a, ha⟩ => ?_, hI.books⟩
  · rcases mapCall_cases hI.wf l with ⟨hl, he⟩ | ⟨hl, -, -, ⟨he, -⟩ | ⟨b, -, he, -⟩⟩ <;> rw [he] <;> simp [hl]
  · rcases mapCall_cases hI.wf l with ⟨hl, he⟩ | ⟨hl, -, -, ⟨he, -, -, hf⟩ | ⟨b, -, he, -, hf⟩⟩
    · rw [he]
      exact ⟨nofun, fun h => by omega⟩
    · exact ⟨fun _ => ⟨hl, hf⟩, fun _ => he⟩
    · rw [he]
      exact ⟨nofun, fun h => by omega⟩
  · rcases mapCall_cases hI.wf l with ⟨-, hc⟩ | ⟨hl, -, -, ⟨hc, -, hsame, -⟩ | ⟨b, -, hc, -⟩⟩
    · rw [hc] at he ⊢
      exact ⟨.inl (Except.error.inj he).symm, fun _ => rfl⟩
    · rw [hc] at he
      refine ⟨.inr (Except.error.inj he).symm, fun l' => ?_⟩
      by_cases hl' : l' < 262666
      · rw [phys_eq hl', phys_eq hl', hsame]
      · rw [phys, phys, mapBlock_toobig (by omega), mapBlock_toobig (by omega)]
    · rw [hc] at he
      cases he
  · obtain ⟨hb, hl, hv⟩ := hI.said l b hm
    refine ⟨hb, by rw [phys_eq hl, hv], ?_⟩
    rcases mapCall_cases hI.wf l with ⟨hl', -⟩ | ⟨-, hg, -, ⟨-, h0, -⟩ | ⟨c, -, hc, hv', -⟩⟩
    · omega
    · exact absurd (hv.symm.trans h0) hb
    · rw [hc, ← hv', hg.keep _ (by rw [hv]; exact hb), hv]
  · exact (lslot_inj (hI.wf.own.inj _ _ ((hp h hb).2.trans (hp h' hb).2.symm) ((hp h hb).2.symm ▸ hb))).2
  · have hslot := hI.wf.own.inj a (lslot 0 l) (e.trans (hp h hb).2.symm) (e ▸ hb)
    rw [hslot, (lslot_isIndex 0 l).1] at ha
    cases ha
  · rcases lone_slot (ha ▸ hb) with hi | ⟨l, hl, rfl⟩
    · exact .inr ⟨a, hi, ha⟩
    · exact .inl ⟨l, by rw [phys_eq hl, ha]⟩
  · rcases hor with ⟨l, hl⟩ | ⟨a, -, ha⟩
    · exact ⟨_, (hp hl hb).2⟩
    · exact ⟨a, ha⟩
  · exact ha ▸ hI.wf.own.alloc a (ha ▸ hb)

/-- **Every run of `map_block` with allocation** from an inode without blocks and a consistent
    allocator: too big exactly past the double-indirect block, otherwise the allocator's error
    exactly if it has too few blocks, with every mapping as it was, or a block that stays; distinct
    logical blocks have distinct blocks, none of them a pointer block, all are taken from the
    allocator, and `in->blocks` counts all of them. -/
theorem mapBlock_runs (hI : AllocInv s) (hd : 0 < s.super.dataStart) (hp : ∀ k < 12, i.blkPtr k = 0)
    (hb : i.blocks = 0) (hr : Reach anyInput mapCall (i, s) h x) : Mapping h x := by
  have hroot : ∀ y k, rootPtr (lone (i, s)) y k = 0 := by
    intro y k
    unfold rootPtr
    split
    · rename_i hy
      obtain rfl : y = 0 := Nat.lt_one_iff.1 hy.1
      exact hp k hy.2.2
    · rfl
  have hht : ∀ y, htreeBlk (lone (i, s)) y = 0 := by
    intro y
    unfold htreeBlk
    split
    · rename_i hy
      obtain rfl : y = 0 := Nat.lt_one_iff.1 hy
      rfl
    · rfl
  refine MapInv.mapping (hr.inv (I := MapInv) ⟨?_, ?_, by simp⟩ fun _ _ l hM _ => hM.step l)
  · exact wf_of_no_pointers hroot hht (hI.congr rfl rfl rfl rfl rfl) hd
  · have hnone : (lone (i, s)).held = ∅ := Set.eq_empty_iff_forall_notMem.2
      fun b ⟨hb, a, ha⟩ => hb (ha ▸ val_of_no_pointers hroot hht a)
    rw [BlockBooks, hnone, Set.ncard_empty]
    exact hb

theorem mapBlock_runs_1100 : ∃ x, Reach anyInput mapCall ({}, mounted1100 fun _ => {}) [(0, .ok 1034)] x ∧
    Mapping [(0, .ok 1034)] x := by
  have hr := (Reach.start : Reach anyInput mapCall ({}, mounted1100 fun _ => {}) [] _).eval
    (i := 0) (o := .ok 1034) trivial (by decide +kernel)
  exact ⟨_, hr, mapBlock_runs (i := {}) allocInv_1100 (by decide) (fun k _ => leAt_zeroBytes ..) rfl hr⟩

end Kobalt.Flatfs

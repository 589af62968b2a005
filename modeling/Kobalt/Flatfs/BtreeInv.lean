/-
  Subject: WHAT KEEPS THE B-TREE TOGETHER. Every node is responsible for a range of keys; the
  separators of a node divide its range among the children, and the leaves are linked in key order.

  A search goes left of a separator that equals its key, but a leaf that is split leaves the separator
  on the right. So the first key of every leaf but the leftmost is one no search finds: ranges are open
  on the left for a search (`Spans`) and closed for what a leaf holds (`LeafIn.first`).
-/
import Mathlib.Algebra.Order.BigOperators.Group.Finset
import Kobalt.Flatfs.Btree

namespace Kobalt.Flatfs

open Function Finset

variable {k : BtKey} {n : BtNode} {b x : Nat}

/-! ## 1. The invariant -/

/-- The nodes a walk from the root can come to. -/
inductive Bt.Below (s : Bt) : Nat → Prop
  | root : Below s s.rootBlk
  | child {b i : Nat} : Below s b → (s.node b).isLeaf = false → i ≤ (s.node b).count →
      Below s ((s.node b).slots i)

/-- **The nodes of a tree**, with their levels and the bounds of their ranges. -/
structure Frame where
  mem : Nat → Prop
  lev : Nat → Nat
  lo : Nat → Option BtKey
  hi : Nat → Option BtKey

variable {F : Frame}

/-- A leaf in its frame. -/
structure LeafIn (F : Frame) (b : Nat) (n : BtNode) : Prop where
  lower : ∀ i < n.count, ∀ x ∈ F.lo b, x ≤ n.keys i
  upper : ∀ i < n.count, ∀ y ∈ F.hi b, n.keys i ≤ y
  first : ∀ x ∈ F.lo b, 0 < n.count ∧ n.keys 0 = x
  next : n.nextLeaf = 0 ∧ F.hi b = none ∨
    n.nextLeaf ≠ 0 ∧ F.mem n.nextLeaf ∧ F.lev n.nextLeaf = 0 ∧ F.hi b ≠ none ∧ F.lo n.nextLeaf = F.hi b

/-- An inner node in its frame. -/
structure InnerIn (F : Frame) (b : Nat) (n : BtNode) : Prop where
  lower : ∀ i < n.count, ∀ x ∈ F.lo b, x < n.keys i
  upper : ∀ i < n.count, ∀ y ∈ F.hi b, n.keys i < y
  mem : ∀ i ≤ n.count, F.mem (n.slots i)
  lev : ∀ i ≤ n.count, F.lev (n.slots i) + 1 = F.lev b
  lo : ∀ i ≤ n.count, F.lo (n.slots i) = if i = 0 then F.lo b else some (n.keys (i - 1))
  hi : ∀ i ≤ n.count, F.hi (n.slots i) = if i = n.count then F.hi b else some (n.keys i)

/-- **A node in its frame.** -/
structure NodeIn (F : Frame) (b : Nat) (n : BtNode) : Prop where
  magic : n.magic = btreeMagic
  le : n.count ≤ btreeOrder
  inc : Increasing n.keys n.count
  level : n.level = F.lev b
  kind : n.isLeaf = true ↔ F.lev b = 0
  order : ∀ x ∈ F.lo b, ∀ y ∈ F.hi b, x < y
  leaf : n.isLeaf = true → LeafIn F b n
  inner : n.isLeaf = false → InnerIn F b n

/-- The links back around a leaf. -/
structure LinksIn (s : Bt) (F : Frame) (b : Nat) : Prop where
  self : (s.node b).selfBlk = b
  first : F.lo b = none → (s.node b).prevLeaf = 0
  back : (s.node b).nextLeaf ≠ 0 → (s.node (s.node b).nextLeaf).prevLeaf = b

/-- **The shape of a tree**: what holds of its nodes. -/
structure TreeIn (s : Bt) (F : Frame) : Prop where
  root : F.mem s.rootBlk
  rootLo : F.lo s.rootBlk = none
  rootHi : F.hi s.rootBlk = none
  top : ∀ b, F.mem b → F.lev b ≤ F.lev s.rootBlk
  node : ∀ b, F.mem b → NodeIn F b (s.node b)
  up : ∀ b, F.mem b → b ≠ s.rootBlk → ∃ p i, F.mem p ∧ (s.node p).isLeaf = false ∧
    i ≤ (s.node p).count ∧ (s.node p).slots i = b
  wide : ∀ b, F.mem b → b ≠ s.rootBlk → (s.node b).isLeaf = false → 59 ≤ (s.node b).count
  links : ∀ b, F.mem b → F.lev b = 0 → LinksIn s F b

/-- The blocks of a tree are its own. -/
structure Blocks (f : FS) (F : Frame) : Prop where
  alloc : AllocInv f
  dataPos : 0 < f.super.dataStart
  kept : ∀ b, F.mem b → b ≠ 0 ∧ b < f.super.totalBlocks ∧ (b < f.super.dataStart ∨ f.Allocated b)

/-- **The invariant.** -/
structure BtInv (s : Bt) (F : Frame) : Prop extends TreeIn s F, Blocks s.fs F

/-- The range of the node has the key, for a search. -/
structure Spans (F : Frame) (b : Nat) (k : BtKey) : Prop where
  lower : ∀ x ∈ F.lo b, x < k
  upper : ∀ y ∈ F.hi b, k ≤ y

/-! ## 2. The way down -/

theorem NodeIn.prevLeaf (h : NodeIn F b n) (p : Nat) : NodeIn F b { n with prevLeaf := p } :=
  ⟨h.magic, h.le, h.inc, h.level, h.kind, h.order, fun hl =>
    ⟨(h.leaf hl).lower, (h.leaf hl).upper, (h.leaf hl).first, (h.leaf hl).next⟩, fun hl =>
    ⟨(h.inner hl).lower, (h.inner hl).upper, (h.inner hl).mem, (h.inner hl).lev, (h.inner hl).lo, (h.inner hl).hi⟩⟩

section Down

variable {F : Frame} {b : Nat} {n : BtNode} {k : BtKey}

theorem NodeIn.cut (h : NodeIn F b n) (k : BtKey) : Cut n.keys n.count k (btnodeLowerBound n k) := by
  obtain ⟨c, hc⟩ := h.inc.exists_cut k
  rw [btnodeLowerBound_eq hc]
  exact hc

theorem InnerIn.spans_child (h : InnerIn F b n) {c : Nat} (hc : Cut n.keys n.count k c)
    (hs : Spans F b k) : Spans F (n.slots c) k := by
  refine ⟨fun x hx => ?_, fun y hy => ?_⟩
  · grind [h.lo, hc.le, hs.lower, hc.below]
  · rw [h.hi c hc.le] at hy
    have hle := hc.le
    split at hy
    · exact hs.upper y hy
    · obtain rfl := Option.some.inj hy
      exact hc.above _ (Nat.le_refl _) (by omega)

theorem InnerIn.cut_of_spans (h : InnerIn F b n) (hinc : Increasing n.keys n.count) {i : Nat}
    (hi : i ≤ n.count) (hs : Spans F (n.slots i) k) : Cut n.keys n.count k i := by
  refine ⟨hi, fun j hj => ?_, fun j hj hj' => ?_⟩
  · have hlo := hs.lower (n.keys (i - 1)) (by rw [h.lo i hi, if_neg (by omega)]; rfl)
    by_cases he : j = i - 1
    · rw [he]
      exact hlo
    · exact lt_trans (hinc j (i - 1) (by omega) (by omega)) hlo
  · have hhi := hs.upper (n.keys i) (by rw [h.hi i hi, if_neg (by omega)]; rfl)
    by_cases he : j = i
    · rw [he]
      exact hhi
    · exact le_of_lt (lt_of_le_of_lt hhi (hinc i j (by omega) hj'))

theorem InnerIn.spans_parent (h : InnerIn F b n) {i : Nat} (hi : i ≤ n.count)
    (hs : Spans F (n.slots i) k) : Spans F b k := by
  refine ⟨fun x hx => ?_, fun y hy => ?_⟩
  · have hlo := h.lo i hi
    split at hlo
    · exact hs.lower x (by rw [hlo]; exact hx)
    · exact lt_trans (h.lower (i - 1) (by omega) x hx) (hs.lower _ (by rw [hlo]; rfl))
  · have hhi := h.hi i hi
    split at hhi
    · exact hs.upper y (by rw [hhi]; exact hy)
    · exact le_of_lt (lt_of_le_of_lt (hs.upper _ (by rw [hhi]; rfl)) (h.upper i (by omega) y hy))

/-- The next key. -/
def BtKey.succ (k : BtKey) : BtKey := ⟨k.hash, k.ino + 1⟩

theorem BtKey.lt_succ (k : BtKey) : k < k.succ :=
  btKey_lt_iff.2 (.inr ⟨rfl, Nat.lt_succ_self _⟩)

theorem BtKey.succ_le {x y : BtKey} (hxy : x < y) : x.succ ≤ y := by
  rw [← not_lt, btKey_lt_iff]
  rw [btKey_lt_iff] at hxy
  show ¬ (y.hash < x.hash ∨ y.hash = x.hash ∧ y.ino < x.ino + 1)
  omega

theorem NodeIn.spans_succ (h : NodeIn F b n) {x : BtKey} (hx : F.lo b = some x) : Spans F b x.succ := by
  refine ⟨fun z hz => ?_, fun y hy => BtKey.succ_le (h.order x hx y hy)⟩
  rw [hx] at hz
  obtain rfl := Option.some.inj hz
  exact x.lt_succ

theorem NodeIn.spans_hi (h : NodeIn F b n) {y : BtKey} (hy : F.hi b = some y) : Spans F b y :=
  ⟨fun x hx => h.order x hx y hy, fun _ hz => le_of_eq (Option.some.inj (hy.symm.trans hz))⟩

theorem NodeIn.exists_spans (h : NodeIn F b n) : ∃ k, Spans F b k := by
  cases hlo : F.lo b with
  | some x => exact ⟨_, h.spans_succ hlo⟩
  | none =>
    cases hhi : F.hi b with
    | some y => exact ⟨y, h.spans_hi hhi⟩
    | none => exact ⟨⟨0, 0⟩, by rw [hlo]; exact nofun, by rw [hhi]; exact nofun⟩

end Down

/-- `d` steps down from `b`. -/
def down (s : Bt) (k : BtKey) : Nat → Nat → Nat
  | 0, b => b
  | d + 1, b => down s k d ((s.node b).slots (btnodeLowerBound (s.node b) k))

theorem down_succ (s : Bt) (k : BtKey) (d : Nat) : ∀ b, down s k (d + 1) b =
    (s.node (down s k d b)).slots (btnodeLowerBound (s.node (down s k d b)) k) := by
  induction d with
  | zero => exact fun _ => rfl
  | succ d ih => exact fun b => ih _

/-- What a leaf answers. -/
def leafAnswer (n : BtNode) (k : BtKey) : Result Nat :=
  let pos := btnodeLowerBound n k
  if pos < n.count ∧ n.keys pos = k then .ok (n.slots pos) else .error .notfound

section Lookup

variable {s : Bt} {F : Frame} (h : TreeIn s F)
include h

theorem TreeIn.inner_of_lev (hb : F.mem b) (hlev : F.lev b ≠ 0) : (s.node b).isLeaf = false := by
  rw [← Bool.not_eq_true, (h.node b hb).kind]
  exact hlev

theorem TreeIn.reach (b : Nat) (hb : F.mem b) : s.Below b := by
  suffices hgen : ∀ d b, F.mem b → F.lev b + d = F.lev s.rootBlk → s.Below b from
    hgen (F.lev s.rootBlk - F.lev b) b hb (by have := h.top b hb; omega)
  intro d
  induction d with
  | zero =>
    intro b hb hd
    by_contra hnb
    obtain ⟨p, i, hp, hl, hi, rfl⟩ := h.up b hb fun e => hnb (e ▸ .root)
    have := ((h.node p hp).inner hl).lev i hi
    have := h.top p hp
    omega
  | succ d ih =>
    intro b hb hd
    obtain ⟨p, i, hp, hl, hi, rfl⟩ := h.up b hb fun e => by rw [e] at hd; omega
    have := ((h.node p hp).inner hl).lev i hi
    exact (ih p hp (by omega)).child hl hi

theorem TreeIn.child (hb : F.mem b) (hl : (s.node b).isLeaf = false) (k : BtKey) :
    F.mem ((s.node b).slots (btnodeLowerBound (s.node b) k)) ∧
      F.lev ((s.node b).slots (btnodeLowerBound (s.node b) k)) + 1 = F.lev b :=
  ⟨((h.node b hb).inner hl).mem _ ((h.node b hb).cut k).le,
    ((h.node b hb).inner hl).lev _ ((h.node b hb).cut k).le⟩

theorem TreeIn.lookupLoop (k : BtKey) (d : Nat) : ∀ b, F.mem b → F.lev b = d →
    lookupLoop s k (d + 1) b = some (leafAnswer (s.node (down s k d b)) k) := by
  induction d with
  | zero =>
    intro b hb hd
    have hn := h.node b hb
    rw [Flatfs.lookupLoop, if_neg (not_not.2 hn.magic)]
    dsimp only
    rw [if_pos (hn.kind.2 hd)]
    grind [leafAnswer, down, btkeyCmp_zero]
  | succ d ih =>
    intro b hb hd
    have hn := h.node b hb
    have hl := h.inner_of_lev hb (by omega)
    obtain ⟨h1, h2⟩ := h.child hb hl k
    rw [Flatfs.lookupLoop, if_neg (not_not.2 hn.magic)]
    dsimp only
    rw [if_neg (by simp [hl])]
    exact ih _ h1 (by omega)

theorem TreeIn.down_of_spans (hb : s.Below b) : F.mem b ∧ (Spans F b k →
    ∃ d, d + F.lev b = F.lev s.rootBlk ∧ down s k d s.rootBlk = b) := by
  induction hb with
  | root => exact ⟨h.root, fun _ => ⟨0, Nat.zero_add _, rfl⟩⟩
  | @child c i hc hl hi ih =>
    have hn := h.node c ih.1
    have hin := hn.inner hl
    refine ⟨hin.mem i hi, fun hs => ?_⟩
    obtain ⟨d, hd, hdown⟩ := ih.2 (hin.spans_parent hi hs)
    have hcut := hin.cut_of_spans hn.inc hi hs
    have hlev := hin.lev i hi
    refine ⟨d + 1, by omega, ?_⟩
    rw [down_succ, hdown, btnodeLowerBound_eq hcut]

theorem TreeIn.lookup (hb : F.mem b) (hl : (s.node b).isLeaf = true)
    (hs : Spans F b k) : flatfsBtreeLookup s k = some (leafAnswer (s.node b) k) := by
  obtain ⟨d, hd, hdown⟩ := (h.down_of_spans (h.reach b hb)).2 hs
  have h0 := (h.node b hb).kind.1 hl
  rw [h0] at hd
  unfold flatfsBtreeLookup
  rw [(h.node _ h.root).level, h.lookupLoop k _ _ h.root rfl, ← hd]
  rw [Nat.add_zero, hdown]

theorem TreeIn.spans_root (k : BtKey) : Spans F s.rootBlk k := by
  refine ⟨fun x hx => ?_, fun y hy => ?_⟩
  · rw [h.rootLo] at hx
    cases hx
  · rw [h.rootHi] at hy
    cases hy

theorem TreeIn.exists_leaf (k : BtKey) : ∃ b, F.mem b ∧ (s.node b).isLeaf = true ∧ Spans F b k := by
  suffices hgen : ∀ d b, F.mem b → F.lev b = d → Spans F b k →
      ∃ c, F.mem c ∧ (s.node c).isLeaf = true ∧ Spans F c k from
    hgen _ _ h.root rfl (h.spans_root k)
  intro d
  induction d with
  | zero => exact fun b hb hd hs => ⟨b, hb, (h.node b hb).kind.2 hd, hs⟩
  | succ d ih =>
    intro b hb hd hs
    have hn := h.node b hb
    have hl := h.inner_of_lev hb (by omega)
    obtain ⟨h1, h2⟩ := h.child hb hl k
    exact ih _ h1 (by omega) ((hn.inner hl).spans_child (hn.cut k) hs)

theorem TreeIn.unique {c : Nat} (hb : F.mem b) (hsb : Spans F b k) (hc : F.mem c)
    (hsc : Spans F c k) (hlev : F.lev b = F.lev c) : b = c := by
  obtain ⟨d, hd, hb'⟩ := (h.down_of_spans (h.reach b hb)).2 hsb
  obtain ⟨d', hd', hc'⟩ := (h.down_of_spans (h.reach c hc)).2 hsc
  obtain rfl : d = d' := by omega
  exact hb'.symm.trans hc'

theorem TreeIn.lo_unique {c : Nat} (hb : F.mem b) (hkb : F.lo b = some k) (hc : F.mem c)
    (hkc : F.lo c = some k) (hlev : F.lev b = F.lev c) : b = c :=
  h.unique hb ((h.node b hb).spans_succ hkb) hc ((h.node c hc).spans_succ hkc) hlev

theorem TreeIn.parent {c i j : Nat} (hb : F.mem b) (hc : F.mem c) (hlb : (s.node b).isLeaf = false)
    (hlc : (s.node c).isLeaf = false) (hi : i ≤ (s.node b).count) (hj : j ≤ (s.node c).count)
    (he : (s.node b).slots i = (s.node c).slots j) : b = c ∧ i = j := by
  have hnb := h.node b hb
  have hnc := h.node c hc
  obtain ⟨k, hk⟩ := (h.node _ ((hnb.inner hlb).mem i hi)).exists_spans
  have hkc := hk
  rw [he] at hkc
  have h1 := (hnb.inner hlb).lev i hi
  have h2 := (hnc.inner hlc).lev j hj
  rw [he] at h1
  have hbc := h.unique hb ((hnb.inner hlb).spans_parent hi hk) hc ((hnc.inner hlc).spans_parent hj hkc)
    (by omega)
  subst hbc
  exact ⟨rfl, ((hnb.inner hlb).cut_of_spans hnb.inc hi hk).unique ((hnb.inner hlb).cut_of_spans hnb.inc hj hkc)⟩

theorem TreeIn.next_leaf (hb : F.mem b) (hb0 : F.lev b = 0) (hn : (s.node b).nextLeaf ≠ 0) :
    F.mem (s.node b).nextLeaf ∧ F.lev (s.node b).nextLeaf = 0 ∧ ∃ y, F.hi b = some y ∧
      F.lo (s.node b).nextLeaf = some y := by
  have hnode := h.node b hb
  rcases (hnode.leaf (hnode.kind.2 hb0)).next with ⟨h0, -⟩ | ⟨-, h1, h2, h3, h4⟩
  · exact absurd h0 hn
  · obtain ⟨y, hy⟩ := Option.ne_none_iff_exists'.1 h3
    exact ⟨h1, h2, y, hy, h4.trans hy⟩

theorem TreeIn.next_inj {c : Nat} (hb : F.mem b) (hb0 : F.lev b = 0) (hc : F.mem c) (hc0 : F.lev c = 0)
    (hn : (s.node b).nextLeaf ≠ 0) (he : (s.node c).nextLeaf = (s.node b).nextLeaf) : c = b := by
  obtain ⟨-, -, y, hy, hlo⟩ := h.next_leaf hb hb0 hn
  obtain ⟨-, -, z, hz, hlo'⟩ := h.next_leaf hc hc0 (he ▸ hn)
  rw [he, hlo] at hlo'
  obtain rfl := Option.some.inj hlo'
  exact h.unique hc ((h.node c hc).spans_hi hz) hb ((h.node b hb).spans_hi hy) (hc0.trans hb0.symm)

end Lookup

/-! ## 3. A leaf rewritten -/

theorem setNode_of_ne {s : Bt} (n : BtNode) (h : x ≠ b) : (s.setNode b n).node x = s.node x :=
  update_of_ne h ..

theorem setNode_self {s : Bt} (h : n.magic = btreeMagic) : (s.setNode b n).node b = n := by
  show update s.node b _ b = n
  rw [update_self, BtNode.with_magic h]

theorem BtInv.setLeaf {s : Bt} (h : BtInv s F) {m : BtNode} (hl : (s.node b).isLeaf = true)
    (hml : m.isLeaf = true) (hm : NodeIn F b m) (hm' : m.selfBlk = (s.node b).selfBlk ∧
      m.nextLeaf = (s.node b).nextLeaf ∧ m.prevLeaf = (s.node b).prevLeaf) : BtInv (s.setNode b m) F := by
  have hsame : (s.setNode b m).node b = m := setNode_self hm.magic
  have hother : ∀ x, x ≠ b → (s.setNode b m).node x = s.node x := fun x hx => setNode_of_ne m hx
  have hlinks : ∀ x, ((s.setNode b m).node x).selfBlk = (s.node x).selfBlk ∧
      ((s.setNode b m).node x).nextLeaf = (s.node x).nextLeaf ∧
      ((s.setNode b m).node x).prevLeaf = (s.node x).prevLeaf := by
    intro x
    by_cases hxb : x = b
    · rw [hxb, hsame]
      exact hm'
    · rw [hother x hxb]
      exact ⟨rfl, rfl, rfl⟩
  refine ⟨⟨h.root, h.rootLo, h.rootHi, h.top, fun x hx => ?_, fun x hx hxr => ?_, fun x hx hxr hxl => ?_,
    fun x hx h0 => ?_⟩, h.toBlocks⟩
  · by_cases hxb : x = b
    · rw [hxb, hsame]
      exact hm
    · exact hother x hxb ▸ h.node x hx
  · obtain ⟨p, i, hp, hpl, hi, he⟩ := h.up x hx hxr
    exact ⟨p, i, hp, by grind⟩
  · have hxb : x ≠ b := by grind
    rw [hother x hxb] at hxl ⊢
    exact h.wide x hx hxr hxl
  · have hL := h.links x hx h0
    refine ⟨(hlinks x).1.trans hL.self, fun hlo => (hlinks x).2.2.trans (hL.first hlo), fun hn => ?_⟩
    rw [(hlinks x).2.1] at hn ⊢
    exact (hlinks _).2.2.trans (hL.back hn)

/-- A node keeps its place in a frame that says the same of it and of the nodes it points to. -/
theorem NodeIn.frame {F' : Frame} (hx : NodeIn F x n) (hxm : F.mem x)
    (hF : ∀ y, F.mem y → F'.mem y ∧ F'.lev y = F.lev y ∧ F'.lo y = F.lo y) (hhi : F'.hi x = F.hi x)
    (hch : n.isLeaf = false → ∀ i ≤ n.count, F'.hi (n.slots i) = F.hi (n.slots i)) : NodeIn F' x n := by
  obtain ⟨-, hlev, hlo⟩ := hF x hxm
  refine ⟨hx.magic, hx.le, hx.inc, by rw [hlev]; exact hx.level, by rw [hlev]; exact hx.kind,
    by rw [hlo, hhi]; exact hx.order, fun hl => ?_, fun hl => ?_⟩
  · have hleaf := hx.leaf hl
    refine ⟨by rw [hlo]; exact hleaf.lower, by rw [hhi]; exact hleaf.upper, by rw [hlo]; exact hleaf.first, ?_⟩
    rcases hleaf.next with h | h <;> grind
  · have hin := hx.inner hl
    refine ⟨by rw [hlo]; exact hin.lower, by rw [hhi]; exact hin.upper, fun i hi => (hF _ (hin.mem i hi)).1, fun i hi => ?_, fun i hi => ?_, fun i hi => ?_⟩
    · grind [hin.mem, hin.lev]
    · grind [hin.mem, hin.lo]
    grind [hin.hi]

/-! ## 4. A node split -/

/-- The frame after a split of `blk` at `sep`. -/
def Frame.split (F : Frame) (blk sib : Nat) (sep : BtKey) : Frame where
  mem x := x = sib ∨ F.mem x
  lev := update F.lev sib (F.lev blk)
  lo := update F.lo sib (some sep)
  hi := update (update F.hi sib (F.hi blk)) blk (some sep)

theorem Frame.split_sib (F : Frame) {blk sib : Nat} (hne : sib ≠ blk) (sep : BtKey) :
    (F.split blk sib sep).lev sib = F.lev blk ∧ (F.split blk sib sep).lo sib = some sep ∧
      (F.split blk sib sep).hi sib = F.hi blk ∧ (F.split blk sib sep).hi blk = some sep := by
  refine ⟨update_self .., update_self .., ?_, update_self ..⟩
  show update (update F.hi sib _) blk _ sib = _
  rw [update_of_ne hne, update_self]

section Fields

variable (n : BtNode) (sib parentBlk : Nat)

theorem splitKeep_fields : (splitKeep n sib).keys = n.keys ∧ (splitKeep n sib).slots = n.slots ∧
    (splitKeep n sib).count = n.count / 2 ∧ (splitKeep n sib).level = n.level ∧
    (splitKeep n sib).isLeaf = n.isLeaf ∧ (n.isLeaf = true → (splitKeep n sib).nextLeaf = sib) := by
  grind [splitKeep]

theorem splitSib_kind : (splitSib n sib parentBlk).level = n.level ∧
    (splitSib n sib parentBlk).isLeaf = n.isLeaf := by
  unfold splitSib
  dsimp only
  split
  · exact ⟨rfl, rfl⟩
  · exact ⟨rfl, rfl⟩

variable {n}

theorem splitSib_leaf (hl : n.isLeaf = true) (hf : n.count = 120) :
    (splitSib n sib parentBlk).count = 60 ∧ (splitSib n sib parentBlk).nextLeaf = n.nextLeaf ∧
    (∀ i < 60, (splitSib n sib parentBlk).keys i = n.keys (60 + i)) ∧
    ∀ i < 60, (splitSib n sib parentBlk).slots i = n.slots (60 + i) := by
  unfold splitSib
  dsimp only
  rw [if_pos hl, hf]
  refine ⟨rfl, rfl, fun i hi => ?_, fun i hi => ?_⟩
  · exact if_pos hi
  · exact if_pos hi

theorem splitSib_inner (hl : n.isLeaf = false) (hf : n.count = 120) : (splitSib n sib parentBlk).count = 59 ∧
    (∀ i < 59, (splitSib n sib parentBlk).keys i = n.keys (61 + i)) ∧
    ∀ i < 60, (splitSib n sib parentBlk).slots i = n.slots (61 + i) := by
  unfold splitSib
  dsimp only
  rw [if_neg (by simp [hl]), hf]
  refine ⟨rfl, fun i hi => ?_, fun i hi => ?_⟩
  · exact if_pos hi
  · exact if_pos hi

end Fields

section Split

variable {F : Frame} {blk sib : Nat} {n : BtNode} (hn : NodeIn F blk n) (hfull : n.count = 120)
  (hsib : ¬ F.mem sib) (hblk : F.mem blk)
include hn hfull

theorem NodeIn.sep_lower : ∀ x ∈ F.lo blk, x < n.keys 60 := by
  intro x hx
  cases hl : n.isLeaf with
  | true =>
    obtain ⟨-, h0⟩ := (hn.leaf hl).first x hx
    rw [← h0]
    exact hn.inc 0 60 (by omega) (by omega)
  | false => exact (hn.inner hl).lower 60 (by omega) x hx

theorem NodeIn.sep_upper : ∀ y ∈ F.hi blk, n.keys 60 < y := by
  intro y hy
  cases hl : n.isLeaf with
  | true =>
    exact lt_of_lt_of_le (hn.inc 60 119 (by omega) (by omega)) ((hn.leaf hl).upper 119 (by omega) y hy)
  | false => exact (hn.inner hl).upper 60 (by omega) y hy

omit hn hfull
include hsib

variable (blk) in
theorem Frame.split_of_mem (sep : BtKey) (hx : F.mem x) :
    (F.split blk sib sep).mem x ∧ (F.split blk sib sep).lev x = F.lev x ∧
      (F.split blk sib sep).lo x = F.lo x ∧ (x ≠ blk → (F.split blk sib sep).hi x = F.hi x) := by
  have hne : x ≠ sib := fun e => hsib (e ▸ hx)
  refine ⟨.inr hx, update_of_ne hne .., update_of_ne hne .., fun hb => ?_⟩
  show update (update F.hi sib _) blk _ x = _
  rw [update_of_ne hb, update_of_ne hne]

include hn hfull hblk

theorem NodeIn.splitKeep (hs0 : sib ≠ 0) : NodeIn (F.split blk sib (n.keys 60)) blk (splitKeep n sib) := by
  obtain ⟨hkeys, hslots, hcount, hlevel, hkind, hnext⟩ := splitKeep_fields n sib
  have hmagic := splitKeep_magic n sib
  generalize Flatfs.splitKeep n sib = m at *
  rw [hfull] at hcount
  replace hkeys := congrFun hkeys
  replace hslots := congrFun hslots
  have hsplit := fun x (hx : F.mem x) => F.split_of_mem blk hsib (n.keys 60) hx
  obtain ⟨-, hlev, hlo, -⟩ := hsplit blk hblk
  have hhi : (F.split blk sib (n.keys 60)).hi blk = some (n.keys 60) := update_self ..
  have hslev : (F.split blk sib (n.keys 60)).lev sib = F.lev blk := update_self ..
  have hslo : (F.split blk sib (n.keys 60)).lo sib = some (n.keys 60) := update_self ..
  have hsmem : (F.split blk sib (n.keys 60)).mem sib := .inl rfl
  have hinc := hn.inc
  refine ⟨hmagic.trans hn.magic, by rw [hcount]; decide, fun i j hij hj => ?_, by rw [hlevel, hlev]; exact hn.level,
    by rw [hkind, hlev]; exact hn.kind, fun x hx y hy => ?_, fun hl => ?_, fun hl => ?_⟩
  · rw [hkeys, hkeys]
    exact hinc i j hij (by omega)
  · have := hn.sep_lower hfull
    grind
  · rw [hkind] at hl
    have hleaf := hn.leaf hl
    have hlev0 := hn.kind.1 hl
    have hupper : ∀ i < 60, n.keys i ≤ n.keys 60 := fun i hi => le_of_lt (hinc i 60 hi (by omega))
    refine ⟨fun i hi x hx => ?_, fun i hi y hy => ?_, fun x hx => ?_, ?_⟩
    · grind [hleaf.lower]
    · grind
    · grind [hleaf.first]
    · grind
  · rw [hkind] at hl
    have hin := hn.inner hl
    have hupper : ∀ i < 60, n.keys i < n.keys 60 := fun i hi => hinc i 60 hi (by omega)
    refine ⟨fun i hi x hx => ?_, fun i hi y hy => ?_, fun i hi => ?_, fun i hi => ?_, fun i hi => ?_,
      fun i hi => ?_⟩
    · grind [hin.lower]
    · grind
    · grind [hin.mem]
    · grind [hin.mem, hin.lev]
    · grind [hin.mem, hin.lo]
    · grind [hin.mem, hin.lev, hin.hi]

theorem NodeIn.splitSib (parentBlk : Nat) :
    NodeIn (F.split blk sib (n.keys 60)) sib (splitSib n sib parentBlk) := by
  obtain ⟨hlevel, hkind⟩ := splitSib_kind n sib parentBlk
  have hmagic := splitSib_magic n sib parentBlk
  have hne : sib ≠ blk := fun e => hsib (e ▸ hblk)
  have hsplit := fun x (hx : F.mem x) => F.split_of_mem blk hsib (n.keys 60) hx
  obtain ⟨hlev, hlo, hhi, -⟩ := F.split_sib hne (n.keys 60)
  have hinc := hn.inc
  have hord : ∀ x ∈ (F.split blk sib (n.keys 60)).lo sib, ∀ y ∈ (F.split blk sib (n.keys 60)).hi sib,
      x < y := by
    have := hn.sep_upper hfull
    grind
  cases hl : n.isLeaf with
  | true =>
    obtain ⟨hcount, hnext, hkeys, -⟩ := splitSib_leaf sib parentBlk hl hfull
    have hleaf := hn.leaf hl
    have hlower : ∀ i < 60, n.keys 60 ≤ n.keys (60 + i) := fun i hi =>
      (Nat.eq_zero_or_pos i).elim (fun h0 => by rw [h0]) fun h0 => le_of_lt (hinc _ _ (by omega) (by omega))
    generalize Flatfs.splitSib n sib parentBlk = m at *
    refine ⟨hmagic, by rw [hcount]; decide, fun i j hij hj => ?_, by rw [hlevel, hlev]; exact hn.level,
      by rw [hkind, hlev]; exact hn.kind, hord, fun _ => ⟨fun i hi x hx => ?_, fun i hi y hy => ?_,
      fun x hx => ?_, ?_⟩, fun h => by rw [hkind, hl] at h; cases h⟩
    · rw [hkeys i (by omega), hkeys j (by omega)]
      exact hinc _ _ (by omega) (by omega)
    · grind
    · grind [hleaf.upper]
    · grind
    · rcases hleaf.next with h | h <;> grind
  | false =>
    obtain ⟨hcount, hkeys, hslots⟩ := splitSib_inner sib parentBlk hl hfull
    have hin := hn.inner hl
    generalize Flatfs.splitSib n sib parentBlk = m at *
    refine ⟨hmagic, by rw [hcount]; decide, fun i j hij hj => ?_, by rw [hlevel, hlev]; exact hn.level,
      by rw [hkind, hlev]; exact hn.kind, hord, fun h => (by rw [hkind, hl] at h; cases h),
      fun _ => ⟨fun i hi x hx => ?_, fun i hi y hy => ?_, fun i hi => ?_, fun i hi => ?_, fun i hi => ?_,
        fun i hi => ?_⟩⟩
    · rw [hkeys i (by omega), hkeys j (by omega)]
      exact hinc _ _ (by omega) (by omega)
    · rw [hlo] at hx
      obtain rfl := Option.some.inj hx
      rw [hkeys i (by omega)]
      exact hinc _ _ (by omega) (by omega)
    · grind [hin.upper]
    · grind [hin.mem]
    · grind [hin.mem, hin.lev]
    · grind [hin.mem, hin.lo]
    · grind [hin.mem, hin.lev, hin.hi]

omit hn hfull hblk

theorem NodeIn.split_of_ne (hx : NodeIn F x n) (hxm : F.mem x) (hne : x ≠ blk) (sep : BtKey)
    (hch : n.isLeaf = false → ∀ i ≤ n.count, n.slots i ≠ blk) : NodeIn (F.split blk sib sep) x n := by
  have hsplit := fun y (hy : F.mem y) => F.split_of_mem blk hsib sep hy
  exact hx.frame hxm (fun y hy => ⟨(hsplit y hy).1, (hsplit y hy).2.1, (hsplit y hy).2.2.1⟩)
    ((hsplit x hxm).2.2.2 hne) fun hl i hi => (hsplit _ ((hx.inner hl).mem i hi)).2.2.2 (hch hl i hi)

include hblk

theorem NodeIn.splitParent {pb pos : Nat} {sep : BtKey} (hp : NodeIn F pb n) (hpm : F.mem pb)
    (hl : n.isLeaf = false) (hroom : n.count < 120) (hpos : pos ≤ n.count) (hslot : n.slots pos = blk)
    (hone : ∀ i ≤ n.count, n.slots i = blk → i = pos) (hlow : ∀ x ∈ F.lo blk, x < sep)
    (hupp : ∀ y ∈ F.hi blk, sep < y) :
    NodeIn (F.split blk sib sep) pb (btnodeInternalInsertAt n pos sep sib) := by
  have hin := hp.inner hl
  have hold : ∀ i j, i < j → j < n.count → n.keys i < n.keys j := hp.inc
  have hne : pb ≠ blk := by
    have := hin.lev pos hpos
    grind
  have hsne : sib ≠ blk := fun e => hsib (e ▸ hblk)
  have hbelow : ∀ i < pos, n.keys i < sep := by
    intro i hi
    have h1 := hlow (n.keys (pos - 1)) (by grind [hin.lo])
    have h2 := hold i (pos - 1)
    grind
  have habove : ∀ i, pos ≤ i → i < n.count → sep < n.keys i := by
    intro i hi hi'
    have h1 := hupp (n.keys pos) (by grind [hin.hi])
    have h2 := hold pos i
    grind
  have hcut : Cut n.keys n.count sep pos := ⟨hpos, hbelow, fun i hi hi' => le_of_lt (habove i hi hi')⟩
  have hinc : Increasing (btnodeInternalInsertAt n pos sep sib).keys (n.count + 1) :=
    hp.inc.insert hcut fun i hi e => by grind
  have hkeys : ∀ j ≤ n.count, (btnodeInternalInsertAt n pos sep sib).keys j =
      if j < pos then n.keys j else if j = pos then sep else n.keys (j - 1) :=
    fun j hj => update_shiftUp sep hj
  have hslots : ∀ j ≤ n.count + 1, (btnodeInternalInsertAt n pos sep sib).slots j =
      if j < pos + 1 then n.slots j else if j = pos + 1 then sib else n.slots (j - 1) :=
    fun j hj => update_shiftUp sib hj
  have hcount : (btnodeInternalInsertAt n pos sep sib).count = n.count + 1 := rfl
  have hsplit := fun x (hx : F.mem x) => F.split_of_mem blk hsib sep hx
  obtain ⟨-, hlev, hlo, hhi⟩ := hsplit pb hpm
  have hhi := hhi hne
  obtain ⟨hslev, hslo, hshi, hbhi⟩ := F.split_sib hsne sep
  have hsmem : (F.split blk sib sep).mem sib := .inl rfl
  refine ⟨hp.magic, by rw [hcount]; exact hroom, hinc, by rw [hlev]; exact hp.level, by rw [hlev]; exact hp.kind,
    by rw [hlo, hhi]; exact hp.order, fun h => (by rw [show n.isLeaf = true from h] at hl; cases hl), fun _ => ?_⟩
  generalize btnodeInternalInsertAt n pos sep sib = m at *
  have hsep : (∀ x ∈ F.lo pb, x < sep) ∧ ∀ y ∈ F.hi pb, sep < y := by
    constructor
    · intro x hx
      by_cases h0 : pos = 0
      · exact hlow x (by rw [← hslot, hin.lo pos hpos, if_pos h0]; exact hx)
      · exact lt_trans (hin.lower 0 (by omega) x hx) (hbelow 0 (by omega))
    · intro y hy
      by_cases h0 : pos = n.count
      · exact hupp y (by rw [← hslot, hin.hi pos hpos, if_pos h0]; exact hy)
      · exact lt_trans (habove pos (by omega) (by omega)) (hin.upper pos (by omega) y hy)
  clear hbelow habove hcut hinc hold hlow hupp
  refine ⟨fun i hi x hx => ?_, fun i hi y hy => ?_, fun i hi => ?_, fun i hi => ?_, fun i hi => ?_,
    fun i hi => ?_⟩
  · grind [hin.lower]
  · grind [hin.upper]
  · grind [hin.mem]
  · grind [hin.mem, hin.lev]
  · grind [hin.mem, hin.lo]
  · have hbefore := hin.hi (i - 1)
    have hhere := hin.hi i
    grind [hin.mem]

end Split

/-! ## 5. The tree around a split -/

section Blocks

variable {f f' : FS} {F F' : Frame} {sib : Nat} (h : Blocks f F) (ht : Taken f sib f')
include h ht

theorem Blocks.taken_fresh : ¬ F.mem sib ∧ sib ≠ 0 := by
  have hlow := ht.low
  have hpos := h.dataPos
  refine ⟨fun hm => ?_, by omega⟩
  rcases (h.kept sib hm).2.2 with hlt | hal
  · omega
  · exact ht.fresh hal

theorem Blocks.ne_taken (hx : F.mem x) : x ≠ sib :=
  fun e => (h.taken_fresh ht).1 (e ▸ hx)

theorem Blocks.taken (hF : ∀ x, F'.mem x → x = sib ∨ F.mem x) : Blocks f' F' := by
  refine ⟨ht.inv, by rw [ht.super]; exact h.dataPos, fun x hx => ?_⟩
  rw [ht.super]
  show x ≠ 0 ∧ x < f.super.totalBlocks ∧ (x < f.super.dataStart ∨ f'.Allocated x)
  rcases hF x hx with rfl | hx
  · have hal := (ht.alloc x).2 (.inl rfl)
    have hlt := hal.2.1
    rw [ht.super] at hlt
    exact ⟨(h.taken_fresh ht).2, hlt, .inr hal⟩
  · obtain ⟨h0, h1, h2⟩ := h.kept x hx
    exact ⟨h0, h1, h2.imp id fun hal => (ht.alloc x).2 (.inr hal)⟩

end Blocks

theorem BtInv.halved_node {s : Bt} (h : BtInv s F) {blk sib : Nat} {fs : FS} (ht : Taken s.fs sib fs)
    (hblk : F.mem blk) (parentBlk : Nat) (hx : F.mem x ∨ x = sib) :
    ((s.withBlock sib fs).halved blk sib parentBlk).node x = halfNode s blk sib parentBlk x := by
  have hnode : ∀ y, F.mem y → (s.withBlock sib fs).node y = s.node y := fun y hy =>
    update_of_ne (h.ne_taken ht hy) ..
  have hsplit : splitNode (s.withBlock sib fs) blk sib parentBlk x = splitNode s blk sib parentBlk x := by
    grind [splitNode]
  have hmagic : ((s.withBlock sib fs).node x).magic = btreeMagic ∨ x = sib :=
    hx.imp (fun hm => by rw [hnode x hm]; exact (h.node x hm).magic) id
  rw [Flatfs.halved_node parentBlk (h.ne_taken ht hblk) hmagic, halfNode, hsplit, hnode blk hblk, halfNode]

section Halved

variable {s s' : Bt} {F : Frame} (h : TreeIn s F) {blk sib : Nat} (hsib : ¬ F.mem sib) (hs0 : sib ≠ 0)
  (hblk : F.mem blk) (parentBlk : Nat) (hfull : (s.node blk).count = 120) {pb : Nat} (hps : pb ≠ sib)
  (hch : ∀ x, F.mem x → x ≠ pb → (s.node x).isLeaf = false → ∀ i ≤ (s.node x).count, (s.node x).slots i ≠ blk)
include h hfull hblk hsib

omit hps in
include hs0 hch in
theorem TreeIn.halfNode_in (hx : F.mem x ∨ x = sib) (hxp : x ≠ pb) :
    NodeIn (F.split blk sib ((s.node blk).keys 60)) x (halfNode s blk sib parentBlk x) := by
  refine NodeIn.prevLeaf ?_ _
  unfold splitNode
  by_cases hxb : x = blk
  · rw [if_pos hxb, hxb]
    exact (h.node blk hblk).splitKeep hfull hsib hblk hs0
  rw [if_neg hxb]
  by_cases hxs : x = sib
  · rw [if_pos hxs, hxs]
    exact (h.node blk hblk).splitSib hfull hsib hblk parentBlk
  · rw [if_neg hxs]
    have hxm := hx.resolve_right hxs
    exact (h.node x hxm).split_of_ne hsib hxm hxb _ (hch x hxm hxp)

omit h in
include hps in
/-- The children of the split node are found under one of its halves, all others where they were. -/
theorem halfNode_up {p i : Nat} (hp : F.mem p) (hpp : p ≠ pb) (hl : (s.node p).isLeaf = false)
    (hi : i ≤ (s.node p).count) : ∃ q j, (F.mem q ∨ q = sib) ∧ q ≠ pb ∧
      (halfNode s blk sib parentBlk q).isLeaf = false ∧ j ≤ (halfNode s blk sib parentBlk q).count ∧
      (halfNode s blk sib parentBlk q).slots j = (s.node p).slots i := by
  have hsb : sib ≠ blk := fun e => hsib (e ▸ hblk)
  by_cases hb : p = blk
  · subst hb
    by_cases h60 : i ≤ 60
    · obtain ⟨-, hslots, hcount, -, hkind, -⟩ := splitKeep_fields (s.node p) sib
      refine ⟨p, i, .inl hp, hpp, ?_⟩
      rw [halfNode, splitNode, if_pos rfl]
      grind
    · obtain ⟨-, hkind⟩ := splitSib_kind (s.node p) sib parentBlk
      obtain ⟨hcount, -, hslots⟩ := splitSib_inner sib parentBlk hl hfull
      refine ⟨sib, i - 61, .inr rfl, Ne.symm hps, ?_⟩
      rw [halfNode, splitNode, if_neg hsb, if_pos rfl]
      grind
  · refine ⟨p, i, .inl hp, hpp, ?_⟩
    rw [halfNode, splitNode, if_neg hb, if_neg (fun e : p = sib => hsib (e ▸ hp))]
    exact ⟨hl, hi, rfl⟩

omit h hps hsib hblk in
theorem halfNode_room (hx : x = blk ∨ x = sib) : (halfNode s blk sib parentBlk x).count < 120 := by
  show (splitNode s blk sib parentBlk x).count < 120
  unfold splitNode
  by_cases hxb : x = blk
  · rw [if_pos hxb, (splitKeep_fields (s.node blk) sib).2.2.1, hfull]
    decide
  · rw [if_neg hxb, if_pos (hx.resolve_left hxb)]
    cases hl : (s.node blk).isLeaf with
    | true => grind [splitSib_leaf]
    | false => grind [splitSib_inner]

omit hps hsib hblk in
theorem TreeIn.halfNode_wide (hx : F.mem x ∨ x = sib) (hxr : x ≠ s.rootBlk)
    (hl : (halfNode s blk sib parentBlk x).isLeaf = false) : 59 ≤ (halfNode s blk sib parentBlk x).count := by
  show 59 ≤ (splitNode s blk sib parentBlk x).count
  replace hl : (splitNode s blk sib parentBlk x).isLeaf = false := hl
  unfold splitNode at hl ⊢
  by_cases hxb : x = blk
  · rw [if_pos hxb, (splitKeep_fields (s.node blk) sib).2.2.1, hfull]
    decide
  rw [if_neg hxb] at hl ⊢
  by_cases hxs : x = sib
  · rw [if_pos hxs] at hl ⊢
    grind [splitSib_kind, splitSib_inner]
  · rw [if_neg hxs] at hl ⊢
    exact h.wide x (hx.resolve_right hxs) hxr hl

end Halved

/-- **The links back after a split.** The sibling comes between the node and the leaf behind it. -/
theorem TreeIn.halfNode_links {s s' : Bt} (h : TreeIn s F) {F' : Frame} {blk sib : Nat} (parentBlk : Nat)
    (hsib : ¬ F.mem sib) (hblk : F.mem blk) (hlo : ∀ x, F.mem x → F'.lo x = F.lo x) (hslo : F'.lo sib ≠ none)
    (hnode : ∀ x, F.mem x ∧ F.lev x = 0 ∨ x = sib ∧ F.lev blk = 0 → s'.node x = halfNode s blk sib parentBlk x)
    (hx : F.mem x ∧ F.lev x = 0 ∨ x = sib ∧ F.lev blk = 0) : LinksIn s' F' x := by
  have hsb : sib ≠ blk := fun e => hsib (e ▸ hblk)
  have hself := fun x hx h0 => (h.links x hx h0).self
  have hfirst := fun x hx h0 => (h.links x hx h0).first
  have hback := fun x hx h0 => (h.links x hx h0).back
  have hnext := fun x hx h0 => h.next_leaf (b := x) hx h0
  by_cases hl0 : F.lev blk = 0
  · have hlk := halfNode_leaf parentBlk hsb ((h.node blk hblk).kind.2 hl0)
    refine ⟨by grind, fun hno => by grind, fun hn => ?_⟩
    rcases hx with ⟨hxm, hx0⟩ | ⟨rfl, -⟩
    · by_cases hxb : x = blk
      · have he : (s'.node x).nextLeaf = sib := by grind
        have hsn : sib ≠ (s.node blk).nextLeaf := by grind
        rw [he, hnode sib (.inr ⟨rfl, hl0⟩), (hlk sib).2.2, if_neg fun e => hsn e.2, if_pos rfl, hxb,
          hself blk hblk hl0]
      · have he : (s'.node x).nextLeaf = (s.node x).nextLeaf := by grind
        rw [he] at hn ⊢
        obtain ⟨h1, h2, -⟩ := hnext x hxm hx0 hn
        rw [hnode _ (.inl ⟨h1, h2⟩), (hlk _).2.2, if_neg fun e => hxb (h.next_inj hblk hl0 hxm hx0 e.1 e.2),
          if_neg (fun e : _ = sib => hsib (e ▸ h1))]
        exact hback x hxm hx0 hn
    · have he : (s'.node x).nextLeaf = (s.node blk).nextLeaf := by grind
      rw [he] at hn ⊢
      obtain ⟨h1, h2, -⟩ := hnext blk hblk hl0 hn
      rw [hnode _ (.inl ⟨h1, h2⟩), (hlk _).2.2, if_pos ⟨hn, rfl⟩]
  · have hsame : ∀ x, F.mem x → F.lev x = 0 → s'.node x = s.node x := fun x hx h0 =>
      (hnode x (.inl ⟨hx, h0⟩)).trans (halfNode_of_ne parentBlk (fun e => hl0 (e ▸ h0))
        (fun e => hsib (e ▸ hx)) fun hl => absurd ((h.node blk hblk).kind.1 hl) hl0)
    obtain ⟨hxm, hx0⟩ := hx.resolve_right fun e => hl0 e.2
    exact ⟨by grind, fun hno => by grind, fun hn => by grind⟩

/-- **A node was split**: the tree is in order, and the leaves are as before but for the two halves. -/
structure TreeSplit (s : Bt) (F : Frame) (blk sib parentBlk : Nat) (s' : Bt) (F' : Frame) : Prop where
  tree : TreeIn s' F'
  mem : ∀ x, F.mem x → F'.mem x ∧ F'.lev x = F.lev x ∧ F'.lo x = F.lo x ∧ (x ≠ blk → F'.hi x = F.hi x)
  keep : F'.hi blk = some ((s.node blk).keys 60)
  fresh : ¬ F.mem sib
  sibling : F'.mem sib ∧ F'.lev sib = F.lev blk ∧ F'.lo sib = some ((s.node blk).keys 60) ∧
    F'.hi sib = F.hi blk
  back : ∀ x, F'.mem x → F'.lev x = 0 → F.mem x ∨ x = sib
  leaf : ∀ x, F.mem x ∨ x = sib → F'.lev x = 0 →
    ∃ p, s'.node x = { splitNode s blk sib parentBlk x with prevLeaf := p }
  room : ∀ x, x = blk ∨ x = sib → (s'.node x).count < 120

/-- A node was split, and the blocks of the tree are its own. -/
structure SplitTo (s : Bt) (F : Frame) (blk sib parentBlk : Nat) (s' : Bt) (F' : Frame) : Prop extends
    TreeSplit s F blk sib parentBlk s' F' where
  inv : BtInv s' F'

theorem TreeIn.split {s s' : Bt} (h : TreeIn s F) {blk sib parentBlk pb pos : Nat} (hsib : ¬ F.mem sib)
    (hs0 : sib ≠ 0) (hblk : F.mem blk) (hfull : (s.node blk).count = 120) (hpm : F.mem pb)
    (hpl : (s.node pb).isLeaf = false) (hroom : (s.node pb).count < 120) (hpos : pos ≤ (s.node pb).count)
    (hslot : (s.node pb).slots pos = blk) (hroot : s'.rootBlk = s.rootBlk)
    (hnode : ∀ x, F.mem x ∨ x = sib → s'.node x =
      if x = pb then btnodeInternalInsertAt (s.node pb) pos ((s.node blk).keys 60) sib
      else halfNode s blk sib parentBlk x) :
    TreeSplit s F blk sib parentBlk s' (F.split blk sib ((s.node blk).keys 60)) := by
  have hplev := ((h.node pb hpm).inner hpl).lev pos hpos
  have hpb : pb ≠ blk := by grind
  have hne : ∀ x, F.mem x → x ≠ sib := fun x hx e => hsib (e ▸ hx)
  have hsb : sib ≠ blk := (hne blk hblk).symm
  have hone : ∀ x, F.mem x → (s.node x).isLeaf = false → ∀ i ≤ (s.node x).count,
      (s.node x).slots i = blk → x = pb ∧ i = pos := fun x hx hl i hi he =>
    h.parent hx hpm hl hpl hi hpos (he.trans hslot.symm)
  have hpar := (h.node pb hpm).splitParent hsib hblk hpm hpl hroom hpos hslot
    (fun i hi he => (hone pb hpm hpl i hi he).2) ((h.node blk hblk).sep_lower hfull)
    ((h.node blk hblk).sep_upper hfull)
  have hslots : ∀ j ≤ (s.node pb).count + 1,
      (btnodeInternalInsertAt (s.node pb) pos ((s.node blk).keys 60) sib).slots j =
      if j < pos + 1 then (s.node pb).slots j else if j = pos + 1 then sib else (s.node pb).slots (j - 1) :=
    fun j hj => update_shiftUp sib hj
  have hpcount : (btnodeInternalInsertAt (s.node pb) pos ((s.node blk).keys 60) sib).count =
    (s.node pb).count + 1 := rfl
  have hpkind : (btnodeInternalInsertAt (s.node pb) pos ((s.node blk).keys 60) sib).isLeaf = false := hpl
  have hself := (hnode pb (.inl hpm)).trans (if_pos rfl)
  have hother : ∀ x, F.mem x ∨ x = sib → x ≠ pb → s'.node x = halfNode s blk sib parentBlk x :=
    fun x hx hxp => (hnode x hx).trans (if_neg hxp)
  clear hnode
  generalize btnodeInternalInsertAt (s.node pb) pos ((s.node blk).keys 60) sib = m at *
  have hmem : ∀ x, (F.split blk sib ((s.node blk).keys 60)).mem x ↔ F.mem x ∨ x = sib := fun x => or_comm
  have hch : ∀ x, F.mem x → x ≠ pb → (s.node x).isLeaf = false →
      ∀ i ≤ (s.node x).count, (s.node x).slots i ≠ blk := by grind
  have hsplit := fun x (hx : F.mem x) => F.split_of_mem blk hsib ((s.node blk).keys 60) hx
  have hin := fun x hx => h.halfNode_in hsib hs0 hblk parentBlk hfull hch (x := x) hx
  obtain ⟨hslev, hslo, hshi, hbhi⟩ := F.split_sib hsb ((s.node blk).keys 60)
  generalize F.split blk sib ((s.node blk).keys 60) = F' at *
  refine ⟨⟨?_, ?_, ?_, fun x hx => ?_, fun x hx => ?_, fun x hx hxr => ?_, fun x hx hxr hl => ?_,
    fun x hx h0 => ?_⟩, hsplit, hbhi, hsib, ⟨(hmem sib).2 (.inr rfl), hslev, hslo, hshi⟩, fun x hx _ => (hmem x).1 hx, fun x hx hl => ?_, fun x hx => ?_⟩
  · exact hroot ▸ (hsplit _ h.root).1
  · grind [h.root, h.rootLo]
  · have := h.top pb hpm
    grind [h.root, h.rootHi]
  · rw [hroot, (hsplit _ h.root).2.1]
    rcases (hmem x).1 hx with hxm | rfl
    · exact (hsplit x hxm).2.1 ▸ h.top x hxm
    · exact hslev ▸ h.top blk hblk
  · by_cases hxp : x = pb
    · rw [hxp, hself]
      exact hpar
    · rw [hother x ((hmem x).1 hx) hxp]
      exact hin x ((hmem x).1 hx) hxp
  · rcases (hmem x).1 hx with hxm | rfl
    · obtain ⟨p, i, hp, hl, hi, he⟩ := h.up x hxm (hroot ▸ hxr)
      by_cases hpp : p = pb
      · subst hpp
        refine ⟨p, if i < pos + 1 then i else i + 1, (hmem p).2 (.inl hpm), ?_⟩
        grind
      · obtain ⟨q, j, hq, hqp, hup⟩ := halfNode_up hsib hblk parentBlk hfull (hne pb hpm) hp hpp hl hi
        grind
    · refine ⟨pb, pos + 1, (hmem pb).2 (.inl hpm), ?_⟩
      grind
  · by_cases hxp : x = pb
    · subst hxp
      rw [hself, hpcount]
      exact Nat.le_succ_of_le (h.wide _ hpm (hroot ▸ hxr) hpl)
    · rw [hother x ((hmem x).1 hx) hxp] at hl ⊢
      exact h.halfNode_wide parentBlk hfull ((hmem x).1 hx) (hroot ▸ hxr) hl
  · refine h.halfNode_links parentBlk hsib hblk (fun y hy => (hsplit y hy).2.2.1) (by simp [hslo])
      (fun y hy => ?_) ?_
    · exact hother y (hy.imp And.left And.left) (by grind)
    · grind
  · have hxp : x ≠ pb := by grind
    exact ⟨_, hother x hx hxp⟩
  · have hxm : F.mem x ∨ x = sib := hx.imp (fun e : x = blk => e ▸ hblk) id
    rw [hother x hxm (by grind)]
    exact halfNode_room parentBlk hfull hx

theorem BtInv.split {s : Bt} (h : BtInv s F) {blk sib pb pos : Nat} {fs : FS} (ht : Taken s.fs sib fs)
    (hblk : F.mem blk) (parentBlk : Nat) (hfull : (s.node blk).count = 120) (hpm : F.mem pb)
    (hpl : (s.node pb).isLeaf = false) (hroom : (s.node pb).count < 120) (hpos : pos ≤ (s.node pb).count)
    (hslot : (s.node pb).slots pos = blk) {s1 : Bt} (hs1 : s1 = (s.withBlock sib fs).halved blk sib parentBlk) :
    SplitTo s F blk sib parentBlk
      (s1.setNode pb (btnodeInternalInsertAt (s1.node pb) pos ((s.node blk).keys 60) sib))
      (F.split blk sib ((s.node blk).keys 60)) := by
  obtain ⟨hsib, hs0⟩ := h.taken_fresh ht
  have hn := h.node blk hblk
  have hplev := ((h.node pb hpm).inner hpl).lev pos hpos
  have hs1n : ∀ x, F.mem x ∨ x = sib → s1.node x = halfNode s blk sib parentBlk x := fun x hx => by
    rw [hs1, h.halved_node ht hblk parentBlk hx]
  have hp1 : s1.node pb = s.node pb := by
    rw [hs1n pb (.inl hpm), halfNode_of_ne parentBlk (by grind) (h.ne_taken ht hpm)]
    intro hl h0 e
    have hnext := (h.next_leaf hblk (hn.kind.1 hl) h0).2.1
    grind
  have hfs : s1.fs = fs := by rw [hs1, halved_fs]; rfl
  have hsp := @TreeIn.split _ _ (s1.setNode pb (btnodeInternalInsertAt (s1.node pb) pos ((s.node blk).keys 60) sib))
    h.toTreeIn _ _ parentBlk _ _ hsib hs0 hblk hfull hpm hpl hroom hpos hslot
    (by rw [hs1, setNode_rootBlk, halved_rootBlk]; rfl) fun x hx => by
      split
      · rename_i hxp
        rw [hxp, hp1]
        exact setNode_self (h.node pb hpm).magic
      · rename_i hxp
        rw [setNode_of_ne _ hxp, hs1n x hx]
  exact ⟨hsp, hsp.tree, hfs ▸ h.taken ht fun x => id⟩

/-! ## 6. A new root -/

/-- The frame with a root more. -/
def Frame.grow (F : Frame) (nr blk : Nat) : Frame where
  mem x := x = nr ∨ F.mem x
  lev := update F.lev nr (F.lev blk + 1)
  lo := update F.lo nr none
  hi := update F.hi nr none

section Grow

variable {F : Frame} {nr : Nat} (hnr : ¬ F.mem nr) (blk : Nat)
include hnr

theorem Frame.grow_of_mem (hx : F.mem x) : (F.grow nr blk).mem x ∧
    (F.grow nr blk).lev x = F.lev x ∧ (F.grow nr blk).lo x = F.lo x ∧ (F.grow nr blk).hi x = F.hi x := by
  have hne : x ≠ nr := fun e => hnr (e ▸ hx)
  exact ⟨.inr hx, update_of_ne hne .., update_of_ne hne .., update_of_ne hne ..⟩

theorem NodeIn.grow (hx : NodeIn F x n) (hxm : F.mem x) : NodeIn (F.grow nr blk) x n := by
  have hgrow := fun y (hy : F.mem y) => F.grow_of_mem hnr blk hy
  exact hx.frame hxm (fun y hy => ⟨(hgrow y hy).1, (hgrow y hy).2.1, (hgrow y hy).2.2.1⟩) (hgrow x hxm).2.2.2
    fun hl i hi => (hgrow _ ((hx.inner hl).mem i hi)).2.2.2

end Grow

theorem withRoot_node_self (s : Bt) (nr blk sib : Nat) (sep : BtKey) : (s.withRoot nr blk sib sep).node nr =
    { btnodeInit nr 0 false ((s.node blk).level + 1) with
      keys := update (fun _ => ⟨0, 0⟩) 0 sep
      slots := update (update (fun _ => 0) 0 blk) 1 sib
      count := 1 } :=
  update_self ..

/-- The tree with an empty root over the old one. -/
def Bt.addRoot (s : Bt) (nr : Nat) : Bt :=
  { s with
    node := update s.node nr { btnodeInit nr 0 false ((s.node s.rootBlk).level + 1) with
      slots := update (fun _ => 0) 0 s.rootBlk }
    rootBlk := nr }

theorem addRoot_self (s : Bt) (nr : Nat) : (s.addRoot nr).node nr =
    { btnodeInit nr 0 false ((s.node s.rootBlk).level + 1) with slots := update (fun _ => 0) 0 s.rootBlk } :=
  update_self ..

theorem TreeIn.addRoot {s : Bt} (h : TreeIn s F) {nr : Nat} (hnr : ¬ F.mem nr)
    (hwide : 59 ≤ (s.node s.rootBlk).count) : TreeIn (s.addRoot nr) (F.grow nr s.rootBlk) := by
  obtain ⟨hmagic, hkind, hcount, hlevel, hslot⟩ : ((s.addRoot nr).node nr).magic = btreeMagic ∧
      ((s.addRoot nr).node nr).isLeaf = false ∧ ((s.addRoot nr).node nr).count = 0 ∧
      ((s.addRoot nr).node nr).level = (s.node s.rootBlk).level + 1 ∧
      ((s.addRoot nr).node nr).slots 0 = s.rootBlk := by
    rw [addRoot_self]
    exact ⟨rfl, rfl, rfl, rfl, rfl⟩
  have hother : ∀ x, F.mem x → (s.addRoot nr).node x = s.node x := fun x hx =>
    update_of_ne (fun e : x = nr => hnr (e ▸ hx)) ..
  have hroot : (s.addRoot nr).rootBlk = nr := rfl
  have hgrow := fun x (hx : F.mem x) => F.grow_of_mem hnr s.rootBlk hx
  have hnlev : (F.grow nr s.rootBlk).lev nr = F.lev s.rootBlk + 1 := update_self ..
  have hnlo : (F.grow nr s.rootBlk).lo nr = none := update_self ..
  have hnhi : (F.grow nr s.rootBlk).hi nr = none := update_self ..
  refine ⟨.inl rfl, hnlo, hnhi, fun x hx => ?_, fun x hx => ?_, fun x hx hxr => ?_, fun x hx hxr hl => ?_,
    fun x hx h0 => ?_⟩
  · rcases hx with rfl | hx
    · exact Nat.le_refl _
    · have := h.top x hx
      grind
  · rcases hx with rfl | hx
    · have hb := hgrow _ h.root
      have hrlev := (h.node _ h.root).level
      refine ⟨hmagic, by omega, fun i j _ hj => by omega, by omega, by simp [hkind, hnlev], by rw [hnlo]; exact nofun,
        fun hl => by simp [hkind] at hl, fun _ => ⟨fun i hi => by omega, fun i hi => by omega, fun i hi => ?_,
        fun i hi => ?_, fun i hi => ?_, fun i hi => ?_⟩⟩
      all_goals grind [h.rootLo, h.rootHi]
    · exact hother x hx ▸ (h.node x hx).grow hnr s.rootBlk hx
  · have hxm := hx.resolve_left hxr
    by_cases hxo : x = s.rootBlk
    · exact ⟨nr, 0, .inl rfl, hkind, Nat.zero_le _, hslot.trans hxo.symm⟩
    · obtain ⟨p, i, hp, hl, hi, he⟩ := h.up x hxm hxo
      refine ⟨p, i, .inr hp, ?_⟩
      rw [hother p hp]
      exact ⟨hl, hi, he⟩
  · have hxm := hx.resolve_left hxr
    rw [hother x hxm] at hl ⊢
    by_cases hxo : x = s.rootBlk
    · rw [hxo]
      exact hwide
    · exact h.wide x hxm hxo hl
  · have hxm : F.mem x := hx.resolve_left fun e => by grind
    have hx0 : F.lev x = 0 := (hgrow x hxm).2.1 ▸ h0
    have hL := h.links x hxm hx0
    refine ⟨by rw [hother x hxm]; exact hL.self, fun hlo => ?_, fun hn => ?_⟩
    · rw [hother x hxm]
      exact hL.first ((hgrow x hxm).2.2.1 ▸ hlo)
    · rw [hother x hxm] at hn ⊢
      rw [hother _ (h.next_leaf hxm hx0 hn).1]
      exact hL.back hn

/-- **The root split under a new one.** It comes to the same as to split it under an empty root. -/
theorem BtInv.grow {s : Bt} (h : BtInv s F) {sib nr : Nat} {fs fs' : FS} (ht : Taken s.fs sib fs)
    (parentBlk : Nat) (hfull : (s.node s.rootBlk).count = 120) (hn : Taken fs nr fs') {s1 : Bt}
    (hs1 : s1 = (s.withBlock sib fs).halved s.rootBlk sib parentBlk) : SplitTo s F s.rootBlk sib parentBlk
      ((s1.withBlock nr fs').withRoot nr s.rootBlk sib ((s.node s.rootBlk).keys 60))
      ((F.grow nr s.rootBlk).split s.rootBlk sib ((s.node s.rootBlk).keys 60)) := by
  obtain ⟨hsib, hs0⟩ := h.taken_fresh ht
  have hb1 : Blocks fs (F.split s.rootBlk sib ((s.node s.rootBlk).keys 60)) := h.taken ht fun x => id
  obtain ⟨hnr, -⟩ := hb1.taken_fresh hn
  have hne : ∀ x, F.mem x ∨ x = sib → x ≠ nr := fun x hx e => hnr (e ▸ hx.symm)
  have hold : ∀ x, F.mem x ∨ x = sib → (s.addRoot nr).node x = s.node x := fun x hx => update_of_ne (hne x hx) ..
  have hroot := hold s.rootBlk (.inl h.root)
  have hgrow := fun x (hx : F.mem x) => F.grow_of_mem (fun hm => hnr (.inr hm)) s.rootBlk hx
  have hnlev : (F.grow nr s.rootBlk).lev nr = F.lev s.rootBlk + 1 := update_self ..
  have hs1n : ∀ x, F.mem x ∨ x = sib → s1.node x = halfNode s s.rootBlk sib parentBlk x := fun x hx => by
    rw [hs1, h.halved_node ht h.root parentBlk hx]
  have hsn : ∀ x, F.mem x ∨ x = sib →
      splitNode (s.addRoot nr) s.rootBlk sib parentBlk x = splitNode s s.rootBlk sib parentBlk x := by
    intro x hx
    rw [splitNode, splitNode, hroot, hold x hx]
  have hadd := h.addRoot (fun hm => hnr (.inr hm)) (by omega)
  have hself := addRoot_self s nr
  generalize hs2 : (s1.withBlock nr fs').withRoot nr s.rootBlk sib ((s.node s.rootBlk).keys 60) = s2
  have hsp := @TreeIn.split _ _ s2 hadd s.rootBlk sib parentBlk nr 0
    (fun hm => hm.elim (fun e => hne sib (.inr rfl) e) hsib) hs0 (hgrow _ h.root).1 (by rw [hroot]; exact hfull)
    (.inl rfl) (by rw [hself]; rfl) (by rw [hself]; exact Nat.zero_lt_succ _) (Nat.zero_le _)
    (by rw [hself]; rfl) (by rw [← hs2]; rfl) fun x hx => ?_
  · rw [hroot] at hsp
    refine ⟨⟨hsp.tree, fun x hx => ?_, hroot ▸ hsp.keep, hsib, ?_, fun x hx hl => ?_, fun x hx hl => ?_, hsp.room⟩,
      hsp.tree, ?_⟩
    · grind [hsp.mem]
    · have hrm := hgrow _ h.root
      grind [hsp.sibling]
    · have hnl := (hsp.mem nr (.inl rfl)).2.1
      rcases hsp.back x hx hl with (rfl | hm) | hm
      · omega
      · exact .inl hm
      · exact .inr hm
    · obtain ⟨p, hp⟩ := hsp.leaf x (hx.imp .inr id) hl
      exact ⟨p, by rw [hp, hsn x hx]⟩
    · have hb2 : Blocks fs' ((F.grow nr s.rootBlk).split s.rootBlk sib ((s.node s.rootBlk).keys 60)) :=
        hb1.taken hn fun x hx => or_left_comm.1 hx
      rw [← hs2]
      exact ⟨allocInv_btreeRoot hb2.alloc nr, hb2.dataPos, hb2.kept⟩
  · split
    · rename_i e
      have hlev : ((s1.withBlock nr fs').node s.rootBlk).level = (s.node s.rootBlk).level := by
        rw [show (s1.withBlock nr fs').node s.rootBlk = s1.node s.rootBlk from
          update_of_ne (hne _ (.inl h.root)) .., hs1n _ (.inl h.root), halfNode, splitNode, if_pos rfl]
        exact (splitKeep_fields _ sib).2.2.2.1
      rw [e, ← hs2, withRoot_node_self, hself, hroot, hlev]
      rfl
    · rename_i e
      have hx := hx.imp (fun hm => hm.resolve_left e) id
      rw [halfNode, hsn x hx, hroot]
      refine Eq.trans ?_ (hs1n x hx)
      rw [← hs2]
      show update (update s1.node nr _) nr _ x = _
      rw [update_of_ne e, update_of_ne e]

/-! ## 7. The leaves from left to right -/

/-- The nodes `d` steps under `b`, from left to right. -/
def row (s : Bt) : Nat → Nat → List Nat
  | 0, b => [b]
  | d + 1, b => (List.range ((s.node b).count + 1)).flatMap fun i => row s d ((s.node b).slots i)

/-- The nodes as many steps under the root as its level says. -/
def Bt.lowest (s : Bt) : List Nat := row s (s.node s.rootBlk).level s.rootBlk

/-- A row of leaves from one bound to another. -/
structure RowIn (F : Frame) (lo hi : Option BtKey) (l : List Nat) : Prop where
  leaf : ∀ c ∈ l, F.mem c ∧ F.lev c = 0
  head : ∃ b ∈ l.head?, F.lo b = lo
  last : ∃ c ∈ l.getLast?, F.hi c = hi
  chain : l.IsChain fun b c => F.hi b = F.lo c ∧ F.lo c ≠ none

theorem RowIn.append {F : Frame} {lo mid hi : Option BtKey} {l l' : List Nat} (h : RowIn F lo mid l)
    (h' : RowIn F mid hi l') (hm : mid ≠ none) : RowIn F lo hi (l ++ l') := by
  obtain ⟨b, hb, hlo⟩ := h.head
  obtain ⟨b', hb', hlo'⟩ := h'.head
  obtain ⟨c, hc, hhi⟩ := h.last
  obtain ⟨c', hc', hhi'⟩ := h'.last
  refine ⟨fun x hx => (List.mem_append.1 hx).elim (h.leaf x) (h'.leaf x), ⟨b, ?_, hlo⟩, ⟨c', ?_, hhi'⟩,
    List.isChain_append.2 ⟨h.chain, h'.chain, fun x hx y hy => ?_⟩⟩
  · rw [List.head?_append, Option.mem_def.1 hb]
    rfl
  · rw [List.getLast?_append, Option.mem_def.1 hc']
    rfl
  · obtain rfl := Option.mem_unique hx hc
    obtain rfl := Option.mem_unique hy hb'
    exact ⟨hhi.trans hlo'.symm, hlo' ▸ hm⟩

section Row

variable {s : Bt} {F : Frame} (h : TreeIn s F)
include h

theorem TreeIn.row (d : Nat) : ∀ b, F.mem b → F.lev b = d → RowIn F (F.lo b) (F.hi b) (row s d b) := by
  induction d with
  | zero => exact fun b hb hd => ⟨fun c hc => by grind [Flatfs.row], ⟨b, rfl, rfl⟩, ⟨b, rfl, rfl⟩, .singleton b⟩
  | succ d ih =>
    intro b hb hd
    have hin := (h.node b hb).inner (h.inner_of_lev hb (by omega))
    have hchild := fun i hi => ih _ (hin.mem i hi) (by have := hin.lev i hi; omega)
    have hgen : ∀ i ≤ (s.node b).count, RowIn F (F.lo b) (F.hi ((s.node b).slots i))
        ((List.range (i + 1)).flatMap fun i => Flatfs.row s d ((s.node b).slots i)) := by
      intro i
      induction i with
      | zero =>
        intro hi
        have hc := hchild 0 hi
        rw [hin.lo 0 hi, if_pos rfl] at hc
        simpa using hc
      | succ i ihi =>
        intro hi
        have hc := hchild (i + 1) hi
        have hhi := hin.hi i (by omega)
        rw [hin.lo (i + 1) hi, if_neg (by omega)] at hc
        rw [if_neg (by omega)] at hhi
        rw [List.range_succ, List.flatMap_append, List.flatMap_singleton]
        exact (hhi ▸ ihi (by omega)).append hc (by simp)
    have hall := hgen _ (Nat.le_refl _)
    rwa [hin.hi _ (Nat.le_refl _), if_pos rfl] at hall

theorem TreeIn.down_mem_row (k : BtKey) (d : Nat) : ∀ b, F.mem b → F.lev b = d → down s k d b ∈ Flatfs.row s d b := by
  induction d with
  | zero => exact fun b _ _ => List.mem_singleton.2 rfl
  | succ d ih =>
    intro b hb hd
    obtain ⟨h1, h2⟩ := h.child hb (h.inner_of_lev hb (by omega)) k
    exact List.mem_flatMap.2 ⟨_, List.mem_range.2 (Nat.lt_succ_of_le ((h.node b hb).cut k).le), ih _ h1 (by omega)⟩

theorem TreeIn.lowest : RowIn F none none s.lowest ∧ ∀ b, F.mem b → F.lev b = 0 → b ∈ s.lowest := by
  rw [Bt.lowest, (h.node _ h.root).level]
  have hrow := h.row _ _ h.root rfl
  rw [h.rootLo, h.rootHi] at hrow
  refine ⟨hrow, fun b hb hb0 => ?_⟩
  obtain ⟨k, hk⟩ := (h.node b hb).exists_spans
  obtain ⟨d, hd, rfl⟩ := (h.down_of_spans (h.reach b hb)).2 hk
  rw [hb0, Nat.add_zero] at hd
  rw [hd]
  exact h.down_mem_row k _ _ h.root rfl

theorem TreeIn.next_eq {c : Nat} (hb : F.mem b) (hb0 : F.lev b = 0) (hc : F.mem c) (hc0 : F.lev c = 0)
    (he : F.hi b = F.lo c) (hne : F.lo c ≠ none) : (s.node b).nextLeaf ≠ 0 ∧ (s.node b).nextLeaf = c := by
  obtain ⟨k, hk⟩ := Option.ne_none_iff_exists'.1 hne
  rcases ((h.node b hb).leaf ((h.node b hb).kind.2 hb0)).next with ⟨-, hno⟩ | ⟨h0, h1, h2, -, h4⟩
  · rw [hno] at he
    exact absurd he.symm hne
  · exact ⟨h0, h.lo_unique h1 (h4.trans (he.trans hk)) hc hk (h2.trans hc0.symm)⟩

theorem TreeIn.next_last (hb : F.mem b) (hb0 : F.lev b = 0) (hhi : F.hi b = none) : (s.node b).nextLeaf = 0 :=
  (((h.node b hb).leaf ((h.node b hb).kind.2 hb0)).next.resolve_right fun e => e.2.2.2.1 hhi).1

end Row

/-! ## 8. The height -/

section Height

variable {s : Bt} {F : Frame}

/-- The leaves under a node are many, for every inner node but the root has 60 children. -/
theorem TreeIn.leaves_card (h : TreeIn s F) (d : Nat) : ∀ b, F.mem b → b ≠ s.rootBlk → F.lev b = d → ∃ S : Finset Nat,
    60 ^ d ≤ S.card ∧ ∀ c ∈ S, F.mem c ∧ ∀ k, Spans F c k → Spans F b k := by
  induction d with
  | zero => exact fun b hb _ _ => ⟨{b}, Nat.le_refl _, fun c hc => by grind⟩
  | succ d ih =>
    intro b hb hbr hd
    have hl := h.inner_of_lev hb (by omega)
    have hin := (h.node b hb).inner hl
    have hw := h.wide b hb hbr hl
    have hsub : ∀ i, ∃ S : Finset Nat, i < 60 → 60 ^ d ≤ S.card ∧ ∀ c ∈ S, F.mem c ∧
        ∀ k, Spans F c k → Spans F ((s.node b).slots i) k := by
      intro i
      by_cases hi : i < 60
      · have hlev := hin.lev i (by omega)
        have htop := h.top b hb
        grind [hin.mem]
      · exact ⟨∅, fun hi' => absurd hi' hi⟩
    choose S hS using hsub
    have hdisj : ((range 60 : Finset Nat) : Set Nat).PairwiseDisjoint S := by
      intro i hi j hj hij
      have hi := mem_range.1 hi
      have hj := mem_range.1 hj
      refine disjoint_left.2 fun c hci hcj => hij ?_
      obtain ⟨hc, hki⟩ := (hS i hi).2 c hci
      obtain ⟨k, hk⟩ := (h.node c hc).exists_spans
      exact (hin.cut_of_spans (h.node b hb).inc (by omega) (hki k hk)).unique
        (hin.cut_of_spans (h.node b hb).inc (by omega) (((hS j hj).2 c hcj).2 k hk))
    refine ⟨(range 60).biUnion S, ?_, fun c hc => ?_⟩
    · rw [card_biUnion hdisj]
      calc 60 ^ (d + 1) = (range 60).card • 60 ^ d := by grind
        _ ≤ ∑ i ∈ range 60, (S i).card :=
            card_nsmul_le_sum _ _ _ fun i hi => (hS i (mem_range.1 hi)).1
    · obtain ⟨i, hi, hci⟩ := mem_biUnion.1 hc
      have hi := mem_range.1 hi
      obtain ⟨hcm, hck⟩ := (hS i hi).2 c hci
      exact ⟨hcm, fun k hk => hin.spans_parent (by omega) (hck k hk)⟩

/-- **The tree is never as high as the path arrays of an insertion**: there are not that many blocks. -/
theorem BtInv.height_lt (h : BtInv s F) : F.lev s.rootBlk < btreeMaxHeight := by
  by_contra hge
  have hge : 16 ≤ F.lev s.rootBlk := not_lt.1 hge
  have hl := h.inner_of_lev h.root (by omega)
  have hin := (h.node _ h.root).inner hl
  have hlev := hin.lev 0 (Nat.zero_le _)
  obtain ⟨S, hS, hmem⟩ := h.leaves_card _ _ (hin.mem 0 (Nat.zero_le _)) (fun e => by rw [e] at hlev; omega) rfl
  have hsub : S ⊆ range s.fs.super.totalBlocks := fun c hc =>
    mem_range.2 (h.kept c (hmem c hc).1).2.1
  have hcard := card_le_card hsub
  rw [card_range] at hcard
  have hpow : 60 ^ 15 ≤ 60 ^ F.lev ((s.node s.rootBlk).slots 0) := Nat.pow_le_pow_right (by decide) (by omega)
  have htop := h.alloc.top
  have hcov := h.alloc.covers
  have hdb : s.fs.dataBlocks = s.fs.super.totalBlocks - s.fs.super.dataStart := rfl
  omega

end Height

end Kobalt.Flatfs

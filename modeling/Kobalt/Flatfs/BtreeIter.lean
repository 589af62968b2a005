/-
  Subject: ITERATION OVER THE B-TREE. `flatfs_btiter_init` goes down to the leaf that spans the
  start key, `flatfs_btiter_next` follows the links from leaf to leaf.

  The iterator sees what is in the leaves, the stray entries too (`Kobalt/Flatfs/BtreeMap.lean`). A leaf
  that is not the leftmost is never empty: its first entry is stray and no deletion finds it. So the
  iterator misses nothing; it shows a key twice when the key was inserted again over its stray entry.
-/
import Kobalt.Flatfs.BtreeMap

namespace Kobalt.Flatfs

open Function Finset Option

variable {x : BtKey} {b c v : Nat}

/-! ## 1. The iterator -/

structure BtIter where
  leafBlk : Nat := 0
  pos : Nat := 0
  currentKey : BtKey := ⟨0, 0⟩
  currentVal : Nat := 0
  done : Bool := false

/-- The loop of `find_leaf`; without a key it cannot pass an inner node. -/
def findLeafLoop (s : Bt) (key : Option BtKey) : Nat → Nat → Option Nat
  | 0, _ => none
  | fuel + 1, blk =>
    let n := s.node blk
    if n.isLeaf then some blk else
    match key with
    | none => none
    | some k =>
      let pos := btnodeLowerBound n k
      if pos > 0 ∧ btkeyCmp (n.keys (pos - 1)) k = 0 then findLeafLoop s key fuel (n.slots pos)
      else findLeafLoop s key fuel (if pos < n.count + 1 then n.slots pos else n.slots n.count)

def findLeaf (s : Bt) (key : Option BtKey) : Option Nat :=
  findLeafLoop s key ((s.node s.fs.super.btreeRootBlk).level + 1) s.fs.super.btreeRootBlk

/-- The iterator on an entry. -/
def BtIter.on (s : Bt) (blk pos : Nat) : BtIter :=
  ⟨blk, pos, (s.node blk).keys pos, (s.node blk).slots pos, false⟩

def flatfsBtiterInit (s : Bt) (key : Option BtKey) : Option (FlatfsErr × BtIter) :=
  match findLeaf s key with
  | none => none
  | some blk =>
    if blk = 0 then some (.notfound, { done := true }) else
    let leaf := s.node blk
    let pos := match key with
      | some k => btnodeLowerBound leaf k
      | none => 0
    if pos ≥ leaf.count then
      if leaf.nextLeaf = 0 then some (.ok, { leafBlk := blk, pos := pos, done := true })
      else some (.ok, .on s leaf.nextLeaf 0)
    else some (.ok, .on s blk pos)

def flatfsBtiterNext (s : Bt) (it : BtIter) : FlatfsErr × BtIter :=
  if it.done then (.notfound, it) else
  let leaf := s.node it.leafBlk
  let pos := it.pos + 1
  if pos ≥ leaf.count then
    if leaf.nextLeaf = 0 then (.notfound, { it with pos := pos, done := true }) else
    if (s.node leaf.nextLeaf).count = 0 then
      (.notfound, { it with leafBlk := leaf.nextLeaf, pos := 0, done := true })
    else (.ok, .on s leaf.nextLeaf 0)
  else (.ok, .on s it.leafBlk pos)

/-- **What repeated calls yield**, until one reports the end. -/
inductive Yields (s : Bt) : BtIter → List (BtKey × Nat) → Prop
  | stop {it : BtIter} : it.done = true → Yields s it []
  | last {it it' : BtIter} : it.done = false → flatfsBtiterNext s it = (.notfound, it') →
      Yields s it [(it.currentKey, it.currentVal)]
  | more {it it' : BtIter} {l : List (BtKey × Nat)} : it.done = false → flatfsBtiterNext s it = (.ok, it') →
      Yields s it' l → Yields s it ((it.currentKey, it.currentVal) :: l)

theorem Yields.unique {s : Bt} {it : BtIter} {l l' : List (BtKey × Nat)} (h : Yields s it l)
    (h' : Yields s it l') : l = l' := by
  induction h generalizing l' with
  | stop hd =>
    cases h' with
    | stop => rfl
    | last hd' => rw [hd] at hd'; cases hd'
    | more hd' => rw [hd] at hd'; cases hd'
  | last hd he =>
    cases h' with
    | stop hd' => rw [hd] at hd'; cases hd'
    | last => rfl
    | more _ he' => rw [he] at he'; cases he'
  | more hd he _ ih =>
    cases h' with
    | stop hd' => rw [hd] at hd'; cases hd'
    | last _ he' => rw [he] at he'; cases he'
    | more _ he' hy' => grind

/-- **The law of an iteration** over a map: the pairs from the start key on, in order, then the end. -/
def IterLaw (s : Bt) (m : BtKey → Option Nat) (k : BtKey) : Prop :=
  ∃ it l, flatfsBtiterInit s (some k) = some (.ok, it) ∧ Yields s it l ∧ l.Pairwise (fun p q => p.1 < q.1) ∧
    ∀ x v, (x, v) ∈ l ↔ k ≤ x ∧ m x = some v

/-! ## 2. The leaves in a row -/

/-- The leaves behind a leaf. -/
inductive After (s : Bt) : Nat → List Nat → Prop
  | last {b : Nat} : (s.node b).nextLeaf = 0 → After s b []
  | next {b : Nat} {cs : List Nat} : (s.node b).nextLeaf ≠ 0 → After s (s.node b).nextLeaf cs →
      After s b ((s.node b).nextLeaf :: cs)

/-- The range of `c` lies before the range of `d`. -/
def Before (F : Frame) (c d : Nat) : Prop := ∃ y ∈ F.hi c, ∃ x ∈ F.lo d, y ≤ x

/-- The entries of a leaf. -/
def entries (n : BtNode) : List (BtKey × Nat) := (List.range n.count).map fun i => (n.keys i, n.slots i)

theorem mem_entries {n : BtNode} {k : BtKey} : (k, v) ∈ entries n ↔ Entry n k v := by
  grind [entries, Entry]

/-- The leaves whose range lies behind the range of `b`. -/
structure Behind (F : Frame) (b : Nat) (cs : List Nat) : Prop where
  mem : ∀ c, c ∈ cs ↔ F.mem c ∧ F.lev c = 0 ∧ Before F b c
  order : cs.Pairwise (Before F)

section Row

variable {s : Bt} {F : Frame} (h : TreeIn s F)
include h

theorem Before.trans {d e : Nat} (hcd : Before F c d) (hd : F.mem d) (hde : Before F d e) : Before F c e := by
  obtain ⟨y, hy, x, hx, hle⟩ := hcd
  obtain ⟨y', hy', x', hx', hle'⟩ := hde
  exact ⟨y, hy, x', hx', le_trans hle (le_trans (le_of_lt ((h.node d hd).order x hx y' hy')) hle')⟩

theorem Before.irrefl (hc : F.mem c) : ¬ Before F c c := by
  intro hcc
  obtain ⟨y, hy, x, hx, hle⟩ := hcc
  exact absurd ((h.node c hc).order x hx y hy) (not_lt.2 hle)

theorem RowIn.ordered {lo hi : Option BtKey} {l : List Nat} (hl : RowIn F lo hi l) : l.Pairwise (Before F) := by
  have : IsTrans Nat fun b c => F.mem b ∧ F.mem c ∧ Before F b c :=
    ⟨fun _ _ _ hbc hcd => ⟨hbc.1, hcd.2.1, hbc.2.2.trans h hbc.2.1 hcd.2.2⟩⟩
  have hchain : l.IsChain fun b c => F.mem b ∧ F.mem c ∧ Before F b c := by
    refine hl.chain.imp_of_mem_imp fun b c hb hc hbc => ?_
    obtain ⟨y, hy⟩ := ne_none_iff_exists'.1 hbc.2
    exact ⟨(hl.leaf b hb).1, (hl.leaf c hc).1, y, hbc.1.trans hy, y, hy, le_refl y⟩
  exact hchain.pairwise.imp fun hbc => hbc.2.2

theorem RowIn.after {lo : Option BtKey} (cs : List Nat) : ∀ {l b}, RowIn F lo none (l ++ b :: cs) → After s b cs := by
  induction cs with
  | nil =>
    intro l b hl
    obtain ⟨hb, hb0⟩ := hl.leaf b (by simp)
    obtain ⟨c, hc, hhi⟩ := hl.last
    obtain rfl : b = c := by simpa using hc
    exact .last (h.next_last hb hb0 hhi)
  | cons c cs ih =>
    intro l b hl
    obtain ⟨hb, hb0⟩ := hl.leaf b (by simp)
    obtain ⟨hc, hc0⟩ := hl.leaf c (by simp)
    have hbc := (List.isChain_append_cons_cons.1 hl.chain).2.1
    obtain ⟨h0, rfl⟩ := h.next_eq hb hb0 hc hc0 hbc.1 hbc.2
    exact .next h0 (ih (l := l ++ [b]) (by simpa using hl))

/-- **The leaves behind a leaf** are those whose range lies behind its own, in order. -/
theorem TreeIn.exists_after (hb : F.mem b) (hb0 : F.lev b = 0) : ∃ cs, After s b cs ∧ Behind F b cs := by
  obtain ⟨hrow, hall⟩ := h.lowest
  obtain ⟨l, cs, he⟩ := List.append_of_mem (hall b hb hb0)
  have hpair := hrow.ordered h
  rw [he, List.pairwise_append, List.pairwise_cons] at hpair
  obtain ⟨-, ⟨hfirst, hpair⟩, hcross⟩ := hpair
  refine ⟨cs, RowIn.after h cs (he ▸ hrow), fun c => ⟨fun hc => ?_, fun hc => ?_⟩, hpair⟩
  · obtain ⟨hcm, hc0⟩ := hrow.leaf c (by simp [he, hc])
    exact ⟨hcm, hc0, hfirst c hc⟩
  · have hmem := hall c hc.1 hc.2.1
    rw [he, List.mem_append, List.mem_cons] at hmem
    rcases hmem with hl | rfl | hcs
    · exact absurd ((hcross c hl b (by simp)).trans h hb hc.2.2) (Before.irrefl h hc.1)
    · exact absurd hc.2.2 (Before.irrefl h hb)
    · exact hcs

end Row

/-! ## 3. What an iteration yields -/

theorem drop_entries {n : BtNode} {pos : Nat} (hpos : pos < n.count) :
    (entries n).drop pos = (n.keys pos, n.slots pos) :: (entries n).drop (pos + 1) := by
  grind [entries, List.drop_eq_getElem_cons]

theorem drop_entries_all {n : BtNode} {pos : Nat} (hpos : n.count ≤ pos) : (entries n).drop pos = [] :=
  List.drop_eq_nil_of_le (by simpa [entries] using hpos)

section Yield

variable {s : Bt} {F : Frame}

theorem yields_leaf {l : List (BtKey × Nat)}
    (hend : Yields s (.on s b ((s.node b).count - 1)) ((entries (s.node b)).drop ((s.node b).count - 1) ++ l))
    (d : Nat) : ∀ pos, pos + d + 1 = (s.node b).count →
    Yields s (.on s b pos) ((entries (s.node b)).drop pos ++ l) := by
  induction d with
  | zero => grind
  | succ d ih =>
    intro pos hpos
    rw [drop_entries (by omega), List.cons_append]
    refine .more rfl ?_ (ih (pos + 1) (by omega))
    unfold flatfsBtiterNext
    rw [if_neg (by simp [BtIter.on])]
    dsimp only [BtIter.on]
    rw [if_neg (by omega)]

theorem BtInv.yields (h : BtInv s F) {cs : List Nat} (ha : After s b cs) : F.mem b → F.lev b = 0 →
    ∀ pos < (s.node b).count,
    Yields s (.on s b pos) ((entries (s.node b)).drop pos ++ cs.flatMap fun c => entries (s.node c)) := by
  induction ha with
  | @last b hn =>
    intro hb hb0 pos hpos
    refine yields_leaf ?_ ((s.node b).count - 1 - pos) pos (by omega)
    rw [drop_entries (by omega), drop_entries_all (by omega)]
    have hnext : flatfsBtiterNext s (.on s b ((s.node b).count - 1)) =
        (.notfound, { BtIter.on s b ((s.node b).count - 1) with pos := (s.node b).count - 1 + 1, done := true }) := by
      unfold flatfsBtiterNext
      rw [if_neg (by simp [BtIter.on])]
      dsimp only [BtIter.on]
      rw [if_pos (by omega), if_pos hn]
    exact .last rfl hnext
  | @next b cs hn _ ih =>
    intro hb hb0 pos hpos
    obtain ⟨hm, hl, y, -, hlo⟩ := h.next_leaf hb hb0 hn
    have hnode := h.node _ hm
    obtain ⟨hcount, -⟩ := (hnode.leaf (hnode.kind.2 hl)).first y hlo
    refine yields_leaf ?_ ((s.node b).count - 1 - pos) pos (by omega)
    rw [drop_entries (by omega), drop_entries_all (by omega), List.flatMap_cons]
    refine .more rfl ?_ (ih hm hl 0 hcount)
    unfold flatfsBtiterNext
    rw [if_neg (by simp [BtIter.on])]
    dsimp only [BtIter.on]
    grind

theorem BtInv.findLeafLoop (h : BtInv s F) (k : BtKey) (d : Nat) : ∀ b, F.mem b → F.lev b = d → Spans F b k →
    ∃ c, findLeafLoop s (some k) (d + 1) b = some c ∧ F.mem c ∧ F.lev c = 0 ∧ Spans F c k := by
  induction d with
  | zero =>
    intro b hb hd hs
    refine ⟨b, ?_, hb, hd, hs⟩
    rw [Flatfs.findLeafLoop]
    dsimp only
    rw [if_pos ((h.node b hb).kind.2 hd)]
  | succ d ih =>
    intro b hb hd hs
    have hn := h.node b hb
    have hl := h.inner_of_lev hb (by omega)
    obtain ⟨h1, h2⟩ := h.child hb hl k
    obtain ⟨c, hc, hcs⟩ := ih _ h1 (by omega) ((hn.inner hl).spans_child (hn.cut k) hs)
    refine ⟨c, ?_, hcs⟩
    have hcut := hn.cut k
    rw [Flatfs.findLeafLoop]
    dsimp only
    rw [if_neg (by simp [hl]), if_pos (Nat.lt_succ_of_le hcut.le)]
    split <;> exact hc

/-- **An iteration** yields what is left of the leaf that spans the start key, and the leaves behind. -/
theorem BtInv.iterate (h : BtInv s F) (hsup : s.fs.super.btreeRootBlk = s.rootBlk) (k : BtKey) :
    ∃ b cs it, F.mem b ∧ F.lev b = 0 ∧ Spans F b k ∧ Behind F b cs ∧
      flatfsBtiterInit s (some k) = some (.ok, it) ∧ Yields s it
        ((entries (s.node b)).drop (btnodeLowerBound (s.node b) k) ++ cs.flatMap fun c => entries (s.node c)) := by
  obtain ⟨b, hfind, hb, hb0, hs⟩ := h.findLeafLoop k _ _ h.root rfl (h.spans_root k)
  obtain ⟨cs, ha, hbeh⟩ := h.exists_after hb hb0
  have hleaf : findLeaf s (some k) = some b := by
    unfold findLeaf
    rw [hsup, (h.node _ h.root).level]
    exact hfind
  have hinit : flatfsBtiterInit s (some k) =
      if btnodeLowerBound (s.node b) k ≥ (s.node b).count then
        if (s.node b).nextLeaf = 0 then
          some (.ok, { leafBlk := b, pos := btnodeLowerBound (s.node b) k, done := true })
        else some (.ok, .on s (s.node b).nextLeaf 0)
      else some (.ok, .on s b (btnodeLowerBound (s.node b) k)) := by
    unfold flatfsBtiterInit
    rw [hleaf]
    dsimp only
    rw [if_neg (h.kept b hb).1]
  by_cases hpos : btnodeLowerBound (s.node b) k ≥ (s.node b).count
  · rw [if_pos hpos] at hinit
    cases ha with
    | last hn =>
      rw [if_pos hn] at hinit
      exact ⟨b, [], _, hb, hb0, hs, hbeh, hinit, by rw [drop_entries_all hpos]; exact .stop rfl⟩
    | next hn ha' =>
      obtain ⟨hm, hl, y, -, hlo⟩ := h.next_leaf hb hb0 hn
      have hnode := h.node _ hm
      obtain ⟨hcount, -⟩ := (hnode.leaf (hnode.kind.2 hl)).first y hlo
      rw [if_neg hn] at hinit
      refine ⟨b, _, _, hb, hb0, hs, hbeh, hinit, ?_⟩
      rw [drop_entries_all hpos, List.flatMap_cons]
      exact h.yields ha' hm hl 0 hcount
  · rw [if_neg hpos] at hinit
    grind [h.yields]

end Yield

/-! ## 4. The yield and the view -/

theorem or_of_pairwise {α : Type*} {R : α → α → Prop} {l : List α} (h : l.Pairwise R) {a b : α} (ha : a ∈ l)
    (hb : b ∈ l) (hne : a ≠ b) : R a b ∨ R b a := by
  have : Std.Symm fun a b => R a b ∨ R b a := ⟨fun _ _ => Or.symm⟩
  have hor : l.Pairwise fun a b => R a b ∨ R b a := h.imp .inl
  exact hor.forall ha hb hne

section Yielded

variable {s : Bt} {F : Frame} {f g : BtKey → Option Nat} (h : View s F f g)
include h

/-- An entry of a leaf is stray at its lower bound, and found above it. -/
theorem View.entry (hc : F.mem c) (hc0 : F.lev c = 0)
    (he : Entry (s.node c) x v) : (F.lo c = some x ∧ g x = some v) ∨ (Spans F c x ∧ f x = some v) := by
  have hn := h.inv.node c hc
  have hleaf := hn.leaf (hn.kind.2 hc0)
  have hin : (∀ z ∈ F.lo c, z ≤ x) ∧ ∀ y ∈ F.hi c, x ≤ y := by
    obtain ⟨i, hi, hk, -⟩ := he
    rw [← hk]
    exact ⟨hleaf.lower i hi, hleaf.upper i hi⟩
  by_cases hlo : F.lo c = some x
  · obtain ⟨h0, h1⟩ := hleaf.first x hlo
    have hv : (s.node c).slots 0 = v := hn.entry_unique ⟨0, h0, h1, rfl⟩ he
    grind [h.stray]
  · have hs : Spans F c x := ⟨fun z hz => lt_of_le_of_ne (hin.1 z hz) fun e => hlo (e ▸ hz), hin.2⟩
    grind [h.found]

/-- The keys of a leaf are below those of a leaf behind it, unless one is both found and stray. -/
theorem View.before_lt {d : Nat} (hc : F.mem c) (hc0 : F.lev c = 0) (hd : F.mem d) (hd0 : F.lev d = 0)
    (hcd : Before F c d) {p q : BtKey × Nat} (hp : p ∈ entries (s.node c)) (hq : q ∈ entries (s.node d))
    (hone : f p.1 = none ∨ g p.1 = none) : p.1 < q.1 := by
  obtain ⟨y, hy, z, hz, hyz⟩ := hcd
  have hep : Entry (s.node c) p.1 p.2 := mem_entries.1 hp
  have heq : Entry (s.node d) q.1 q.2 := mem_entries.1 hq
  have hord := (h.inv.node c hc).order
  have hpy : p.1 ≤ y := by
    rcases h.entry hc hc0 hep with ⟨hlo, -⟩ | ⟨hs, -⟩
    · exact le_of_lt (hord _ hlo y hy)
    · exact hs.upper y hy
  have hzq : z ≤ q.1 := by
    rcases h.entry hd hd0 heq with ⟨hlo, -⟩ | ⟨hs, -⟩
    · grind
    · exact le_of_lt (hs.lower z hz)
  refine lt_of_le_of_ne (le_trans hpy (le_trans hyz hzq)) fun he => ?_
  have hpe : p.1 = y := le_antisymm hpy (he ▸ le_trans hyz hzq)
  have hqe : z = q.1 := le_antisymm hzq (he ▸ le_trans hpy hyz)
  have hf : f p.1 ≠ none := by
    rcases h.entry hc hc0 hep with ⟨hlo, -⟩ | ⟨-, hf⟩
    · exact absurd (hord _ hlo y hy) (by rw [hpe]; exact lt_irrefl _)
    · rw [hf]
      simp
  have hg : g p.1 ≠ none := by
    rcases h.entry hd hd0 heq with ⟨-, hg⟩ | ⟨hs, -⟩
    · rw [he, hg]
      simp
    · exact absurd (hs.lower z hz) (by rw [hqe]; exact lt_irrefl _)
  exact hone.elim hf hg

variable {b : Nat} {cs : List Nat} {k : BtKey} (hb : F.mem b) (hb0 : F.lev b = 0) (hs : Spans F b k)
  (ha : Behind F b cs)
include hb hb0 hs ha

/-- The leaf a search finds a key in is not before the leaf of a smaller one. -/
theorem View.mem_of_spans (hc : F.mem c) (hc0 : F.lev c = 0) (hkx : k ≤ x)
    (hcx : Spans F c x) : c = b ∨ c ∈ cs := by
  have hlow : ∀ z ∈ F.lo b, z < x := fun z hz => lt_of_lt_of_le (hs.lower z hz) hkx
  by_cases hx : ∀ y ∈ F.hi b, x ≤ y
  · exact .inl (h.inv.unique hc hcx hb ⟨hlow, hx⟩ (hc0.trans hb0.symm))
  simp only [not_forall] at hx
  obtain ⟨y, hy, hyx⟩ := hx
  have hyx : y < x := not_le.1 hyx
  by_cases hz : ∀ z ∈ F.lo c, z < y
  · have hcy : Spans F c y := ⟨hz, fun u hu => le_trans (le_of_lt hyx) (hcx.upper u hu)⟩
    have hby : Spans F b y := ⟨fun z hz => (h.inv.node b hb).order z hz y hy, fun u hu => by
      rw [hy] at hu
      exact le_of_eq (Option.some.inj hu)⟩
    have hcb := h.inv.unique hc hcy hb hby (hc0.trans hb0.symm)
    omega
  · simp only [not_forall] at hz
    obtain ⟨z, hz, hzy⟩ := hz
    exact .inr ((ha.mem c).2 ⟨hc, hc0, y, hy, z, hz, not_lt.1 hzy⟩)

theorem View.mem_of_lo (hc : F.mem c) (hc0 : F.lev c = 0) (hkx : k ≤ x) (hlo : F.lo c = some x) : c ∈ cs := by
  by_cases hx : ∀ y ∈ F.hi b, x < y
  · have hbx : Spans F b x.succ := ⟨fun z hz => lt_trans (lt_of_lt_of_le (hs.lower z hz) hkx) x.lt_succ,
      fun y hy => BtKey.succ_le (hx y hy)⟩
    have hcb := h.inv.unique hc ((h.inv.node c hc).spans_succ hlo) hb hbx (hc0.trans hb0.symm)
    rw [hcb] at hlo
    exact absurd (lt_of_lt_of_le (hs.lower x hlo) hkx) (lt_irrefl _)
  · simp only [not_forall] at hx
    obtain ⟨y, hy, hyx⟩ := hx
    exact (ha.mem c).2 ⟨hc, hc0, y, hy, x, hlo, not_lt.1 hyx⟩

omit hb hb0 in
theorem View.le_of_mem (hc : c ∈ cs) (he : Entry (s.node c) x v) : k ≤ x := by
  obtain ⟨hcm, hc0, y, hy, z, hz, hyz⟩ := (ha.mem c).1 hc
  have hn := h.inv.node c hcm
  obtain ⟨i, hi, hk, -⟩ := he
  rw [← hk]
  exact le_trans (hs.upper y hy) (le_trans hyz ((hn.leaf (hn.kind.2 hc0)).lower i hi z hz))

omit hb0 hs ha in
theorem View.mem_drop : (x, v) ∈ (entries (s.node b)).drop (btnodeLowerBound (s.node b) k) ↔
    Entry (s.node b) x v ∧ k ≤ x := by
  have hcut := (h.inv.node b hb).cut k
  have hlen : (entries (s.node b)).length = (s.node b).count := by simp [entries]
  rw [List.mem_drop_iff_getElem]
  constructor
  · intro he
    obtain ⟨i, hi, he⟩ := he
    rw [hlen] at hi
    simp only [entries, List.getElem_map, List.getElem_range, Prod.mk.injEq] at he
    exact ⟨⟨_, by omega, he⟩, he.1 ▸ hcut.above _ (by omega) (by omega)⟩
  · intro he
    obtain ⟨⟨i, hi, hk, hv⟩, hle⟩ := he
    have hpos : btnodeLowerBound (s.node b) k ≤ i := by
      by_contra hlt
      exact absurd (hcut.below i (by omega)) (by rw [hk]; exact not_lt.2 hle)
    refine ⟨i - btnodeLowerBound (s.node b) k, by omega, ?_⟩
    grind [entries]

theorem View.mem_yield : (x, v) ∈ (entries (s.node b)).drop (btnodeLowerBound (s.node b) k) ++
      cs.flatMap (fun c => entries (s.node c)) ↔ k ≤ x ∧ (f x = some v ∨ g x = some v) := by
  rw [List.mem_append, h.mem_drop hb, List.mem_flatMap]
  constructor
  · intro he
    rcases he with ⟨he, hle⟩ | ⟨c, hc, he⟩
    · exact ⟨hle, (h.entry hb hb0 he).symm.imp And.right And.right⟩
    · obtain ⟨hcm, hc0, -⟩ := (ha.mem c).1 hc
      have he := mem_entries.1 he
      exact ⟨h.le_of_mem hs ha hc he, (h.entry hcm hc0 he).symm.imp And.right And.right⟩
  · intro he
    obtain ⟨hle, hf | hg⟩ := he
    · obtain ⟨c, hc, hl, hcx⟩ := h.inv.exists_leaf x
      have hc0 := (h.inv.node c hc).kind.1 hl
      have hent := (h.found c x v hc hc0 hcx).1 hf
      rcases h.mem_of_spans hb hb0 hs ha hc hc0 hle hcx with rfl | hcs
      · exact .inl ⟨hent, hle⟩
      · exact .inr ⟨c, hcs, mem_entries.2 hent⟩
    · obtain ⟨c, hc, hc0, hlo, hv⟩ := (h.stray x v).1 hg
      have hn := h.inv.node c hc
      obtain ⟨h0, h1⟩ := (hn.leaf (hn.kind.2 hc0)).first x hlo
      exact .inr ⟨c, h.mem_of_lo hb hb0 hs ha hc hc0 hle hlo, mem_entries.2 ⟨0, h0, h1, hv⟩⟩

omit hb0 hs ha in
theorem View.entries_sorted : (entries (s.node b)).Pairwise fun p q => p.1 < q.1 := by
  unfold entries
  rw [List.pairwise_map]
  exact List.pairwise_lt_range.imp_of_mem fun _ hj hij =>
    (h.inv.node b hb).inc _ _ hij (List.mem_range.1 hj)

/-- **It is yielded in increasing order** exactly if no key from the start key on is found and stray. -/
theorem View.yield_sorted_iff : ((entries (s.node b)).drop (btnodeLowerBound (s.node b) k) ++
      cs.flatMap (fun c => entries (s.node c))).Pairwise (fun p q => p.1 < q.1) ↔
    ∀ x, k ≤ x → f x = none ∨ g x = none := by
  have hmem := ha.mem
  rw [List.pairwise_append, List.pairwise_flatMap]
  constructor
  · intro hsort x hle
    obtain ⟨-, ⟨-, hcross⟩, hfirst⟩ := hsort
    by_contra hboth
    rw [not_or] at hboth
    obtain ⟨v, hf⟩ := ne_none_iff_exists'.1 hboth.1
    obtain ⟨w, hg⟩ := ne_none_iff_exists'.1 hboth.2
    obtain ⟨c, hc, hl, hcx⟩ := h.inv.exists_leaf x
    have hc0 := (h.inv.node c hc).kind.1 hl
    have hent := (h.found c x v hc hc0 hcx).1 hf
    obtain ⟨d, hd, hd0, hlo, hw⟩ := (h.stray x w).1 hg
    have hn := h.inv.node d hd
    obtain ⟨h0, h1⟩ := (hn.leaf (hn.kind.2 hd0)).first x hlo
    have hdent : (x, w) ∈ entries (s.node d) := mem_entries.2 ⟨0, h0, h1, hw⟩
    have hdcs := h.mem_of_lo hb hb0 hs ha hd hd0 hle hlo
    rcases h.mem_of_spans hb hb0 hs ha hc hc0 hle hcx with rfl | hccs
    · exact lt_irrefl x (hfirst (x, v) ((h.mem_drop hb).2 ⟨hent, hle⟩) (x, w) (List.mem_flatMap.2 ⟨d, hdcs, hdent⟩))
    · have hcd : c ≠ d := fun e => lt_irrefl x (hcx.lower x (e ▸ hlo))
      rcases or_of_pairwise hcross hccs hdcs hcd with hr | hr
      · exact lt_irrefl x (hr (x, v) (mem_entries.2 hent) (x, w) hdent)
      · exact lt_irrefl x (hr (x, w) hdent (x, v) (mem_entries.2 hent))
  · intro hone
    refine ⟨(h.entries_sorted hb).sublist (List.drop_sublist _ _), ⟨fun c hc => h.entries_sorted ((hmem c).1 hc).1, ?_⟩,
      fun p hp q hq => ?_⟩
    · refine ha.order.imp_of_mem fun {c d} hc hd hcd p hp q hq => ?_
      obtain ⟨hcm, hc0, -⟩ := (hmem c).1 hc
      obtain ⟨hdm, hd0, -⟩ := (hmem d).1 hd
      exact h.before_lt hcm hc0 hdm hd0 hcd hp hq (hone _ (h.le_of_mem hs ha hc (mem_entries.1 hp)))
    grind [h.mem_drop, h.before_lt]

end Yielded

/-- **The law, by the view**: no key found and stray, and the map is what is found or stray. -/
theorem View.iterLaw_iff {s : Bt} {F : Frame} {f g : BtKey → Option Nat} (h : View s F f g)
    (hsup : s.fs.super.btreeRootBlk = s.rootBlk) (m : BtKey → Option Nat) (k : BtKey) :
    IterLaw s m k ↔ ∀ x, k ≤ x → (f x = none ∨ g x = none) ∧ m x = (f x).or (g x) := by
  obtain ⟨b, cs, it, hb, hb0, hs, ha, hinit, hy⟩ := h.inv.iterate hsup k
  have hmem := fun x v => h.mem_yield hb hb0 hs ha (x := x) (v := v)
  have hsort := h.yield_sorted_iff hb hb0 hs ha
  generalize (entries (s.node b)).drop (btnodeLowerBound (s.node b) k) ++
    cs.flatMap (fun c => entries (s.node c)) = l at *
  have hor : ∀ x v, (f x = none ∨ g x = none) → ((f x).or (g x) = some v ↔ f x = some v ∨ g x = some v) := by
    intro x v hone
    rcases hone with he | he
    · rw [he, none_or]
      simp
    · rw [he, or_none]
      simp
  constructor
  · intro hlaw
    obtain ⟨it', l', hinit', hy', hs', hm'⟩ := hlaw
    rw [hinit] at hinit'
    obtain rfl := (Prod.mk.inj (Option.some.inj hinit')).2
    obtain rfl := hy.unique hy'
    intro x hle
    have hone := hsort.1 hs' x hle
    refine ⟨hone, Option.ext fun v => ?_⟩
    rw [hor x v hone]
    have h1 := hm' x v
    grind
  · intro hall
    refine ⟨it, l, hinit, hy, hsort.2 fun x hle => (hall x hle).1, fun x v => ?_⟩
    grind

/-! ## 5. Runs -/

/-- The key was inserted, with success, while it was stored. -/
def Again : BtLog → BtKey → Prop
  | [], _ => False
  | (.insert k _, some (.ok, _)) :: h, x => (x = k ∧ stored h x ≠ none) ∨ Again h x
  | _ :: h, x => Again h x

/-- What the tree shows of a log: a key inserted again has a stray entry, and the map says what is found. -/
structure Tracks (f g : BtKey → Option Nat) (h : BtLog) : Prop where
  once : ∀ x, ¬ Again h x → (f x = none ∨ g x = none) ∧ stored h x = (f x).or (g x)
  again : ∀ x, Again h x → g x ≠ none ∧ stored h x = f x

section Track

variable {f g f' g' : BtKey → Option Nat} {h : BtLog}

theorem Tracks.moves (ht : Tracks f g h) (hm : Moves f g f' g') : Tracks f' g' h := by
  refine ⟨fun x hx => ?_, fun x hx => ?_⟩
  · obtain ⟨hone, he⟩ := ht.once x hx
    rcases hm x with ⟨h1, h2⟩ | ⟨h1, h2, -, h4⟩
    · rw [h1, h2]
      exact ⟨hone, he⟩
    grind
  · obtain ⟨hg, he⟩ := ht.again x hx
    rcases hm x with ⟨h1, h2⟩ | ⟨h1, -⟩
    · rw [h1, h2]
      exact ⟨hg, he⟩
    · exact absurd h1 hg

theorem Tracks.skip (ht : Tracks f g h) {op : BtOp} {a : Option (FlatfsErr × Option Nat)}
    (hst : stored ((op, a) :: h) = stored h) (hag : Again ((op, a) :: h) = Again h) :
    Tracks f g ((op, a) :: h) := by
  refine ⟨?_, ?_⟩
  · rw [hst, hag]
    exact ht.once
  · rw [hst, hag]
    exact ht.again

theorem Tracks.insert (ht : Tracks f g h) {k : BtKey} (hk : f k = none) (v : Nat) :
    Tracks (update f k (some v)) g ((.insert k v, some (.ok, none)) :: h) := by
  have hst : stored ((.insert k v, some (.ok, none)) :: h) = update (stored h) k (some v) := rfl
  refine ⟨fun x hx => ?_, fun x hx => ?_⟩
  · rw [Again, not_or] at hx
    rw [hst]
    by_cases hxk : x = k
    · grind [ht.once]
    grind [ht.once]
  · rw [Again] at hx
    rw [hst]
    grind [ht.again, ht.once]

theorem Tracks.delete (ht : Tracks f g h) {k : BtKey} (hk : f k ≠ none) :
    Tracks (update f k none) g ((.delete k, some (.ok, none)) :: h) := by
  have hst : stored ((.delete k, some (.ok, none)) :: h) = update (stored h) k none := rfl
  have hag : ∀ x, Again ((.delete k, some (.ok, none)) :: h) x ↔ Again h x := fun _ => Iff.rfl
  refine ⟨fun x hx => ?_, fun x hx => ?_⟩
  · rw [hag] at hx
    rw [hst]
    by_cases hxk : x = k
    · grind [ht.once]
    grind [ht.once]
  · rw [hag] at hx
    rw [hst]
    by_cases hxk : x = k
    · grind [ht.again]
    grind [ht.again]

theorem btCall_tracks {s : Bt} {F : Frame} (hv : View s F f g) (ht : Tracks f g h) {op : BtOp}
    (hgr : Granted s op) : RootKept s (btCall s op).2 ∧ ∃ F' f' g', View (btCall s op).2 F' f' g' ∧
      Tracks f' g' ((op, (btCall s op).1) :: h) := by
  cases op with
  | lookup k =>
    rw [btCall, hv.lookup k]
    cases f k with
    | none => exact ⟨id, F, f, g, hv, ht.skip rfl rfl⟩
    | some v => exact ⟨id, F, f, g, hv, ht.skip rfl rfl⟩
  | delete k =>
    rcases delete_view hv k with ⟨-, he⟩ | ⟨c, n, hk, he, hv'⟩
    · rw [btCall, he]
      exact ⟨id, F, f, g, hv, ht.skip rfl rfl⟩
    · rw [btCall, he]
      exact ⟨id, F, _, g, hv', ht.delete hk⟩
  | insert k val =>
    obtain ⟨e, s', he, hend⟩ := insert_view hv k val
    have hcall := btCall_insert he
    have hne : e ≠ .nospace := fun e => hgr (by rw [hcall, e])
    rw [hcall]
    cases hend.resolve_left hne with
    | exist hm hr hv' _ => exact ⟨hr, _, _, _, hv', (ht.moves hm).skip rfl rfl⟩
    | ok hm hr hv' hk _ _ => exact ⟨hr, _, _, _, hv', (ht.moves hm).insert hk val⟩

theorem reach_tracks {t s0 s : Bt} (hc : Created t b s0) (hr : Reach Granted btCall s0 h s) :
    (b = t.fs.super.btreeRootBlk → s.fs.super.btreeRootBlk = s.rootBlk) ∧ ∃ F f g, View s F f g ∧ Tracks f g h := by
  refine hr.inv (I := fun h s => (b = t.fs.super.btreeRootBlk → s.fs.super.btreeRootBlk = s.rootBlk) ∧
    ∃ F f g, View s F f g ∧ Tracks f g h) ?_ ?_
  · obtain ⟨⟨F, hv⟩, hroot, hfs⟩ := hc.view
    exact ⟨fun e => by rw [hfs, hroot, e], F, _, _, hv, fun _ _ => ⟨.inl rfl, rfl⟩, fun _ hx => hx.elim⟩
  · intro h s op hI hok
    obtain ⟨hsup, F, f, g, hv, ht⟩ := hI
    obtain ⟨hr, F', f', g', hv', ht'⟩ := btCall_tracks hv ht hok
    exact ⟨fun e => hr (hsup e), F', f', g', hv', ht'⟩

end Track

/-- **Iteration.** Over a tree that any calls have built from an empty one, an iteration from `k` yields the
    stored pairs from `k` on, each once, in increasing order, and then the end, exactly if none of these
    keys was ever inserted while it was stored. -/
theorem btiter_yields_stored_iff (t s0 : Bt) (hc : Created t t.fs.super.btreeRootBlk s0)
    (h : BtLog) (s : Bt) (hr : Reach Granted btCall s0 h s) (k : BtKey) :
    IterLaw s (stored h) k ↔ ∀ x, k ≤ x → ¬ Again h x := by
  obtain ⟨hsup, F, f, g, hv, ht⟩ := reach_tracks hc hr
  have hsup := hsup rfl
  grind [hv.iterLaw_iff, ht.again, ht.once]

theorem not_again_filling (n : Nat) (x : BtKey) : ¬ Again (filling n) x ∧ ∀ i, n ≤ i → stored (filling n) ⟨0, i⟩ = none := by
  induction n with
  | zero => exact ⟨id, fun _ _ => rfl⟩
  | succ n ih =>
    refine ⟨fun hag => ?_, fun i hi => ?_⟩
    · rcases hag with ⟨rfl, hne⟩ | hag
      · exact hne (ih.2 n (Nat.le_refl n))
      · exact ih.1 hag
    · show update (stored (filling n)) ⟨0, n⟩ (some n) ⟨0, i⟩ = none
      grind

theorem btiter_yields_stored_filled : ∃ t s0 s, Created t t.fs.super.btreeRootBlk s0 ∧
    Reach Granted btCall s0 (filling btreeOrder) s ∧ IterLaw s (stored (filling btreeOrder)) ⟨0, 60⟩ := by
  have hr := filled_clear.mono fun _ _ h => h.1
  exact ⟨_, _, _, created_filled, hr, (btiter_yields_stored_iff _ _ created_filled _ _ hr ⟨0, 60⟩).2
    fun x _ => (not_again_filling btreeOrder x).1⟩

/-- **A lookup is sound**, also for a key taken twice. -/
theorem lookup_stored (hc : Created t b s0) (hr : Reach Granted btCall s0 h s)
    (hl : flatfsBtreeLookup s k = some (.ok v)) : stored h k = some v := by
  obtain ⟨-, F, f, g, hv, ht⟩ := reach_tracks hc hr
  rw [hv.lookup] at hl
  cases hf : f k <;> rw [hf] at hl <;> cases hl
  by_cases hx : Again h k
  · rw [(ht.again k hx).2, hf]
  · rw [(ht.once k hx).2, hf, Option.or]

theorem lookup_stored_filled : stored (filling btreeOrder) ⟨0, 60⟩ = some 60 :=
  lookup_stored created_filled (filled_clear.mono fun _ _ h => h.1) filled_again.2

/-- **A key is yielded twice.** `(0, 60)` is inserted a second time and stored with 7; the iteration from
    `(0, 0)` yields it with 7 and with 60. All calls were successful. -/
theorem btiter_yields_key_twice : ∃ t s0 s it l, Created t t.fs.super.btreeRootBlk s0 ∧
    Reach (fun s op => (btCall s op).1 = some (.ok, none)) btCall s0
      ((.insert ⟨0, 60⟩ 7, some (.ok, none)) :: filling btreeOrder) s ∧
    flatfsBtiterInit s (some ⟨0, 0⟩) = some (.ok, it) ∧ Yields s it l ∧ (⟨0, 60⟩, 7) ∈ l ∧ (⟨0, 60⟩, 60) ∈ l ∧
    ¬ IterLaw s (stored ((.insert ⟨0, 60⟩ 7, some (.ok, none)) :: filling btreeOrder)) ⟨0, 0⟩ := by
  have hc := created_filled
  have hr := filled_run (P := fun s op => (btCall s op).1 = some (.ok, none)) (fun k hk => (filled_leaf k hk).2.2)
    btreeOrder (Nat.le_refl _)
  obtain ⟨ha, hlook⟩ := filled_again
  obtain ⟨hsup, F, f, g, hv, ht⟩ := reach_tracks hc (filled_clear.mono fun _ _ h => h.1)
  have hsup := hsup rfl
  generalize filled 0 btreeOrder = s at *
  have hf : f ⟨0, 60⟩ = some 60 := by
    rw [hv.lookup] at hlook
    cases hf : f ⟨0, 60⟩ with
    | none => rw [hf] at hlook; cases hlook
    | some v => rw [hf] at hlook; cases hlook; rfl
  obtain ⟨e, s', he, hend⟩ := insert_view hv ⟨0, 60⟩ 7
  have hcall := btCall_insert he
  rw [hcall] at ha
  cases ha
  have hr' := hr.next (by rw [hcall]) hcall
  cases hend.resolve_left (by decide) with
  | @ok _ F' f' g' hm hroot hv' hk _ _ =>
    have hg : g' ⟨0, 60⟩ = some 60 := by
      rcases hm ⟨0, 60⟩ with ⟨h1, -⟩ | ⟨-, -, -, h4⟩
      · rw [h1, hf] at hk
        cases hk
      · rw [h4, hf]
    obtain ⟨b, cs, it, hb, hb0, hsp, ha, hinit, hy⟩ := hv'.inv.iterate (hroot hsup) ⟨0, 0⟩
    have hle : (⟨0, 0⟩ : BtKey) ≤ ⟨0, 60⟩ := by decide
    refine ⟨_, _, s', it, _, hc, hr', hinit, hy, (hv'.mem_yield hb hb0 hsp ha).2 ⟨hle, .inl (update_self ..)⟩,
      (hv'.mem_yield hb hb0 hsp ha).2 ⟨hle, .inr hg⟩, fun hlaw => ?_⟩
    rcases ((hv'.iterLaw_iff (hroot hsup) _ _).1 hlaw ⟨0, 60⟩ hle).1 with h1 | h1
    · rw [update_self] at h1
      cases h1
    · rw [hg] at h1
      cases h1

/-! ## 6. The shape of the tree -/

/-- The nodes of the subtree of `b`. -/
inductive Bt.Under (s : Bt) (b : Nat) : Nat → Prop
  | self : Under s b b
  | child {c i : Nat} : Under s b c → (s.node c).isLeaf = false → i ≤ (s.node c).count →
      Under s b ((s.node c).slots i)

/-- **The shape of a tree.** -/
structure BtShape (s : Bt) : Prop where
  count : ∀ b, s.Below b → (s.node b).count ≤ btreeOrder
  sorted : ∀ b i j, s.Below b → i ≤ j → j < (s.node b).count → (s.node b).keys i ≤ (s.node b).keys j
  between : ∀ b i c j, s.Below b → (s.node b).isLeaf = false → i ≤ (s.node b).count →
    s.Under ((s.node b).slots i) c → j < (s.node c).count →
    (0 < i → (s.node b).keys (i - 1) ≤ (s.node c).keys j) ∧
      (i < (s.node b).count → (s.node c).keys j ≤ (s.node b).keys i)
  leaf : ∀ b, s.Below b → ((s.node b).isLeaf = true ↔ (s.node b).level = 0)
  level : ∀ b i, s.Below b → (s.node b).isLeaf = false → i ≤ (s.node b).count →
    (s.node ((s.node b).slots i)).level + 1 = (s.node b).level
  leaves : ∀ b, b ∈ s.lowest ↔ s.Below b ∧ (s.node b).isLeaf = true
  linked : s.lowest.IsChain fun b c => b ≠ 0 ∧ c ≠ 0 ∧ (s.node b).nextLeaf = c ∧ (s.node c).prevLeaf = b
  ends : ∃ b ∈ s.lowest.head?, ∃ c ∈ s.lowest.getLast?, (s.node b).prevLeaf = 0 ∧ (s.node c).nextLeaf = 0

section Shape

variable {s : Bt} {F : Frame} (h : TreeIn s F)
include h

theorem TreeIn.under (hb : F.mem b) (hc : s.Under b c) : F.mem c ∧
    (∀ x ∈ F.lo b, ∃ y ∈ F.lo c, x ≤ y) ∧ ∀ y ∈ F.hi b, ∃ x ∈ F.hi c, x ≤ y := by
  induction hc with
  | self => exact ⟨hb, fun x hx => ⟨x, hx, le_refl x⟩, fun y hy => ⟨y, hy, le_refl y⟩⟩
  | @child c i _ hl hi ih =>
    obtain ⟨hc, hlo, hhi⟩ := ih
    have hin := (h.node c hc).inner hl
    refine ⟨hin.mem i hi, fun x hx => ?_, fun y hy => ?_⟩
    · obtain ⟨z, hz, hxz⟩ := hlo x hx
      rw [hin.lo i hi]
      split
      · exact ⟨z, hz, hxz⟩
      · exact ⟨_, rfl, le_trans hxz (le_of_lt (hin.lower _ (by omega) z hz))⟩
    · obtain ⟨z, hz, hzy⟩ := hhi y hy
      rw [hin.hi i hi]
      split
      · exact ⟨z, hz, hzy⟩
      · exact ⟨_, rfl, le_trans (le_of_lt (hin.upper _ (by omega) z hz)) hzy⟩

theorem TreeIn.key_in (hb : F.mem b) {j : Nat} (hj : j < (s.node b).count) :
    (∀ x ∈ F.lo b, x ≤ (s.node b).keys j) ∧ ∀ y ∈ F.hi b, (s.node b).keys j ≤ y := by
  have hn := h.node b hb
  cases hl : (s.node b).isLeaf with
  | true => exact ⟨(hn.leaf hl).lower j hj, (hn.leaf hl).upper j hj⟩
  | false => exact ⟨fun x hx => le_of_lt ((hn.inner hl).lower j hj x hx), fun y hy => le_of_lt ((hn.inner hl).upper j hj y hy)⟩

end Shape

theorem BtInv.shape {s : Bt} {F : Frame} (h : BtInv s F) : BtShape s := by
  have hmem : ∀ b, s.Below b → F.mem b := fun b hb => (h.down_of_spans (k := ⟨0, 0⟩) hb).1
  have hlev := fun b hb => (h.node b (hmem b hb)).level
  obtain ⟨hrow, hall⟩ := h.lowest
  refine ⟨fun b hb => (h.node b (hmem b hb)).le, fun b i j hb hij hj => ?_, fun b i c j hb hl hi hc hj => ?_,
    fun b hb => ?_, fun b i hb hl hi => ?_, fun b => ⟨fun hb => ?_, fun hb => ?_⟩, ?_, ?_⟩
  · rcases Nat.eq_or_lt_of_le hij with rfl | hlt
    · exact le_refl _
    · exact le_of_lt ((h.node b (hmem b hb)).inc i j hlt hj)
  · have hin := (h.node b (hmem b hb)).inner hl
    obtain ⟨hcm, hlo, hhi⟩ := h.under (hin.mem i hi) hc
    obtain ⟨hlow, hupp⟩ := h.key_in hcm hj
    refine ⟨fun h0 => ?_, fun h0 => ?_⟩
    · obtain ⟨y, hy, hle⟩ := hlo _ (by rw [hin.lo i hi, if_neg (by omega)]; rfl)
      exact le_trans hle (hlow y hy)
    · obtain ⟨y, hy, hle⟩ := hhi _ (by rw [hin.hi i hi, if_neg (by omega)]; rfl)
      exact le_trans (hupp y hy) hle
  · rw [hlev b hb]
    exact (h.node b (hmem b hb)).kind
  · have hin := (h.node b (hmem b hb)).inner hl
    rw [hlev b hb, (h.node _ (hin.mem i hi)).level]
    exact hin.lev i hi
  · obtain ⟨hbm, hb0⟩ := hrow.leaf b hb
    exact ⟨h.reach b hbm, (h.node b hbm).kind.2 hb0⟩
  · exact hall b (hmem b hb.1) ((h.node b (hmem b hb.1)).kind.1 hb.2)
  · refine hrow.chain.imp_of_mem_imp fun b c hb hc hbc => ?_
    obtain ⟨hbm, hb0⟩ := hrow.leaf b hb
    obtain ⟨hcm, hc0⟩ := hrow.leaf c hc
    obtain ⟨h0, he⟩ := h.next_eq hbm hb0 hcm hc0 hbc.1 hbc.2
    exact ⟨(h.kept b hbm).1, (h.kept c hcm).1, he, he ▸ (h.links b hbm hb0).back h0⟩
  · obtain ⟨b, hb, hlo⟩ := hrow.head
    obtain ⟨c, hc, hhi⟩ := hrow.last
    refine ⟨b, hb, c, hc, ?_, ?_⟩
    · obtain ⟨hbm, hb0⟩ := hrow.leaf b (List.mem_of_mem_head? hb)
      exact (h.links b hbm hb0).first hlo
    · obtain ⟨hcm, hc0⟩ := hrow.leaf c (List.mem_of_mem_getLast? hc)
      exact h.next_last hcm hc0 hhi

/-- **The shape of the tree.** In every run from an empty tree whose calls find their blocks the nodes are in
    order, the leaves are all on one level, and the links lead from leaf to leaf, both ways. -/
theorem btree_shape (t : Bt) (b : Nat) (s0 : Bt) (hc : Created t b s0)
    (h : BtLog) (s : Bt) (hr : Reach Granted btCall s0 h s) : BtShape s := by
  obtain ⟨-, F, f, g, hv, -⟩ := reach_tracks hc hr
  exact hv.inv.shape

theorem btree_shape_filled : ∃ t b s0 s, Created t b s0 ∧ Reach Granted btCall s0 (filling btreeOrder) s ∧ BtShape s := by
  have hr := filled_clear.mono fun _ _ h => h.1
  exact ⟨_, _, _, _, created_filled, hr, btree_shape _ _ _ created_filled _ _ hr⟩

end Kobalt.Flatfs

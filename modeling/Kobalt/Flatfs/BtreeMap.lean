/-
  Subject: THE B-TREE AS A MAP. What the calls do to the tree, in the terms of two maps: `found`,
  what a lookup answers, and `stray`, what a leaf holds under the lower bound of its range.

  A search for the lower bound of a leaf ends in the leaf before it, so a stray entry is in the tree and
  cannot be looked up. The split of a leaf moves one entry from `found` to `stray` (`Moves`); no call
  takes it back.
-/
import Kobalt.Flatfs.BtreeInv

namespace Kobalt.Flatfs

open Function Nat

variable {s : Bt} {k : BtKey} {f g : BtKey → Option Nat} {F : Frame} {b : Nat}

/-! ## 1. What a tree shows -/

/-- The node holds the value under the key. -/
def Entry (n : BtNode) (k : BtKey) (v : Nat) : Prop := ∃ i < n.count, n.keys i = k ∧ n.slots i = v

/-- **The view of a tree.** -/
structure View (s : Bt) (F : Frame) (found stray : BtKey → Option Nat) : Prop where
  inv : BtInv s F
  found : ∀ b k v, F.mem b → F.lev b = 0 → Spans F b k → (found k = some v ↔ Entry (s.node b) k v)
  stray : ∀ k v, stray k = some v ↔ ∃ b, F.mem b ∧ F.lev b = 0 ∧ F.lo b = some k ∧ (s.node b).slots 0 = v

/-- What a lookup answers. -/
def answer : Option Nat → Result Nat
  | some v => .ok v
  | none => .error .notfound

section Node

variable {F : Frame} {b : Nat} {n : BtNode} {k : BtKey} {v : Nat}

section

variable (h : NodeIn F b n)
include h

theorem NodeIn.entry_iff : Entry n k v ↔ (btnodeLowerBound n k < n.count ∧ n.keys (btnodeLowerBound n k) = k) ∧
      n.slots (btnodeLowerBound n k) = v := by
  constructor
  · intro he
    obtain ⟨i, hi, hk, hv⟩ := he
    have hcut : Cut n.keys n.count k i := by
      refine ⟨le_of_lt hi, fun j hj => hk ▸ h.inc j i hj hi, fun j hj hj' => ?_⟩
      rcases lt_or_eq_of_le hj with hlt | rfl
      · exact le_of_lt (hk ▸ h.inc i j hlt hj')
      · exact le_of_eq hk.symm
    grind [btnodeLowerBound_eq]
  · exact fun he => ⟨_, he.1.1, he.1.2, he.2⟩

theorem NodeIn.leafAnswer_eq {o : Option Nat} (ho : ∀ v, o = some v ↔ Entry n k v) :
    leafAnswer n k = answer o := by
  unfold leafAnswer
  dsimp only
  split
  · rename_i hp
    rw [(ho _).2 (h.entry_iff.2 ⟨hp, rfl⟩)]
    rfl
  · rename_i hp
    cases o with
    | none => rfl
    | some v => exact absurd (h.entry_iff.1 ((ho v).1 rfl)).1 hp

theorem NodeIn.entry_unique {w : Nat} (hv : Entry n k v) (hw : Entry n k w) : v = w :=
  (h.entry_iff.1 hv).2.symm.trans (h.entry_iff.1 hw).2

theorem NodeIn.entry_splitKeep (hfull : n.count = 120) (sib : Nat) (hk : k ≤ n.keys 60) :
    Entry (Flatfs.splitKeep n sib) k v ↔ Entry n k v ∧ k ≠ n.keys 60 := by
  obtain ⟨hkeys, hslots, hcount, -⟩ := splitKeep_fields n sib
  rw [hfull] at hcount
  unfold Entry
  rw [hkeys, hslots, hcount]
  constructor
  · intro he
    obtain ⟨i, hi, hik, hv⟩ := he
    refine ⟨⟨i, by omega, hik, hv⟩, ?_⟩
    rw [← hik]
    exact ne_of_lt (h.inc i 60 (by omega) (by omega))
  · intro he
    obtain ⟨⟨i, hi, hik, hv⟩, hne⟩ := he
    refine ⟨i, ?_, hik, hv⟩
    by_contra h60
    rcases lt_or_eq_of_le (show 60 ≤ i by omega) with hlt | he
    · exact absurd (hik ▸ h.inc 60 i hlt hi) (not_lt.2 hk)
    · exact hne (by rw [he, hik])

theorem NodeIn.entry_splitSib (hfull : n.count = 120) (sib parentBlk : Nat)
    (hl : n.isLeaf = true) (hk : n.keys 60 < k) :
    Entry (Flatfs.splitSib n sib parentBlk) k v ↔ Entry n k v := by
  obtain ⟨hcount, -, hkeys, hslots⟩ := splitSib_leaf sib parentBlk hl hfull
  constructor
  · intro he
    obtain ⟨i, hi, hik, hv⟩ := he
    rw [hkeys i (by omega)] at hik
    rw [hslots i (by omega)] at hv
    exact ⟨60 + i, by omega, hik, hv⟩
  · intro he
    obtain ⟨i, hi, hik, hv⟩ := he
    have h60 : 60 ≤ i := by
      by_contra hlt
      exact lt_asymm (hik ▸ h.inc i 60 (by omega) (by omega)) hk
    refine ⟨i - 60, by omega, ?_, ?_⟩
    · rw [hkeys _ (by omega), show 60 + (i - 60) = i by omega, hik]
    grind

end

end Node

section Views

variable {s : Bt} {F : Frame} {f g : BtKey → Option Nat} (h : View s F f g)
include h

theorem View.lookup (k : BtKey) : flatfsBtreeLookup s k = some (answer (f k)) := by
  obtain ⟨b, hb, hl, hs⟩ := h.inv.exists_leaf k
  have hn := h.inv.node b hb
  rw [h.inv.lookup hb hl hs, hn.leafAnswer_eq fun v => h.found b k v hb (hn.kind.1 hl) hs]

theorem View.setLeaf {m : BtNode} {o : Option Nat} (hb : F.mem b) (hlev : F.lev b = 0)
    (hs : Spans F b k) (hm : NodeIn F b m) (hlinks : m.selfBlk = (s.node b).selfBlk ∧
      m.nextLeaf = (s.node b).nextLeaf ∧ m.prevLeaf = (s.node b).prevLeaf)
    (hslot : ∀ x ∈ F.lo b, m.slots 0 = (s.node b).slots 0) (hother : ∀ k' v, k' ≠ k → (Entry m k' v ↔ Entry (s.node b) k' v))
    (hk : ∀ v, o = some v ↔ Entry m k v) : View (s.setNode b m) F (update f k o) g := by
  have hl := (h.inv.node b hb).kind.2 hlev
  have hself : (s.setNode b m).node b = m := setNode_self hm.magic
  have hrest : ∀ c, c ≠ b → (s.setNode b m).node c = s.node c := fun c hc => setNode_of_ne m hc
  refine ⟨h.inv.setLeaf hl (hm.kind.2 hlev) hm hlinks, fun c k' v hc hcl hcs => ?_, fun k' v => ?_⟩
  · have hfound := h.found c k' v hc hcl hcs
    by_cases hcb : c = b
    · grind
    · have hkk : k' ≠ k := fun e => hcb (h.inv.unique hc (e ▸ hcs) hb hs (hcl.trans hlev.symm))
      rw [hrest c hcb, update_of_ne hkk, hfound]
  · have hsame : ∀ c, F.lo c = some k' → ((s.setNode b m).node c).slots 0 = (s.node c).slots 0 := by
      intro c hc
      by_cases hcb : c = b
      · subst hcb
        rw [hself]
        exact hslot k' hc
      · rw [hrest c hcb]
    grind [h.stray]

end Views

/-! ## 2. What a split does to the view -/

/-- **Entries go astray**: some that were found are stray now. -/
def Moves (f g f' g' : BtKey → Option Nat) : Prop :=
  ∀ k, (f' k = f k ∧ g' k = g k) ∨ (g k = none ∧ f' k = none ∧ f k ≠ none ∧ g' k = f k)

theorem Moves.refl (f g : BtKey → Option Nat) : Moves f g f g := fun _ => .inl ⟨rfl, rfl⟩

theorem Moves.trans {f' g' f'' g'' : BtKey → Option Nat} (h : Moves f g f' g') (h' : Moves f' g' f'' g'') :
    Moves f g f'' g'' := by
  intro k
  rcases h k with ⟨h1, h2⟩ | ⟨h1, h2, h3, h4⟩
  · rw [← h1, ← h2]
    exact h' k
  · rcases h' k with ⟨h5, h6⟩ | ⟨-, -, h5, -⟩
    · exact .inr ⟨h1, h5.trans h2, h3, h6.trans h4⟩
    · exact absurd h2 h5

section Split

variable {s s' : Bt} {F F' : Frame} {blk sib parentBlk : Nat} {f g : BtKey → Option Nat}

theorem SplitTo.view_inner (hs : SplitTo s F blk sib parentBlk s' F') (h : View s F f g)
    (hlev : F.lev blk ≠ 0) : View s' F' f g := by
  have hleaf : ∀ x, F'.mem x → F'.lev x = 0 → F.mem x ∧ x ≠ blk ∧ x ≠ sib := by
    have hsl := hs.sibling.2.1
    grind [hs.back, hs.mem]
  have hnode : ∀ x, F.mem x → x ≠ blk → x ≠ sib → F'.lev x = 0 → ∃ p, s'.node x =
      { s.node x with prevLeaf := p } := by
    intro x hx hxb hxs hx0
    obtain ⟨p, hp⟩ := hs.leaf x (.inl hx) hx0
    rw [splitNode, if_neg hxb, if_neg hxs] at hp
    exact ⟨p, hp⟩
  refine ⟨hs.inv, fun b k v hb hb0 hsp => ?_, fun k v => ?_⟩
  · obtain ⟨hbm, hbb, hbs⟩ := hleaf b hb hb0
    obtain ⟨-, g1, g2, g3⟩ := hs.mem b hbm
    obtain ⟨p, hp⟩ := hnode b hbm hbb hbs hb0
    rw [hp]
    exact h.found b k v hbm (g1 ▸ hb0) ⟨g2 ▸ hsp.lower, g3 hbb ▸ hsp.upper⟩
  · rw [h.stray]
    refine exists_congr fun b => ⟨fun he => ?_, fun he => ?_⟩
    · grind [hs.mem]
    grind [hs.mem]

section Leaf

variable (h : View s F f g) (hblk : F.mem blk) (hlev : F.lev blk = 0) (hfull : (s.node blk).count = 120)
include h hblk hlev hfull

theorem View.found_middle : f ((s.node blk).keys 60) = some ((s.node blk).slots 60) := by
  have hn := h.inv.node blk hblk
  exact (h.found blk _ _ hblk hlev ⟨hn.sep_lower hfull, fun y hy => le_of_lt (hn.sep_upper hfull y hy)⟩).2
    ⟨60, by omega, rfl, rfl⟩

omit hlev in
theorem View.lo_ne_middle (hlev : F.lev blk = 0) (hb : F.mem b) (hb0 : F.lev b = 0) :
    F.lo b ≠ some ((s.node blk).keys 60) := by
  intro he
  have hn := h.inv.node blk hblk
  have hspan : Spans F blk ((s.node blk).keys 60).succ :=
    ⟨fun x hx => lt_trans (hn.sep_lower hfull x hx) (BtKey.lt_succ _),
      fun y hy => BtKey.succ_le (hn.sep_upper hfull y hy)⟩
  have hbb := h.inv.unique hb ((h.inv.node b hb).spans_succ he) hblk hspan (hb0.trans hlev.symm)
  rw [hbb] at he
  exact lt_irrefl _ (hn.sep_lower hfull _ he)

/-- **The split of a leaf** makes its middle entry stray. -/
theorem SplitTo.view_leaf (hs : SplitTo s F blk sib parentBlk s' F') :
    View s' F' (update f ((s.node blk).keys 60) none)
      (update g ((s.node blk).keys 60) (some ((s.node blk).slots 60))) := by
  have hn := h.inv.node blk hblk
  have hl := hn.kind.2 hlev
  have hsb : sib ≠ blk := fun e => hs.fresh (e ▸ hblk)
  obtain ⟨-, hkslots, -⟩ := splitKeep_fields (s.node blk) sib
  obtain ⟨-, -, -, hsslots⟩ := splitSib_leaf sib parentBlk hl hfull
  obtain ⟨hsm, hsl, hslo, hshi⟩ := hs.sibling
  have hspan : Spans F blk ((s.node blk).keys 60) :=
    ⟨hn.sep_lower hfull, fun y hy => le_of_lt (hn.sep_upper hfull y hy)⟩
  refine ⟨hs.inv, fun b k v hb hb0 hsp => ?_, fun k v => ?_⟩
  · have hbm := hs.back b hb hb0
    obtain ⟨p, hp⟩ := hs.leaf b hbm hb0
    rw [hp]
    show _ ↔ Entry (splitNode s blk sib parentBlk b) k v
    unfold splitNode
    by_cases hbb : b = blk
    · rw [if_pos hbb]
      subst hbb
      have hk := hsp.upper _ hs.keep
      have hsp' : Spans F b k := ⟨(hs.mem b hblk).2.2.1 ▸ hsp.lower,
        fun y hy => le_of_lt (lt_of_le_of_lt hk (hn.sep_upper hfull y hy))⟩
      grind [hn.entry_splitKeep, h.found]
    rw [if_neg hbb]
    by_cases hbs : b = sib
    · rw [if_pos hbs]
      subst hbs
      have hk := hsp.lower _ hslo
      rw [update_of_ne (ne_of_gt hk), hn.entry_splitSib hfull b parentBlk hl hk]
      exact h.found blk k v hblk hlev
        ⟨fun x hx => lt_trans (hn.sep_lower hfull x hx) hk, hshi ▸ hsp.upper⟩
    · rw [if_neg hbs]
      have hbF := hbm.resolve_right hbs
      obtain ⟨-, g1, g2, g3⟩ := hs.mem b hbF
      have hb0' : F.lev b = 0 := g1.symm.trans hb0
      have hsp' : Spans F b k := ⟨g2 ▸ hsp.lower, g3 hbb ▸ hsp.upper⟩
      have hkk : k ≠ (s.node blk).keys 60 := fun e =>
        hbb (h.inv.unique hbF (e ▸ hsp') hblk hspan (hb0'.trans hlev.symm))
      grind [h.found]
  · have hslot : ∀ b, F.mem b → F'.lev b = 0 → (s'.node b).slots 0 = (s.node b).slots 0 := by
      intro b hb hb0
      obtain ⟨p, hp⟩ := hs.leaf b (.inl hb) hb0
      rw [hp]
      show (splitNode s blk sib parentBlk b).slots 0 = _
      have hbs : b ≠ sib := fun e => hs.fresh (e ▸ hb)
      grind [splitNode]
    have hsslot : (s'.node sib).slots 0 = (s.node blk).slots 60 := by
      obtain ⟨p, hp⟩ := hs.leaf sib (.inr rfl) (hsl.trans hlev)
      rw [hp, splitNode, if_neg hsb, if_pos rfl]
      exact hsslots 0 (by decide)
    by_cases hkk : k = (s.node blk).keys 60
    · rw [hkk, update_self]
      constructor
      · intro he
        grind
      grind [hs.back, hs.mem, h.lo_ne_middle]
    · rw [update_of_ne hkk, h.stray]
      grind [hs.mem, hs.back]

end Leaf

/-- **A split**: nothing but the middle entry of a leaf goes astray. -/
theorem SplitTo.view (hs : SplitTo s F blk sib parentBlk s' F') (h : View s F f g) (hblk : F.mem blk)
    (hfull : (s.node blk).count = 120) : ∃ f' g', View s' F' f' g' ∧ Moves f g f' g' ∧
      ∀ k, ¬ ((s.node blk).isLeaf = true ∧ (s.node blk).keys 60 = k) → f' k = f k ∧ g' k = g k := by
  by_cases hlev : F.lev blk = 0
  · refine ⟨_, _, hs.view_leaf h hblk hlev hfull, fun k => ?_, fun k hk => ?_⟩
    · by_cases hkk : k = (s.node blk).keys 60
      · have hf := h.found_middle hblk hlev hfull
        refine .inr ?_
        rw [hkk, update_self, update_self, hf]
        refine ⟨?_, rfl, by simp, rfl⟩
        cases hg : g ((s.node blk).keys 60) with
        | none => rfl
        | some v => grind [h.stray, h.lo_ne_middle]
      grind
    · have hkk : k ≠ (s.node blk).keys 60 := fun e => hk ⟨(h.inv.node blk hblk).kind.2 hlev, e.symm⟩
      grind
  · exact ⟨f, g, hs.view_inner h hlev, .refl f g, fun _ _ => ⟨rfl, rfl⟩⟩

end Split

/-! ## 3. A leaf with an entry more, or less -/

section Leaf

variable {n : BtNode} {pos : Nat} {k : BtKey}

theorem entry_leafInsertAt (hpos : pos ≤ n.count) (val : Nat) (k' : BtKey) (v : Nat) :
    Entry (btnodeLeafInsertAt n pos k val) k' v ↔ (k' = k ∧ v = val) ∨ Entry n k' v := by
  have hkeys : ∀ j ≤ n.count, (btnodeLeafInsertAt n pos k val).keys j =
      if j < pos then n.keys j else if j = pos then k else n.keys (j - 1) := fun j hj => update_shiftUp k hj
  have hslots : ∀ j ≤ n.count, (btnodeLeafInsertAt n pos k val).slots j =
      if j < pos then n.slots j else if j = pos then val else n.slots (j - 1) := fun j hj => update_shiftUp val hj
  have hcount : (btnodeLeafInsertAt n pos k val).count = n.count + 1 := rfl
  generalize btnodeLeafInsertAt n pos k val = m at *
  constructor
  · intro he
    grind [Entry]
  · intro he
    rcases he with ⟨rfl, rfl⟩ | ⟨i, hi, hk, hv⟩
    · exact ⟨pos, by grind⟩
    · exact ⟨if i < pos then i else i + 1, by grind⟩

theorem entry_removeAt (hinc : Increasing n.keys n.count) (hpos : pos < n.count) (hk : n.keys pos = k)
    (k' : BtKey) (v : Nat) : Entry (btnodeRemoveAt n pos) k' v ↔ Entry n k' v ∧ k' ≠ k := by
  have hne : ∀ i < n.count, i ≠ pos → n.keys i ≠ k := by
    intro i hi hip
    rw [← hk]
    rcases lt_or_gt_of_ne hip with hlt | hgt
    · exact ne_of_lt (hinc i pos hlt hpos)
    · exact ne_of_gt (hinc pos i hgt hi)
  have hkeys : ∀ j, (btnodeRemoveAt n pos).keys j =
      if pos ≤ j ∧ j < pos + (n.count - 1 - pos) then n.keys (j + 1) else n.keys j := shiftDown_apply _ _ _
  have hslots : ∀ j, (btnodeRemoveAt n pos).slots j =
      if pos ≤ j ∧ j < pos + (n.count - 1 - pos) then n.slots (j + 1) else n.slots j := shiftDown_apply _ _ _
  have hcount : (btnodeRemoveAt n pos).count = n.count - 1 := rfl
  generalize btnodeRemoveAt n pos = m at *
  constructor
  · intro he
    obtain ⟨j, hj, hjk, hv⟩ := he
    exact ⟨⟨if pos ≤ j then j + 1 else j, by grind⟩, by grind⟩
  · intro he
    obtain ⟨⟨i, hi, hik, hv⟩, hkk⟩ := he
    exact ⟨if i < pos then i else i - 1, by grind⟩

/-- A leaf keeps its frame if its keys stay within the range and the first stays the lower bound. -/
theorem NodeIn.of_entries {m : BtNode} (h : NodeIn F b n) (hl : n.isLeaf = true)
    (hmagic : m.magic = n.magic) (hle : m.count ≤ btreeOrder) (hinc : Increasing m.keys m.count)
    (hkind : m.isLeaf = n.isLeaf) (hlevel : m.level = n.level) (hnext : m.nextLeaf = n.nextLeaf)
    (hin : ∀ k v, Entry m k v → Entry n k v ∨ Spans F b k)
    (hfirst : ∀ x ∈ F.lo b, 0 < m.count ∧ m.keys 0 = x) : NodeIn F b m := by
  have hleaf := h.leaf hl
  refine ⟨hmagic.trans h.magic, hle, hinc, hlevel.trans h.level, by rw [hkind]; exact h.kind, h.order,
    fun _ => ⟨fun i hi x hx => ?_, fun i hi y hy => ?_, hfirst, by rw [hnext]; exact hleaf.next⟩,
    fun hf => (by rw [hkind, hl] at hf; cases hf)⟩
  · rcases hin _ _ ⟨i, hi, rfl, rfl⟩ with ⟨j, hj, hjk, -⟩ | hs
    · rw [← hjk]
      exact hleaf.lower j hj x hx
    · exact le_of_lt (hs.lower x hx)
  · rcases hin _ _ ⟨i, hi, rfl, rfl⟩ with ⟨j, hj, hjk, -⟩ | hs
    · rw [← hjk]
      exact hleaf.upper j hj y hy
    · exact hs.upper y hy

end Leaf

section Rewrite

variable {s : Bt} {F : Frame} {f g : BtKey → Option Nat} {b : Nat} {k : BtKey} (h : View s F f g)
  (hb : F.mem b) (hlev : F.lev b = 0) (hs : Spans F b k)
include h hb hlev hs

theorem View.pos_of_lo {x : BtKey} (hx : x ∈ F.lo b) : 0 < btnodeLowerBound (s.node b) k ∧
    (s.node b).keys 0 = x := by
  have hn := h.inv.node b hb
  obtain ⟨h0, h1⟩ := (hn.leaf (hn.kind.2 hlev)).first x hx
  refine ⟨pos_of_ne_zero fun e => ?_, h1⟩
  exact absurd (hs.lower x hx) (not_lt.2 (h1 ▸ (hn.cut k).above 0 (by omega) h0))

theorem View.insertLeaf (hroom : (s.node b).count < 120) (hno : ∀ v, ¬ Entry (s.node b) k v) (val : Nat) :
    View (s.setNode b (btnodeLeafInsertAt (s.node b) (btnodeLowerBound (s.node b) k) k val)) F
      (update f k (some val)) g := by
  have hn := h.inv.node b hb
  have hcut := hn.cut k
  have hentry := entry_leafInsertAt (k := k) hcut.le val
  have hzero : ∀ x ∈ F.lo b, (btnodeLeafInsertAt (s.node b) (btnodeLowerBound (s.node b) k) k val).keys 0 = x ∧
      (btnodeLeafInsertAt (s.node b) (btnodeLowerBound (s.node b) k) k val).slots 0 = (s.node b).slots 0 := by
    intro x hx
    obtain ⟨h0, h1⟩ := h.pos_of_lo hb hlev hs hx
    constructor
    · show update (shiftUp _ _ _) _ _ 0 = x
      rw [update_shiftUp k (zero_le _), if_pos h0, h1]
    · show update (shiftUp _ _ _) _ _ 0 = _
      rw [update_shiftUp val (zero_le _), if_pos h0]
  refine h.setLeaf hb hlev hs (hn.of_entries (hn.kind.2 hlev) rfl hroom ?_ rfl rfl rfl (fun k' v he => ?_)
    fun x hx => ⟨succ_pos _, (hzero x hx).1⟩) ⟨rfl, rfl, rfl⟩ (fun x hx => (hzero x hx).2) (fun k' v hkk => ?_)
    fun v => ?_
  · exact hn.inc.insert hcut fun i hi e => hno _ ⟨i, hi, e, rfl⟩
  · grind
  · grind
  grind

theorem View.removeLeaf (hpos : btnodeLowerBound (s.node b) k < (s.node b).count)
    (hk : (s.node b).keys (btnodeLowerBound (s.node b) k) = k) :
    View (s.setNode b (btnodeRemoveAt (s.node b) (btnodeLowerBound (s.node b) k))) F (update f k none) g := by
  have hn := h.inv.node b hb
  have hentry := entry_removeAt hn.inc hpos hk
  have hzero : ∀ x ∈ F.lo b, 0 < (btnodeRemoveAt (s.node b) (btnodeLowerBound (s.node b) k)).count ∧
      (btnodeRemoveAt (s.node b) (btnodeLowerBound (s.node b) k)).keys 0 = x ∧
      (btnodeRemoveAt (s.node b) (btnodeLowerBound (s.node b) k)).slots 0 = (s.node b).slots 0 := by
    intro x hx
    obtain ⟨h0, h1⟩ := h.pos_of_lo hb hlev hs hx
    refine ⟨show 0 < (s.node b).count - 1 by omega, ?_, ?_⟩
    · show shiftDown _ _ _ 0 = x
      rw [shiftDown_apply, if_neg (by omega), h1]
    · show shiftDown _ _ _ 0 = _
      rw [shiftDown_apply, if_neg (by omega)]
  refine h.setLeaf hb hlev hs (hn.of_entries (hn.kind.2 hlev) rfl (le_trans (sub_le _ _) hn.le)
    (hn.inc.remove _) rfl rfl rfl (fun k' v he => .inl ((hentry k' v).1 he).1)
    fun x hx => ⟨(hzero x hx).1, (hzero x hx).2.1⟩) ⟨rfl, rfl, rfl⟩ (fun x hx => (hzero x hx).2.2) (fun k' v hkk => ?_)
    fun v => ?_
  · grind
  grind

end Rewrite

/-! ## 4. The insertion -/

/-- The path of an insertion: an entry for each level gone down, and room over a full node. -/
structure PathTo (s : Bt) (F : Frame) (path : List (Nat × Nat)) (blk : Nat) : Prop where
  length : path.length + F.lev blk = F.lev s.rootBlk
  parent : (s.node blk).count = 120 → blk ≠ s.rootBlk → ∃ pb pos rest, path = (pb, pos) :: rest ∧ F.mem pb ∧
    (s.node pb).isLeaf = false ∧ (s.node pb).count < 120 ∧ pos ≤ (s.node pb).count ∧ (s.node pb).slots pos = blk

/-- The rounds an insertion still needs. -/
def insertCost (s : Bt) (F : Frame) (blk : Nat) : Nat :=
  2 * F.lev blk + if (s.node blk).count = 120 then (if blk = s.rootBlk then 4 else 2) else 1

/-- The superblock names the root, if it did. -/
def RootKept (s s' : Bt) : Prop := s.fs.super.btreeRootBlk = s.rootBlk → s'.fs.super.btreeRootBlk = s'.rootBlk

/-- The root is a full leaf with the key in the middle. -/
def RootMiddle (s : Bt) (k : BtKey) : Prop :=
  (s.node s.rootBlk).isLeaf = true ∧ (s.node s.rootBlk).count = 120 ∧ (s.node s.rootBlk).keys 60 = k

/-- **How an insertion ends** that finds its blocks, seen from the node it has come to. -/
inductive InsertEnd (k : BtKey) (val : Nat) (s : Bt) (F : Frame) (f g : BtKey → Option Nat) (blk : Nat) :
    FlatfsErr → Bt → Prop
  | exist {s' : Bt} {F' : Frame} {f' g' : BtKey → Option Nat} : Moves f g f' g' → RootKept s s' →
      View s' F' f' g' → f' k ≠ none ∨ g' k ≠ none → InsertEnd k val s F f g blk .exist s'
  | ok {s' : Bt} {F' : Frame} {f' g' : BtKey → Option Nat} : Moves f g f' g' → RootKept s s' →
      View s' F' (update f' k (some val)) g' → f' k = none → (∀ x ∈ F.lo blk, x < k) →
      g' k = g k ∨ (blk = s.rootBlk ∧ RootMiddle s k) → InsertEnd k val s F f g blk .ok s'

section Insert

variable {k : BtKey} {val : Nat} {s : Bt} {F : Frame} {f g : BtKey → Option Nat} {blk : Nat}

theorem View.insert_leaf (h : View s F f g) (hblk : F.mem blk) (hlev : F.lev blk = 0)
    (hroom : (s.node blk).count < 120) (hlow : ∀ x ∈ F.lo blk, x ≤ k) (hupp : ∀ y ∈ F.hi blk, k ≤ y) :
    ∃ e s', (if btnodeLowerBound (s.node blk) k < (s.node blk).count ∧
        btkeyCmp ((s.node blk).keys (btnodeLowerBound (s.node blk) k)) k = 0 then some (FlatfsErr.exist, s)
      else some (.ok, s.setNode blk (btnodeLeafInsertAt (s.node blk) (btnodeLowerBound (s.node blk) k) k val))) =
        some (e, s') ∧ InsertEnd k val s F f g blk e s' := by
  have hn := h.inv.node blk hblk
  simp only [btkeyCmp_zero]
  split
  · rename_i hp
    refine ⟨_, _, rfl, .exist (.refl f g) id h ?_⟩
    have hentry : Entry (s.node blk) k _ := hn.entry_iff.2 ⟨hp, rfl⟩
    by_cases hlo : F.lo blk = some k
    · refine .inr ?_
      rw [(h.stray k _).2 ⟨blk, hblk, hlev, hlo, rfl⟩]
      simp
    · refine .inl ?_
      rw [(h.found blk k _ hblk hlev ⟨fun x hx => ?_, hupp⟩).2 hentry]
      · simp
      · exact lt_of_le_of_ne (hlow x hx) fun e => hlo (e ▸ hx)
  · rename_i hp
    have hno : ∀ v, ¬ Entry (s.node blk) k v := fun v he => hp (hn.entry_iff.1 he).1
    have hstrict : ∀ x ∈ F.lo blk, x < k := by
      intro x hx
      refine lt_of_le_of_ne (hlow x hx) fun e => ?_
      obtain ⟨h0, h1⟩ := (hn.leaf (hn.kind.2 hlev)).first x hx
      exact hno _ ⟨0, h0, h1.trans e, rfl⟩
    have hs : Spans F blk k := ⟨hstrict, hupp⟩
    refine ⟨_, _, rfl, .ok (.refl f g) id (h.insertLeaf hblk hlev hs hroom hno val) ?_ hstrict (.inl rfl)⟩
    cases hf : f k with
    | none => rfl
    | some v => exact absurd ((h.found blk k v hblk hlev hs).1 hf) (hno v)

/-- The loop does its work within `fuel` rounds. -/
def InsertRuns (k : BtKey) (val fuel : Nat) : Prop :=
  ∀ (s : Bt) (F : Frame) (f g : BtKey → Option Nat) (path : List (Nat × Nat)) (blk : Nat), View s F f g →
    F.mem blk → (∀ x ∈ F.lo blk, x ≤ k) → (∀ y ∈ F.hi blk, k ≤ y) → PathTo s F path blk →
    insertCost s F blk ≤ fuel → ∃ e s', insertLoop k val fuel s path blk = some (e, s') ∧
      (e = .nospace ∨ InsertEnd k val s F f g blk e s')

variable {fuel : Nat} {path : List (Nat × Nat)}

theorem InsertRuns.descend (ih : InsertRuns k val fuel) (h : View s F f g) (hblk : F.mem blk)
    (hlow : ∀ x ∈ F.lo blk, x ≤ k) (hupp : ∀ y ∈ F.hi blk, k ≤ y) (hpath : PathTo s F path blk)
    (hroom : (s.node blk).count < 120) (hl : (s.node blk).isLeaf = false) (hfuel : 2 * F.lev blk ≤ fuel) :
    ∃ e s', insertLoop k val fuel s ((blk, btnodeLowerBound (s.node blk) k) :: path)
        ((s.node blk).slots (btnodeLowerBound (s.node blk) k)) = some (e, s') ∧
      (e = .nospace ∨ InsertEnd k val s F f g blk e s') := by
  have hn := h.inv.node blk hblk
  have hin := hn.inner hl
  have hcut := hn.cut k
  generalize hpos : btnodeLowerBound (s.node blk) k = pos
  rw [hpos] at hcut
  have hle := hcut.le
  have hclev := hin.lev pos hle
  have htop := h.inv.top blk hblk
  have hcroot : (s.node blk).slots pos ≠ s.rootBlk := fun e => by rw [e] at hclev; omega
  have hclo : ∀ x ∈ F.lo ((s.node blk).slots pos), x ≤ k := by
    intro x hx
    rw [hin.lo pos hle] at hx
    split at hx
    · exact hlow x hx
    · grind [le_of_lt, hcut.below]
  have hchi : ∀ y ∈ F.hi ((s.node blk).slots pos), k ≤ y := by
    intro y hy
    rw [hin.hi pos hle] at hy
    split at hy
    · exact hupp y hy
    · obtain rfl := Option.some.inj hy
      exact hcut.above _ (le_refl _) (by omega)
  obtain ⟨e, s', he, hend⟩ := ih s F f g ((blk, pos) :: path) _ h (hin.mem pos hle) hclo hchi
    ⟨by grind [hpath.length],
      fun _ _ => ⟨blk, pos, path, rfl, hblk, hl, hroom, hle, rfl⟩⟩ (by
        unfold insertCost
        rw [if_neg hcroot]
        split <;> omega)
  refine ⟨e, s', he, hend.imp id fun hend => ?_⟩
  cases hend with
  | exist hm hr hv hk => exact .exist hm hr hv hk
  | ok hm hr hv hk hlo hg =>
    refine .ok hm hr hv hk (fun x hx => ?_) (.inl (hg.resolve_right fun e => hcroot e.1))
    by_cases h0 : pos = 0
    · exact hlo x (by rw [hin.lo pos hle, if_pos h0]; exact hx)
    · exact lt_trans (hin.lower 0 (by omega) x hx) (hcut.below 0 (by omega))

variable {sib : Nat} {fs : FS} {s1 : Bt}

theorem InsertRuns.grow (ih : InsertRuns k val fuel) (h : View s F f g) (hfull : (s.node s.rootBlk).count = 120)
    (ht : Taken s.fs sib fs) {parentBlk nr : Nat} {fs' : FS}
    (hs1 : s1 = (s.withBlock sib fs).halved s.rootBlk sib parentBlk) (hn : Taken fs nr fs')
    (hfuel : 2 * F.lev s.rootBlk + 3 ≤ fuel) : ∃ e s',
      insertLoop k val fuel ((s1.withBlock nr fs').withRoot nr s.rootBlk sib ((s.node s.rootBlk).keys 60)) [] nr =
        some (e, s') ∧ (e = .nospace ∨ InsertEnd k val s F f g s.rootBlk e s') := by
  have hto := h.inv.grow ht parentBlk hfull hn hs1
  obtain ⟨f2, g2, hv2, hm2, hsame⟩ := hto.view h h.inv.root hfull
  generalize hs2 : (s1.withBlock nr fs').withRoot nr s.rootBlk sib ((s.node s.rootBlk).keys 60) = s2
  rw [hs2] at hv2
  have hroot2 : s2.rootBlk = nr := by rw [← hs2]; rfl
  have hsup2 : s2.fs.super.btreeRootBlk = s2.rootBlk := by rw [← hs2]; rfl
  have hnew : (s2.node nr).isLeaf = false ∧ (s2.node nr).count = 1 ∧ (s2.node nr).slots 0 = s.rootBlk := by
    rw [← hs2, withRoot_node_self]
    exact ⟨rfl, rfl, rfl⟩
  have hr2 := hv2.inv.root
  have hlo2 := hv2.inv.rootLo
  have hhi2 := hv2.inv.rootHi
  rw [hroot2] at hr2 hlo2 hhi2
  have hlev2 := ((hv2.inv.node nr hr2).inner hnew.1).lev 0 (zero_le _)
  rw [hnew.2.2, (hto.mem _ h.inv.root).2.1] at hlev2
  obtain ⟨e, s', he, hend⟩ := ih s2 _ f2 g2 [] nr hv2 hr2 (fun x hx => by rw [hlo2] at hx; cases hx)
    (fun y hy => by rw [hhi2] at hy; cases hy)
    ⟨by rw [hroot2]; exact zero_add _, fun _ hne => absurd hroot2.symm hne⟩ (by
      unfold insertCost
      grind)
  refine ⟨e, s', he, hend.imp id fun hend => ?_⟩
  cases hend with
  | exist hm hr hv hk => exact .exist (hm2.trans hm) (fun _ => hr hsup2) hv hk
  | ok hm hr hv hk hlo hg =>
    refine .ok (hm2.trans hm) (fun _ => hr hsup2) hv hk (fun x hx => by rw [h.inv.rootLo] at hx; cases hx) ?_
    have hg := hg.resolve_right fun hmid => by grind [hmid.2.1]
    by_cases hmid : (s.node s.rootBlk).isLeaf = true ∧ (s.node s.rootBlk).keys 60 = k
    · exact .inr ⟨rfl, hmid.1, hfull, hmid.2⟩
    · exact .inl (hg.trans (hsame k hmid).2)

/-- A full node below the root: the loop goes on with the half the key belongs to. -/
theorem InsertRuns.split (ih : InsertRuns k val fuel) (h : View s F f g) (hblk : F.mem blk)
    (hlow : ∀ x ∈ F.lo blk, x ≤ k) (hupp : ∀ y ∈ F.hi blk, k ≤ y) (hpath : PathTo s F path blk)
    (hfull : (s.node blk).count = 120) (hbr : blk ≠ s.rootBlk) (ht : Taken s.fs sib fs) {parentBlk : Nat}
    (hs1 : s1 = (s.withBlock sib fs).halved blk sib parentBlk) (hfuel : 2 * F.lev blk + 1 ≤ fuel)
    {pb pos : Nat} (hpm : F.mem pb) (hpl : (s.node pb).isLeaf = false) (hproom : (s.node pb).count < 120)
    (hpos : pos ≤ (s.node pb).count) (hslot : (s.node pb).slots pos = blk) : ∃ e s',
      insertLoop k val fuel (s1.setNode pb
          (btnodeInternalInsertAt (s1.node pb) pos ((s.node blk).keys 60) sib)) path
        (if btkeyCmp k ((s.node blk).keys 60) ≥ 0 then sib else blk) = some (e, s') ∧
      (e = .nospace ∨ InsertEnd k val s F f g blk e s') := by
  have hto := h.inv.split ht hblk parentBlk hfull hpm hpl hproom hpos hslot hs1
  obtain ⟨f2, g2, hv2, hm2, hsame⟩ := hto.view h hblk hfull
  generalize hs2 : s1.setNode pb
    (btnodeInternalInsertAt (s1.node pb) pos ((s.node blk).keys 60) sib) = s2
  rw [hs2] at hto hv2
  have hroot2 : s2.rootBlk = s.rootBlk := by
    rw [← hs2, hs1, setNode_rootBlk, halved_rootBlk]
    rfl
  have hsup2 : RootKept s s2 := by
    intro hr
    rw [hroot2, ← hs2, setNode_fs, hs1, halved_fs]
    show fs.super.btreeRootBlk = s.rootBlk
    rw [ht.super]
    exact hr
  have hrlev := (hto.mem _ h.inv.root).2.1
  generalize F.split blk sib ((s.node blk).keys 60) = F2 at *
  have hnext : ∀ x, x = blk ∨ x = sib → F2.lev x = F.lev blk → PathTo s2 F2 path x ∧
      insertCost s2 F2 x ≤ fuel ∧ x ≠ s2.rootBlk := by
    intro x hx hxl
    have hroom := hto.room x hx
    refine ⟨⟨?_, fun hc => absurd hc (Nat.ne_of_lt hroom)⟩, ?_, ?_⟩
    · grind [hpath.length]
    · unfold insertCost
      grind
    · grind [h.inv.ne_taken, h.inv.root]
  by_cases hsep : (s.node blk).keys 60 ≤ k
  · rw [if_pos (btkeyCmp_nonneg.2 hsep)]
    obtain ⟨hsm, hsl, hslo, hshi⟩ := hto.sibling
    obtain ⟨hp2, hc2, hne2⟩ := hnext sib (.inr rfl) hsl
    obtain ⟨e, s', he, hend⟩ := ih s2 F2 f2 g2 path sib hv2 hsm
      (fun x hx => by grind)
      (fun y hy => hupp y (by rw [← hshi]; exact hy)) hp2 hc2
    refine ⟨e, s', he, hend.imp id fun hend => ?_⟩
    cases hend with
    | exist hm hr hv hk => exact .exist (hm2.trans hm) (fun hr0 => hr (hsup2 hr0)) hv hk
    | ok hm hr hv hk hlo hg =>
      -- a key that equals the separator is found in the sibling, so this one is above it
      have hlt := hlo _ hslo
      refine .ok (hm2.trans hm) (fun hr0 => hr (hsup2 hr0)) hv hk
        (fun x hx => lt_trans ((h.inv.node blk hblk).sep_lower hfull x hx) hlt) (.inl ?_)
      grind
  · rw [if_neg fun hc => hsep (btkeyCmp_nonneg.1 hc)]
    obtain ⟨hbm, hbl, hblo, -⟩ := hto.mem blk hblk
    obtain ⟨hp2, hc2, hne2⟩ := hnext blk (.inl rfl) hbl
    obtain ⟨e, s', he, hend⟩ := ih s2 F2 f2 g2 path blk hv2 hbm (by rw [hblo]; exact hlow)
      (fun y hy => by grind [hto.keep]) hp2 hc2
    refine ⟨e, s', he, hend.imp id fun hend => ?_⟩
    cases hend with
    | exist hm hr hv hk => exact .exist (hm2.trans hm) (fun hr0 => hr (hsup2 hr0)) hv hk
    | ok hm hr hv hk hlo hg =>
      refine .ok (hm2.trans hm) (fun hr0 => hr (hsup2 hr0)) hv hk (by rw [← hblo]; exact hlo) (.inl ?_)
      grind

end Insert

theorem insertLoop_view (k : BtKey) (val fuel : Nat) : InsertRuns k val fuel := by
  induction fuel with
  | zero =>
    intro s F f g path blk _ _ _ _ _ hfuel
    grind [insertCost]
  | succ fuel ih =>
    intro s F f g path blk h hblk hlow hupp hpath hfuel
    have hn := h.inv.node blk hblk
    rw [insertLoop, if_neg (not_not.2 hn.magic)]
    unfold insertCost at hfuel
    by_cases hfull : (s.node blk).count = 120
    · rw [if_pos (show (s.node blk).count = btreeOrder from hfull)]
      rw [if_pos hfull] at hfuel
      rcases btreeSplit_eq h.inv.alloc blk ((path.head?.map Prod.fst).getD 0) with ⟨-, he⟩ | ⟨sib, fs, -, ht, he⟩
      · rw [he]
        exact ⟨_, _, rfl, .inl rfl⟩
      have hnode : (s.withBlock sib fs).node blk = s.node blk := update_of_ne (h.inv.ne_taken ht hblk) ..
      rw [he, hnode, hfull, show 120 / 2 = 60 from rfl]
      dsimp only
      obtain ⟨s1, hs1⟩ : ∃ s1, s1 = (s.withBlock sib fs).halved blk sib ((path.head?.map Prod.fst).getD 0) :=
        ⟨_, rfl⟩
      have hroot1 : s1.rootBlk = s.rootBlk := by rw [hs1, halved_rootBlk]; rfl
      have hfs1 : s1.fs = fs := by rw [hs1, halved_fs]; rfl
      rw [← hs1, hroot1]
      by_cases hbr : blk = s.rootBlk
      · rw [if_pos hbr] at hfuel ⊢
        subst hbr
        rcases btnodeAlloc_taken (s := s1) (by rw [hfs1]; exact ht.inv) with ⟨-, he⟩ | ⟨nr, fs', -, he, hn'⟩
        · rw [he]
          exact ⟨_, _, rfl, .inl rfl⟩
        · rw [he]
          exact InsertRuns.grow ih h hfull ht hs1 (hfs1 ▸ hn') (by omega)
      · rw [if_neg hbr] at hfuel ⊢
        obtain ⟨pb, pos, rest, hpe, hpm, hpl, hproom, hpos, hslot⟩ := hpath.parent hfull hbr
        rw [hpe]
        dsimp only
        rw [← hpe]
        exact InsertRuns.split ih h hblk hlow hupp hpath hfull hbr ht hs1 (by omega) hpm hpl hproom hpos hslot
    · rw [if_neg (show (s.node blk).count ≠ btreeOrder from hfull)]
      rw [if_neg hfull] at hfuel
      have hroom : (s.node blk).count < 120 := lt_of_le_of_ne hn.le hfull
      dsimp only
      by_cases hl : (s.node blk).isLeaf = true
      · rw [if_pos hl]
        obtain ⟨e, s', he, hend⟩ := h.insert_leaf (k := k) hblk (hn.kind.1 hl) hroom hlow hupp
        exact ⟨e, s', he, .inr hend⟩
      · have hlt : path.length < btreeMaxHeight := by
          have := h.inv.height_lt
          have := hpath.length
          omega
        rw [if_neg hl, if_neg (not_le.2 hlt)]
        exact InsertRuns.descend ih h hblk hlow hupp hpath hroom (by rw [← Bool.not_eq_true]; exact hl) (by omega)

theorem insert_view (h : View s F f g) (k : BtKey) (val : Nat) :
    ∃ e s', flatfsBtreeInsert s k val = some (e, s') ∧
      (e = .nospace ∨ InsertEnd k val s F f g s.rootBlk e s') := by
  refine insertLoop_view k val _ s F f g [] s.rootBlk h h.inv.root
    (fun x hx => by rw [h.inv.rootLo] at hx; cases hx) (fun y hy => by rw [h.inv.rootHi] at hy; cases hy)
    ⟨zero_add _, fun _ hne => absurd rfl hne⟩ ?_
  unfold insertCost
  rw [(h.inv.node _ h.inv.root).level, if_pos rfl]
  split <;> omega

/-! ## 5. The deletion, and the empty tree -/

section Delete

variable {s : Bt} {F : Frame} {f g : BtKey → Option Nat} (h : View s F f g) (k : BtKey)
include h

theorem deleteLoop_view (d : Nat) : ∀ b, F.mem b → F.lev b = d → Spans F b k →
    (f k = none ∧ deleteLoop s k (d + 1) b = some (.notfound, s)) ∨
      ∃ c m, f k ≠ none ∧ deleteLoop s k (d + 1) b = some (.ok, s.setNode c m) ∧
        View (s.setNode c m) F (update f k none) g := by
  induction d with
  | zero =>
    intro b hb hd hs
    have hn := h.inv.node b hb
    rw [deleteLoop]
    dsimp only
    rw [if_neg (not_not.2 hn.magic), if_pos (hn.kind.2 hd)]
    by_cases hp : btnodeLowerBound (s.node b) k < (s.node b).count ∧
        (s.node b).keys (btnodeLowerBound (s.node b) k) = k
    · refine .inr ⟨b, btnodeRemoveAt (s.node b) (btnodeLowerBound (s.node b) k), ?_, ?_,
        h.removeLeaf hb hd hs hp.1 hp.2⟩
      · rw [(h.found b k _ hb hd hs).2 (hn.entry_iff.2 ⟨hp, rfl⟩)]
        simp
      · rw [if_neg]
        rw [not_or, not_not, btkeyCmp_zero]
        exact ⟨not_le.2 hp.1, hp.2⟩
    · refine .inl ⟨?_, ?_⟩
      · cases hf : f k with
        | none => rfl
        | some v => exact absurd (hn.entry_iff.1 ((h.found b k v hb hd hs).1 hf)).1 hp
      · rw [if_pos]
        by_contra hc
        rw [not_or, not_not, btkeyCmp_zero] at hc
        exact hp ⟨not_le.1 hc.1, hc.2⟩
  | succ d ih =>
    intro b hb hd hs
    have hn := h.inv.node b hb
    have hl := h.inv.inner_of_lev hb (by omega)
    obtain ⟨h1, h2⟩ := h.inv.child hb hl k
    rw [deleteLoop]
    dsimp only
    rw [if_neg (not_not.2 hn.magic), if_neg (by simp [hl])]
    exact ih _ h1 (by omega) ((hn.inner hl).spans_child (hn.cut k) hs)

theorem delete_view : (f k = none ∧ flatfsBtreeDelete s k = some (.notfound, s)) ∨
    ∃ c m, f k ≠ none ∧ flatfsBtreeDelete s k = some (.ok, s.setNode c m) ∧
      View (s.setNode c m) F (update f k none) g := by
  unfold flatfsBtreeDelete
  rw [(h.inv.node _ h.inv.root).level]
  exact deleteLoop_view h k _ _ h.inv.root rfl (h.inv.spans_root k)

end Delete

theorem Created.view {t s0 : Bt} (h : Created t b s0) :
    (∃ F, View s0 F (fun _ => none) (fun _ => none)) ∧ s0.rootBlk = b ∧ s0.fs = t.fs := by
  obtain ⟨hb, hroot, hfs⟩ := btreeInit_blank h.init h.blank
  refine ⟨⟨⟨fun x => x = b, fun _ => 0, fun _ => none, fun _ => none⟩, ?_⟩, hroot, hfs⟩
  have hi := h.init
  unfold flatfsBtreeInit at hi
  dsimp only at hi
  have hrange : 0 < b ∧ b < t.fs.super.totalBlocks := by
    by_contra hc
    rw [if_pos hc] at hi
    cases hi
  have hnone : ∀ i, ¬ i < (s0.node b).count := by
    rw [hb]
    exact Nat.not_lt_zero
  have hnode : NodeIn ⟨fun x => x = b, fun _ => 0, fun _ => none, fun _ => none⟩ b (s0.node b) := by
    rw [hb] at hnone ⊢
    exact ⟨rfl, Nat.zero_le _, fun i j _ hj => absurd hj (hnone j), rfl, by simp [btnodeInit],
      fun x hx => (by cases hx), fun _ => ⟨fun i hi => absurd hi (hnone i), fun i hi => absurd hi (hnone i),
        fun x hx => (by cases hx), .inl ⟨rfl, rfl⟩⟩, fun hl => (by cases hl)⟩
  refine ⟨⟨⟨hroot, rfl, rfl, fun _ _ => le_refl _, fun x (hx : x = b) => hx ▸ hnode,
    fun x hx hxr => absurd (hx.trans hroot.symm) hxr, fun x hx hxr => absurd (hx.trans hroot.symm) hxr,
    fun x (hx : x = b) _ => ?_⟩, hfs ▸ h.alloc, hfs ▸ h.dataPos, fun x hx => ?_⟩, fun x k v hx _ _ => ?_,
    fun k v => ?_⟩
  · rw [hx]
    constructor <;> simp [hb, btnodeInit]
  · grind [h.kept]
  · obtain rfl : x = b := hx
    refine ⟨fun e => (by cases e), fun e => ?_⟩
    obtain ⟨i, hi, -⟩ := e
    exact absurd hi (hnone i)
  grind

/-! ## 6. The separators -/

/-- The key separates two nodes of the tree. -/
def Separator (s : Bt) (k : BtKey) : Prop :=
  ∃ b i, s.Below b ∧ (s.node b).isLeaf = false ∧ i < (s.node b).count ∧ (s.node b).keys i = k

section Separators

variable {s : Bt} {F : Frame} (h : BtInv s F)
include h

theorem BtInv.separator_of_lo (d : Nat) : ∀ b, F.mem b → F.lev b + d = F.lev s.rootBlk →
    F.lo b = some k → Separator s k := by
  induction d with
  | zero =>
    intro b hb hd hlo
    by_cases hbr : b = s.rootBlk
    · rw [hbr, h.rootLo] at hlo
      cases hlo
    · obtain ⟨p, i, hp, hl, hi, he⟩ := h.up b hb hbr
      have hlev := ((h.node p hp).inner hl).lev i hi
      rw [he] at hlev
      have := h.top p hp
      omega
  | succ d ih =>
    intro b hb hd hlo
    obtain ⟨p, i, hp, hl, hi, he⟩ := h.up b hb fun e => by rw [e] at hd; omega
    have hin := (h.node p hp).inner hl
    have hlev := hin.lev i hi
    have hplo := hin.lo i hi
    rw [he] at hlev hplo
    rw [hlo] at hplo
    split at hplo
    · exact ih p hp (by omega) hplo.symm
    · exact ⟨p, i - 1, h.reach p hp, hl, by omega, (Option.some.inj hplo).symm⟩

end Separators

/-- **The separators are the keys of the stray entries.** -/
theorem View.separator_iff (h : View s F f g) (k : BtKey) : Separator s k ↔ g k ≠ none := by
  constructor
  · intro hsep
    obtain ⟨b, i, hb, hl, hi, hk⟩ := hsep
    have hbm := (h.inv.down_of_spans (k := k) hb).1
    have hin := (h.inv.node b hbm).inner hl
    have hlo := hin.lo (i + 1) hi
    rw [if_neg (Nat.succ_ne_zero i), Nat.add_sub_cancel, hk] at hlo
    have hrow := h.inv.row _ _ (hin.mem (i + 1) hi) rfl
    obtain ⟨c, hc, hclo⟩ := hrow.head
    obtain ⟨hcm, hc0⟩ := hrow.leaf c (List.mem_of_mem_head? hc)
    rw [(h.stray k _).2 ⟨c, hcm, hc0, hclo.trans hlo, rfl⟩]
    simp
  · intro hg
    obtain ⟨v, hv⟩ := Option.ne_none_iff_exists'.1 hg
    obtain ⟨b, hb, -, hlo, -⟩ := (h.stray k v).1 hv
    exact h.inv.separator_of_lo (F.lev s.rootBlk - F.lev b) b hb (by have := h.inv.top b hb; omega) hlo

/-! ## 7. Runs -/

/-- **The map a log stands for**: what the latest successful insertion stored, unless it was deleted. -/
def stored : BtLog → BtKey → Option Nat
  | [] => fun _ => none
  | (.insert k v, some (.ok, _)) :: h => update (stored h) k (some v)
  | (.delete k, some (.ok, _)) :: h => update (stored h) k none
  | _ :: h => stored h

/-- What the calls answer over a map. -/
def mapAnswer (m : BtKey → Option Nat) : BtOp → Option (FlatfsErr × Option Nat)
  | .insert k _ => some (if m k = none then .ok else .exist, none)
  | .delete k => some (if m k = none then .notfound else .ok, none)
  | .lookup k =>
    match m k with
    | some v => some (.ok, some v)
    | none => some (.notfound, none)

/-- **The law**: every call was answered from the map of the calls before it. -/
def MapLog : BtLog → Prop
  | [] => True
  | (op, a) :: h => a = mapAnswer (stored h) op ∧ MapLog h

/-- The key of a call. -/
def BtOp.key : BtOp → BtKey
  | .insert k _ => k
  | .delete k => k
  | .lookup k => k

/-- The allocator has a block for the call, whenever it asks for one. -/
def Granted (s : Bt) (op : BtOp) : Prop := (btCall s op).1 ≠ some (.nospace, none)

/-- **The call stays clear of the separators**: its key is none, and an insertion does not make it one. -/
def Clear (s : Bt) (op : BtOp) : Prop :=
  ¬ Separator s op.key ∧ ∀ k v, op = .insert k v → ¬ RootMiddle s k

/-- The tree holds the map, each key found or stray. -/
structure Holds (f g : BtKey → Option Nat) (m : BtKey → Option Nat) : Prop where
  one : ∀ k, f k = none ∨ g k = none
  eq : ∀ k, m k = (f k).or (g k)

section Run

variable {f g f' g' m : BtKey → Option Nat}

theorem Holds.moves (h : Holds f g m) (hm : Moves f g f' g') : Holds f' g' m := by
  refine ⟨fun k => ?_, fun k => ?_⟩
  · rcases hm k with ⟨h1, h2⟩ | ⟨-, h2, -⟩
    · rw [h1, h2]
      exact h.one k
    · exact .inl h2
  · rw [h.eq k]
    rcases hm k with ⟨h1, h2⟩ | ⟨h1, h2, -, h4⟩
    · rw [h1, h2]
    grind

theorem Holds.update (h : Holds f g m) (hg : g k = none) (o : Option Nat) :
    Holds (update f k o) g (update m k o) := by
  refine ⟨fun j => ?_, fun j => ?_⟩
  · grind [h.one]
  grind [h.eq]

theorem Holds.found (h : Holds f g m) (hg : g k = none) : m k = f k := by
  rw [h.eq k, hg, Option.or_none]

theorem btCall_holds (hv : View s F f g) (hh : Holds f g m) {op : BtOp}
    (hgr : Granted s op) (hcl : Clear s op) : (btCall s op).1 = mapAnswer m op ∧
      ∃ F' f' g', View (btCall s op).2 F' f' g' ∧ ∀ h, stored h = m →
        Holds f' g' (stored ((op, (btCall s op).1) :: h)) := by
  have hgk : g op.key = none := by
    by_contra hne
    exact hcl.1 ((hv.separator_iff _).2 hne)
  cases op with
  | lookup k =>
    have hf : m k = f k := hh.found hgk
    rw [btCall, hv.lookup k]
    cases hfk : f k with
    | none =>
      refine ⟨by rw [mapAnswer, hf, hfk]; rfl, F, f, g, hv, fun h he => ?_⟩
      grind [stored]
    | some v =>
      refine ⟨by rw [mapAnswer, hf, hfk]; rfl, F, f, g, hv, fun h he => ?_⟩
      grind [stored]
  | delete k =>
    have hf : m k = f k := hh.found hgk
    rcases delete_view hv k with ⟨hfk, he⟩ | ⟨c, n, hfk, he, hv'⟩
    · rw [btCall, he, mapAnswer, if_pos (hf.trans hfk)]
      grind [stored]
    · rw [btCall, he, mapAnswer, if_neg (by rw [hf]; exact hfk)]
      refine ⟨rfl, F, _, g, hv', fun h he => ?_⟩
      rw [show stored ((BtOp.delete k, some (FlatfsErr.ok, none)) :: h) = update (stored h) k none from rfl,
        he]
      exact hh.update hgk none
  | insert k val =>
    have hf : m k = f k := hh.found hgk
    obtain ⟨e, s', he, hend⟩ := insert_view hv k val
    have hcall := btCall_insert he
    have hne : e ≠ .nospace := by
      rintro rfl
      exact hgr (by rw [hcall])
    rw [hcall, mapAnswer]
    cases hend.resolve_left hne with
    | exist hm _ hv' hk =>
      have hmk : m k ≠ none := by
        rw [(hh.moves hm).eq k]
        rcases hk with hk | hk
        · simp [hk]
        · simp [hk]
      rw [if_neg hmk]
      grind [stored, hh.moves]
    | ok hm _ hv' hk _ hg =>
      have hg' := hg.resolve_right fun hmid => hcl.2 k val rfl hmid.2
      have hmk : m k = none := by
        rw [(hh.moves hm).found (hg'.trans hgk), hk]
      rw [if_pos hmk]
      refine ⟨rfl, _, _, _, hv', fun h he => ?_⟩
      rw [show stored ((BtOp.insert k val, some (FlatfsErr.ok, none)) :: h) =
        update (stored h) k (some val) from rfl, he]
      exact (hh.moves hm).update (hg'.trans hgk) (some val)

end Run

theorem not_separator_of_leaf (hl : (s.node s.rootBlk).isLeaf = true) (k : BtKey) : ¬ Separator s k := by
  intro hsep
  obtain ⟨b, i, hb, hbl, -⟩ := hsep
  have hroot : b = s.rootBlk := by
    induction hb with
    | root => rfl
    | child _ hcl _ ih =>
      rw [ih hcl, hl] at hcl
      cases hcl
  rw [hroot, hl] at hbl
  cases hbl

/-- The tree fills up: the root is a leaf before each of 120 insertions, which succeed. -/
theorem filled_leaf : ∀ k < btreeOrder, ((filled 0 k).node (filled 0 k).rootBlk).isLeaf = true ∧
    ((filled 0 k).node (filled 0 k).rootBlk).count = k ∧ (btCall (filled 0 k) (.insert ⟨0, k⟩ k)).1 = some (.ok, none) := by
  decide +kernel

theorem created_filled : Created (blankTree 0) (blankTree 0).fs.super.btreeRootBlk (filled 0 0) :=
  ⟨Prod.ext (by decide +kernel) rfl, by decide, allocInv_blankTree 0, by decide, .inl (by decide)⟩

theorem filled_run {P : Bt → BtOp → Prop} (hok : ∀ k < btreeOrder, P (filled 0 k) (.insert ⟨0, k⟩ k)) :
    ∀ k ≤ btreeOrder, Reach P btCall (filled 0 0) (filling k) (filled 0 k)
  | 0, _ => .start
  | k + 1, hk => (filled_run hok k (Nat.le_of_lt hk)).eval (hok k hk) (filled_leaf k hk).2.2

theorem filled_clear : Reach (fun s op => Granted s op ∧ Clear s op) btCall (filled 0 0) (filling btreeOrder)
    (filled 0 btreeOrder) := by
  refine filled_run (fun k hk => ?_) btreeOrder (Nat.le_refl _)
  obtain ⟨hl, hc, ha⟩ := filled_leaf k hk
  refine ⟨by rw [Granted, ha]; simp, not_separator_of_leaf hl _, fun _ _ _ hmid => ?_⟩
  have := hmid.2.1
  rw [hc] at this
  exact absurd hk (by rw [this]; decide)

/-- The key in the middle of the full root is inserted a second time: the root is split, and the search
    goes to the half that does not hold it. -/
theorem filled_again : (btCall (filled 0 btreeOrder) (.insert ⟨0, 60⟩ 7)).1 = some (.ok, none) ∧
    flatfsBtreeLookup (filled 0 btreeOrder) ⟨0, 60⟩ = some (.ok 60) := by
  decide +kernel

theorem reach_holds {t : Bt} {s0 : Bt} (hc : Created t b s0)
    {h : BtLog}
    (hr : Reach (fun s op => Granted s op ∧ Clear s op) btCall s0 h s) :
    MapLog h ∧ ∃ F f g, View s F f g ∧ Holds f g (stored h) := by
  refine hr.inv (I := fun h s => MapLog h ∧ ∃ F f g, View s F f g ∧ Holds f g (stored h)) ?_ ?_
  · obtain ⟨⟨F, hv⟩, -⟩ := hc.view
    exact ⟨trivial, F, _, _, hv, ⟨fun _ => .inl rfl, fun _ => rfl⟩⟩
  · intro h s op hI hok
    obtain ⟨hlog, F, f, g, hv, hh⟩ := hI
    obtain ⟨ha, F', f', g', hv', hh'⟩ := btCall_holds hv hh hok.1 hok.2
    exact ⟨⟨ha, hlog⟩, F', f', g', hv', hh' h rfl⟩

/-- **The B-tree is a finite map for the keys that separate no two nodes.** In every run from an empty tree
    whose calls find their blocks and stay clear of the separators, every answer is the map's; and in the
    state reached a lookup answers from the map exactly for the keys that are no separators. -/
theorem btree_is_map (t : Bt) (b : Nat) (s0 : Bt) (hc : Created t b s0)
    (h : BtLog) (s : Bt)
    (hr : Reach (fun s op => Granted s op ∧ Clear s op) btCall s0 h s) :
    MapLog h ∧ ∀ k, flatfsBtreeLookup s k = some (answer (stored h k)) ↔ ¬ Separator s k := by
  obtain ⟨hlog, F, f, g, hv, hh⟩ := reach_holds hc hr
  refine ⟨hlog, fun k => ?_⟩
  rw [hv.separator_iff, not_not, hv.lookup, hh.eq k]
  rcases hh.one k with hf | hg
  · rw [hf, Option.none_or]
    cases hg : g k with
    | none => simp
    | some v => simp [answer]
  · rw [hg, Option.or_none]
    simp

theorem btree_is_map_filled : ∃ t b s0 s, Created t b s0 ∧
    Reach (fun s op => Granted s op ∧ Clear s op) btCall s0 (filling btreeOrder) s ∧ MapLog (filling btreeOrder) ∧
    ∀ k, flatfsBtreeLookup s k = some (answer (stored (filling btreeOrder) k)) ↔ ¬ Separator s k := by
  exact ⟨_, _, _, _, created_filled, filled_clear, btree_is_map _ _ _ created_filled _ _ filled_clear⟩

/-- **A key is inserted twice.** The tree holds `(0, 0), …, (0, 119)` in its root; the insertion of
    `(0, 60)` is answered with success, though the key is there. -/
theorem btree_takes_key_twice : ∃ t b s0 s, Created t b s0 ∧ Reach Granted btCall s0 (filling btreeOrder) s ∧
    Granted s (.insert ⟨0, 60⟩ 7) ∧ stored (filling btreeOrder) ⟨0, 60⟩ = some 60 ∧
    flatfsBtreeLookup s ⟨0, 60⟩ = some (.ok 60) ∧ (btCall s (.insert ⟨0, 60⟩ 7)).1 = some (.ok, none) ∧
    ¬ MapLog ((.insert ⟨0, 60⟩ 7, (btCall s (.insert ⟨0, 60⟩ 7)).1) :: filling btreeOrder) := by
  obtain ⟨ha, hlook⟩ := filled_again
  have hst : stored (filling btreeOrder) ⟨0, 60⟩ = some 60 := by decide +kernel
  refine ⟨_, _, _, _, created_filled, filled_clear.mono fun _ _ h => h.1, by rw [Granted, ha]; simp, hst, hlook, ha,
    fun hlog => ?_⟩
  rw [ha] at hlog
  grind [hlog.1, mapAnswer]

end Kobalt.Flatfs

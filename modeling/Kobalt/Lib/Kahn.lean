/-
  Subject: KAHN'S ORDER over the nodes `0, …, n - 1`, where `dep v w` says that `v` needs `w`. A run
  keeps the nodes taken so far (`T`), the nodes that are free to be taken (`Q`) and for each node
  the number of needs that are not taken (`d`).
-/
import Mathlib.Data.Finset.Card
import Mathlib.Data.Fintype.EquivFin
import Mathlib.Order.WellFounded
import Mathlib.Logic.Relation
import Mathlib.Data.List.Nodup

namespace Kobalt.Kahn

open Relation Finset

variable {n : Nat} {dep : Nat → Nat → Prop} [DecidableRel dep]

/-- The edges between nodes. -/
def Edge (n : Nat) (dep : Nat → Nat → Prop) (a b : Nat) : Prop := a < n ∧ b < n ∧ dep a b

def Cyclic (n : Nat) (dep : Nat → Nat → Prop) : Prop := ∃ v, TransGen (Edge n dep) v v

/-- What `v` needs and is not in `T`. -/
def need (n : Nat) (dep : Nat → Nat → Prop) [DecidableRel dep] (T : List Nat) (v : Nat) : Finset Nat :=
  (range n).filter fun w => dep v w ∧ w ∉ T

/-- What a node of the list needs stands before it. -/
def Ordered (n : Nat) (dep : Nat → Nat → Prop) (T : List Nat) : Prop :=
  ∀ v ∈ T, ∀ w, Edge n dep v w → w ∈ T ∧ T.idxOf w < T.idxOf v

/-- **The invariant of a run.** -/
structure Inv (n : Nat) (dep : Nat → Nat → Prop) [DecidableRel dep] (T Q : List Nat) (d : Nat → Nat) :
    Prop where
  nodup : (T ++ Q).Nodup
  lt : ∀ v ∈ T ++ Q, v < n
  deg : ∀ v < n, d v = (need n dep T v).card
  free : ∀ v < n, v ∈ T ++ Q ↔ d v = 0
  order : Ordered n dep T

section Run

variable {T Q N : List Nat} {d e : Nat → Nat} {u : Nat}

theorem mem_need {v w : Nat} : w ∈ need n dep T v ↔ w < n ∧ dep v w ∧ w ∉ T := by
  simp [need]

theorem Inv.start (hd : ∀ v < n, d v = (need n dep [] v).card) (hQ : Q.Nodup)
    (hmem : ∀ v, v ∈ Q ↔ v < n ∧ d v = 0) : Inv n dep [] Q d where
  nodup := hQ
  lt v hv := ((hmem v).1 hv).1
  deg := hd
  free v hv := by grind
  order _ hv := absurd hv List.not_mem_nil

theorem need_append (v : Nat) : need n dep (T ++ [u]) v = (need n dep T v).erase u := by grind [mem_need]

theorem Inv.need_empty (h : Inv n dep T Q d) {v : Nat} (hv : v ∈ T ++ Q) : need n dep T v = ∅ := by
  grind [h.lt, h.deg, h.free]

/-- **A free node is taken**: the nodes that need it need one less, and those that need nothing any
    more become free. -/
theorem Inv.pop (h : Inv n dep T (u :: Q) d) (hd : ∀ v < n, e v = if dep v u then d v - 1 else d v)
    (hnew : N.Nodup) (hmem : ∀ v, v ∈ N ↔ v < n ∧ dep v u ∧ d v = 1) : Inv n dep (T ++ [u]) (Q ++ N) e := by
  have hu : u ∈ T ++ u :: Q := by simp
  have hun : u < n := h.lt u hu
  have huT : u ∉ T := fun hm => (List.nodup_append.1 h.nodup).2.2 u hm u (by simp) rfl
  have hsplit : T ++ [u] ++ (Q ++ N) = T ++ u :: Q ++ N := by simp
  -- a node that becomes free was not free
  have hfresh : ∀ v ∈ N, v ∉ T ++ u :: Q := fun v hv hm => by grind [h.free]
  have hin : ∀ v < n, dep v u → 0 < d v := fun v hv hdep => by
    rw [h.deg v hv, card_pos]
    exact ⟨u, mem_need.2 ⟨hun, hdep, huT⟩⟩
  refine ⟨?_, fun v hv => ?_, fun v hv => ?_, fun v hv => ?_, fun v hv w hw => ?_⟩
  · grind [h.nodup]
  · grind [h.lt]
  · rw [hd v hv, need_append]
    by_cases hdep : dep v u
    · rw [if_pos hdep, card_erase_of_mem (mem_need.2 ⟨hun, hdep, huT⟩), h.deg v hv]
    · rw [if_neg hdep, erase_eq_of_notMem fun hm => hdep (mem_need.1 hm).2.1, h.deg v hv]
  · rw [hsplit, List.mem_append, h.free v hv, hmem, hd v hv]
    grind
  · rcases List.mem_append.1 hv with hv | hv
    · obtain ⟨hwT, hlt⟩ := h.order v hv w hw
      grind
    · obtain rfl := List.mem_singleton.1 hv
      have hwT : w ∈ T := by
        by_contra hn
        have hm := mem_need.2 ⟨hw.2.1, hw.2.2, hn⟩
        rw [h.need_empty hu] at hm
        exact notMem_empty _ hm
      grind

theorem Inv.length_le (h : Inv n dep T Q d) : T.length + Q.length ≤ n := by
  have hsub : T ++ Q ⊆ List.range n := fun v hv => List.mem_range.2 (h.lt v hv)
  have := (List.subperm_of_subset h.nodup hsub).length_le
  grind

theorem Inv.perm (h : Inv n dep T [] d) (hn : T.length = n) : T.Perm (List.range n) := by
  have hnd : T.Nodup := by simpa using h.nodup
  have hsub : T ⊆ List.range n := fun v hv => List.mem_range.2 (h.lt v (by simpa using hv))
  exact (List.subperm_of_subset hnd hsub).perm_of_length_le (by rw [List.length_range, hn])

/-- **A run that stops early has met a cycle.** -/
theorem Inv.cycle (h : Inv n dep T [] d) (hn : T.length ≠ n) : Cyclic n dep := by
  by_contra hac
  -- no cycle: following needs comes to an end
  let R : Fin n → Fin n → Prop := fun b a => TransGen (Edge n dep) a.1 b.1
  have : IsTrans (Fin n) R := ⟨fun a b c hab hbc => TransGen.trans hbc hab⟩
  have : Std.Irrefl R := ⟨fun a ha => hac ⟨a.1, ha⟩⟩
  have hwf : WellFounded R := Finite.wellFounded_of_trans_of_irrefl _
  have hex : ∃ v : Fin n, v.1 ∉ T := by
    by_contra hall
    have hlen := (List.subperm_of_subset (List.nodup_range (n := n)) fun v hv =>
      by_contra fun hv' => hall ⟨⟨v, List.mem_range.1 hv⟩, hv'⟩).length_le
    have := h.length_le
    simp only [List.length_range, List.length_nil] at hlen this
    omega
  obtain ⟨m, hm, hmin⟩ := hwf.has_min {v : Fin n | v.1 ∉ T} hex
  have hd : d m.1 ≠ 0 := fun h0 => hm (by simpa using (h.free m.1 m.2).2 h0)
  rw [h.deg m.1 m.2, ne_eq, card_eq_zero, ← ne_eq, ← nonempty_iff_ne_empty] at hd
  obtain ⟨w, hw⟩ := hd
  obtain ⟨hwn, hdep, hwT⟩ := mem_need.1 hw
  exact hmin ⟨w, hwn⟩ hwT (TransGen.single ⟨m.2, hwn, hdep⟩)

end Run

omit [DecidableRel dep] in
/-- **Needs first leaves no cycle.** -/
theorem Ordered.acyclic {T : List Nat} (h : Ordered n dep T) (hall : ∀ v < n, v ∈ T) : ¬ Cyclic n dep := by
  have hlt : ∀ a b, TransGen (Edge n dep) a b → T.idxOf b < T.idxOf a := by
    intro a b hab
    induction hab with
    | single he => exact (h a (hall a he.1) _ he).2
    | tail _ he ih => exact (h _ (hall _ he.1) _ he).2.trans ih
  rintro ⟨v, hv⟩
  exact lt_irrefl _ (hlt v v hv)

end Kobalt.Kahn

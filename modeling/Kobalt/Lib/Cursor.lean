/-
  Subject: A CURSOR OVER A TABLE. A table of `n` slots is listed by a position that goes from one
  used slot to the next; between two calls slots may be cleared.
-/
import Mathlib.Data.List.Range
import Mathlib.Data.List.Nodup
import Mathlib.Data.List.Find

namespace Kobalt

open List

variable {α : Type*} {n pos : Nat}

/-- The first used slot of a table of `n` from `pos` on. -/
def nextUsed (e : Nat → Option α) (n pos : Nat) : Option Nat :=
  (List.range' pos (n - pos)).find? fun j => (e j).isSome

theorem nextUsed_some {e : Nat → Option α} {j : Nat} (h : nextUsed e n pos = some j) :
    pos ≤ j ∧ j < n ∧ e j ≠ none ∧ ∀ i, pos ≤ i → i < j → e i = none := by
  obtain ⟨hj, as, bs, hsplit, hbefore⟩ := List.find?_eq_some_iff_append.mp h
  have hmem := mem_range'_1.mp (mem_of_find?_eq_some h)
  refine ⟨hmem.1, by omega, fun h0 => by simp [h0] at hj, fun i hi hij => ?_⟩
  have hin : i ∈ as ++ j :: bs := by
    rw [← hsplit]
    exact mem_range'_1.mpr ⟨hi, by omega⟩
  have hlate : ∀ x ∈ bs, j < x := by
    have hp : (as ++ j :: bs).Pairwise (· < ·) := hsplit ▸ pairwise_lt_range'
    exact (pairwise_cons.mp (pairwise_append.mp hp).2.1).1
  rcases mem_append.mp hin with hin | hin
  · simpa using hbefore i hin
  grind

theorem nextUsed_none {e : Nat → Option α} (h : nextUsed e n pos = none) {i : Nat} (hi : pos ≤ i) (hin : i < n) :
    e i = none := by
  have := List.find?_eq_none.mp h i (mem_range'_1.mpr ⟨hi, by omega⟩)
  simpa using this

theorem nextUsed_succ {e : Nat → Option α} (h : pos < n) :
    nextUsed e n pos = if (e pos).isSome then some pos else nextUsed e n (pos + 1) := by
  unfold nextUsed
  obtain ⟨k, hk⟩ : ∃ k, n - pos = k + 1 := ⟨n - pos - 1, by omega⟩
  grind [range'_succ]

theorem nextUsed_of_le {e : Nat → Option α} (h : n ≤ pos) : nextUsed e n pos = none := by grind [nextUsed]

theorem nextUsed_skip {e : Nat → Option α} : ∀ (k : Nat) {pos : Nat}, pos + k ≤ n → (∀ i < k, e (pos + i) = none) →
    nextUsed e n pos = nextUsed e n (pos + k)
  | 0, _, _, _ => rfl
  | k + 1, pos, hk, h => by
    have h0 : e pos = none := h 0 (Nat.succ_pos k)
    have hempty : ∀ i < k, e (pos + 1 + i) = none := fun i hi => by grind
    have hrest : nextUsed e n (pos + 1) = nextUsed e n (pos + 1 + k) := nextUsed_skip k (by omega) hempty
    grind [nextUsed_succ]

/-- **What a listing of `e₀` has covered** at position `pos`, now that the table is `e`: the slots `js`. -/
structure Covers (n : Nat) (e₀ e : Nat → Option α) (pos : Nat) (js : List Nat) : Prop where
  sorted : js.Pairwise (· < ·)
  below : ∀ j ∈ js, j < pos
  le : pos ≤ n
  used : ∀ j ∈ js, e₀ j ≠ none
  kept : ∀ j, e j ≠ none → e j = e₀ j
  all : ∀ j < pos, e j ≠ none → j ∈ js

section Covers

variable {e₀ e e' : Nat → Option α} {js : List Nat}

theorem Covers.start (n : Nat) (e : Nat → Option α) : Covers n e e 0 [] :=
  ⟨.nil, fun _ h => absurd h not_mem_nil, Nat.zero_le n, fun _ h => absurd h not_mem_nil, fun _ _ => rfl,
    fun _ h => absurd h (Nat.not_lt_zero _)⟩

/-- **A call that finds a slot.** -/
theorem Covers.next (h : Covers n e₀ e pos js) {j : Nat} (hj : nextUsed e n pos = some j) :
    Covers n e₀ e (j + 1) (js ++ [j]) ∧ e j = e₀ j := by
  obtain ⟨h1, h2, h3, h4⟩ := nextUsed_some hj
  refine ⟨⟨?_, fun i hi => ?_, h2, fun i hi => ?_, h.kept, fun i hi hu => ?_⟩, h.kept j h3⟩
  · refine pairwise_append.mpr ⟨h.sorted, pairwise_singleton _ _, fun a ha b hb => ?_⟩
    rw [mem_singleton.mp hb]
    exact Nat.lt_of_lt_of_le (h.below a ha) h1
  · rcases mem_append.mp hi with hi | hi
    · have := h.below i hi
      omega
    grind
  · grind [h.used, h.kept]
  · by_cases hlt : i < pos
    · exact mem_append_left _ (h.all i hlt hu)
    grind

/-- **A call that finds none.** -/
theorem Covers.finish (h : Covers n e₀ e pos js) (hn : nextUsed e n pos = none) : Covers n e₀ e n js := by
  refine ⟨h.sorted, fun j hj => Nat.lt_of_lt_of_le (h.below j hj) h.le, Nat.le_refl n, h.used, h.kept, fun i hi hu => ?_⟩
  by_cases hlt : i < pos
  · exact h.all i hlt hu
  grind [nextUsed_none]

/-- **Slots are cleared.** -/
theorem Covers.clear (h : Covers n e₀ e pos js) (hc : ∀ j, e' j ≠ none → e' j = e j) : Covers n e₀ e' pos js where
  sorted := h.sorted
  below := h.below
  le := h.le
  used := h.used
  kept := fun j hj => (hc j hj).trans (h.kept j (hc j hj ▸ hj))
  all := fun j hlt hj => h.all j hlt (hc j hj ▸ hj)

end Covers

end Kobalt

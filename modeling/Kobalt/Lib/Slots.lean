/-
  Subject: FIRST-FIT SLOT TABLES. A table of `n` slots, each empty or holding a key and a value,
  searched from slot 0 on. Nothing here knows what a slot is made of.
-/
import Mathlib.Data.List.Basic
import Mathlib.Data.List.Find
import Mathlib.Logic.Function.Basic

namespace Kobalt

open Function List

variable {κ ν : Type*} [DecidableEq κ]

/-- A table: what each slot holds. -/
abbrev Slots (κ ν : Type*) := Nat → Option (κ × ν)

namespace Slots

variable (e : Slots κ ν) (n : Nat) (k : κ)

/-- Slot `i` has the key. -/
def hit (i : Nat) : Bool :=
  match e i with
  | some p => p.1 = k
  | none => false

/-- The value in the first slot with the key. -/
def find : Option ν :=
  ((List.range n).find? (e.hit k)).bind fun i => (e i).map Prod.snd

/-- The first slot that is empty or has the key. -/
def firstFit : Option Nat :=
  (List.range n).find? fun i => (e i).isNone || e.hit k i

/-- No key is in two slots. -/
def Uniq : Prop :=
  ∀ i < n, ∀ j < n, ∀ k, e.hit k i = true → e.hit k j = true → i = j

/-- The key is not behind an empty slot. -/
def HoleFree : Prop :=
  ∀ j < n, e.hit k j = true → ∀ i < j, e i ≠ none

variable {e n k}

theorem hit_iff {i : Nat} : e.hit k i = true ↔ ∃ v, e i = some (k, v) := by grind [hit]

theorem find_eq_none : e.find n k = none ↔ ∀ i < n, e.hit k i = false := by
  unfold find
  constructor
  · intro h i hi
    by_contra hh
    rw [Bool.not_eq_false] at hh
    cases hf : (List.range n).find? (e.hit k) with
    | none => exact absurd hh (by simpa using List.find?_eq_none.1 hf i (mem_range.2 hi))
    | some j =>
      obtain ⟨v, hv⟩ := hit_iff.1 (List.find?_some hf)
      rw [hf] at h
      simp [hv] at h
  grind

/-- **A table without duplicates is a map.** -/
theorem find_eq_some (hU : e.Uniq n) {v : ν} : e.find n k = some v ↔ ∃ i < n, e i = some (k, v) := by
  unfold find
  constructor
  · intro h
    cases hf : (List.range n).find? (e.hit k) with
    | none => rw [hf] at h; cases h
    | some i =>
      obtain ⟨w, hw⟩ := hit_iff.1 (List.find?_some hf)
      grind
  · rintro ⟨i, hi, hv⟩
    have hh : e.hit k i = true := hit_iff.2 ⟨v, hv⟩
    cases hf : (List.range n).find? (e.hit k) with
    | none => exact absurd hh (by simpa using List.find?_eq_none.1 hf i (mem_range.2 hi))
    | some j =>
      have hj := mem_range.1 (mem_of_find?_eq_some hf)
      rw [hU i hi j hj k hh (List.find?_some hf)] at hv
      simp [hv]

/-- Only the first `n` slots matter. -/
theorem find_congr {e' : Slots κ ν} (h : ∀ i < n, e' i = e i) : e'.find n k = e.find n k := by
  have hhit : ∀ i < n, e'.hit k i = e.hit k i := by
    intro i hi
    unfold hit
    rw [h i hi]
  unfold find
  rw [List.find?_congr fun i hi => hhit i (mem_range.1 hi)]
  cases hf : (List.range n).find? (e.hit k) with
  | none => rfl
  | some i => simp only [Option.bind_some, h i (mem_range.1 (mem_of_find?_eq_some hf))]

theorem uniq_congr {e' : Slots κ ν} (h : ∀ i < n, e' i = e i) (hU : e.Uniq n) : e'.Uniq n := by
  intro i hi j hj k h1 h2
  unfold hit at h1 h2
  rw [h i hi] at h1
  rw [h j hj] at h2
  exact hU i hi j hj k h1 h2

/-! ## 1. The pass of an insertion -/

theorem firstFit_none (h : e.firstFit n k = none) : e.find n k = none := by
  refine find_eq_none.2 fun i hi => ?_
  have := List.find?_eq_none.1 h i (mem_range.2 hi)
  grind

theorem firstFit_lt {i : Nat} (h : e.firstFit n k = some i) : i < n :=
  mem_range.1 (mem_of_find?_eq_some h)

theorem firstFit_hit {i : Nat} (h : e.firstFit n k = some i) (hi : e i ≠ none) : e.hit k i = true := by
  have hp := List.find?_some h
  simp only [Bool.or_eq_true, Option.isNone_iff_eq_none] at hp
  exact hp.resolve_left hi

/-- **The pass ends at an empty slot**: the key is absent, unless it is behind that slot. -/
theorem firstFit_free {i : Nat} (h : e.firstFit n k = some i) (hi : e i = none)
    (hH : e.HoleFree n k) : e.find n k = none := by
  refine find_eq_none.2 fun j hj => ?_
  by_contra hh
  rw [Bool.not_eq_false] at hh
  rcases Nat.lt_trichotomy i j with hij | rfl | hji
  · exact hH j hj hh i hij hi
  · obtain ⟨v, hv⟩ := hit_iff.1 hh
    rw [hi] at hv
    cases hv
  · -- an earlier slot with the key would have ended the pass
    have hlt := (List.find?_range_eq_some.1 h).2.2 j hji
    simp [hh] at hlt

/-! ## 2. Filling and clearing a slot -/

variable {i : Nat}

theorem hit_update {o : Option (κ × ν)} {k' : κ} {j : Nat} : Slots.hit (update e i o) k' j =
      if j = i then (match o with | some p => decide (p.1 = k') | none => false) else e.hit k' j := by grind [hit]

/-- **A new key in an empty slot.** -/
theorem uniq_fill (hU : e.Uniq n) {v : ν} (hk : e.find n k = none) :
    Slots.Uniq (update e i (some (k, v))) n := by
  have hno := find_eq_none.1 hk
  intro a ha b hb k' h1 h2
  rw [hit_update] at h1 h2
  by_cases hai : a = i <;> by_cases hbi : b = i
  · rw [hai, hbi]
  · grind
  · grind
  · rw [if_neg hai] at h1
    rw [if_neg hbi] at h2
    exact hU a ha b hb k' h1 h2

theorem find_fill (hU : e.Uniq n) {v : ν} (hi : i < n) (he : e i = none) (hk : e.find n k = none)
    (k' : κ) : Slots.find (update e i (some (k, v))) n k' = if k' = k then some v else e.find n k' := by
  have hU' := uniq_fill (i := i) (v := v) hU hk
  by_cases hkk : k' = k
  · rw [if_pos hkk, hkk]
    grind [find_eq_some]
  · rw [if_neg hkk]
    refine Option.ext fun w => ?_
    rw [find_eq_some hU', find_eq_some hU]
    constructor
    · grind
    · rintro ⟨j, hj, hw⟩
      have hji : j ≠ i := fun e' => by rw [e', he] at hw; cases hw
      exact ⟨j, hj, by rw [update_of_ne hji]; exact hw⟩

/-- **Clearing a slot.** -/
theorem uniq_clear (hU : e.Uniq n) : Slots.Uniq (update e i none) n := by
  intro a ha b hb k' h1 h2
  rw [hit_update] at h1 h2
  by_cases hai : a = i
  · rw [if_pos hai] at h1; cases h1
  · by_cases hbi : b = i
    · rw [if_pos hbi] at h2; cases h2
    · rw [if_neg hai] at h1
      rw [if_neg hbi] at h2
      exact hU a ha b hb k' h1 h2

theorem find_clear (hU : e.Uniq n) (hi : i < n) (hh : e.hit k i = true) (k' : κ) :
    Slots.find (update e i none) n k' = if k' = k then none else e.find n k' := by
  have hU' : Slots.Uniq (update e i none) n := uniq_clear hU
  by_cases hkk : k' = k
  · rw [if_pos hkk, hkk]
    refine find_eq_none.2 fun j hj => ?_
    rw [hit_update]
    split
    · rfl
    · rename_i hji
      by_contra hh'
      rw [Bool.not_eq_false] at hh'
      exact hji (hU j hj i hi k hh' hh)
  · rw [if_neg hkk]
    refine Option.ext fun w => ?_
    rw [find_eq_some hU', find_eq_some hU]
    constructor
    · grind
    · rintro ⟨j, hj, hw⟩
      refine ⟨j, hj, ?_⟩
      rw [update_of_ne]
      · exact hw
      · rintro rfl
        obtain ⟨v, hv⟩ := hit_iff.1 hh
        grind

end Slots

end Kobalt

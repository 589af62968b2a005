/-
  Subject: ARRAYS WITH A COUNT. An array is a function from positions; the loops that open and close
  a gap in it, copy a part of it, and search it by halving.
-/
import Mathlib.Order.Lattice

namespace Kobalt

variable {α : Type*}

open Function

/-! ## 1. Loops -/

/-- `for (i = n; i > pos; i--) f[i] = f[i-1];` -/
def shiftUp (f : Nat → α) (pos : Nat) : Nat → Nat → α
  | 0 => f
  | i + 1 => if i + 1 > pos then shiftUp (update f (i + 1) (f i)) pos i else f

theorem shiftUp_apply (pos : Nat) : ∀ (n : Nat) (f : Nat → α) (j : Nat),
    shiftUp f pos n j = if pos < j ∧ j ≤ n then f (j - 1) else f j := by
  intro n
  induction n with
  | zero =>
    intro f j
    rw [shiftUp, if_neg (by omega)]
  | succ n ih =>
    intro f j
    rw [shiftUp]
    grind

/-- Room made at `pos`, and `x` put there. -/
theorem update_shiftUp {f : Nat → α} {pos n j : Nat} (x : α) (hj : j ≤ n) :
    update (shiftUp f pos n) pos x j = if j < pos then f j else if j = pos then x else f (j - 1) := by
  by_cases he : j = pos
  · rw [he, update_self, if_neg (Nat.lt_irrefl _), if_pos rfl]
  · rw [update_of_ne he, shiftUp_apply]
    grind

/-- `for (i = pos; i < pos + n; i++) f[i] = f[i+1];` -/
def shiftDown (f : Nat → α) (pos : Nat) : Nat → Nat → α
  | 0 => f
  | n + 1 => shiftDown (update f pos (f (pos + 1))) (pos + 1) n

theorem shiftDown_apply : ∀ (n pos : Nat) (f : Nat → α) (j : Nat),
    shiftDown f pos n j = if pos ≤ j ∧ j < pos + n then f (j + 1) else f j := by
  intro n
  induction n with
  | zero =>
    intro pos f j
    rw [shiftDown, if_neg (by omega)]
  | succ n ih =>
    intro pos f j
    rw [shiftDown, ih]
    grind

/-- `for (i = 0; i < n; i++) dst[i] = src[i];` between two arrays. -/
def copyOver (dst : Nat → α) (n : Nat) (src : Nat → α) : Nat → α :=
  fun i => if i < n then src i else dst i

/-! ## 2. Search -/

/-- The loop of a search by halving between `lo` and `hi`. -/
def bisect (p : Nat → Bool) (lo hi : Nat) : Nat :=
  if h : lo < hi then
    if p (lo + (hi - lo) / 2) then bisect p (lo + (hi - lo) / 2 + 1) hi
    else bisect p lo (lo + (hi - lo) / 2)
  else lo
termination_by hi - lo

/-- **The search finds the place at which `p` turns false.** -/
theorem bisect_eq {p : Nat → Bool} {n c : Nat} (hc : c ≤ n) (hlow : ∀ i < c, p i = true)
    (hhigh : ∀ i, c ≤ i → i < n → p i = false) : bisect p 0 n = c := by
  suffices h : ∀ m lo hi, hi - lo = m → lo ≤ c → c ≤ hi → hi ≤ n → bisect p lo hi = c from
    h n 0 n (by omega) (by omega) hc (by omega)
  intro m
  induction m using Nat.strongRecOn with
  | ind m ih =>
    intro lo hi hm h1 h2 h3
    rw [bisect]
    by_cases hlt : lo < hi
    · rw [dif_pos hlt]
      by_cases hmid : lo + (hi - lo) / 2 < c
      · grind
      · rw [if_neg (by rw [hhigh _ (by omega) (by omega)]; simp)]
        exact ih (lo + (hi - lo) / 2 - lo) (by omega) _ _ rfl h1 (by omega) (by omega)
    · rw [dif_neg hlt]
      omega

section Order

variable [LinearOrder α] {f : Nat → α} {n : Nat} {k : α}

/-- The first `n` entries increase. -/
def Increasing (f : Nat → α) (n : Nat) : Prop := ∀ i j, i < j → j < n → f i < f j

/-- `c` entries are below `k`, and the others are not. -/
structure Cut (f : Nat → α) (n : Nat) (k : α) (c : Nat) : Prop where
  le : c ≤ n
  below : ∀ i < c, f i < k
  above : ∀ i, c ≤ i → i < n → k ≤ f i

theorem Increasing.exists_cut (h : Increasing f n) (k : α) : ∃ c, Cut f n k c := by
  induction n with
  | zero => exact ⟨0, Nat.le_refl _, fun i hi => absurd hi (Nat.not_lt_zero i),
      fun i _ hi => absurd hi (Nat.not_lt_zero i)⟩
  | succ n ih =>
    obtain ⟨c, hc⟩ := ih fun i j hij hj => h i j hij (by omega)
    by_cases hn : f n < k
    · refine ⟨n + 1, Nat.le_refl _, fun i hi => ?_, fun i hi hi' => by omega⟩
      rcases Nat.lt_succ_iff_lt_or_eq.1 hi with hlt | rfl
      · exact lt_trans (h i n hlt (by omega)) hn
      · exact hn
    · refine ⟨c, by have := hc.le; omega, hc.below, fun i hi hi' => ?_⟩
      grind [hc.above]

theorem Cut.unique {c c' : Nat} (h : Cut f n k c) (h' : Cut f n k c') : c = c' := by
  have h1 := h.le
  have h2 := h'.le
  rcases Nat.lt_trichotomy c c' with hlt | rfl | hlt
  · exact absurd (h'.below c hlt) (not_lt.2 (h.above c (Nat.le_refl _) (by omega)))
  · rfl
  · exact absurd (h.below c' hlt) (not_lt.2 (h'.above c' (Nat.le_refl _) (by omega)))

theorem Cut.bisect {c : Nat} (h : Cut f n k c) {p : Nat → Bool} (hp : ∀ i, p i = true ↔ f i < k) :
    bisect p 0 n = c :=
  bisect_eq h.le (fun i hi => (hp i).2 (h.below i hi)) fun i hi hi' =>
    Bool.eq_false_iff.2 fun hpi => not_lt.2 (h.above i hi hi') ((hp i).1 hpi)

theorem Increasing.insert {c : Nat} (h : Increasing f n) (hc : Cut f n k c) (hk : ∀ i < n, f i ≠ k) :
    Increasing (update (shiftUp f c n) c k) (n + 1) := by
  have hle := hc.le
  have habove : ∀ i, c ≤ i → i < n → k < f i := fun i hi hi' =>
    lt_of_le_of_ne (hc.above i hi hi') (Ne.symm (hk i hi'))
  intro i j hij hj
  rw [update_shiftUp k (by omega), update_shiftUp k (by omega)]
  by_cases hi : i < c
  · rw [if_pos hi]
    by_cases hjc : j < c
    · rw [if_pos hjc]
      exact h i j hij (by omega)
    by_cases hje : j = c
    · rw [if_neg hjc, if_pos hje]
      exact hc.below i hi
    · rw [if_neg hjc, if_neg hje]
      exact lt_trans (hc.below i hi) (habove _ (by omega) (by omega))
  · rw [if_neg hi, if_neg (show ¬ j < c by omega), if_neg (show j ≠ c by omega)]
    by_cases hie : i = c
    · grind
    · rw [if_neg hie]
      exact h _ _ (by omega) (by omega)

theorem Increasing.remove (h : Increasing f n) (pos : Nat) :
    Increasing (shiftDown f pos (n - 1 - pos)) (n - 1) := by
  intro i j hij hj
  rw [shiftDown_apply, shiftDown_apply]
  by_cases hi : pos ≤ i
  · rw [if_pos (by omega), if_pos (by omega)]
    exact h _ _ (by omega) (by omega)
  · rw [if_neg (by omega)]
    split
    · exact h _ _ (by omega) (by omega)
    · exact h _ _ hij (by omega)

end Order

end Kobalt

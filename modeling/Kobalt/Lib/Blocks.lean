/-
  Subject: A STREAM CUT INTO BLOCKS. A function `f` takes a state and one block of `B` elements; a
  stream is fed to it block by block, and arrives in pieces of any length.
-/
import Mathlib.Data.List.Basic

namespace Kobalt

open List

variable {σ α : Type*} (f : σ → List α → σ) (B : Nat)

/-- **Feed every full block**: the state after them, and the elements left over. -/
def feed (s : σ) (l : List α) : σ × List α :=
  if _ : 0 < B ∧ B ≤ l.length then feed (f s (l.take B)) (l.drop B) else (s, l)
termination_by l.length
decreasing_by
  rw [length_drop]
  omega

/-- A state with a partial block. -/
structure Buffered (σ α : Type*) where
  state : σ
  buf : List α

/-- **One piece more**: drain the partial block if the piece completes it, take full blocks from the
    piece, keep its tail. -/
def Buffered.update (c : Buffered σ α) (data : List α) : Buffered σ α :=
  if 0 < c.buf.length ∧ data.length < B - c.buf.length then { c with buf := c.buf ++ data }
  else
    let (s, p) := if 0 < c.buf.length then
        (f c.state (c.buf ++ data.take (B - c.buf.length)), data.drop (B - c.buf.length))
      else (c.state, data)
    let (s, p) := feed f B s p
    { state := s, buf := p }

section Feed

variable {f B}

theorem feed_of_lt {s : σ} {l : List α} (h : l.length < B) : feed f B s l = (s, l) := by
  rw [feed, dif_neg (by omega)]

theorem feed_of_le (hB : 0 < B) {s : σ} {l : List α} (h : B ≤ l.length) :
    feed f B s l = feed f B (f s (l.take B)) (l.drop B) := by
  rw [feed, dif_pos ⟨hB, h⟩]

theorem feed_block (hB : 0 < B) {s : σ} {b l : List α} (hb : b.length = B) :
    feed f B s (b ++ l) = feed f B (f s b) l := by grind [feed_of_le]

/-- **What is left over is all that has to be remembered.** -/
theorem feed_append (hB : 0 < B) (s : σ) (l m : List α) :
    feed f B s (l ++ m) = feed f B (feed f B s l).1 ((feed f B s l).2 ++ m) := by
  induction hn : l.length using Nat.strongRecOn generalizing s l with
  | ind n ih =>
    by_cases h : B ≤ l.length
    · obtain ⟨b, r, rfl, hb⟩ : ∃ b r, l = b ++ r ∧ b.length = B :=
        ⟨l.take B, l.drop B, (take_append_drop B l).symm, by rw [length_take]; omega⟩
      grind [feed_block]
    · rw [feed_of_lt (l := l) (by omega)]

section

variable (hB : 0 < B) (s : σ) (l : List α)
include hB

theorem feed_snd_length : (feed f B s l).2.length = l.length % B := by
  induction hn : l.length using Nat.strongRecOn generalizing s l with
  | ind n ih =>
    by_cases h : B ≤ l.length
    · rw [feed_of_le hB h, ih (l.length - B) (by omega) _ _ (length_drop ..), ← hn,
        ← Nat.mod_eq_sub_mod h]
    grind [feed_of_lt, Nat.mod_eq_of_lt]

theorem feed_snd_lt : (feed f B s l).2.length < B := by
  rw [feed_snd_length hB]
  exact Nat.mod_lt _ hB

/-- **Block number by block number.** -/
theorem feed_eq_foldl : (feed f B s l).1 =
      (List.range (l.length / B)).foldl (fun s i => f s ((l.drop (B * i)).take B)) s := by
  induction hn : l.length using Nat.strongRecOn generalizing s l with
  | ind n ih =>
    by_cases h : B ≤ l.length
    · rw [feed_of_le hB h, ih (n - B) (by omega) _ _ (by rw [length_drop, hn]),
        Nat.div_eq_sub_div hB (show B ≤ n by omega), range_succ_eq_map, foldl_cons, foldl_map, Nat.mul_zero, drop_zero]
      simp only [drop_drop, Nat.succ_eq_add_one, Nat.mul_add, Nat.mul_one, Nat.add_comm B]
    grind [feed_of_lt, Nat.div_eq_of_lt]

theorem feed_snd_eq : (feed f B s l).2 = l.drop (B * (l.length / B)) := by
  induction hn : l.length using Nat.strongRecOn generalizing s l with
  | ind n ih =>
    by_cases h : B ≤ l.length
    · rw [feed_of_le hB h, ih (n - B) (by omega) _ _ (by rw [length_drop, hn]), drop_drop,
        Nat.div_eq_sub_div hB (show B ≤ n by omega), Nat.mul_add, Nat.mul_one, Nat.add_comm]
    · rw [feed_of_lt (by omega), Nat.div_eq_of_lt (by omega), Nat.mul_zero, drop_zero]

end

/-- **Two block functions that simulate each other** lead to related states. -/
theorem feed_sim {τ : Type*} {g : τ → List α → τ} {φ : σ → τ} (h : ∀ s b, φ (f s b) = g (φ s) b)
    (hB : 0 < B) (s : σ) (l : List α) : φ (feed f B s l).1 = (feed g B (φ s) l).1 := by
  rw [feed_eq_foldl hB, feed_eq_foldl hB]
  generalize List.range (l.length / B) = is
  induction is generalizing s with
  | nil => rfl
  | cons i is ih => rw [foldl_cons, foldl_cons, ih, h]

end Feed

/-! ## The buffer -/

variable {f B}

/-- **One piece more is one piece more**, for a buffer that holds less than a block. -/
theorem Buffered.update_eq (hB : 0 < B) {c : Buffered σ α} (hc : c.buf.length < B) (data : List α) :
    c.update f B data =
      { state := (feed f B c.state (c.buf ++ data)).1, buf := (feed f B c.state (c.buf ++ data)).2 } := by
  unfold Buffered.update
  by_cases h0 : 0 < c.buf.length
  · by_cases hlt : data.length < B - c.buf.length
    · rw [if_pos ⟨h0, hlt⟩, feed_of_lt (by rw [length_append]; omega)]
    · have hsplit : c.buf ++ data =
          (c.buf ++ data.take (B - c.buf.length)) ++ data.drop (B - c.buf.length) := by
        rw [append_assoc, take_append_drop]
      rw [if_neg (fun h => hlt h.2), if_pos h0, hsplit,
        feed_block hB (by grind)]
  grind

end Kobalt

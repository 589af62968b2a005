/-
  Subject: RING BUFFERS. An array of `n` cells with a read index, a write index and a count, and the
  queue it holds.
-/
import Mathlib.Data.List.Range
import Mathlib.Logic.Function.Basic

namespace Kobalt

open Function List

structure Ring (α : Type*) where
  buf : Nat → α
  rd : Nat
  wr : Nat
  len : Nat

namespace Ring

variable {α : Type*} {n : Nat} {r : Ring α}

/-- **What the ring holds**, oldest first. -/
def queue (n : Nat) (r : Ring α) : List α :=
  (List.range r.len).map fun i => r.buf ((r.rd + i) % n)

def push (n : Nat) (r : Ring α) (b : α) : Ring α where
  buf := update r.buf r.wr b
  rd := r.rd
  wr := (r.wr + 1) % n
  len := r.len + 1

def pop (n : Nat) (r : Ring α) : Ring α where
  buf := r.buf
  rd := (r.rd + 1) % n
  wr := r.wr
  len := r.len - 1

structure Wf (n : Nat) (r : Ring α) : Prop where
  rd_lt : r.rd < n
  len_le : r.len ≤ n
  wr_eq : r.wr = (r.rd + r.len) % n

@[simp] theorem queue_length : (r.queue n).length = r.len := by simp [queue]

theorem Wf.push (h : r.Wf n) (hl : r.len < n) (b : α) : (r.push n b).Wf n where
  rd_lt := h.rd_lt
  len_le := hl
  wr_eq := by
    change (r.wr + 1) % n = (r.rd + (r.len + 1)) % n
    rw [h.wr_eq, Nat.mod_add_mod, Nat.add_assoc]

theorem Wf.pop (h : r.Wf n) (hl : 0 < r.len) : (r.pop n).Wf n where
  rd_lt := Nat.mod_lt _ (Nat.zero_lt_of_lt h.rd_lt)
  len_le := (Nat.sub_le _ _).trans h.len_le
  wr_eq := by
    change r.wr = ((r.rd + 1) % n + (r.len - 1)) % n
    rw [h.wr_eq, Nat.mod_add_mod]
    congr 1
    omega

/-- Two cells of the queue, or a cell of it and the cell after it, are different cells. -/
theorem cell_ne (rd : Nat) {i j : Nat} (hij : i < j) (hj : j < n) : (rd + i) % n ≠ (rd + j) % n := by
  intro h
  have hd : n ∣ (rd + j) - (rd + i) := Nat.dvd_of_mod_eq_zero (Nat.sub_mod_eq_zero_of_mod_eq h.symm)
  have := Nat.le_of_dvd (by omega) hd
  omega

/-- **Writing at the write index appends.** -/
theorem queue_push (h : r.Wf n) (hl : r.len < n) (b : α) : (r.push n b).queue n = r.queue n ++ [b] := by
  have hwr : update r.buf r.wr b ((r.rd + r.len) % n) = b := by rw [h.wr_eq, update_self]
  rw [queue, queue]
  simp only [push, range_succ, map_append, map_cons, map_nil, hwr]
  congr 1
  refine map_congr_left fun i hi => update_of_ne ?_ _ _
  rw [h.wr_eq]
  exact cell_ne r.rd (mem_range.mp hi) hl

/-- **Moving the read index on takes the oldest.** -/
theorem queue_pop (h : r.Wf n) (hl : 0 < r.len) : r.queue n = r.buf r.rd :: (r.pop n).queue n := by
  obtain ⟨m, hm⟩ : ∃ m, r.len = m + 1 := ⟨r.len - 1, by omega⟩
  rw [queue, queue, hm, range_succ_eq_map]
  simp only [pop, hm, Nat.add_sub_cancel, map_cons, map_map, Nat.add_zero, Nat.mod_eq_of_lt h.rd_lt]
  congr 1
  refine map_congr_left fun i _ => ?_
  rw [comp_apply, Nat.mod_add_mod, Nat.succ_eq_add_one, Nat.add_assoc, Nat.add_comm i 1]

end Ring

end Kobalt

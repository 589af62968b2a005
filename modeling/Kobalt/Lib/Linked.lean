/-
  Subject: LISTS LINKED THROUGH MEMORY. The first eight bytes of every node hold the address of the
  next one, and address 0 ends the list.
-/
import Kobalt.Lib.Bytes
import Mathlib.Data.List.Nodup

namespace Kobalt

open List

/-- **The list of nodes from `head` on.** -/
def Linked (m : Bytes) : Nat → List Nat → Prop
  | head, [] => head = 0
  | head, a :: l => head = a ∧ a ≠ 0 ∧ Linked m (leAt m a 8) l

section Linked

variable {m m' : Bytes} {head a : Nat} {l : List Nat}

theorem Linked.congr (h : Linked m head l) (hm : ∀ a ∈ l, leAt m' a 8 = leAt m a 8) : Linked m' head l := by
  induction l generalizing head with
  | nil => exact h
  | cons a l ih =>
    obtain ⟨rfl, h0, ht⟩ := h
    refine ⟨rfl, h0, ?_⟩
    grind

/-- A list that does not start at address 0 has a first node, whose link word starts the rest. -/
theorem Linked.tail (h : Linked m head l) (h0 : head ≠ 0) :
    ∃ t, l = head :: t ∧ Linked m (leAt m head 8) t := by
  cases l with
  | nil => exact absurd h h0
  | cons a t =>
    obtain ⟨rfl, -, ht⟩ := h
    exact ⟨t, rfl, ht⟩

/-- **A node in front**: its link word is written, and meets no other link word. -/
theorem Linked.push (h : Linked m head l) (h0 : a ≠ 0) (hhead : head < 256 ^ 8)
    (hd : ∀ b ∈ l, b + 8 ≤ a ∨ a + 8 ≤ b) : Linked (putLE m a 8 head) a (a :: l) := by
  refine ⟨rfl, h0, ?_⟩
  grind [leAt_putLE_self, h.congr, leAt_putLE_of_disjoint]

end Linked

/-! ## Objects of one size -/

/-- The addresses of `n` objects of size `size` from `start` on. -/
def objects (start size n : Nat) : List Nat := (List.range n).map fun j => start + j * size

/-- Link them: the loop runs from the last object to the first; the store and the first object. -/
def linkObjects (m : Bytes) (start size n : Nat) : Bytes × Nat :=
  (List.range n).foldr (fun j acc => (putLE acc.1 (start + j * size) 8 acc.2, start + j * size)) (m, 0)

section Objects

variable {start size n : Nat}

theorem mem_objects {a : Nat} : a ∈ objects start size n ↔ ∃ j < n, a = start + j * size := by
  simp only [objects, mem_map, mem_range, eq_comm]

theorem objects_length : (objects start size n).length = n := by
  rw [objects, length_map, length_range]

theorem objects_nodup (hs : 0 < size) : (objects start size n).Nodup := by
  refine nodup_range.map fun i j hij => ?_
  exact Nat.eq_of_mul_eq_mul_right hs (Nat.add_left_cancel hij)

theorem row_disjoint (start size : Nat) {i j : Nat} (hij : i < j) : start + i * size + size ≤ start + j * size := by
  have h : i * size + size ≤ j * size := by
    rw [← Nat.succ_mul]
    exact Nat.mul_le_mul_right size hij
  omega

/-- **Linked from the last to the first**, by induction on the objects still to do; nothing outside
    the objects is written. -/
theorem linkObjects_spec (m : Bytes) (h0 : 0 < start) (h8 : 8 ≤ size) (hfit : start + n * size ≤ 256 ^ 8) :
    Linked (linkObjects m start size n).1 (linkObjects m start size n).2 (objects start size n) ∧
      ∀ x, x < start ∨ start + n * size ≤ x → (linkObjects m start size n).1 x = m x := by
  generalize hF : (fun (j : Nat) (acc : Bytes × Nat) =>
    (putLE acc.1 (start + j * size) 8 acc.2, start + j * size)) = F
  have key : ∀ len k, k + len = n →
      Linked ((List.range' k len).foldr F (m, 0)).1 ((List.range' k len).foldr F (m, 0)).2
        ((List.range' k len).map fun j => start + j * size) ∧
      ((List.range' k len).foldr F (m, 0)).2 < 256 ^ 8 ∧
      ∀ x, x < start ∨ start + n * size ≤ x → ((List.range' k len).foldr F (m, 0)).1 x = m x := by
    intro len
    induction len with
    | zero => exact fun k _ => ⟨rfl, Nat.pow_pos (by decide), fun x _ => rfl⟩
    | succ len ih =>
      intro k hk
      obtain ⟨hl, hlt, hout⟩ := ih (k + 1) (by omega)
      have hrow := row_disjoint start size (show k < n by omega)
      rw [range'_succ, foldr_cons, map_cons]
      generalize (List.range' (k + 1) len).foldr F (m, 0) = acc at hl hlt hout
      rw [← hF]
      refine ⟨hl.push (by omega) hlt fun b hb => .inr ?_, by dsimp only; omega, fun x hx => ?_⟩
      · obtain ⟨j, hj, rfl⟩ := mem_map.1 hb
        have hkj : k < j := (mem_range'_1.1 hj).1
        have := row_disjoint start size hkj
        omega
      · dsimp only
        rw [putLE, fill_of_not_mem (by omega)]
        exact hout x hx
  obtain ⟨hl, -, hout⟩ := key n 0 (Nat.zero_add n)
  grind [linkObjects, objects, range_eq_range']

theorem linkObjects_head (m : Bytes) (start size : Nat) (hn : 0 < n) : (linkObjects m start size n).2 = start := by
  obtain ⟨k, rfl⟩ := Nat.exists_eq_succ_of_ne_zero (Nat.pos_iff_ne_zero.1 hn)
  unfold linkObjects
  rw [range_succ_eq_map, foldr_cons, Nat.zero_mul]
  rfl

end Objects

end Kobalt

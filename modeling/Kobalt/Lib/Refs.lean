/-
  Subject: COUNTING REFERENCES. Slots hold references to objects; a call that runs holds some more
  in hand.
-/
import Mathlib.Data.Finset.Card
import Mathlib.Data.List.Count

namespace Kobalt

open Function Finset

variable {ι α : Type*} [DecidableEq α]

/-- **The references to an object**: the slots that hold it and those in hand. -/
def refs (S : Finset ι) (slot : ι → α) (l : List α) (a : α) : Nat :=
  (S.filter fun i => slot i = a).card + l.count a

variable {S : Finset ι} {slot : ι → α} {l : List α} {a b : α}

theorem refs_cons : refs S slot (b :: l) a = refs S slot l a + if b = a then 1 else 0 := by grind [refs]

theorem refs_cons_of_ne (h : b ≠ a) : refs S slot (b :: l) a = refs S slot l a := by
  rw [refs_cons, if_neg h, Nat.add_zero]

theorem refs_cons_self : refs S slot (a :: l) a = refs S slot l a + 1 := by
  rw [refs_cons, if_pos rfl]

theorem refs_congr {slot' : ι → α} (h : ∀ i ∈ S, slot' i = slot i) : refs S slot' l a = refs S slot l a := by
  grind [filter_congr, refs]

theorem refs_pos {i : ι} (hi : i ∈ S) (h : slot i = a) : 0 < refs S slot l a :=
  Nat.add_pos_left (card_pos.mpr ⟨i, mem_filter.mpr ⟨hi, h⟩⟩) _

theorem exists_of_refs_pos (h : 0 < refs S slot [] a) : ∃ i ∈ S, slot i = a := by
  rw [refs, List.count_nil, Nat.add_zero] at h
  obtain ⟨i, hi⟩ := card_pos.mp h
  grind

/-- **Storing exchanges**: the slot's old reference is in hand afterwards, the new one before. -/
theorem refs_store [DecidableEq ι] {i : ι} (hi : i ∈ S) (v : α) (l : List α) (a : α) :
    refs S (update slot i v) (slot i :: l) a = refs S slot (v :: l) a := by
  obtain ⟨T, hT, rfl⟩ : ∃ T, i ∉ T ∧ S = insert i T :=
    ⟨S.erase i, notMem_erase i S, (insert_erase hi).symm⟩
  have hrest : (T.filter fun j => update slot i v j = a) = T.filter fun j => slot j = a := by
    refine filter_congr fun j hj => ?_
    rw [update_of_ne (ne_of_mem_of_not_mem hj hT)]
  have hmem : ∀ f : ι → α, i ∉ T.filter fun j => f j = a :=
    fun f h => hT (mem_filter.mp h).1
  rw [refs_cons, refs_cons, refs, refs, filter_insert, filter_insert, hrest, update_self]
  grind

/-- A count of slots, when one of them changes. -/
theorem refs_flip [DecidableEq ι] {p q : ι → Bool} {i : ι} {b : Bool} (hi : i ∈ S) (h : ∀ j ∈ S, q j = update p i b j) :
    refs S q [] true + (if p i = true then 1 else 0) = refs S p [] true + if b = true then 1 else 0 := by
  have hs : refs S (update p i b) _ true = _ := refs_store hi b [] true
  rwa [refs_cons, refs_cons, ← refs_congr h] at hs

end Kobalt

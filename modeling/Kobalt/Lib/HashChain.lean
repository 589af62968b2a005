/-
  Subject: HASH CHAINS. A list of records, oldest first, in which every record carries the digest of
  the one before it, and the first carries a fixed digest.
-/
import Mathlib.Data.List.Chain

namespace Kobalt

open List

variable {R D : Type*} (link prev : R → D) (zero : D)

/-- The record `b` carries the digest of `a`. -/
def Follows (a b : R) : Prop := prev b = link a

/-- The digest that the next record has to carry. -/
def lastDigest (l : List R) : D := (l.getLast?.map link).getD zero

structure Chained (l : List R) : Prop where
  links : l.IsChain (Follows link prev)
  first : ∀ r ∈ l.head?, prev r = zero

variable {link prev zero} {l w : List R} {r : R}

theorem Chained.nil : Chained link prev zero [] := ⟨.nil, fun _ h => nomatch h⟩

@[simp] theorem lastDigest_concat : lastDigest link zero (l ++ [r]) = link r := by simp [lastDigest]

theorem Chained.concat (h : Chained link prev zero l) (hr : prev r = lastDigest link zero l) :
    Chained link prev zero (l ++ [r]) := by
  refine ⟨h.links.append (.singleton r) fun a ha b hb => ?_, fun a ha => ?_⟩
  · obtain rfl : r = b := Option.some.inj hb
    have ha : l.getLast? = some a := ha
    rw [lastDigest, ha] at hr
    exact hr
  · cases l with
    | nil =>
      obtain rfl : r = a := Option.some.inj ha
      exact hr
    | cons b l => exact h.first a ha

/-- **A part of the chain**: whoever can only rearrange records of a chain and keeps every one behind the one
    whose digest it carries has a part of the chain without gaps. -/
theorem Chained.segment (h : Chained link prev zero l) (hinj : Function.Injective link)
    (hz : ∀ r, link r ≠ zero) :
    ∀ {w : List R}, w.IsChain (Follows link prev) → (∀ r ∈ w, r ∈ l) → w <:+: l := by
  intro w
  induction w with
  | nil => exact fun _ _ => ⟨[], l, rfl⟩
  | cons r w ih =>
    intro hw hm
    cases w with
    | nil =>
      obtain ⟨l₁, l₂, he⟩ := append_of_mem (hm r mem_cons_self)
      exact ⟨l₁, l₂, by simp [he]⟩
    | cons r' w =>
      obtain ⟨hfol, hw⟩ := isChain_cons_cons.1 hw
      obtain ⟨l₁, l₂, he⟩ := ih hw fun x hx => hm x (mem_cons_of_mem _ hx)
      -- the record before this part carries over: it is the one whose digest is carried
      rcases eq_nil_or_concat' l₁ with rfl | ⟨l₀, x, rfl⟩
      · have hf := h.first r' (by rw [← he]; rfl)
        exact absurd (hfol.symm.trans hf) (hz r)
      · have hx : Follows link prev x r' := by
          have hl := h.links
          rw [← he] at hl
          simp only [append_assoc, cons_append] at hl
          exact (isChain_append_cons_cons.1 hl).2.1
        obtain rfl : x = r := hinj (hx.symm.trans hfol)
        exact ⟨l₀, l₂, by rw [← he]; simp⟩

theorem Chained.links_of_segment (h : Chained link prev zero l) (hw : w <:+: l) :
    w.IsChain (Follows link prev) := by
  obtain ⟨l₁, l₂, rfl⟩ := hw
  exact h.links.left_of_append.right_of_append

end Kobalt

/-
  Subject: LISTS OF WRITES: what a list of writes, first to last, leaves at a place.
-/
import Mathlib.Data.Option.Basic

namespace Kobalt

variable {ι α : Type*} [DecidableEq ι] {ws vs : List (ι × α)} {b : ι}

/-- **The last write to a place.** -/
def lastWrite : List (ι × α) → ι → Option α
  | [], _ => none
  | w :: ws, b => (lastWrite ws b).or (if w.1 = b then some w.2 else none)

theorem lastWrite_append (ws vs : List (ι × α)) (b : ι) :
    lastWrite (ws ++ vs) b = (lastWrite vs b).or (lastWrite ws b) := by
  induction ws with
  | nil => simp [lastWrite]
  | cons w ws ih => rw [List.cons_append, lastWrite, ih, lastWrite, Option.or_assoc]

theorem getD_lastWrite_append (ws vs : List (ι × α)) (b : ι) (v : α) :
    (lastWrite (ws ++ vs) b).getD v = (lastWrite vs b).getD ((lastWrite ws b).getD v) := by
  grind [lastWrite_append]

end Kobalt

/-
  Subject: RUNS OF A STEP FUNCTION. A system is a function from a state and an input to an output
  and a next state; a run is what finitely many inputs leave behind.
-/
import Mathlib.Data.List.Basic
import Mathlib.Logic.Function.Basic

namespace Kobalt

variable {σ ι ο : Type*}

/-- What a run was asked and what it answered, newest first. -/
abbrev Log (ι ο : Type*) := List (ι × ο)

/-- **The states a step function reaches**, with the log. The condition `ok` is asked of the state
    before each step and of the input of that step. -/
inductive Reach (ok : σ → ι → Prop) (step : σ → ι → ο × σ) (s0 : σ) : Log ι ο → σ → Prop where
  | start : Reach ok step s0 [] s0
  | step (h : Log ι ο) (s : σ) (i : ι) (hr : Reach ok step s0 h s) (hi : ok s i) :
      Reach ok step s0 ((i, (step s i).1) :: h) (step s i).2

/-- Every input is admitted in every state. -/
def anyInput (_ : σ) (_ : ι) : Prop := True

section Rules

variable {ok ok' : σ → ι → Prop} {step : σ → ι → ο × σ} {s0 : σ}

/-- **The invariant rule**: kept by every admitted step, so true of everything reached. -/
theorem Reach.inv {I : Log ι ο → σ → Prop} (h0 : I [] s0)
    (hs : ∀ h s i, I h s → ok s i → I ((i, (step s i).1) :: h) (step s i).2)
    {h : Log ι ο} {s : σ} (hr : Reach ok step s0 h s) : I h s := by
  induction hr with
  | start => exact h0
  | step h s i _ hi ih => exact hs h s i ih hi

theorem Reach.invState {I : σ → Prop} (h0 : I s0) (hs : ∀ s i, I s → ok s i → I (step s i).2)
    {h : Log ι ο} {s : σ} (hr : Reach ok step s0 h s) : I s :=
  hr.inv (I := fun _ s => I s) h0 fun _ s i hI hi => hs s i hI hi

theorem Reach.next {h : Log ι ο} {s s' : σ} (hr : Reach ok step s0 h s) {i : ι} {o : ο}
    (hi : ok s i) (he : step s i = (o, s')) : Reach ok step s0 ((i, o) :: h) s' := by
  have := Reach.step h s i hr hi
  rw [he] at this
  exact this

/-- A step whose answer is known. -/
theorem Reach.eval {h : Log ι ο} {s : σ} (hr : Reach ok step s0 h s) {i : ι} {o : ο} (hi : ok s i)
    (ho : (step s i).1 = o) : Reach ok step s0 ((i, o) :: h) (step s i).2 := by
  rw [← ho]
  exact .step h s i hr hi

theorem Reach.mono (hok : ∀ s i, ok s i → ok' s i) {h : Log ι ο} {s : σ}
    (hr : Reach ok step s0 h s) : Reach ok' step s0 h s := by
  induction hr with
  | start => exact .start
  | step h s i _ hi ih => exact .step h s i ih (hok s i hi)

/-- **The log and the state a list of inputs leaves behind**, from a log and a state. -/
def runLog (step : σ → ι → ο × σ) : Log ι ο × σ → List ι → Log ι ο × σ
  | x, [] => x
  | x, i :: is => runLog step ((i, (step x.2 i).1) :: x.1, (step x.2 i).2) is

theorem Reach.runLog (is : List ι) : ∀ {x : Log ι ο × σ}, Reach anyInput step s0 x.1 x.2 →
    Reach anyInput step s0 (runLog step x is).1 (runLog step x is).2 := by
  induction is with
  | nil => exact id
  | cons i is ih => exact fun hr => ih (.step _ _ i hr trivial)

end Rules

/-! ## Answers -/

/-- **What a list of inputs is answered**, in order. -/
def answers (step : σ → ι → ο × σ) : σ → List ι → List ο
  | _, [] => []
  | s, i :: is => (step s i).1 :: answers step (step s i).2 is

/-- **The simulation rule**: if related states answer every admitted input alike and stay related,
    every list of admitted inputs is answered alike. -/
theorem answers_eq_of_sim {τ : Type*} {step : σ → ι → ο × σ} {step' : τ → ι → ο × τ}
    {ok : ι → Prop} {R : σ → τ → Prop}
    (hs : ∀ s t i, R s t → ok i → (step s i).1 = (step' t i).1 ∧ R (step s i).2 (step' t i).2) :
    ∀ (is : List ι) {s : σ} {t : τ}, R s t → (∀ i ∈ is, ok i) → answers step s is = answers step' t is := by
  intro is
  induction is with
  | nil => exact fun _ _ => rfl
  | cons i is ih =>
    intro s t hR hok
    obtain ⟨ha, hR'⟩ := hs s t i hR (hok i List.mem_cons_self)
    rw [answers, answers, ha, ih hR' fun j hj => hok j (List.mem_cons_of_mem _ hj)]

end Kobalt

/-
  Subject: THE COUNTER OF AN EVENTFD (`eventfd_read`, `eventfd_write`), step by step.

  A reader loads the counter and stores 0 under the lock; a writer adds without the lock. What is added
  between the load and the store is lost. A semaphore decrements in one step and loses nothing.
-/
import Kobalt.Kapi.Pipe

namespace Kobalt.Kapi

open Function

/-! ## 1. The code -/

/-- Where a thread is: in no call; in `eventfd_read` behind the lock, the load and the copy of `v`, and before the
    unlock; in `eventfd_write` before the addition. -/
inductive EfdPc where
  | out
  | locked
  | loaded (v : Nat)
  | copied (v : Nat)
  | leaving (ret : Int)
  | adding (add : Nat)

/-- `kpz_eventfd_t` with the threads. The sums count a write with its addition and a read with its store, and
    what stores overwrite behind the load. -/
structure Efd where
  val : Nat
  lk : Bool := false
  pc : Nat → EfdPc := fun _ => .out
  written : Nat := val
  returned : Nat := 0
  lost : Nat := 0

inductive EfdOp where
  | read (t len : Nat)
  | write (t len add : Nat)
  | step (t : Nat)

def Efd.goto (s : Efd) (t : Nat) (k : EfdPc) : Efd := { s with pc := update s.pc t k }

/-- A call begins, or a thread takes its next step; a call that ends shows what it returns. -/
def efdStep (semaphore : Bool) (s : Efd) : EfdOp → Option Int × Efd
  | .read t len =>
    match s.pc t with
    | .out =>
      if len < 8 then (some (kpzErr .inval), s)
      -- the thread spins while the lock is taken
      else if s.lk then (none, s) else (none, { s.goto t .locked with lk := true })
    | _ => (none, s)
  | .write t len add =>
    match s.pc t with
    | .out =>
      if len < 8 then (some (kpzErr .inval), s)
      else if add = 2 ^ 64 - 1 then (some (kpzErr .inval), s) else (none, s.goto t (.adding add))
    | _ => (none, s)
  | .step t =>
    match s.pc t with
    | .out => (none, s)
    | .locked => (none, s.goto t (if s.val = 0 then .leaving (kpzErr .again) else .loaded s.val))
    | .loaded v => (none, s.goto t (.copied v))
    | .copied v =>
      if semaphore then
        (none, { s.goto t (.leaving 8) with val := (s.val + (2 ^ 64 - 1)) % 2 ^ 64, returned := s.returned + 1 })
      else
        (none, { s.goto t (.leaving 8) with
          val := 0, returned := s.returned + v, lost := s.lost + (s.val - v) })
    | .leaving ret => (some ret, { s.goto t .out with lk := false })
    | .adding add =>
      (some 8, { s.goto t .out with val := (s.val + add) % 2 ^ 64, written := s.written + add })

/-! ## 2. The sums -/

/-- No addition takes the counter above 2^64 - 2. -/
def noWrap (s : Efd) : EfdOp → Bool
  | .step t => match s.pc t with
    | .adding add => s.val + add < 2 ^ 64 - 1
    | _ => true
  | _ => true

/-- The thread holds the lock. -/
@[grind =]
def EfdPc.inside : EfdPc → Bool
  | .out => false
  | .adding _ => false
  | _ => true

structure EfdInv (semaphore : Bool) (s : Efd) : Prop where
  lock : ∀ t, (s.pc t).inside = true → s.lk = true
  alone : ∀ t t', (s.pc t).inside = true → (s.pc t').inside = true → t = t'
  seen : ∀ t v, s.pc t = .loaded v ∨ s.pc t = .copied v → 0 < v ∧ v ≤ s.val
  small : s.val < 2 ^ 64 - 1
  sums : s.written = s.returned + s.val + s.lost
  whole : semaphore = true → s.lost = 0

/-- **One step.** Only the thread that holds the lock has seen the counter, and what it has seen only grows. -/
theorem efdStep_inv {semaphore : Bool} {s : Efd} {op : EfdOp} (h : EfdInv semaphore s) (ho : noWrap s op = true) :
    EfdInv semaphore (efdStep semaphore s op).2 := by
  have hI := h
  obtain ⟨hlock, halone, hseen, hsmall, hsums, hwhole⟩ := h
  cases op with
  | read t len =>
    simp only [efdStep, Efd.goto]
    split
    · split_ifs with hlen hlk
      · exact hI
      · exact hI
      · constructor <;> grind -linarith
    · exact hI
  | write t len add =>
    simp only [efdStep, Efd.goto]
    split
    · split_ifs with hlen hadd
      · exact hI
      · exact hI
      · constructor <;> grind -linarith
    · exact hI
  | step t =>
    simp only [efdStep, Efd.goto]
    cases hpc : s.pc t with
    | out => exact hI
    | locked => constructor <;> grind -linarith
    | loaded v => constructor <;> grind -linarith
    | copied v =>
      obtain ⟨hpos, hle⟩ := hseen t v (.inr hpc)
      dsimp only
      split_ifs with hsem
      · have hval : (s.val + (2 ^ 64 - 1)) % 2 ^ 64 = s.val - 1 := by omega
        rw [hval]
        constructor <;> grind -linarith
      · constructor <;> grind -linarith
    | leaving ret => constructor <;> grind -linarith
    | adding add =>
      have hadd : s.val + add < 2 ^ 64 - 1 := by simpa [noWrap, hpc] using ho
      have hval : (s.val + add) % 2 ^ 64 = s.val + add := Nat.mod_eq_of_lt (by omega)
      dsimp only
      rw [hval]
      constructor <;> grind -linarith

/-- What a reader overwrites by its store is what it has loaded. -/
def storesSeen (semaphore : Bool) (s : Efd) : EfdOp → Prop
  | .step t => ∀ v, s.pc t = .copied v → semaphore = false → s.val = v
  | _ => True

theorem efdStep_lost {semaphore : Bool} {s : Efd} {op : EfdOp} (h : EfdInv semaphore s) :
    (efdStep semaphore s op).2.lost = 0 ↔ s.lost = 0 ∧ storesSeen semaphore s op := by
  cases op with
  | read t len => grind [efdStep, Efd.goto, storesSeen]
  | write t len add => grind [efdStep, Efd.goto, storesSeen]
  | step t =>
    cases hpc : s.pc t with
    | copied v =>
      have hle := (h.seen t v (.inr hpc)).2
      cases semaphore with
      | true => simp [efdStep, storesSeen, hpc, Efd.goto]
      | false =>
        simp only [efdStep, storesSeen, hpc, Bool.false_eq_true, if_false, EfdPc.copied.injEq, forall_eq', forall_const]
        omega
    | _ => simp [efdStep, storesSeen, hpc, Efd.goto]

/-- Runs in which no addition wraps. -/
abbrev EfdRun (semaphore : Bool) (initval : Nat) :=
  Reach (fun s op => noWrap s op = true) (efdStep semaphore) { val := initval }

/-- Besides, no reader stores over an addition. -/
abbrev EfdKept (semaphore : Bool) (initval : Nat) :=
  Reach (fun s op => noWrap s op = true ∧ storesSeen semaphore s op) (efdStep semaphore) { val := initval }

/-- **What was written was returned or is still there, exactly if no store overwrote an addition**: in every run of
    any number of threads in which no addition wraps. A semaphore loses nothing. -/
theorem eventfd_conserves_iff (semaphore : Bool) (initval : Nat) (h0 : initval < 2 ^ 64 - 1)
    (h : Log EfdOp (Option Int)) (s : Efd) (hr : EfdRun semaphore initval h s) :
    s.val ≤ 2 ^ 64 - 2 ∧ (s.written = s.returned + s.val ↔ EfdKept semaphore initval h s) ∧
      (semaphore = true → s.written = s.returned + s.val) := by
  have hstart : EfdInv semaphore { val := initval } := ⟨nofun, nofun, by simp, h0, by simp, fun _ => rfl⟩
  have hinv : ∀ {h s}, EfdRun semaphore initval h s → EfdInv semaphore s := fun hr =>
    hr.invState hstart fun s op hI ho => efdStep_inv hI ho
  have hsums := (hinv hr).sums
  have hsmall := (hinv hr).small
  have hkept : s.lost = 0 ↔ EfdKept semaphore initval h s := by
    refine ⟨fun hl => ?_, fun hk => ?_⟩
    · clear hsums hsmall
      induction hr with
      | start => exact .start
      | step h s op hr ho ih =>
        obtain ⟨hs, hseen⟩ := (efdStep_lost (hinv hr)).1 hl
        exact .step h s op (ih hs) ⟨ho, hseen⟩
    · exact (hk.invState (I := fun s => EfdInv semaphore s ∧ s.lost = 0) ⟨hstart, rfl⟩ fun s op hI ho =>
        ⟨efdStep_inv hI.1 ho.1, (efdStep_lost hI.1).2 ⟨hI.2, ho.2⟩⟩).2
  refine ⟨by omega, ?_, fun hsem => ?_⟩
  · rw [← hkept]
    omega
  · have := (hinv hr).whole hsem
    omega

/-- A write of 3 is read whole while 4 are about to be written. -/
theorem eventfd_conserves_waiting : ∃ h s, EfdRun false 0 h s ∧ s.returned = 3 ∧
    (s.written = s.returned + s.val ↔ EfdKept false 0 h s) := by
  have hr : EfdRun false 0 _ _ := .step _ _ (.step 2) (.step _ _ (.step 0) (.step _ _ (.step 0) (.step _ _ (.write 2 8 4)
    (.step _ _ (.step 0) (.step _ _ (.read 0 8) (.step _ _ (.step 1) (.step _ _ (.write 1 8 3) .start rfl) rfl) rfl) rfl)
    rfl) rfl) rfl) rfl
  exact ⟨_, _, hr, rfl, (eventfd_conserves_iff false 0 (by decide) _ _ hr).2.1⟩

/-- **A write is lost**: 1 is there, a reader has loaded it, 5 is added, and the reader stores 0. Both calls have
    returned 8. -/
theorem eventfd_write_lost : ∃ h s, EfdRun false 1 h s ∧ h.filterMap Prod.snd = [8, 8] ∧ s.lk = false ∧
    s.written = 6 ∧ s.returned = 1 ∧ s.val = 0 := by
  have hr : EfdRun false 1 _ _ := .step _ _ (.step 0) (.step _ _ (.step 0) (.step _ _ (.step 1) (.step _ _ (.write 1 8 5)
    (.step _ _ (.step 0) (.step _ _ (.step 0) (.step _ _ (.read 0 8) .start rfl) rfl) rfl) rfl) rfl) rfl) rfl
  exact ⟨_, _, hr, rfl, rfl, rfl, rfl, rfl⟩

end Kobalt.Kapi

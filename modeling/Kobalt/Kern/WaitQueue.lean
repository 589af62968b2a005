/-
  Subject: WAIT QUEUES (`kern/waitqueue.c`) over the scheduler: waiters put themselves on a list and
  block, wakers take threads off the list and unblock them.

  Each critical section is one step. A waiter is BETWEEN its two steps (`entering`) while it is on
  the list and still runs; a waker that has taken threads off the list HOLDS them until it has
  called `sched_unblock` on each (`Waker`). The scheduler takes any steps in between.
-/
import Kobalt.Kern.Sched

namespace Kobalt.Kern

open Function List

/-! ## 1. The code -/

/-- Where a call of `wq_wake_one` or `wq_wake_all` is after its critical section. -/
inductive Waker where
  /-- in no call -/
  | away
  /-- `wq_wake_one` before `sched_unblock(t)` -/
  | one (t : Nat)
  /-- `wq_wake_all` before a round of its loop -/
  | walk (list : Nat)
  /-- `wq_wake_all` before `sched_unblock(t)`; `next` is the next round's thread -/
  | cut (t next : Nat)

structure WaitSys where
  sched : Sched
  /-- `wq->head` -/
  head : Nat
  /-- `t->wq_next` -/
  wqNext : Nat → Nat
  waker : Nat → Waker
  /-- the threads between the two critical sections of `wq_wait` -/
  entering : List Nat
  /-- the threads whose latest `sched_block` is the one of `wq_wait` -/
  parked : List Nat

def WaitSys.start (s : Sched) : WaitSys where
  sched := s
  head := 0
  wqNext := fun _ => 0
  waker := fun _ => .away
  entering := []
  parked := []

section Code

variable (s : WaitSys)

/-- `wq_wait` under `wq->lock`, on the processor `c`. -/
def wqWait (c : Nat) : Option WaitSys :=
  let cur := (s.sched.rqs c).current
  if cur = 0 then none
  else some { s with
    wqNext := update s.wqNext cur s.head
    head := cur
    entering := cur :: s.entering
    parked := s.parked.filter (· ≠ cur) }

/-- The `sched_block` of `wq_wait`. -/
def wqBlock (c : Nat) : Option WaitSys := do
  let cur := (s.sched.rqs c).current
  let sched ← schedBlock s.sched c
  some { s with sched := sched, entering := s.entering.filter (· ≠ cur), parked := cur :: s.parked }

/-- `wq_wake_one` under `wq->lock`. -/
def wqWakeOne (w : Nat) : WaitSys :=
  let t := s.head
  if t = 0 then s
  else { s with
    head := s.wqNext t
    wqNext := update s.wqNext t 0
    waker := update s.waker w (.one t) }

/-- `wq_wake_all` under `wq->lock`. -/
def wqWakeAll (w : Nat) : WaitSys :=
  { s with head := 0, waker := update s.waker w (.walk s.head) }

/-- The start of a round of `wq_wake_all`: `next = list->wq_next; list->wq_next = NULL`. -/
def wqWalk (w : Nat) : WaitSys :=
  match s.waker w with
  | .walk list =>
    if list = 0 then { s with waker := update s.waker w .away }
    else { s with
      wqNext := update s.wqNext list 0
      waker := update s.waker w (.cut list (s.wqNext list)) }
  | _ => s

/-- The `sched_unblock` of a waker. -/
def wqUnblock (w : Nat) : Option WaitSys :=
  match s.waker w with
  | .one t => do
    let sched ← schedUnblock s.sched t (s.sched.thread t).cpu
    some { s with sched := sched, waker := update s.waker w .away }
  | .cut t next => do
    let sched ← schedUnblock s.sched t (s.sched.thread t).cpu
    some { s with sched := sched, waker := update s.waker w (.walk next) }
  | _ => some s

inductive WqOp where
  | wait (c : Nat)
  | block (c : Nat)
  | wakeOne (w : Nat)
  | wakeAll (w : Nat)
  | walk (w : Nat)
  | unblock (w : Nat)
  /-- a step of the scheduler that is none of these -/
  | sched (op : SchedOp)

/-- A thread that blocks elsewhere has left `wq_wait`. -/
def leftWait : SchedOp → List Nat
  | .block c => s.parked.filter (· ≠ (s.sched.rqs c).current)
  | _ => s.parked

def wqExec : WqOp → Option WaitSys
  | .wait c => wqWait s c
  | .block c => wqBlock s c
  | .wakeOne w => some (wqWakeOne s w)
  | .wakeAll w => some (wqWakeAll s w)
  | .walk w => some (wqWalk s w)
  | .unblock w => wqUnblock s w
  | .sched op => do
    let sched ← schedExec s.sched op
    some { s with sched := sched, parked := leftWait s op }

def wqStep (op : WqOp) : Bool × WaitSys :=
  match wqExec s op with
  | some s' => (true, s')
  | none => (false, s)

/-- **What the callers promise.** A waiter is no idle thread and is not in `wq_wait` yet; interrupts
    are off between its two steps, so its processor does nothing else; a waker is in one call at a
    time; the scheduler's own steps keep its queues in order, and only wakers unblock the threads
    that wait here. -/
def WqOp.Admissible : WqOp → Prop
  | .wait c => c < schedMaxCpus ∧ (s.sched.rqs c).current ≠ 0 ∧
      (s.sched.rqs c).current ≠ (s.sched.rqs c).idle ∧ (s.sched.rqs c).current ∉ s.entering
  | .block c => SchedOp.Admissible s.sched (.block c) ∧ SchedOp.Safe s.sched (.block c) ∧
      (s.sched.rqs c).current ∈ s.entering
  | .wakeOne w => s.waker w = .away
  | .wakeAll w => s.waker w = .away
  | .walk _ => True
  | .unblock _ => ∀ c < schedMaxCpus, (s.sched.rqs c).nrRunning + 1 < 2 ^ 32
  | .sched op => op.Admissible s.sched ∧ op.Safe s.sched ∧
      (∀ c, op.On c → (s.sched.rqs c).current ∉ s.entering) ∧
      ∀ t c, op = .unblockRun t c → ¬ (t ∈ s.parked ∧ (s.sched.thread t).state = .blocked)

/-- The thread a waker calls `sched_unblock` on next. -/
def Waker.target : Waker → Option Nat
  | .one t => some t
  | .cut t _ => some t
  | _ => none

/-- **When no wake-up is lost**: no thread is unblocked between its two steps. -/
def WqOp.Safe : WqOp → Prop
  | .unblock w => ∀ t ∈ (s.waker w).target, t ∉ s.entering
  | _ => True

end Code

/-! ## 2. Chains -/

/-- The chain of `wq_next` pointers from `p` on. -/
def Chain (next : Nat → Nat) : Nat → List Nat → Prop
  | p, [] => p = 0
  | p, a :: l => p = a ∧ a ≠ 0 ∧ Chain next (next a) l

/-- The threads a waker holds. -/
def Holds (next : Nat → Nat) : Waker → List Nat → Prop
  | .away, l => l = []
  | .one t, l => l = [t]
  | .walk list, l => Chain next list l
  | .cut t p, l => ∃ r, l = t :: r ∧ Chain next p r

/-- A thread is on the list of the wait queue. -/
def WaitSys.OnList (s : WaitSys) (t : Nat) : Prop := ∃ l, Chain s.wqNext s.head l ∧ t ∈ l

/-- A waker has taken the thread off the list and not called `sched_unblock` on it yet. -/
def WaitSys.Held (s : WaitSys) (t : Nat) : Prop := ∃ w l, Holds s.wqNext (s.waker w) l ∧ t ∈ l

section Chains

variable {next next' : Nat → Nat} {l : List Nat}

theorem Chain.congr (h : ∀ a ∈ l, next' a = next a) : ∀ {p : Nat}, Chain next p l → Chain next' p l := by
  induction l with
  | nil => exact id
  | cons a l ih =>
    rintro p ⟨hp, ha, hl⟩
    refine ⟨hp, ha, ?_⟩
    grind

theorem Holds.congr (h : ∀ a ∈ l, next' a = next a) {w : Waker} (hw : Holds next w l) : Holds next' w l := by
  cases w with
  | away => exact hw
  | one t => exact hw
  | walk list => exact Chain.congr h hw
  | cut t p =>
    obtain ⟨r, rfl, hr⟩ := hw
    exact ⟨r, rfl, hr.congr fun a ha => h a (mem_cons_of_mem _ ha)⟩

theorem Chain.eq_cons {p : Nat} (h : Chain next p l) (hp : p ≠ 0) :
    ∃ r, l = p :: r ∧ Chain next (next p) r := by
  cases l with
  | nil => exact absurd h hp
  | cons a r =>
    obtain ⟨rfl, -, hr⟩ := h
    exact ⟨r, rfl, hr⟩

theorem Chain.eq_nil (h : Chain next 0 l) : l = [] := by
  cases l with
  | nil => rfl
  | cons a r => exact absurd h.1.symm h.2.1

/-- Lists without repetition that share nothing. -/
structure Apart (F : Nat → List Nat) : Prop where
  nodup : ∀ i, (F i).Nodup
  disjoint : ∀ i j, i ≠ j → ∀ t ∈ F i, t ∉ F j

variable {F : Nat → List Nat} {i : Nat}

theorem Apart.update (h : Apart F) (hl : l.Nodup) (hd : ∀ t ∈ l, ∀ j, j ≠ i → t ∉ F j) :
    Apart (update F i l) where
  nodup j := by
    by_cases hj : j = i
    · subst hj
      rwa [update_self]
    · rw [update_of_ne hj]
      exact h.nodup j
  disjoint j k hjk t ht := by
    by_cases hj : j = i
    · grind
    · rw [update_of_ne hj] at ht
      by_cases hk : k = i
      · grind
      grind [h.disjoint]

theorem exists_mem_update {t : Nat} : (∃ j, t ∈ update F i l j) ↔ t ∈ l ∨ ∃ j, j ≠ i ∧ t ∈ F j := by
  constructor
  · grind
  · rintro (hl | ⟨j, e, hj⟩)
    · exact ⟨i, by rwa [update_self]⟩
    · exact ⟨j, by rwa [update_of_ne e]⟩

theorem exists_mem_split (i : Nat) {t : Nat} : (∃ j, t ∈ F j) ↔ t ∈ F i ∨ ∃ j, j ≠ i ∧ t ∈ F j := by grind

end Chains

/-! ## 3. The invariant -/

/-- A thread waits here: it is about to block, or it is blocked in `wq_wait`. -/
def WaitSys.Waits (s : WaitSys) (t : Nat) : Prop :=
  t ∈ s.entering ∨ (t ∈ s.parked ∧ (s.sched.thread t).state = .blocked)

/-- **The places of the waiting threads**: the list (`F 0`) and what each waker holds
    (`F (w + 1)`). -/
structure Places (s : WaitSys) (F : Nat → List Nat) : Prop where
  list : Chain s.wqNext s.head (F 0)
  held : ∀ w, Holds s.wqNext (s.waker w) (F (w + 1))
  apart : Apart F
  member : ∀ t, (∃ i, t ∈ F i) ↔ s.Waits t
  entering : ∀ t ∈ s.entering, t ≠ 0 ∧ ∃ c < schedMaxCpus, (s.sched.rqs c).current = t
  sched : SchedOk s.sched

section Steps

variable {s : WaitSys} {F : Nat → List Nat} {c w t : Nat}

section

variable (h : Places s F)
include h

theorem Places.not_placed (hc : c < schedMaxCpus)
    (h0 : (s.sched.rqs c).current ≠ 0) (he : (s.sched.rqs c).current ∉ s.entering) :
    ∀ i, (s.sched.rqs c).current ∉ F i := by
  intro i hi
  obtain ⟨L, -, hv⟩ := h.sched
  have hrun : (s.sched.thread (s.sched.rqs c).current).state = .running := (hv.running c hc h0).2.1
  rcases (h.member _).1 ⟨i, hi⟩ with hm | ⟨-, hb⟩
  · exact he hm
  · rw [hrun] at hb
    cases hb

theorem wqWait_ok (hc : c < schedMaxCpus) (h0 : (s.sched.rqs c).current ≠ 0)
    (he : (s.sched.rqs c).current ∉ s.entering) : ∃ s' F', wqWait s c = some s' ∧ Places s' F' := by
  have hout := h.not_placed hc h0 he
  generalize hcur : (s.sched.rqs c).current = cur
  rw [hcur] at h0 he hout
  refine ⟨_, update F 0 (cur :: F 0), by rw [wqWait, hcur, if_neg h0], ?_⟩
  have hnext : ∀ i, ∀ a ∈ F i, update s.wqNext cur s.head a = s.wqNext a := fun i a ha =>
    update_of_ne (fun e : a = cur => hout i (e ▸ ha)) ..
  refine ⟨?_, fun w => ?_, ?_, fun t => ?_, fun t ht => ?_, h.sched⟩
  · rw [update_self]
    refine ⟨rfl, h0, ?_⟩
    grind [h.list.congr]
  · rw [update_of_ne (Nat.succ_ne_zero w)]
    exact (h.held w).congr (hnext _)
  · grind [h.apart.update, h.apart.nodup, h.apart.disjoint]
  · have hm := h.member t
    rw [exists_mem_update]
    by_cases e : t = cur
    · subst e
      simp [WaitSys.Waits]
    · simp only [WaitSys.Waits, mem_cons, e, false_or, mem_filter, ne_eq, not_false_eq_true,
        decide_true, and_true]
      rw [← exists_mem_split]
      exact h.member t
  grind [h.entering]

theorem wqBlock_ok (ha : SchedOp.Admissible s.sched (.block c))
    (hs : SchedOp.Safe s.sched (.block c)) (he : (s.sched.rqs c).current ∈ s.entering) :
    ∃ s', wqBlock s c = some s' ∧ Places s' F := by
  obtain ⟨sched, hx, hok, heff⟩ := schedExec_ok h.sched ha hs
  refine ⟨{ s with
    sched := sched
    entering := s.entering.filter (· ≠ (s.sched.rqs c).current)
    parked := (s.sched.rqs c).current :: s.parked },
    by rw [wqBlock, show schedBlock s.sched c = some sched from hx]; rfl, h.list, h.held, h.apart,
    fun t => ?_, fun t ht => ?_, hok⟩
  · have hb : (sched.thread t).state = .blocked ↔
        (s.sched.thread t).state = .blocked ∨ t = (s.sched.rqs c).current := heff.blocked t
    rw [h.member t]
    grind [WaitSys.Waits]
  · simp only [mem_filter, decide_eq_true_eq] at ht
    obtain ⟨h0, d, hd, hdt⟩ := h.entering t ht.1
    have hdc : d ≠ c := fun e => ht.2 (by rw [← hdt, e])
    exact ⟨h0, d, hd, (heff.current d hdc).trans hdt⟩

/-- **A waker takes the front of the list**: the other chains are read through other threads. -/
theorem Places.taken (hw : s.waker w = .away) {l r : List Nat} (hF : F 0 = l ++ r)
    {next : Nat → Nat} {head : Nat} {k : Waker} (hrest : Chain next head r) (hk : Holds next k l)
    (hnext : ∀ a, a ∉ l → next a = s.wqNext a) :
    ∃ F', Places { s with head := head, wqNext := next, waker := update s.waker w k } F' := by
  have hempty : F (w + 1) = [] := by
    have := h.held w
    rwa [hw] at this
  obtain ⟨hl, hr, hlr⟩ := nodup_append.1 (hF ▸ h.apart.nodup 0)
  have hl0 : ∀ a ∈ l, a ∈ F 0 := fun a ha => hF ▸ mem_append_left _ ha
  have h1 : Apart (update F 0 r) := h.apart.update hr fun a ha j hj =>
    h.apart.disjoint 0 j hj.symm a (hF ▸ mem_append_right _ ha)
  refine ⟨update (update F 0 r) (w + 1) l, ?_, fun v => ?_, ?_, fun u => ?_, h.entering, h.sched⟩
  · rw [update_of_ne (Nat.succ_ne_zero w).symm, update_self]
    exact hrest
  · by_cases hv : v = w
    · subst hv
      simp only [update_self]
      exact hk
    · have hne : v + 1 ≠ w + 1 := fun e => hv (Nat.succ.inj e)
      simp only [update_of_ne hv, update_of_ne hne, update_of_ne (Nat.succ_ne_zero v)]
      exact (h.held v).congr fun a ha => hnext a fun hal =>
        h.apart.disjoint 0 (v + 1) (Nat.succ_ne_zero v).symm a (hl0 a hal) ha
  · refine h1.update hl fun a ha j hj => ?_
    by_cases hj0 : j = 0
    · subst hj0
      rw [update_self]
      exact fun har => hlr a ha a har rfl
    · rw [update_of_ne hj0]
      exact h.apart.disjoint 0 j (Ne.symm hj0) a (hl0 a ha)
  · rw [exists_mem_update]
    refine Iff.trans ⟨fun hu => ?_, ?_⟩ (h.member u)
    · grind
    · rintro ⟨j, hj⟩
      by_cases hj0 : j = 0
      · rw [hj0, hF] at hj
        exact (mem_append.1 hj).imp_right fun hur => ⟨0, (Nat.succ_ne_zero w).symm, by rwa [update_self]⟩
      · refine .inr ⟨j, fun e => ?_, by rwa [update_of_ne hj0]⟩
        grind

theorem wqWakeOne_ok (hw : s.waker w = .away) : ∃ F', Places (wqWakeOne s w) F' := by
  unfold wqWakeOne
  by_cases h0 : s.head = 0
  · exact ⟨F, by rw [if_pos h0]; exact h⟩
  rw [if_neg h0]
  obtain ⟨r, hr, hchain⟩ := h.list.eq_cons h0
  have hnd := h.apart.nodup 0
  rw [hr] at hnd
  refine h.taken (l := [s.head]) hw hr (hchain.congr fun a ha => update_of_ne (fun e => ?_) ..) rfl
    fun a ha => update_of_ne (ne_of_not_mem_cons ha) ..
  exact (nodup_cons.1 hnd).1 (e ▸ ha)

theorem wqWakeAll_ok (hw : s.waker w = .away) : ∃ F', Places (wqWakeAll s w) F' :=
  h.taken hw (append_nil _).symm rfl h.list fun _ _ => rfl

theorem wqWalk_ok : Places (wqWalk s w) F := by
  unfold wqWalk
  split
  swap
  · exact h
  next list hw =>
  have hheld := h.held w
  rw [hw] at hheld
  have hother : ∀ v, v ≠ w → ∀ k, update s.waker w k v = s.waker v := fun v hv k => update_of_ne hv ..
  by_cases h0 : list = 0
  · rw [if_pos h0]
    subst h0
    refine ⟨h.list, fun v => ?_, h.apart, h.member, h.entering, h.sched⟩
    by_cases hv : v = w
    · subst hv
      simp only [update_self]
      exact Chain.eq_nil hheld
    · simp only [hother v hv]
      exact h.held v
  · rw [if_neg h0]
    obtain ⟨r, hr, hchain⟩ := Chain.eq_cons hheld h0
    have hnd := h.apart.nodup (w + 1)
    rw [hr] at hnd
    have hlr : list ∉ r := (nodup_cons.1 hnd).1
    have hl : list ∈ F (w + 1) := hr ▸ mem_cons_self
    have hnext : ∀ i, i ≠ w + 1 → ∀ a ∈ F i, update s.wqNext list 0 a = s.wqNext a := fun i hi a ha =>
      update_of_ne (fun e : a = list => h.apart.disjoint (w + 1) i hi.symm list hl (e ▸ ha)) ..
    refine ⟨h.list.congr (hnext 0 (Nat.succ_ne_zero w).symm), fun v => ?_, h.apart, h.member, h.entering,
      h.sched⟩
    by_cases hv : v = w
    · subst hv
      simp only [update_self]
      exact ⟨r, hr, hchain.congr fun a ha => update_of_ne (fun e : a = list => hlr (e ▸ ha)) ..⟩
    · simp only [hother v hv]
      exact (h.held v).congr (hnext _ fun e => hv (Nat.succ.inj e))

theorem unblocked_ok (hroom : ∀ c < schedMaxCpus, (s.sched.rqs c).nrRunning + 1 < 2 ^ 32)
    {r : List Nat} (hF : F (w + 1) = t :: r) (ht : t ∉ s.entering) {k : Waker} (hk : Holds s.wqNext k r) :
    ∃ sched, schedUnblock s.sched t (s.sched.thread t).cpu = some sched ∧
      Places { s with sched := sched, waker := update s.waker w k } (update F (w + 1) r) := by
  have hmem : t ∈ F (w + 1) := hF ▸ mem_cons_self
  obtain ⟨hp, hb⟩ := ((h.member t).1 ⟨_, hmem⟩).resolve_left ht
  obtain ⟨L, hq, hv⟩ := h.sched
  obtain ⟨sched, hx, hok, heff⟩ := schedUnblock_ok hq hv (room_of_safe hq hroom) (hv.blocked t hb)
    (c := (s.sched.thread t).cpu) (fun _ => rfl)
  have hnd := h.apart.nodup (w + 1)
  rw [hF] at hnd
  have hr : ∀ a ∈ r, a ∈ F (w + 1) := fun a ha => hF ▸ mem_cons_of_mem _ ha
  refine ⟨sched, hx, ?_, fun v => ?_, ?_, fun u => ?_, fun u hu => ?_, hok⟩
  · rw [update_of_ne (Nat.succ_ne_zero w).symm]
    exact h.list
  · by_cases hv' : v = w
    · grind
    · have hne : v + 1 ≠ w + 1 := fun e => hv' (Nat.succ.inj e)
      grind [h.held]
  · exact h.apart.update (nodup_cons.1 hnd).2 fun a ha j hj =>
      h.apart.disjoint (w + 1) j hj.symm a (hr a ha)
  · have hbu : (sched.thread u).state = .blocked ↔ (s.sched.thread u).state = .blocked ∧ u ≠ t :=
      heff.blocked u
    have hm := h.member u
    rw [exists_mem_split (w + 1), hF, mem_cons] at hm
    rw [exists_mem_update]
    simp only [WaitSys.Waits, hbu]
    by_cases e : u = t
    · subst e
      simp only [ne_eq, not_true_eq_false, and_false, or_false, ht, iff_false, not_or]
      refine ⟨(nodup_cons.1 hnd).1, ?_⟩
      rintro ⟨j, hj, hu⟩
      exact h.apart.disjoint (w + 1) j (Ne.symm hj) u hmem hu
    · simpa [e, WaitSys.Waits] using hm
  · obtain ⟨h0, c, hc, hcu⟩ := h.entering u hu
    exact ⟨h0, c, hc, (heff.current c id).trans hcu⟩

theorem wqUnblock_ok (hroom : ∀ c < schedMaxCpus, (s.sched.rqs c).nrRunning + 1 < 2 ^ 32)
    (hsafe : ∀ t ∈ (s.waker w).target, t ∉ s.entering) : ∃ s' F', wqUnblock s w = some s' ∧ Places s' F' := by
  have hheld := h.held w
  unfold wqUnblock
  cases hw : s.waker w with
  | away => exact ⟨s, F, rfl, h⟩
  | walk list => exact ⟨s, F, rfl, h⟩
  | one t =>
    rw [hw] at hheld hsafe
    obtain ⟨sched, hx, hp⟩ := unblocked_ok h hroom (k := .away) hheld (hsafe t rfl) rfl
    exact ⟨_, _, by simp only [hx]; rfl, hp⟩
  | cut t p =>
    rw [hw] at hheld hsafe
    obtain ⟨r, hr, hchain⟩ := hheld
    obtain ⟨sched, hx, hp⟩ := unblocked_ok h hroom (k := .walk p) hr (hsafe t rfl) hchain
    exact ⟨_, _, by simp only [hx]; rfl, hp⟩

theorem schedGoesOn_ok {op : SchedOp} (ha : op.Admissible s.sched)
    (hs : op.Safe s.sched) (hon : ∀ c, op.On c → (s.sched.rqs c).current ∉ s.entering)
    (hun : ∀ t c, op = .unblockRun t c → ¬ (t ∈ s.parked ∧ (s.sched.thread t).state = .blocked)) :
    ∃ s', wqExec s (.sched op) = some s' ∧ Places s' F := by
  obtain ⟨sched, hx, hok, heff⟩ := schedExec_ok h.sched ha hs
  refine ⟨{ s with sched := sched, parked := leftWait s op }, by rw [wqExec, hx]; rfl, h.list, h.held,
    h.apart, fun t => ?_, fun t ht => ?_, hok⟩
  · rw [h.member t]
    have hb : (sched.thread t).state = .blocked ↔ op.Blocked s.sched t := heff.blocked t
    simp only [WaitSys.Waits, hb]
    refine or_congr_right ?_
    cases op with
    | block c =>
      simp only [leftWait, SchedOp.Blocked, mem_filter, decide_eq_true_eq]
      obtain ⟨L, -, hv⟩ := h.sched
      have hrun : (s.sched.thread (s.sched.rqs c).current).state = .running :=
        (hv.running c ha.1 ha.2.1).2.1
      grind
    | unblockRun u c =>
      exact ⟨fun hp => ⟨hp.1, hp.2, fun e => hun u c rfl (e ▸ hp)⟩, fun hp => ⟨hp.1, hp.2.1⟩⟩
    | _ => exact Iff.rfl
  · obtain ⟨h0, c, hc, hct⟩ := h.entering t ht
    refine ⟨h0, c, hc, (heff.current c fun hc' => ?_).trans hct⟩
    exact hon c hc' (by rw [hct]; exact ht)

end

end Steps

/-! ## 4. Every run -/

theorem wqExec_ok {s : WaitSys} {F : Nat → List Nat} (h : Places s F) {op : WqOp}
    (ha : op.Admissible s) (hs : op.Safe s) : ∃ s' F', wqExec s op = some s' ∧ Places s' F' := by
  cases op with
  | wait c => exact wqWait_ok h ha.1 ha.2.1 ha.2.2.2
  | block c =>
    obtain ⟨s', he, hp⟩ := wqBlock_ok h ha.1 ha.2.1 ha.2.2
    exact ⟨s', F, he, hp⟩
  | wakeOne w =>
    obtain ⟨F', hp⟩ := wqWakeOne_ok h ha
    exact ⟨_, F', rfl, hp⟩
  | wakeAll w =>
    obtain ⟨F', hp⟩ := wqWakeAll_ok h ha
    exact ⟨_, F', rfl, hp⟩
  | walk w => exact ⟨_, F, rfl, wqWalk_ok h⟩
  | unblock w => exact wqUnblock_ok h ha hs
  | sched op => grind [schedGoesOn_ok, ha.1, ha.2.1, ha.2.2.1, ha.2.2.2]

/-- **No lost wake-up.** In every run in which no waker unblocks a thread between its two steps,
    every step comes to its end, and a thread that is blocked in `wq_wait` is on the list or held by
    a waker that has not called `sched_unblock` on it yet. -/
theorem wait_queue_no_lost_wakeup (n : Nat) (hn : n ≤ schedMaxCpus) (h : Log WqOp Bool) (s : WaitSys)
    (hr : Reach (fun s op => op.Admissible s ∧ op.Safe s) wqStep (.start (schedBoot n)) h s) :
    (∀ x ∈ h, x.2 = true) ∧ ∀ t ∈ s.parked, (s.sched.thread t).state = .blocked → s.OnList t ∨ s.Held t := by
  have hinv : (∀ x ∈ h, x.2 = true) ∧ ∃ F, Places s F := by
    refine hr.inv (I := fun h s => (∀ x ∈ h, x.2 = true) ∧ ∃ F, Places s F) ⟨nofun, fun _ => [], ?_⟩ ?_
    · exact ⟨rfl, fun _ => rfl, ⟨fun _ => nodup_nil, nofun⟩,
        fun t => by simp [WaitSys.Waits, WaitSys.start], nofun, schedBoot_ok hn⟩
    · grind [wqExec_ok, wqStep]
  obtain ⟨hall, F, hp⟩ := hinv
  refine ⟨hall, fun t ht hb => ?_⟩
  obtain ⟨i, hi⟩ := (hp.member t).2 (.inr ⟨ht, hb⟩)
  cases i with
  | zero => exact .inl ⟨_, hp.list, hi⟩
  | succ w => exact .inr ⟨w, _, hp.held w, hi⟩

theorem wait_queue_no_lost_wakeup_one :
    let s := (wqStep (wqStep (.start (schedBoot 2)) (.wait 0)).2 (.block 0)).2
    ∀ t ∈ s.parked, (s.sched.thread t).state = .blocked → s.OnList t ∨ s.Held t :=
  (wait_queue_no_lost_wakeup 2 (by decide) _ _
    (.step _ _ _ (.step _ _ _ .start (by simp only [WqOp.Admissible, WqOp.Safe, and_true]; decide))
      (by simp only [WqOp.Admissible, WqOp.Safe, SchedOp.Admissible, SchedOp.Safe, and_true]
          decide))).2

/-- **A wake-up is lost.** The boot thread puts itself on the list; a waker takes it off and calls
    `sched_unblock`, which ignores a thread that is not BLOCKED yet; then the thread blocks, on no
    list and in no waker's hand. -/
theorem wait_queue_lost : ∃ h s, Reach (fun s op => op.Admissible s) wqStep (.start (schedBoot 2)) h s ∧
    ¬ ∀ t ∈ s.parked, (s.sched.thread t).state = .blocked → s.OnList t ∨ s.Held t := by
  have hr := Reach.step _ _ (.block 0) (.step _ _ (.unblock 0) (.step _ _ (.wakeOne 0)
    (.step _ _ (.wait 0) (.start : Reach (fun s op => op.Admissible s) wqStep
      (.start (schedBoot 2)) [] _) ?_) ?_) ?_) ?_
  · refine ⟨_, _, hr, fun hlaw => ?_⟩
    rcases hlaw 34 (by decide) (by decide) with ⟨l, hl, hm⟩ | ⟨w, l, hl, hm⟩
    · have := Chain.eq_nil hl
      subst this
      exact not_mem_nil hm
    · have hl : l = [] := by cases w <;> exact hl
      exact not_mem_nil (hl ▸ hm)
  · exact ⟨by decide, by decide⟩
  · rfl
  · simp only [WqOp.Admissible]
    decide
  · simp only [WqOp.Admissible, SchedOp.Admissible, SchedOp.Safe, and_true]
    decide +kernel

end Kobalt.Kern

/-
  Subject: THE CROSS-CPU CALLS of `kern/ipi.c` on any number of processors: one lock taken with
  interrupts off, one posted request for each vector, and acknowledgements that only an interrupt
  handler gives.

  A step is one access to what the processors share. An interrupt is taken where interrupts are
  on, at any later time, so code that has them off for a while adds no behaviour. A caller has
  them off from before it asks for the lock until it has released it.
-/
import Mathlib.Algebra.Ring.Nat
import Mathlib.Data.Fintype.Card
import Mathlib.Data.List.Nodup
import Kobalt.Lib.Run

namespace Kobalt.Kern

open Function

/-! ## 1. The code -/

inductive IpiVector where
  | tlbFlush
  | funcCall
  deriving DecidableEq

/-- `tlb_shootdown_t` and `ipi_call_t` without their `ack_count`. -/
inductive IpiWork where
  | tlb (vaddr npages : Nat)
  | call (fn arg : Nat)
  deriving DecidableEq

def IpiWork.vector : IpiWork → IpiVector
  | .tlb .. => .tlbFlush
  | .call .. => .funcCall

/-- A handler acknowledges a request unless it is a call of NULL. -/
def IpiWork.answered : IpiWork → Bool
  | .tlb .. => true
  | .call fn _ => fn ≠ 0

/-- The four entry points. -/
inductive IpiCall where
  | tlbFlushPage (vaddr : Nat)
  | tlbFlushRange (vaddr npages : Nat)
  | tlbFlushAll
  | callFunction (fn arg : Nat)

/-- The request a call makes, if it does not return at once. -/
def IpiCall.work (cpus : Nat) : IpiCall → Option IpiWork
  | .tlbFlushPage vaddr => some (.tlb vaddr 0)
  | .tlbFlushRange vaddr npages => if npages = 0 then none else some (.tlb vaddr npages)
  | .tlbFlushAll => some (.tlb 0 0)
  | .callFunction fn arg => if cpus ≤ 1 then none else some (.call fn arg)

/-- Where a processor is. -/
inductive IpiPc (n : Nat) where
  /-- in other code: the only place where interrupts are taken -/
  | run
  /-- in the loop of `spin_lock` -/
  | spin (ticket : Nat)
  | locked
  | posted
  /-- in the loop over `ack_count` -/
  | wait
  /-- in a handler that has read the posted pointer; no code reads who `sender` is -/
  | handler (v : IpiVector) (sender : Fin n) (work : Option (Fin n))
  deriving DecidableEq

structure Ipi (n : Nat) where
  pc : Fin n → IpiPc n
  nowServing : Nat
  nextTicket : Nat
  /-- `g_tlb_work` and `g_call_work`: the processor whose stack holds the request -/
  work : IpiVector → Option (Fin n)
  req : Fin n → IpiWork
  /-- `ack_count` of a request is the length; the names are kept for the statements -/
  acks : Fin n → List (Fin n)
  /-- interrupts that were sent and not yet taken, with their sender -/
  irr : Fin n → IpiVector → Option (Fin n)

inductive IpiAct (n : Nat) where
  | call (c : Fin n) (k : IpiCall)
  | acquire (c : Fin n)
  | post (c : Fin n)
  | send (c : Fin n)
  | release (c : Fin n)
  | deliver (c : Fin n) (v : IpiVector)
  | finish (c : Fin n)

variable {n : Nat}

section Code

variable (s : Ipi n)

/-- The end of a handler: `__atomic_fetch_add` on the request it found. -/
def ipiAck (c : Fin n) : Option (Fin n) → Fin n → List (Fin n)
  | some r => if (s.req r).answered then update s.acks r (c :: s.acks r) else s.acks
  | none => s.acks

/-- **One step**, if it can be taken. -/
def ipiExec : IpiAct n → Option (Ipi n)
  | .call c k =>
    match s.pc c, k.work n with
    | .run, some w => some { s with
        pc := update s.pc c (.spin s.nextTicket)
        nextTicket := (s.nextTicket + 1) % 2 ^ 16
        req := update s.req c w
        acks := update s.acks c [] }
    | .run, none => some s
    | _, _ => none
  | .acquire c =>
    match s.pc c with
    | .spin ticket => if s.nowServing = ticket then some { s with pc := update s.pc c .locked } else none
    | _ => none
  | .post c =>
    match s.pc c with
    | .locked => some { s with
        pc := update s.pc c .posted
        -- only the shootdown sets its count to zero again
        acks := if (s.req c).vector = .tlbFlush then update s.acks c [] else s.acks
        work := update s.work (s.req c).vector (some c) }
    | _ => none
  | .send c =>
    match s.pc c with
    | .posted => some { s with
        pc := update s.pc c .wait
        irr := fun d v => if d ≠ c ∧ v = (s.req c).vector then some c else s.irr d v }
    | _ => none
  | .release c =>
    match s.pc c with
    | .wait =>
      if n - 1 ≤ (s.acks c).length then some { s with
        pc := update s.pc c .run
        work := update s.work (s.req c).vector none
        nowServing := (s.nowServing + 1) % 2 ^ 16 }
      else none
    | _ => none
  | .deliver c v =>
    match s.pc c, s.irr c v with
    | .run, some r => some { s with
        pc := update s.pc c (.handler v r (s.work v))
        irr := update s.irr c (update (s.irr c) v none) }
    | _, _ => none
  | .finish c =>
    match s.pc c with
    | .handler _ _ p => some { s with pc := update s.pc c .run, acks := ipiAck s c p }
    | _ => none

def ipiStep (a : IpiAct n) : Unit × Ipi n := ((), (ipiExec s a).getD s)

def ipiBoot (n : Nat) : Ipi n where
  pc := fun _ => .run
  nowServing := 0
  nextTicket := 0
  work := fun _ => none
  req := fun _ => .tlb 0 0
  acks := fun _ => []
  irr := fun _ _ => none

/-! ## 2. What is asked of it -/

/-- `c` waits for the acknowledgement of `d`. -/
def Ipi.Awaits (c d : Fin n) : Prop := s.pc c = .wait ∧ d ≠ c ∧ d ∉ s.acks c

/-- In the loop of `spin_lock`, with interrupts off. -/
def Ipi.Spins (c : Fin n) : Prop := ∃ ticket, s.pc c = .spin ticket

/-- **The laws of the calls**: nobody is awaited who spins with interrupts off, and a handler adds
    one acknowledgement, its own first one, to the request it was sent for and to no other. -/
structure IpiLaws (s : Ipi n) : Prop where
  noDeadlock : ∀ c d, s.Awaits c d → ¬ s.Spins d
  once : ∀ d v r p, s.pc d = .handler v r p →
    d ∉ s.acks r ∧ ipiAck s d p = update s.acks r (d :: s.acks r)

def IpiPc.inCall : IpiPc n → Bool
  | .run | .handler .. => false
  | _ => true

/-- **The calls that keep the laws**: one at a time, and none of NULL. -/
def IpiAct.Alone : IpiAct n → Prop
  | .call _ k => (∀ d, (s.pc d).inCall = false) ∧ ∀ w ∈ k.work n, w.answered
  | _ => True

/-! ## 3. The shape of a state in a run of single calls -/

/-- **What is asked of a processor**: nothing, or its answer to the request of `r`. -/
inductive Ipi.Asked (s : Ipi n) (r d : Fin n) : Prop where
  | owes (hpc : s.pc d = .run) (hirr : ∀ v, s.irr d v = if v = (s.req r).vector then some r else none)
      (h : d ∉ s.acks r)
  | handles (hpc : s.pc d = .handler (s.req r).vector r (some r)) (hirr : ∀ v, s.irr d v = none)
      (h : d ∉ s.acks r)
  | done (hpc : s.pc d = .run) (hirr : ∀ v, s.irr d v = none) (h : d ∈ s.acks r)

def Ipi.Idle (d : Fin n) : Prop := s.pc d = .run ∧ ∀ v, s.irr d v = none

/-- The caller; the others are asked only once it waits. -/
structure Ipi.Caller (s : Ipi n) (r : Fin n) : Prop where
  inCall : (s.pc r).inCall
  answered : (s.req r).answered
  own : ∀ v, s.irr r v = none
  posted : s.pc r = .posted ∨ s.pc r = .wait → s.work (s.req r).vector = some r
  nodup : (r :: s.acks r).Nodup
  before : s.pc r ≠ .wait → s.acks r = [] ∧ ∀ d, d ≠ r → s.Idle d
  asked : s.pc r = .wait → ∀ d, d ≠ r → s.Asked r d

def Ipi.Shape : Prop := (∀ d, s.Idle d) ∨ ∃ r, s.Caller r

end Code

section Shape

variable {s s' : Ipi n} {c d r : Fin n}

theorem Ipi.Caller.other (h : s.Caller r) (hd : d ≠ r) : s.Idle d ∨ s.pc r = .wait ∧ s.Asked r d := by
  by_cases hw : s.pc r = .wait
  · exact .inr ⟨hw, h.asked hw d hd⟩
  · exact .inl ((h.before hw).2 d hd)

theorem Ipi.Shape.caller (h : s.Shape) (hc : (s.pc c).inCall) : s.Caller c := by
  obtain h | ⟨r, h⟩ := h
  · simp [(h c).1, IpiPc.inCall] at hc
  · by_cases hne : c = r
    · exact hne ▸ h
    · obtain ⟨hpc, -⟩ | ⟨-, ⟨hpc, -⟩ | ⟨hpc, -⟩ | ⟨hpc, -⟩⟩ := h.other hne <;>
        simp [hpc, IpiPc.inCall] at hc

/-- A processor in other code or in a handler that is not idle is asked by a caller that waits. -/
theorem Ipi.Shape.asked (h : s.Shape) (hc : (s.pc c).inCall = false) (hi : ¬ s.Idle c) :
    ∃ r, c ≠ r ∧ s.pc r = .wait ∧ s.Caller r ∧ s.Asked r c := by
  obtain h | ⟨r, h⟩ := h
  · exact absurd (h c) hi
  · have hne : c ≠ r := fun he => by simp [he, h.inCall] at hc
    obtain hidle | ⟨hw, ha⟩ := h.other hne
    · exact absurd hidle hi
    · exact ⟨r, hne, hw, h, ha⟩

/-- A handler found the request it was sent for, and has not acknowledged it before. -/
theorem Ipi.Shape.handler (h : s.Shape) {v : IpiVector} {p : Option (Fin n)} (hpc : s.pc c = .handler v r p) :
    c ≠ r ∧ s.pc r = .wait ∧ s.Caller r ∧ c ∉ s.acks r ∧ (∀ v, s.irr c v = none) ∧
      ipiAck s c p = update s.acks r (c :: s.acks r) := by
  obtain ⟨r', hne, hw, hr, ha⟩ := h.asked (c := c) (by simp [hpc, IpiPc.inCall]) (by simp [Ipi.Idle, hpc])
  cases ha with
  | owes hpc' | done hpc' => simp [hpc] at hpc'
  | handles hpc' hirr hna =>
    cases hpc.symm.trans hpc'
    exact ⟨hne, hw, hr, hna, hirr, by simp [ipiAck, hr.answered]⟩

theorem Ipi.Shape.laws (h : s.Shape) : IpiLaws s where
  noDeadlock := by
    rintro c d ⟨hpc, hne, -⟩ ⟨ticket, hd⟩
    have hc := h.caller (c := c) (by simp [hpc, IpiPc.inCall])
    cases hc.asked hpc d hne with
    | owes hpc' | handles hpc' | done hpc' => simp [hd] at hpc'
  once := fun d v r p hpc => by
    obtain ⟨-, -, -, hna, -, hack⟩ := h.handler hpc
    exact ⟨hna, hack⟩

/-- **Who has all the acknowledgements has one of every other processor.** -/
theorem Ipi.Caller.all (h : s.Caller r) (hl : n - 1 ≤ (s.acks r).length) (hd : d ≠ r) : d ∈ s.acks r := by
  by_contra hna
  have hn : (d :: r :: s.acks r).Nodup := List.nodup_cons.mpr ⟨by simp [hd, hna], h.nodup⟩
  have := hn.length_le_card
  simp at this
  omega

theorem Ipi.Caller.stage (h : s.Caller r) (hw : s.pc r ≠ .wait) {p : IpiPc n} (hp : p.inCall) (hpw : p ≠ .wait)
    (hpc : s'.pc = update s.pc r p) (hreq : s'.req = s.req) (hirr : s'.irr = s.irr) (hacks : s'.acks r = [])
    (hpost : p = .posted → s'.work (s.req r).vector = some r) : s'.Caller r where
  inCall := by simp [hpc, hp]
  answered := hreq ▸ h.answered
  own := hirr ▸ h.own
  posted := by simpa [hpc, hreq, hpw] using hpost
  nodup := by simp [hacks]
  before := fun _ => ⟨hacks, fun d hd => by simpa [Ipi.Idle, hpc, hirr, hd] using (h.before hw).2 d hd⟩
  asked := by simp [hpc, hpw]

theorem Ipi.Caller.peer (h : s.Caller r) (hw : s.pc r = .wait) (hc : c ≠ r) {p : IpiPc n}
    (hpc : s'.pc = update s.pc c p) (hreq : s'.req = s.req) (hwork : s'.work = s.work)
    (hirr : ∀ d, d ≠ c → s'.irr d = s.irr d) (hnodup : (r :: s'.acks r).Nodup)
    (hacks : ∀ d, d ≠ c → (d ∈ s'.acks r ↔ d ∈ s.acks r)) (hp : s'.Asked r c) : s'.Caller r where
  inCall := by simp [hpc, hc.symm, h.inCall]
  answered := hreq ▸ h.answered
  own := hirr r hc.symm ▸ h.own
  posted := fun _ => by rw [hwork, hreq]; exact h.posted (.inr hw)
  nodup := hnodup
  before := by simp [hpc, hc.symm, hw]
  asked := fun _ d hd => by
    by_cases hdc : d = c
    · exact hdc ▸ hp
    · have hpd : s'.pc d = s.pc d := by rw [hpc, update_of_ne hdc]
      cases h.asked hw d hd with
      | owes h1 h2 h3 => exact .owes (hpd.trans h1) (by rwa [hirr d hdc, hreq]) (by rwa [hacks d hdc])
      | handles h1 h2 h3 => exact .handles (by rwa [hpd, hreq]) (by rwa [hirr d hdc]) (by rwa [hacks d hdc])
      | done h1 h2 h3 => exact .done (hpd.trans h1) (by rwa [hirr d hdc]) (by rwa [hacks d hdc])

/-! ## 4. Every step keeps the shape -/

theorem ipiExec_shape {a : IpiAct n} (h : s.Shape) (ha : a.Alone s) (he : ipiExec s a = some s') :
    s'.Shape := by
  cases a with
  | call c k =>
    obtain hidle | ⟨r, hr⟩ := h
    · simp only [ipiExec, (hidle c).1] at he
      split at he
      · rename_i w _ hw
        cases he
        refine .inr ⟨c, ⟨by simp [IpiPc.inCall], by simpa using ha.2 w hw, (hidle c).2, by simp, by simp,
          fun _ => ⟨by simp, fun d hd => ?_⟩, by simp⟩⟩
        simpa [Ipi.Idle, hd] using hidle d
      · cases he
        exact .inl hidle
      · cases he
    · exact absurd hr.inCall (by simp [ha.1 r])
  | acquire c =>
    simp only [ipiExec] at he
    split at he
    · rename_i ticket hpc
      split at he <;> cases he
      have hc := h.caller (c := c) (by simp [hpc, IpiPc.inCall])
      have hw : s.pc c ≠ .wait := by simp [hpc]
      exact .inr ⟨c, hc.stage hw (p := .locked) rfl (by simp) rfl rfl rfl (hc.before hw).1 (by simp)⟩
    · cases he
  | post c =>
    simp only [ipiExec] at he
    split at he <;> cases he
    rename_i hpc
    have hc := h.caller (c := c) (by simp [hpc, IpiPc.inCall])
    have hw : s.pc c ≠ .wait := by simp [hpc]
    refine .inr ⟨c, hc.stage hw (p := .posted) rfl (by simp) rfl rfl rfl ?_ (by simp)⟩
    dsimp only
    split <;> simp [(hc.before hw).1]
  | send c =>
    simp only [ipiExec] at he
    split at he <;> cases he
    rename_i hpc
    have hc := h.caller (c := c) (by simp [hpc, IpiPc.inCall])
    obtain ⟨hacks, hidle⟩ := hc.before (by simp [hpc])
    refine .inr ⟨c, ⟨by simp [IpiPc.inCall], hc.answered, by simpa using hc.own, fun _ => hc.posted (.inl hpc),
      hc.nodup, by simp, fun _ d hd => ?_⟩⟩
    exact .owes (by simpa [hd] using (hidle d hd).1) (fun v => by simp [hd, (hidle d hd).2]) (by simp [hacks])
  | release c =>
    simp only [ipiExec] at he
    split at he
    · rename_i hpc
      split at he <;> cases he
      rename_i hl
      have hc := h.caller (c := c) (by simp [hpc, IpiPc.inCall])
      refine .inl fun d => ?_
      by_cases hd : d = c
      · exact ⟨by simp [hd], hd ▸ hc.own⟩
      · cases hc.asked hpc d hd with
        | owes _ _ hna | handles _ _ hna => exact absurd (hc.all hl hd) hna
        | done hpc' hirr _ => exact ⟨by simpa [hd] using hpc', hirr⟩
    · cases he
  | deliver c v =>
    simp only [ipiExec] at he
    split at he <;> cases he
    rename_i r' hpc hirr
    obtain ⟨r, hne, hw, hr, hask⟩ := h.asked (c := c) (by simp [hpc, IpiPc.inCall])
      fun hi => by simp [hi.2] at hirr
    refine .inr ⟨r, hr.peer hw hne rfl rfl rfl (fun d hd => by simp [hd]) hr.nodup (fun _ _ => Iff.rfl) ?_⟩
    cases hask with
    | owes _ hirr' hna =>
      rw [hirr'] at hirr
      split at hirr <;> cases hirr
      rename_i hv
      subst hv
      refine .handles (by simp [hr.posted (.inr hw)]) (fun v' => ?_) hna
      by_cases hv : v' = (s.req r').vector <;> simp [hv, hirr']
    | handles hpc' => simp [hpc] at hpc'
    | done _ hirr' => simp [hirr'] at hirr
  | finish c =>
    simp only [ipiExec] at he
    split at he <;> cases he
    rename_i v r p hpc
    obtain ⟨hne, hw, hr, hna, hirr, hack⟩ := h.handler hpc
    have hnodup := hr.nodup
    refine .inr ⟨r, hr.peer hw hne rfl rfl rfl (fun _ _ => rfl) ?_ (fun d hd => by simp [hack, hd])
      (.done (by simp) hirr (by simp [hack]))⟩
    simp only [hack, update_self, List.nodup_cons, List.mem_cons, not_or] at hnodup ⊢
    exact ⟨⟨hne.symm, hnodup.1⟩, hna, hnodup.2⟩

end Shape

/-- **Calls that are made one at a time, on any number of processors, wait for nobody who spins,
    and every handler acknowledges the request it was sent for exactly once.** -/
theorem ipi_calls_alone {h : List (IpiAct n × Unit)} {s : Ipi n}
    (hr : Reach (fun s a => IpiAct.Alone s a) ipiStep (ipiBoot n) h s) : IpiLaws s := by
  refine Ipi.Shape.laws (hr.invState (I := Ipi.Shape) (.inl fun _ => ⟨rfl, fun _ => rfl⟩) fun s a hs ha => ?_)
  unfold ipiStep
  cases he : ipiExec s a with
  | none => exact hs
  | some s' => exact ipiExec_shape hs ha he

/-- One flush between two processors, up to the handler. -/
theorem ipi_calls_alone_flush : IpiLaws (runLog ipiStep ([], ipiBoot 2)
    [.call 0 .tlbFlushAll, .acquire 0, .post 0, .send 0, .deliver 1 .tlbFlush]).2 := by
  have h1 : Reach (fun s a => IpiAct.Alone s a) ipiStep (ipiBoot 2) _ _ :=
    .step [] _ (.call 0 .tlbFlushAll) .start (by simp [IpiAct.Alone, ipiBoot, IpiPc.inCall, IpiCall.work, IpiWork.answered])
  have h2 := h1.step _ _ (.acquire 0) (by trivial)
  have h3 := h2.step _ _ (.post 0) (by trivial)
  have h4 := h3.step _ _ (.send 0) (by trivial)
  exact ipi_calls_alone (h4.step _ _ (.deliver 1 .tlbFlush) (by trivial))

/-! ## 5. Two callers -/

/-- Two processors flush their TLB at the same time. -/
def twoFlushes : List (IpiAct 2) :=
  [.call 0 .tlbFlushAll, .call 1 .tlbFlushAll, .acquire 0, .post 0, .send 0]

/-- **The first waits for the second, the second spins with interrupts off, and no step is left.** -/
theorem ipi_deadlock : let x := runLog ipiStep ([], ipiBoot 2) twoFlushes
    Reach anyInput ipiStep (ipiBoot 2) x.1 x.2 ∧ x.2.Awaits 0 1 ∧ x.2.Spins 1 ∧ ∀ a, ipiExec x.2 a = none := by
  refine ⟨Reach.runLog twoFlushes (x := ([], ipiBoot 2)) .start, ⟨rfl, by decide, by decide⟩, ⟨1, rfl⟩, fun a => ?_⟩
  cases a with
  | call c | acquire c | post c | send c | release c | deliver c | finish c =>
    match c with
    | 0 => rfl
    | 1 => rfl

end Kobalt.Kern

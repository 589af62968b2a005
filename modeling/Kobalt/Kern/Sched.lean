/-
  Subject: THE SCHEDULER of `kern/sched.c` on up to `SCHED_MAX_CPUS` processors. A thread is the
  address of its `rb` node; all threads share one memory of nodes, and every run queue has a root in
  it.

  A step is a critical section under a run queue lock. `sched_unblock` and `sched_migrate` read
  `t->cpu` BEFORE they take the locks, so each of them is two steps, and what the first one read
  is a pending call (`Call`) until the second one runs. Which processor `sched_thread_create` and
  which source `load_balance` choose also rests on reads without a lock: the choice is an input.
-/
import Mathlib.Algebra.Ring.Int.Defs
import Mathlib.Algebra.Ring.Nat
import Kobalt.Kern.Rbtree

namespace Kobalt.Kern

open Rb Function List Option

variable {dst next src : Nat} {hp : RbHeap}

/-! ## 1. The code -/

def schedMaxCpus : Nat := 16

def sliceVtime : Int := 5

def int64Max : Int := 2 ^ 63 - 1

inductive ThreadState where
  | ready
  | running
  | blocked
  | zombie
  deriving DecidableEq, Repr

/-- `sched_thread_t`, the fields the run queues rest on. -/
structure Thread where
  vruntime : Int := 0
  vstart : Int := 0
  vdeadline : Int := 0
  tid : Nat := 0
  cpu : Nat := 0
  state : ThreadState := .ready

/-- `runqueue_t`. A processor that is not up has no idle thread. -/
structure Runqueue where
  root : Nat := 0
  minVruntime : Int := 0
  nrRunning : Nat := 0
  current : Nat := 0
  idle : Nat := 0

/-- A call between its reads without a lock and its critical section. -/
inductive Call where
  | unblock (t cpu : Nat)
  | migrate (t src cpu : Nat)
  deriving DecidableEq

structure Sched where
  node : Nat → RbNode
  thread : Nat → Thread
  rqs : Nat → Runqueue
  nextTid : Nat
  /-- the thread objects there are -/
  known : List Nat
  calls : List Call

namespace Sched

variable (s : Sched) (c t : Nat)

/-- The tree of a run queue. -/
def heap : RbHeap := ⟨s.node, (s.rqs c).root⟩

/-- More rounds than any loop over a tree takes: its nodes are threads. -/
def fuel : Nat := s.known.length + 1

def setThread (f : Thread → Thread) : Sched := { s with thread := update s.thread t (f (s.thread t)) }

def setRq (f : Runqueue → Runqueue) : Sched := { s with rqs := update s.rqs c (f (s.rqs c)) }

/-- The tree of a run queue after a call of `rbtree.c`. -/
def setTree (h : RbHeap) (nr : Nat) : Sched :=
  { s.setRq c fun rq => { rq with root := h.root, nrRunning := nr } with node := h.node }

end Sched

section Code

variable (s : Sched) (c t : Nat)

def threadCmp (a b : Nat) : Int :=
  let ta := s.thread a
  let tb := s.thread b
  if ta.vdeadline ≠ tb.vdeadline then if ta.vdeadline < tb.vdeadline then -1 else 1
  else if ta.tid < tb.tid then -1 else if ta.tid > tb.tid then 1 else 0

/-- `nr_running` is a `uint32_t`. -/
def rqInsert : Option Sched := do
  let h ← rbInsert s.fuel (threadCmp s) (s.heap c) t
  some (s.setTree c h (((s.rqs c).nrRunning + 1) % 2 ^ 32))

def rqRemove : Option Sched := do
  let h ← rbErase s.fuel (s.heap c) t
  some (s.setTree c h (((s.rqs c).nrRunning + (2 ^ 32 - 1)) % 2 ^ 32))

def rqMinVr : Option Int := do
  let rq := s.rqs c
  let start := if rq.current ≠ 0 ∧ rq.current ≠ rq.idle then (s.thread rq.current).vruntime else int64Max
  let nodes ← rbVisit s.fuel (s.heap c)
  let min := nodes.foldl (fun m n => if (s.thread n).vruntime < m then (s.thread n).vruntime else m) start
  some (if min = int64Max then rq.minVruntime else min)

/-- `if (mvr > rq->min_vruntime) rq->min_vruntime = mvr`. -/
def raiseMinVr : Option Sched := do
  let mvr ← rqMinVr s c
  some (if mvr > (s.rqs c).minVruntime then s.setRq c fun rq => { rq with minVruntime := mvr } else s)

/-- `vstart` and `vdeadline` of a thread that enters a queue. -/
def placed (rq : Runqueue) (t : Thread) : Thread :=
  let vstart := if t.vruntime > rq.minVruntime then t.vruntime else rq.minVruntime
  { t with vstart := vstart, vdeadline := vstart + sliceVtime }

def enqueue : Option Sched := do
  let s ← raiseMinVr s c
  rqInsert (s.setThread t fun th => { placed (s.rqs c) th with state := .ready }) c t

/-- The second loop of `pick_next`. -/
def pickBest (best : Option Nat) (t : Nat) : Option Nat :=
  match best with
  | none => some t
  | some b =>
    if (s.thread t).vruntime < (s.thread b).vruntime ∨
        ((s.thread t).vruntime = (s.thread b).vruntime ∧ (s.thread t).tid < (s.thread b).tid)
    then some t else some b

def pickNext : Option Nat := do
  let rq := s.rqs c
  if rq.nrRunning = 0 then some rq.idle
  else
    let nodes ← rbVisit s.fuel (s.heap c)
    match nodes.find? fun t => (s.thread t).vstart ≤ rq.minVruntime with
    | some t => some t
    | none =>
      match nodes.foldl (pickBest s) none with
      | some t => some t
      | none => some rq.idle

/-- `do_switch` up to the release of the lock; `next` is dereferenced. -/
def doSwitch (next : Nat) : Option Sched :=
  if next = 0 then none
  else some ((s.setThread next fun t => { t with state := .running, cpu := c }).setRq c
    fun rq => { rq with current := next })

/-- `if (next != rq->idle) rq_remove(rq, next); do_switch(rq, prev, next)`. -/
def leaveFor (next : Nat) : Option Sched := do
  let s ← if next ≠ (s.rqs c).idle then rqRemove s c next else some s
  doSwitch s c next

/-- `sched_thread_create` from the choice of the processor on; `kmalloc` gave the address `t`. -/
def schedThreadCreate (t c : Nat) : Option Sched :=
  enqueue { s with
    thread := update s.thread t { tid := s.nextTid, cpu := c }
    nextTid := (s.nextTid + 1) % 2 ^ 32
    known := t :: s.known } c t

def schedThreadExit : Option Sched := do
  let dying := (s.rqs c).current
  if dying = 0 then none
  else
    let s := s.setThread dying fun t => { t with state := .zombie }
    let next ← pickNext s c
    leaveFor s c next

def schedYield : Option Sched := do
  let cur := (s.rqs c).current
  let next ← pickNext s c
  if cur = 0 then none
  else if next = (s.rqs c).idle ∨ next = cur then
    some (s.setThread cur fun t => { t with vdeadline := t.vruntime + sliceVtime })
  else
    let s ← enqueue (s.setThread cur fun t => { t with vruntime := t.vdeadline }) c cur
    let s ← rqRemove s c next
    doSwitch s c next

def schedBlock : Option Sched := do
  let cur := (s.rqs c).current
  let next ← pickNext s c
  if cur = 0 then none
  else leaveFor (s.setThread cur fun t => { t with state := .blocked }) c next

def schedTick : Option Sched := do
  let cur := (s.rqs c).current
  if cur = 0 then some s
  else
    let s := s.setThread cur fun t => { t with vruntime := t.vdeadline }
    if cur = (s.rqs c).idle then
      let next ← pickNext s c
      if next ≠ (s.rqs c).idle then
        let s ← rqRemove (s.setThread cur fun t => { t with state := .ready }) c next
        doSwitch s c next
      else some s
    else
      let s ← raiseMinVr s c
      let next ← pickNext s c
      if next = (s.rqs c).idle then
        some (s.setThread cur fun t => { t with vdeadline := t.vruntime + sliceVtime })
      else
        let s ← enqueue s c cur
        let s ← rqRemove s c next
        doSwitch s c next

/-- `sched_unblock` under the lock of the processor it read. -/
def schedUnblock (t c : Nat) : Option Sched :=
  if (s.thread t).state = .blocked then enqueue s c t else some s

/-- `t` leaves the queue `src` for the queue `dst`; `mark` is what else the caller writes. -/
def moveTo (mark : Thread → Thread) (s : Sched) (t src dst : Nat) : Option Sched := do
  let s ← rqRemove s src t
  rqInsert (s.setThread t fun th => mark { placed (s.rqs dst) th with cpu := dst }) dst t

/-- `sched_migrate` under the locks of the processors it read. -/
def schedMigrate (t src cpu : Nat) : Option Sched :=
  if (s.thread t).state = .ready then moveTo id s t src cpu
  else some (s.setThread t fun th => { th with cpu := cpu })

/-- `while (n && n->right) n = n->right`. -/
def rightmost : Nat → RbHeap → Nat → Option Nat
  | 0, _, _ => none
  | fuel + 1, h, n =>
    if n ≠ 0 ∧ (h.node n).right ≠ 0 then rightmost fuel h (h.node n).right else some n

/-- `load_balance` under the two locks. -/
def loadBalance (dst src : Nat) : Option Sched := do
  if (s.rqs src).nrRunning > 1 then
    let n ← rightmost s.fuel (s.heap src) (s.heap src).root
    if n ≠ 0 then moveTo (fun t => { t with state := .ready }) s n src dst else some s
  else some s

/-- The steps of the system. -/
inductive SchedOp where
  | create (t c : Nat)
  | tick (c : Nat)
  | yield (c : Nat)
  | block (c : Nat)
  | exit (c : Nat)
  /-- `sched_unblock(t)` up to the lock -/
  | unblockCall (t : Nat)
  | unblockRun (t c : Nat)
  /-- `sched_migrate(t, cpu)` up to the locks -/
  | migrateCall (t cpu : Nat)
  | migrateRun (t src cpu : Nat)
  | balance (dst src : Nat)
  /-- a dead thread's object is freed, at the end of `do_switch` in the thread that runs next -/
  | reap (t : Nat)

def schedExec : SchedOp → Option Sched
  | .create t c => schedThreadCreate s t c
  | .tick c => schedTick s c
  | .yield c => schedYield s c
  | .block c => schedBlock s c
  | .exit c => schedThreadExit s c
  | .unblockCall t =>
    if (s.thread t).state = .blocked then
      some { s with calls := .unblock t (s.thread t).cpu :: s.calls }
    else some s
  | .unblockRun t c => schedUnblock { s with calls := s.calls.erase (.unblock t c) } t c
  | .migrateCall t cpu =>
    if schedMaxCpus ≤ cpu ∨ (s.rqs cpu).idle = 0 ∨ (s.thread t).cpu = cpu then some s
    else some { s with calls := .migrate t (s.thread t).cpu cpu :: s.calls }
  | .migrateRun t src cpu => schedMigrate { s with calls := s.calls.erase (.migrate t src cpu) } t src cpu
  | .balance dst src => loadBalance s dst src
  | .reap t => some { s with known := s.known.erase t }

/-- **One step**; the answer is whether it came to its end. -/
def schedStep (op : SchedOp) : Bool × Sched :=
  match schedExec s op with
  | some s' => (true, s')
  | none => (false, s)

end Code

def idleThread (c : Nat) : Nat := 2 * c + 2

def bootThread : Nat := 2 * schedMaxCpus + 2

/-- `sched_init` on the first processor, `sched_ap_init` on the others below `n`. -/
def schedBoot (n : Nat) : Sched where
  node := fun _ => {}
  thread := fun t =>
    if t = bootThread then { tid := 1, vdeadline := sliceVtime, state := .running }
    else { tid := t / 2 + 1, cpu := t / 2 - 1, state := if t = idleThread 0 then .ready else .running }
  rqs := fun c =>
    if c < n then { current := if c = 0 then bootThread else idleThread c, idle := idleThread c } else {}
  nextTid := n + 2
  known := bootThread :: (List.range n).map idleThread
  calls := []

def Sched.IsIdle (s : Sched) (t : Nat) : Prop := ∃ c < schedMaxCpus, (s.rqs c).idle = t

/-- **What the callers promise.** `kmalloc` returns a new object; a thread that yields, blocks or
    exits is no idle thread, since `idle_fn` calls none of the three; a pointer to a thread that is
    passed in is good until the call is over; the processors chosen without a lock are up. -/
def SchedOp.Admissible (s : Sched) : SchedOp → Prop
  | .create t c => t ∉ s.known ∧ t ≠ 0 ∧ t % 2 = 0 ∧ c < schedMaxCpus ∧ (s.rqs c).idle ≠ 0
  | .tick c => c < schedMaxCpus
  | .yield c => c < schedMaxCpus ∧ (s.rqs c).current ≠ 0 ∧ (s.rqs c).current ≠ (s.rqs c).idle
  | .block c => c < schedMaxCpus ∧ (s.rqs c).current ≠ 0 ∧ (s.rqs c).current ≠ (s.rqs c).idle
  | .exit c => c < schedMaxCpus ∧ (s.rqs c).current ≠ 0 ∧ (s.rqs c).current ≠ (s.rqs c).idle
  | .unblockCall t => t ∈ s.known
  | .unblockRun t c => .unblock t c ∈ s.calls ∧ t ∈ s.known
  | .migrateCall t _ => t ∈ s.known
  | .migrateRun t src cpu => .migrate t src cpu ∈ s.calls ∧ t ∈ s.known
  | .balance dst src => dst < schedMaxCpus ∧ src < schedMaxCpus ∧ dst ≠ src ∧
      (s.rqs dst).idle ≠ 0 ∧ (s.rqs src).idle ≠ 0
  | .reap t => t ∈ s.known ∧ (s.thread t).state = .zombie

/-- **When a step keeps the queues in order.** A migrated thread is neither running nor idle, and
    `t->cpu` is still what the call read before it had the locks; the same for a blocked thread
    that is woken. No queue counts to the end of `uint32_t`. -/
def SchedOp.Safe (s : Sched) (op : SchedOp) : Prop :=
  (∀ c < schedMaxCpus, (s.rqs c).nrRunning + 1 < 2 ^ 32) ∧
  match op with
  | .unblockRun t c => (s.thread t).state = .blocked → (s.thread t).cpu = c
  | .migrateRun t src _ => (s.thread t).state ≠ .running ∧ ¬ s.IsIdle t ∧
      ((s.thread t).state = .ready → (s.thread t).cpu = src)
  | _ => True

/-- **The membership laws**, with the trees the run queues have in memory. -/
structure RqLaws (s : Sched) (trees : Nat → Rbt Nat) : Prop where
  tree : ∀ c < schedMaxCpus, At (s.heap c) [] (trees c)
  /-- a READY thread is in the tree of its processor and in no other -/
  ready : ∀ t ∈ s.known, (s.thread t).state = .ready → ¬ s.IsIdle t →
    (s.thread t).cpu < schedMaxCpus ∧
    ∀ c < schedMaxCpus, t ∈ inorder (trees c) ↔ c = (s.thread t).cpu
  /-- and no other thread is in a tree -/
  only : ∀ c < schedMaxCpus, ∀ t ∈ inorder (trees c), (s.thread t).state = .ready
  count : ∀ c < schedMaxCpus, (s.rqs c).nrRunning = (inorder (trees c)).length

/-! ## 2. States, processors and queues -/

/-- What the membership laws read, without the trees. -/
structure View where
  state : Nat → ThreadState
  cpu : Nat → Nat
  current : Nat → Nat
  idle : Nat → Nat
  known : List Nat
  calls : List Call

namespace View

variable (v : View)

def IsIdle (t : Nat) : Prop := ∃ c < schedMaxCpus, v.idle c = t

/-- A thread gets a state and a processor. -/
def place (t : Nat) (st : ThreadState) (c : Nat) : View :=
  { v with state := update v.state t st, cpu := update v.cpu t c }

/-- The running thread of a processor is left in the state `st` for the thread `next`. -/
def switch (c : Nat) (st : ThreadState) (next : Nat) : View :=
  { v with
    state := update (update v.state (v.current c) st) next .running
    cpu := update v.cpu next c
    current := update v.current c next }

end View

/-- **The invariant**, with the threads `L c` of each queue. -/
structure ViewOk (v : View) (L : Nat → List Nat) : Prop where
  member : ∀ c < schedMaxCpus, ∀ t, t ∈ L c ↔
    t ∈ v.known ∧ ¬ v.IsIdle t ∧ v.state t = .ready ∧ v.cpu t = c
  cpuLt : ∀ t ∈ v.known, v.cpu t < schedMaxCpus
  addr : ∀ t ∈ v.known, t ≠ 0 ∧ t % 2 = 0
  running : ∀ c < schedMaxCpus, v.current c ≠ 0 →
    v.current c ∈ v.known ∧ v.state (v.current c) = .running ∧ v.cpu (v.current c) = c
  up : ∀ c < schedMaxCpus, v.current c ≠ 0 ↔ v.idle c ≠ 0
  idle : ∀ c < schedMaxCpus, v.idle c ≠ 0 → v.idle c ∈ v.known ∧ v.cpu (v.idle c) = c ∧
    (v.state (v.idle c) = .ready ∨ v.state (v.idle c) = .running)
  /-- a pending migration goes from one processor to another -/
  calls : ∀ t src cpu, .migrate t src cpu ∈ v.calls → cpu < schedMaxCpus ∧ cpu ≠ src
  blocked : ∀ t, v.state t = .blocked → t ∈ v.known

/-- **What a step does to the threads that run and to those that are blocked**: only processors of
    `C` switch, and afterwards the blocked threads are those of `B`. -/
structure Effect (v v' : View) (C B : Nat → Prop) : Prop where
  current : ∀ d, ¬ C d → v'.current d = v.current d
  blocked : ∀ t, v'.state t = .blocked ↔ B t

section View

variable {v : View} {L L' : Nat → List Nat} {c t : Nat} {st : ThreadState}

@[simp] theorem place_idle : (v.place t st c).IsIdle = v.IsIdle := rfl

@[simp] theorem switch_idle : (v.switch c st t).IsIdle = v.IsIdle := rfl

/-- **A thread that is neither running nor idle gets a state and a processor**: it is queued there
    if it is READY now, and nowhere otherwise. -/
theorem place_ok (st : ThreadState) (h : ViewOk v L) (ht : st = .ready ∨ st = .blocked → t ∈ v.known)
    (hcur : ∀ d < schedMaxCpus, v.current d ≠ t) (hidle : ¬ v.IsIdle t) (hc : c < schedMaxCpus)
    (hL : ∀ d < schedMaxCpus, ∀ u, u ∈ L' d ↔ (u ∈ L d ∧ u ≠ t) ∨ (d = c ∧ u = t ∧ st = .ready)) :
    ViewOk (v.place t st c) L' where
  member d hd u := by
    rw [hL d hd, h.member d hd, place_idle]
    by_cases hu : u = t
    · subst hu
      simp only [View.place, update_self, hidle, not_false_eq_true, true_and]
      grind
    · simp [View.place, hu]
  cpuLt u hu := by
    by_cases e : u = t
    · simpa [View.place, e] using hc
    · simpa [View.place, e] using h.cpuLt u hu
  addr := h.addr
  running d hd h0 := by
    have := h.running d hd h0
    simpa [View.place, hcur d hd] using this
  up := h.up
  idle d hd h0 := by
    have hne : v.idle d ≠ t := fun e => hidle ⟨d, hd, e⟩
    simpa [View.place, hne] using h.idle d hd h0
  calls := h.calls
  blocked u hu := by
    by_cases e : u = t
    · subst e
      exact ht (.inr (by simpa [View.place] using hu))
    · exact h.blocked u (by simpa [View.place, e] using hu)

theorem ViewOk.known_of_mem (h : ViewOk v L) (hc : c < schedMaxCpus) (ht : t ∈ L c) : t ∈ v.known :=
  ((h.member c hc t).1 ht).1

theorem ViewOk.not_current (h : ViewOk v L) (hst : v.state t ≠ .running) (h0 : t ≠ 0) {d : Nat}
    (hd : d < schedMaxCpus) : v.current d ≠ t := fun e =>
  hst (e ▸ (h.running d hd (e ▸ h0)).2.1)

theorem ViewOk.not_queued (h : ViewOk v L) (hst : v.state t ≠ .ready) : ∀ d < schedMaxCpus, t ∉ L d :=
  fun d hd hm => hst ((h.member d hd t).1 hm).2.2.1

theorem ViewOk.not_idle (h : ViewOk v L) (h0 : t ≠ 0) (hr : v.state t ≠ .ready) (hrun : v.state t ≠ .running) :
    ¬ v.IsIdle t := by
  rintro ⟨d, hd, rfl⟩
  exact (h.idle d hd h0).2.2.elim hr hrun

/-- The running thread of a processor is idle only if it is this processor's idle thread. -/
theorem ViewOk.current_idle (h : ViewOk v L) (hc : c < schedMaxCpus) (h0 : v.current c ≠ 0)
    (hi : v.current c ≠ v.idle c) : ¬ v.IsIdle (v.current c) := by
  rintro ⟨d, hd, e⟩
  have hdc : d = c := by
    rw [← (h.idle d hd (e ▸ h0)).2.1, e, (h.running c hc h0).2.2]
  exact hi (hdc ▸ e.symm)

/-- **A processor switches** to a thread of its queue or to its idle thread. The thread it leaves
    is queued again if it is READY and not the idle thread. -/
theorem switch_ok (st : ThreadState) (h : ViewOk v L) (hc : c < schedMaxCpus) (h0 : v.current c ≠ 0)
    (hnext : next ∈ L c ∨ next = v.idle c) (hne : v.current c ≠ next)
    (hback : v.current c = v.idle c → st = .ready)
    (hL : ∀ d < schedMaxCpus, ∀ u, u ∈ L' d ↔ (u ∈ L d ∧ u ≠ next) ∨
      (d = c ∧ u = v.current c ∧ st = .ready ∧ u ≠ v.idle c)) : ViewOk (v.switch c st next) L' := by
  obtain ⟨hk, hrun, hcpu⟩ := h.running c hc h0
  have hidle0 := (h.up c hc).1 h0
  have hnk : next ∈ v.known := hnext.elim (h.known_of_mem hc) fun e => e ▸ (h.idle c hc hidle0).1
  have hncpu : v.cpu next = c := hnext.elim (fun hm => ((h.member c hc next).1 hm).2.2.2)
    fun e => e ▸ (h.idle c hc hidle0).2.1
  -- the threads that other processors run are others
  have hother : ∀ d < schedMaxCpus, d ≠ c → v.current d ≠ 0 →
      v.current d ≠ v.current c ∧ v.current d ≠ next := by
    intro d hd hdc hd0
    have hdcpu := (h.running d hd hd0).2.2
    exact ⟨fun e => hdc (by rw [← hdcpu, e, hcpu]), fun e => hdc (by rw [← hdcpu, e, hncpu])⟩
  refine ⟨fun d hd u => ?_, fun u hu => ?_, h.addr, fun d hd hd0 => ?_, fun d hd => ?_,
    fun d hd hd0 => ?_, h.calls, fun u hu => ?_⟩
  · rw [hL d hd, h.member d hd, switch_idle]
    by_cases hun : u = next
    · subst hun
      simp [View.switch, hne.symm]
    · by_cases huc : u = v.current c
      · subst huc
        have hi : v.IsIdle (v.current c) ↔ v.current c = v.idle c :=
          ⟨fun hi => by_contra fun hn => h.current_idle hc h0 hn hi, fun e => ⟨c, hc, e.symm⟩⟩
        simp only [View.switch, hun, hk, hrun, hi, update_self, update_of_ne, ne_eq, not_false_eq_true,
          reduceCtorEq, true_and, false_and, and_false, false_or, hcpu, eq_comm]
        tauto
      · simp [View.switch, hun, huc]
  · by_cases hun : u = next
    · simpa [View.switch, hun] using hc
    · simpa [View.switch, hun] using h.cpuLt u hu
  · by_cases hdc : d = c
    · subst hdc
      simpa [View.switch] using hnk
    · have hd0' : v.current d ≠ 0 := by simpa [View.switch, hdc] using hd0
      obtain ⟨h1, h2⟩ := hother d hd hdc hd0'
      simpa [View.switch, hdc, h1, h2] using h.running d hd hd0'
  · by_cases hdc : d = c
    · subst hdc
      simpa [View.switch, hidle0] using (h.addr next hnk).1
    · simpa [View.switch, hdc] using h.up d hd
  · obtain ⟨hik, hicpu, hist⟩ := h.idle d hd hd0
    refine ⟨hik, ?_, ?_⟩
    · by_cases hin : v.idle d = next
      · simp only [View.switch, hin, update_self]
        rw [← hncpu, ← hin, hicpu]
      · simpa [View.switch, hin] using hicpu
    · by_cases hin : v.idle d = next
      · simp [View.switch, hin]
      · by_cases hic : v.idle d = v.current c
        · have hdc : d = c := by rw [← hicpu, hic, hcpu]
          subst hdc
          simp [View.switch, hin, ← hic, hback hic.symm]
        · simpa [View.switch, hin, hic] using hist
  · by_cases hun : u = next
    · exact hun ▸ hnk
    · by_cases huc : u = v.current c
      · exact huc ▸ hk
      · exact h.blocked u (by simpa [View.switch, hun, huc] using hu)

theorem switch_effect (h : ViewOk v L) (hc : c < schedMaxCpus) (h0 : v.current c ≠ 0)
    (hnext : next ∈ L c ∨ next = v.idle c) (hne : v.current c ≠ next) : Effect v (v.switch c st next) (· = c)
      (fun t => v.state t = .blocked ∨ (t = v.current c ∧ st = .blocked)) := by
  have hrun := (h.running c hc h0).2.1
  have hnb : v.state next ≠ .blocked := by
    rcases hnext with hm | rfl
    · rw [((h.member c hc next).1 hm).2.2.1]
      simp
    · rcases (h.idle c hc ((h.up c hc).1 h0)).2.2 with hi | hi <;> simp [hi]
  refine ⟨fun d hd => update_of_ne hd .., fun t => ?_⟩
  by_cases htn : t = next
  · subst htn
    simp [View.switch, hnb, hne.symm]
  · by_cases htc : t = v.current c
    · subst htc
      simp [View.switch, htn, hrun]
    · simp [View.switch, htn, htc]

theorem place_effect : Effect v (v.place t st c) (fun _ => False)
    (fun u => (v.state u = .blocked ∧ u ≠ t) ∨ (u = t ∧ st = .blocked)) := by
  refine ⟨fun _ _ => rfl, fun u => ?_⟩
  by_cases hu : u = t
  · subst hu
    simp [View.place]
  · simp [View.place, hu]

theorem Effect.refl (C : Nat → Prop) : Effect v v C (fun t => v.state t = .blocked) :=
  ⟨fun _ _ => rfl, fun _ => Iff.rfl⟩

theorem Effect.mono {v' : View} {C C' B B' : Nat → Prop} (h : Effect v v' C B) (hC : ∀ d, C d → C' d)
    (hB : ∀ t, B t ↔ B' t) : Effect v v' C' B' :=
  ⟨fun d hd => h.current d fun hc => hd (hC d hc), fun t => (h.blocked t).trans (hB t)⟩

theorem known_ok {K : List Nat} (h : ViewOk v L) (hK : ∀ u, u ≠ t → (u ∈ K ↔ u ∈ v.known))
    (ht : t ∈ K → (t ≠ 0 ∧ t % 2 = 0) ∧ v.state t ≠ .ready ∧ v.cpu t < schedMaxCpus)
    (hq : ∀ d < schedMaxCpus, t ∉ L d) (hcur : ∀ d < schedMaxCpus, v.current d ≠ t)
    (hidle : ¬ v.IsIdle t) (hb : v.state t ≠ .blocked) : ViewOk { v with known := K } L where
  member d hd u := by
    by_cases e : u = t
    · grind
    · rw [h.member d hd, ← hK u e]
      rfl
  cpuLt u hu := by
    by_cases e : u = t
    · exact e ▸ (ht (e ▸ hu)).2.2
    · exact h.cpuLt u ((hK u e).1 hu)
  addr u hu := by
    by_cases e : u = t
    · exact e ▸ (ht (e ▸ hu)).1
    · exact h.addr u ((hK u e).1 hu)
  running d hd h0 := ⟨(hK _ (hcur d hd)).2 (h.running d hd h0).1, (h.running d hd h0).2⟩
  up := h.up
  idle d hd h0 := ⟨(hK _ fun e => hidle ⟨d, hd, e⟩).2 (h.idle d hd h0).1, (h.idle d hd h0).2⟩
  calls := h.calls
  blocked u hu := (hK u fun e => hb (e ▸ hu)).2 (h.blocked u hu)

theorem ViewOk.withCalls (h : ViewOk v L) {C : List Call}
    (hC : ∀ t src cpu, .migrate t src cpu ∈ C → cpu < schedMaxCpus ∧ cpu ≠ src) :
    ViewOk { v with calls := C } L :=
  ⟨h.member, h.cpuLt, h.addr, h.running, h.up, h.idle, hC, h.blocked⟩

end View

/-! ## 3. The queues in memory -/

def Sched.view (s : Sched) : View where
  state t := (s.thread t).state
  cpu t := (s.thread t).cpu
  current c := (s.rqs c).current
  idle c := (s.rqs c).idle
  known := s.known
  calls := s.calls

/-- **The run queues hold the lists `L`**, in trees that share no node. -/
structure Queues (s : Sched) (L : Nat → List Nat) : Prop where
  tree : ∀ c < schedMaxCpus, ∃ T, RbOk (s.heap c) T ∧ inorder T = L c
  apart : ∀ c < schedMaxCpus, ∀ d < schedMaxCpus, ∀ t, t ∈ L c → t ∈ L d → c = d
  sub : ∀ c < schedMaxCpus, ∀ t ∈ L c, t ∈ s.known
  count : ∀ c < schedMaxCpus, (s.rqs c).nrRunning = (L c).length

section Queues

variable {s s' : Sched} {L : Nat → List Nat} {c t : Nat}

theorem RbOk.congr {h' : RbHeap} {T : Rbt Nat} (hok : RbOk hp T) (hroot : h'.root = hp.root)
    (hn : ∀ a ∈ inorder T, h'.node a = hp.node a) : RbOk h' T := by
  refine ⟨⟨hroot.trans hok.at_.root, fun q hq => ?_, nofun, hok.at_.nodup, hok.at_.addr⟩, hok.bal⟩
  rw [hn _ (fst_mem_of_cells hq)]
  exact hok.at_.sub q hq

theorem Queues.congr (h : Queues s L) (hn : s'.node = s.node) (hk : s'.known = s.known)
    (hr : ∀ c, (s'.rqs c).root = (s.rqs c).root ∧ (s'.rqs c).nrRunning = (s.rqs c).nrRunning) :
    Queues s' L where
  tree c hc := by grind [Sched.heap, h.tree]
  apart := h.apart
  sub := by rw [hk]; exact h.sub
  count c hc := (hr c).2.trans (h.count c hc)

theorem Queues.setThread (h : Queues s L) (f : Thread → Thread) : Queues (s.setThread t f) L :=
  h.congr rfl rfl fun _ => ⟨rfl, rfl⟩

@[simp] theorem setTree_heap {n : Nat} : (s.setTree c hp n).heap c = hp := by
  simp [Sched.setTree, Sched.heap, Sched.setRq]

theorem setTree_heap_of_ne {n d : Nat} (hd : d ≠ c) : (s.setTree c hp n).heap d = ⟨hp.node, (s.rqs d).root⟩ := by
  simp [Sched.setTree, Sched.heap, Sched.setRq, hd]

theorem setTree_view {n : Nat} : (s.setTree c hp n).view = s.view := by
  simp only [Sched.view, Sched.setTree, Sched.setRq, View.mk.injEq, true_and, and_true]
  grind

theorem setThread_view (f : Thread → Thread) : (s.setThread t f).view =
    s.view.place t (f (s.thread t)).state (f (s.thread t)).cpu := by
  simp only [Sched.view, Sched.setThread, View.place, View.mk.injEq, and_true]
  grind

theorem place_self (v : View) (t : Nat) : v.place t (v.state t) (v.cpu t) = v := by
  simp [View.place]

theorem setThread_view_of_eq {f : Thread → Thread}
    (hf : (f (s.thread t)).state = (s.thread t).state ∧ (f (s.thread t)).cpu = (s.thread t).cpu) :
    (s.setThread t f).view = s.view := by
  rw [setThread_view, hf.1, hf.2]
  exact place_self s.view t

theorem pickBest_mem : ∀ (nodes : List Nat) (acc : Option Nat) {t : Nat},
    nodes.foldl (pickBest s) acc = some t → t ∈ nodes ∨ acc = some t := by
  intro nodes
  induction nodes with
  | nil => exact fun acc t h => .inr h
  | cons n nodes ih =>
    intro acc t h
    rcases ih _ h with hm | hm
    · exact .inl (mem_cons_of_mem _ hm)
    · unfold pickBest at hm
      split at hm
      · exact .inl (by simp [Option.some.inj hm])
      grind

/-- The view after `do_switch`. -/
def View.run (v : View) (c next : Nat) : View :=
  { v.place next .running c with current := update v.current c next }

theorem doSwitch_spec (h : Queues s L) (h0 : next ≠ 0) :
    ∃ s', doSwitch s c next = some s' ∧ Queues s' L ∧ s'.view = s.view.run c next := by
  refine ⟨_, if_neg h0, h.congr rfl rfl fun d => ?_, ?_⟩
  · by_cases hd : d = c <;> simp [Sched.setRq, Sched.setThread, hd]
  · have hv := setThread_view (s := s) (t := next) fun t => { t with state := .running, cpu := c }
    simp only [View.run, ← hv]
    simp only [Sched.view, Sched.setRq, View.mk.injEq, true_and, and_true]
    constructor <;> funext d <;> by_cases hd : d = c <;> simp [hd, Sched.setThread]

section OfCpu

variable (h : Queues s L) (hc : c < schedMaxCpus)
include h hc

theorem Queues.nodup : (L c).Nodup := by
  obtain ⟨T, hT, hL⟩ := h.tree c hc
  grind [hT.at_.nodup]

theorem Queues.length_lt : (L c).length < s.fuel :=
  Nat.lt_succ_of_le (subperm_of_subset (h.nodup hc) (h.sub c hc)).length_le

theorem Queues.visit : rbVisit s.fuel (s.heap c) = some (L c) := by
  obtain ⟨T, hT, hL⟩ := h.tree c hc
  rw [← hL]
  exact rbVisit_spec hT.at_ (hL ▸ h.length_lt hc)

/-- **One tree changes** and the nodes outside it are not written. -/
theorem Queues.setTree {h' : RbHeap} {T : Rbt Nat} {n : Nat}
    (hok : RbOk h' T) (hsame : Same (inorder T) (s.heap c) h')
    (hnew : ∀ t ∈ inorder T, t ∈ s.known ∧ ∀ d < schedMaxCpus, d ≠ c → t ∉ L d)
    (hn : n = (inorder T).length) : Queues (s.setTree c h' n) (update L c (inorder T)) where
  tree d hd := by
    by_cases hdc : d = c
    · grind [setTree_heap]
    · obtain ⟨T', hT', hL'⟩ := h.tree d hd
      refine ⟨T', hT'.congr ?_ fun a ha => ?_, by rw [update_of_ne hdc, hL']⟩
      · rw [setTree_heap_of_ne hdc]
        rfl
      · rw [setTree_heap_of_ne hdc]
        exact hsame a fun hm => (hnew a hm).2 d hd hdc (hL' ▸ ha)
  apart d hd e he t h1 h2 := by
    by_cases hdc : d = c <;> by_cases hec : e = c
    · rw [hdc, hec]
    · grind
    · grind
    grind [h.apart]
  sub d hd t ht := by
    by_cases hdc : d = c
    · subst hdc
      rw [update_self] at ht
      exact (hnew t ht).1
    · rw [update_of_ne hdc] at ht
      exact h.sub d hd t ht
  count d hd := by
    by_cases hdc : d = c
    · subst hdc
      simp [Sched.setTree, Sched.setRq, hn]
    · simp only [Sched.setTree, Sched.setRq, update_of_ne hdc]
      exact h.count d hd

theorem rqInsert_spec (ht : t ∈ s.known)
    (haddr : t ≠ 0 ∧ t % 2 = 0) (hnew : ∀ d < schedMaxCpus, t ∉ L d) (hroom : (L c).length + 1 < 2 ^ 32) :
    ∃ s' l, rqInsert s c t = some s' ∧ Queues s' (update L c l) ∧ s'.view = s.view ∧
      ∀ u, u ∈ l ↔ u ∈ L c ∨ u = t := by
  obtain ⟨T, hT, hL⟩ := h.tree c hc
  obtain ⟨h', T', xs, ys, he, hok, hxy, hT', hsame, -⟩ := rbInsert_spec hT haddr.1
    haddr.2 (hL ▸ hnew c hc) (hL ▸ h.length_lt hc)
  have hmem : ∀ u, u ∈ inorder T' ↔ u ∈ L c ∨ u = t := by
    intro u
    rw [← hL, hxy, hT']
    simp only [mem_append, mem_cons]
    tauto
  refine ⟨s.setTree c h' (((s.rqs c).nrRunning + 1) % 2 ^ 32), inorder T', by rw [rqInsert, he]; rfl,
    h.setTree hc hok hsame (fun u hu => ?_) ?_, setTree_view, hmem⟩
  · grind [h.sub, h.apart]
  grind [h.count]

theorem rqRemove_spec (ht : t ∈ L c) (hroom : (L c).length < 2 ^ 32) :
    ∃ s' l, rqRemove s c t = some s' ∧ Queues s' (update L c l) ∧ s'.view = s.view ∧
      ∀ u, u ∈ l ↔ u ∈ L c ∧ u ≠ t := by
  obtain ⟨T, hT, hL⟩ := h.tree c hc
  obtain ⟨h', T', xs, ys, he, hok, hxy, hT', hsame⟩ := rbErase_spec hT (hL ▸ ht)
    (hL ▸ h.length_lt hc)
  have hnd := h.nodup hc
  rw [← hL, hxy] at hnd
  have hmem : ∀ u, u ∈ inorder T' ↔ u ∈ L c ∧ u ≠ t := by
    intro u
    rw [← hL, hxy, hT']
    simp only [mem_append, mem_cons]
    have hx : t ∉ xs := fun hx => (nodup_append.1 hnd).2.2 t hx t (by simp) rfl
    have hy : t ∉ ys := (nodup_cons.1 (nodup_append.1 hnd).2.1).1
    constructor
    · grind
    · grind
  refine ⟨s.setTree c h' (((s.rqs c).nrRunning + (2 ^ 32 - 1)) % 2 ^ 32), inorder T',
    by rw [rqRemove, he]; rfl, h.setTree hc hok hsame (fun u hu => ?_) ?_, setTree_view, hmem⟩
  · grind [h.sub, h.apart]
  grind [h.count]

theorem raiseMinVr_spec :
    ∃ s', raiseMinVr s c = some s' ∧ Queues s' L ∧ s'.view = s.view ∧ s'.thread = s.thread := by
  have hv : ∃ m, rqMinVr s c = some m := ⟨_, by unfold rqMinVr; rw [h.visit hc]; rfl⟩
  obtain ⟨m, hm⟩ := hv
  unfold raiseMinVr
  rw [hm]
  by_cases hlt : m > (s.rqs c).minVruntime
  · refine ⟨_, congrArg some (if_pos hlt), h.congr rfl rfl fun d => ?_, ?_, rfl⟩
    · by_cases hd : d = c <;> simp [Sched.setRq, hd]
    · simp only [Sched.view, Sched.setRq, View.mk.injEq, true_and, and_true]
      grind
  · exact ⟨s, congrArg some (if_neg hlt), h, rfl, rfl⟩

theorem enqueue_spec (ht : t ∈ s.known)
    (haddr : t ≠ 0 ∧ t % 2 = 0) (hnew : ∀ d < schedMaxCpus, t ∉ L d) (hroom : (L c).length + 1 < 2 ^ 32) :
    ∃ s' l, enqueue s c t = some s' ∧ Queues s' (update L c l) ∧
      s'.view = s.view.place t .ready (s.view.cpu t) ∧ ∀ u, u ∈ l ↔ u ∈ L c ∨ u = t := by
  obtain ⟨s1, he1, h1, hv1, ht1⟩ := raiseMinVr_spec h hc
  have hk : t ∈ s1.known := by
    have : s1.known = s.known := congrArg View.known hv1
    rwa [this]
  obtain ⟨s', l, he, hq, hv, hl⟩ := rqInsert_spec
    (h1.setThread (t := t) fun th => { placed (s1.rqs c) th with state := .ready }) hc hk haddr hnew hroom
  refine ⟨s', l, by rw [enqueue, he1]; exact he, hq, ?_, hl⟩
  rw [hv, setThread_view, hv1]
  exact congrArg (s.view.place t .ready) (congrArg (fun f => (f t).cpu) ht1)

theorem pickNext_spec :
    ∃ next, pickNext s c = some next ∧ (next ∈ L c ∨ next = (s.rqs c).idle) := by
  unfold pickNext
  by_cases h0 : (s.rqs c).nrRunning = 0
  · exact ⟨_, if_pos h0, .inr rfl⟩
  · simp only [if_neg h0, h.visit hc, bind_eq_bind, bind_some]
    grind [pickBest_mem]

theorem switchTo_spec (hnext : next ∈ L c)
    (h0 : next ≠ 0) (hroom : (L c).length < 2 ^ 32) :
    ∃ s' L', (do let s ← rqRemove s c next; doSwitch s c next) = some s' ∧ Queues s' L' ∧
      s'.view = s.view.run c next ∧ ∀ d < schedMaxCpus, ∀ u, u ∈ L' d ↔ u ∈ L d ∧ u ≠ next := by
  obtain ⟨s1, l, he1, h1, hv1, hl⟩ := rqRemove_spec h hc hnext hroom
  obtain ⟨s', he, hq, hv⟩ := doSwitch_spec (c := c) h1 h0
  refine ⟨s', _, by rw [he1]; exact he, hq, by rw [hv, hv1], fun d hd u => ?_⟩
  by_cases hdc : d = c
  · subst hdc
    rw [update_self, hl]
  grind [h.apart]

theorem leaveFor_spec
    (hnext : next ∈ L c ∨ next = (s.rqs c).idle) (hidle : ∀ d < schedMaxCpus, (s.rqs c).idle ∉ L d)
    (h0 : next ≠ 0) (hroom : (L c).length < 2 ^ 32) :
    ∃ s' L', leaveFor s c next = some s' ∧ Queues s' L' ∧ s'.view = s.view.run c next ∧
      ∀ d < schedMaxCpus, ∀ u, u ∈ L' d ↔ u ∈ L d ∧ u ≠ next := by
  unfold leaveFor
  by_cases hi : next = (s.rqs c).idle
  · obtain ⟨s', he, hq, hv⟩ := doSwitch_spec (c := c) h h0
    grind
  · rw [if_pos hi]
    exact switchTo_spec h hc (hnext.resolve_right hi) h0 hroom

end OfCpu

theorem moveTo_spec {mark : Thread → Thread} (h : Queues s L)
    (hs : src < schedMaxCpus) (hd : dst < schedMaxCpus) (hne : dst ≠ src) (ht : t ∈ L src)
    (haddr : t ≠ 0 ∧ t % 2 = 0) (hr : (L src).length < 2 ^ 32) (hr' : (L dst).length + 1 < 2 ^ 32)
    (hmark : ∀ th, (mark th).cpu = th.cpu ∧ (th.state = .ready → (mark th).state = .ready))
    (hst : (s.thread t).state = .ready) :
    ∃ s' L', moveTo mark s t src dst = some s' ∧ Queues s' L' ∧ s'.view = s.view.place t .ready dst ∧
      ∀ d < schedMaxCpus, ∀ u, u ∈ L' d ↔ (u ∈ L d ∧ u ≠ t) ∨ (d = dst ∧ u = t) := by
  obtain ⟨s1, l, he1, h1, hv1, hl⟩ := rqRemove_spec h hs ht hr
  have hout : ∀ d < schedMaxCpus, ∀ u, u ∈ update L src l d ↔ u ∈ L d ∧ u ≠ t := by
    intro d hd' u
    by_cases hds : d = src
    · subst hds
      rw [update_self, hl]
    · grind [h.apart]
  have hk1 : t ∈ s1.known := by
    have : s1.known = s.known := congrArg View.known hv1
    rw [this]
    exact h.sub src hs t ht
  have hst1 : (s1.thread t).state = .ready := (congrArg (fun v => v.state t) hv1).trans hst
  obtain ⟨s', l', he, hq, hv, hl'⟩ := rqInsert_spec
    (h1.setThread (t := t) fun th => mark { placed (s1.rqs dst) th with cpu := dst }) hd hk1 haddr
    (fun d hd' hm => ((hout d hd' t).1 hm).2 rfl) (by rwa [update_of_ne hne])
  refine ⟨s', _, by rw [moveTo, he1]; exact he, hq, ?_, fun d hd' u => ?_⟩
  · grind [placed, setThread_view]
  grind

theorem rightmost_mem (fuel : Nat) {T : Rbt Nat} : ∀ {p : Path Nat}, At hp p T →
    T ≠ .nil → (inorder T).length ≤ fuel → ∃ n ∈ inorder T, rightmost fuel hp (ptr T) = some n := by
  induction T generalizing fuel with
  | nil => exact fun _ h0 => absurd rfl h0
  | node c l a r _ ihr =>
    intro p hat _ hf
    simp only [inorder, length_append, length_cons] at hf
    obtain ⟨fuel, rfl⟩ : ∃ k, fuel = k + 1 := ⟨fuel - 1, by omega⟩
    have hat' : At hp p (Rbt.mk .left c a l r) := hat
    have hr : (hp.node a).right = ptr r := by rw [hat'.node]; rfl
    unfold rightmost
    rw [show ptr (.node c l a r) = a from rfl, hr]
    by_cases hnil : r = .nil
    · exact ⟨a, by simp [inorder], if_neg fun h0 => h0.2 (by rw [hnil]; rfl)⟩
    · have hrat : At hp (⟨.right, c, a, l⟩ :: p) r := at_cons.2 hat
      obtain ⟨c', b, l', r', rfl⟩ := Rbt.exists_mk .left hnil
      obtain ⟨n, hn, he⟩ := ihr fuel hrat hnil (by omega)
      refine ⟨n, ?_, (if_pos ⟨hat'.key_ok.1, ?_⟩).trans he⟩
      · grind [inorder]
      · rw [ptr_mk]
        exact hrat.key_ok.1

end Queues

/-! ## 4. One step -/

/-- **The invariant of the scheduler.** -/
def SchedOk (s : Sched) : Prop := ∃ L, Queues s L ∧ ViewOk s.view L

/-- No queue counts to the end of `uint32_t`. -/
def Room (L : Nat → List Nat) : Prop := ∀ c < schedMaxCpus, (L c).length + 1 < 2 ^ 32

/-- **A step comes to its end**, in a state in order, with the effect `C`, `B`. -/
abbrev Leads (s : Sched) (r : Option Sched) (C B : Nat → Prop) : Prop :=
  ∃ s', r = some s' ∧ SchedOk s' ∧ Effect s.view s'.view C B

theorem place_run (v : View) (c : Nat) (st : ThreadState) (next : Nat) :
    (v.place (v.current c) st (v.cpu (v.current c))).run c next = v.switch c st next := by
  simp [View.run, View.place, View.switch]

section Steps

variable {s s0 : Sched} {L : Nat → List Nat} {c t next : Nat}

theorem ViewOk.idle_not_queued (h : ViewOk s.view L) (hc : c < schedMaxCpus) :
    ∀ d < schedMaxCpus, (s.rqs c).idle ∉ L d := fun d hd hm =>
  ((h.member d hd _).1 hm).2.1 ⟨c, hc, rfl⟩

theorem ViewOk.next_ne (h : ViewOk s.view L) (hc : c < schedMaxCpus) (hcur : (s.rqs c).current ≠ 0)
    (hnext : next ∈ L c ∨ next = (s.rqs c).idle) : next ≠ 0 ∧ (next ∈ L c → (s.rqs c).current ≠ next) := by
  refine ⟨?_, fun hm e => ?_⟩
  · rcases hnext with hm | rfl
    · exact (h.addr next (h.known_of_mem hc hm)).1
    · exact (h.up c hc).1 hcur
  · have hr : s.view.state next = .running := e ▸ (h.running c hc hcur).2.1
    rw [((h.member c hc next).1 hm).2.2.1] at hr
    cases hr

theorem SchedOk.of_view (hq : Queues s0 L) (hv : ViewOk s.view L) (he : s0.view = s.view) (C : Nat → Prop) :
    SchedOk s0 ∧ Effect s.view s0.view C (fun t => s.view.state t = .blocked) :=
  ⟨⟨L, hq, he ▸ hv⟩, he ▸ Effect.refl C⟩

theorem enqueued_iff {l : List Nat} (hnew : ∀ d < schedMaxCpus, t ∉ L d)
    (hl : ∀ u, u ∈ l ↔ u ∈ L c ∨ u = t) : ∀ d < schedMaxCpus, ∀ u, u ∈ update L c l d ↔
      (u ∈ L d ∧ u ≠ t) ∨ (d = c ∧ u = t ∧ ThreadState.ready = .ready) := by grind

variable (hq : Queues s L) (hv : ViewOk s.view L) (hroom : Room L)

include hq hv hroom

section

variable (hc : c < schedMaxCpus) (hcur : (s.rqs c).current ≠ 0) (hi : (s.rqs c).current ≠ (s.rqs c).idle)
include hc hcur hi

theorem leaveFor_ok (hnext : next ∈ L c ∨ next = (s.rqs c).idle) (st : ThreadState) (hst : st ≠ .ready) :
    Leads s (leaveFor (s.setThread (s.rqs c).current fun t => { t with state := st }) c next) (· = c)
      (fun t => s.view.state t = .blocked ∨ (t = (s.rqs c).current ∧ st = .blocked)) := by
  obtain ⟨h0, hne⟩ := hv.next_ne hc hcur hnext
  have hlt := hroom c hc
  obtain ⟨s', L', he, hq', hv', hL⟩ := leaveFor_spec
    (hq.setThread (t := (s.rqs c).current) fun t => { t with state := st }) hc hnext
    (hv.idle_not_queued hc) h0 (by omega)
  have hcn : (s.rqs c).current ≠ next := hnext.elim hne fun e => e ▸ hi
  have hsw := switch_ok st hv hc hcur hnext hcn
    (fun e => absurd e hi) fun d hd u => by rw [hL d hd]; simp [hst]
  have hview : s'.view = s.view.switch c st next := by
    rw [hv', setThread_view, ← place_run]
    rfl
  exact ⟨s', he, ⟨L', hq', hview ▸ hsw⟩, hview ▸ switch_effect hv hc hcur hnext hcn⟩

/-- **The running thread is queued again and another one of its queue runs.** -/
theorem requeue_ok (hnext : next ∈ L c) : Leads s (do
      let s ← enqueue s c (s.rqs c).current
      let s ← rqRemove s c next
      doSwitch s c next) (· = c) (fun t => s.view.state t = .blocked) := by
  obtain ⟨h0, hne⟩ := hv.next_ne hc hcur (.inl hnext)
  obtain ⟨hk, hrun, -⟩ := hv.running c hc hcur
  obtain ⟨s1, l, he1, hq1, hv1, hl⟩ := enqueue_spec (t := (s.rqs c).current) hq hc hk (hv.addr _ hk)
    (hv.not_queued (show s.view.state (s.view.current c) ≠ .ready by rw [hrun]; simp)) (hroom c hc)
  have hlen : (update L c l c).length < 2 ^ 32 := by
    have := (subperm_of_subset (hq1.nodup hc)
      (by rw [update_self]; intro u hu; rw [mem_cons, or_comm]; exact (hl u).1 hu)).length_le
    have hlt := hroom c hc
    simp only [length_cons] at this
    omega
  obtain ⟨s', L', he, hq', hv', hL⟩ := switchTo_spec hq1 hc
    (by rw [update_self]; exact (hl next).2 (.inl hnext)) h0 hlen
  have hview : s'.view = s.view.switch c .ready next := by
    rw [hv', hv1, ← place_run]
    rfl
  refine ⟨s', by rw [he1]; exact he, ⟨L', hq', ?_⟩, hview ▸
    (switch_effect hv hc hcur (.inl hnext) (hne hnext)).mono (fun _ => id) (by simp)⟩
  have hsw := switch_ok .ready hv hc hcur (.inl hnext) (hne hnext)
    (fun _ => rfl) fun d hd u => by
      rw [hL d hd]
      by_cases hdc : d = c
      · subst hdc
        rw [update_self, hl]
        have hcn := hne hnext
        constructor
        · rintro ⟨hu | rfl, hun⟩
          · exact .inl ⟨hu, hun⟩
          · exact .inr ⟨rfl, rfl, rfl, hi⟩
        · rintro (⟨hu, hun⟩ | ⟨-, rfl, -⟩)
          · exact ⟨.inl hu, hun⟩
          · exact ⟨.inr rfl, hcn⟩
      · rw [update_of_ne hdc]
        simp [hdc]
  exact hview ▸ hsw

theorem schedYield_ok : Leads s (schedYield s c) (· = c) (fun t => s.view.state t = .blocked) := by
  obtain ⟨next, hp, hnext⟩ := pickNext_spec hq hc
  unfold schedYield
  simp only [hp, bind_eq_bind, bind_some, if_neg hcur]
  by_cases hstay : next = (s.rqs c).idle ∨ next = (s.rqs c).current
  · exact ⟨_, if_pos hstay, SchedOk.of_view (hq.setThread _) hv (setThread_view_of_eq ⟨rfl, rfl⟩) _⟩
  · rw [if_neg hstay]
    have hve : (s.setThread (s.rqs c).current fun t => { t with vruntime := t.vdeadline }).view = s.view :=
      setThread_view_of_eq ⟨rfl, rfl⟩
    rw [Leads, ← hve]
    exact requeue_ok (hq.setThread _) (hve ▸ hv) hroom hc hcur hi
      (hnext.resolve_right fun e => hstay (.inl e))

theorem schedBlock_ok :
    Leads s (schedBlock s c) (· = c) (fun t => s.view.state t = .blocked ∨ t = (s.rqs c).current) := by
  obtain ⟨next, hp, hnext⟩ := pickNext_spec hq hc
  unfold schedBlock
  simp only [hp, bind_eq_bind, bind_some, if_neg hcur]
  obtain ⟨s', he, hok, heff⟩ := leaveFor_ok hq hv hroom hc hcur hi hnext .blocked nofun
  exact ⟨s', he, hok, heff.mono (fun _ => id) (by simp)⟩

theorem schedThreadExit_ok : Leads s (schedThreadExit s c) (· = c) (fun t => s.view.state t = .blocked) := by
  obtain ⟨next, hp, hnext⟩ := pickNext_spec
    (hq.setThread (t := (s.rqs c).current) fun t => { t with state := .zombie }) hc
  unfold schedThreadExit
  simp only [hp, bind_eq_bind, bind_some, if_neg hcur]
  obtain ⟨s', he, hok, heff⟩ := leaveFor_ok hq hv hroom hc hcur hi hnext .zombie nofun
  exact ⟨s', he, hok, heff.mono (fun _ => id) (by simp)⟩

end

theorem idleGivesWay_ok (hc : c < schedMaxCpus) (hcur : (s.rqs c).current ≠ 0)
    (hi : (s.rqs c).current = (s.rqs c).idle) (hnext : next ∈ L c) : Leads s (do
      let s ← rqRemove (s.setThread (s.rqs c).current fun t => { t with state := .ready }) c next
      doSwitch s c next) (· = c) (fun t => s.view.state t = .blocked) := by
  obtain ⟨h0, hne⟩ := hv.next_ne hc hcur (.inl hnext)
  have hlt := hroom c hc
  obtain ⟨s', L', he, hq', hv', hL⟩ := switchTo_spec
    (hq.setThread (t := (s.rqs c).current) fun t => { t with state := .ready }) hc hnext h0 (by omega)
  have hview : s'.view = s.view.switch c .ready next := by
    rw [hv', setThread_view, ← place_run]
    rfl
  refine ⟨s', he, ⟨L', hq', ?_⟩, hview ▸
    (switch_effect hv hc hcur (.inl hnext) (hne hnext)).mono (fun _ => id) (by simp)⟩
  have hsw := switch_ok .ready hv hc hcur (.inl hnext) (hne hnext)
    (fun _ => rfl) fun d hd u => by
      rw [hL d hd]
      refine ⟨.inl, fun hu => hu.resolve_right ?_⟩
      rintro ⟨-, rfl, -, hn⟩
      exact hn hi
  exact hview ▸ hsw

theorem schedTick_ok (hc : c < schedMaxCpus) :
    Leads s (schedTick s c) (· = c) (fun t => s.view.state t = .blocked) := by
  unfold schedTick
  by_cases hcur : (s.rqs c).current = 0
  · exact ⟨s, if_pos hcur, ⟨L, hq, hv⟩, Effect.refl _⟩
  simp only [if_neg hcur]
  obtain ⟨s1, hs1⟩ : ∃ s1, s1 = s.setThread (s.rqs c).current fun t => { t with vruntime := t.vdeadline } :=
    ⟨_, rfl⟩
  have hrqs : s1.rqs = s.rqs := by rw [hs1]; rfl
  have hq1 : Queues s1 L := hs1 ▸ hq.setThread _
  have hve : s1.view = s.view := hs1 ▸ setThread_view_of_eq ⟨rfl, rfl⟩
  have hv1 : ViewOk s1.view L := hve ▸ hv
  rw [← hs1, ← hrqs, Leads, ← hve]
  rw [← hrqs] at hcur
  by_cases hi : (s1.rqs c).current = (s1.rqs c).idle
  · rw [if_pos hi]
    obtain ⟨next, hp, hnext⟩ := pickNext_spec hq1 hc
    simp only [hp, bind_eq_bind, bind_some]
    by_cases hn : next = (s1.rqs c).idle
    · exact ⟨s1, if_neg (by simpa using hn), ⟨L, hq1, hv1⟩, Effect.refl _⟩
    · rw [if_pos hn]
      grind [idleGivesWay_ok]
  · rw [if_neg hi]
    obtain ⟨s2, he2, hq2, hve2, -⟩ := raiseMinVr_spec hq1 hc
    have hv2 : ViewOk s2.view L := hve2 ▸ hv1
    have hc2 : (s2.rqs c).current = (s1.rqs c).current := congrArg (fun v => v.current c) hve2
    have hi2 : (s2.rqs c).idle = (s1.rqs c).idle := congrArg (fun v => v.idle c) hve2
    obtain ⟨next, hp, hnext⟩ := pickNext_spec hq2 hc
    simp only [he2, hp, bind_eq_bind, bind_some]
    rw [← hc2] at hcur hi ⊢
    rw [← hve2]
    rw [← hi2] at hi
    by_cases hn : next = (s2.rqs c).idle
    · exact ⟨_, if_pos hn, SchedOk.of_view (hq2.setThread _) hv2 (setThread_view_of_eq ⟨rfl, rfl⟩) _⟩
    · rw [if_neg hn]
      exact requeue_ok hq2 hv2 hroom hc hcur hi (hnext.resolve_right hn)

theorem schedThreadCreate_ok (ht : t ∉ s.known) (haddr : t ≠ 0 ∧ t % 2 = 0) (hc : c < schedMaxCpus) :
    Leads s (schedThreadCreate s t c) (fun _ => False) (fun u => s.view.state u = .blocked) := by
  have hnew : ∀ d < schedMaxCpus, t ∉ L d := fun d hd hm => ht (hq.sub d hd t hm)
  have hcur : ∀ d < schedMaxCpus, s.view.current d ≠ t := fun d hd e =>
    ht (e ▸ (hv.running d hd (e ▸ haddr.1)).1)
  have hidle : ¬ s.view.IsIdle t := fun ⟨d, hd, e⟩ => ht (e ▸ (hv.idle d hd (e ▸ haddr.1)).1)
  obtain ⟨s1, hs1⟩ : ∃ s1 : Sched, s1 = { s with
    thread := update s.thread t { tid := s.nextTid, cpu := c }
    nextTid := (s.nextTid + 1) % 2 ^ 32
    known := t :: s.known } := ⟨_, rfl⟩
  have hq1 : Queues s1 L := by
    rw [hs1]
    exact ⟨hq.tree, hq.apart, fun d hd u hu => mem_cons_of_mem _ (hq.sub d hd u hu), hq.count⟩
  obtain ⟨s', l, he, hq', hv', hl⟩ := enqueue_spec (t := t) hq1 hc (by rw [hs1]; simp) haddr hnew
    (hroom c hc)
  -- the object gets its processor, joins the known ones, and becomes READY
  have h1 := place_ok .zombie hv nofun hcur hidle hc fun d hd u =>
    ⟨fun hu => .inl ⟨hu, fun e => hnew d hd (e ▸ hu)⟩, fun hu => (hu.resolve_right (by simp)).1⟩
  have h2 := known_ok (t := t) (K := t :: s.known) h1 (fun u hu => by simp [hu, View.place, Sched.view])
    (fun _ => ⟨haddr, by simp [View.place], by simpa [View.place] using hc⟩) hnew hcur hidle
    (by simp [View.place])
  have h3 := place_ok .ready (t := t) (c := c) h2 (fun _ => mem_cons_self)
    hcur hidle hc (enqueued_iff hnew hl)
  have hview : s'.view = View.place { s.view.place t .zombie c with known := t :: s.known } t .ready c := by
    rw [hv', hs1]
    simp only [View.place, Sched.view, View.mk.injEq, and_true, update_idem, update_self]
    constructor <;> funext u <;> by_cases hu : u = t <;> simp [hu]
  refine ⟨s', by rw [schedThreadCreate, ← hs1]; exact he, ⟨_, hq', hview ▸ h3⟩, fun d _ => ?_, fun u => ?_⟩
  · rw [hview]
    rfl
  · rw [hview]
    by_cases hu : u = t
    · subst hu
      simp only [View.place, update_self, reduceCtorEq, false_iff]
      exact fun hb => ht (hv.blocked u hb)
    · simp [View.place, hu]

theorem schedUnblock_ok (ht : t ∈ s.known) (hcpu : (s.thread t).state = .blocked → (s.thread t).cpu = c) :
    Leads s (schedUnblock s t c) (fun _ => False) (fun u => s.view.state u = .blocked ∧ u ≠ t) := by
  unfold schedUnblock
  by_cases hb : (s.thread t).state = .blocked
  swap
  · exact ⟨s, if_neg hb, ⟨L, hq, hv⟩, (Effect.refl _).mono (fun _ => id) fun u =>
      ⟨fun hu => ⟨hu, fun e => hb (e ▸ hu)⟩, fun hu => hu.1⟩⟩
  rw [if_pos hb]
  have hst : s.view.state t = .blocked := hb
  have haddr := hv.addr t ht
  have hc : c < schedMaxCpus := hcpu hb ▸ hv.cpuLt t ht
  have hnew := hv.not_queued (t := t) (by rw [hst]; simp)
  have hidle := hv.not_idle haddr.1 (by rw [hst]; simp) (by rw [hst]; simp)
  obtain ⟨s', l, he, hq', hv', hl⟩ := enqueue_spec (t := t) hq hc ht haddr hnew (hroom c hc)
  rw [show s.view.cpu t = c from hcpu hb] at hv'
  refine ⟨s', he, ⟨_, hq', ?_⟩, hv' ▸ place_effect.mono (fun _ => id) (by simp)⟩
  rw [hv']
  exact place_ok _ hv (fun _ => ht)
    (fun d hd => hv.not_current (by rw [hst]; simp) haddr.1 hd) hidle hc (enqueued_iff hnew hl)

theorem moveTo_ok {mark : Thread → Thread} (hs : src < schedMaxCpus)
    (hd : dst < schedMaxCpus) (hne : dst ≠ src) (ht : t ∈ L src)
    (hmark : ∀ th, (mark th).cpu = th.cpu ∧ (th.state = .ready → (mark th).state = .ready)) :
    Leads s (moveTo mark s t src dst) (fun _ => False) (fun u => s.view.state u = .blocked) := by
  obtain ⟨hk, hidle, hst, -⟩ := (hv.member src hs t).1 ht
  have haddr := hv.addr t hk
  have hr := hroom src hs
  obtain ⟨s', L', he, hq', hv', hL⟩ := moveTo_spec hq hs hd hne ht haddr (by omega) (hroom dst hd)
    hmark hst
  refine ⟨s', he, ⟨L', hq', ?_⟩, hv' ▸ place_effect.mono (fun _ => id) fun u => ?_⟩
  swap
  · grind
  grind [place_ok, hv.not_current]

theorem schedMigrate_ok (ht : t ∈ s.known)
    (hd : dst < schedMaxCpus) (hne : dst ≠ src) (hrun : (s.thread t).state ≠ .running)
    (hidle : ¬ s.view.IsIdle t) (hcpu : (s.thread t).state = .ready → (s.thread t).cpu = src) :
    Leads s (schedMigrate s t src dst) (fun _ => False) (fun u => s.view.state u = .blocked) := by
  unfold schedMigrate
  by_cases hr : (s.thread t).state = .ready
  · rw [if_pos hr]
    have hs : src < schedMaxCpus := hcpu hr ▸ hv.cpuLt t ht
    exact moveTo_ok hq hv hroom hs hd hne ((hv.member src hs t).2 ⟨ht, hidle, hr, hcpu hr⟩)
      fun _ => ⟨rfl, id⟩
  · have hview := setThread_view (s := s) (t := t) fun th => { th with cpu := dst }
    refine ⟨_, if_neg hr, ⟨L, hq.setThread _, ?_⟩, hview ▸ place_effect.mono (fun _ => id) fun u => ?_⟩
    swap
    · by_cases hu : u = t
      · subst hu
        simp [Sched.view]
      · simp [hu]
    rw [hview]
    refine place_ok _ hv (fun _ => ht)
      (fun d hd => hv.not_current hrun (hv.addr t ht).1 hd) hidle hd fun d hd u => ?_
    have hout : t ∉ L d := fun hm => hr ((hv.member d hd t).1 hm).2.2.1
    grind

theorem loadBalance_ok (hs : src < schedMaxCpus) (hd : dst < schedMaxCpus) (hne : dst ≠ src) :
    Leads s (loadBalance s dst src) (fun _ => False) (fun u => s.view.state u = .blocked) := by
  unfold loadBalance
  by_cases h1 : (s.rqs src).nrRunning > 1
  swap
  · exact ⟨s, if_neg h1, ⟨L, hq, hv⟩, Effect.refl _⟩
  rw [if_pos h1, hq.count src hs] at *
  obtain ⟨T, hT, hL⟩ := hq.tree src hs
  have hnil : T ≠ .nil := by
    rintro rfl
    rw [← hL] at h1
    simp [inorder] at h1
  have hf := hq.length_lt hs
  obtain ⟨n, hn, he⟩ := rightmost_mem s.fuel hT.at_ hnil (by rw [hL]; omega)
  have hroot : (s.heap src).root = ptr T := hT.at_.root
  rw [hL] at hn
  have h0 : n ≠ 0 := (hv.addr n (hq.sub src hs n hn)).1
  simp only [hroot, he, bind_eq_bind, bind_some, if_pos h0]
  exact moveTo_ok hq hv hroom hs hd hne hn fun _ => ⟨rfl, fun _ => rfl⟩

end Steps

/-! ## 5. Every run -/

theorem room_of_safe {s : Sched} {L : Nat → List Nat} (hq : Queues s L)
    (h : ∀ c < schedMaxCpus, (s.rqs c).nrRunning + 1 < 2 ^ 32) : Room L := fun c hc => by
  rw [← hq.count c hc]
  exact h c hc

/-- The processor a step may switch. -/
def SchedOp.On (d : Nat) : SchedOp → Prop
  | .tick c | .yield c | .block c | .exit c => d = c
  | _ => False

/-- The threads that are blocked after a step. -/
def SchedOp.Blocked (s : Sched) (t : Nat) : SchedOp → Prop
  | .block c => (s.thread t).state = .blocked ∨ t = (s.rqs c).current
  | .unblockRun u _ => (s.thread t).state = .blocked ∧ t ≠ u
  | _ => (s.thread t).state = .blocked

theorem schedExec_ok {s : Sched} (h : SchedOk s) {op : SchedOp} (ha : op.Admissible s)
    (hsafe : op.Safe s) : Leads s (schedExec s op) (fun d => op.On d) (fun t => op.Blocked s t) := by
  obtain ⟨L, hq, hv⟩ := h
  obtain ⟨hroom, hs⟩ := hsafe
  have hroom := room_of_safe hq hroom
  have hcalls : ∀ C : List Call, (∀ x ∈ C, x ∈ s.calls) →
      Queues { s with calls := C } L ∧ ViewOk ({ s with calls := C } : Sched).view L := fun C hC =>
    ⟨hq.congr rfl rfl fun _ => ⟨rfl, rfl⟩, hv.withCalls fun t src cpu hm => hv.calls t src cpu (hC _ hm)⟩
  cases op with
  | create t c => exact schedThreadCreate_ok hq hv hroom ha.1 ⟨ha.2.1, ha.2.2.1⟩ ha.2.2.2.1
  | tick c => exact schedTick_ok hq hv hroom ha
  | yield c => exact schedYield_ok hq hv hroom ha.1 ha.2.1 ha.2.2
  | block c => exact schedBlock_ok hq hv hroom ha.1 ha.2.1 ha.2.2
  | exit c => exact schedThreadExit_ok hq hv hroom ha.1 ha.2.1 ha.2.2
  | unblockCall t =>
    by_cases hb : (s.thread t).state = .blocked
    · refine ⟨_, if_pos hb, ⟨L, hq.congr rfl rfl fun _ => ⟨rfl, rfl⟩, hv.withCalls ?_⟩,
        fun _ _ => rfl, fun _ => Iff.rfl⟩
      intro u src cpu hm
      exact hv.calls u src cpu ((mem_cons.1 hm).resolve_left nofun)
    · exact ⟨s, if_neg hb, ⟨L, hq, hv⟩, Effect.refl _⟩
  | unblockRun t c =>
    obtain ⟨hq', hv'⟩ := hcalls _ fun x hx => mem_of_mem_erase (b := Call.unblock t c) hx
    obtain ⟨s', he, hok, heff⟩ := schedUnblock_ok hq' hv' hroom ha.2 hs
    exact ⟨s', he, hok, heff.current, heff.blocked⟩
  | migrateCall t cpu =>
    by_cases hb : schedMaxCpus ≤ cpu ∨ (s.rqs cpu).idle = 0 ∨ (s.thread t).cpu = cpu
    · exact ⟨s, if_pos hb, ⟨L, hq, hv⟩, Effect.refl _⟩
    · refine ⟨_, if_neg hb, ⟨L, hq.congr rfl rfl fun _ => ⟨rfl, rfl⟩, hv.withCalls ?_⟩,
        fun _ _ => rfl, fun _ => Iff.rfl⟩
      intro u src d hm
      rcases mem_cons.1 hm with e | hm
      · grind
      · exact hv.calls u src d hm
  | migrateRun t src cpu =>
    obtain ⟨hd, hne⟩ := hv.calls t src cpu ha.1
    obtain ⟨hq', hv'⟩ := hcalls _ fun x hx => mem_of_mem_erase (b := Call.migrate t src cpu) hx
    obtain ⟨s', he, hok, heff⟩ := schedMigrate_ok hq' hv' hroom ha.2 hd hne hs.1 hs.2.1 hs.2.2
    exact ⟨s', he, hok, heff.current, heff.blocked⟩
  | balance dst src => exact loadBalance_ok hq hv hroom ha.2.1 ha.1 ha.2.2.1
  | reap t =>
    obtain ⟨hk, hz⟩ := ha
    have hst : s.view.state t = .zombie := hz
    have haddr := hv.addr t hk
    have hout := hv.not_queued (t := t) (by rw [hst]; simp)
    refine ⟨_, rfl, ⟨L, ⟨hq.tree, hq.apart, fun d hd u hu => ?_, hq.count⟩,
      known_ok (t := t) hv (fun u hu => mem_erase_of_ne hu)
        (fun _ => ⟨haddr, by rw [hst]; simp, hv.cpuLt t hk⟩) hout
        (fun d hd => hv.not_current (by rw [hst]; simp) haddr.1 hd)
        (hv.not_idle haddr.1 (by rw [hst]; simp) (by rw [hst]; simp)) (by rw [hst]; simp)⟩,
      fun _ _ => rfl, fun _ => Iff.rfl⟩
    exact (mem_erase_of_ne fun e : u = t => hout d hd (e ▸ hu)).2 (hq.sub d hd u hu)

theorem SchedOk.laws {s : Sched} (h : SchedOk s) : ∃ trees, RqLaws s trees := by
  obtain ⟨L, hq, hv⟩ := h
  have htree : ∀ c, ∃ T, c < schedMaxCpus → RbOk (s.heap c) T ∧ inorder T = L c := fun c => by
    by_cases hc : c < schedMaxCpus
    · grind [hq.tree]
    · exact ⟨.nil, fun h => absurd h hc⟩
  choose trees htrees using htree
  have hT := fun c hc => (htrees c hc).1
  have hL := fun c hc => (htrees c hc).2
  refine ⟨trees, fun c hc => (hT c hc).at_, fun t ht hr hi => ⟨hv.cpuLt t ht, fun c hc => ?_⟩,
    fun c hc t ht => ?_, fun c hc => ?_⟩
  · rw [hL c hc, hv.member c hc]
    exact ⟨fun hm => hm.2.2.2.symm, fun e => ⟨ht, hi, hr, e.symm⟩⟩
  · rw [hL c hc] at ht
    exact ((hv.member c hc t).1 ht).2.2.1
  · rw [hL c hc]
    exact hq.count c hc

section Boot

variable {n c t : Nat}

theorem mem_schedBoot_known : t ∈ (schedBoot n).view.known ↔ t = bootThread ∨ ∃ c < n, t = idleThread c := by
  simp only [Sched.view, schedBoot, mem_cons, List.mem_map, mem_range, eq_comm]

theorem schedBoot_rqs (hc : c < n) : (schedBoot n).rqs c =
    { current := if c = 0 then bootThread else idleThread c, idle := idleThread c } := if_pos hc

theorem schedBoot_rqs_down (hc : ¬ c < n) : (schedBoot n).rqs c = {} := if_neg hc

theorem schedBoot_boot :
    (schedBoot n).thread bootThread = { tid := 1, vdeadline := sliceVtime, state := .running } := by
  simp [schedBoot]

theorem schedBoot_idle (hc : c < schedMaxCpus) : (schedBoot n).thread (idleThread c) =
    { tid := c + 2, cpu := c, state := if c = 0 then .ready else .running } := by
  have hmax : schedMaxCpus = 16 := rfl
  have h1 : (2 * c + 2) / 2 + 1 = c + 2 := by omega
  have h2 : (2 * c + 2) / 2 - 1 = c := by omega
  have h3 : (2 * c + 2 = 2 * 0 + 2) ↔ c = 0 := by omega
  have h4 : idleThread c ≠ bootThread := by
    simp only [idleThread, bootThread]
    omega
  rw [schedBoot]
  simp only [if_neg h4]
  simp only [idleThread, h1, h2, h3]

theorem schedBoot_ok (hn : n ≤ schedMaxCpus) : SchedOk (schedBoot n) := by
  have hmax : schedMaxCpus = 16 := rfl
  have hup : ∀ c, (schedBoot n).view.current c ≠ 0 ∨ (schedBoot n).view.idle c ≠ 0 → c < n := by
    intro c h
    by_contra hc
    simp [Sched.view, schedBoot_rqs_down hc] at h
  refine ⟨fun _ => [], ⟨fun c _ => ⟨.nil, ⟨⟨?_, nofun, nofun, nodup_nil, nofun⟩, 0, .nil⟩, rfl⟩,
    fun _ _ _ _ _ h => absurd h not_mem_nil, fun _ _ _ h => absurd h not_mem_nil, ?_⟩,
    fun c hc t => ?_, fun t ht => ?_, fun t ht => ?_, fun c hc h => ?_, fun c hc => ?_, fun c hc h => ?_,
    nofun, fun t hb => ?_⟩
  · simp only [Sched.heap, schedBoot]
    split <;> rfl
  · intro c _
    simp only [schedBoot]
    split <;> rfl
  · simp only [not_mem_nil, false_iff]
    rintro ⟨hk, hi, hr, -⟩
    rcases mem_schedBoot_known.1 hk with rfl | ⟨d, hd, rfl⟩
    · simp [Sched.view, schedBoot_boot] at hr
    · exact hi ⟨d, by omega, by simp [Sched.view, schedBoot_rqs hd]⟩
  · rcases mem_schedBoot_known.1 ht with rfl | ⟨d, hd, rfl⟩
    · simp [Sched.view, schedBoot_boot, hmax]
    grind [Sched.view, schedBoot_idle]
  · rcases mem_schedBoot_known.1 ht with rfl | ⟨d, hd, rfl⟩
    · exact ⟨by decide, by decide⟩
    · simp only [idleThread]
      omega
  · have hcn := hup c (.inl h)
    by_cases hc0 : c = 0
    · subst hc0
      simp only [Sched.view, schedBoot_rqs hcn, if_pos, schedBoot_boot, and_true]
      exact mem_schedBoot_known.2 (.inl rfl)
    · simp only [Sched.view, schedBoot_rqs hcn, if_neg hc0, schedBoot_idle hc, and_true]
      exact mem_schedBoot_known.2 (.inr ⟨c, hcn, rfl⟩)
  · by_cases hcn : c < n
    · grind [Sched.view, schedBoot_rqs, idleThread, bootThread]
    · simp [Sched.view, schedBoot_rqs_down hcn]
  · have hcn := hup c (.inr h)
    simp only [Sched.view, schedBoot_rqs hcn, schedBoot_idle hc, true_and]
    exact ⟨mem_schedBoot_known.2 (.inr ⟨c, hcn, rfl⟩), by split <;> simp⟩
  · have hnb : ((schedBoot n).thread t).state ≠ .blocked := by
      simp only [schedBoot]
      split
      · simp
      · split <;> simp
    exact absurd hb hnb

end Boot

/-- **Run queue membership**: on any number of processors, in every run whose steps are `Safe`,
    every step comes to its end and the membership laws hold in every state reached. -/
theorem runqueue_membership (n : Nat) (hn : n ≤ schedMaxCpus) (h : Log SchedOp Bool) (s : Sched)
    (hr : Reach (fun s op => op.Admissible s ∧ op.Safe s) schedStep (schedBoot n) h s) :
    (∀ x ∈ h, x.2 = true) ∧ ∃ trees, RqLaws s trees := by
  have hinv : (∀ x ∈ h, x.2 = true) ∧ SchedOk s := by
    refine hr.inv (I := fun h s => (∀ x ∈ h, x.2 = true) ∧ SchedOk s) ⟨nofun, schedBoot_ok hn⟩ ?_
    rintro h s op ⟨hall, hok⟩ ⟨ha, hsafe⟩
    obtain ⟨s', he, hok', -⟩ := schedExec_ok hok ha hsafe
    have hstep : schedStep s op = (true, s') := by rw [schedStep, he]
    rw [hstep]
    refine ⟨fun x hx => ?_, hok'⟩
    rcases mem_cons.1 hx with rfl | hx
    · rfl
    · exact hall x hx
  exact ⟨hinv.1, hinv.2.laws⟩

/-- Two processors; a thread is created on the first one and runs there after a tick. -/
theorem runqueue_membership_tick : ∃ trees,
    RqLaws (schedStep (schedStep (schedBoot 2) (.create 40 0)).2 (.tick 0)).2 trees :=
  (runqueue_membership 2 (by decide) _ _
    (.step _ _ _ (.step _ _ _ .start (by simp only [SchedOp.Admissible, SchedOp.Safe, and_true]; decide))
      (by simp only [SchedOp.Admissible, SchedOp.Safe, and_true]; decide))).2

/-- **A running thread is migrated.** `sched_migrate` gives the boot thread, which runs on the first
    processor, the number of the second one; when it yields it is queued on the first. -/
theorem runqueue_migrated : ∃ h s,
    Reach (fun s op => op.Admissible s) schedStep (schedBoot 2) h s ∧ ¬ ∃ trees, RqLaws s trees := by
  have hr := Reach.step _ _ (.yield 0) (.step _ _ (.migrateRun 34 0 1) (.step _ _ (.migrateCall 34 1)
    (.step _ _ (.create 40 0) (.start : Reach (fun s op => op.Admissible s) schedStep
      (schedBoot 2) [] _) ?_) ?_) ?_) ?_
  · refine ⟨_, _, hr, ?_⟩
    rintro ⟨trees, htree, hready, -, -⟩
    -- the boot thread is READY, its processor is the second one, and that queue is empty
    have h1 := (hready 34 (by decide) (by decide)
      (fun ⟨c, hc, hi⟩ => by revert c; decide)).2 1 (by decide)
    have hmem : 34 ∈ inorder (trees 1) := h1.2 (by decide)
    have hat := htree 1 (by decide)
    have hnil : trees 1 ≠ .nil := fun e => by simp [e, inorder] at hmem
    obtain ⟨c, a, l, r, e⟩ := Rbt.exists_mk .left hnil
    rw [e] at hat
    have hroot := hat.root
    rw [ptr_mk] at hroot
    exact hat.key_ok.1 (hroot.symm.trans (by decide))
  all_goals
    simp only [SchedOp.Admissible]
    decide

end Kobalt.Kern

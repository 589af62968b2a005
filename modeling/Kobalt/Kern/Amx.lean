/-
  Subject: THE SIGNATURE OF AN AMX CONTEXT (`amx_sched.c`, `amx_state.c`).

  `amx_nm_handler` signs a context with the thread's address and its `vdeadline`; `do_switch` checks
  the signature of both threads AFTER it has released the run queue. The deadline belongs to the
  scheduler, which moves it with every tick, yield, wake-up and migration.
-/
import Kobalt.Kern.Sched

namespace Kobalt.Kern

open Function

/-! ## 1. The code -/

def kobaltKernelIdent : BitVec 64 := 0xA3F7C219DE40B851

/-- `amx_sig` with a deadline. The thread object begins 128 bytes before its `rb` node. -/
def sigOf (t : Nat) (vdeadline : Int) : BitVec 64 :=
  (BitVec.ofNat 64 t - 128) ^^^ BitVec.ofInt 64 vdeadline ^^^ kobaltKernelIdent

def amxSig (s : Sched) (t : Nat) : BitVec 64 := sigOf t (s.thread t).vdeadline

/-- The scheduler and the AMX fields of its threads. -/
structure Amx where
  sched : Sched
  /-- `amx_signature` of a thread with a context -/
  signature : Nat → Option (BitVec 64) := fun _ => none
  /-- the threads a processor has still to check in `do_switch` -/
  due : Nat → List Nat := fun _ => []

inductive AmxOp where
  | sched (op : SchedOp)
  /-- `amx_nm_handler`: `amx_permitted`, the verdict of `tykid_recheck_all`, and whether
      `amx_ctx_alloc` finds memory -/
  | nm (c : Nat) (permitted trusted memory : Bool)
  /-- `amx_context_switch_out` of the thread that leaves and then `amx_context_switch_in` -/
  | check (c : Nat)

inductive AmxAns where
  | done
  | stuck
  | sigPanic
  deriving DecidableEq

/-- The processor on which a step ends in `do_switch`. -/
def switchOn (s : Sched) : SchedOp → Option Nat
  | .block c => some c
  | .exit c => some c
  | .yield c =>
    let next := pickNext s c
    if next = some (s.rqs c).idle ∨ next = some (s.rqs c).current then none else some c
  | .tick c =>
    let cur := (s.rqs c).current
    let s' := s.setThread cur fun t => { t with vruntime := t.vdeadline }
    let next := if cur = (s.rqs c).idle then pickNext s' c else (raiseMinVr s' c).bind fun s => pickNext s c
    if cur = 0 ∨ next = some (s.rqs c).idle then none else some c
  | _ => none

/-- The thread whose context a step takes away: `sched_thread_create` clears the object, and
    `sched_thread_exit` calls `amx_thread_free` if the thread has a stack of its own. -/
def freedBy (s : Sched) : SchedOp → Option Nat
  | .create t _ => some t
  | .exit c => if (s.rqs c).current = bootThread then none else some (s.rqs c).current
  | _ => none

def amxSched (s : Amx) (op : SchedOp) : AmxAns × Amx :=
  match schedExec s.sched op with
  | none => (.stuck, s)
  | some s' => (.done, { s with
      sched := s'
      signature := fun t => if freedBy s.sched op = some t then none else s.signature t
      due := match switchOn s.sched op with
        | some c => update s.due c [(s.sched.rqs c).current, (s'.rqs c).current]
        | none => s.due })

/-- **One step.** `sig_panic` never returns: the check stays due. -/
def amxStep (s : Amx) : AmxOp → AmxAns × Amx
  | .sched op => amxSched s op
  | .nm c permitted trusted memory =>
    let t := (s.sched.rqs c).current
    if permitted = false ∨ trusted = false then amxSched s (.exit c)
    else if s.signature t ≠ none then (.done, s)
    else if memory = false then amxSched s (.exit c)
    else (.done, { s with signature := update s.signature t (some (amxSig s.sched t)) })
  | .check c =>
    match s.due c with
    | [] => (.done, s)
    | t :: rest =>
      if s.signature t ≠ none ∧ s.signature t ≠ some (amxSig s.sched t) then (.sigPanic, s)
      else (.done, { s with due := update s.due c rest })

def amxBoot (n : Nat) : Amx := { sched := schedBoot n }

/-- A processor does nothing else before its checks are made; no idle thread uses AMX. -/
def AmxOp.Ok (s : Amx) : AmxOp → Prop
  | .sched op => op.Admissible s.sched ∧
    match op with
    | .tick c | .yield c | .block c | .exit c => s.due c = []
    | _ => True
  | .nm c _ _ _ => (SchedOp.exit c).Admissible s.sched ∧ s.due c = []
  | .check _ => True

/-- `t` if a queue with the minimum `min` gives it another deadline than it has. -/
def newDate (s : Sched) (min : Int) (t : Nat) : Option Nat :=
  if (placed { minVruntime := min } (s.thread t)).vdeadline = (s.thread t).vdeadline then none else some t

/-- The thread that gets another deadline in a step: one that has used its slice; one that gives it up, unless
    it goes on and the slice has just begun; and one that is put into a queue, unless the queue stands where
    the thread left. `load_balance` takes the last thread of the queue. -/
def redated (s : Sched) : SchedOp → Option Nat
  | .tick c =>
    let rq := s.rqs c
    if rq.current = 0 ∨ rq.current = rq.idle then none else some rq.current
  | .yield c =>
    let rq := s.rqs c
    let cur := s.thread rq.current
    if (pickNext s c = some rq.idle ∨ pickNext s c = some rq.current) ∧ cur.vruntime + sliceVtime = cur.vdeadline
    then none else some rq.current
  | .unblockRun t c =>
    if (s.thread t).state = .blocked then do
      let mvr ← rqMinVr s c
      newDate s (max mvr (s.rqs c).minVruntime) t
    else none
  | .migrateRun t _ cpu => if (s.thread t).state = .ready then newDate s (s.rqs cpu).minVruntime t else none
  | .balance dst src =>
    if (s.rqs src).nrRunning > 1 then do
      let t ← rightmost s.fuel (s.heap src) (s.heap src).root
      newDate s (s.rqs dst).minVruntime t
    else none
  | _ => none

/-- No thread with a context gets another deadline. -/
def AmxOp.Apart (s : Amx) : AmxOp → Prop
  | .sched op => ∀ t, redated s.sched op = some t → s.signature t = none
  | _ => True

/-! ## 2. The deadlines a step of the scheduler keeps -/

section Deadlines

variable {s s' s1 : Sched} {c t u : Nat} {r : Option Sched}

def Sched.deadline (s : Sched) (t : Nat) : Int := (s.thread t).vdeadline

/-- What `r` leaves has the deadline that `t` has in `s`. -/
def Keeps (t : Nat) (s : Sched) (r : Option Sched) : Prop := ∀ s', r = some s' → s'.deadline t = s.deadline t

theorem Keeps.after (h : s1.deadline t = s.deadline t) (h' : Keeps t s1 r) : Keeps t s r :=
  fun s' hs => (h' s' hs).trans h

theorem Keeps.state (h : s1.deadline t = s.deadline t) : Keeps t s (some s1) :=
  .after h fun _ hs => congrArg (Sched.deadline · t) (Option.some.inj hs).symm

theorem Keeps.bind {α : Type} {x : Option α} {f : α → Option Sched} (h : ∀ a, x = some a → Keeps t s (f a)) :
    Keeps t s (x >>= f) := by
  intro s' hs
  obtain ⟨a, ha, hf⟩ := Option.bind_eq_some_iff.1 hs
  exact h a ha s' hf

theorem Keeps.andThen {f : Sched → Option Sched} (h : Keeps t s r) (h' : ∀ s1, Keeps t s1 (f s1)) :
    Keeps t s (r >>= f) := .bind fun s1 h1 => .after (h s1 h1) (h' s1)

theorem deadline_congr (h : s'.thread = s.thread) : s'.deadline t = s.deadline t := by
  rw [Sched.deadline, Sched.deadline, h]

theorem setThread_deadline {f : Thread → Thread} (hf : t = u → (f (s.thread t)).vdeadline = (s.thread t).vdeadline) :
    (s.setThread u f).deadline t = s.deadline t := by
  by_cases h : t = u
  · subst h
    simp only [Sched.deadline, Sched.setThread, update_self, hf rfl]
  · simp only [Sched.deadline, Sched.setThread, update_of_ne h]

theorem newDate_ne {m : Int} (h : newDate s m u ≠ some t) (he : t = u) :
    (placed { minVruntime := m } (s.thread t)).vdeadline = (s.thread t).vdeadline := by
  subst he
  by_contra hne
  exact h (if_neg hne)

theorem rqInsert_keeps : Keeps t s (rqInsert s c u) := .bind fun _ _ => .state rfl

theorem rqRemove_keeps : Keeps t s (rqRemove s c u) := .bind fun _ _ => .state rfl

theorem rqRemove_frame (h : rqRemove s c u = some s') :
    s'.thread = s.thread ∧ ∀ d, (s'.rqs d).minVruntime = (s.rqs d).minVruntime := by
  obtain ⟨_, -, h⟩ := Option.bind_eq_some_iff.1 h
  cases h
  refine ⟨rfl, fun d => ?_⟩
  by_cases hd : d = c
  · simp only [Sched.setTree, Sched.setRq, hd, update_self]
  · simp only [Sched.setTree, Sched.setRq, update_of_ne hd]

theorem raiseMinVr_thread (h : raiseMinVr s c = some s') : s'.thread = s.thread ∧
    ∃ mvr, rqMinVr s c = some mvr ∧ (s'.rqs c).minVruntime = max mvr (s.rqs c).minVruntime := by
  obtain ⟨mvr, hm, h⟩ := Option.bind_eq_some_iff.1 h
  cases h
  split
  · exact ⟨rfl, mvr, hm, by simp only [Sched.setRq, update_self]; omega⟩
  · exact ⟨rfl, mvr, hm, by omega⟩

theorem enqueue_keeps (ht : t = u → ∀ mvr, rqMinVr s c = some mvr → newDate s (max mvr (s.rqs c).minVruntime) u ≠ some t) :
    Keeps t s (enqueue s c u) := .bind fun s1 h1 => by
  obtain ⟨hth, mvr, hm, hmin⟩ := raiseMinVr_thread h1
  refine .after ((setThread_deadline fun he => ?_).trans (deadline_congr hth)) rqInsert_keeps
  have hd := newDate_ne (ht he mvr hm) he
  rw [← hmin, ← hth] at hd
  exact hd

theorem doSwitch_keeps : Keeps t s (doSwitch s c u) := by
  unfold doSwitch
  split
  · nofun
  · exact .state (@setThread_deadline s t u (fun th => { th with state := .running, cpu := c }) fun _ => rfl)

theorem leaveFor_keeps : Keeps t s (leaveFor s c u) := by
  unfold leaveFor
  dsimp only
  split
  · exact rqRemove_keeps.andThen fun _ => doSwitch_keeps
  · exact doSwitch_keeps

theorem moveTo_keeps {mark : Thread → Thread} {src dst : Nat} (hmark : ∀ th, (mark th).vdeadline = th.vdeadline)
    (ht : newDate s (s.rqs dst).minVruntime u ≠ some t) : Keeps t s (moveTo mark s u src dst) := .bind fun s1 h1 => by
  obtain ⟨hth, hmin⟩ := rqRemove_frame h1
  refine .after ((setThread_deadline fun he => ?_).trans (deadline_congr hth)) rqInsert_keeps
  rw [hmark]
  have hd := newDate_ne ht he
  rw [← hmin, ← hth] at hd
  exact hd

/-- The current thread, which is not `t`, is put back, and another one runs. -/
theorem requeue_keeps (hne : t ≠ u) (next : Nat) :
    Keeps t s (do let s ← enqueue s c u; let s ← rqRemove s c next; doSwitch s c next) :=
  (enqueue_keeps fun he => absurd he hne).andThen fun _ => rqRemove_keeps.andThen fun _ => doSwitch_keeps

theorem schedTick_keeps (ht : redated s (.tick c) ≠ some t) : Keeps t s (schedTick s c) := by
  unfold schedTick
  dsimp only [redated] at ht ⊢
  split
  · exact .state rfl
  rename_i h0
  have hrun : (s.setThread (s.rqs c).current fun th => { th with vruntime := th.vdeadline }).deadline t =
      s.deadline t := setThread_deadline fun _ => rfl
  refine .after hrun ?_
  split
  · -- the idle thread gives way or goes on
    refine .bind fun next _ => ?_
    split
    · exact .after (setThread_deadline fun _ => rfl) (rqRemove_keeps.andThen fun _ => doSwitch_keeps)
    · exact .state rfl
  · rename_i hidle
    have hne : t ≠ (s.rqs c).current := by
      rintro rfl
      exact ht (if_neg (not_or.2 ⟨h0, hidle⟩))
    refine .bind fun s1 h1 => .after (deadline_congr (raiseMinVr_thread h1).1) (.bind fun next _ => ?_)
    split
    · exact .state (setThread_deadline fun he => absurd he hne)
    · exact requeue_keeps hne next

theorem schedYield_keeps (ht : redated s (.yield c) ≠ some t) : Keeps t s (schedYield s c) := .bind fun next hnext => by
  simp only [redated, hnext, Option.some.injEq] at ht
  split
  · nofun
  split
  · refine .state (setThread_deadline fun he => ?_)
    subst he
    by_contra hne
    exact ht (if_neg fun hs => hne hs.2)
  · rename_i hgo
    have hne : t ≠ (s.rqs c).current := by
      rintro rfl
      exact ht (if_neg fun hs => hgo hs.1)
    exact .after (setThread_deadline fun he => absurd he hne) (requeue_keeps hne next)

theorem schedBlock_keeps : Keeps t s (schedBlock s c) := .bind fun next _ => by
  split
  · nofun
  · exact .after (setThread_deadline fun _ => rfl) leaveFor_keeps

theorem schedThreadExit_keeps : Keeps t s (schedThreadExit s c) := by
  unfold schedThreadExit
  dsimp only
  split
  · nofun
  · exact .after (setThread_deadline fun _ => rfl) (.bind fun _ _ => leaveFor_keeps)

theorem loadBalance_keeps {dst src : Nat} (ht : redated s (.balance dst src) ≠ some t) :
    Keeps t s (loadBalance s dst src) := by
  unfold loadBalance
  dsimp only [redated] at ht
  split
  · rename_i hn
    refine .bind fun n hright => ?_
    rw [if_pos hn, hright] at ht
    split
    · exact moveTo_keeps (fun _ => rfl) ht
    · exact .state rfl
  · exact .state rfl

theorem schedExec_keeps {op : SchedOp} (hf : freedBy s op ≠ some t) (ht : redated s op ≠ some t) :
    Keeps t s (schedExec s op) := by
  cases op with
  | create u c =>
    have hne : t ≠ u := fun he => hf (congrArg some he.symm)
    refine .after ?_ (enqueue_keeps fun he => absurd he hne)
    simp only [Sched.deadline, update_of_ne hne]
  | tick c => exact schedTick_keeps ht
  | yield c => exact schedYield_keeps ht
  | block c => exact schedBlock_keeps
  | exit c => exact schedThreadExit_keeps
  | unblockCall u =>
    dsimp only [schedExec]
    split <;> exact .state rfl
  | unblockRun u c =>
    dsimp only [schedExec, schedUnblock, redated] at ht ⊢
    split
    · rename_i hb
      rw [if_pos hb] at ht
      refine .after rfl (enqueue_keeps fun _ mvr hm => ?_)
      have hm' : rqMinVr s c = some mvr := hm
      rw [hm'] at ht
      exact ht
    · exact .state rfl
  | migrateCall u cpu =>
    dsimp only [schedExec]
    split <;> exact .state rfl
  | migrateRun u src cpu =>
    dsimp only [schedExec, schedMigrate, redated] at ht ⊢
    split
    · rename_i hb
      rw [if_pos hb] at ht
      exact .after rfl (moveTo_keeps (fun _ => rfl) ht)
    · exact .after rfl (.state (setThread_deadline fun _ => rfl))
  | balance dst src => exact loadBalance_keeps ht
  | reap u => exact .state rfl

end Deadlines

/-! ## 3. What a signature says -/

/-- Every signature is the one `amx_sig` computes now. -/
def Signed (s : Amx) : Prop := ∀ t v, s.signature t = some v → v = amxSig s.sched t

variable {s : Amx}

theorem amxSched_signed (h : Signed s) {op : SchedOp} (hop : ∀ t, redated s.sched op = some t → s.signature t = none) :
    Signed (amxSched s op).2 := by
  unfold amxSched
  split
  · exact h
  rename_i s' hs
  intro t v hv
  dsimp only at hv
  split at hv
  · cases hv
  · rename_i hf
    -- a thread with a context is none of those the step gives another deadline
    have hd := schedExec_keeps hf (fun he => by rw [hop t he] at hv; cases hv) s' hs
    exact (h t v hv).trans (congrArg (sigOf t) hd.symm)

theorem amxStep_signed (h : Signed s) {op : AmxOp} (hop : op.Apart s) : Signed (amxStep s op).2 := by
  cases op with
  | sched op => exact amxSched_signed h hop
  | nm c permitted trusted memory =>
    simp only [amxStep]
    split
    · exact amxSched_signed h nofun
    split
    · exact h
    split
    · exact amxSched_signed h nofun
    intro t v hv
    dsimp only at hv ⊢
    by_cases ht : t = (s.sched.rqs c).current
    · rw [ht, update_self] at hv
      rw [ht]
      exact (Option.some.inj hv).symm
    · rw [update_of_ne ht] at hv
      exact h t v hv
  | check c =>
    simp only [amxStep]
    split
    · exact h
    split <;> exact h

theorem amxSched_ne_panic (op : SchedOp) : (amxSched s op).1 ≠ .sigPanic := by
  unfold amxSched
  split <;> nofun

/-- **`sig_panic` is not called** in a run in which no thread with a context gets another deadline, whatever
    the threads, the handler and the checks do in between. -/
theorem amx_never_panics (n : Nat) {h : Log AmxOp AmxAns}
    (hr : Reach (fun s op => op.Ok s ∧ op.Apart s) amxStep (amxBoot n) h s) (op : AmxOp) :
    (amxStep s op).1 ≠ .sigPanic := by
  have hs : Signed s := hr.invState (I := Signed) (fun _ _ hv => by cases hv) fun s op hI hop => amxStep_signed hI hop.2
  cases op with
  | sched op => exact amxSched_ne_panic op
  | nm c permitted trusted memory =>
    simp only [amxStep]
    split_ifs
    · exact amxSched_ne_panic _
    · nofun
    · exact amxSched_ne_panic _
    · nofun
  | check c =>
    simp only [amxStep]
    cases s.due c with
    | nil => nofun
    | cons t rest =>
      have hok : ¬ (s.signature t ≠ none ∧ s.signature t ≠ some (amxSig s.sched t)) := fun ⟨hne, hbad⟩ => by
        obtain ⟨v, hv⟩ := Option.ne_none_iff_exists'.1 hne
        exact hbad (hv.trans (congrArg some (hs t v hv)))
      dsimp only
      rw [if_neg hok]
      nofun

/-- A thread is created, and the boot thread gets a context. -/
def signedBoot : Amx := (amxStep (amxStep (amxBoot 1) (.sched (.create 100 0))).2 (.nm 0 true true true)).2

theorem signedBoot_reached : ∃ h, Reach (fun s op => AmxOp.Ok s op ∧ op.Apart s) amxStep (amxBoot 1) h signedBoot := by
  have h1 : Reach (fun s op => AmxOp.Ok s op ∧ op.Apart s) amxStep (amxBoot 1) _ _ :=
    .step [] _ (.sched (.create 100 0)) .start
      (by exact ⟨⟨by simp only [SchedOp.Admissible]; decide, trivial⟩, nofun⟩)
  exact ⟨_, h1.step _ _ (.nm 0 true true true)
    (by exact ⟨⟨by simp only [SchedOp.Admissible]; decide, by decide⟩, trivial⟩)⟩

/-- It blocks, is woken before the minimum of the queue has moved, and runs again: both checks, at the
    switch out and at the switch in, find what was signed. -/
theorem apart_of_none {s : Amx} {op : SchedOp} (h : redated s.sched op = none) : AmxOp.Apart s (.sched op) := by
  intro t ht
  rw [h] at ht
  cases ht

theorem amx_never_panics_woken : ∃ h s, Reach (fun s op => AmxOp.Ok s op ∧ op.Apart s) amxStep (amxBoot 1) h s ∧
    s.due 0 = [100, bootThread] ∧ s.signature bootThread ≠ none ∧ (amxStep s (.check 0)).1 ≠ .sigPanic ∧
    (amxStep (amxStep s (.check 0)).2 (.check 0)).1 ≠ .sigPanic := by
  obtain ⟨h, hr⟩ := signedBoot_reached
  have h1 := hr.step _ _ (.sched (.block 0)) (by exact ⟨⟨by simp only [SchedOp.Admissible]; decide, by decide⟩, apart_of_none rfl⟩)
  have h2 := h1.step _ _ (.check 0) (by exact ⟨trivial, trivial⟩)
  have h3 := h2.step _ _ (.check 0) (by exact ⟨trivial, trivial⟩)
  have h4 := h3.step _ _ (.sched (.unblockCall bootThread))
    (by exact ⟨⟨by simp only [SchedOp.Admissible]; decide +kernel, trivial⟩, apart_of_none rfl⟩)
  have h5 := h4.step _ _ (.sched (.unblockRun bootThread 0))
    (by exact ⟨⟨by simp only [SchedOp.Admissible]; decide +kernel, trivial⟩,
      apart_of_none (by decide +kernel)⟩)
  have h6 := h5.step _ _ (.sched (.block 0))
    (by exact ⟨⟨by simp only [SchedOp.Admissible]; decide +kernel, by decide +kernel⟩, apart_of_none rfl⟩)
  exact ⟨_, _, h6, by decide +kernel, by decide +kernel, amx_never_panics 1 h6 _,
    amx_never_panics 1 (h6.step _ _ (.check 0) (by exact ⟨trivial, trivial⟩)) _⟩

/-- **The processor halts on a good context**: the first tick moves the deadline of the boot thread from 5 to
    10, and then the signature is checked. -/
theorem amx_panics_ticked : ∃ h s, Reach (fun s op => AmxOp.Ok s op) amxStep (amxBoot 1) h s ∧
    (amxStep s (.check 0)).1 = .sigPanic := by
  obtain ⟨h, hr⟩ := signedBoot_reached
  exact ⟨_, _, (hr.mono fun _ _ h => h.1).step _ _ (.sched (.tick 0))
    (by exact ⟨by simp only [SchedOp.Admissible]; decide, by decide⟩), by decide +kernel⟩

end Kobalt.Kern

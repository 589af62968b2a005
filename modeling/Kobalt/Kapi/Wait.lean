/-
  Subject: EXIT, KILL AND WAIT4 (`kapi/src/kposixz_syscall.c`) over the process table.

  Beside the code's state, `ChildSys` keeps what the code does not: who created a process, what it
  terminated with, and whether a `wait4` returned it (`Birth`). A process is named there by a number
  of its own, since its record and its pid are used again.
-/
import Kobalt.Kapi.Proc

namespace Kobalt.Kapi

open Function

/-! ## 1. The code -/

/-- How `kposixz_spawn` goes on. -/
inductive SpawnEnd where
  /-- it returns before `kpz_proc_alloc` -/
  | refused (e : Kpze)
  /-- a segment or the stack cannot be mapped -/
  | unmapped
  | loaded
  deriving DecidableEq, Repr

section Code

variable (s : ProcSys)

def ProcSys.setState (i : Nat) (st : ProcState) : ProcSys :=
  { s with proc := update s.proc i { s.proc i with state := st } }

def ProcSys.setExit (i : Nat) (code : Int) : ProcSys :=
  { s with proc := update s.proc i { s.proc i with exitCode := code } }

/-- `kposixz_spawn` as far as the process table goes: the record made (0 if none) and the return
    value. The parent it gives is 0. -/
def spawnProc (kstack : Bool) : SpawnEnd → Nat × Int × ProcSys
  | .refused e => (0, kpzErr e, s)
  | .unmapped =>
    let (i, s) := kpzProcAlloc s 0 kstack
    (0, kpzErr .nomem, if i = 0 then s else kpzProcFree s i)
  | .loaded =>
    let (i, s) := kpzProcAlloc s 0 kstack
    if i = 0 then (0, kpzErr .nomem, s) else (i, (s.proc i).pid, s.setState i .running)

def kpzProcExit (i : Nat) (code : Int) : ProcSys :=
  kpzProcFree ((s.setExit i code).setState i .zombie) i

/-- `sys_kill`; the target is 0 if none is marked. Signals other than 9 and 15 only set a bit in
    `sig_pending`. -/
def sysKill (pid sig : Int) : Nat × Int × ProcSys :=
  if pid ≤ 0 then (0, kpzErr .inval, s)
  else
    let target := kpzProcLookup s pid
    if target = 0 then (0, kpzErr .noent, s)
    else if sig = 9 ∨ sig = 15 then (target, 0, (s.setState target .zombie).setExit target (-sig))
    else (0, 0, s)

/-- The test of `sys_wait4` on the process in a table entry. -/
def waits (ppid wpid : Int) (k : Nat) : Bool :=
  k ≠ 0 && (s.proc k).ppid = ppid && !(0 < wpid && (s.proc k).pid ≠ wpid) && (s.proc k).state = .zombie

/-- The loop of `sys_wait4` over the table. -/
def waitScan (ppid wpid : Int) : Option Nat :=
  (poolSlots.map fun i : Nat => s.table i).find? (waits s ppid wpid)

/-- `(code & 0xff) << 8`. -/
def statusWord (code : Int) : Int := code % 256 * 256

/-- `sys_wait4` of the process `c`: the child reaped (0 if none), the return value and what is stored
    through `wstat`. -/
def sysWait4 (c : Nat) (wpid : Int) (wstat : Nat) : Nat × Int × Option Int × ProcSys :=
  match waitScan s (s.proc c).pid wpid with
  | none => (0, kpzErr .child, none, s)
  | some k =>
    (k, (s.proc k).pid, if checkPtr wstat 4 then some (statusWord (s.proc k).exitCode) else none, kpzProcFree s k)

end Code

/-! ## 2. What happened to each process -/

structure Birth where
  /-- the process that made it; 0 is the kernel -/
  creator : Nat
  pid : Int
  /-- what it terminated with -/
  code : Option Int
  /-- a `wait4` returned it -/
  reaped : Bool
  deriving DecidableEq, Repr

structure ChildSys where
  ps : ProcSys
  /-- the process in a record of the pool -/
  who : Nat → Nat
  birth : Nat → Birth
  /-- the processes made so far are 1 to `count` -/
  count : Nat

def ChildSys.start : ChildSys where
  ps := .start
  who := fun _ => 0
  birth := fun _ => ⟨0, 0, none, false⟩
  count := 0

def ChildSys.Running (s : ChildSys) (c : Nat) : Prop := s.ps.Live c ∧ (s.ps.proc c).state = .running

instance (s : ChildSys) (c : Nat) : Decidable (s.Running c) := by
  unfold ChildSys.Running ProcSys.Live
  infer_instance

section Run

variable (s : ChildSys)

/-- The process that was made, if one was, gets the next number. -/
def ChildSys.born (creator : Nat) (x : Nat × Int × ProcSys) : ChildSys :=
  if x.1 = 0 then { s with ps := x.2.2 }
  else
    { ps := x.2.2
      who := update s.who x.1 (s.count + 1)
      birth := update s.birth (s.count + 1) ⟨creator, x.2.1, none, false⟩
      count := s.count + 1 }

/-- The process in the record `k` terminated with `code`. -/
def ChildSys.ended (k : Nat) (code : Int) (ps : ProcSys) : ChildSys :=
  { s with ps := ps, birth := update s.birth (s.who k) { s.birth (s.who k) with code := some code } }

def ChildSys.reap (k : Nat) (ps : ProcSys) : ChildSys :=
  { s with ps := ps, birth := update s.birth (s.who k) { s.birth (s.who k) with reaped := true } }

inductive ChildOp where
  /-- the process in the record `c`, or the kernel if it is 0, calls `kposixz_spawn` -/
  | spawn (c : Nat) (kstack : Bool) (e : SpawnEnd)
  | execve (c : Nat) (kstack : Bool) (e : SpawnEnd)
  | exit (c : Nat) (code : Int)
  | kill (pid sig : Int)
  | wait4 (c : Nat) (wpid : Int) (wstat : Nat)

/-- A step shows the return value and the status word; a caller that does not run does nothing. -/
def childStep : ChildOp → (Int × Option Int) × ChildSys
  | .spawn c kstack e =>
    if c = 0 ∨ s.Running c then
      let x := spawnProc s.ps kstack e
      ((x.2.1, none), s.born (if c = 0 then 0 else s.who c) x)
    else ((0, none), s)
  | .execve c kstack e =>
    if s.Running c then
      let x := spawnProc s.ps kstack e
      let s' := s.born (s.who c) x
      if x.2.1 < 0 then ((x.2.1, none), s')
      else ((0, none), s'.ended c 0 (kpzProcExit s'.ps c 0))
    else ((0, none), s)
  | .exit c code =>
    if s.Running c then ((0, none), s.ended c code (kpzProcExit s.ps c code)) else ((0, none), s)
  | .kill pid sig =>
    let x := sysKill s.ps pid sig
    if x.1 = 0 then ((x.2.1, none), s) else ((x.2.1, none), s.ended x.1 (-sig) x.2.2)
  | .wait4 c wpid wstat =>
    if s.Running c then
      let x := sysWait4 s.ps c wpid wstat
      if x.1 = 0 then ((x.2.1, x.2.2.1), s) else ((x.2.1, x.2.2.1), s.reap x.1 x.2.2.2)
    else ((0, none), s)

/-! ## 3. The law of wait4 -/

/-- The process `n` is a child of the one in the record `c`, terminated with `code`, matches `wpid` and
    was returned by no `wait4` yet. -/
structure Owed (s : ChildSys) (c : Nat) (wpid : Int) (n : Nat) (code : Int) : Prop where
  child : (s.birth n).creator = s.who c
  ended : (s.birth n).code = some code
  unreaped : (s.birth n).reaped = false
  pid : 0 < wpid → (s.birth n).pid = wpid

/-- **The law of `wait4`**: it returns a child it owes, with its status word, and owes it no more; or
    `ECHILD`, and there is none. -/
def WaitLaw (c : Nat) (wpid : Int) (wstat : Nat) (o : (Int × Option Int) × ChildSys) : Prop :=
  (o.1 = (kpzErr .child, none) ∧ ∀ n code, ¬ Owed s c wpid n code) ∨
  ∃ n code, Owed s c wpid n code ∧ (o.2.birth n).reaped = true ∧
    o.1 = ((s.birth n).pid, if checkPtr wstat 4 then some (statusWord code) else none)

/-- The operation keeps the law; only `wait4` of a running process is subject to it. -/
def ChildOp.Keeps : ChildOp → Prop
  | .wait4 c wpid wstat => s.Running c → WaitLaw s c wpid wstat (childStep s (.wait4 c wpid wstat))
  | _ => True

/-- **When the code keeps it**: nothing is owed. (A caller whose pid is 0, which takes 2^32 processes,
    is the parent of all in the table: it gets the first terminated one.) -/
def ChildOp.Sound : ChildOp → Prop
  | .wait4 c wpid _ => s.Running c →
      match (if (s.ps.proc c).pid = 0 then waitScan s.ps 0 wpid else none) with
      | none => ∀ n code, ¬ Owed s c wpid n code
      | some k => Owed s c wpid (s.who k) (s.ps.proc k).exitCode
  | _ => True

end Run

/-! ## 4. What holds along a run -/

/-- **What the table knows of the processes**: nobody's parent, and of one that was killed its code. -/
structure ChildInv (s : ChildSys) : Prop where
  tab : TabOk s.ps
  orphan : ∀ k, s.ps.Live k → (s.ps.proc k).ppid = 0
  named : ∀ k, s.ps.Live k → 1 ≤ s.who k ∧ s.who k ≤ s.count
  apart : ∀ k j, s.ps.Live k → s.ps.Live j → s.who k = s.who j → k = j
  pid : ∀ k, s.ps.Live k → (s.birth (s.who k)).pid = (s.ps.proc k).pid
  zombie : ∀ k, s.ps.Live k → (s.ps.proc k).state = .zombie →
    (s.birth (s.who k)).code = some (s.ps.proc k).exitCode

section Inv

variable {s : ChildSys}

theorem ChildInv.start : ChildInv .start where
  tab := fun _ h => absurd rfl h
  orphan := fun _ h => nomatch h.2.2
  named := fun _ h => nomatch h.2.2
  apart := fun _ _ h => nomatch h.2.2
  pid := fun _ h => nomatch h.2.2
  zombie := fun _ h => nomatch h.2.2

section

variable (h : ChildInv s)
include h

theorem ChildInv.shrink {ps : ProcSys} (ht : TabOk ps)
    (hl : ∀ k, ps.Live k → s.ps.Live k ∧ ps.proc k = s.ps.proc k) : ChildInv { s with ps := ps } where
  tab := ht
  orphan := fun k hk => by rw [(hl k hk).2]; exact h.orphan k (hl k hk).1
  named := fun k hk => h.named k (hl k hk).1
  apart := fun k j hk hj => h.apart k j (hl k hk).1 (hl j hj).1
  pid := fun k hk => (h.pid k (hl k hk).1).trans (by rw [(hl k hk).2])
  zombie := fun k hk hz => by grind [h.zombie]

theorem ChildInv.forget {n : Nat} (hn : ∀ k, s.ps.Live k → s.who k ≠ n) (b : Birth) :
    ChildInv { s with birth := update s.birth n b } where
  tab := h.tab
  orphan := h.orphan
  named := h.named
  apart := h.apart
  pid := fun k hk => by grind [h.pid]
  zombie := fun k hk hz => by grind [h.zombie]

omit h in
theorem live_range {ps : ProcSys} {k : Nat} (h : ps.Live k) : ¬ (k = 0 ∨ k ≥ maxProcs) := by grind [h.1, h.2.1]

/-- A live process is freed, after its own record changed, and `b` is noted of it. -/
theorem ChildInv.gone {k : Nat} (hk : s.ps.Live k) (ps : ProcSys) (hu : ps.used = s.ps.used)
    (ht : ps.table = s.ps.table) (hpid : (ps.proc k).pid = (s.ps.proc k).pid)
    (hp : ∀ j, j ≠ k → ps.proc j = s.ps.proc j) (b : Birth) :
    ChildInv { s with ps := kpzProcFree ps k, birth := update s.birth (s.who k) b } := by
  have hl : ∀ j, ps.Live j ↔ s.ps.Live j := fun j => by rw [ProcSys.Live, hu, ProcSys.Live]
  have htab : TabOk ps := by
    refine h.tab.of_live ht fun j hj => ⟨(hl j).mpr hj, ?_⟩
    by_cases hjk : j = k
    · rw [hjk, hpid]
    · rw [hp j hjk]
  have hlive : ∀ j, (kpzProcFree ps k).Live j → s.ps.Live j ∧ j ≠ k := fun j hj => by
    grind [kpzProcFree_live, live_range]
  have hs := h.shrink (htab.free (live_range hk)) fun j hj =>
    ⟨(hlive j hj).1, by rw [kpzProcFree_proc]; exact hp j (hlive j hj).2⟩
  grind [hs.forget, h.apart]

theorem ChildInv.exit {c : Nat} (hc : s.ps.Live c) (code : Int) :
    ChildInv (s.ended c code (kpzProcExit s.ps c code)) := by
  refine h.gone hc ((s.ps.setExit c code).setState c .zombie) rfl rfl ?_ (fun j hj => ?_) _
  · simp [ProcSys.setState, ProcSys.setExit]
  · simp [ProcSys.setState, ProcSys.setExit, hj]

theorem ChildInv.reap {k : Nat} (hk : s.ps.Live k) : ChildInv (s.reap k (kpzProcFree s.ps k)) :=
  h.gone hk s.ps rfl rfl rfl (fun _ _ => rfl) _

theorem ChildInv.kill {k : Nat} (hk : s.ps.Live k) (sig : Int) :
    ChildInv (s.ended k (-sig) ((s.ps.setState k .zombie).setExit k (-sig))) := by
  generalize hps : (s.ps.setState k .zombie).setExit k (-sig) = ps
  have hself : ps.proc k = ⟨(s.ps.proc k).pid, (s.ps.proc k).ppid, .zombie, -sig⟩ := by
    rw [← hps]; simp [ProcSys.setState, ProcSys.setExit]
  have hoth : ∀ j, j ≠ k → ps.proc j = s.ps.proc j := fun j hj => by
    rw [← hps]; simp [ProcSys.setState, ProcSys.setExit, hj]
  have hl : ∀ j, ps.Live j ↔ s.ps.Live j := fun j => by rw [← hps]; rfl
  have hwho : ∀ j, s.ps.Live j → j ≠ k → s.who j ≠ s.who k := fun j hj hjk e => hjk (h.apart j k hj hk e)
  refine ⟨h.tab.of_live (by rw [← hps]; rfl) fun j hj => ⟨(hl j).mpr hj, ?_⟩, fun j hj => ?_,
    fun j hj => h.named j ((hl j).mp hj), fun j i hj hi => h.apart j i ((hl j).mp hj) ((hl i).mp hi),
    fun j hj => ?_, fun j hj hz => ?_⟩
  · change (ps.proc j).pid = _
    grind
  · change (ps.proc j).ppid = 0
    by_cases hjk : j = k
    · subst hjk; rw [hself]; exact h.orphan j hk
    · rw [hoth j hjk]; exact h.orphan j ((hl j).mp hj)
  · change (update s.birth (s.who k) { s.birth (s.who k) with code := some (-sig) } (s.who j)).pid = (ps.proc j).pid
    by_cases hjk : j = k
    · grind [h.pid]
    · rw [update_of_ne (hwho j ((hl j).mp hj) hjk), hoth j hjk]
      exact h.pid j ((hl j).mp hj)
  · change (update s.birth (s.who k) { s.birth (s.who k) with code := some (-sig) } (s.who j)).code =
      some (ps.proc j).exitCode
    by_cases hjk : j = k
    · subst hjk; rw [update_self, hself]
    · change (ps.proc j).state = .zombie at hz
      rw [hoth j hjk] at hz
      rw [update_of_ne (hwho j ((hl j).mp hj) hjk), hoth j hjk]
      exact h.zombie j ((hl j).mp hj) hz

omit h in
/-- `kpz_proc_alloc` makes a process, or changes nothing about the live ones. -/
theorem alloc_live (s : ProcSys) (kstack : Bool) :
    ((kpzProcAlloc s 0 kstack).1 = 0 ∧ (kpzProcAlloc s 0 kstack).2.table = s.table ∧
      ∀ k, ((kpzProcAlloc s 0 kstack).2.Live k ↔ s.Live k) ∧
        (s.Live k → (kpzProcAlloc s 0 kstack).2.proc k = s.proc k)) ∨
    ∃ i, s.Unused i ∧ kpzProcAlloc s 0 kstack = (i, (s.take i 0).enter i) := by
  rcases kpzProcAlloc_cases s 0 kstack with ⟨-, he⟩ | ⟨i, hi, he⟩
  · grind
  · rw [he]
    cases kstack with
    | true => exact .inr ⟨i, hi, rfl⟩
    | false =>
      have hp : ∀ k, s.Live k → (s.take i 0).proc k = s.proc k := by
        intro k hk
        refine update_of_ne ?_ _ _
        rintro rfl
        exact nomatch hi.2.2.symm.trans hk.2.2
      exact .inl ⟨rfl, rfl, fun k => ⟨Iff.rfl, hp k⟩⟩

theorem ChildInv.made (creator : Nat) {i : Nat} (hi : s.ps.Unused i) {ps : ProcSys}
    (hps : ps = ((s.ps.take i 0).enter i).setState i .running) : ChildInv
      { ps := ps
        who := update s.who i (s.count + 1)
        birth := update s.birth (s.count + 1) ⟨creator, kpzProcNextPid s.ps, none, false⟩
        count := s.count + 1 } := by
  have hself : ps.proc i = ⟨kpzProcNextPid s.ps, 0, .running, 0⟩ := by
    rw [hps]; simp [ProcSys.setState]
  have hoth : ∀ j, j ≠ i → ps.proc j = s.ps.proc j := fun j hj => by
    rw [hps, ProcSys.setState]
    grind [made_proc]
  have hl : ∀ j, ps.Live j ↔ s.ps.Live j ∨ j = i := fun j => by rw [hps]; exact made_live hi 0 j
  have hne : ∀ j, j ≠ i → ps.Live j → s.ps.Live j := fun j hj h => ((hl j).mp h).resolve_right hj
  refine ⟨?_, fun j hj => ?_, fun j hj => ?_, fun j k hj hk he => ?_, fun j hj => ?_, fun j hj hz => ?_⟩
  · refine (h.tab.made hi 0).of_live (by rw [hps]; rfl) fun j hj => ⟨by rw [hps]; exact hj, ?_⟩
    change (ps.proc j).pid = _
    by_cases hji : j = i
    · subst hji; rw [hself, enter_proc, take_proc]
    · rw [hoth j hji, made_proc hji]
  · change (ps.proc j).ppid = 0
    by_cases hji : j = i
    · subst hji; rw [hself]
    grind [h.orphan]
  · change 1 ≤ update s.who i (s.count + 1) j ∧ update s.who i (s.count + 1) j ≤ s.count + 1
    by_cases hji : j = i
    · subst hji; rw [update_self]; omega
    · rw [update_of_ne hji]
      have := h.named j (hne j hji hj)
      omega
  · change update s.who i (s.count + 1) j = update s.who i (s.count + 1) k at he
    have hlt : ∀ m, m ≠ i → ps.Live m → s.who m ≠ s.count + 1 := fun m hm hlm => by
      have := h.named m (hne m hm hlm)
      omega
    by_cases hji : j = i <;> by_cases hki : k = i
    · rw [hji, hki]
    · grind
    · grind
    grind [h.apart]
  · change (update s.birth (s.count + 1) _ (update s.who i (s.count + 1) j)).pid = (ps.proc j).pid
    by_cases hji : j = i
    · subst hji; rw [update_self, update_self, hself]
    · have hn := h.named j (hne j hji hj)
      grind [h.pid]
  · change (update s.birth (s.count + 1) _ (update s.who i (s.count + 1) j)).code = some (ps.proc j).exitCode
    change (ps.proc j).state = .zombie at hz
    by_cases hji : j = i
    · subst hji; rw [hself] at hz; cases hz
    · have hn := h.named j (hne j hji hj)
      grind [h.zombie]

theorem ChildInv.born (creator : Nat) (kstack : Bool) (e : SpawnEnd) :
    ChildInv (s.born creator (spawnProc s.ps kstack e)) ∧
      ∀ c, s.ps.Live c → (s.born creator (spawnProc s.ps kstack e)).ps.Live c := by
  by_cases href : ∃ x, e = .refused x
  · obtain ⟨x, rfl⟩ := href
    exact ⟨h, fun _ => id⟩
  rcases alloc_live s.ps kstack with ⟨h0, ht, hl⟩ | ⟨i, hi, he⟩
  · have ht := h.tab.of_live ht fun k hk => ⟨(hl k).1.2 hk, congrArg Proc.pid ((hl k).2 hk)⟩
    cases e <;> simp only [spawnProc, ChildSys.born, h0, if_true] <;> grind [h.shrink]
  have hi0 : i ≠ 0 := by omega
  cases e with
  | refused x => exact absurd ⟨x, rfl⟩ href
  | unmapped =>
    have hr : ¬ (i = 0 ∨ i ≥ maxProcs) := by omega
    simp only [spawnProc, ChildSys.born, he, hi0, if_false, if_true]
    have hl := made_free_live hi 0
    refine ⟨h.shrink ((h.tab.made hi 0).free hr) fun k hk => ⟨(hl k).mp hk, ?_⟩, fun c hc => (hl c).mpr hc⟩
    rw [kpzProcFree_proc]
    exact made_proc ((kpzProcFree_live hr k).mp hk).2 0
  | loaded =>
    simp only [spawnProc, ChildSys.born, he, hi0, if_false, enter_proc, take_proc]
    exact ⟨h.made creator hi rfl, fun c hc => (made_live hi 0 c).mpr (.inl hc)⟩

end

end Inv

section Wait

variable {s : ChildSys}

theorem waitScan_some (h : TabOk s.ps) {ppid wpid : Int} {k : Nat} (hk : waitScan s.ps ppid wpid = some k) :
    s.ps.Live k ∧ (s.ps.proc k).ppid = ppid ∧ (0 < wpid → (s.ps.proc k).pid = wpid) ∧
      (s.ps.proc k).state = .zombie ∧ 0 < (s.ps.proc k).pid := by
  have hw := List.find?_some hk
  obtain ⟨i, hi, rfl⟩ := List.mem_map.mp (List.mem_of_find?_eq_some hk)
  simp only [waits, ne_eq, decide_not, Bool.and_eq_true, Bool.not_eq_true', decide_eq_false_iff_not,
    decide_eq_true_eq, Bool.and_eq_false_iff] at hw
  obtain ⟨⟨⟨h1, h2⟩, h3⟩, h4⟩ := hw
  obtain ⟨-, hl, hp⟩ := h i h1
  refine ⟨hl, h2, fun hpos => ?_, h4, ?_⟩
  · grind
  · rw [hp]
    exact_mod_cast (mem_poolSlots.mp hi).1

theorem ChildInv.scan (h : ChildInv s) (c : Nat) (wpid : Int) : waitScan s.ps (s.ps.proc c).pid wpid =
    if (s.ps.proc c).pid = 0 then waitScan s.ps 0 wpid else none := by
  split
  · rename_i h0
    rw [h0]
  · rename_i h0
    cases hk : waitScan s.ps (s.ps.proc c).pid wpid with
    | none => rfl
    | some k =>
      obtain ⟨hl, hp, -⟩ := waitScan_some h.tab hk
      grind [h.orphan]

theorem childStep_wait4_none {c wstat : Nat} {wpid : Int} (hc : s.Running c)
    (hk : waitScan s.ps (s.ps.proc c).pid wpid = none) :
    childStep s (.wait4 c wpid wstat) = ((kpzErr .child, none), s) := by
  rw [childStep, if_pos hc, sysWait4, hk]
  rfl

theorem childStep_wait4_some {c wstat k : Nat} {wpid : Int} (hc : s.Running c)
    (hk : waitScan s.ps (s.ps.proc c).pid wpid = some k) (h0 : k ≠ 0) :
    childStep s (.wait4 c wpid wstat) = (((s.ps.proc k).pid,
      if checkPtr wstat 4 then some (statusWord (s.ps.proc k).exitCode) else none),
      s.reap k (kpzProcFree s.ps k)) := by
  have he : sysWait4 s.ps c wpid wstat = (k, (s.ps.proc k).pid,
      if checkPtr wstat 4 then some (statusWord (s.ps.proc k).exitCode) else none, kpzProcFree s.ps k) := by
    rw [sysWait4, hk]
  simp only [childStep, if_pos hc, he, if_neg h0]

theorem childStep_inv (h : ChildInv s) (op : ChildOp) : ChildInv (childStep s op).2 := by
  cases op with
  | spawn c kstack e => grind [childStep, h.born]
  | execve c kstack e =>
    rw [childStep]
    split
    · rename_i hc
      obtain ⟨hb, hl⟩ := h.born (s.who c) kstack e
      grind [hb.exit, hc.1]
    · exact h
  | exit c code =>
    rw [childStep]
    split
    · rename_i hc
      exact h.exit hc.1 code
    · exact h
  | kill pid sig =>
    simp only [childStep, sysKill]
    split
    · exact h
    split
    · exact h
    rename_i h0
    split
    · rename_i hsig
      have hl : s.ps.Live (kpzProcLookup s.ps pid) := by
        unfold kpzProcLookup at h0 ⊢
        split at h0
        · exact absurd rfl h0
        · rename_i hr
          rw [if_neg hr]
          exact (h.tab pid h0).2.1
      exact h.kill hl sig
    · exact h
  | wait4 c wpid wstat =>
    by_cases hc : s.Running c
    · cases hk : waitScan s.ps (s.ps.proc c).pid wpid with
      | none => rw [childStep_wait4_none hc hk]; exact h
      | some k =>
        obtain ⟨hl, -⟩ := waitScan_some h.tab hk
        rw [childStep_wait4_some hc hk (Nat.ne_of_gt hl.1)]
        exact h.reap hl
    · rw [childStep, if_neg hc]
      exact h

theorem childStep_keeps_iff (h : ChildInv s) (op : ChildOp) : op.Keeps s ↔ op.Sound s := by
  cases op with
  | wait4 c wpid wstat =>
    refine imp_congr_right fun hc => ?_
    rw [← h.scan]
    cases hk : waitScan s.ps (s.ps.proc c).pid wpid with
    | none =>
      rw [childStep_wait4_none hc hk]
      constructor
      · rintro (hl | ⟨n, code, ho, hre, -⟩)
        · exact hl.2
        grind [ho.unreaped]
      · exact fun hn => .inl ⟨rfl, hn⟩
    | some k =>
      obtain ⟨hl, -, hw, hz, hpos⟩ := waitScan_some h.tab hk
      rw [childStep_wait4_some hc hk (Nat.ne_of_gt hl.1)]
      constructor
      · rintro (⟨he, -⟩ | ⟨n, code, ho, hre, he⟩)
        · have := kpzErr_neg .child
          grind
        · -- only the process returned is reaped by the step
          have hn : n = s.who k := by
            by_contra hne
            change (update s.birth (s.who k) _ n).reaped = true at hre
            rw [update_of_ne hne, ho.unreaped] at hre
            cases hre
          grind [ho.ended, h.zombie]
      · intro ho
        refine .inr ⟨s.who k, _, ho, ?_, by rw [h.pid k hl]⟩
        change (update s.birth (s.who k) _ (s.who k)).reaped = true
        rw [update_self]
  | _ => exact Iff.rfl

end Wait

/-- **`wait4` along a run**: after operations that were all sound, the next one keeps the law of `wait4`
    exactly if it is. -/
theorem child_wait_iff {h : Log ChildOp (Int × Option Int)} {s : ChildSys}
    (hr : Reach (fun s op => op.Sound s) childStep .start h s) (op : ChildOp) : op.Keeps s ↔ op.Sound s :=
  childStep_keeps_iff (hr.invState ChildInv.start fun _ op hi _ => childStep_inv hi op) op

theorem child_wait_running : ∃ h s, Reach (fun s op => op.Sound s) childStep .start h s ∧ s.Running 1 ∧ s.Running 2 ∧
    (s.birth 2).creator = s.who 1 ∧ ChildOp.Keeps s (.wait4 1 (-1) 0) := by
  have hr : Reach (fun s op => ChildOp.Sound s op) childStep .start [] .start := .start
  have hr := Reach.step _ _ (ChildOp.spawn 0 true .loaded) hr trivial
  have hr := Reach.step _ _ (ChildOp.spawn 1 true .loaded) hr trivial
  have hcode : ∀ n, (update (update ChildSys.start.birth 1 ⟨0, 2, none, false⟩) 2 ⟨1, 3, none, false⟩ n).code = none := by
    intro n
    simp only [update_apply]
    split_ifs <;> rfl
  exact ⟨_, _, hr, by decide, by decide, by decide, (child_wait_iff hr (.wait4 1 (-1) 0)).mpr
    fun _ n code ho => nomatch (hcode n).symm.trans ho.ended⟩

/-- The kernel makes a process, which makes another; that one exits with 3 and the first one waits. -/
def lostChild : List ChildOp :=
  [.spawn 0 true .loaded, .spawn 1 true .loaded, .exit 2 3, .wait4 1 (-1) 0x1000]

/-- **The child that exited is not reported**: `wait4` answers `ECHILD`. -/
theorem child_lost : (runLog childStep ([], .start) lostChild).1.map (·.2) =
      [(kpzErr .child, none), (0, none), (3, none), (2, none)] ∧
    ∃ s, s = (runLog childStep ([], .start) (lostChild.take 3)).2 ∧ s.Running 1 ∧ Owed s 1 (-1) 2 3 := by
  refine ⟨by decide, _, rfl, by decide, ⟨by decide, by decide, by decide, by decide⟩⟩

end Kobalt.Kapi

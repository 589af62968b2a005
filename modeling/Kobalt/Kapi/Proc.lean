/-
  Subject: PROCESSES (`kapi/src/kposixz_proc.c`): a pool of `KPOSIXZ_MAX_PROCS` records, a counter
  that gives pids, and a table from pids to records.

  A process is named by its index in the pool; 0 is `NULL` (`kpz_proc_alloc` starts at 1). The files
  of a process are in `Kapi/Fd.lean`. The counter is a 32-bit word, the table is indexed by pid.
-/
import Mathlib.Data.Finset.Card
import Kobalt.Kapi.Fd

namespace Kobalt.Kapi

open Function

/-! ## 1. The code -/

inductive ProcState where
  | embryo | running | sleeping | zombie | dead
  deriving DecidableEq, Repr

structure Proc where
  pid : Int
  ppid : Int
  state : ProcState
  exitCode : Int
  deriving DecidableEq, Repr

structure ProcSys where
  /-- `kpz_next_pid` -/
  nextPid : Int
  /-- `kpz_proc_pool_used` -/
  used : Nat → Bool
  /-- `kpz_proc_pool` -/
  proc : Nat → Proc
  /-- `kpz_proc_table`; an index below 0 is a word of the memory before the array -/
  table : Int → Nat

def ProcSys.start : ProcSys where
  nextPid := 1
  used := fun _ => false
  proc := fun _ => ⟨0, 0, .embryo, 0⟩
  table := fun _ => 0

/-- A 32-bit signed word. -/
def wrapS32 (x : Int) : Int := (x + 2 ^ 31) % 2 ^ 32 - 2 ^ 31

section Code

variable (s : ProcSys) (i : Nat)

def kpzProcNextPid : Int := wrapS32 (s.nextPid + 1)

/-- The slots `kpz_proc_alloc` looks at, in its order. -/
def poolSlots : List Nat := (List.range maxProcs).filter (0 < ·)

/-- The record `i` is taken for a new process. -/
def ProcSys.take (ppid : Int) : ProcSys :=
  { s with
    used := update s.used i true
    nextPid := kpzProcNextPid s
    proc := update s.proc i ⟨kpzProcNextPid s, ppid, .embryo, 0⟩ }

/-- The process `i` is entered in the table. -/
def ProcSys.enter : ProcSys :=
  if (s.proc i).pid < maxProcs then { s with table := update s.table (s.proc i).pid i } else s

/-- `kpz_proc_alloc`; `kstack` says whether the allocation of the kernel stack succeeds. -/
def kpzProcAlloc (ppid : Int) (kstack : Bool) : Nat × ProcSys :=
  match poolSlots.find? fun i => !s.used i with
  | none => (0, s)
  | some i =>
    let s := s.take i ppid
    if kstack = false then (0, { s with used := update s.used i false })
    else (i, s.enter i)

def kpzProcLookup (pid : Int) : Nat :=
  if pid ≤ 0 ∨ pid ≥ maxProcs then 0 else s.table pid

/-- `kpz_proc_free` of the pool record `i`. -/
def kpzProcFree : ProcSys :=
  if i = 0 ∨ i ≥ maxProcs then s
  else { s with
    table := if (s.proc i).pid < maxProcs then update s.table (s.proc i).pid 0 else s.table
    used := update s.used i false }

inductive ProcOp where
  | alloc (ppid : Int) (kstack : Bool)
  | free (i : Nat)
  deriving DecidableEq, Repr

/-- A step shows the record `kpz_proc_alloc` returns. -/
def procStep : ProcOp → Nat × ProcSys
  | .alloc ppid kstack => kpzProcAlloc s ppid kstack
  | .free i => (0, kpzProcFree s i)

/-! ## 2. What looking up a pid finds -/

def ProcSys.Live : Prop := 0 < i ∧ i < maxProcs ∧ s.used i = true

/-- **Looking up a pid finds the live process that has it.** -/
structure LookupLaw (s : ProcSys) : Prop where
  distinct : ∀ i j, s.Live i → s.Live j → (s.proc i).pid = (s.proc j).pid → i = j
  found : ∀ i, s.Live i → kpzProcLookup s (s.proc i).pid = i
  absent : ∀ pid, kpzProcLookup s pid = 0 ↔ ∀ i, s.Live i → (s.proc i).pid ≠ pid

/-- The slots that can still be allocated. -/
def ProcSys.freeSlots : Nat :=
  ((Finset.range maxProcs).filter fun i => 0 < i ∧ s.used i = false).card

/-- A record of the pool that can be taken. -/
abbrev ProcSys.Unused : Prop := 0 < i ∧ i < maxProcs ∧ s.used i = false

/-- **When a call keeps the law**: a process that is made gets a pid inside the table, and one that no
    live process has; a record is freed while it is in use, or its old pid is nobody's. -/
def ProcOp.Within : ProcOp → Prop
  | .alloc _ kstack => kstack = true → (∃ i, s.Unused i) →
      0 < kpzProcNextPid s ∧ kpzProcNextPid s < maxProcs ∧ ∀ i, s.Live i → (s.proc i).pid ≠ kpzProcNextPid s
  | .free i => s.Live i ∨ i = 0 ∨ i ≥ maxProcs ∨ ∀ j, s.Live j → (s.proc j).pid ≠ (s.proc i).pid

end Code

section Step

variable {s : ProcSys}

theorem mem_poolSlots {i : Nat} : i ∈ poolSlots ↔ 0 < i ∧ i < maxProcs := by
  rw [poolSlots, List.mem_filter, List.mem_range, decide_eq_true_iff, and_comm]

theorem firstUnused_none (h : poolSlots.find? (fun i => !s.used i) = none) : ¬ ∃ i, s.Unused i := by
  rintro ⟨i, h1, h2, h3⟩
  have := List.find?_eq_none.mp h i (mem_poolSlots.mpr ⟨h1, h2⟩)
  rw [h3] at this
  exact this rfl

theorem firstUnused_some {i : Nat} (h : poolSlots.find? (fun i => !s.used i) = some i) : s.Unused i := by
  obtain ⟨h1, h2⟩ := mem_poolSlots.mp (List.mem_of_find?_eq_some h)
  grind

@[simp] theorem take_proc (s : ProcSys) (i : Nat) (ppid : Int) :
    (s.take i ppid).proc i = ⟨kpzProcNextPid s, ppid, .embryo, 0⟩ := update_self ..

@[simp] theorem enter_used (s : ProcSys) (i : Nat) : (s.enter i).used = s.used := by
  unfold ProcSys.enter
  split <;> rfl

@[simp] theorem enter_proc (s : ProcSys) (i : Nat) : (s.enter i).proc = s.proc := by
  unfold ProcSys.enter
  split <;> rfl

theorem enter_table (s : ProcSys) (i : Nat) : (s.enter i).table =
    if (s.proc i).pid < maxProcs then update s.table (s.proc i).pid i else s.table := by
  unfold ProcSys.enter
  split <;> rfl

theorem kpzProcAlloc_cases (s : ProcSys) (ppid : Int) (kstack : Bool) :
    ((¬ ∃ i, s.Unused i) ∧ kpzProcAlloc s ppid kstack = (0, s)) ∨
    ∃ i, s.Unused i ∧ kpzProcAlloc s ppid kstack =
      if kstack then (i, (s.take i ppid).enter i) else (0, { s.take i ppid with used := s.used }) := by
  unfold kpzProcAlloc
  cases hf : poolSlots.find? (fun i => !s.used i) with
  | none => exact .inl ⟨firstUnused_none hf, rfl⟩
  | some i =>
    obtain hi := firstUnused_some hf
    refine .inr ⟨i, hi, ?_⟩
    cases kstack with
    | true => rfl
    | false =>
      have hu : update (s.take i ppid).used i false = s.used := by
        change update (update s.used i true) i false = s.used
        rw [update_idem, ← hi.2.2, update_eq_self]
      grind

theorem LookupLaw.start : LookupLaw .start where
  distinct := fun _ _ h => nomatch h.2.2
  found := fun _ h => nomatch h.2.2
  absent := fun _ => iff_of_true (ite_self 0) fun _ h => nomatch h.2.2

theorem LookupLaw.pid_range (h : LookupLaw s) {i : Nat} (hi : s.Live i) :
    ¬ ((s.proc i).pid ≤ 0 ∨ (s.proc i).pid ≥ maxProcs) := by
  intro hr
  have hf := h.found i hi
  rw [kpzProcLookup, if_pos hr] at hf
  exact absurd hi.1 (by omega)

/-- **A new process** keeps the law exactly if its pid is inside the table and is nobody's. -/
theorem made_law_iff (h : LookupLaw s) {i : Nat} (hi : s.Unused i) (ppid : Int) :
    LookupLaw ((s.take i ppid).enter i) ↔
      0 < kpzProcNextPid s ∧ kpzProcNextPid s < maxProcs ∧ ∀ j, s.Live j → (s.proc j).pid ≠ kpzProcNextPid s := by
  generalize hpidEq : kpzProcNextPid s = pid
  generalize hs' : (s.take i ppid).enter i = s'
  have hu : s'.used = update s.used i true := by rw [← hs', enter_used]; rfl
  have hp : s'.proc = update s.proc i ⟨pid, ppid, .embryo, 0⟩ := by
    rw [← hs', enter_proc, ← hpidEq]; rfl
  have ht : s'.table = if pid < maxProcs then update s.table pid i else s.table := by
    rw [← hs', enter_table, take_proc, ← hpidEq]; rfl
  have hnew : s'.Live i := ⟨hi.1, hi.2.1, by rw [hu, update_self]⟩
  have hpid : (s'.proc i).pid = pid := by rw [hp, update_self]
  have hne : ∀ j, s.Live j → j ≠ i := by
    rintro j hj rfl
    exact nomatch hi.2.2.symm.trans hj.2.2
  have hold : ∀ j, j ≠ i → (s'.Live j ↔ s.Live j) ∧ s'.proc j = s.proc j := by
    intro j hj
    refine ⟨?_, by rw [hp, update_of_ne hj]⟩
    rw [ProcSys.Live, hu, update_of_ne hj, ProcSys.Live]
  constructor
  · intro h'
    have hr := h'.pid_range hnew
    grind [h'.distinct]
  · rintro ⟨h1, h2, h3⟩
    rw [if_pos h2] at ht
    have hlook : ∀ q, kpzProcLookup s' q = if q = pid then i else kpzProcLookup s q := by
      intro q
      by_cases hq : q = pid
      · subst hq
        rw [if_pos rfl, kpzProcLookup, if_neg (by omega), ht, update_self]
      · rw [if_neg hq, kpzProcLookup, kpzProcLookup, ht, update_of_ne hq]
    refine ⟨fun j k hj hk he => ?_, fun j hj => ?_, fun q => ?_⟩
    · by_cases hji : j = i <;> by_cases hki : k = i
      · rw [hji, hki]
      · grind
      · grind
      grind [h.distinct]
    · by_cases hji : j = i
      · subst hji
        rw [hpid, hlook, if_pos rfl]
      · have hj' := (hold j hji).1.mp hj
        rw [(hold j hji).2, hlook, if_neg (h3 j hj')]
        exact h.found j hj'
    · rw [hlook]
      by_cases hq : q = pid
      · grind
      · rw [if_neg hq, h.absent q]
        grind

theorem LookupLaw.of_unused (h : LookupLaw s) {s' : ProcSys} (hu : s'.used = s.used)
    (hp : ∀ j, s.Live j → s'.proc j = s.proc j) (ht : s'.table = s.table) : LookupLaw s' := by
  have hl : ∀ j, s'.Live j ↔ s.Live j := fun j => by rw [ProcSys.Live, hu, ProcSys.Live]
  have hk : ∀ q, kpzProcLookup s' q = kpzProcLookup s q := fun q => by
    rw [kpzProcLookup, kpzProcLookup, ht]
  refine ⟨fun j k hj hk he => ?_, fun j hj => ?_, fun q => ?_⟩
  · grind [h.distinct]
  · grind [h.found]
  grind [h.absent]

@[simp] theorem kpzProcFree_proc (s : ProcSys) (i : Nat) : (kpzProcFree s i).proc = s.proc := by
  unfold kpzProcFree
  split <;> rfl

theorem kpzProcFree_live {i : Nat} (hi : ¬ (i = 0 ∨ i ≥ maxProcs)) (k : Nat) :
    (kpzProcFree s i).Live k ↔ s.Live k ∧ k ≠ i := by
  rw [kpzProcFree, if_neg hi]
  by_cases hk : k = i
  · subst hk; simp [ProcSys.Live]
  · simp [ProcSys.Live, hk]

theorem kpzProcFree_table {i : Nat} (hi : ¬ (i = 0 ∨ i ≥ maxProcs)) (q : Int) :
    (kpzProcFree s i).table q = if q = (s.proc i).pid ∧ q < maxProcs then 0 else s.table q := by
  rw [kpzProcFree, if_neg hi]
  grind

/-- **A freed record** keeps the law exactly if its pid was its own or nobody's. -/
theorem freed_law_iff (h : LookupLaw s) {i : Nat} (hi : ¬ (i = 0 ∨ i ≥ maxProcs)) :
    LookupLaw (kpzProcFree s i) ↔ s.Live i ∨ ∀ j, s.Live j → (s.proc j).pid ≠ (s.proc i).pid := by
  generalize hs' : kpzProcFree s i = s'
  have hp : s'.proc = s.proc := by rw [← hs', kpzProcFree_proc]
  have hlive : ∀ j, s'.Live j ↔ s.Live j ∧ j ≠ i := fun j => by rw [← hs', kpzProcFree_live hi]
  have hlook : ∀ q, kpzProcLookup s' q = if q = (s.proc i).pid then 0 else kpzProcLookup s q := by
    intro q
    unfold kpzProcLookup
    rw [← hs', kpzProcFree_table hi]
    by_cases hq : q = (s.proc i).pid
    · grind
    · rw [if_neg (fun h => hq h.1 : ¬ (q = (s.proc i).pid ∧ q < maxProcs)), if_neg hq]
  constructor
  · intro h'
    by_contra hn
    push Not at hn
    obtain ⟨hnl, j, hj, he⟩ := hn
    have hji : j ≠ i := by rintro rfl; exact hnl hj
    have := h'.found j ((hlive j).mpr ⟨hj, hji⟩)
    rw [hp, hlook, if_pos he] at this
    exact absurd hj.1 (by omega)
  · intro hc
    -- the pid of the record is no other live process's
    have hown : ∀ j, s.Live j → j ≠ i → (s.proc j).pid ≠ (s.proc i).pid := by
      intro j hj hji he
      rcases hc with hl | hc
      · exact hji (h.distinct j i hj hl he)
      · exact hc j hj he
    refine ⟨fun j k hj hk he => ?_, fun j hj => ?_, fun q => ?_⟩
    · grind [h.distinct]
    · obtain ⟨hj, hji⟩ := (hlive j).mp hj
      rw [hp, hlook, if_neg (hown j hj hji)]
      exact h.found j hj
    · rw [hlook, hp]
      by_cases hq : q = (s.proc i).pid
      · grind
      · rw [if_neg hq, h.absent q]
        grind

/-- **The call leaves a table that finds what is live**, and if it made no process, as many free slots
    as before. -/
def ProcOp.Keeps (s : ProcSys) (op : ProcOp) : Prop :=
  LookupLaw (procStep s op).2 ∧
    ∀ ppid kstack, op = .alloc ppid kstack → (procStep s op).1 = 0 →
      (procStep s op).2.freeSlots = s.freeSlots

theorem step_keeps_iff (h : LookupLaw s) (op : ProcOp) : op.Keeps s ↔ op.Within s := by
  cases op with
  | alloc ppid kstack =>
    rw [ProcOp.Keeps, procStep, ProcOp.Within]
    rcases kpzProcAlloc_cases s ppid kstack with ⟨hn, he⟩ | ⟨i, hi, he⟩
    · grind
    · rw [he]
      cases kstack with
      | false =>
        simp only [Bool.false_eq_true, if_false]
        refine iff_of_true ⟨h.of_unused rfl (fun j hj => update_of_ne ?_ _ _) rfl, fun _ _ _ _ => rfl⟩ nofun
        rintro rfl
        exact nomatch hi.2.2.symm.trans hj.2.2
      | true =>
        simp only [if_true]
        rw [and_iff_left fun _ _ _ h0 => absurd hi.1 (by omega), made_law_iff h hi ppid]
        grind
  | free i =>
    rw [ProcOp.Keeps, procStep, ProcOp.Within, and_iff_left fun _ _ h => nomatch h]
    by_cases hi : i = 0 ∨ i ≥ maxProcs
    · rw [kpzProcFree, if_pos hi]
      exact iff_of_true h (.inr (hi.imp_right .inl))
    · rw [freed_law_iff h hi]
      grind

end Step

/-- **What is in the table is live**, under its pid. -/
def TabOk (s : ProcSys) : Prop :=
  ∀ q, s.table q ≠ 0 → q < maxProcs ∧ s.Live (s.table q) ∧ (s.proc (s.table q)).pid = q

section Table

variable {s : ProcSys}

theorem TabOk.free (h : TabOk s) {i : Nat} (hi : ¬ (i = 0 ∨ i ≥ maxProcs)) : TabOk (kpzProcFree s i) := by
  intro q hq
  rw [kpzProcFree_table hi] at hq ⊢
  split at hq
  · exact absurd rfl hq
  · rename_i hn
    obtain ⟨h1, h2, h3⟩ := h q hq
    rw [if_neg hn, kpzProcFree_live hi, kpzProcFree_proc]
    grind

theorem TabOk.of_live (h : TabOk s) {s' : ProcSys} (ht : s'.table = s.table)
    (hl : ∀ k, s.Live k → s'.Live k ∧ (s'.proc k).pid = (s.proc k).pid) : TabOk s' := by
  intro q hq
  rw [ht] at hq ⊢
  obtain ⟨h1, h2, h3⟩ := h q hq
  grind

theorem made_live {i : Nat} (hi : s.Unused i) (ppid : Int) (k : Nat) :
    ((s.take i ppid).enter i).Live k ↔ s.Live k ∨ k = i := by
  rw [ProcSys.Live, enter_used, ProcSys.Live]
  change 0 < k ∧ k < maxProcs ∧ update s.used i true k = true ↔ _
  grind

theorem made_free_live {i : Nat} (hi : s.Unused i) (ppid : Int) (k : Nat) :
    (kpzProcFree ((s.take i ppid).enter i) i).Live k ↔ s.Live k := by
  rw [kpzProcFree_live (by omega), made_live hi]
  refine ⟨fun hk => hk.1.resolve_right hk.2, fun hk => ⟨.inl hk, ?_⟩⟩
  rintro rfl
  exact nomatch hi.2.2.symm.trans hk.2.2

theorem made_proc {i k : Nat} (hk : k ≠ i) (ppid : Int) : ((s.take i ppid).enter i).proc k = s.proc k := by
  rw [enter_proc]
  exact update_of_ne hk _ _

theorem TabOk.made (h : TabOk s) {i : Nat} (hi : s.Unused i) (ppid : Int) :
    TabOk ((s.take i ppid).enter i) := by
  have hold : ∀ q, s.table q ≠ 0 → q < maxProcs ∧ ((s.take i ppid).enter i).Live (s.table q) ∧
      (((s.take i ppid).enter i).proc (s.table q)).pid = q := by
    intro q hq
    obtain ⟨h1, h2, h3⟩ := h q hq
    have hne : s.table q ≠ i := by
      intro e
      rw [e] at h2
      exact nomatch hi.2.2.symm.trans h2.2.2
    exact ⟨h1, (made_live hi ppid _).mpr (.inl h2), by rw [made_proc hne]; exact h3⟩
  intro q hq
  rw [enter_table, take_proc] at hq ⊢
  simp only at hq ⊢
  split at hq
  · rename_i hr
    rw [if_pos hr]
    by_cases he : q = kpzProcNextPid s
    · grind [made_live, enter_proc, take_proc]
    · rw [update_of_ne he] at hq ⊢
      exact hold q hq
  · rename_i hr
    rw [if_neg hr]
    exact hold q hq

end Table

/-! ## 3. Along a run -/

/-- **Process lookup**: after calls that were all within the table, the next one keeps the law exactly
    if it is. -/
theorem proc_lookup_iff {h : Log ProcOp Nat} {s : ProcSys}
    (hr : Reach (fun s op => op.Within s) procStep .start h s) (op : ProcOp) : op.Keeps s ↔ op.Within s := by
  have hl : LookupLaw s := hr.invState LookupLaw.start fun s op hl hw => ((step_keeps_iff hl op).mpr hw).1
  exact step_keeps_iff hl op

theorem proc_lookup_second : ∃ h s, Reach (fun s op => op.Within s) procStep .start h s ∧ s.Live 1 ∧
    ProcOp.Keeps s (.alloc 1 true) := by
  have hw : ProcOp.Within .start (.alloc 0 true) := fun _ _ => ⟨by decide, by decide, fun _ h => nomatch h.2.2⟩
  have hr : Reach (fun s op => ProcOp.Within s op) procStep .start _ _ := .step [] .start (.alloc 0 true) .start hw
  refine ⟨_, _, hr, ⟨by decide, by decide, rfl⟩, (proc_lookup_iff hr (.alloc 1 true)).mpr fun _ _ =>
    ⟨by decide, by decide, fun i hi => ?_⟩⟩
  have hused : update (fun _ => false) 1 true i = true := hi.2.2
  obtain rfl : i = 1 := by
    by_contra hne
    rw [update_of_ne hne] at hused
    cases hused
  decide

/-- `n` processes, each made after the one before it was freed. -/
def procCycles (n : Nat) : List ProcOp := (List.replicate n [.alloc 0 true, .free 1]).flatten

/-- **The 255th process is not found**: 254 processes were made and freed, and the next one gets the
    pid 256. -/
theorem proc_lookup_lost :
    ∃ s, s = (procStep (runLog procStep ([], .start) (procCycles 254)).2 (.alloc 0 true)).2 ∧
      s.Live 1 ∧ (s.proc 1).pid = 256 ∧ kpzProcLookup s 256 = 0 := by
  exact ⟨_, rfl, ⟨by decide, by decide, by decide +kernel⟩, by decide +kernel, by decide +kernel⟩

end Kobalt.Kapi

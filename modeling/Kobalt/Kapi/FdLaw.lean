/-
  Subject: THE LAW OF THE DESCRIPTOR TABLE: what `open`, `dup`, `dup2`, `fcntl` and `close` may
  answer and change.
-/
import Kobalt.Kapi.Fd

namespace Kobalt.Kapi

open Function

/-! ## 1. The law -/

/-- The call returns a descriptor if it returns no error. -/
def FdCall.Returns : FdCall → Prop
  | .openFile .. | .dup _ | .dup2 .. => True
  | .fcntl _ cmd _ => fcntlCmd (s32 cmd) = .dupfd
  | .close _ => False

/-- The call works on the descriptor `fd`, which has to be open. -/
def FdCall.Uses (fd : Int) : FdCall → Prop
  | .openFile .. => False
  | .dup d | .fcntl d _ _ | .close d => s32 d = fd
  | .dup2 oldfd _ => s32 oldfd = fd

/-- The slots a call that answers `r` names. -/
def FdCall.Names (r i : Int) : FdCall → Prop
  | .openFile .. | .dup _ => 0 ≤ r ∧ i = r
  | .dup2 _ newfd => i = s32 newfd
  | .fcntl fd cmd _ => (fcntlCmd (s32 cmd) = .dupfd ∧ 0 ≤ r ∧ i = r) ∨ (fcntlCmd (s32 cmd) = .setfd ∧ i = s32 fd)
  | .close fd => i = s32 fd

/-- **The law of the descriptor table** for one call. -/
structure TableLaw (t : FdTable) (c : FdCall) (r : Int) (t' : FdTable) : Prop where
  /-- a descriptor returned is one of the table and was free, or is the target of `dup2` -/
  free : c.Returns → 0 ≤ r → r < maxFd ∧ (t.files r = 0 ∨ ∃ o n, c = .dup2 o n ∧ r = s32 n)
  /-- only the slots named by the call change -/
  frame : ∀ i, ¬ c.Names r i → t'.files i = t.files i ∧ t'.cloexec i = t.cloexec i
  /-- a descriptor returned is not closed on exec -/
  clear : c.Returns → 0 ≤ r → t'.cloexec r = 0
  /-- `F_DUPFD` returns the smallest free descriptor from its argument on -/
  least : ∀ fd cmd arg, c = .fcntl fd cmd arg → fcntlCmd (s32 cmd) = .dupfd → t.file (s32 fd) ≠ 0 →
    (0 ≤ r → s32 arg ≤ r) ∧ ∀ i, 0 ≤ i → s32 arg ≤ i → i < maxFd → (0 ≤ r → i < r) → t.files i ≠ 0
  /-- a closed descriptor is refused -/
  badf : ∀ fd, c.Uses fd → t.file fd = 0 → r = kpzErr .badf

/-- **When the code keeps the law**: no `open` with `O_CLOEXEC`; no `dup2` of a descriptor onto itself
    if it is closed or closed on exec; `F_DUPFD` finds its slot inside the table, with the flag
    clear; the other commands of `fcntl` that do not look at the file get an open descriptor. -/
def FdCall.Sound (t : FdTable) : FdCall → Prop
  | .openFile path flags file => flags % 2 ^ 32 &&& oCloexec ≠ 0 →
      path = 0 ∨ flags % 2 ^ 32 &&& (oWronly ||| oRdwr ||| oCreat) ≠ 0 ∨ file = none ∨
        firstFree t.files 0 maxFd = none
  | .dup2 oldfd newfd => s32 oldfd = s32 newfd → ¬ (s32 newfd < 0 ∨ s32 newfd ≥ maxFd) →
      t.files (s32 newfd) ≠ 0 ∧ t.cloexec (s32 newfd) = 0
  | .fcntl fd cmd arg => ¬ (s32 fd < 0 ∨ s32 fd ≥ maxFd) →
      match fcntlCmd (s32 cmd) with
      | .dupfd => t.files (s32 fd) ≠ 0 → ∀ i, firstFree t.files (s32 arg) (maxFd - s32 arg).toNat = some i →
          0 ≤ i ∧ t.cloexec i = 0
      | .getfd | .setfd | .other => t.files (s32 fd) ≠ 0
      | .getfl | .setfl => True
  | .dup _ | .close _ => True

/-! ## 2. Call by call -/

section Law

variable {t : FdTable} {fl : Nat → Int}

theorem FdTable.file_of_range {fd : Int} (h : ¬ (fd < 0 ∨ fd ≥ maxFd)) : t.file fd = t.files fd := if_neg h

theorem FdTable.file_out {fd : Int} (h : fd < 0 ∨ fd ≥ maxFd) : t.file fd = 0 := if_pos h

theorem FdTable.set_of_ne {i j : Int} {f c : Nat} (h : j ≠ i) :
    (t.set i f c).files j = t.files j ∧ (t.set i f c).cloexec j = t.cloexec j :=
  ⟨update_of_ne h _ _, update_of_ne h _ _⟩

theorem TableLaw.error {c : FdCall} (e : Kpze) (hu : ∀ fd, c.Uses fd → t.file fd = 0 → e = .badf)
    (hl : ∀ fd cmd arg, c = .fcntl fd cmd arg → fcntlCmd (s32 cmd) = .dupfd → t.file (s32 fd) ≠ 0 →
      ∀ i, 0 ≤ i → s32 arg ≤ i → i < maxFd → t.files i ≠ 0) : TableLaw t c (kpzErr e) t where
  free := fun _ h => absurd h (not_le.mpr (kpzErr_neg e))
  frame := fun _ _ => ⟨rfl, rfl⟩
  clear := fun _ h => absurd h (not_le.mpr (kpzErr_neg e))
  least := fun fd cmd arg h1 h2 h3 =>
    ⟨fun h => absurd h (not_le.mpr (kpzErr_neg e)), fun i hi ha hm _ => hl fd cmd arg h1 h2 h3 i hi ha hm⟩
  badf := fun fd h1 h2 => by rw [hu fd h1 h2]

theorem TableLaw.fill {c : FdCall} {i : Int} {a : Nat} (h2 : i < maxFd) (h3 : t.files i = 0)
    (hn : c.Names i i) (hc : ∀ fd cmd arg, c ≠ .fcntl fd cmd arg)
    (hu : ∀ fd, c.Uses fd → t.file fd ≠ 0) : TableLaw t c i (t.set i a 0) where
  free := fun _ _ => ⟨h2, .inl h3⟩
  frame := fun _ hj => FdTable.set_of_ne fun e => hj (e ▸ hn)
  clear := fun _ _ => update_self ..
  least := fun fd cmd arg h => absurd h (hc fd cmd arg)
  badf := fun fd h1 h2 => absurd h2 (hu fd h1)

theorem openFile_law_iff (path flags : Nat) (file : Option Nat) :
    TableLaw t (.openFile path flags file) (t.call fl (.openFile path flags file)).1
      (t.call fl (.openFile path flags file)).2 ↔ FdCall.Sound t (.openFile path flags file) := by
  have herr : ∀ e, TableLaw t (.openFile path flags file) (kpzErr e) t :=
    fun e => .error e (fun _ h => by cases h) fun _ _ _ h => by cases h
  by_cases h1 : path = 0
  · simp only [FdTable.call, h1, if_true]
    exact iff_of_true (h1 ▸ herr _) fun _ => .inl rfl
  by_cases h2 : flags % 2 ^ 32 &&& (oWronly ||| oRdwr ||| oCreat) ≠ 0
  · simp only [FdTable.call, h1, if_false, if_pos h2]
    exact iff_of_true (herr _) fun _ => .inr (.inl h2)
  simp only [FdTable.call, h1, if_false, if_neg h2]
  cases file with
  | none => exact iff_of_true (herr _) fun _ => .inr (.inr (.inl rfl))
  | some a =>
    cases hff : firstFree t.files 0 maxFd with
    | none => exact iff_of_true (herr _) fun _ => .inr (.inr (.inr hff))
    | some i =>
      obtain ⟨h3, h4, h5, -⟩ := firstFree_some hff
      simp only
      by_cases hx : flags % 2 ^ 32 &&& oCloexec ≠ 0
      · rw [if_pos hx]
        refine iff_of_false (fun hl => ?_) fun hs => ?_
        · have h := hl.clear trivial h3
          simp only [FdTable.set, update_self] at h
          cases h
        · rcases hs hx with h | h | h | h
          · exact h1 h
          · exact h2 h
          · cases h
          · rw [hff] at h; cases h
      · rw [if_neg hx]
        exact iff_of_true (.fill (by omega) h5 ⟨h3, rfl⟩ (fun _ _ _ h => by cases h) fun _ h => by cases h)
          fun h => absurd h hx

theorem dup_law (fd : Nat) : TableLaw t (.dup fd) (t.call fl (.dup fd)).1 (t.call fl (.dup fd)).2 := by
  by_cases h0 : t.file (s32 fd) = 0
  · have hc : t.call fl (.dup fd) = (kpzErr .badf, t) := by
      simp only [FdTable.call, h0, if_true]
      split <;> rfl
    rw [hc]
    exact .error _ (fun _ _ _ => rfl) fun _ _ _ h => by cases h
  have hb : ∀ fd', FdCall.Uses fd' (.dup fd) → t.file fd' ≠ 0 := by
    rintro _ rfl
    exact h0
  cases hff : firstFree t.files 0 maxFd with
  | none =>
    simp only [FdTable.call, hff, h0, if_false]
    exact .error _ (fun fd' h1 h2 => absurd h2 (hb fd' h1)) fun _ _ _ h => by cases h
  | some i =>
    obtain ⟨h3, h4, h5, -⟩ := firstFree_some hff
    simp only [FdTable.call, hff, h0, if_false]
    exact .fill (by omega) h5 ⟨h3, rfl⟩ (fun _ _ _ h => by cases h) hb

theorem dup2_law_iff (oldfd newfd : Nat) :
    TableLaw t (.dup2 oldfd newfd) (t.call fl (.dup2 oldfd newfd)).1 (t.call fl (.dup2 oldfd newfd)).2 ↔
      FdCall.Sound t (.dup2 oldfd newfd) := by
  by_cases hr : s32 newfd < 0 ∨ s32 newfd ≥ maxFd
  · simp only [FdTable.call, if_pos hr]
    exact iff_of_true (.error _ (fun _ _ _ => rfl) fun _ _ _ h => by cases h) fun _ h => absurd hr h
  by_cases he : s32 oldfd = s32 newfd
  · simp only [FdTable.call, if_neg hr, if_pos he]
    constructor
    · intro hl _ _
      refine ⟨fun h0 => ?_, hl.clear trivial (by omega)⟩
      have h1 := hl.badf (s32 oldfd) rfl (by rw [he, FdTable.file_of_range hr, h0])
      have := kpzErr_neg .badf
      omega
    · intro hs
      obtain ⟨hopen, hclear⟩ := hs he hr
      refine ⟨fun _ _ => ⟨by omega, .inr ⟨_, _, rfl, rfl⟩⟩, fun _ _ => ⟨rfl, rfl⟩, fun _ _ => hclear,
        fun _ _ _ h => (by cases h), fun fd h1 h2 => ?_⟩
      rw [← (show s32 oldfd = fd from h1), he, FdTable.file_of_range hr] at h2
      exact absurd h2 hopen
  refine iff_of_true ?_ fun h => absurd h he
  by_cases h0 : t.file (s32 oldfd) = 0
  · simp only [FdTable.call, if_neg hr, if_neg he, if_pos h0]
    exact .error _ (fun _ _ _ => rfl) fun _ _ _ h => by cases h
  · simp only [FdTable.call, if_neg hr, if_neg he, if_neg h0]
    refine ⟨fun _ _ => ⟨by omega, .inr ⟨_, _, rfl, rfl⟩⟩, fun j hj => FdTable.set_of_ne hj,
      fun _ _ => by simp [FdTable.set], fun _ _ _ h => (by cases h), fun fd h1 h2 => ?_⟩
    rw [← (show s32 oldfd = fd from h1)] at h2
    exact absurd h2 h0

theorem close_law (fd : Nat) : TableLaw t (.close fd) (t.call fl (.close fd)).1 (t.call fl (.close fd)).2 := by
  by_cases h0 : t.file (s32 fd) = 0
  · simp only [FdTable.call, if_pos h0]
    exact .error _ (fun _ _ _ => rfl) fun _ _ _ h => by cases h
  · simp only [FdTable.call, if_neg h0]
    refine ⟨fun h => h.elim, fun j hj => FdTable.set_of_ne hj, fun h => h.elim,
      fun _ _ _ h => (by cases h), fun fd' h1 h2 => ?_⟩
    rw [← (show s32 fd = fd' from h1)] at h2
    exact absurd h2 h0

theorem dupfd_law_iff {fd cmd arg : Nat} (hr : ¬ (s32 fd < 0 ∨ s32 fd ≥ maxFd))
    (hcmd : fcntlCmd (s32 cmd) = .dupfd) (h0 : t.files (s32 fd) ≠ 0) :
    TableLaw t (.fcntl fd cmd arg) (t.fcntl fl (s32 fd) (s32 cmd) arg).1 (t.fcntl fl (s32 fd) (s32 cmd) arg).2 ↔
      ∀ i, firstFree t.files (s32 arg) (maxFd - s32 arg).toNat = some i → 0 ≤ i ∧ t.cloexec i = 0 := by
  have hopen : ∀ fd', FdCall.Uses fd' (.fcntl fd cmd arg) → t.file fd' ≠ 0 := by
    rintro _ rfl
    rw [FdTable.file_of_range hr]
    exact h0
  simp only [FdTable.fcntl, if_neg hr, hcmd, if_neg h0]
  cases hff : firstFree t.files (s32 arg) (maxFd - s32 arg).toNat with
  | none =>
    refine iff_of_true (.error _ (fun fd' h1 h2 => absurd h2 (hopen fd' h1)) fun fd' cmd' arg' he _ _ i h1 h2 h3 => ?_)
      fun _ h => by cases h
    obtain ⟨rfl, rfl, rfl⟩ := FdCall.fcntl.inj he
    exact firstFree_none hff i h2 (by omega)
  | some j =>
    obtain ⟨h1, h2, h3, h4⟩ := firstFree_some hff
    simp only
    by_cases hj : j < 0
    · -- the file's address goes to a word before the array
      rw [if_pos hj]
      refine iff_of_false (fun hl => ?_) fun h => absurd (h j rfl).1 (by omega)
      have hn : ¬ FdCall.Names (kpzErr .mfile) j (.fcntl fd cmd arg) := by
        rintro (⟨-, h, -⟩ | ⟨h, -⟩)
        · exact absurd h (not_le.mpr (kpzErr_neg _))
        · rw [hcmd] at h; cases h
      have := (hl.frame j hn).1
      rw [h3] at this
      simp only [FdTable.set, update_self] at this
      exact h0 this
    · rw [if_neg hj]
      constructor
      · intro hl i hi
        obtain rfl := Option.some.inj hi
        refine ⟨by omega, ?_⟩
        have := hl.clear hcmd (by omega)
        simpa [FdTable.set] using this
      · intro hs
        refine ⟨fun _ _ => ⟨by omega, .inl h3⟩,
          fun i hi => FdTable.set_of_ne fun e => hi (.inl ⟨hcmd, by omega, e⟩),
          fun _ _ => by simpa [FdTable.set] using (hs j rfl).2, fun fd' cmd' arg' he _ _ => ?_,
          fun fd' h1 h2 => absurd h2 (hopen fd' h1)⟩
        grind

/-- The commands other than `F_DUPFD` on an open descriptor change at most its own flag. -/
theorem fcntl_open_law {fd cmd arg : Nat} (hr : ¬ (s32 fd < 0 ∨ s32 fd ≥ maxFd)) (h0 : t.files (s32 fd) ≠ 0)
    (hd : fcntlCmd (s32 cmd) ≠ .dupfd) {r : Int} {t' : FdTable}
    (hf : ∀ i, ¬ (fcntlCmd (s32 cmd) = .setfd ∧ i = s32 fd) →
      t'.files i = t.files i ∧ t'.cloexec i = t.cloexec i) : TableLaw t (.fcntl fd cmd arg) r t' where
  free := fun h => absurd h hd
  frame := fun i hi => hf i fun h => hi (.inr h)
  clear := fun h => absurd h hd
  least := fun fd' cmd' arg' he h => by grind
  badf := fun fd' h1 h2 => by
    rw [← (show s32 fd = fd' from h1), FdTable.file_of_range hr] at h2
    exact absurd h2 h0

theorem fcntl_law_iff (fd cmd arg : Nat) :
    TableLaw t (.fcntl fd cmd arg) (t.call fl (.fcntl fd cmd arg)).1 (t.call fl (.fcntl fd cmd arg)).2 ↔
      FdCall.Sound t (.fcntl fd cmd arg) := by
  have hbadf : t.file (s32 fd) = 0 → TableLaw t (.fcntl fd cmd arg) (kpzErr .badf) t := by
    refine fun hz => .error _ (fun _ _ _ => rfl) fun fd' cmd' arg' he _ h => ?_
    obtain ⟨rfl, rfl, rfl⟩ := FdCall.fcntl.inj he
    exact absurd hz h
  by_cases hr : s32 fd < 0 ∨ s32 fd ≥ maxFd
  · simp only [FdTable.call, FdTable.fcntl, if_pos hr]
    exact iff_of_true (hbadf (FdTable.file_out hr)) fun h => absurd hr h
  rw [FdCall.Sound, imp_iff_right hr]
  change TableLaw t _ (t.fcntl fl (s32 fd) (s32 cmd) arg).1 (t.fcntl fl (s32 fd) (s32 cmd) arg).2 ↔ _
  by_cases h0 : t.files (s32 fd) = 0
  · -- a closed descriptor: the commands that look at the file refuse it
    have hz : t.file (s32 fd) = 0 := by rw [FdTable.file_of_range hr, h0]
    have hno : ∀ {r : Int} {t' : FdTable}, r ≠ kpzErr .badf → ¬ TableLaw t (.fcntl fd cmd arg) r t' :=
      fun hne hl => hne (hl.badf _ rfl hz)
    cases hc : fcntlCmd (s32 cmd) with
    | dupfd =>
      simp only [FdTable.fcntl, if_neg hr, hc, h0, if_true]
      grind
    | getfl | setfl =>
      simp only [FdTable.fcntl, if_neg hr, hc, h0, if_true]
      exact iff_of_true (hbadf hz) trivial
    | getfd =>
      simp only [FdTable.fcntl, if_neg hr, hc]
      exact iff_of_false (hno (by split <;> decide)) fun h => h h0
    | setfd =>
      simp only [FdTable.fcntl, if_neg hr, hc]
      exact iff_of_false (hno (by decide)) fun h => h h0
    | other =>
      simp only [FdTable.fcntl, if_neg hr, hc]
      exact iff_of_false (hno (by decide)) fun h => h h0
  · cases hc : fcntlCmd (s32 cmd) with
    | dupfd => exact (dupfd_law_iff hr hc h0).trans (imp_iff_right h0).symm
    | setfd =>
      refine iff_of_true (fcntl_open_law hr h0 (by rw [hc]; decide) fun i hi => ?_) h0
      simp only [FdTable.fcntl, if_neg hr, hc]
      by_cases hi' : i = s32 fd
      · exact absurd ⟨hc, hi'⟩ hi
      · exact FdTable.set_of_ne hi'
    | getfd | other =>
      refine iff_of_true (fcntl_open_law hr h0 (by rw [hc]; decide) fun i _ => ?_) h0
      simp only [FdTable.fcntl, if_neg hr, hc, and_self]
    | getfl | setfl =>
      refine iff_of_true (fcntl_open_law hr h0 (by rw [hc]; decide) fun i _ => ?_) trivial
      simp only [FdTable.fcntl, if_neg hr, hc, and_self]

/-- **The code keeps the law of the descriptor table exactly if the call is sound**, for every table
    and every call. -/
theorem call_law_iff (fl : Nat → Int) (c : FdCall) : TableLaw t c (t.call fl c).1 (t.call fl c).2 ↔ c.Sound t := by
  cases c with
  | openFile path flags file => exact openFile_law_iff path flags file
  | dup fd => exact iff_of_true (dup_law fd) trivial
  | dup2 oldfd newfd => exact dup2_law_iff oldfd newfd
  | fcntl fd cmd arg => exact fcntl_law_iff fd cmd arg
  | close fd => exact iff_of_true (close_law fd) trivial

end Law

/-! ## 3. Along a run -/

/-- A call keeps the law; the other operations are not subject to it. -/
def FdOp.Sound (s : FdSys) (p : Nat) : FdOp → Prop
  | .call c => c.Sound (s.table p)
  | _ => True

/-- The call of the process `p` returns, keeps the law on its table and changes no other table. -/
def KeepsLaw (s : FdSys) (p : Nat) (c : FdCall) : Prop :=
  ∃ r s', fdStep s (p, .call c) = (some r, s') ∧ TableLaw (s.table p) c r (s'.table p) ∧
    ∀ q, q ≠ p → s'.table q = s.table q

/-- **The descriptor table law along a run**: after calls that were all sound, the next call of a
    process keeps the law exactly if it is sound. -/
theorem fd_table_law_iff {h : List ((Nat × FdOp) × Option Int)} {s : FdSys}
    (hr : Reach (fun s i => i.2.Fresh s ∧ i.2.Sound s i.1) fdStep .start h s) {p : Nat} {c : FdCall}
    (hu : s.used p = true) (hf : c.Fresh s) : KeepsLaw s p c ↔ c.Sound (s.table p) := by
  have hc : Counted s [] := hr.invState (I := (Counted · [])) Counted.start fun s i hc hi => (fdStep_counted hc i hi.1).2
  obtain ⟨s', he, ht, -, -⟩ := FdCall.exec_keeps hc hu c hf
  have hstep : fdStep s (p, .call c) = (some ((s.table p).call s.flagsOf c).1, s') := by
    simp only [fdStep, fdExec, hu, he]
  have htab : s'.table p = ((s.table p).call s.flagsOf c).2 := by rw [ht, update_self]
  rw [← call_law_iff s.flagsOf, ← htab]
  constructor
  · rintro ⟨r, s'', he', hl, -⟩
    grind
  · exact fun hl => ⟨_, s', hstep, hl, fun q hq => by rw [ht, update_of_ne hq]⟩

theorem fd_table_law_dup : ∃ h s, Reach (fun s i => i.2.Fresh s ∧ i.2.Sound s i.1) fdStep .start h s ∧
    KeepsLaw s 1 (.dup 1) := by
  have hr : Reach (fun s i => i.2.Fresh s ∧ i.2.Sound s i.1) fdStep .start [] .start := .start
  have hr := Reach.step _ _ (1, FdOp.spawn) hr ⟨trivial, trivial⟩
  exact ⟨_, _, hr, (fd_table_law_iff (c := .dup 1) hr rfl trivial).mpr trivial⟩

/-- `fcntl(5, F_SETFD, 1)` on the closed descriptor 5, then `fcntl(1, F_DUPFD, 5)`. -/
def staleCloexec : List (Nat × FdOp) :=
  [(1, .spawn), (1, .call (.fcntl 5 2 1)), (1, .call (.fcntl 1 0 5))]

/-- **The law fails**: the first `fcntl` succeeds on a closed descriptor, and the flag it leaves
    behind is set on the descriptor that the second one returns. -/
theorem fd_stale_cloexec : (runLog fdStep ([], .start) staleCloexec).1.map (·.2) = [some 5, some 0, some 0] ∧
    ((runLog fdStep ([], .start) [(1, .spawn)]).2.table 1).file 5 = 0 ∧
    ((runLog fdStep ([], .start) staleCloexec).2.table 1).cloexec 5 = 1 := by
  refine ⟨?_, ?_, ?_⟩ <;> decide

end Kobalt.Kapi

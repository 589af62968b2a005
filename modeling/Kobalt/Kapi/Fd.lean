/-
  Subject: OPEN FILES AND DESCRIPTOR TABLES (`kapi/src/kposixz_fd.c`, the calls of
  `kposixz_syscall.c` and `kposixz_io.c` that use them): the reference counts.

  A file is named by its address; 0 is `NULL` and 1, 2, 3 are the static files. What `kmalloc` and
  `kpz_kfs_open` return is an input of the call. A step is `none` where the code would use an
  object that was freed.
-/
import Mathlib.Data.Finset.Prod
import Kobalt.Lib.Refs
import Kobalt.Kapi.Pipe

namespace Kobalt.Kapi

open Function Option

/-! ## 1. The code -/

abbrev maxFd : Nat := 256

abbrev maxProcs : Nat := 256

structure KFile where
  refcount : Int
  flags : Nat
  deriving DecidableEq, Repr

/-- `kpz_fd_table_t`. An index below 0 is a word of the memory before the array. -/
structure FdTable where
  files : Int → Nat
  cloexec : Int → Nat

inductive FileEvent where
  /-- a file was made, with `refcount` 1 -/
  | created (a : Nat)
  /-- `ops->close` ran -/
  | closed (a : Nat)
  /-- the file was passed to `kfree` -/
  | freed (a : Nat)
  deriving DecidableEq, Repr

structure FdSys where
  table : Nat → FdTable
  /-- `kpz_proc_pool_used` -/
  used : Nat → Bool
  file : Nat → Option KFile
  /-- what happened to files, newest first -/
  trace : List FileEvent

/-- `(s32)x`. -/
def s32 (x : Nat) : Int := if x % 2 ^ 32 < 2 ^ 31 then x % 2 ^ 32 else (x % 2 ^ 32 : Nat) - 2 ^ 32

abbrev stdinFile : Nat := 1
abbrev stdoutFile : Nat := 2
abbrev stderrFile : Nat := 3

def isStatic (a : Nat) : Bool := a = stdinFile || a = stdoutFile || a = stderrFile

def FdSys.start : FdSys where
  table := fun _ => ⟨fun _ => 0, fun _ => 0⟩
  used := fun _ => false
  file := fun a => if isStatic a then some ⟨1, 0⟩ else none
  trace := []

section Code

variable (s : FdSys) (p : Nat)

def FdSys.setSlot (i : Int) (f : Nat) : FdSys :=
  { s with table := update s.table p { s.table p with files := update (s.table p).files i f } }

def FdSys.setCloexec (i : Int) (v : Nat) : FdSys :=
  { s with table := update s.table p { s.table p with cloexec := update (s.table p).cloexec i v } }

theorem setSlot_files (i : Int) (f q : Nat) (j : Int) :
    ((s.setSlot p i f).table q).files j = if q = p ∧ j = i then f else (s.table q).files j := by
  by_cases hq : q = p
  · subst hq
    by_cases hj : j = i <;> simp [FdSys.setSlot, hj]
  · simp [FdSys.setSlot, hq]

theorem setCloexec_files (i : Int) (v q : Nat) :
    ((s.setCloexec p i v).table q).files = (s.table q).files := by
  by_cases hq : q = p
  · subst hq; simp [FdSys.setCloexec]
  · simp [FdSys.setCloexec, hq]

/-- A new file, as `kpz_kfs_open` and `kpz_sys_pipe` make it. -/
def FdSys.create (a flags : Nat) : FdSys :=
  { s with file := update s.file a (some ⟨1, flags⟩), trace := .created a :: s.trace }

def FdSys.incRef (a : Nat) : Option FdSys := do
  let f ← s.file a
  some { s with file := update s.file a (some { f with refcount := f.refcount + 1 }) }

/-- The first of `n` slots from `i` on that holds `NULL`. -/
def firstFree (files : Int → Nat) (i : Int) : (n : Nat) → Option Int
  | 0 => none
  | n + 1 => if files i = 0 then some i else firstFree files (i + 1) n

def kpzFdAlloc (file : Nat) : Int × FdSys :=
  match firstFree (s.table p).files 0 maxFd with
  | some i => (i, (s.setSlot p i file).setCloexec p i 0)
  | none => (kpzErr .mfile, s)

def kpzFdGet (fd : Int) : Option (Nat × FdSys) :=
  if fd < 0 ∨ fd ≥ maxFd then some (0, s)
  else if (s.table p).files fd = 0 then some (0, s)
  else do
    let s' ← s.incRef ((s.table p).files fd)
    some ((s.table p).files fd, s')

def kpzFdPut (a : Nat) : Option FdSys :=
  if a = 0 then some s
  else do
    let f ← s.file a
    if f.refcount - 1 = 0 then
      -- every table of operations of these files has a `close`
      if isStatic a then
        some { s with file := update s.file a (some { f with refcount := 0 }), trace := .closed a :: s.trace }
      else
        some { s with file := update s.file a none, trace := .freed a :: .closed a :: s.trace }
    else
      some { s with file := update s.file a (some { f with refcount := f.refcount - 1 }) }

def kpzFdClose (fd : Int) : Option (Int × FdSys) :=
  if fd < 0 ∨ fd ≥ maxFd then some (kpzErr .badf, s)
  else if (s.table p).files fd = 0 then some (kpzErr .badf, s)
  else do
    let s' ← kpzFdPut ((s.setSlot p fd 0).setCloexec p fd 0) ((s.table p).files fd)
    some (0, s')

def kpzFdDup (oldfd : Int) : Option (Int × FdSys) := do
  let (f, s) ← kpzFdGet s p oldfd
  if f = 0 then some (kpzErr .badf, s)
  else
    let (newfd, s) := kpzFdAlloc s p f
    if newfd < 0 then do
      let s ← kpzFdPut s f
      some (newfd, s)
    else some (newfd, s)

def kpzFdDup2 (oldfd newfd : Int) : Option (Int × FdSys) :=
  if newfd < 0 ∨ newfd ≥ maxFd then some (kpzErr .badf, s)
  else if oldfd = newfd then some (newfd, s)
  else do
    let (f, s) ← kpzFdGet s p oldfd
    if f = 0 then some (kpzErr .badf, s)
    else
      let old := (s.table p).files newfd
      let s := (s.setSlot p newfd f).setCloexec p newfd 0
      if old ≠ 0 then do
        let s ← kpzFdPut s old
        some (newfd, s)
      else some (newfd, s)

/-! The system calls, for the process `p`; `kpz_current` is `NULL` if it is not in use. -/

def oWronly : Nat := 0x1
def oRdwr : Nat := 0x2
def oCreat : Nat := 0x40
def oCloexec : Nat := 0x80000

/-- `sys_open`; `file` is what `kpz_kfs_open` returns. -/
def sysOpen (p path flags : Nat) (file : Option Nat) : Option (Int × FdSys) :=
  if path = 0 then some (kpzErr .fault, s)
  else if flags &&& (oWronly ||| oRdwr ||| oCreat) ≠ 0 then some (kpzErr .rofs, s)
  else
    match file with
    | none => some (kpzErr .noent, s)
    | some a =>
      let (fd, s) := kpzFdAlloc (s.create a flags) p a
      if fd < 0 then do
        let s ← kpzFdPut s a
        some (kpzErr .mfile, s)
      else if flags &&& oCloexec ≠ 0 then some (fd, s.setCloexec p fd 1)
      else some (fd, s)

inductive FcntlCmd where
  | dupfd | getfd | setfd | getfl | setfl | other
  deriving DecidableEq, Repr

def fcntlCmd (cmd : Int) : FcntlCmd :=
  if cmd = 0 then .dupfd
  else if cmd = 1 then .getfd
  else if cmd = 2 then .setfd
  else if cmd = 3 then .getfl
  else if cmd = 4 then .setfl
  else .other

/-- The `F_DUPFD` of `sys_fcntl`: the loop starts at `(s32)arg` and leaves `cloexec` as it is. -/
def fcntlDupfd (fd arg : Int) : Option (Int × FdSys) := do
  let (file, s) ← kpzFdGet s p fd
  if file = 0 then some (kpzErr .badf, s)
  else
    match firstFree (s.table p).files arg (maxFd - arg).toNat with
    | none => do
      let s ← kpzFdPut s file
      some (kpzErr .mfile, s)
    | some nfd =>
      let s := s.setSlot p nfd file
      if nfd < 0 then do
        let s ← kpzFdPut s file
        some (kpzErr .mfile, s)
      else some (nfd, s)

def fcntlGetfl (fd : Int) : Option (Int × FdSys) := do
  let (file, s) ← kpzFdGet s p fd
  if file = 0 then some (kpzErr .badf, s)
  else do
    let f ← s.file file
    let s ← kpzFdPut s file
    some (f.flags, s)

def FdSys.setFlags (a flags : Nat) : Option FdSys := do
  let f ← s.file a
  some { s with file := update s.file a (some { f with flags := flags }) }

def fcntlSetfl (fd : Int) (arg : Nat) : Option (Int × FdSys) := do
  let (file, s) ← kpzFdGet s p fd
  if file = 0 then some (kpzErr .badf, s)
  else do
    let s ← s.setFlags file (arg % 2 ^ 32)
    let s ← kpzFdPut s file
    some (0, s)

def sysFcntl (fd cmd : Int) (arg : Nat) : Option (Int × FdSys) :=
  if fd < 0 ∨ fd ≥ maxFd then some (kpzErr .badf, s)
  else
    match fcntlCmd cmd with
    | .dupfd => fcntlDupfd s p fd (s32 arg)
    | .getfd => some (if (s.table p).cloexec fd ≠ 0 then 1 else 0, s)
    | .setfd => some (0, s.setCloexec p fd (if arg &&& 1 ≠ 0 then 1 else 0))
    | .getfl => fcntlGetfl s p fd
    | .setfl => fcntlSetfl s p fd arg
    | .other => some (kpzErr .inval, s)

/-- The calls that name descriptors; register arguments are 64-bit words. -/
inductive FdCall where
  | openFile (path flags : Nat) (file : Option Nat)
  | dup (fd : Nat)
  | dup2 (oldfd newfd : Nat)
  | fcntl (fd cmd arg : Nat)
  | close (fd : Nat)

def FdCall.exec : FdCall → Option (Int × FdSys)
  | .openFile path flags file => sysOpen s p path (flags % 2 ^ 32) file
  | .dup fd => kpzFdDup s p (s32 fd)
  | .dup2 oldfd newfd => kpzFdDup2 s p (s32 oldfd) (s32 newfd)
  | .fcntl fd cmd arg => sysFcntl s p (s32 fd) (s32 cmd) arg
  | .close fd => kpzFdClose s p (s32 fd)

def userSpaceMax : Nat := 0x0000800000000000

/-- `kpz_check_ptr` finds no fault. -/
def checkPtr (p len : Nat) : Bool :=
  p ≠ 0 && len ≠ 0 && p < userSpaceMax && p ≤ (p + len) % 2 ^ 64 && (p + len) % 2 ^ 64 ≤ userSpaceMax

/-- `sys_read` and `sys_write`; `ret` is what the file's own operation returns. -/
def throughFile (fd : Int) (buf len : Nat) (ret : Int) : Option (Int × FdSys) :=
  if checkPtr buf len = false then some (kpzErr .fault, s)
  else do
    let (file, s) ← kpzFdGet s p fd
    if file = 0 then some (kpzErr .badf, s)
    else do
      let s ← kpzFdPut s file
      some (ret, s)

/-- `kpz_sys_pipe`; `pb`, `rf` and `wf` are what its three `kmalloc` return. -/
def kpzSysPipe (fds : Nat) (pb rf wf : Option Nat) : Option (Int × FdSys) :=
  if checkPtr fds 8 = false then some (kpzErr .fault, s)
  else
    match pb, rf, wf with
    | some _, some rf, some wf =>
      let s := (s.create rf 0).create wf oWronly
      let (rfd, s) := kpzFdAlloc s p rf
      let (wfd, s) := kpzFdAlloc s p wf
      if rfd < 0 ∨ wfd < 0 then do
        let s ← if rfd ≥ 0 then (kpzFdClose s p rfd).map (·.2) else kpzFdPut s rf
        let s ← kpzFdPut s wf
        some (kpzErr .mfile, s)
      else some (0, s)
    | _, _, _ => some (kpzErr .nomem, s)

/-- A round of the loop of `kpz_proc_free` over the descriptor table. -/
def dropSlot (p : Nat) (s : FdSys) (i : Nat) : Option FdSys :=
  if (s.table p).files i ≠ 0 then do
    let s' ← kpzFdPut s ((s.table p).files i)
    some (s'.setSlot p i 0)
  else some s

/-- `kpz_proc_free`, as far as files go. -/
def procFreeFds : Option FdSys := do
  let s ← (List.range maxFd).foldlM (dropSlot p) s
  some { s with used := update s.used p false }

/-- A new process: the table is zeroed and the static files are opened. -/
def openStd : Option FdSys := do
  let t : FdTable := ⟨fun i => if 0 ≤ i then 0 else (s.table p).files i, fun _ => 0⟩
  let s := { s with table := update s.table p t, used := update s.used p true }
  let s ← s.incRef stdinFile
  let s ← (s.setSlot p 0 stdinFile).incRef stdoutFile
  let s ← (s.setSlot p 1 stdoutFile).incRef stderrFile
  some (s.setSlot p 2 stderrFile)

inductive FdOp where
  | call (c : FdCall)
  | pipe (fds : Nat) (pb rf wf : Option Nat)
  | read (fd buf len : Nat) (ret : Int)
  | write (fd buf len : Nat) (ret : Int)
  | exit
  /-- the process is created -/
  | spawn
  /-- other code changes the memory before the array -/
  | below (w : Int → Nat)

def FdSys.setBelow (w : Int → Nat) : FdSys :=
  let t := s.table p
  { s with table := update s.table p ⟨fun i => if 0 ≤ i then t.files i else w i, t.cloexec⟩ }

/-- What the process `p` does. -/
def fdExec (op : FdOp) : Option (Int × FdSys) :=
  match op, s.used p with
  | .spawn, false => if 0 < p ∧ p < maxProcs then (openStd s p).map (0, ·) else some (0, s)
  | .spawn, true => some (0, s)
  | _, false => some (kpzErr .badf, s)
  | .call c, true => c.exec s p
  | .pipe fds pb rf wf, true => kpzSysPipe s p fds pb rf wf
  | .read fd buf len ret, true => throughFile s p (s32 fd) buf len ret
  | .write fd buf len ret, true => throughFile s p (s32 fd) buf len ret
  | .exit, true => (procFreeFds s p).map (0, ·)
  | .below w, true => some (0, s.setBelow p w)

/-- A step shows the return value; `none` if the code used a freed object. -/
def fdStep (i : Nat × FdOp) : Option Int × FdSys :=
  match fdExec s i.1 i.2 with
  | some (r, s') => (some r, s')
  | none => (none, s)

end Code

/-! ## 2. Reference counts, with the references a call holds in hand -/

/-- The slots of all descriptor tables. -/
@[irreducible] def slotSet : Finset (Nat × Nat) := Finset.range maxProcs ×ˢ Finset.range maxFd

theorem mem_slotSet {x : Nat × Nat} : x ∈ slotSet ↔ x.1 < maxProcs ∧ x.2 < maxFd := by
  unfold slotSet
  grind

def FdSys.slot (s : FdSys) (x : Nat × Nat) : Nat := (s.table x.1).files x.2

/-- The references to the file `a`: the slots that hold it, and those in the list `l`. -/
def FdSys.refsTo (s : FdSys) (l : List Nat) (a : Nat) : Nat := refs slotSet s.slot l a

/-- The flags of the files. -/
def FdSys.flagsOf (s : FdSys) (a : Nat) : Int :=
  match s.file a with
  | some f => f.flags
  | none => 0

/-- Where a heap object is in its life. -/
inductive Phase where
  | dead | live | closed
  deriving DecidableEq, Repr

/-- **The life of `a` along a trace** (newest first): made, then closed, then freed, each once, and
    then over again; `none` if something happened out of this order. -/
def phase (a : Nat) : List FileEvent → Option Phase
  | [] => some .dead
  | .created b :: t =>
    if b = a then (if phase a t = some .dead then some .live else none) else phase a t
  | .closed b :: t =>
    if b = a then (if phase a t = some .live then some .closed else none) else phase a t
  | .freed b :: t =>
    if b = a then (if phase a t = some .closed then some .dead else none) else phase a t

/-- **The files are counted**, with the references `l` in hand. The static files count one
    reference more than they have. -/
structure Counted (s : FdSys) (l : List Nat) : Prop where
  null : s.file 0 = none
  live : ∀ a, a ≠ 0 → 0 < s.refsTo l a → ∃ f, s.file a = some f
  count : ∀ a f, s.file a = some f → f.refcount = s.refsTo l a + (isStatic a).toNat
  held : ∀ a f, s.file a = some f → isStatic a = false → 0 < s.refsTo l a
  std : ∀ a, isStatic a = true → ∃ f, s.file a = some f
  lives : ∀ a, isStatic a = false → phase a s.trace = some (if (s.file a).isSome then .live else .dead)
  used_lt : ∀ p, s.used p = true → p < maxProcs
  unused : ∀ p, s.used p = false → ∀ i : Nat, i < maxFd → (s.table p).files i = 0

/-- What `kmalloc` may return: an address that is in no use. -/
def Fresh (s : FdSys) (a : Nat) : Prop := a ≠ 0 ∧ isStatic a = false ∧ s.file a = none

section Count

variable {s s' : FdSys} {l l' : List Nat} {a b p : Nat}

theorem refsTo_cons_of_ne (h : b ≠ a) : s.refsTo (b :: l) a = s.refsTo l a := refs_cons_of_ne h

theorem refsTo_cons_self : s.refsTo (a :: l) a = s.refsTo l a + 1 := refs_cons_self

theorem Counted.ne_null (h : Counted s l) {f : KFile} (hf : s.file a = some f) : a ≠ 0 := by
  rintro rfl
  rw [h.null] at hf
  cases hf

theorem counted_null_cons : Counted s (0 :: l) ↔ Counted s l := by
  have hr : ∀ a, a ≠ 0 → s.refsTo (0 :: l) a = s.refsTo l a := fun a ha => refsTo_cons_of_ne ha.symm
  constructor
  · intro h
    exact { h with
      live := fun a ha hp => h.live a ha (by rwa [hr a ha])
      count := fun a f hf => by rw [← hr a (h.ne_null hf)]; exact h.count a f hf
      held := fun a f hf hs => by rw [← hr a (h.ne_null hf)]; exact h.held a f hf hs }
  · intro h
    exact { h with
      live := fun a ha hp => h.live a ha (by rwa [← hr a ha])
      count := fun a f hf => by rw [hr a (h.ne_null hf)]; exact h.count a f hf
      held := fun a f hf hs => by rw [hr a (h.ne_null hf)]; exact h.held a f hf hs }

/-- The record of one file changes, and with it the references in hand to that file. -/
theorem Counted.adjust (h : Counted s l) {f f' : KFile} (hf : s.file a = some f)
    (hl : ∀ b, b ≠ a → s.refsTo l' b = s.refsTo l b) (hc : f'.refcount = s.refsTo l' a + (isStatic a).toNat)
    (hp : isStatic a = false → 0 < s.refsTo l' a) :
    Counted { s with file := update s.file a (some f') } l' := by
  have hsame : ∀ b, (update s.file a (some f') b).isSome = (s.file b).isSome := by
    intro b
    by_cases hb : b = a
    · subst hb; rw [update_self, hf]; rfl
    · rw [update_of_ne hb]
  refine ⟨?_, fun b hb hpos => ?_, fun b g hg => ?_, fun b g hg hs => ?_, fun b hb => ?_,
    fun b hb => ?_, h.used_lt, h.unused⟩
  · exact (update_of_ne (h.ne_null hf).symm _ _).trans h.null
  · rw [← isSome_iff_exists]
    change (update s.file a (some f') b).isSome = true
    rw [hsame b, isSome_iff_exists]
    by_cases hba : b = a
    · exact ⟨f, by rw [hba, hf]⟩
    · exact h.live b hb ((hl b hba) ▸ hpos)
  · change update s.file a (some f') b = some g at hg
    change g.refcount = s.refsTo l' b + _
    by_cases hba : b = a
    · grind
    grind [h.count]
  · change update s.file a (some f') b = some g at hg
    change 0 < s.refsTo l' b
    by_cases hba : b = a
    · subst hba; exact hp hs
    · rw [update_of_ne hba] at hg
      rw [hl b hba]
      exact h.held b g hg hs
  · grind [h.std]
  grind [h.lives]

theorem Counted.incRef (h : Counted s l) {f : KFile} (hf : s.file a = some f) :
    ∃ s', s.incRef a = some s' ∧ s'.table = s.table ∧ s'.used = s.used ∧ s'.flagsOf = s.flagsOf ∧
      Counted s' (a :: l) := by
  refine ⟨{ s with file := update s.file a (some { f with refcount := f.refcount + 1 }) },
    by simp [FdSys.incRef, hf], rfl, rfl, funext fun b => ?_, h.adjust hf (fun b hb => refsTo_cons_of_ne hb.symm) ?_ fun _ => ?_⟩
  · grind [FdSys.flagsOf]
  · grind [refsTo_cons_self, h.count]
  · rw [refsTo_cons_self]
    exact Nat.succ_pos _

/-- **Dropping a reference**: the file is closed and freed if it was the last one. -/
theorem Counted.put (h : Counted s (a :: l)) :
    ∃ s', kpzFdPut s a = some s' ∧ s'.table = s.table ∧ s'.used = s.used ∧ Counted s' l := by
  by_cases ha : a = 0
  · subst ha
    exact ⟨s, by simp [kpzFdPut], rfl, rfl, counted_null_cons.mp h⟩
  obtain ⟨f, hf⟩ := h.live a ha (by rw [refsTo_cons_self]; omega)
  have hc := h.count a f hf
  rw [refsTo_cons_self] at hc
  have hoth : ∀ b, b ≠ a → s.refsTo l b = s.refsTo (a :: l) b := fun b hb => (refsTo_cons_of_ne hb.symm).symm
  by_cases h1 : f.refcount - 1 = 0
  · -- the last reference: a static file has one more
    have hst : isStatic a = false := by
      cases hs : isStatic a
      · rfl
      · grind
    have h0 : s.refsTo l a = 0 := by
      rw [hst] at hc; push_cast [Bool.toNat_false] at hc; omega
    refine ⟨{ s with file := update s.file a none, trace := .freed a :: .closed a :: s.trace },
      by simp [kpzFdPut, ha, hf, h1, hst], rfl, rfl, ?_, fun b hb hpos => ?_, fun b g hg => ?_,
      fun b g hg hs => ?_, fun b hb => ?_, fun b hb => ?_, h.used_lt, h.unused⟩
    · exact (update_of_ne (Ne.symm ha) _ _).trans h.null
    · change 0 < s.refsTo l b at hpos
      grind [h.live]
    · change update s.file a none b = some g at hg
      have hba : b ≠ a := by rintro rfl; rw [update_self] at hg; cases hg
      rw [update_of_ne hba] at hg
      change g.refcount = s.refsTo l b + _
      rw [hoth b hba]
      exact h.count b g hg
    · change update s.file a none b = some g at hg
      have hba : b ≠ a := by rintro rfl; rw [update_self] at hg; cases hg
      rw [update_of_ne hba] at hg
      change 0 < s.refsTo l b
      rw [hoth b hba]
      exact h.held b g hg hs
    · grind [h.std]
    · change phase b (.freed a :: .closed a :: s.trace) =
        some (if (update s.file a none b).isSome then .live else .dead)
      by_cases hba : b = a
      · grind [h.lives, phase]
      · rw [update_of_ne hba]
        simpa [phase, Ne.symm hba] using h.lives b hb
  · refine ⟨{ s with file := update s.file a (some { f with refcount := f.refcount - 1 }) },
      by simp [kpzFdPut, ha, hf, h1], rfl, rfl, h.adjust hf hoth ?_ fun hs => ?_⟩
    · grind
    grind

/-- **Storing a reference** in a slot: the reference it held is in hand afterwards. -/
theorem Counted.setSlot (h : Counted s (b :: l)) (hu : s.used p = true) {i : Nat} (hi : i < maxFd) :
    Counted (s.setSlot p i b) ((s.table p).files i :: l) := by
  have hx : (p, i) ∈ slotSet := by
    rw [mem_slotSet]
    exact ⟨h.used_lt p hu, hi⟩
  have hslot : (s.setSlot p i b).slot = update s.slot (p, i) b := by
    funext ⟨q, j⟩
    simp only [FdSys.slot, setSlot_files, update_apply, Prod.mk.injEq, Int.natCast_inj]
  have hr : ∀ a, (s.setSlot p i b).refsTo ((s.table p).files i :: l) a = s.refsTo (b :: l) a := by
    intro a
    have he : (s.table p).files i = s.slot (p, i) := rfl
    rw [FdSys.refsTo, FdSys.refsTo, hslot, he, refs_store hx]
  exact ⟨h.null, fun a ha hp => h.live a ha (by rwa [← hr a]),
    fun a f hf => by rw [hr a]; exact h.count a f hf,
    fun a f hf hs => by rw [hr a]; exact h.held a f hf hs, h.std, h.lives, h.used_lt, fun q hq j hj => by
      have hqp : q ≠ p := by rintro rfl; rw [show s.used q = false from hq] at hu; cases hu
      rw [setSlot_files, if_neg fun h => hqp h.1]
      exact h.unused q hq j hj⟩

theorem Counted.of_slots (h : Counted s l) (hf : s'.file = s.file) (ht : s'.trace = s.trace)
    (hs : ∀ q < maxProcs, ∀ i : Nat, i < maxFd → (s'.table q).files i = (s.table q).files i)
    (hul : ∀ q, s'.used q = true → q < maxProcs)
    (hun : ∀ q, s'.used q = false → ∀ i : Nat, i < maxFd → (s'.table q).files i = 0) : Counted s' l := by
  have hr : ∀ a, s'.refsTo l a = s.refsTo l a := by
    intro a
    refine refs_congr fun x hx => ?_
    rw [mem_slotSet] at hx
    exact hs x.1 hx.1 x.2 hx.2
  refine ⟨by rw [hf]; exact h.null, fun a ha hp => ?_, fun a f hf' => ?_, fun a f hf' hst => ?_,
    by rw [hf]; exact h.std, by rw [hf, ht]; exact h.lives, hul, hun⟩
  · rw [hf]; exact h.live a ha (by rwa [← hr a])
  · grind [h.count]
  · rw [hf] at hf'; rw [hr a]; exact h.held a f hf' hst

/-- The counts do not depend on the flags or on the memory before the tables. -/
theorem Counted.of_files (h : Counted s l) (hu : s'.used = s.used) (hf : s'.file = s.file)
    (ht : s'.trace = s.trace) (hs : ∀ q i, 0 ≤ i → (s'.table q).files i = (s.table q).files i) : Counted s' l :=
  h.of_slots hf ht (fun q _ i _ => hs q i (Int.natCast_nonneg i)) (by rw [hu]; exact h.used_lt)
    fun q hq i hi => by grind [h.unused]

theorem Counted.setCloexec (h : Counted s l) (p : Nat) (i : Int) (v : Nat) : Counted (s.setCloexec p i v) l :=
  h.of_files rfl rfl rfl fun q j _ => by rw [setCloexec_files]

theorem Counted.create (h : Counted s l) (ha : Fresh s a) (flags : Nat) :
    Counted (s.create a flags) (a :: l) := by
  obtain ⟨h0, hst, hnone⟩ := ha
  have hz : s.refsTo l a = 0 := by
    by_contra hne
    obtain ⟨f, hf⟩ := h.live a h0 (Nat.pos_of_ne_zero hne)
    rw [hnone] at hf
    cases hf
  have hoth : ∀ b, b ≠ a → s.refsTo (a :: l) b = s.refsTo l b := fun b hb => refsTo_cons_of_ne hb.symm
  refine ⟨(update_of_ne (Ne.symm h0) _ _).trans h.null, fun b hb hpos => ?_, fun b g hg => ?_,
    fun b g hg hs => ?_, fun b hb => ?_, fun b hb => ?_, h.used_lt, h.unused⟩
  · change 0 < s.refsTo (a :: l) b at hpos
    change ∃ g, update s.file a (some ⟨1, flags⟩) b = some g
    by_cases hba : b = a
    · subst hba; exact ⟨_, update_self ..⟩
    grind [h.live]
  · change update s.file a (some ⟨1, flags⟩) b = some g at hg
    change g.refcount = s.refsTo (a :: l) b + _
    by_cases hba : b = a
    · grind [refsTo_cons_self]
    grind [h.count]
  · change update s.file a (some ⟨1, flags⟩) b = some g at hg
    change 0 < s.refsTo (a :: l) b
    by_cases hba : b = a
    · subst hba; rw [refsTo_cons_self]; exact Nat.succ_pos _
    · rw [update_of_ne hba] at hg
      rw [hoth b hba]
      exact h.held b g hg hs
  · change ∃ g, update s.file a (some ⟨1, flags⟩) b = some g
    grind [h.std]
  · change phase b (.created a :: s.trace) =
      some (if (update s.file a (some ⟨1, flags⟩) b).isSome then .live else .dead)
    have hl := h.lives b hb
    by_cases hba : b = a
    · grind [phase]
    · rw [update_of_ne hba]
      simpa [phase, Ne.symm hba] using hl

end Count

/-! ## 3. The calls on one table, without the files

  What a call answers and what it leaves of the descriptor table depends on the table alone (and on
  the flags `fl` of the files). The code does this and keeps the counts. -/

/-- The file a descriptor names; 0 if it is closed or no descriptor. -/
def FdTable.file (t : FdTable) (fd : Int) : Nat := if fd < 0 ∨ fd ≥ maxFd then 0 else t.files fd

def FdTable.set (t : FdTable) (i : Int) (f c : Nat) : FdTable :=
  ⟨update t.files i f, update t.cloexec i c⟩

def FdTable.fcntl (fl : Nat → Int) (t : FdTable) (fd cmd : Int) (arg : Nat) : Int × FdTable :=
  if fd < 0 ∨ fd ≥ maxFd then (kpzErr .badf, t)
  else
    match fcntlCmd cmd with
    | .dupfd =>
      if t.files fd = 0 then (kpzErr .badf, t)
      else
        match firstFree t.files (s32 arg) (maxFd - s32 arg).toNat with
        | none => (kpzErr .mfile, t)
        | some i => (if i < 0 then kpzErr .mfile else i, t.set i (t.files fd) (t.cloexec i))
    | .getfd => (if t.cloexec fd ≠ 0 then 1 else 0, t)
    | .setfd => (0, t.set fd (t.files fd) (if arg &&& 1 ≠ 0 then 1 else 0))
    | .getfl => (if t.files fd = 0 then kpzErr .badf else fl (t.files fd), t)
    | .setfl => (if t.files fd = 0 then kpzErr .badf else 0, t)
    | .other => (kpzErr .inval, t)

def FdTable.call (fl : Nat → Int) (t : FdTable) : FdCall → Int × FdTable
  | .openFile path flags file =>
    if path = 0 then (kpzErr .fault, t)
    else if flags % 2 ^ 32 &&& (oWronly ||| oRdwr ||| oCreat) ≠ 0 then (kpzErr .rofs, t)
    else
      match file, firstFree t.files 0 maxFd with
      | none, _ => (kpzErr .noent, t)
      | some _, none => (kpzErr .mfile, t)
      | some a, some i => (i, t.set i a (if flags % 2 ^ 32 &&& oCloexec ≠ 0 then 1 else 0))
  | .dup fd =>
    match firstFree t.files 0 maxFd with
    | none => (if t.file (s32 fd) = 0 then kpzErr .badf else kpzErr .mfile, t)
    | some i => if t.file (s32 fd) = 0 then (kpzErr .badf, t) else (i, t.set i (t.file (s32 fd)) 0)
  | .dup2 oldfd newfd =>
    if s32 newfd < 0 ∨ s32 newfd ≥ maxFd then (kpzErr .badf, t)
    else if s32 oldfd = s32 newfd then (s32 newfd, t)
    else if t.file (s32 oldfd) = 0 then (kpzErr .badf, t)
    else (s32 newfd, t.set (s32 newfd) (t.file (s32 oldfd)) 0)
  | .fcntl fd cmd arg => t.fcntl fl (s32 fd) (s32 cmd) arg
  | .close fd => if t.file (s32 fd) = 0 then (kpzErr .badf, t) else (0, t.set (s32 fd) 0 0)

/-- The file a call makes is at an address that is in no use. -/
def FdCall.Fresh (s : FdSys) : FdCall → Prop
  | .openFile _ _ (some a) => Kapi.Fresh s a
  | _ => True

theorem firstFree_some {files : Int → Nat} {n : Nat} : ∀ {i j : Int}, firstFree files i n = some j →
    i ≤ j ∧ j < i + n ∧ files j = 0 ∧ ∀ k, i ≤ k → k < j → files k ≠ 0 := by
  induction n with
  | zero => exact fun h => nomatch h
  | succ n ih =>
    intro i j h
    rw [firstFree] at h
    split at h
    · grind
    · rename_i h0
      obtain ⟨h1, h2, h3, h4⟩ := ih h
      grind

theorem firstFree_none {files : Int → Nat} {n : Nat} : ∀ {i : Int}, firstFree files i n = none →
    ∀ k, i ≤ k → k < i + n → files k ≠ 0 := by
  induction n with
  | zero => exact fun _ k h1 h2 => absurd h1 (by omega)
  | succ n ih =>
    intro i h k h1 h2
    rw [firstFree] at h
    split at h
    · cases h
    · rename_i h0
      rcases eq_or_lt_of_le h1 with rfl | hlt
      · exact h0
      · exact ih h k (by omega) (by omega)

section Calls

variable {s : FdSys} {l : List Nat} {p f : Nat} {fd : Int}

theorem table_set (s : FdSys) (p : Nat) (i : Int) (f c : Nat) :
    ((s.setSlot p i f).setCloexec p i c).table = update s.table p ((s.table p).set i f c) := by
  simp [FdSys.setSlot, FdSys.setCloexec, FdTable.set]

theorem table_setSlot (s : FdSys) (p : Nat) (i : Int) (f : Nat) :
    (s.setSlot p i f).table = update s.table p ((s.table p).set i f ((s.table p).cloexec i)) := by
  simp [FdSys.setSlot, FdTable.set]

theorem table_setCloexec (s : FdSys) (p : Nat) (i : Int) (c : Nat) :
    (s.setCloexec p i c).table = update s.table p ((s.table p).set i ((s.table p).files i) c) := by
  simp [FdSys.setCloexec, FdTable.set]

theorem Counted.used_of_file (h : Counted s l) (hf : (s.table p).file fd ≠ 0) :
    s.used p = true ∧ ∃ i : Nat, i < maxFd ∧ fd = i ∧ (s.table p).file fd = (s.table p).files i := by
  unfold FdTable.file at hf ⊢
  split at hf
  · exact absurd rfl hf
  · rename_i hr
    obtain ⟨i, rfl⟩ : ∃ i : Nat, fd = i := ⟨fd.toNat, by omega⟩
    refine ⟨?_, i, by omega, rfl, if_neg hr⟩
    grind [h.unused]

theorem Counted.get (h : Counted s l) (p : Nat) (fd : Int) : ∃ s', kpzFdGet s p fd = some ((s.table p).file fd, s') ∧
    s'.table = s.table ∧ s'.used = s.used ∧ s'.flagsOf = s.flagsOf ∧ Counted s' ((s.table p).file fd :: l) := by
  by_cases h0 : (s.table p).file fd = 0
  · refine ⟨s, ?_, rfl, rfl, rfl, by rw [h0]; exact counted_null_cons.mpr h⟩
    rw [h0]
    unfold kpzFdGet
    unfold FdTable.file at h0
    grind
  · obtain ⟨hu, i, hi, rfl, he⟩ := h.used_of_file h0
    rw [he] at h0 ⊢
    have hx : (p, i) ∈ slotSet := by
      rw [mem_slotSet]
      exact ⟨h.used_lt p hu, hi⟩
    obtain ⟨g, hg⟩ := h.live _ h0 (refs_pos hx rfl)
    obtain ⟨s', hs', ht, hu', hfl, hc⟩ := h.incRef hg
    refine ⟨s', ?_, ht, hu', hfl, hc⟩
    rw [kpzFdGet, if_neg (by omega), if_neg h0, hs']
    rfl

theorem Counted.alloc (h : Counted s (f :: l)) (hu : s.used p = true) :
    (firstFree (s.table p).files 0 maxFd = none ∧ kpzFdAlloc s p f = (kpzErr .mfile, s)) ∨
    ∃ (i : Nat) (s' : FdSys), i < maxFd ∧ firstFree (s.table p).files 0 maxFd = some (i : Int) ∧
      kpzFdAlloc s p f = ((i : Int), s') ∧ s'.table = update s.table p ((s.table p).set i f 0) ∧
      s'.used = s.used ∧ Counted s' l := by
  cases hff : firstFree (s.table p).files 0 maxFd with
  | none => exact .inl ⟨rfl, by rw [kpzFdAlloc, hff]⟩
  | some j =>
    obtain ⟨h1, h2, h3, -⟩ := firstFree_some hff
    obtain ⟨i, rfl⟩ : ∃ i : Nat, j = i := ⟨j.toNat, by omega⟩
    have hi : i < maxFd := by omega
    refine .inr ⟨i, (s.setSlot p i f).setCloexec p i 0, hi, rfl, by rw [kpzFdAlloc, hff], table_set .., rfl, ?_⟩
    have hc := h.setSlot hu hi
    rw [h3] at hc
    exact (counted_null_cons.mp hc).setCloexec p i 0

/-- **A call does to the table of `p` what `x` says** and leaves every file counted. -/
def Keeps (s : FdSys) (p : Nat) (x : Int × FdTable) (o : Option (Int × FdSys)) : Prop :=
  ∃ s', o = some (x.1, s') ∧ s'.table = update s.table p x.2 ∧ s'.used = s.used ∧ Counted s' []

theorem Keeps.same (h : Counted s []) (r : Int) : Keeps s p (r, s.table p) (some (r, s)) :=
  ⟨s, rfl, by rw [update_eq_self], rfl, h⟩

theorem Keeps.put {s1 : FdSys} {t : FdTable} {r : Int} (hc : Counted s1 [f])
    (ht : s1.table = update s.table p t) (hu : s1.used = s.used) :
    Keeps s p (r, t) (do let s' ← kpzFdPut s1 f; some (r, s')) := by
  obtain ⟨s2, hp, ht2, hu2, hc2⟩ := hc.put
  exact ⟨s2, by rw [hp]; rfl, ht2.trans ht, hu2.trans hu, hc2⟩

theorem Keeps.get (h : Counted s []) {x : Int × FdTable} {r : Nat × FdSys → Option (Int × FdSys)}
    (hx : (s.table p).file fd = 0 → x = (kpzErr .badf, s.table p))
    (hr : ∀ s1, s1.table = s.table → s1.used = s.used → s1.flagsOf = s.flagsOf → (s.table p).file fd ≠ 0 →
      Counted s1 [(s.table p).file fd] → Keeps s p x (r ((s.table p).file fd, s1))) :
    Keeps s p x (kpzFdGet s p fd >>= fun y => if y.1 = 0 then some (kpzErr .badf, y.2) else r y) := by
  obtain ⟨s1, hg, ht, hu1, hfl, hc⟩ := h.get p fd
  simp only [hg, bind_eq_bind, bind_some]
  by_cases h0 : (s.table p).file fd = 0
  · rw [if_pos h0, hx h0]
    rw [h0] at hc
    exact ⟨s1, rfl, by rw [ht, update_eq_self], hu1, counted_null_cons.mp hc⟩
  · rw [if_neg h0]
    exact hr s1 ht hu1 hfl h0 hc

variable (h : Counted s []) (hu : s.used p = true)

include h

section Used

include hu

theorem kpzFdDup_keeps (fl : Nat → Int) (fd : Nat) :
    Keeps s p ((s.table p).call fl (.dup fd)) (kpzFdDup s p (s32 fd)) := by
  refine Keeps.get h (fun h0 => ?_) fun s1 ht hu1 _ h0 hc => ?_
  · simp only [FdTable.call, h0, if_true]
    split <;> rfl
  rcases hc.alloc (hu1 ▸ hu : s1.used p = true) with ⟨hff, ha⟩ | ⟨i, s2, -, hff, ha, ht2, hu2, hc2⟩
  · rw [ht] at hff
    simp only [ha, kpzErr_neg, if_true, FdTable.call, hff, h0, if_false]
    exact .put hc (by rw [ht, update_eq_self]) hu1
  · rw [ht] at hff
    simp only [ha, FdTable.call, hff, h0, if_false, if_neg (show ¬ (i : Int) < 0 by omega)]
    exact ⟨s2, rfl, by rw [ht2, ht], hu2.trans hu1, hc2⟩

theorem kpzFdDup2_keeps (fl : Nat → Int) (oldfd newfd : Nat) :
    Keeps s p ((s.table p).call fl (.dup2 oldfd newfd)) (kpzFdDup2 s p (s32 oldfd) (s32 newfd)) := by
  unfold kpzFdDup2
  rw [FdTable.call]
  split
  · exact .same h _
  rename_i hr
  split
  · exact .same h _
  refine Keeps.get h (fun h0 => if_pos h0) fun s1 ht hu1 _ h0 hc => ?_
  rw [if_neg h0]
  obtain ⟨i, hi⟩ : ∃ i : Nat, s32 newfd = i := ⟨(s32 newfd).toNat, by omega⟩
  rw [hi] at hr ⊢
  have hc2 := (hc.setSlot (hu1 ▸ hu : s1.used p = true) (show i < maxFd by omega)).setCloexec p i 0
  by_cases ho : (s1.table p).files i = 0
  · rw [if_neg (not_not.mpr ho)]
    rw [ho] at hc2
    exact ⟨_, rfl, by rw [table_set, ht], hu1, counted_null_cons.mp hc2⟩
  · rw [if_pos ho]
    exact .put hc2 (by rw [table_set, ht]) hu1

omit h in
theorem Counted.close (h : Counted s l) (fd : Int) : ∃ s',
    kpzFdClose s p fd = some (if (s.table p).file fd = 0 then kpzErr .badf else 0, s') ∧
    s'.table = update s.table p (if (s.table p).file fd = 0 then s.table p else (s.table p).set fd 0 0) ∧
    s'.used = s.used ∧ Counted s' l := by
  simp only [kpzFdClose, FdTable.file]
  split
  · exact ⟨s, rfl, by simp, rfl, h⟩
  rename_i hr
  split
  · exact ⟨s, rfl, by simp, rfl, h⟩
  obtain ⟨i, rfl⟩ : ∃ i : Nat, fd = i := ⟨fd.toNat, by omega⟩
  have hc := (Counted.setSlot (counted_null_cons.mpr h) hu (show i < maxFd by omega)).setCloexec p i 0
  obtain ⟨s', hp, ht, hu', hc'⟩ := hc.put
  exact ⟨s', by rw [hp]; rfl, ht.trans (table_set ..), hu', hc'⟩

theorem kpzFdClose_keeps (fl : Nat → Int) (fd : Nat) :
    Keeps s p ((s.table p).call fl (.close fd)) (kpzFdClose s p (s32 fd)) := by
  obtain ⟨s', he, ht, hu', hc⟩ := h.close hu (s32 fd)
  refine ⟨s', ?_, ?_, hu', hc⟩
  · rw [he, FdTable.call]
    split <;> rfl
  · rw [ht, FdTable.call]
    split <;> rfl

theorem sysOpen_keeps (fl : Nat → Int) (path flags : Nat)
    (file : Option Nat) (hfr : FdCall.Fresh s (.openFile path flags file)) :
    Keeps s p ((s.table p).call fl (.openFile path flags file)) (sysOpen s p path (flags % 2 ^ 32) file) := by
  simp only [sysOpen, FdTable.call]
  split
  · exact .same h _
  split
  · exact .same h _
  cases file with
  | none => exact .same h _
  | some a =>
    have hc := h.create hfr (flags % 2 ^ 32)
    rcases hc.alloc hu with ⟨hff, ha⟩ | ⟨i, s2, -, hff, ha, ht2, hu2, hc2⟩
    · replace hff : firstFree (s.table p).files 0 maxFd = none := hff
      simp only [ha, hff, kpzErr_neg, if_true]
      exact .put hc (by rw [update_eq_self]; rfl) rfl
    · replace hff : firstFree (s.table p).files 0 maxFd = some (i : Int) := hff
      replace ht2 : s2.table = update s.table p ((s.table p).set i a 0) := ht2
      simp only [ha, hff, if_neg (show ¬ (i : Int) < 0 by omega)]
      split
      · refine ⟨_, rfl, ?_, hu2, hc2.setCloexec p i 1⟩
        rw [table_setCloexec, ht2]
        simp [FdTable.set]
      · exact ⟨s2, rfl, ht2, hu2, hc2⟩

theorem fcntlDupfd_keeps (arg : Int) (hr : ¬ (fd < 0 ∨ fd ≥ maxFd)) : Keeps s p
      (if (s.table p).files fd = 0 then (kpzErr .badf, s.table p)
       else match firstFree (s.table p).files arg (maxFd - arg).toNat with
        | none => (kpzErr .mfile, s.table p)
        | some i => (if i < 0 then kpzErr .mfile else i,
            (s.table p).set i ((s.table p).files fd) ((s.table p).cloexec i)))
      (fcntlDupfd s p fd arg) := by
  have hfile : (s.table p).file fd = (s.table p).files fd := if_neg hr
  refine Keeps.get h (fun h0 => if_pos (hfile ▸ h0)) fun s1 ht hu1 _ h0 hc => ?_
  rw [hfile] at h0 hc ⊢
  rw [if_neg h0, ht]
  cases hff : firstFree (s.table p).files arg (maxFd - arg).toNat with
  | none => exact .put hc (by rw [ht, update_eq_self]) hu1
  | some j =>
    obtain ⟨h1, h2, h3, -⟩ := firstFree_some hff
    have htab : (s1.setSlot p j ((s.table p).files fd)).table =
        update s.table p ((s.table p).set j ((s.table p).files fd) ((s.table p).cloexec j)) := by
      rw [table_setSlot, ht]
    by_cases hj : j < 0
    · -- a word before the array: no slot holds the file, and the reference is dropped again
      simp only [if_pos hj]
      refine .put (hc.of_files rfl rfl rfl fun q i hi => ?_) htab hu1
      rw [setSlot_files, if_neg (by omega)]
    · obtain ⟨i, rfl⟩ : ∃ i : Nat, j = i := ⟨j.toNat, by omega⟩
      simp only [if_neg hj]
      have hc2 := hc.setSlot (hu1 ▸ hu : s1.used p = true) (show i < maxFd by omega)
      rw [ht, h3] at hc2
      exact ⟨_, rfl, htab, hu1, counted_null_cons.mp hc2⟩

end Used

theorem fcntlGetfl_keeps (hr : ¬ (fd < 0 ∨ fd ≥ maxFd)) :
    Keeps s p (if (s.table p).files fd = 0 then kpzErr .badf else s.flagsOf ((s.table p).files fd), s.table p)
      (fcntlGetfl s p fd) := by
  have hfile : (s.table p).file fd = (s.table p).files fd := if_neg hr
  refine Keeps.get h (fun h0 => by rw [if_pos (hfile ▸ h0)]) fun s1 ht hu1 hfl h0 hc => ?_
  rw [hfile] at h0 hc ⊢
  rw [if_neg h0]
  obtain ⟨f, hf⟩ := hc.live _ h0 (by rw [refsTo_cons_self]; omega)
  have hflags : s.flagsOf ((s.table p).files fd) = f.flags := by
    rw [← hfl, FdSys.flagsOf, hf]
  rw [hflags]
  simp only [hf]
  exact .put hc (by rw [ht, update_eq_self]) hu1

theorem fcntlSetfl_keeps (arg : Nat) (hr : ¬ (fd < 0 ∨ fd ≥ maxFd)) :
    Keeps s p (if (s.table p).files fd = 0 then kpzErr .badf else 0, s.table p) (fcntlSetfl s p fd arg) := by
  have hfile : (s.table p).file fd = (s.table p).files fd := if_neg hr
  refine Keeps.get h (fun h0 => by rw [if_pos (hfile ▸ h0)]) fun s1 ht hu1 _ h0 hc => ?_
  rw [hfile] at h0 hc ⊢
  rw [if_neg h0]
  obtain ⟨f, hf⟩ := hc.live _ h0 (by rw [refsTo_cons_self]; omega)
  simp only [FdSys.setFlags, hf, bind_eq_bind, bind_some]
  refine .put (hc.adjust hf (fun _ _ => rfl) (hc.count _ f hf) (hc.held _ f hf)) ?_ hu1
  rw [update_eq_self]
  exact ht

include hu

theorem sysFcntl_keeps (fd cmd arg : Nat) :
    Keeps s p ((s.table p).call s.flagsOf (.fcntl fd cmd arg)) (sysFcntl s p (s32 fd) (s32 cmd) arg) := by
  simp only [FdTable.call, FdTable.fcntl, sysFcntl]
  split
  · exact .same h _
  rename_i hr
  cases fcntlCmd (s32 cmd) with
  | dupfd => exact fcntlDupfd_keeps h hu _ hr
  | getfd => exact .same h _
  | setfd => exact ⟨_, rfl, table_setCloexec .., rfl, h.setCloexec ..⟩
  | getfl => exact fcntlGetfl_keeps h hr
  | setfl => exact fcntlSetfl_keeps h arg hr
  | other => exact .same h _

/-- **Every call on a descriptor table** does what it does to the table alone, and leaves every file
    counted. -/
theorem FdCall.exec_keeps (c : FdCall) (hfr : c.Fresh s) :
    Keeps s p ((s.table p).call s.flagsOf c) (c.exec s p) := by
  cases c with
  | openFile path flags file => exact sysOpen_keeps h hu _ path flags file hfr
  | dup fd => exact kpzFdDup_keeps h hu _ fd
  | dup2 oldfd newfd => exact kpzFdDup2_keeps h hu _ oldfd newfd
  | fcntl fd cmd arg => exact sysFcntl_keeps h hu fd cmd arg
  | close fd => exact kpzFdClose_keeps h hu _ fd

end Calls

/-! ## 4. The calls that use several references -/

section More

variable {s : FdSys} {l : List Nat} {p : Nat}

theorem throughFile_counted (h : Counted s []) (p : Nat) (fd : Int) (buf len : Nat) (ret : Int) :
    ∃ r s', throughFile s p fd buf len ret = some (r, s') ∧ Counted s' [] := by
  unfold throughFile
  split
  · exact ⟨_, s, rfl, h⟩
  obtain ⟨s1, hg, -, -, -, hc⟩ := h.get p fd
  simp only [hg, bind_eq_bind, bind_some]
  by_cases h0 : (s.table p).file fd = 0
  · rw [h0] at hc
    exact ⟨_, s1, by rw [if_pos h0], counted_null_cons.mp hc⟩
  · obtain ⟨s2, hp, -, -, hc2⟩ := hc.put
    exact ⟨ret, s2, by rw [if_neg h0, hp]; rfl, hc2⟩

theorem Counted.swap {a b : Nat} (h : Counted s (a :: b :: l)) : Counted s (b :: a :: l) := by
  have hr : ∀ c, s.refsTo (b :: a :: l) c = s.refsTo (a :: b :: l) c := by
    intro c
    unfold FdSys.refsTo
    rw [refs_cons, refs_cons, refs_cons, refs_cons]
    omega
  exact { h with
    live := fun c hc hp => h.live c hc (by rwa [← hr c])
    count := fun c f hf => by rw [hr c]; exact h.count c f hf
    held := fun c f hf hs => by rw [hr c]; exact h.held c f hf hs }

section

variable (h : Counted s []) (hu : s.used p = true)
include h hu

theorem kpzSysPipe_counted (fds : Nat) (pb rf wf : Option Nat)
    (hrf : ∀ a, rf = some a → Fresh s a) (hwf : ∀ a, wf = some a → Fresh s a ∧ rf ≠ some a) :
    ∃ r s', kpzSysPipe s p fds pb rf wf = some (r, s') ∧ Counted s' [] := by
  unfold kpzSysPipe
  split
  · exact ⟨_, s, rfl, h⟩
  split
  · rename_i _ rf wf
    obtain ⟨hw, hne⟩ := hwf wf rfl
    have hne : wf ≠ rf := fun e => hne (by rw [e])
    have hc1 := h.create (hrf rf rfl) 0
    have hc2 := (hc1.create ⟨hw.1, hw.2.1, (update_of_ne hne _ _).trans hw.2.2⟩ oWronly).swap
    simp only
    rcases hc2.alloc hu with ⟨hff, ha⟩ | ⟨i, s2, hi, hff, ha, ht2, hu2, hc3⟩
    · -- no slot for the read end, so none for the write end
      have hb : kpzFdAlloc ((s.create rf 0).create wf oWronly) p wf =
          (kpzErr .mfile, (s.create rf 0).create wf oWronly) := by rw [kpzFdAlloc, hff]
      obtain ⟨s3, hp3, -, -, hc3⟩ := hc2.put
      obtain ⟨s4, hp4, -, -, hc4⟩ := hc3.put
      refine ⟨kpzErr .mfile, s4, ?_, hc4⟩
      have hn : ¬ kpzErr .mfile ≥ 0 := not_le.mpr (kpzErr_neg _)
      grind
    · have hu2' : s2.used p = true := by rw [hu2]; exact hu
      rcases hc3.alloc hu2' with ⟨-, hb⟩ | ⟨j, s3, -, -, hb, -, -, hc4⟩
      · obtain ⟨s3, hp3, -, -, hc4⟩ := hc3.close hu2' i
        obtain ⟨s4, hp4, -, -, hc5⟩ := hc4.put
        refine ⟨kpzErr .mfile, s4, ?_, hc5⟩
        have hn : (i : Int) ≥ 0 := Int.natCast_nonneg i
        simp only [ha, hb, kpzErr_neg, or_true, if_true, if_pos hn, hp3, hp4, map_some, bind_eq_bind, bind_some]
      grind
  · exact ⟨_, s, rfl, h⟩

omit h hu in
theorem kpzFdPut_setSlot (s : FdSys) (p : Nat) (i : Int) (f a : Nat) :
    kpzFdPut (s.setSlot p i f) a = (kpzFdPut s a).map (·.setSlot p i f) := by
  unfold kpzFdPut
  by_cases ha : a = 0
  · rw [if_pos ha, if_pos ha]; rfl
  rw [if_neg ha, if_neg ha]
  change (s.file a >>= _) = _
  cases s.file a with
  | none => rfl
  | some g =>
    simp only [bind_eq_bind, bind_some]
    split
    · split <;> rfl
    · rfl

theorem dropSlot_counted {i : Nat} (hi : i < maxFd) :
    ∃ s', dropSlot p s i = some s' ∧ Counted s' [] ∧ s'.used = s.used ∧
      ∀ q j, (s'.table q).files j = if q = p ∧ j = i then 0 else (s.table q).files j := by
  unfold dropSlot
  by_cases h0 : (s.table p).files i = 0
  · grind
  · -- the code drops the reference first and clears the slot then; the order does not matter
    obtain ⟨s2, hp, ht, hu2, hc⟩ := (Counted.setSlot (counted_null_cons.mpr h) hu hi).put
    rw [kpzFdPut_setSlot, map_eq_some_iff] at hp
    obtain ⟨s1, hp1, rfl⟩ := hp
    refine ⟨_, by rw [if_pos h0, hp1]; rfl, hc, hu2, fun q j => ?_⟩
    rw [ht, setSlot_files]

omit h hu in
theorem dropSlots_counted (is : List Nat) : ∀ {s : FdSys}, Counted s [] → s.used p = true → (∀ i ∈ is, i < maxFd) →
    ∃ s', is.foldlM (dropSlot p) s = some s' ∧ Counted s' [] ∧ s'.used = s.used ∧
      ∀ j : Int, (∃ i ∈ is, j = (i : Nat)) ∨ (s.table p).files j = 0 → (s'.table p).files j = 0 := by
  induction is with
  | nil => exact fun h _ _ => ⟨_, rfl, h, rfl, fun j hj => hj.elim (fun ⟨_, hi, _⟩ => nomatch hi) id⟩
  | cons i is ih =>
    intro s h hu hlt
    obtain ⟨s1, h1, hc1, hu1, hf1⟩ := dropSlot_counted h hu (hlt i List.mem_cons_self)
    obtain ⟨s2, h2, hc2, hu2, hf2⟩ := ih hc1 (by rw [hu1]; exact hu) fun j hj => hlt j (List.mem_cons_of_mem _ hj)
    grind

theorem procFreeFds_counted : ∃ s', procFreeFds s p = some s' ∧ Counted s' [] := by
  obtain ⟨s1, h1, hc, hu1, hf⟩ := dropSlots_counted (List.range maxFd) h hu fun i hi => List.mem_range.mp hi
  refine ⟨{ s1 with used := update s1.used p false }, by rw [procFreeFds, h1]; rfl,
    hc.of_slots rfl rfl (fun _ _ _ _ => rfl) (fun q hq => ?_) fun q hq i hi => ?_⟩
  · change update s1.used p false q = true at hq
    have hqp : q ≠ p := by rintro rfl; rw [update_self] at hq; cases hq
    rw [update_of_ne hqp] at hq
    exact hc.used_lt q hq
  · change update s1.used p false q = false at hq
    by_cases hqp : q = p
    · grind
    grind [hc.unused]

theorem Counted.stdSlot {a i : Nat} (ha : isStatic a = true) (hi : i < maxFd) (h0 : (s.table p).files i = 0) :
    ∃ s', s.incRef a = some s' ∧ Counted (s'.setSlot p i a) [] ∧ (s'.setSlot p i a).used p = true ∧
      ∀ j, j ≠ (i : Int) → ((s'.setSlot p i a).table p).files j = (s.table p).files j := by
  obtain ⟨f, hf⟩ := h.std a ha
  obtain ⟨s', he, ht, hu', -, hc⟩ := h.incRef hf
  have hu1 : s'.used p = true := by rw [hu']; exact hu
  have hc2 := hc.setSlot hu1 hi
  rw [ht, h0] at hc2
  refine ⟨s', he, counted_null_cons.mp hc2, hu1, fun j hj => ?_⟩
  rw [setSlot_files, if_neg fun h => hj h.2, ht]

end

theorem openStd_counted (h : Counted s []) (hu : s.used p = false) (hp : p < maxProcs) :
    ∃ s', openStd s p = some s' ∧ Counted s' [] := by
  obtain ⟨s0, hs0⟩ : ∃ s0 : FdSys, s0 = { s with
      table := update s.table p ⟨fun i => if 0 ≤ i then 0 else (s.table p).files i, fun _ => 0⟩
      used := update s.used p true } := ⟨_, rfl⟩
  have hz : ∀ i : Nat, (s0.table p).files i = 0 := fun i => by
    rw [hs0]
    grind
  have hother : ∀ q, q ≠ p → s0.table q = s.table q := fun q hq => by
    rw [hs0]
    exact update_of_ne hq _ _
  have hc0 : Counted s0 [] := by
    refine h.of_slots (by rw [hs0]) (by rw [hs0]) (fun q _ i hi => ?_) (fun q hq => ?_) fun q hq i hi => ?_
    · by_cases hqp : q = p
      · subst hqp; rw [hz, h.unused q hu i hi]
      · rw [hother q hqp]
    · rw [hs0] at hq
      by_cases hqp : q = p
      · subst hqp; exact hp
      · exact h.used_lt q ((update_of_ne hqp _ _).symm.trans hq)
    · by_cases hqp : q = p
      · subst hqp; exact hz i
      · rw [hother q hqp]
        rw [hs0] at hq
        grind [h.unused]
  have hu0 : s0.used p = true := by rw [hs0]; exact update_self ..
  obtain ⟨s1, he1, hc1, hu1, hf1⟩ := hc0.stdSlot (a := stdinFile) (i := 0) hu0 rfl (by decide) (hz 0)
  obtain ⟨s2, he2, hc2, hu2, hf2⟩ := hc1.stdSlot (a := stdoutFile) (i := 1) hu1 rfl (by decide)
    (by rw [hf1 _ (by decide), hz])
  obtain ⟨s3, he3, hc3, -, -⟩ := hc2.stdSlot (a := stderrFile) (i := 2) hu2 rfl (by decide)
    (by rw [hf2 _ (by decide), hf1 _ (by decide), hz])
  refine ⟨_, ?_, hc3⟩
  simp only [openStd, ← hs0, bind_eq_bind]
  grind

end More

/-! ## 5. Between the calls of a run -/

/-- What `kmalloc` promises the calls that make files. -/
def FdOp.Fresh (s : FdSys) : FdOp → Prop
  | .call c => c.Fresh s
  | .pipe _ _ rf wf => (∀ a, rf = some a → Kapi.Fresh s a) ∧ ∀ a, wf = some a → Kapi.Fresh s a ∧ rf ≠ some a
  | _ => True

/-- An `F_DUPFD` does not start before the table. -/
def FdOp.NonNeg : FdOp → Prop
  | .call (.fcntl _ cmd arg) => fcntlCmd (s32 cmd) = .dupfd → 0 ≤ s32 arg
  | _ => True

/-- The slots, of all processes, that hold the file. -/
def FdSys.holders (s : FdSys) (a : Nat) : Nat := (slotSet.filter fun x => s.slot x = a).card

theorem refsTo_nil (s : FdSys) (a : Nat) : s.refsTo [] a = s.holders a := by
  rw [FdSys.refsTo, refs, List.count_nil, Nat.add_zero, FdSys.holders]

theorem Counted.start : Counted .start [] := by
  have hz : ∀ a, a ≠ 0 → FdSys.start.refsTo [] a = 0 := by
    intro a ha
    rw [refsTo_nil, FdSys.holders, Finset.card_eq_zero, Finset.filter_eq_empty_iff]
    exact fun x _ h => ha h.symm
  refine ⟨rfl, fun a ha hp => absurd (hz a ha) (by omega), fun a f hf => ?_, fun a f hf hs => ?_, fun a ha => ?_,
    fun a ha => ?_, fun p hp => (nomatch hp), fun _ _ _ _ => rfl⟩
  · simp only [FdSys.start] at hf
    split at hf
    · rename_i hs
      rw [← Option.some.inj hf, hz a (by rintro rfl; exact absurd hs (by decide)), hs]
      rfl
    · cases hf
  · rw [show FdSys.start.file a = none from if_neg (by rw [hs]; decide)] at hf
    cases hf
  · exact ⟨⟨1, 0⟩, if_pos ha⟩
  · rw [show FdSys.start.file a = none from if_neg (by rw [ha]; decide)]
    rfl

theorem fdExec_counted {s : FdSys} (h : Counted s []) (p : Nat) (op : FdOp) (hf : op.Fresh s) :
    ∃ r s', fdExec s p op = some (r, s') ∧ Counted s' [] := by
  cases hu : s.used p with
  | false =>
    cases op with
    | spawn =>
      by_cases hp : 0 < p ∧ p < maxProcs
      · obtain ⟨s', he, hc⟩ := openStd_counted h hu hp.2
        exact ⟨0, s', by simp [fdExec, hu, hp, he], hc⟩
      · exact ⟨0, s, by simp only [fdExec, hu, if_neg hp], h⟩
    | _ => exact ⟨kpzErr .badf, s, by simp only [fdExec, hu], h⟩
  | true =>
    cases op with
    | call c =>
      obtain ⟨s', he, -, -, hc⟩ := FdCall.exec_keeps h hu c hf
      grind [fdExec]
    | pipe fds pb rf wf =>
      simpa only [fdExec, hu] using kpzSysPipe_counted h hu fds pb rf wf hf.1 hf.2
    | read fd buf len ret => simpa only [fdExec, hu] using throughFile_counted h p (s32 fd) buf len ret
    | write fd buf len ret => simpa only [fdExec, hu] using throughFile_counted h p (s32 fd) buf len ret
    | exit =>
      obtain ⟨s', he, hc⟩ := procFreeFds_counted h hu
      exact ⟨0, s', by simp [fdExec, hu, he], hc⟩
    | spawn => exact ⟨0, s, by simp only [fdExec, hu], h⟩
    | below w =>
      refine ⟨0, s.setBelow p w, by simp only [fdExec, hu], h.of_files rfl rfl rfl fun q i hi => ?_⟩
      by_cases hq : q = p
      · subst hq; simp [FdSys.setBelow, hi]
      · simp [FdSys.setBelow, hq]

theorem fdStep_counted {s : FdSys} (h : Counted s []) (i : Nat × FdOp) (hf : i.2.Fresh s) :
    (fdStep s i).1 ≠ none ∧ Counted (fdStep s i).2 [] := by
  obtain ⟨r, s', he, hc⟩ := fdExec_counted h i.1 i.2 hf
  rw [fdStep, he]
  exact ⟨nofun, hc⟩

/-- **The reference counts of open files.** Between the calls of any run: a heap file's count is the
    number of slots that hold it, at least one; what a slot holds lives; every file was made,
    closed once and freed once, in this order, and the ones that live are not closed yet; and no
    call used a freed file. -/
theorem fd_refcount_run {h : List ((Nat × FdOp) × Option Int)} {s : FdSys}
    (hr : Reach (fun s i => i.2.Fresh s ∧ i.2.NonNeg) fdStep .start h s) :
    (∀ a f, s.file a = some f → isStatic a = false → f.refcount = s.holders a ∧ 0 < s.holders a) ∧
    (∀ x ∈ slotSet, s.slot x ≠ 0 → ∃ f, s.file (s.slot x) = some f) ∧
    (∀ a, isStatic a = false → phase a s.trace = some (if (s.file a).isSome then .live else .dead)) ∧
    ∀ e ∈ h, e.2 ≠ none := by
  have hI : Counted s [] ∧ ∀ e ∈ h, e.2 ≠ none := by
    refine hr.inv (I := fun h s => Counted s [] ∧ ∀ e ∈ h, e.2 ≠ none)
      ⟨Counted.start, fun _ h => nomatch h⟩ fun h s i hI hi => ?_
    obtain ⟨h1, h2⟩ := fdStep_counted hI.1 i hi.1
    refine ⟨h2, fun e he => ?_⟩
    rcases List.mem_cons.mp he with rfl | he
    · exact h1
    · exact hI.2 e he
  obtain ⟨hc, hn⟩ := hI
  refine ⟨fun a f hf hs => ?_, fun x hx h0 => hc.live _ h0 (refs_pos hx rfl), hc.lives, hn⟩
  have h1 := hc.count a f hf
  have h2 := hc.held a f hf hs
  grind [refsTo_nil]

theorem fd_refcount_open_dup : ∃ h s, Reach (fun s i => i.2.Fresh s ∧ i.2.NonNeg) fdStep .start h s ∧
    s.file 64 = some ⟨2, 0⟩ ∧ (2 : Int) = s.holders 64 := by
  have hr : Reach (fun s i => i.2.Fresh s ∧ i.2.NonNeg) fdStep .start [] .start := .start
  have hr := Reach.step _ _ (1, FdOp.spawn) hr ⟨trivial, trivial⟩
  have hr := Reach.step _ _ (1, FdOp.call (.openFile 0x1000 0 (some 64))) hr
    ⟨⟨by decide, by decide, rfl⟩, trivial⟩
  have hr := Reach.step _ _ (1, FdOp.call (.dup 3)) hr ⟨trivial, trivial⟩
  exact ⟨_, _, hr, rfl, ((fd_refcount_run hr).1 64 ⟨2, 0⟩ rfl rfl).1⟩

end Kobalt.Kapi

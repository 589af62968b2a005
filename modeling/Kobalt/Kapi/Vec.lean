/-
  Subject: READV AND WRITEV (`sys_readv`, `sys_writev` of `kposixz_syscall.c`): the loop over a
  vector of buffers, whatever the file's own operation does.

  The vector is in user memory and is read anew in every round; a read may write over it. Beside the
  state stand the calls of the operation.
-/
import Mathlib.Algebra.Order.BigOperators.Group.List
import Kobalt.Kapi.Fd

namespace Kobalt.Kapi

open List

/-! ## 1. The code -/

/-- `kpz_iovec_t` -/
structure Iovec where
  base : Nat
  len : Nat
  deriving DecidableEq, Repr

/-- `iov[i]` -/
def iovAt (m : Bytes) (iov i : Nat) : Iovec := ⟨leAt m (iov + 16 * i) 8, leAt m (iov + 16 * i + 8) 8⟩

/-- **An operation of a file**, `ops->read` or `ops->write`: from the file's state, the user memory, a
    buffer and its length. It returns an error or how many bytes it moved; nothing is said of the memory
    it writes. -/
structure FileOp (σ : Type) where
  run : σ → Bytes → Nat → Nat → Int × σ × Bytes
  le : ∀ t m base len, (run t m base len).1 ≤ len

/-- `ops->write` only reads the user memory. -/
structure WriteOp (σ : Type) where
  run : σ → Bytes → Nat → Nat → Int × σ
  le : ∀ t m base len, (run t m base len).1 ≤ len

def WriteOp.toFileOp {σ : Type} (w : WriteOp σ) : FileOp σ where
  run := fun t m base len => ((w.run t m base len).1, (w.run t m base len).2, m)
  le := w.le

/-- A call of the operation, and what it returned. -/
structure OpCall where
  base : Nat
  len : Nat
  ret : Int
  deriving DecidableEq, Repr

structure VecSys (σ : Type) where
  file : σ
  mem : Bytes
  /-- the calls made, in order -/
  calls : List OpCall

/-- `(s64)x` -/
def s64 (x : Int) : Int := x.bmod (2 ^ 64)

section Code

variable {σ : Type}

/-- One call of the operation. -/
def VecSys.call (v : VecSys σ) (op : FileOp σ) (e : Iovec) : Int × VecSys σ :=
  let r := op.run v.file v.mem e.base e.len
  (r.1, ⟨r.2.1, r.2.2, v.calls ++ [⟨e.base, e.len, r.1⟩]⟩)

/-- `for (i = 0; i < cnt; i++)`, with `k` rounds to go. -/
def vecLoop (op : FileOp σ) (iov : Nat) : Nat → Nat → Int → VecSys σ → Int × VecSys σ
  | 0, _, total, v => (total, v)
  | k + 1, i, total, v =>
    let e := iovAt v.mem iov i
    if e.len = 0 then vecLoop op iov k (i + 1) total v
    else if checkPtr e.base e.len = false then (kpzErr .fault, v)
    else
      let (r, v) := v.call op e
      if r < 0 then (if total = 0 then r else total, v)
      else
        let total := s64 (total + r)
        if r < (iovAt v.mem iov i).len then (total, v) else vecLoop op iov k (i + 1) total v

/-- `sys_readv` and `sys_writev`; `cur` is `kpz_current()`, `ops` the operation of a file if it has one. -/
def throughVec (ops : Nat → Option (FileOp σ)) (cur : Option Nat) (s : FdSys) (fd iov cnt : Nat) (v : VecSys σ) :
    Option (Int × FdSys × VecSys σ) :=
  match cur with
  | none => some (kpzErr .badf, s, v)
  | some p =>
    if s32 cnt < 0 ∨ s32 cnt > 1024 then some (kpzErr .inval, s, v)
    else if checkPtr iov (16 * (s32 cnt).toNat) = false then some (kpzErr .fault, s, v)
    else do
      let (file, s) ← kpzFdGet s p (s32 fd)
      match if file = 0 then none else ops file with
      | none => do
        let s ← kpzFdPut s file
        some (kpzErr .badf, s, v)
      | some op => do
        let (ret, v) := vecLoop op iov (s32 cnt).toNat 0 0 v
        let s ← kpzFdPut s file
        some (ret, s, v)

def sysReadv (read : Nat → Option (FileOp σ)) (cur : Option Nat) (s : FdSys) (fd iov cnt : Nat) (v : VecSys σ) :
    Option (Int × FdSys × VecSys σ) := throughVec read cur s fd iov cnt v

def sysWritev (write : Nat → Option (WriteOp σ)) (cur : Option Nat) (s : FdSys) (fd iov cnt : Nat) (v : VecSys σ) :
    Option (Int × FdSys × VecSys σ) := throughVec (fun a => (write a).map WriteOp.toFileOp) cur s fd iov cnt v

end Code

/-! ## 2. The law, and when it fails -/

/-- How many bytes the calls moved. -/
def moved (cs : List OpCall) : Int := (cs.map fun c => max c.ret 0).sum

/-- The addresses a call moved, and those of a buffer. -/
def OpCall.bytes (c : OpCall) : List Nat := (List.range c.ret.toNat).map (c.base + ·)
def Iovec.bytes (e : Iovec) : List Nat := (List.range e.len).map (e.base + ·)

/-- The vector as it is passed. -/
def vector (m : Bytes) (iov cnt : Nat) : List Iovec := (List.range cnt).map (iovAt m iov)

/-- **The return value tells what was moved**, and that is the start of the vector. -/
structure VecLaw (vec : List Iovec) (ret : Int) (cs : List OpCall) : Prop where
  total : 0 < moved cs → ret = moved cs
  error : ret < 0 → moved cs = 0
  inOrder : cs.flatMap OpCall.bytes <+: vec.flatMap Iovec.bytes

section Spec

variable {σ : Type}

/-- The buffers are moved one after the other, each of them whole; `none` if one is not. -/
def moveWhole (op : FileOp σ) : List Iovec → σ × Bytes → Option (σ × Bytes)
  | [], x => some x
  | e :: es, x =>
    if e.len = 0 then moveWhole op es x
    else if checkPtr e.base e.len = true ∧ (op.run x.1 x.2 e.base e.len).1 = e.len then
      moveWhole op es (op.run x.1 x.2 e.base e.len).2
    else none

/-- **Entry `i` of the vector is read as it was passed**, whenever the loop comes to it: with its length, with
    its base unless it is empty, and, behind a call that used it, as longer than what was moved exactly if it is. -/
structure SteadyAt (op : FileOp σ) (m : Bytes) (iov i : Nat) (y : σ × Bytes) : Prop where
  len : (iovAt y.2 iov i).len = (iovAt m iov i).len
  base : (iovAt m iov i).len ≠ 0 → (iovAt y.2 iov i).base = (iovAt m iov i).base
  again : ∀ r z, op.run y.1 y.2 (iovAt m iov i).base (iovAt m iov i).len = (r, z) → 0 ≤ r →
    (r < (iovAt z.2 iov i).len ↔ r < (iovAt m iov i).len)

/-- No operation writes over what the loop still reads of the vector. -/
def Steady (op : FileOp σ) (m : Bytes) (iov cnt : Nat) (t : σ) : Prop :=
  ∀ i < cnt, ∀ y, moveWhole op (vector m iov i) (t, m) = some y → SteadyAt op m iov i y

/-- The loop meets the bad buffer `e` behind `pre`. -/
structure Meets (op : FileOp σ) (vec : List Iovec) (x : σ × Bytes) (pre : List Iovec) (e : Iovec) : Prop where
  split : ∃ post, vec = pre ++ e :: post
  whole : ∃ y, moveWhole op pre x = some y
  some : e.len ≠ 0
  bad : checkPtr e.base e.len = false

/-- **A bad buffer behind others**: all before it are moved whole, and one of them is not empty. -/
def LateFault (op : FileOp σ) (vec : List Iovec) (x : σ × Bytes) : Prop :=
  ∃ pre e, Meets op vec x pre e ∧ ∃ d ∈ pre, d.len ≠ 0

/-- The call is not refused before its loop, which runs with `op`. -/
def Enters (ops : Nat → Option (FileOp σ)) (cur : Option Nat) (s : FdSys) (fd iov cnt : Nat) (op : FileOp σ) : Prop :=
  ∃ p, cur = some p ∧ 0 ≤ s32 cnt ∧ s32 cnt ≤ 1024 ∧ checkPtr iov (16 * (s32 cnt).toNat) = true ∧
    (s.table p).file (s32 fd) ≠ 0 ∧ ops ((s.table p).file (s32 fd)) = some op

/-- The loop over a vector that stays as it is. -/
def moveAll (op : FileOp σ) : List Iovec → Int → VecSys σ → Int × VecSys σ
  | [], total, v => (total, v)
  | e :: es, total, v =>
    if e.len = 0 then moveAll op es total v
    else if checkPtr e.base e.len = false then (kpzErr .fault, v)
    else
      let (r, v) := v.call op e
      if r < 0 then (if total = 0 then r else total, v)
      else if r < e.len then (total + r, v)
      else moveAll op es (total + r) v

end Spec

/-! ## 3. The vector as it was passed -/

section Stable

variable {σ : Type} {op : FileOp σ} {m : Bytes} {iov cnt : Nat} {t : σ}

theorem checkPtr_bound {b l : Nat} (h : checkPtr b l = true) (hl : l < 2 ^ 64) : b + l ≤ 2 ^ 47 := by
  simp only [checkPtr, Bool.and_eq_true, decide_eq_true_eq] at h
  unfold userSpaceMax at h
  omega

theorem s64_of_small {x : Int} (h0 : 0 ≤ x) (h : x < 2 ^ 63) : s64 x = x := by grind [s64]

theorem moveWhole_concat (e : Iovec) : ∀ (l : List Iovec) (x : σ × Bytes),
    moveWhole op (l ++ [e]) x = (moveWhole op l x).bind (moveWhole op [e]) := by
  intro l
  induction l with
  | nil => exact fun x => rfl
  | cons d l ih =>
    intro x
    rw [cons_append, moveWhole, moveWhole]
    split
    · exact ih x
    split
    · exact ih _
    · rfl

theorem moveWhole_write (w : WriteOp σ) : ∀ (l : List Iovec) (x y : σ × Bytes),
    moveWhole w.toFileOp l x = some y → y.2 = x.2 := by
  intro l
  induction l with
  | nil => exact fun x y h => by cases h; rfl
  | cons e l ih =>
    intro x y h
    rw [moveWhole] at h
    by_cases hz : e.len = 0
    · rw [if_pos hz] at h
      exact ih x y h
    rw [if_neg hz] at h
    split at h
    · exact ih (w.toFileOp.run x.1 x.2 e.base e.len).2 y h
    · cases h

theorem WriteOp.steady (w : WriteOp σ) (m : Bytes) (iov cnt : Nat) (t : σ) : Steady w.toFileOp m iov cnt t := by
  intro i _ y hy
  have hm : y.2 = m := moveWhole_write w _ _ _ hy
  refine ⟨by rw [hm], fun _ => by rw [hm], fun r z hz _ => ?_⟩
  cases hz
  rw [← hm]

/-- **Where the vector is read as it was passed**, the loop runs over it so. The induction carries that all
    buffers before entry `i` were moved whole. -/
theorem vecLoop_eq (hst : Steady op m iov cnt t) (hcnt : cnt ≤ 1024) :
    ∀ (k i : Nat) (total : Int) (v : VecSys σ), i + k = cnt →
    moveWhole op (vector m iov i) (t, m) = some (v.file, v.mem) → 0 ≤ total → total ≤ i * 2 ^ 47 →
    vecLoop op iov k i total v = moveAll op ((List.range' i k).map (iovAt m iov)) total v := by
  intro k
  induction k with
  | zero => exact fun _ _ _ _ _ _ _ => rfl
  | succ k ih =>
    intro i total v hik hwhole h0 hle
    have hs := hst i (by omega) _ hwhole
    have hnext : vector m iov (i + 1) = vector m iov i ++ [iovAt m iov i] := by
      simp only [vector, range_succ, map_append, map_cons, map_nil]
    have hgo : ∀ y, moveWhole op [iovAt m iov i] (v.file, v.mem) = some y →
        moveWhole op (vector m iov (i + 1)) (t, m) = some y := by
      intro y hy
      rw [hnext, moveWhole_concat, hwhole, Option.bind_some, hy]
    obtain ⟨hl, hb, ha⟩ := hs
    have hlen64 : (iovAt m iov i).len < 2 ^ 64 := leAt_lt ..
    generalize hei : iovAt m iov i = e at *
    rw [range'_succ, map_cons, vecLoop, moveAll, hei]
    by_cases hz : e.len = 0
    · simp only [if_pos (hl.trans hz), if_pos hz]
      exact ih (i + 1) total v (by omega) (hgo _ (by rw [moveWhole, if_pos hz, moveWhole])) h0 (by push_cast; omega)
    have he : iovAt v.mem iov i = e := by
      rw [show e = ⟨e.base, e.len⟩ from rfl, ← hl, ← hb hz]
    rw [he]
    by_cases hbad : checkPtr e.base e.len = false
    · simp only [if_neg hz, if_pos hbad]
    simp only [if_neg hz, if_neg hbad]
    have hok : checkPtr e.base e.len = true := by simpa using hbad
    have hbound := checkPtr_bound hok hlen64
    have hret : (v.call op e).1 ≤ e.len := op.le ..
    have hrun : op.run v.file v.mem e.base e.len = ((v.call op e).1, (v.call op e).2.file, (v.call op e).2.mem) := rfl
    obtain ⟨r, v', hcall⟩ : ∃ r v', v.call op e = (r, v') := ⟨_, _, rfl⟩
    rw [hcall] at hret hrun ⊢
    simp only at hret hrun ⊢
    by_cases hneg : r < 0
    · simp only [if_pos hneg]
    have hsum : s64 (total + r) = total + r := s64_of_small (by omega) (by omega)
    have hagain : r < (iovAt v'.mem iov i).len ↔ r < e.len := ha r (v'.file, v'.mem) hrun (by omega)
    simp only [if_neg hneg, hsum, hagain]
    by_cases hshort : r < e.len
    · simp only [if_pos hshort]
    simp only [if_neg hshort]
    refine ih (i + 1) (total + r) v' (by omega) (hgo _ ?_) (by omega) (by push_cast; omega)
    rw [moveWhole, if_neg hz, hrun, if_pos ⟨hok, by omega⟩, moveWhole]

end Stable

/-! ## 4. What is moved -/

section Moves

variable {σ : Type} {op : FileOp σ}

theorem moved_append (cs ds : List OpCall) : moved (cs ++ ds) = moved cs + moved ds := by
  simp [moved]

theorem moved_one (c : OpCall) : moved [c] = max c.ret 0 := by
  simp [moved]

theorem moved_nonneg (cs : List OpCall) : 0 ≤ moved cs := by
  refine sum_nonneg fun x hx => ?_
  grind

theorem moveAll_fault {e : Iovec} (post : List Iovec) (hsome : e.len ≠ 0) (hbad : checkPtr e.base e.len = false) :
    ∀ (pre : List Iovec) (total : Int) (v : VecSys σ), (∃ y, moveWhole op pre (v.file, v.mem) = some y) →
    (moveAll op (pre ++ e :: post) total v).1 = kpzErr .fault ∧ ∃ cs,
      (moveAll op (pre ++ e :: post) total v).2.calls = v.calls ++ cs ∧ moved cs = (pre.map Iovec.len).sum := by
  intro pre
  induction pre with
  | nil =>
    intro total v _
    rw [nil_append, moveAll]
    simp only [if_neg hsome, if_pos hbad]
    exact ⟨trivial, [], by simp, rfl⟩
  | cons d pre ih =>
    intro total v hwhole
    rw [cons_append, moveAll, map_cons, sum_cons]
    rw [moveWhole] at hwhole
    by_cases hz : d.len = 0
    · simp only [if_pos hz] at hwhole ⊢
      rw [hz, Nat.zero_add]
      exact ih total v hwhole
    by_cases hd : checkPtr d.base d.len = true ∧ (op.run v.file v.mem d.base d.len).1 = d.len
    · simp only [if_neg hz, if_pos hd] at hwhole
      have hret : (v.call op d).1 = d.len := hd.2
      have hcalls : (v.call op d).2.calls = v.calls ++ [⟨d.base, d.len, (v.call op d).1⟩] := rfl
      have hrest : ∃ y, moveWhole op pre ((v.call op d).2.file, (v.call op d).2.mem) = some y := hwhole
      obtain ⟨r, v', hcall⟩ : ∃ r v', v.call op d = (r, v') := ⟨_, _, rfl⟩
      rw [hcall] at hret hcalls hrest ⊢
      simp only at hret hcalls hrest ⊢
      subst hret
      obtain ⟨h1, cs, h2, h3⟩ := ih (total + d.len) v' hrest
      simp only [if_neg hz, hd.1, Bool.true_eq_false, if_false, if_neg (show ¬ (d.len : Int) < 0 by omega),
        if_neg (Int.lt_irrefl (d.len : Int))]
      refine ⟨h1, ⟨d.base, d.len, d.len⟩ :: cs, ?_, ?_⟩
      · rw [h2, hcalls, append_assoc, singleton_append]
      · rw [← singleton_append, moved_append, moved_one, h3]
        push_cast
        omega
    grind

/-- **What the loop moves** is a start of the buffers, and where no bad buffer is met the sum is the result,
    unless nothing was moved. -/
theorem moveAll_spec : ∀ (vec : List Iovec) (total : Int) (v : VecSys σ), ∃ cs,
    (moveAll op vec total v).2.calls = v.calls ++ cs ∧ cs.flatMap OpCall.bytes <+: vec.flatMap Iovec.bytes ∧
      (0 ≤ total → (∀ pre e, ¬ Meets op vec (v.file, v.mem) pre e) →
        (moveAll op vec total v).1 = total + moved cs ∨ total + moved cs = 0 ∧ (moveAll op vec total v).1 < 0) := by
  intro vec
  induction vec with
  | nil => exact fun _ v => ⟨[], by simp [moveAll], List.prefix_rfl, fun _ _ => .inl (by simp [moveAll, moved])⟩
  | cons e es ih =>
    intro total v
    rw [moveAll]
    by_cases hz : e.len = 0
    · simp only [if_pos hz]
      obtain ⟨cs, h1, h2, h3⟩ := ih total v
      refine ⟨cs, h1, by grind [Iovec.bytes], fun h0 hno => h3 h0 fun pre d hd => hno (e :: pre) d ⟨?_, ?_, hd.some, hd.bad⟩⟩
      · grind [hd.split]
      · rw [moveWhole, if_pos hz]
        exact hd.whole
    by_cases hbad : checkPtr e.base e.len = false
    · simp only [if_neg hz, if_pos hbad]
      exact ⟨[], by simp, List.nil_prefix, fun _ hno => absurd ⟨⟨es, rfl⟩, ⟨_, rfl⟩, hz, hbad⟩ (hno [] e)⟩
    simp only [if_neg hz, if_neg hbad]
    have hok : checkPtr e.base e.len = true := by simpa using hbad
    have hret : (v.call op e).1 ≤ e.len := op.le ..
    have hcalls : (v.call op e).2.calls = v.calls ++ [⟨e.base, e.len, (v.call op e).1⟩] := rfl
    have hrun : op.run v.file v.mem e.base e.len =
      ((v.call op e).1, (v.call op e).2.file, (v.call op e).2.mem) := rfl
    obtain ⟨r, v', hcall⟩ : ∃ r v', v.call op e = (r, v') := ⟨_, _, rfl⟩
    rw [hcall] at hret hcalls hrun ⊢
    simp only at hret hcalls hrun ⊢
    -- the one call moves a start of the buffer
    have hone : (OpCall.mk e.base e.len r).bytes <+: e.bytes := by
      obtain ⟨c, hc⟩ : ∃ c, e.len = r.toNat + c := Nat.exists_eq_add_of_le (by omega)
      rw [OpCall.bytes, Iovec.bytes, hc, range_add, map_append]
      exact List.prefix_append _ _
    by_cases hneg : r < 0
    · simp only [if_pos hneg]
      exact ⟨_, hcalls, by grind, by grind [moved_one]⟩
    simp only [if_neg hneg]
    by_cases hshort : r < e.len
    · simp only [if_pos hshort]
      exact ⟨_, hcalls, by grind, by grind [moved_one]⟩
    simp only [if_neg hshort]
    have hwhole : r = e.len := by omega
    obtain ⟨cs, h1, h2, h3⟩ := ih (total + r) v'
    refine ⟨⟨e.base, e.len, r⟩ :: cs, ?_, ?_, fun h0 hno => ?_⟩
    · rw [h1, hcalls, append_assoc, singleton_append]
    · grind [OpCall.bytes, Iovec.bytes, List.prefix_append_right_inj]
    · have := h3 (by omega) fun pre d hd => hno (e :: pre) d ⟨by grind [hd.split], by
        rw [moveWhole, if_neg hz, hrun, if_pos ⟨hok, hwhole⟩]
        exact hd.whole, hd.some, hd.bad⟩
      rw [← singleton_append, moved_append, moved_one]
      grind

theorem Meets.result {vec pre : List Iovec} {e : Iovec} {t : σ} {m : Bytes} (h : Meets op vec (t, m) pre e) :
    (moveAll op vec 0 ⟨t, m, []⟩).1 = kpzErr .fault ∧
      moved (moveAll op vec 0 ⟨t, m, []⟩).2.calls = (pre.map Iovec.len).sum := by
  obtain ⟨post, rfl⟩ := h.split
  obtain ⟨hret, cs, hcs, hsum⟩ := moveAll_fault post h.some h.bad pre 0 ⟨t, m, []⟩ h.whole
  rw [hcs]
  exact ⟨hret, hsum⟩

/-- **The law for one loop**: it holds exactly if no bad buffer is met behind others. -/
theorem moveAll_law (vec : List Iovec) (t : σ) (m : Bytes) :
    VecLaw vec (moveAll op vec 0 ⟨t, m, []⟩).1 (moveAll op vec 0 ⟨t, m, []⟩).2.calls ↔ ¬ LateFault op vec (t, m) := by
  constructor
  · intro hlaw ⟨pre, e, hm, d, hd, hsome⟩
    obtain ⟨hret, hsum⟩ := hm.result
    have hle : d.len ≤ (pre.map Iovec.len).sum := single_le_sum (fun _ _ => Nat.zero_le _) _ (mem_map_of_mem hd)
    have htot := hlaw.total (by rw [hsum]; omega)
    have := kpzErr_neg .fault
    omega
  · intro hlate
    obtain ⟨cs, hcs, hord, hval⟩ : ∃ cs, (moveAll op vec 0 ⟨t, m, []⟩).2.calls = [] ++ cs ∧ _ :=
      moveAll_spec vec 0 ⟨t, m, []⟩
    rw [nil_append] at hcs
    by_cases hmeets : ∃ pre e, Meets op vec (t, m) pre e
    · obtain ⟨pre, e, hm⟩ := hmeets
      obtain ⟨-, hsum⟩ := hm.result
      -- all buffers before the bad one are empty
      have hzero : (pre.map Iovec.len).sum = 0 := by
        refine sum_eq_zero fun x hx => ?_
        obtain ⟨d, hd, rfl⟩ := mem_map.mp hx
        by_contra hne
        exact hlate ⟨pre, e, hm, d, hd, hne⟩
      rw [hzero] at hsum
      exact ⟨fun hpos => by omega, fun _ => hsum, by rwa [hcs]⟩
    · have hval := hval (Int.le_refl 0) fun pre e hm => hmeets ⟨pre, e, hm⟩
      have hnn : 0 ≤ moved cs := moved_nonneg cs
      rw [Int.zero_add] at hval
      refine ⟨fun hpos => ?_, fun hneg => ?_, by rwa [hcs]⟩
      · rw [hcs] at hpos ⊢
        omega
      · rw [hcs]
        omega

end Moves

/-! ## 5. The two calls -/

section Calls

variable {σ : Type}

theorem VecLaw.refused (vec : List Iovec) (ret : Int) : VecLaw vec ret [] :=
  ⟨fun h => absurd h (Int.lt_irrefl 0), fun _ => rfl, List.nil_prefix⟩

/-- No bad buffer is met behind others. -/
def NoLateFault (ops : Nat → Option (FileOp σ)) (cur : Option Nat) (s : FdSys) (fd iov cnt : Nat) (t : σ) (m : Bytes) : Prop :=
  ∀ op, Enters ops cur s fd iov cnt op → ¬ LateFault op (vector m iov (s32 cnt).toNat) (t, m)

theorem throughVec_law (ops : Nat → Option (FileOp σ)) {s : FdSys} (hs : Counted s []) (cur : Option Nat) (fd iov cnt : Nat)
    (t : σ) (m : Bytes) :
    ∃ ret s' v', throughVec ops cur s fd iov cnt ⟨t, m, []⟩ = some (ret, s', v') ∧ Counted s' [] ∧
      ((∀ op, Enters ops cur s fd iov cnt op → Steady op m iov (s32 cnt).toNat t) →
      (VecLaw (vector m iov (s32 cnt).toNat) ret v'.calls ↔ NoLateFault ops cur s fd iov cnt t m)) := by
  have hout : (∀ op, ¬ Enters ops cur s fd iov cnt op) → ∀ ret,
      (VecLaw (vector m iov (s32 cnt).toNat) ret [] ↔ NoLateFault ops cur s fd iov cnt t m) :=
    fun hno ret => ⟨fun _ op he => absurd he (hno op), fun _ => .refused _ ret⟩
  cases cur with
  | none => exact ⟨_, s, _, rfl, hs, fun _ => hout (fun op ⟨p, hp, _⟩ => by cases hp) _⟩
  | some p =>
    rw [throughVec]
    by_cases hcnt : s32 cnt < 0 ∨ s32 cnt > 1024
    · rw [if_pos hcnt]
      exact ⟨_, s, _, rfl, hs, fun _ => hout (fun op ⟨_, _, h1, h2, _⟩ => by omega) _⟩
    rw [if_neg hcnt]
    by_cases hiov : checkPtr iov (16 * (s32 cnt).toNat) = false
    · rw [if_pos hiov]
      exact ⟨_, s, _, rfl, hs, fun _ => hout (fun op ⟨_, _, _, _, h3, _⟩ => by rw [hiov] at h3; cases h3) _⟩
    rw [if_neg hiov]
    obtain ⟨s1, hg, -, -, -, hc⟩ := hs.get p (s32 fd)
    simp only [hg, Option.bind_eq_bind, Option.bind_some]
    obtain ⟨s2, hput, -, -, hc2⟩ := hc.put
    obtain ⟨file, hfile⟩ : ∃ file, file = (s.table p).file (s32 fd) := ⟨_, rfl⟩
    rw [← hfile] at hput ⊢
    cases hop : (if file = 0 then none else ops file) with
    | none =>
      simp only [hput, Option.bind_some]
      refine ⟨_, s2, _, rfl, hc2, fun _ => hout (fun op ⟨q, hq, _, _, _, h4, h5⟩ => ?_) _⟩
      grind
    | some op =>
      have h0 : file ≠ 0 := fun h => by rw [if_pos h] at hop; cases hop
      rw [if_neg h0] at hop
      have hent : Enters ops (some p) s fd iov cnt op :=
        ⟨p, rfl, by omega, by omega, by simpa using hiov, hfile ▸ h0, hfile ▸ hop⟩
      have honly : ∀ op', Enters ops (some p) s fd iov cnt op' → op' = op := by
        intro op' ⟨q, hq, _, _, _, _, h5⟩
        rw [← Option.some.inj hq, ← hfile, hop] at h5
        exact (Option.some.inj h5).symm
      simp only [hput, Option.bind_some]
      refine ⟨_, s2, _, rfl, hc2, fun hst => ?_⟩
      have hloop : vecLoop op iov (s32 cnt).toNat 0 0 ⟨t, m, []⟩ =
          moveAll op (vector m iov (s32 cnt).toNat) 0 ⟨t, m, []⟩ := by
        rw [vector, range_eq_range']
        exact vecLoop_eq (hst op hent) (by omega) _ 0 0 _ (Nat.zero_add _) rfl (Int.le_refl 0) (by simp)
      rw [hloop, moveAll_law]
      exact ⟨fun h op' he => honly op' he ▸ h, fun h => h op hent⟩

end Calls

/-! ## 6. Two vectors -/

/-- A process with the static files open. -/
def spawned : FdSys := (fdStep .start (1, .spawn)).2

theorem counted_spawned : Counted spawned [] := (fdStep_counted Counted.start (1, .spawn) trivial).2

/-- An operation that moves every buffer whole. -/
def wholeOp : WriteOp Unit := ⟨fun _ _ _ len => (len, ()), fun _ _ _ _ => Int.le_refl _⟩

/-- A vector at `0x2000`: one byte at `0x1000`, then one byte at `base`. -/
def twoBuffers (base : Nat) : Bytes :=
  putLE (putLE (putLE (putLE zeroBytes 0x2000 8 0x1000) 0x2008 8 1) 0x2010 8 base) 0x2018 8 1

end Kobalt.Kapi

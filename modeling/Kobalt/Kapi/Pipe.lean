/-
  Subject: PIPES (`kapi/src/kposixz_io.c`): a ring of `PIPE_SZ` bytes between a read end and a write
  end, and the two calls that close the ends.

  The loops of `pipe_read` and `pipe_write` run under the pipe's lock and are one step each. The
  tests of `nrd` and `nwr` are outside the lock, so other calls come in between, and other calls
  open and close ends at any time (`PipeOp.ends`).
-/
import Kobalt.Lib.Run
import Kobalt.Lib.Bytes
import Kobalt.Lib.Ring

namespace Kobalt.Kapi

open Function List

/-! ## 1. The code -/

/-- The error codes of `kposixz.h` the modelled calls return. -/
inductive Kpze where
  | noent | noexec | badf | child | again | nomem | fault | inval | mfile | rofs | pipe
  deriving DecidableEq, Repr

def Kpze.code : Kpze → Nat
  | .noent => 2
  | .noexec => 8
  | .badf => 9
  | .child => 10
  | .again => 11
  | .nomem => 12
  | .fault => 14
  | .inval => 22
  | .mfile => 24
  | .rofs => 30
  | .pipe => 32

def kpzErr (e : Kpze) : Int := -e.code

theorem kpzErr_neg (e : Kpze) : kpzErr e < 0 := by
  cases e <;> decide

abbrev pipeSz : Nat := 4096

structure Pipe where
  buf : Bytes
  rd : Nat
  wr : Nat
  len : Nat
  nrd : Int
  nwr : Int

/-- The pipe `kpz_sys_pipe` makes: zeroed, with one end of each kind. -/
def Pipe.fresh : Pipe where
  buf := fun _ => 0
  rd := 0
  wr := 0
  len := 0
  nrd := 1
  nwr := 1

/-- The loop of `pipe_read`; `left` is `len - got` and `dst` the bytes got so far. -/
def pipeReadLoop (p : Pipe) (dst : Text) : (left : Nat) → Text × Pipe
  | 0 => (dst, p)
  | left + 1 =>
    if 0 < p.len then
      pipeReadLoop { p with rd := (p.rd + 1) &&& (pipeSz - 1), len := p.len - 1 }
        (dst ++ [p.buf p.rd]) left
    else (dst, p)

/-- The loop of `pipe_write`, over the bytes of `src` not put yet. -/
def pipeWriteLoop (p : Pipe) (put : Nat) : (src : Text) → Nat × Pipe
  | [] => (put, p)
  | b :: src =>
    if p.len < pipeSz then
      pipeWriteLoop { p with
        buf := update p.buf p.wr b
        wr := (p.wr + 1) &&& (pipeSz - 1)
        len := p.len + 1 } (put + 1) src
    else (put, p)

/-- The end of `pipe_read`, after the lock; `nwr` is read only if nothing was got. -/
def pipeReadRet (got : Nat) (nwr : Int) : Int :=
  if got = 0 ∧ nwr = 0 then 0
  else if got = 0 then kpzErr .again
  else got

/-- The end of `pipe_write`. -/
def pipeWriteRet (put : Nat) : Int := if put ≠ 0 then put else kpzErr .again

/-- Where a caller is. -/
inductive PipeCall where
  | idle
  /-- in `pipe_write`, past the test of `nrd` -/
  | writing (src : Text)
  /-- in `pipe_read` for `len` bytes, past the lock, with `dst` got; `found` is what `p->len` was
      when it took the lock -/
  | reading (len found : Nat) (dst : Text)

structure PipeSys where
  pipe : Pipe
  call : Nat → PipeCall

def PipeSys.start : PipeSys where
  pipe := .fresh
  call := fun _ => .idle

inductive PipeOp where
  /-- the caller `t` enters `pipe_write` and tests `nrd` -/
  | writeEnter (t : Nat) (src : Text)
  | writeBody (t : Nat)
  | readBody (t len : Nat)
  | readReturn (t : Nat)
  /-- ends are opened or closed -/
  | ends (nrd nwr : Int)

/-- What a step shows. -/
inductive PipeEvent where
  | silent
  /-- `pipe_write` returned before the lock -/
  | refused (ret : Int)
  /-- a `pipe_write` of `src` found `found` bytes in the ring, put `put` and returned -/
  | wrote (src : Text) (found put : Nat) (ret : Int)
  /-- a `pipe_read` took `dst` out of the ring -/
  | took (dst : Text)
  /-- a `pipe_read` of `len` bytes that found `found` bytes in the ring and took `dst` returned -/
  | returned (len found : Nat) (dst : Text) (ret : Int)

def pipeStep (s : PipeSys) : PipeOp → PipeEvent × PipeSys
  | .writeEnter t src =>
    match s.call t with
    | .idle =>
      if s.pipe.nrd = 0 then (.refused (kpzErr .pipe), s)
      else (.silent, { s with call := update s.call t (.writing src) })
    | _ => (.silent, s)
  | .writeBody t =>
    match s.call t with
    | .writing src =>
      let (put, p) := pipeWriteLoop s.pipe 0 src
      (.wrote src s.pipe.len put (pipeWriteRet put), { pipe := p, call := update s.call t .idle })
    | _ => (.silent, s)
  | .readBody t len =>
    match s.call t with
    | .idle =>
      let (dst, p) := pipeReadLoop s.pipe [] len
      (.took dst, { pipe := p, call := update s.call t (.reading len s.pipe.len dst) })
    | _ => (.silent, s)
  | .readReturn t =>
    match s.call t with
    | .reading len found dst =>
      (.returned len found dst (pipeReadRet dst.length s.pipe.nwr), { s with call := update s.call t .idle })
    | _ => (.silent, s)
  | .ends nrd nwr => (.silent, { s with pipe := { s.pipe with nrd := nrd, nwr := nwr } })

/-! ## 2. The two loops move bytes at the two ends of the queue -/

def Pipe.ring (p : Pipe) : Ring UInt8 := ⟨p.buf, p.rd, p.wr, p.len⟩

def Pipe.queue (p : Pipe) : Text := p.ring.queue pipeSz

def Pipe.Wf (p : Pipe) : Prop := p.ring.Wf pipeSz

theorem mask_eq (x : Nat) : x &&& (pipeSz - 1) = x % pipeSz := Nat.and_two_pow_sub_one_eq_mod x 12

theorem Pipe.queue_length (p : Pipe) : p.queue.length = p.len := Ring.queue_length

theorem Pipe.fresh_wf : Pipe.fresh.Wf := ⟨by decide, by decide, by decide⟩

/-- **`pipe_read` takes the oldest bytes**, as many as there are and as it may. -/
theorem pipeReadLoop_spec (left : Nat) : ∀ (p : Pipe) (dst : Text), p.Wf →
    ∃ got p', pipeReadLoop p dst left = (dst ++ got, p') ∧ p'.Wf ∧ p.queue = got ++ p'.queue ∧
      got.length = min left p.len := by
  induction left with
  | zero =>
    intro p dst h
    exact ⟨[], p, by simp [pipeReadLoop], h, rfl, by simp⟩
  | succ left ih =>
    intro p dst h
    rw [pipeReadLoop]
    split
    · rename_i hl
      obtain ⟨q, hq⟩ : ∃ q : Pipe, q = { p with rd := (p.rd + 1) &&& (pipeSz - 1), len := p.len - 1 } :=
        ⟨_, rfl⟩
      have hr : q.ring = p.ring.pop pipeSz := by rw [hq, Pipe.ring, Ring.pop, mask_eq]; rfl
      have hw : q.Wf := by rw [Pipe.Wf, hr]; exact Ring.Wf.pop h hl
      have hqu : p.queue = p.buf p.rd :: q.queue := by
        rw [Pipe.queue, Pipe.queue, hr]; exact Ring.queue_pop h hl
      have hlen : q.len = p.len - 1 := by rw [hq]
      rw [← hq]
      obtain ⟨got, p', he, hw', hg, hn⟩ := ih q (dst ++ [p.buf p.rd]) hw
      grind
    · rename_i hl
      exact ⟨[], p, by simp, h, rfl, by simp; omega⟩

theorem pipeWriteLoop_spec (src : Text) : ∀ (p : Pipe) (put : Nat), p.Wf →
    ∃ k p', pipeWriteLoop p put src = (put + k, p') ∧ p'.Wf ∧ p'.queue = p.queue ++ src.take k ∧
      k = min src.length (pipeSz - p.len) := by
  induction src with
  | nil => grind [pipeWriteLoop]
  | cons b src ih =>
    intro p put h
    rw [pipeWriteLoop]
    split
    · rename_i hl
      obtain ⟨q, hq⟩ : ∃ q : Pipe, q = { p with
          buf := update p.buf p.wr b, wr := (p.wr + 1) &&& (pipeSz - 1), len := p.len + 1 } := ⟨_, rfl⟩
      have hr : q.ring = p.ring.push pipeSz b := by rw [hq, Pipe.ring, Ring.push, mask_eq]; rfl
      have hw : q.Wf := by rw [Pipe.Wf, hr]; exact Ring.Wf.push h hl b
      have hqu : q.queue = p.queue ++ [b] := by
        rw [Pipe.queue, Pipe.queue, hr]; exact Ring.queue_push h hl b
      have hlen : q.len = p.len + 1 := by rw [hq]
      rw [← hq]
      obtain ⟨k, p', he, hw', hg, hn⟩ := ih q (put + 1) hw
      refine ⟨k + 1, p', by rw [he, Nat.add_assoc, Nat.add_comm 1], hw', ?_, ?_⟩
      · rw [hg, hqu, append_assoc, take_succ_cons, singleton_append]
      grind
    · rename_i hl
      exact ⟨0, p, rfl, h, by simp, by simp; omega⟩

/-! ## 3. Every interleaving of reads and writes is first in, first out -/

/-- The bytes a step put into the ring. -/
def PipeEvent.written : PipeEvent → Text
  | .wrote src _ put _ => src.take put
  | _ => []

/-- The bytes a step took out of the ring. -/
def PipeEvent.taken : PipeEvent → Text
  | .took dst => dst
  | _ => []

/-- All bytes accepted by writes, in the order of the lock. -/
def written : Log PipeOp PipeEvent → Text
  | [] => []
  | e :: h => written h ++ e.2.written

/-- All bytes taken by reads, in the order of the lock. -/
def taken : Log PipeOp PipeEvent → Text
  | [] => []
  | e :: h => taken h ++ e.2.taken

/-- **What a return value says**: a positive one counts the bytes moved; `EAGAIN`, and 0 from a
    read, say that nothing was moved, with the ring full or empty or no byte asked for. A read
    returns what it took under the lock. -/
def PipeEvent.Exact (h : Log PipeOp PipeEvent) : PipeEvent → Prop
  | .wrote src found put ret => put ≤ src.length ∧ (0 < ret → ret = put) ∧
      (ret = kpzErr .again → put = 0 ∧ (found = pipeSz ∨ src = []))
  | .returned len found dst ret => (∃ t, (.readBody t len, .took dst) ∈ h) ∧
      (0 < ret → ret = dst.length) ∧
      (ret = kpzErr .again ∨ ret = 0 → dst = [] ∧ (found = 0 ∨ len = 0))
  | .refused ret => ret < 0
  | _ => True

theorem PipeEvent.Exact.cons {h : Log PipeOp PipeEvent} {e : PipeEvent} (he : e.Exact h)
    (x : PipeOp × PipeEvent) : e.Exact (x :: h) := by
  cases e with
  | returned len found dst ret =>
    obtain ⟨⟨t, ht⟩, hrest⟩ := he
    exact ⟨⟨t, mem_cons_of_mem _ ht⟩, hrest⟩
  | _ => exact he

theorem pipeReadRet_exact (got : Nat) (nwr : Int) : (0 < pipeReadRet got nwr → pipeReadRet got nwr = got) ∧
    (pipeReadRet got nwr = kpzErr .again ∨ pipeReadRet got nwr = 0 → got = 0) := by
  have := kpzErr_neg .again
  grind [pipeReadRet]

theorem pipeWriteRet_exact (put : Nat) : (0 < pipeWriteRet put → pipeWriteRet put = put) ∧
    (pipeWriteRet put = kpzErr .again → put = 0) := by
  have := kpzErr_neg .again
  grind [pipeWriteRet]

/-- **The pipe refines a queue**: what was written is what was taken and then what the ring holds. -/
structure Fifo (h : Log PipeOp PipeEvent) (s : PipeSys) : Prop where
  wf : s.pipe.Wf
  queue : written h = taken h ++ s.pipe.queue
  reading : ∀ t len found dst, s.call t = .reading len found dst →
    dst.length = min len found ∧ (.readBody t len, .took dst) ∈ h
  exact_ : ∀ e ∈ h, e.2.Exact h

section Step

variable {h : Log PipeOp PipeEvent} {s : PipeSys}

theorem Fifo.start : Fifo [] .start where
  wf := Pipe.fresh_wf
  queue := rfl
  reading := fun _ _ _ _ h => nomatch h
  exact_ := fun _ h => nomatch h

theorem Fifo.keep (hf : Fifo h s) (op : PipeOp) {e : PipeEvent} {s' : PipeSys}
    (hw : e.written = []) (ht : e.taken = []) (hp : s'.pipe.ring = s.pipe.ring)
    (hc : ∀ t len found dst, s'.call t = .reading len found dst → s.call t = .reading len found dst)
    (he : e.Exact h) : Fifo ((op, e) :: h) s' where
  wf := by rw [Pipe.Wf, hp]; exact hf.wf
  queue := by
    change written h ++ e.written = taken h ++ e.taken ++ s'.pipe.ring.queue pipeSz
    rw [hw, ht, hp, append_nil, append_nil]
    exact hf.queue
  reading := fun t len found dst h' =>
    ⟨(hf.reading t len found dst (hc t len found dst h')).1,
      mem_cons_of_mem _ (hf.reading t len found dst (hc t len found dst h')).2⟩
  exact_ := by
    intro x hx
    rcases mem_cons.mp hx with rfl | hx
    · exact he.cons _
    · exact (hf.exact_ x hx).cons _

theorem reading_of_update {call : Nat → PipeCall} {t t' : Nat} {c : PipeCall} {len found : Nat}
    {dst : Text} (hc : ∀ l f d, c ≠ .reading l f d)
    (h' : update call t c t' = .reading len found dst) : call t' = .reading len found dst := by grind

theorem Fifo.write (hf : Fifo h s) {t : Nat} {src : Text} (hc : s.call t = .writing src) :
    Fifo ((.writeBody t, (pipeStep s (.writeBody t)).1) :: h) (pipeStep s (.writeBody t)).2 := by
  obtain ⟨k, p', he, hw, hq, hk⟩ := pipeWriteLoop_spec src s.pipe 0 hf.wf
  rw [Nat.zero_add] at he
  simp only [pipeStep, hc, he]
  refine ⟨hw, ?_, fun t' len found dst h' => ?_, fun x hx => ?_⟩
  · change written h ++ src.take k = taken h ++ [] ++ p'.queue
    grind [hf.queue]
  · grind [hf.reading]
  · rcases mem_cons.mp hx with rfl | hx
    · refine ⟨by omega, (pipeWriteRet_exact k).1, fun ha => ?_⟩
      have hk0 := (pipeWriteRet_exact k).2 ha
      have hle : s.pipe.len ≤ pipeSz := hf.wf.len_le
      grind
    · exact (hf.exact_ x hx).cons _

theorem Fifo.read (hf : Fifo h s) {t : Nat} (len : Nat) (hc : s.call t = .idle) :
    Fifo ((.readBody t len, (pipeStep s (.readBody t len)).1) :: h) (pipeStep s (.readBody t len)).2 := by
  obtain ⟨got, p', he, hw, hq, hn⟩ := pipeReadLoop_spec len s.pipe [] hf.wf
  rw [nil_append] at he
  simp only [pipeStep, hc, he]
  refine ⟨hw, ?_, fun t' len' found dst h' => ?_, fun x hx => ?_⟩
  · change written h ++ [] = taken h ++ got ++ p'.queue
    grind [hf.queue]
  · change update s.call t (.reading len s.pipe.len got) t' = _ at h'
    by_cases ht : t' = t
    · grind
    grind [hf.reading]
  · rcases mem_cons.mp hx with rfl | hx
    · trivial
    · exact (hf.exact_ x hx).cons _

theorem Fifo.ret (hf : Fifo h s) {t len found : Nat} {dst : Text}
    (hc : s.call t = .reading len found dst) :
    Fifo ((.readReturn t, (pipeStep s (.readReturn t)).1) :: h) (pipeStep s (.readReturn t)).2 := by
  obtain ⟨hlen, hmem⟩ := hf.reading t len found dst hc
  simp only [pipeStep, hc]
  refine hf.keep _ rfl rfl rfl (fun _ _ _ _ => reading_of_update fun _ _ _ => nofun)
    ⟨⟨t, hmem⟩, (pipeReadRet_exact _ _).1, fun ha => ?_⟩
  have h0 := (pipeReadRet_exact _ _).2 ha
  grind

theorem Fifo.step (hf : Fifo h s) (op : PipeOp) : Fifo ((op, (pipeStep s op).1) :: h) (pipeStep s op).2 := by
  have stay : Fifo ((op, .silent) :: h) s := hf.keep op rfl rfl rfl (fun _ _ _ _ => id) trivial
  cases op with
  | writeEnter t src =>
    cases hc : s.call t with
    | idle =>
      by_cases hn : s.pipe.nrd = 0
      · simp only [pipeStep, hc, hn, if_true]
        exact hf.keep _ rfl rfl rfl (fun _ _ _ _ => id) (kpzErr_neg .pipe)
      · simp only [pipeStep, hc, hn, if_false]
        exact hf.keep _ rfl rfl rfl (fun _ _ _ _ => reading_of_update fun _ _ _ => nofun) trivial
    | _ => simp only [pipeStep, hc]; exact stay
  | writeBody t =>
    cases hc : s.call t with
    | writing src => exact hf.write hc
    | _ => simp only [pipeStep, hc]; exact stay
  | readBody t len =>
    cases hc : s.call t with
    | idle => exact hf.read len hc
    | _ => simp only [pipeStep, hc]; exact stay
  | readReturn t =>
    cases hc : s.call t with
    | reading len found dst => exact hf.ret hc
    | _ => simp only [pipeStep, hc]; exact stay
  | ends nrd nwr => exact hf.keep _ rfl rfl rfl (fun _ _ _ _ => id) trivial

end Step

/-- **A pipe is a bounded first-in, first-out queue** in every interleaving of its callers. -/
theorem pipe_fifo {h : Log PipeOp PipeEvent} {s : PipeSys} (hr : Reach anyInput pipeStep .start h s) :
    taken h <+: written h ∧ (written h).length = (taken h).length + s.pipe.len ∧
      s.pipe.len ≤ pipeSz ∧ ∀ e ∈ h, e.2.Exact h := by
  have hf : Fifo h s := hr.inv Fifo.start fun _ _ op hf _ => hf.step op
  refine ⟨⟨_, hf.queue.symm⟩, ?_, hf.wf.len_le, hf.exact_⟩
  rw [hf.queue, length_append, Pipe.queue_length]

/-- Two callers: one writes three bytes between the other's reads of none and of two. -/
def pipeTwoCallers : List PipeOp :=
  [.readBody 0 4, .writeEnter 1 [7, 8, 9], .readReturn 0, .writeBody 1, .readBody 0 2, .readReturn 0]

theorem pipe_fifo_two_callers : ∃ h s, Reach anyInput pipeStep .start h s ∧
    written h = [7, 8, 9] ∧ taken h = [7, 8] ∧ taken h <+: written h ∧ s.pipe.len = 1 := by
  have hr : Reach anyInput pipeStep .start _ _ :=
    Reach.runLog pipeTwoCallers (x := ([], .start)) .start
  exact ⟨_, _, hr, by decide, by decide, (pipe_fifo hr).1, by decide⟩

/-! ## 4. Closing the two last ends at once -/

/-- The two ends of a pipe; each processor closes one. -/
inductive PipeEnd where
  | rd | wr
  deriving DecidableEq, Repr

def PipeEnd.other : PipeEnd → PipeEnd
  | .rd => .wr
  | .wr => .rd

/-- What a closer does next: the decrement of `kpz_fd_put`, the decrement, the load and the `kfree`
    of `pipe_rd_close` or `pipe_wr_close`, the `kfree` of the open file. -/
inductive CloseAt where
  | put | dec | load | free | freeFile | done
  deriving DecidableEq, Repr

structure CloseSys where
  /-- `p->nrd` and `p->nwr` -/
  count : PipeEnd → Int
  /-- the `refcount` of the open file of each end -/
  ref : PipeEnd → Int
  pos : PipeEnd → CloseAt

/-- One slot holds each end, and no end was closed yet. -/
def CloseSys.start : CloseSys where
  count := fun _ => 1
  ref := fun _ => 1
  pos := fun _ => .put

/-- One step of the processor that closes the end `e`. `kfree` writes no counter: it links the
    object's first word into a free list. -/
def closeNext (s : CloseSys) (e : PipeEnd) : CloseSys :=
  match s.pos e with
  | .put => { s with
      ref := update s.ref e (s.ref e - 1)
      pos := update s.pos e (if s.ref e - 1 = 0 then .dec else .done) }
  | .dec => { s with
      count := update s.count e (s.count e - 1)
      pos := update s.pos e (if s.count e - 1 = 0 then .load else .freeFile) }
  | .load => { s with pos := update s.pos e (if s.count e.other = 0 then .free else .freeFile) }
  | .free => { s with pos := update s.pos e .freeFile }
  | .freeFile => { s with pos := update s.pos e .done }
  | .done => s

/-- The log of a run shows the state before each step. -/
def closeStep (s : CloseSys) (e : PipeEnd) : CloseSys × CloseSys := (s, closeNext s e)

/-- The step passes the pipe to `kfree`. -/
def freesPipe (x : PipeEnd × CloseSys) : Bool := x.2.pos x.1 = .free

/-- The step drops an end while the other closer is between its decrement and its load. -/
def dropsBetween (x : PipeEnd × CloseSys) : Bool :=
  x.2.pos x.1 = .dec ∧ x.2.pos x.1.other = .load

/-- **The pipe is freed exactly once, after both ends were closed.** -/
def FreedOnce (h : List (PipeEnd × CloseSys)) : Prop :=
  h.countP freesPipe = 1 ∧ ∀ x ∈ h, freesPipe x → ∀ e, x.2.count e = 0

/-- The end is closed. -/
def CloseAt.past : CloseAt → Bool
  | .put | .dec => false
  | _ => true

/-- A closer that will still free the pipe, once both ends are closed. -/
def CloseAt.owes : CloseAt → Nat
  | .load | .free => 1
  | _ => 0

@[simp] theorem PipeEnd.other_other (e : PipeEnd) : e.other.other = e := by cases e <;> rfl

theorem PipeEnd.other_ne (e : PipeEnd) : e.other ≠ e := by cases e <;> decide

theorem PipeEnd.eq_or_other (e e' : PipeEnd) : e' = e ∨ e' = e.other := by
  cases e <;> cases e' <;> decide

/-- **What both closers keep**: before both ends are closed nobody frees; afterwards the frees made
    and owed are one, and one more if an end was dropped in between. -/
structure Closing (h : List (PipeEnd × CloseSys)) (s : CloseSys) : Prop where
  count_eq : ∀ e, s.count e = if (s.pos e).past then 0 else 1
  ref_eq : ∀ e, s.pos e = .put → s.ref e = 1
  early : ∀ e, (s.pos e).past = false →
    h.countP freesPipe = 0 ∧ h.any dropsBetween = false ∧ s.pos e.other ≠ .free
  late : ∀ e, (s.pos e).past = true → (s.pos e.other).past = true →
    h.countP freesPipe + (s.pos e).owes + (s.pos e.other).owes = 1 + (h.any dropsBetween).toNat
  after : ∀ x ∈ h, freesPipe x → ∀ e, x.2.count e = 0

section Step

variable {h : List (PipeEnd × CloseSys)} {s : CloseSys} {e : PipeEnd}

theorem Closing.start : Closing [] .start where
  count_eq := fun _ => rfl
  ref_eq := fun _ _ => rfl
  early := fun _ _ => ⟨rfl, rfl, nofun⟩
  late := fun _ h => nomatch h
  after := fun _ h => nomatch h

/-- A closer moves on without freeing or dropping, to a place that owes as much. -/
theorem Closing.move (hs : Closing h s) {c : CloseAt} {s' : CloseSys} (hcount : s'.count = s.count)
    (hpos : s'.pos = update s.pos e c) (href : s'.ref e.other = s.ref e.other) (hput : c ≠ .put)
    (hpast : c.past = (s.pos e).past) (howes : (s.pos e.other).past = true → c.owes = (s.pos e).owes)
    (hfree : (s.pos e.other).past = false → c ≠ .free)
    (hf : s.pos e ≠ .free) (hd : s.pos e ≠ .dec) : Closing ((e, s) :: h) s' := by
  have hnf : freesPipe (e, s) = false := decide_eq_false hf
  have hnd : dropsBetween (e, s) = false := decide_eq_false fun h => hd h.1
  have hself : s'.pos e = c := by rw [hpos, update_self]
  have hoth : s'.pos e.other = s.pos e.other := by rw [hpos, update_of_ne e.other_ne]
  refine ⟨fun e' => ?_, fun e' h' => ?_, fun e' h' => ?_, fun e' h1 h2 => ?_, fun x hx hfx => ?_⟩
  · rw [hcount, hs.count_eq e']
    rcases e.eq_or_other e' with rfl | rfl
    · rw [hself, hpast]
    · rw [hoth]
  · rcases e.eq_or_other e' with rfl | rfl
    · rw [hself] at h'
      exact absurd h' hput
    grind [hs.ref_eq]
  · rw [countP_cons_of_neg (by rw [hnf]; decide), any_cons, hnd, Bool.false_or]
    rcases e.eq_or_other e' with rfl | rfl
    · grind [hs.early]
    grind [hs.early, PipeEnd.other_other]
  · rw [countP_cons_of_neg (by rw [hnf]; decide), any_cons, hnd, Bool.false_or]
    rcases e.eq_or_other e' with rfl | rfl
    · grind [hs.late]
    grind [PipeEnd.other_other, hs.late]
  grind [hs.after]

theorem Closing.drop (hs : Closing h s) (hp : s.pos e = .dec) : Closing ((e, s) :: h) (closeNext s e) := by
  have hpast : (s.pos e).past = false := by rw [hp]; rfl
  obtain ⟨hnone, hnod, hnfree⟩ := hs.early e hpast
  have hc : s.count e = 1 := by rw [hs.count_eq e, hpast]; rfl
  have hnext : closeNext s e =
      { s with count := update s.count e 0, pos := update s.pos e .load } := by
    simp only [closeNext, hp, hc, sub_self, if_true]
  have hnf : freesPipe (e, s) = false := decide_eq_false (by rw [hp]; decide)
  have hcnt : ((e, s) :: h).countP freesPipe = 0 := by
    rw [countP_cons_of_neg (by rw [hnf]; decide), hnone]
  have hany : ((e, s) :: h).any dropsBetween = decide (s.pos e.other = .load) := by
    rw [any_cons, hnod, Bool.or_false, dropsBetween]
    exact decide_eq_decide.mpr (and_iff_right hp)
  rw [hnext]
  -- the other closer has not freed: it owes a free exactly if it is between its two steps
  have howes : (s.pos e.other).past = true →
      (s.pos e.other).owes = (decide (s.pos e.other = .load)).toNat := by
    intro h
    cases ho : s.pos e.other <;> simp_all [CloseAt.owes]
  refine ⟨fun e' => ?_, fun e' h' => ?_, fun e' h' => ?_, fun e' h1 h2 => ?_, fun x hx hfx => ?_⟩
  · rcases e.eq_or_other e' with rfl | rfl
    · simp [CloseAt.past]
    · simp only [update_of_ne e.other_ne]
      exact hs.count_eq _
  · grind [hs.ref_eq]
  · rcases e.eq_or_other e' with rfl | rfl
    · simp [CloseAt.past] at h'
    · simp only [update_of_ne e.other_ne] at h'
      refine ⟨hcnt, ?_, by simp⟩
      rw [hany]
      exact decide_eq_false fun h => by rw [h] at h'; exact absurd h' (by decide)
  · rw [hcnt, hany]
    rcases e.eq_or_other e' with rfl | rfl
    · simp only [update_self, update_of_ne e'.other_ne] at h2 ⊢
      rw [howes h2]
      rfl
    · simp only [PipeEnd.other_other, update_self, update_of_ne e.other_ne] at h1 ⊢
      rw [howes h1, CloseAt.owes]
      omega
  grind

theorem Closing.free (hs : Closing h s) (hp : s.pos e = .free) : Closing ((e, s) :: h) (closeNext s e) := by
  have hpast : (s.pos e).past = true := by rw [hp]; rfl
  have hopast : (s.pos e.other).past = true := by
    by_contra hn
    have := (hs.early e.other (by simpa using hn)).2.2
    rw [PipeEnd.other_other] at this
    exact this hp
  have hnext : closeNext s e = { s with pos := update s.pos e .freeFile } := by
    simp only [closeNext, hp]
  have hyf : freesPipe (e, s) = true := decide_eq_true hp
  have hnd : dropsBetween (e, s) = false :=
    decide_eq_false fun h => by rw [hp] at h; exact absurd h.1 (by decide)
  have hlate := hs.late e hpast hopast
  rw [hp, CloseAt.owes] at hlate
  rw [hnext]
  refine ⟨fun e' => ?_, fun e' h' => ?_, fun e' h' => ?_, fun e' _ _ => ?_, fun x hx hfx => ?_⟩
  · grind [hs.count_eq, CloseAt.past]
  · grind [hs.ref_eq]
  · rcases e.eq_or_other e' with rfl | rfl
    · simp [CloseAt.past] at h'
    · simp only [update_of_ne e.other_ne, hopast] at h'
      exact absurd h' (by decide)
  · rw [countP_cons_of_pos hyf, any_cons, hnd, Bool.false_or]
    rcases e.eq_or_other e' with rfl | rfl
    · simp only [update_self, update_of_ne e'.other_ne, CloseAt.owes] at hlate ⊢
      omega
    · simp only [PipeEnd.other_other, update_self, update_of_ne e.other_ne, CloseAt.owes] at hlate ⊢
      omega
  · rcases mem_cons.mp hx with rfl | hx
    · intro e'
      rw [hs.count_eq e']
      rcases e.eq_or_other e' with rfl | rfl
      · rw [hpast]; rfl
      · rw [hopast]; rfl
    · exact hs.after x hx hfx

theorem Closing.step (hs : Closing h s) (e : PipeEnd) : Closing ((e, s) :: h) (closeNext s e) := by
  cases hp : s.pos e with
  | put =>
    have hn : closeNext s e = { s with ref := update s.ref e 0, pos := update s.pos e .dec } := by
      simp only [closeNext, hp, hs.ref_eq e hp, sub_self, if_true]
    rw [hn]
    exact hs.move rfl rfl (update_of_ne e.other_ne _ _) nofun (by rw [hp]; rfl)
      (fun _ => by rw [hp]; rfl) (fun _ => nofun) (by rw [hp]; nofun) (by rw [hp]; nofun)
  | dec => exact hs.drop hp
  | load =>
    cases ho : (s.pos e.other).past with
    | true =>
      have hc : s.count e.other = 0 := by rw [hs.count_eq, ho]; rfl
      have hn : closeNext s e = { s with pos := update s.pos e .free } := by
        simp only [closeNext, hp, hc, if_true]
      rw [hn]
      exact hs.move rfl rfl rfl nofun (by rw [hp]; rfl) (fun _ => by rw [hp]; rfl)
        (fun h => by rw [ho] at h; exact absurd h (by decide)) (by rw [hp]; nofun) (by rw [hp]; nofun)
    | false =>
      have hc : s.count e.other ≠ 0 := by rw [hs.count_eq, ho]; decide
      have hn : closeNext s e = { s with pos := update s.pos e .freeFile } := by
        simp only [closeNext, hp, if_neg hc]
      rw [hn]
      exact hs.move rfl rfl rfl nofun (by rw [hp]; rfl)
        (fun h => by rw [ho] at h; exact absurd h (by decide)) (fun _ => nofun)
        (by rw [hp]; nofun) (by rw [hp]; nofun)
  | free => exact hs.free hp
  | freeFile =>
    have hn : closeNext s e = { s with pos := update s.pos e .done } := by simp only [closeNext, hp]
    rw [hn]
    exact hs.move rfl rfl rfl nofun (by rw [hp]; rfl) (fun _ => by rw [hp]; rfl) (fun _ => nofun)
      (by rw [hp]; nofun) (by rw [hp]; nofun)
  | done =>
    have hn : closeNext s e = s := by simp only [closeNext, hp]
    rw [hn]
    exact hs.move rfl (by rw [update_eq_self]) rfl (by rw [hp]; nofun) rfl (fun _ => rfl)
      (fun _ => by rw [hp]; nofun) (by rw [hp]; nofun) (by rw [hp]; nofun)

end Step

/-- **Two closers free the pipe once exactly if neither drops its end between the other's decrement
    and the other's load.** -/
theorem pipe_freed_once_iff {h : List (PipeEnd × CloseSys)} {s : CloseSys}
    (hr : Reach anyInput closeStep .start h s) (hd : ∀ e, s.pos e = .done) :
    FreedOnce h ↔ ∀ x ∈ h, dropsBetween x = false := by
  have hc : Closing h s := hr.inv Closing.start fun _ _ e hc _ => hc.step e
  have hl := hc.late .rd (by rw [hd]; rfl) (by rw [hd]; rfl)
  rw [hd, hd] at hl
  change h.countP freesPipe + 0 + 0 = _ at hl
  have hany : (∀ x ∈ h, dropsBetween x = false) ↔ h.any dropsBetween = false := by
    rw [any_eq_false]
    exact forall₂_congr fun x _ => by simp
  rw [hany, FreedOnce, and_iff_left hc.after]
  grind

/-- The write end is closed after the read end's closer has looked. -/
def closeApart : List PipeEnd := [.rd, .rd, .rd, .rd, .wr, .wr, .wr, .wr, .wr]

theorem pipe_freed_once_apart : FreedOnce (runLog closeStep ([], .start) closeApart).1 := by
  refine (pipe_freed_once_iff (Reach.runLog closeApart .start) fun e => ?_).mpr (by decide)
  cases e <;> rfl

/-- Both ends are dropped, then both closers look. -/
def closeTogether : List PipeEnd :=
  [.rd, .wr, .rd, .wr, .rd, .wr, .rd, .wr, .rd, .wr]

/-- **The pipe is passed to `kfree` twice** when both closers decrement before either loads. -/
theorem pipe_freed_twice : Reach anyInput closeStep .start
      (runLog closeStep ([], .start) closeTogether).1 (runLog closeStep ([], .start) closeTogether).2 ∧
    (∀ e, (runLog closeStep ([], .start) closeTogether).2.pos e = .done) ∧
    (runLog closeStep ([], .start) closeTogether).1.countP freesPipe = 2 :=
  ⟨Reach.runLog closeTogether .start, by intro e; cases e <;> rfl, rfl⟩

end Kobalt.Kapi

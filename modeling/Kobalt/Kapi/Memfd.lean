/-
  Subject: MEMORY FILES (`memfd_read`, `memfd_write` and `memfd_seek` of `kapi/src/kposixz_adv.c`):
  a buffer that grows with slack, and that it is a byte array with zeros in its gaps.

  A call that goes through the null pointer answers `none`.
-/
import Kobalt.Kapi.Pipe
import Kobalt.Tmpfs.File

namespace Kobalt.Kapi

open Function Tmpfs List

/-- `kpz_memfd_t`, and the position of each open file that shares it. -/
structure Memfd where
  data : Option Bytes
  size : Nat
  cap : Nat
  pos : Nat → Nat

/-- What a call returns, and what it stores in the caller's buffer. -/
abbrev MemfdAns := Option (Int × Text)

def memfdRead (m : Memfd) (f len : Nat) : MemfdAns × Memfd :=
  if m.pos f ≥ m.size then (some (0, []), m) else
    let avail := m.size - m.pos f
    let n := if len < avail then len else avail
    match m.data with
    | none => (none, m)
    | some d => (some (n, (List.range n).map fun i => d (m.pos f + i)), { m with pos := update m.pos f (m.pos f + n) })

/-- The larger buffer of `memfd_write`; `fresh` is what `kmalloc` answers. -/
def Memfd.grow (m : Memfd) (stop : Nat) (fresh : Option Bytes) : Option Memfd :=
  if stop > m.cap then
    let newcap := (stop + 4096) % 2 ^ 64
    fresh.map fun nb =>
      let nb := match m.data with
        | some d => fill nb 0 m.size d
        | none => nb
      { m with data := some (fill nb m.size (newcap - m.size) zeroBytes), cap := newcap }
  else some m

def memfdWrite (m : Memfd) (f : Nat) (buf : Text) (fresh : Option Bytes) : MemfdAns × Memfd :=
  let stop := (m.pos f + buf.length) % 2 ^ 64
  match m.grow stop fresh with
  | none => (some (kpzErr .nomem, []), m)
  | some g => match g.data with
    | none => (none, g)
    | some d => (some (buf.length, []), { g with
        data := some (fill d (m.pos f) buf.length (buf.getD · 0))
        size := if stop > m.size then stop else m.size
        pos := update m.pos f (m.pos f + buf.length) })

/-- Where `KPZ_SEEK_SET`, `KPZ_SEEK_CUR` and `KPZ_SEEK_END` count from. -/
def seekBase (size pos : Nat) : Nat → Option Nat
  | 0 => some 0
  | 1 => some pos
  | 2 => some size
  | _ => none

def memfdSeek (m : Memfd) (f : Nat) (off : Int) (whence : Nat) : MemfdAns × Memfd :=
  match seekBase m.size (m.pos f) whence with
  | none => (some (kpzErr .inval, []), m)
  | some b =>
    let np := (b + off).bmod (2 ^ 64)
    if np < 0 then (some (kpzErr .inval, []), m) else (some (np, []), { m with pos := update m.pos f np.toNat })

inductive MemfdOp where
  | read (f len : Nat)
  | write (f : Nat) (buf : Text) (fresh : Option Bytes)
  | seek (f : Nat) (off : Int) (whence : Nat)

def memfdStep (m : Memfd) : MemfdOp → MemfdAns × Memfd
  | .read f len => memfdRead m f len
  | .write f buf fresh => memfdWrite m f buf fresh
  | .seek f off whence => memfdSeek m f off whence

/-- Writes are not empty, and no position comes near 2^63. -/
def MemfdAdmitted (m : Memfd) : MemfdOp → Prop
  | .read _ _ => True
  | .write f buf _ => buf ≠ [] ∧ m.pos f + buf.length + 4096 < 2 ^ 63
  | .seek f off whence => -2 ^ 63 ≤ off ∧ off < 2 ^ 63 ∧
    ∀ b, seekBase m.size (m.pos f) whence = some b → b + off + 4096 < 2 ^ 63

/-- `kpz_sys_memfd_create`. -/
def memfdCreate : Memfd := ⟨none, 0, 0, fun _ => 0⟩

/-! ## The byte array -/

structure ByteFile where
  bytes : Text
  pos : Nat → Nat

/-- **What a call is for**; a write may be refused for want of memory. -/
def byteStep (a : ByteFile) (refused : Bool) : MemfdOp → MemfdAns × ByteFile
  | .read f len =>
    let d := Sparse.read a.bytes (a.pos f) len
    (some (d.length, d), { a with pos := update a.pos f (a.pos f + d.length) })
  | .write f buf _ =>
    if refused then (some (kpzErr .nomem, []), a)
    else (some (buf.length, []), ⟨Sparse.write a.bytes (a.pos f) buf, update a.pos f (a.pos f + buf.length)⟩)
  | .seek f off whence => match seekBase a.bytes.length (a.pos f) whence with
    | none => (some (kpzErr .inval, []), a)
    | some b => if b + off < 0 then (some (kpzErr .inval, []), a)
      else (some (b + off, []), { a with pos := update a.pos f (b + off).toNat })

/-- A log whose answers are all the array's; a write is refused only where `kmalloc` fails. -/
inductive ByteRun : Log MemfdOp MemfdAns → ByteFile → Prop where
  | start : ByteRun [] ⟨[], fun _ => 0⟩
  | step (h : Log MemfdOp MemfdAns) (a : ByteFile) (op : MemfdOp) (refused : Bool) (hr : ByteRun h a)
      (hn : refused = true → ∃ f buf, op = .write f buf none) :
      ByteRun ((op, (byteStep a refused op).1) :: h) (byteStep a refused op).2

/-- **The buffer backs the array**, and zeros from its end to the capacity. -/
structure Backs (m : Memfd) (a : ByteFile) : Prop where
  size : m.size = a.bytes.length
  pos : m.pos = a.pos
  cap : m.size ≤ m.cap
  null : m.data = none → m.cap = 0
  bytes : ∀ d, m.data = some d → ∀ x < m.cap, d x = a.bytes.getD x 0

section Calls

variable {m : Memfd} {a : ByteFile} {f : Nat}

theorem memfdRead_backs (h : Backs m a) (len : Nat) :
    (memfdRead m f len).1 = (byteStep a false (.read f len)).1 ∧
      Backs (memfdRead m f len).2 (byteStep a false (.read f len)).2 := by
  unfold memfdRead byteStep
  by_cases hend : m.pos f ≥ m.size
  · have hnil : Sparse.read a.bytes (a.pos f) len = [] := by
      rw [Sparse.read, drop_eq_nil_of_le (by rw [← h.size, ← h.pos]; exact hend), take_nil]
    simp only [if_pos hend, hnil, length_nil, Nat.add_zero, update_eq_self, Nat.cast_zero, true_and]
    exact h
  · obtain ⟨d, hd⟩ : ∃ d, m.data = some d := by
      cases hd : m.data with
      | none => exact absurd (h.cap.trans (h.null hd).le) (by omega)
      | some d => exact ⟨d, rfl⟩
    obtain ⟨n, hn⟩ : ∃ n, n = if len < m.size - m.pos f then len else m.size - m.pos f := ⟨_, rfl⟩
    have hread : Sparse.read a.bytes (a.pos f) len = (List.range n).map fun i => d (m.pos f + i) := by
      have hle : a.pos f ≤ a.bytes.length := by
        rw [← h.size, ← h.pos]
        omega
      rw [Sparse.read_eq hle, ← h.size, ← h.pos,
        show (if m.pos f + len > m.size then m.size - m.pos f else len) = n by grind]
      refine map_congr_left fun i hi => ?_
      rw [h.bytes d hd]
      have := mem_range.1 hi
      have := h.cap
      grind
    simp only [if_neg hend, hd, hread, ← hn, length_map, length_range, true_and]
    exact ⟨h.size, by rw [h.pos], h.cap, fun he => (by cases he), fun e he => h.bytes e (hd.trans he)⟩

theorem Backs.grow (h : Backs m a) {stop : Nat} (h0 : 0 < stop) (hlt : stop + 4096 < 2 ^ 63) {fresh : Option Bytes}
    {g : Memfd} (hg : m.grow stop fresh = some g) :
    stop ≤ g.cap ∧ m.size ≤ g.cap ∧ ∃ d, g.data = some d ∧ ∀ x < g.cap, d x = a.bytes.getD x 0 := by
  have hcap := h.cap
  unfold Memfd.grow at hg
  by_cases hc : stop > m.cap
  · rw [if_pos hc, Nat.mod_eq_of_lt (by omega)] at hg
    obtain ⟨nb, -, rfl⟩ := Option.map_eq_some_iff.1 hg
    refine ⟨by simp, show m.size ≤ stop + 4096 by omega, _, rfl, fun x (hx : x < stop + 4096) => ?_⟩
    by_cases hs : x < m.size
    · rw [fill_of_not_mem (.inl hs)]
      cases hd : m.data with
      | none => exact absurd (h.null hd) (by omega)
      | some d => exact (fill_of_mem (Nat.zero_le x) (by omega)).trans (h.bytes d hd x (by omega))
    · rw [fill_of_mem (by omega) (by omega), getD_eq_default _ _ (by rw [← h.size]; omega)]
      rfl
  · rw [if_neg hc] at hg
    obtain rfl := Option.some.inj hg
    refine ⟨by omega, hcap, ?_⟩
    cases hd : m.data with
    | none => exact absurd (h.null hd) (by omega)
    | some d => exact ⟨d, rfl, h.bytes d hd⟩

theorem memfdWrite_backs (h : Backs m a) {buf : Text} (hbuf : buf ≠ [])
    (hlt : m.pos f + buf.length + 4096 < 2 ^ 63) (fresh : Option Bytes) :
    ∃ refused : Bool, (refused = true → fresh = none) ∧
      (memfdWrite m f buf fresh).1 = (byteStep a refused (.write f buf fresh)).1 ∧
      Backs (memfdWrite m f buf fresh).2 (byteStep a refused (.write f buf fresh)).2 := by
  have hpos := length_pos_iff.2 hbuf
  unfold memfdWrite
  simp only [Nat.mod_eq_of_lt (show m.pos f + buf.length < 2 ^ 64 by omega)]
  cases hg : m.grow (m.pos f + buf.length) fresh with
  | none =>
    refine ⟨true, fun _ => ?_, rfl, h⟩
    unfold Memfd.grow at hg
    split at hg
    · exact Option.map_eq_none_iff.1 hg
    · cases hg
  | some g =>
    obtain ⟨hstop, hsize, d, hd, hx⟩ := h.grow (by omega) hlt hg
    refine ⟨false, nofun, by simp only [hd]; rfl, ?_⟩
    simp only [hd, byteStep, Bool.false_eq_true, if_false]
    refine ⟨?_, by rw [h.pos], ?_, nofun, fun d' hd' x hlt => ?_⟩
    · rw [Sparse.write_length, h.size, h.pos]
    · show (if _ then _ else _) ≤ g.cap
      split <;> omega
    · obtain rfl := Option.some.inj hd'
      rw [Sparse.write_getD, h.pos]
      exact fill_congr (hx x hlt) _ _ _

theorem memfdSeek_backs (h : Backs m a) {off : Int} {whence : Nat} (ha : MemfdAdmitted m (.seek f off whence)) :
    (memfdSeek m f off whence).1 = (byteStep a false (.seek f off whence)).1 ∧
      Backs (memfdSeek m f off whence).2 (byteStep a false (.seek f off whence)).2 := by
  obtain ⟨hlo, -, hb⟩ := ha
  simp only [memfdSeek, byteStep, ← h.size, ← h.pos]
  cases hs : seekBase m.size (m.pos f) whence with
  | none => exact ⟨rfl, h⟩
  | some b =>
    have hlt := hb b hs
    have hbmod : (b + off).bmod (2 ^ 64) = b + off := Int.bmod_eq_of_le (by omega) (by omega)
    simp only [hbmod]
    split
    · exact ⟨rfl, h⟩
    · exact ⟨rfl, h.size, rfl, h.cap, h.null, h.bytes⟩

end Calls

/-- **A memory file is a byte array**: in every run of reads, non-empty writes and seeks by any number of
    open files, with `kmalloc` failing wherever it likes, the answers are the array's. -/
theorem memfd_byte_array (h : Log MemfdOp MemfdAns) (m : Memfd)
    (hr : Reach MemfdAdmitted memfdStep memfdCreate h m) : ∃ a, ByteRun h a ∧ Backs m a := by
  refine hr.inv (I := fun h m => ∃ a, ByteRun h a ∧ Backs m a) ?_ ?_
  · exact ⟨_, .start, rfl, rfl, Nat.le_refl _, fun _ => rfl, nofun⟩
  · rintro h m op ⟨a, hrun, hm⟩ hop
    obtain ⟨refused, hn, he, hh⟩ : ∃ refused : Bool, (refused = true → ∃ f buf, op = .write f buf none) ∧
        (memfdStep m op).1 = (byteStep a refused op).1 ∧ Backs (memfdStep m op).2 (byteStep a refused op).2 := by
      cases op with
      | read f len => exact ⟨false, nofun, memfdRead_backs hm len⟩
      | write f buf fresh =>
        obtain ⟨refused, hn, he⟩ := memfdWrite_backs hm hop.1 hop.2 fresh
        exact ⟨refused, fun hr => ⟨f, buf, by rw [hn hr]⟩, he⟩
      | seek f off whence => exact ⟨false, nofun, memfdSeek_backs hm hop⟩
    rw [he]
    exact ⟨_, .step h a op refused hrun hn, hh⟩

/-- A write behind a gap, and a read from the start through another file. -/
theorem memfd_byte_array_gap : ∃ a, ByteRun [(.read 1 9, some (3, [0, 0, 7])),
    (.write 0 [7] (some fun _ => 255), some (1, [])), (.seek 0 2 0, some (2, []))] a :=
  (memfd_byte_array _ _ (.step _ _ (MemfdOp.read 1 9) (.step _ _ (MemfdOp.write 0 [7] (some fun _ => 255))
    (.step _ _ (MemfdOp.seek 0 2 0) .start
      ⟨by decide, by decide, fun b hb => Option.some.inj (show some 0 = some b from hb) ▸ by decide⟩)
    ⟨by decide, by decide⟩) trivial)).imp fun _ h => h.1

end Kobalt.Kapi

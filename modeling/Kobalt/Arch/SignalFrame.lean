/-
  Subject: SIGNAL FRAMES (`arch/x86_64/signal_frame.c`): a pushed frame gives the registers back,
  and which frames of the user restore a state that is no more than the user's.
-/
import Kobalt.Lib.Bytes
import Mathlib.Data.BitVec

namespace Kobalt.Arch

/-- The registers of `pt_regs_t` that the frame holds in eight bytes each, in the order of `mcontext_t`. -/
inductive Reg where
  | r8 | r9 | r10 | r11 | r12 | r13 | r14 | r15 | rdi | rsi | rbp | rbx | rdx | rax | rcx | rsp | rip
  deriving DecidableEq

def Reg.all : List Reg :=
  [.r8, .r9, .r10, .r11, .r12, .r13, .r14, .r15, .rdi, .rsi, .rbp, .rbx, .rdx, .rax, .rcx, .rsp, .rip]

structure PtRegs where
  gpr : Reg → BitVec 64
  rflags : BitVec 64
  cs : BitVec 64
  ss : BitVec 64

/-- What `restore_mcontext` reads of `mcontext_t`. -/
structure Mcontext where
  gpr : Reg → BitVec 64
  rflags : BitVec 64
  cs : BitVec 16
  ss : BitVec 16

def fillMcontext (r : PtRegs) : Mcontext :=
  ⟨r.gpr, r.rflags, r.cs.setWidth 16, r.ss.setWidth 16⟩

def restoreMcontext (r : PtRegs) (mc : Mcontext) : PtRegs :=
  { r with
    gpr := mc.gpr
    rflags := mc.rflags &&& 0x3FFFF ||| 0x200
    cs := mc.cs.setWidth 64 ||| 3
    ss := mc.ss.setWidth 64 ||| 3 }

/-! ## 1. The frame in memory -/

/-- `sigframe_t` without its FPU state: the context starts behind five words, and the selectors `gs`
    and `fs` lie between the two that are read. -/
def Mcontext.bytes (mc : Mcontext) : Bytes :=
  let gprs : Bytes := fun i => leByte (mc.gpr (Reg.all.getD ((i - 40) / 8) .rip)).toNat ((i - 40) % 8)
  putLE (putLE (putLE (fill zeroBytes 40 136 fun i => gprs (40 + i)) 176 8 mc.rflags.toNat) 184 2 mc.cs.toNat) 190 2
    mc.ss.toNat

def Mcontext.read (b : Bytes) : Mcontext where
  gpr r := .ofNat 64 (leAt b (40 + 8 * Reg.all.idxOf r) 8)
  rflags := .ofNat 64 (leAt b 176 8)
  cs := .ofNat 16 (leAt b 184 2)
  ss := .ofNat 16 (leAt b 190 2)

/-- `sizeof(sigframe_t)`. -/
def sigframeSize : Nat := 232

/-- Memory from an address on; addresses have 64 bits. -/
def view (m : Bytes) (va : Nat) : Bytes := fun i => m ((va + i) % 2 ^ 64)

/-- `copy_to_user`, whose result is always 0. -/
def copyToUser (m : Bytes) (va n : Nat) (src : Bytes) : Bytes := fun x =>
  if (x + 2 ^ 64 - va) % 2 ^ 64 < n then src ((x + 2 ^ 64 - va) % 2 ^ 64) else m x

/-- **`sigframe_push`**: the address of the frame, the registers the handler starts with, and memory.
    `fpu` is `cur->fpu_state`, if there is one, and `xsave` is `g_xsave_size`. -/
def sigframePush (m : Bytes) (regs : PtRegs) (userRsp sig handler : BitVec 64) (fpu : Option Bytes)
    (xsave : BitVec 32) : Nat × PtRegs × Bytes :=
  let total := sigframeSize + (xsave.toNat + 63) / 64 * 64 % 2 ^ 32
  let va := (userRsp - 128 - .ofNat 64 total &&& ~~~15).toNat
  let m := copyToUser m va sigframeSize (fillMcontext regs).bytes
  let m := match fpu with
    | none => m
    | some f => copyToUser m ((va + sigframeSize) % 2 ^ 64) xsave.toNat f
  let ret := (va + 2 ^ 64 - 8) % 2 ^ 64
  let tramp : Text := [0x48, 0xc7, 0xc0, 0x0f, 0, 0, 0, 0x0f]
  let m := copyToUser m ret 8 fun i => tramp.getD i 0
  -- the ninth byte of the trampoline is the first of the frame
  let m := copyToUser m va 1 fun _ => 0x05
  let gpr : Reg → BitVec 64
    | .rip => handler
    | .rdi => sig
    | .rsi => 0
    | .rdx => .ofNat 64 va
    | .rsp => .ofNat 64 ret
    | r => regs.gpr r
  (va, { regs with gpr := gpr, rflags := regs.rflags &&& ~~~0x100 }, m)

/-- **`sigframe_restore`**, and the FPU state it leaves. -/
def sigframeRestore (m : Bytes) (va : Nat) (regs : PtRegs) (fpu : Option Bytes) (xsave : BitVec 32) :
    PtRegs × Option Bytes :=
  (restoreMcontext regs (.read (view m va)),
    fpu.map fun f => fill f 0 xsave.toNat (view m ((va + sigframeSize) % 2 ^ 64)))

/-! ## 2. The round trip -/

section Bytes

variable {m : Bytes} {va n i : Nat} {src : Bytes}

theorem view_copyToUser_of_lt (hva : va < 2 ^ 64) (hi : i < n) (hn : n ≤ 2 ^ 64) :
    view (copyToUser m va n src) va i = src i := by
  have h : ((va + i) % 2 ^ 64 + 2 ^ 64 - va) % 2 ^ 64 = i := by omega
  rw [view, copyToUser, h, if_pos hi]

theorem view_copyToUser_of_le {k : Nat} (hk : k < 2 ^ 64) (hi : i < 2 ^ 64)
    (h : n ≤ (i + 2 ^ 64 - k) % 2 ^ 64) : view (copyToUser m ((va + k) % 2 ^ 64) n src) va i = view m va i := by
  have he : ((va + i) % 2 ^ 64 + 2 ^ 64 - (va + k) % 2 ^ 64) % 2 ^ 64 = (i + 2 ^ 64 - k) % 2 ^ 64 := by omega
  rw [view, copyToUser, he, if_neg (Nat.not_lt.2 h), view]

end Bytes

theorem Mcontext.read_bytes (mc : Mcontext) {b : Bytes} (h : ∀ i, 40 ≤ i → i < 192 → b i = mc.bytes i) :
    Mcontext.read b = mc := by
  have hread : ∀ a n, 40 ≤ a → a + n ≤ 192 → leAt b a n = leAt mc.bytes a n := fun a n ha hn =>
    leAt_congr fun x hx hx' => h x (by omega) (by omega)
  have hgpr : ∀ r, leAt b (40 + 8 * Reg.all.idxOf r) 8 = (mc.gpr r).toNat := by
    intro r
    have hr : Reg.all.idxOf r < 17 ∧ Reg.all.getD (Reg.all.idxOf r) .rip = r := by cases r <;> decide
    rw [hread _ _ (by omega) (by omega), Mcontext.bytes, leAt_putLE_of_disjoint (by omega),
      leAt_putLE_of_disjoint (by omega), leAt_putLE_of_disjoint (by omega),
      leAt_leByte (v := (mc.gpr r).toNat) (i := 0) fun j hj => ?_, Nat.pow_zero, Nat.div_one]
    · exact Nat.mod_eq_of_lt (mc.gpr r).isLt
    · rw [fill_of_mem (by omega) (by omega)]
      simp only [show 40 + (40 + 8 * Reg.all.idxOf r + j - 40) - 40 = 8 * Reg.all.idxOf r + j by omega,
        show (8 * Reg.all.idxOf r + j) / 8 = Reg.all.idxOf r by omega, hr.2,
        show (8 * Reg.all.idxOf r + j) % 8 = 0 + j by omega]
  have hflags : leAt b 176 8 = mc.rflags.toNat := by
    rw [hread _ _ (by omega) (by omega), Mcontext.bytes, leAt_putLE_of_disjoint (by omega),
      leAt_putLE_of_disjoint (by omega), leAt_putLE_self mc.rflags.isLt]
  have hcs : leAt b 184 2 = mc.cs.toNat := by
    rw [hread _ _ (by omega) (by omega), Mcontext.bytes, leAt_putLE_of_disjoint (by omega),
      leAt_putLE_self mc.cs.isLt]
  have hss : leAt b 190 2 = mc.ss.toNat := by
    rw [hread _ _ (by omega) (by omega), Mcontext.bytes, leAt_putLE_self mc.ss.isLt]
  simp only [Mcontext.read, hgpr, hflags, hcs, hss, BitVec.ofNat_toNat, BitVec.setWidth_eq]

theorem restore_push (m : Bytes) (regs now : PtRegs) (userRsp sig handler : BitVec 64) (fpu fpu' : Option Bytes)
    (xsave : BitVec 32) {va : Nat} {regs' : PtRegs} {m' : Bytes}
    (h : sigframePush m regs userRsp sig handler fpu xsave = (va, regs', m')) :
    (sigframeRestore m' va now fpu' xsave).1 = restoreMcontext now (fillMcontext regs) := by
  have hx := xsave.isLt
  simp only [sigframePush, Prod.mk.injEq] at h
  obtain ⟨hva, -, hm⟩ := h
  have hlt : va < 2 ^ 64 := hva ▸ BitVec.isLt _
  rw [hva] at hm
  rw [sigframeRestore, Mcontext.read_bytes (fillMcontext regs)]
  intro i h40 h208
  rw [← hm]
  have hone : ∀ m src : Bytes, view (copyToUser m va 1 src) va i = view m va i := fun m src => by
    rw [view, copyToUser, if_neg (by omega), view]
  rw [hone, show va + 2 ^ 64 - 8 = va + (2 ^ 64 - 8) by omega,
    view_copyToUser_of_le (by decide) (by omega) (by omega)]
  have hframe : view (copyToUser m va sigframeSize (fillMcontext regs).bytes) va i = (fillMcontext regs).bytes i :=
    view_copyToUser_of_lt hlt (by unfold sigframeSize; omega) (by decide)
  cases fpu with
  | none => exact hframe
  | some f => rw [← hframe]; exact view_copyToUser_of_le (by decide) (by omega) (by unfold sigframeSize; omega)

/-! ## 3. Privilege -/

/-- No I/O privilege, neither virtual-8086 mode nor a nested task, interrupts on, and the user's selectors. -/
def Unprivileged (r : PtRegs) : Prop :=
  r.rflags &&& 0x3000 = 0 ∧ r.rflags &&& 0x20000 = 0 ∧ r.rflags &&& 0x4000 = 0 ∧ r.rflags &&& 0x200 = 0x200 ∧
    r.cs = 0x23 ∧ r.ss = 0x1b

/-- `CF`, `PF`, `AF`, `ZF`, `SF` and `OF`. -/
def arithFlags : BitVec 64 := 0x8d5

theorem or_three {x : BitVec 64} (h3 : x &&& 3 = 3) (hx : x.toNat < 2 ^ 16) :
    (x.setWidth 16).setWidth 64 ||| 3 = x := by
  have hw : (x.setWidth 16).setWidth 64 = x := BitVec.eq_of_toNat_eq (by
    rw [BitVec.toNat_setWidth, BitVec.toNat_setWidth, Nat.mod_eq_of_lt hx, Nat.mod_eq_of_lt x.isLt])
  rw [hw, ← h3]
  ext i hi
  rw [BitVec.getElem_or, BitVec.getElem_and]
  cases x[i] <;> rfl

/-- **Which frames a signal return accepts without harm**: exactly those whose flags hold no I/O
    privilege, no nested task and no virtual-8086 mode and whose selectors are the user's, up to the
    lowest two bits. Nothing else is asked of a frame. A frame as it was pushed, from a state with
    privilege level 3, gives the registers, the selectors and the arithmetic flags back. -/
theorem sigreturn_unprivileged_iff (m : Bytes) (regs now : PtRegs) (fpu fpu' : Option Bytes) (xsave : BitVec 32) :
    (∀ va, Unprivileged (sigframeRestore m va now fpu xsave).1 ↔
      (Mcontext.read (view m va)).rflags &&& 0x27000 = 0 ∧
      (Mcontext.read (view m va)).cs.setWidth 64 ||| 3 = (0x23 : BitVec 64) ∧
      (Mcontext.read (view m va)).ss.setWidth 64 ||| 3 = (0x1b : BitVec 64)) ∧
    ∀ userRsp sig handler va regs' m', regs.cs &&& 3 = 3 → regs.cs.toNat < 2 ^ 16 → regs.ss &&& 3 = 3 →
      regs.ss.toNat < 2 ^ 16 → sigframePush m regs userRsp sig handler fpu xsave = (va, regs', m') →
      ∃ r, (sigframeRestore m' va now fpu' xsave).1 = r ∧ r.gpr = regs.gpr ∧ r.cs = regs.cs ∧ r.ss = regs.ss ∧
        r.rflags &&& arithFlags = regs.rflags &&& arithFlags := by
  have mask : ∀ x k : BitVec 64, 0x3FFFF &&& k = k → 0x200 &&& k = 0 → (x &&& 0x3FFFF ||| 0x200) &&& k = x &&& k := by
    intro x k hk h0
    rw [BitVec.and_or_distrib_right, BitVec.and_assoc, hk, h0]
    exact BitVec.or_zero
  refine ⟨fun va => ?_, fun userRsp sig handler va regs' m' hc hc' hs hs' h => ⟨_, rfl, ?_⟩⟩
  · generalize hmc : Mcontext.read (view m va) = mc
    have hsplit : mc.rflags &&& 0x27000 = 0 ↔
        mc.rflags &&& 0x3000 = 0 ∧ mc.rflags &&& 0x20000 = 0 ∧ mc.rflags &&& 0x4000 = 0 := by
      rw [show (0x27000 : BitVec 64) = 0x3000 ||| (0x20000 ||| 0x4000) from rfl, BitVec.and_or_distrib_left,
        BitVec.and_or_distrib_left]
      exact BitVec.or_eq_zero_iff.trans (and_congr_right' BitVec.or_eq_zero_iff)
    have hif : (mc.rflags &&& 0x3FFFF ||| 0x200) &&& 0x200 = 0x200 := by
      ext i hi
      rw [BitVec.getElem_and, BitVec.getElem_or]
      cases (0x200 : BitVec 64)[i] <;> simp
    simp only [sigframeRestore, hmc, Unprivileged, restoreMcontext, mask _ 0x3000 rfl rfl, mask _ 0x20000 rfl rfl,
      mask _ 0x4000 rfl rfl, hsplit, hif, true_and, and_assoc]
  · rw [restore_push m regs now userRsp sig handler fpu fpu' xsave h]
    exact ⟨rfl, or_three hc hc', or_three hs hs', mask _ arithFlags rfl rfl⟩

/-- A frame that asks for I/O privilege level 3 gets it. -/
theorem sigreturn_iopl : ∃ m : Bytes, ¬ Unprivileged
    (sigframeRestore m 0 ⟨fun _ => 0, 0x202, 0x23, 0x1b⟩ none 0).1 :=
  ⟨putLE zeroBytes 176 8 0x3000, fun h => absurd h.1 (by decide)⟩

end Kobalt.Arch

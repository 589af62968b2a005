/-
  Subject: WHICH DRIVERS ARE NEEDED (`ty_selector_compute_mask`, `ty_selector_driver_needed`).

  Without an IOMMU the mask loses the bits of network and USB host drivers. A driver reaches those
  bits through one exact class each, and a class the table does not have counts as needed; the first
  entry of the table that a driver lists decides for all of its classes.
-/
import Kobalt.Tykid.Gate

namespace Kobalt.Tykid

/-! ## 1. The code -/

abbrev essentialIommu : Nat := 0x800
abbrev essentialNic : Nat := 0x80
abbrev essentialUsbHost : Nat := 0x40

/-- `ty_class_map`: a class code, the bits of it that count, and a flag. -/
def tyClassMap : List (Nat × Nat × Nat) :=
  [(0x010802, 0xFFFFFF, 0x10), (0x010601, 0xFFFFFF, 0x20), (0x010100, 0xFFFF00, 0x20), (0x010000, 0xFFFF00, 0x20),
   (0x018000, 0xFFFF00, 0x20), (0x020000, 0xFF0000, 0x80), (0x030000, 0xFFFF00, 0x100), (0x060400, 0xFFFF00, 0x1),
   (0x060000, 0xFFFF00, 0x1), (0x0C0330, 0xFFFFFF, 0x40), (0x0C0320, 0xFFFFFF, 0x40), (0x0C0310, 0xFFFFFF, 0x40),
   (0x0C0500, 0xFFFF00, 0x400), (0x080600, 0xFFFF00, 0x800), (0x080000, 0xFFFF00, 0x4), (0x080100, 0xFFFF00, 0x4),
   (0x080300, 0xFFFF00, 0x8), (0x080400, 0xFFFF00, 0x8)]

/-- `ty_vid_did_map`: a vendor, a device and a flag. -/
def tyVidDidMap : List (Nat × Nat × Nat) :=
  [(0x8086, 0x0F18, 0x200), (0x8086, 0x9D2B, 0x200), (0x1022, 0x1481, 0x800), (0x1022, 0x1577, 0x800),
   (0x10EC, 0x5765, 0x10), (0x106B, 0x2003, 0x10), (0x1AF4, 0x1042, 0x20), (0x1AF4, 0x1001, 0x20),
   (0x1AF4, 0x1045, 0x20), (0x1AF4, 0x105A, 0x20), (0x1AF4, 0x1041, 0x80), (0x1AF4, 0x1000, 0x80)] ++
  [0x100E, 0x1015, 0x1016, 0x1017, 0x101E, 0x100F, 0x1011, 0x1026, 0x1027, 0x1028, 0x1010, 0x1012, 0x107D, 0x107E,
   0x108B, 0x108C, 0x109A, 0x150C, 0x10EA, 0x10EB, 0x10EF, 0x10F0, 0x1502, 0x1503].map fun did => (0x8086, did, 0x80)

/-- An entry of the first table is about a device, -/
def classHit (dev : HwDevice) (e : Nat × Nat × Nat) : Bool := dev.classCode &&& 0xFFFFFF &&& e.2.1 == e.1 &&& e.2.1

/-- and one of the second. -/
def vidDidHit (dev : HwDevice) (e : Nat × Nat × Nat) : Bool :=
  dev.vendorId % 2 ^ 16 == e.1 && dev.deviceId % 2 ^ 16 == e.2.1

/-- The loop over a table: the flags of the entries that hit. -/
def addFlags (hit : Nat × Nat × Nat → Bool) (table : List (Nat × Nat × Nat)) (mask : Nat) : Nat :=
  table.foldl (fun mask e => if hit e then mask ||| e.2.2 else mask) mask

/-- Both loops for a device. -/
def addDevice (mask : Nat) (dev : HwDevice) : Nat :=
  addFlags (vidDidHit dev) tyVidDidMap (addFlags (classHit dev) tyClassMap mask)

/-- `if (mask & flag) mask &= ~flag` -/
def clearFlag (flag mask : Nat) : Nat := if mask &&& flag ≠ 0 then mask &&& (0xFFFFFFFF ^^^ flag) else mask

def tySelectorComputeMask (devices : List HwDevice) (iommuActive : Bool) : Nat :=
  let mask := 0x2 ||| 0x4 ||| 0x8 ||| 0x200
  if devices.isEmpty then mask else
  let mask := devices.foldl addDevice mask
  let mask := if iommuActive then mask ||| essentialIommu else mask
  if mask &&& essentialIommu ≠ 0 then mask else clearFlag essentialUsbHost (clearFlag essentialNic mask)

/-! ## 2. The mask without an IOMMU -/

/-- A table gives the device the flag. -/
def MapsTo (dev : HwDevice) (flag : Nat) : Prop :=
  (∃ e ∈ tyClassMap, classHit dev e = true ∧ e.2.2 = flag) ∨ ∃ e ∈ tyVidDidMap, vidDidHit dev e = true ∧ e.2.2 = flag

section Mask

variable {mask flag : Nat} {devices : List HwDevice}

theorem addFlags_and {hit : Nat × Nat × Nat → Bool} (table : List (Nat × Nat × Nat))
    (h : ∀ e ∈ table, hit e = true → e.2.2 &&& flag = 0) :
    ∀ {mask : Nat}, mask &&& flag = 0 → addFlags hit table mask &&& flag = 0 := by
  induction table with
  | nil => exact id
  | cons e table ih =>
    intro mask hm
    refine ih (fun e' he' => h e' (.tail _ he')) ?_
    dsimp only
    split
    · rename_i hit
      rw [Nat.and_or_distrib_right, hm, h e (.head _) hit, Nat.or_zero]
    · exact hm

theorem foldl_addDevice_and (h : ∀ dev ∈ devices, ¬ MapsTo dev essentialIommu) :
    ∀ {mask : Nat}, mask &&& essentialIommu = 0 → devices.foldl addDevice mask &&& essentialIommu = 0 := by
  have hclass : ∀ e ∈ tyClassMap, e.2.2 ≠ essentialIommu → e.2.2 &&& essentialIommu = 0 := by decide
  have hvid : ∀ e ∈ tyVidDidMap, e.2.2 ≠ essentialIommu → e.2.2 &&& essentialIommu = 0 := by decide
  induction devices with
  | nil => exact @fun _ hm => hm
  | cons dev l ih =>
    intro mask hm
    obtain ⟨hdev, hl⟩ := List.forall_mem_cons.1 h
    exact ih hl (addFlags_and _ (fun e he hit => hvid e he fun hf => hdev (.inr ⟨e, he, hit, hf⟩))
      (addFlags_and _ (fun e he hit => hclass e he fun hf => hdev (.inl ⟨e, he, hit, hf⟩)) hm))

theorem clearFlag_self (h : (0xFFFFFFFF ^^^ flag) &&& flag = 0) (mask : Nat) : clearFlag flag mask &&& flag = 0 := by
  unfold clearFlag
  split
  · rw [Nat.and_assoc, h, Nat.and_zero]
  · rename_i h0
    exact not_not.1 h0

theorem clearFlag_other {other : Nat} (h : mask &&& other = 0) : clearFlag flag mask &&& other = 0 := by
  unfold clearFlag
  split
  · rw [Nat.and_right_comm, h, Nat.zero_and]
  · exact h

theorem computeMask_suppressed (h : ∀ dev ∈ devices, ¬ MapsTo dev essentialIommu) :
    tySelectorComputeMask devices false &&& essentialNic = 0 ∧
      tySelectorComputeMask devices false &&& essentialUsbHost = 0 := by
  unfold tySelectorComputeMask
  dsimp only
  split
  · decide
  rw [if_neg Bool.false_ne_true, if_neg (not_not.2 (foldl_addDevice_and h (by decide)))]
  exact ⟨clearFlag_other (clearFlag_self (by decide) _), clearFlag_self (by decide) _⟩

end Mask

/-! ## 3. The drivers -/

/-- A network interface or USB host class. -/
def dmaClass (cls : Nat) : Bool := cls / 2 ^ 16 % 2 ^ 16 == 2 || cls / 2 ^ 16 % 2 ^ 16 == 5

/-- The classes of an entry of `ty_drv_class_map` are essential under the mask. -/
def Essential (mask : Nat) (e : Nat × Nat) : Prop := e.2 = 0 ∨ e.2 ≠ 0xFFFFFFFF ∧ mask &&& e.2 ≠ 0

/-- Of the entries of `ty_drv_class_map` that the driver lists, the first is essential if any is. -/
def EssentialFirst (mask : Nat) (drv : DriverDesc) : Prop :=
  ∀ as e bs, tyDrvClassMap = as ++ e :: bs → e.1 ∈ drv.hwClasses → (∀ e' ∈ as, e'.1 ∉ drv.hwClasses) →
    (∃ e' ∈ bs, e'.1 ∈ drv.hwClasses ∧ Essential mask e') → Essential mask e

section Drivers

variable {drv drv' : DriverDesc} {mask : Nat}

/-- **The three outcomes**: no class, no class of the table, or the first entry of the table decides. -/
theorem driverNeeded_cases (h8 : drv.hwClasses.length ≤ 8) (mask : Nat) :
    (∀ e ∈ tyDrvClassMap, e.1 ∉ drv.hwClasses) ∧ tySelectorDriverNeeded drv mask = true ∨
    ∃ as e bs, tyDrvClassMap = as ++ e :: bs ∧ e.1 ∈ drv.hwClasses ∧ (∀ e' ∈ as, e'.1 ∉ drv.hwClasses) ∧
      (tySelectorDriverNeeded drv mask = true ↔ Essential mask e) := by
  unfold tySelectorDriverNeeded
  rw [List.take_of_length_le h8]
  split
  · rename_i hf
    refine .inl ⟨fun e he hm => ?_, rfl⟩
    have := List.find?_eq_none.1 hf e he
    simp [hm] at this
  · rename_i c flag hf
    obtain ⟨hc, as, bs, htab, has⟩ := List.find?_eq_some_iff_append.1 hf
    by_cases hm : c ∈ drv.hwClasses
    · refine .inr ⟨as, (c, flag), bs, htab, hm, fun e' he' hm' => ?_, ?_⟩
      · have := has e' he'
        simp [hm'] at this
      · unfold Essential
        dsimp only
        split_ifs <;> simp_all
    · obtain ⟨rfl, hnil⟩ : c = 0 ∧ drv.hwClasses = [] := by simpa [hm] using hc
      have hflag : ∀ e ∈ tyDrvClassMap, e.1 = 0 → e.2 = 0 := by decide
      rw [hnil, if_pos (hflag _ (List.mem_of_find?_eq_some hf) rfl)]
      exact .inl ⟨fun e _ => List.not_mem_nil, rfl⟩

end Drivers

/-- **What the selector suppresses.** Without an IOMMU a driver whose classes are all network or USB
    host classes is suppressed exactly if it lists the one class of its kind that the table has. The
    order of the classes never counts, and one essential class is enough exactly if the first class
    of the table that the driver lists is then essential. -/
theorem selector_suppresses_iff (devices : List HwDevice) (drv : DriverDesc) (h8 : drv.hwClasses.length ≤ 8) :
    ((∀ dev ∈ devices, ¬ MapsTo dev essentialIommu) → (∀ c ∈ drv.hwClasses, dmaClass c = true) →
      (tySelectorDriverNeeded drv (tySelectorComputeMask devices false) = false ↔
        0x00020003 ∈ drv.hwClasses ∨ 0x00050001 ∈ drv.hwClasses)) ∧
    (∀ drv' mask, drv'.hwClasses.Perm drv.hwClasses →
      tySelectorDriverNeeded drv' mask = tySelectorDriverNeeded drv mask) ∧
    ∀ mask, ((∃ e ∈ tyDrvClassMap, e.1 ∈ drv.hwClasses ∧ Essential mask e) → tySelectorDriverNeeded drv mask = true) ↔
      EssentialFirst mask drv := by
  refine ⟨fun hdev hdma => ?_, fun drv' mask hp => ?_, fun mask => ⟨fun hone as e bs htab hm has ⟨e', he', hm', hess⟩ => ?_,
    fun hfirst ⟨e', he', hm', hess⟩ => ?_⟩⟩
  · obtain ⟨hnic, husb⟩ := computeMask_suppressed hdev
    have hkinds : ∀ e ∈ tyDrvClassMap, dmaClass e.1 = true → e = (0x00020003, essentialNic) ∨ e = (0x00050001, essentialUsbHost) := by
      decide
    rcases driverNeeded_cases h8 (tySelectorComputeMask devices false) with ⟨hno, hneed⟩ | ⟨as, e, bs, htab, hm, -, hiff⟩
    · rw [hneed]
      have h1 := hno (0x00020003, essentialNic) (by decide)
      have h2 := hno (0x00050001, essentialUsbHost) (by decide)
      simp [h1, h2]
    · have hnot : ¬ Essential (tySelectorComputeMask devices false) e := by
        rcases hkinds e (by simp [htab]) (hdma _ hm) with rfl | rfl
        · exact fun h => h.elim (by decide) fun h => h.2 hnic
        · exact fun h => h.elim (by decide) fun h => h.2 husb
      rw [← Bool.not_eq_true, hiff]
      refine iff_of_true hnot ?_
      rcases hkinds e (by simp [htab]) (hdma _ hm) with rfl | rfl
      · exact .inl hm
      · exact .inr hm
  · unfold tySelectorDriverNeeded
    rw [List.take_of_length_le h8, List.take_of_length_le (hp.length_eq ▸ h8), hp.isEmpty_eq]
    simp only [hp.contains_eq]
  · have hmem : e' ∈ tyDrvClassMap := htab ▸ List.mem_append_right _ (.tail _ he')
    have hneed := hone ⟨e', hmem, hm', hess⟩
    rcases driverNeeded_cases h8 mask with ⟨hno, -⟩ | ⟨as', d, bs', htab', hd, has', hiff⟩
    · exact absurd hm' (hno e' hmem)
    · -- both splits are at the first entry the driver lists
      obtain rfl : d = e := by
        rcases List.append_eq_append_iff.1 (htab.symm.trans htab') with ⟨l, rfl, hl⟩ | ⟨l, rfl, hl⟩
        · cases l with
          | nil => exact (List.cons.inj hl).1.symm
          | cons x l => exact absurd ((List.cons.inj hl).1 ▸ hm) (has' x (by simp))
        · cases l with
          | nil => exact (List.cons.inj hl).1
          | cons x l => exact absurd ((List.cons.inj hl).1 ▸ hd) (has x (by simp))
      exact hiff.1 hneed
  · rcases driverNeeded_cases h8 mask with ⟨hno, -⟩ | ⟨as, e, bs, htab, hm, has, hiff⟩
    · exact absurd hm' (hno e' he')
    · rw [hiff]
      rw [htab] at he'
      rcases List.mem_append.1 he' with ha | hb
      · exact absurd hm' (has e' ha)
      · rcases List.mem_cons.1 hb with rfl | hb
        · exact hess
        · exact hfirst as e bs htab hm has ⟨e', hb, hm', hess⟩

/-- A driver for a generic and an Intel interface is suppressed. -/
theorem selector_suppresses_generic :
    tySelectorDriverNeeded { hwClasses := [0x00020002, 0x00020003] } (tySelectorComputeMask [] false) = false :=
  ((selector_suppresses_iff [] { hwClasses := [0x00020002, 0x00020003] } (by decide)).1 (fun _ h => nomatch h)
    (by decide)).2 (.inl (by decide))

/-- **An Intel driver is loaded without an IOMMU**: its class `TYKID_HW_NIC_INTEL` is not in the table.
    And a keyboard, whose class is always essential, does not help a driver that lists SATA too. -/
theorem selector_admits_intel :
    tySelectorDriverNeeded { hwClasses := [0x00020002] } (tySelectorComputeMask [] false) = true ∧
    Essential (tySelectorComputeMask [] false) (0x00060001, 0x200) ∧
    tySelectorDriverNeeded { hwClasses := [0x00060001, 0x00040002] } (tySelectorComputeMask [] false) = false :=
  ⟨by decide, .inr (by decide), by decide⟩

end Kobalt.Tykid

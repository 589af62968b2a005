/-
  Subject: THE POLICY OF THE DRIVERS (`security/tykid/src/tykid_policy.c`): the record a driver gets
  when it is initialised, and the check of an access against it.

  A check goes through a bound on the counter of initialisations, the capability mask, a cache of
  hashes of earlier hits and a binary search of the allow list. The keyed hash is a parameter, over
  any type with a zero: the bytes it is fed with are those of the driver, the address and the kind.
-/
import Mathlib.Data.Nat.Pairing
import Kobalt.Tykid.Gate

namespace Kobalt.Tykid

open Function Nat

/-! ## 1. Capabilities and allow lists -/

abbrev capNone : Nat := 0x0000
abbrev capObserve : Nat := 0x0001
abbrev capControl : Nat := 0x0002
abbrev capInterrupt : Nat := 0x0004
abbrev capDmaOwn : Nat := 0x0008
abbrev capPower : Nat := 0x0010
abbrev capFirmware : Nat := 0x0020
abbrev capAll : Nat := 0x007F

def tyCapClosure : List Nat :=
  [capNone, capObserve, capObserve ||| capControl, capObserve ||| capControl ||| capInterrupt,
   capObserve ||| capControl ||| capDmaOwn,
   capObserve ||| capControl ||| capInterrupt ||| capDmaOwn ||| capPower,
   capObserve ||| capControl ||| capInterrupt ||| capDmaOwn ||| capPower ||| capFirmware,
   capAll]

abbrev allowMmio : Nat := 0x01
abbrev allowIrq : Nat := 0x02
abbrev allowDma : Nat := 0x03

abbrev policyMaxEntries : Nat := 64
abbrev bloomSlots : Nat := 8

/-- `ty_allow_entry_t`: the addresses from `base` to `limit`, both included. -/
structure AllowEntry where
  kind : Nat := 0
  base : Nat := 0
  limit : Nat := 0
  deriving DecidableEq, Repr

/-- `ty_policy_bloom_t`, over the hashes `H`. -/
structure PolicyBloom (H : Type) [Zero H] where
  hashes : Nat → H := fun _ => 0
  cursor : Nat := 0

/-- `ty_driver_policy_t`. -/
structure DriverPolicy (H : Type) [Zero H] where
  driverId : Nat := 0
  grantedCaps : Nat := 0
  declaredCaps : Nat := 0
  entryCount : Nat := 0
  entries : Nat → AllowEntry := fun _ => {}
  bloom : PolicyBloom H := {}
  violationCount : Nat := 0
  checkCount : Nat := 0
  sealed : Bool := false

/-- `ty_policy_table_t`. -/
structure PolicyTable (H : Type) [Zero H] where
  records : Nat → DriverPolicy H := fun _ => {}
  count : Nat := 0

inductive PolicyStatus where
  | ok
  | generic
  | perm
  | alreadyLoaded
  deriving DecidableEq, Repr

section Model

variable {H : Type} [Zero H] [DecidableEq H] (hash : Nat → Nat → Nat → H)

def tyBloomCheck (b : PolicyBloom H) (h : H) : Bool := (List.range bloomSlots).any fun i => b.hashes i == h

def tyBloomInsert (b : PolicyBloom H) (h : H) : PolicyBloom H :=
  ⟨update b.hashes (b.cursor &&& (bloomSlots - 1)) h, (b.cursor + 1) % 2 ^ 8⟩

def AllowEntry.greater (e key : AllowEntry) : Bool :=
  e.kind > key.kind || (e.kind == key.kind && e.base > key.base)

/-- The inner loop of `ty_allowlist_sort`, where `j` is one less than the number. -/
def sortBack (key : AllowEntry) : Nat → (Nat → AllowEntry) → Nat → AllowEntry
  | 0, es => update es 0 key
  | j + 1, es =>
    if (es j).greater key then sortBack key j (update es (j + 1) (es j)) else update es (j + 1) key

def tyAllowlistSort (pol : DriverPolicy H) : DriverPolicy H :=
  { pol with entries := (List.range' 1 (pol.entryCount - 1)).foldl (fun es i => sortBack (es i) i es) pol.entries }

/-- The loop of `ty_allowlist_contains`. -/
def allowSearch (es : Nat → AllowEntry) (kind addr lo hi : Nat) : Bool :=
  if lo < hi then
    let mid := lo + (hi - lo) / 2
    let e := es mid
    if e.kind < kind ∨ e.kind = kind ∧ e.limit < addr then allowSearch es kind addr (mid + 1) hi
    else if e.kind > kind ∨ e.kind = kind ∧ e.base > addr then allowSearch es kind addr lo mid
    else decide (e.kind = kind ∧ addr ≥ e.base ∧ addr ≤ e.limit)
  else false
termination_by hi - lo

def tyAllowlistContains (pol : DriverPolicy H) (kind addr : Nat) : Bool :=
  allowSearch pol.entries kind addr 0 pol.entryCount

def tyDefaultCapsForClass (cls : Nat) : Nat :=
  match cls &&& 0xFFFF0000 with
  | 0x00010000 => capObserve ||| capControl ||| capDmaOwn ||| capFirmware
  | 0x00020000 => capObserve ||| capControl ||| capInterrupt ||| capDmaOwn
  | 0x00030000 => capObserve ||| capControl ||| capInterrupt ||| capDmaOwn
  | 0x00040000 => capObserve ||| capControl ||| capInterrupt ||| capDmaOwn ||| capPower
  | 0x00050000 => capObserve ||| capControl ||| capInterrupt ||| capDmaOwn
  | 0x00060000 => capObserve ||| capInterrupt
  | 0x00070000 => capObserve ||| capControl
  | 0x00080000 => capObserve ||| capPower
  | _ => capObserve

/-- The number of the highest declared capability, from 1; 0 if there is none. -/
def highestBit (declared : Nat) : Nat :=
  ([7, 6, 5, 4, 3, 2, 1].find? fun i => declared &&& (1 <<< (i - 1)) ≠ 0).getD 0

def tyPolicySeal (pol : DriverPolicy H) : PolicyStatus × DriverPolicy H :=
  if pol.sealed then (.alreadyLoaded, pol) else
  let highest := highestBit pol.declaredCaps
  let allowed := if highest < 8 then tyCapClosure.getD highest 0 else capNone
  let pol := tyAllowlistSort { pol with grantedCaps := pol.grantedCaps &&& allowed }
  (.ok, { pol with sealed := true })

/-- One more entry. -/
def DriverPolicy.push (pol : DriverPolicy H) (e : AllowEntry) : DriverPolicy H :=
  { pol with entries := update pol.entries pol.entryCount e, entryCount := pol.entryCount + 1 }

/-- The last address of the registers. -/
def HwDevice.mmioLimit (dev : HwDevice) : Nat := (dev.mmioBase + dev.mmioSize + (2 ^ 64 - 1)) % 2 ^ 64

/-- The record that `tykid_policy_init_driver` fills before it is sealed. -/
def unsealedRecord (driverId : Nat) (drv : DriverDesc) (dev : HwDevice) : DriverPolicy H :=
  let declared := (drv.flags >>> 16) % 2 ^ 16
  let granted := tyDefaultCapsForClass dev.tyClass
  let granted := if declared ≠ 0 then granted &&& declared else granted
  let pol : DriverPolicy H := { driverId, declaredCaps := declared, grantedCaps := granted }
  let pol := if dev.mmioBase ≠ 0 ∧ dev.mmioSize ≠ 0 ∧ pol.entryCount < policyMaxEntries then
    pol.push ⟨allowMmio, dev.mmioBase, dev.mmioLimit⟩ else pol
  let pol := if dev.irq ≠ 0 ∧ pol.entryCount < policyMaxEntries then
    pol.push ⟨allowIrq, dev.irq, dev.irq⟩ else pol
  if dev.mmioBase ≠ 0 ∧ dev.mmioSize ≠ 0 ∧ pol.grantedCaps &&& capDmaOwn ≠ 0 ∧
      pol.entryCount < policyMaxEntries then
    pol.push ⟨allowDma, dev.mmioBase, dev.mmioLimit⟩ else pol

def tykidPolicyInitDriver (s : PolicyTable H) (driverId : Nat) (drv : DriverDesc) (dev : HwDevice) :
    PolicyStatus × PolicyTable H :=
  if driverId ≥ tykidMaxDrivers then (.generic, s) else
  let (st, pol) := tyPolicySeal (unsealedRecord driverId drv dev)
  (st, ⟨update s.records driverId pol, if st = .ok then inc s.count else s.count⟩)

/-- `tykid_policy_check`; no answer if the record is outside the table. -/
def tykidPolicyCheck (s : PolicyTable H) (driverId kind addr requiredCap : Nat) :
    Option (PolicyStatus × PolicyTable H) :=
  if driverId ≥ s.count then some (.perm, s) else
  if driverId ≥ tykidMaxDrivers then none else
  let pol := s.records driverId
  let pol := { pol with checkCount := (pol.checkCount + 1) % 2 ^ 64 }
  let violated := { pol with violationCount := (pol.violationCount + 1) % 2 ^ 64 }
  if pol.grantedCaps &&& requiredCap = 0 then
    some (.perm, { s with records := update s.records driverId violated })
  else
    let bh := hash driverId addr kind
    if tyBloomCheck pol.bloom bh then some (.ok, { s with records := update s.records driverId pol })
    else if !tyAllowlistContains pol kind addr then
      some (.perm, { s with records := update s.records driverId violated })
    else
      let hit := { pol with bloom := tyBloomInsert pol.bloom bh }
      some (.ok, { s with records := update s.records driverId hit })

/-! ## 2. The allow list -/

omit [Zero H] [DecidableEq H] in
/-- **The binary search** over ranges of increasing kinds finds what is listed: left of the window every
    entry is below, from its end on every entry is above. -/
theorem allowSearch_iff {es : Nat → AllowEntry} {n kind addr : Nat}
    (hinc : ∀ i j, i < j → j < n → (es i).kind < (es j).kind) :
    ∀ lo hi, hi ≤ n → (allowSearch es kind addr lo hi = true ↔
      ∃ i, lo ≤ i ∧ i < hi ∧ (es i).kind = kind ∧ (es i).base ≤ addr ∧ addr ≤ (es i).limit) := by
  intro lo hi
  fun_induction allowSearch es kind addr lo hi with
  | case1 lo hi hlt mid e hless ih =>
    intro hn
    have hmid : mid = lo + (hi - lo) / 2 := rfl
    have hless : (es mid).kind < kind ∨ (es mid).kind = kind ∧ (es mid).limit < addr := hless
    rw [ih hn]
    refine exists_congr fun i => ⟨fun ⟨h1, h⟩ => ⟨by omega, h⟩, fun ⟨h1, h2, hk, hb, hl⟩ => ⟨?_, h2, hk, hb, hl⟩⟩
    by_contra hle
    rcases lt_or_ge i mid with hlt' | hge
    · have := hinc i mid hlt' (by omega)
      omega
    · obtain rfl : i = mid := by omega
      omega
  | case2 lo hi hlt mid e hless hgt ih =>
    intro hn
    have hmid : mid = lo + (hi - lo) / 2 := rfl
    have hgt : (es mid).kind > kind ∨ (es mid).kind = kind ∧ (es mid).base > addr := hgt
    rw [ih (by omega)]
    refine exists_congr fun i =>
      ⟨fun ⟨h1, h2, h⟩ => ⟨h1, by omega, h⟩, fun ⟨h1, h2, hk, hb, hl⟩ => ⟨h1, ?_, hk, hb, hl⟩⟩
    by_contra hge
    rcases lt_or_ge mid i with hlt' | hle
    · have := hinc mid i hlt' (by omega)
      omega
    · obtain rfl : i = mid := by omega
      omega
  | case3 lo hi hlt mid e hless hgt =>
    intro hn
    grind
  | case4 lo hi hlt =>
    intro _
    grind

variable {pol : DriverPolicy H}

/-- **The list is in order**: the kinds increase. -/
def Ordered (pol : DriverPolicy H) : Prop :=
  ∀ i j, i < j → j < pol.entryCount → (pol.entries i).kind < (pol.entries j).kind

/-- The record lists the address under the kind. -/
def Listed (pol : DriverPolicy H) (kind addr : Nat) : Prop :=
  ∃ i < pol.entryCount, (pol.entries i).kind = kind ∧ (pol.entries i).base ≤ addr ∧
    addr ≤ (pol.entries i).limit

omit [DecidableEq H] in
theorem tyAllowlistContains_iff (h : Ordered pol) (kind addr : Nat) :
    tyAllowlistContains pol kind addr = true ↔ Listed pol kind addr := by
  unfold tyAllowlistContains Listed
  rw [allowSearch_iff h 0 pol.entryCount le_rfl]
  simp only [zero_le, true_and]

omit [DecidableEq H] in
theorem tyAllowlistSort_of_ordered (h : Ordered pol) : tyAllowlistSort pol = pol := by
  have hfold : ∀ k m, m + k ≤ pol.entryCount → 0 < m →
      (List.range' m k).foldl (fun es i => sortBack (es i) i es) pol.entries = pol.entries := by
    intro k
    induction k with
    | zero => exact fun _ _ _ => rfl
    | succ k ih =>
      intro m hm hpos
      rw [List.range'_succ, List.foldl_cons]
      obtain ⟨j, rfl⟩ : ∃ j, m = j + 1 := ⟨m - 1, by omega⟩
      have hng : ¬ (pol.entries j).greater (pol.entries (j + 1)) = true := by
        have := h j (j + 1) (by omega) (by omega)
        simp only [AllowEntry.greater, Bool.or_eq_true, decide_eq_true_eq, Bool.and_eq_true, beq_iff_eq]
        omega
      rw [sortBack, if_neg hng, update_eq_self, ih (j + 1 + 1) (by omega) (by omega)]
  have hentries : (tyAllowlistSort pol).entries = pol.entries := by
    rcases Nat.eq_zero_or_pos pol.entryCount with h0 | hpos
    · simp only [tyAllowlistSort, h0]
      rfl
    · exact hfold _ 1 (by omega) (by omega)
  exact congrArg (fun es => { pol with entries := es }) hentries

/-- In order, with no kind above the given one. -/
def OrderedTo (pol : DriverPolicy H) (m : Nat) : Prop :=
  Ordered pol ∧ ∀ i < pol.entryCount, (pol.entries i).kind ≤ m

omit [DecidableEq H] in
theorem OrderedTo.push {m : Nat} (h : OrderedTo pol m) {e : AllowEntry} (hk : m < e.kind) :
    OrderedTo (pol.push e) e.kind := by
  have hold : ∀ i, i < pol.entryCount → (pol.push e).entries i = pol.entries i := fun i hi =>
    update_of_ne (Nat.ne_of_lt hi) ..
  have hnew : (pol.push e).entries pol.entryCount = e := update_self ..
  refine ⟨fun i j hij hj => ?_, fun i hi => ?_⟩
  · rcases Nat.lt_succ_iff_lt_or_eq.1 (show j < pol.entryCount + 1 from hj) with hj | rfl
    · rw [hold i (hij.trans hj), hold j hj]
      exact h.1 i j hij hj
    · rw [hold i hij, hnew]
      exact (h.2 i hij).trans_lt hk
  · rcases Nat.lt_succ_iff_lt_or_eq.1 (show i < pol.entryCount + 1 from hi) with hi | rfl
    · rw [hold i hi]
      exact (h.2 i hi).trans hk.le
    · rw [hnew]

omit [DecidableEq H] in
theorem OrderedTo.pushIf {m : Nat} (h : OrderedTo pol m) {e : AllowEntry} (hk : m < e.kind) (c : Prop)
    [Decidable c] : OrderedTo (if c then pol.push e else pol) e.kind := by
  by_cases hc : c
  · rw [if_pos hc]
    exact h.push hk
  · rw [if_neg hc]
    exact ⟨h.1, fun i hi => (h.2 i hi).trans hk.le⟩

omit [DecidableEq H] in
/-- **The list of a new record**: registers, interrupt and transfers, as far as there are any. -/
theorem unsealedRecord_ordered (driverId : Nat) (drv : DriverDesc) (dev : HwDevice) :
    Ordered (unsealedRecord driverId drv dev : DriverPolicy H) := by
  have hempty : ∀ pol : DriverPolicy H, pol.entryCount = 0 → OrderedTo pol 0 := by
    intro pol h0
    refine ⟨fun i j hij hj => ?_, fun i hi => ?_⟩
    · rw [h0] at hj
      omega
    · rw [h0] at hi
      omega
  unfold unsealedRecord
  exact ((((hempty _ rfl).pushIf (zero_lt_succ _) _).pushIf (lt_succ_self _) _).pushIf (lt_succ_self _) _).1

/-- The record that an initialisation leaves. -/
def initRecord (driverId : Nat) (drv : DriverDesc) (dev : HwDevice) : DriverPolicy H :=
  (tyPolicySeal (unsealedRecord driverId drv dev)).2

section Init

variable (driverId : Nat) (drv : DriverDesc) (dev : HwDevice)

omit [DecidableEq H] in
theorem unsealedRecord_new : (unsealedRecord driverId drv dev : DriverPolicy H).sealed = false ∧
    (unsealedRecord driverId drv dev : DriverPolicy H).bloom = {} := by
  unfold unsealedRecord
  dsimp only
  split_ifs <;> exact ⟨rfl, rfl⟩

omit [DecidableEq H] in
/-- Sealing cuts the capabilities to the closure and leaves a list in order as it is. -/
theorem tyPolicySeal_of_ordered (hs : pol.sealed = false) (ho : Ordered pol) :
    ∃ caps, tyPolicySeal pol = (.ok, { pol with grantedCaps := caps, sealed := true }) := by
  unfold tyPolicySeal
  dsimp only
  rw [hs, if_neg (by decide), tyAllowlistSort_of_ordered (by exact ho)]
  exact ⟨_, rfl⟩

omit [DecidableEq H] in
theorem initRecord_ordered : Ordered (initRecord driverId drv dev : DriverPolicy H) := by
  have ho := unsealedRecord_ordered (H := H) driverId drv dev
  obtain ⟨caps, he⟩ := tyPolicySeal_of_ordered (unsealedRecord_new driverId drv dev).1 ho
  rw [initRecord, he]
  exact ho

omit [DecidableEq H] in
theorem initRecord_bloom : (initRecord driverId drv dev : DriverPolicy H).bloom = {} := by
  grind [unsealedRecord_new, tyPolicySeal_of_ordered, unsealedRecord_ordered, initRecord]

omit [DecidableEq H] in
theorem tykidPolicyInitDriver_eq {s : PolicyTable H} (h : driverId < tykidMaxDrivers) :
    tykidPolicyInitDriver s driverId drv dev =
      (.ok, ⟨update s.records driverId (initRecord driverId drv dev), inc s.count⟩) := by
  obtain ⟨caps, he⟩ := tyPolicySeal_of_ordered (unsealedRecord_new (H := H) driverId drv dev).1
    (unsealedRecord_ordered driverId drv dev)
  unfold tykidPolicyInitDriver
  rw [if_neg (not_le.2 h), he, initRecord, he]
  rfl

end Init

/-! ## 3. The cache and the check -/

/-- The keyed hash, as a perfect one: no two accesses have the same, and none has zero. -/
structure HashOk : Prop where
  ne_zero : ∀ driverId addr kind, hash driverId addr kind ≠ 0
  inj : ∀ driverId addr kind addr' kind', hash driverId addr kind = hash driverId addr' kind' →
    addr = addr' ∧ kind = kind'

/-- **The record of a driver** grants what `r` grants, and what its cache holds is listed. -/
structure RecordOk (driverId : Nat) (pol r : DriverPolicy H) : Prop where
  caps : pol.grantedCaps = r.grantedCaps
  count : pol.entryCount = r.entryCount
  entries : pol.entries = r.entries
  cache : ∀ i < bloomSlots, pol.bloom.hashes i = 0 ∨
    ∃ addr kind, pol.bloom.hashes i = hash driverId addr kind ∧ Listed r kind addr

variable {hash} {r : DriverPolicy H} {driverId : Nat}

omit [DecidableEq H] in
theorem RecordOk.listed_iff (h : RecordOk hash driverId pol r) (kind addr : Nat) :
    Listed pol kind addr ↔ Listed r kind addr := by
  unfold Listed
  rw [h.count, h.entries]

omit [DecidableEq H] in
theorem RecordOk.ordered (h : RecordOk hash driverId pol r) (ho : Ordered r) : Ordered pol := by
  unfold Ordered
  rw [h.count, h.entries]
  exact ho

theorem RecordOk.hit (h : RecordOk hash driverId pol r) (hh : HashOk hash) {kind addr : Nat}
    (hc : tyBloomCheck pol.bloom (hash driverId addr kind) = true) : Listed r kind addr := by
  obtain ⟨i, hi, he⟩ := List.any_eq_true.1 hc
  have he := beq_iff_eq.1 he
  rcases h.cache i (List.mem_range.1 hi) with h0 | ⟨addr', kind', hs, hl⟩
  · exact absurd (he.symm.trans h0) (hh.ne_zero _ _ _)
  · obtain ⟨rfl, rfl⟩ := hh.inj _ _ _ _ _ (he.symm.trans hs)
    exact hl

omit [DecidableEq H] in
theorem RecordOk.insert (h : RecordOk hash driverId pol r) {kind addr : Nat} (hl : Listed r kind addr) :
    RecordOk hash driverId { pol with bloom := tyBloomInsert pol.bloom (hash driverId addr kind) } r := by
  refine ⟨h.caps, h.count, h.entries, fun i hi => ?_⟩
  by_cases hc : i = pol.bloom.cursor &&& (bloomSlots - 1)
  · exact .inr ⟨addr, kind, by simp only [tyBloomInsert, hc, update_self], hl⟩
  · simp only [tyBloomInsert, update_of_ne hc]
    exact h.cache i hi

/-- **`tykid_policy_check`** of a driver below the counter: the answer is that of the mask and the list. -/
theorem tykidPolicyCheck_record {s : PolicyTable H} (h : RecordOk hash driverId (s.records driverId) r)
    (ho : Ordered r) (hh : HashOk hash) (hid : driverId < s.count) (hmax : driverId < tykidMaxDrivers)
    (kind addr cap : Nat) : ∃ st pol, tykidPolicyCheck hash s driverId kind addr cap =
        some (st, { s with records := update s.records driverId pol }) ∧
      RecordOk hash driverId pol r ∧ (st = .ok ↔ r.grantedCaps &&& cap ≠ 0 ∧ Listed r kind addr) := by
  unfold tykidPolicyCheck
  rw [if_neg (not_le.2 hid), if_neg (not_le.2 hmax)]
  dsimp only
  by_cases hcap : r.grantedCaps &&& cap = 0
  · exact ⟨.perm, _, if_pos (by rw [h.caps]; exact hcap), ⟨h.caps, h.count, h.entries, h.cache⟩,
      iff_of_false (by decide) fun hr => hr.1 hcap⟩
  rw [if_neg (by rw [h.caps]; exact hcap)]
  by_cases hb : tyBloomCheck (s.records driverId).bloom (hash driverId addr kind) = true
  · exact ⟨.ok, _, if_pos hb, ⟨h.caps, h.count, h.entries, h.cache⟩, iff_of_true rfl ⟨hcap, h.hit hh hb⟩⟩
  rw [if_neg hb]
  have hc := (tyAllowlistContains_iff (h.ordered ho) kind addr).trans (h.listed_iff kind addr)
  by_cases hl : Listed r kind addr
  · have hins := h.insert hl
    refine ⟨.ok, _, if_neg ?_, ⟨hins.caps, hins.count, hins.entries, hins.cache⟩, iff_of_true rfl ⟨hcap, hl⟩⟩
    rw [Bool.not_eq_true']
    exact ne_false_of_eq_true (hc.2 hl)
  · refine ⟨.perm, _, if_pos ?_, ⟨h.caps, h.count, h.entries, h.cache⟩,
      iff_of_false (by decide) fun hr => hl hr.2⟩
    rw [Bool.not_eq_true']
    exact eq_false_of_ne_true fun ht => hl (hc.1 ht)

/-! ## 4. Runs -/

inductive PolicyOp where
  | init (driverId : Nat) (drv : DriverDesc) (dev : HwDevice)
  | check (driverId kind addr cap : Nat)

inductive PolicyAnswer where
  | status (st : PolicyStatus)
  | undefined
  deriving DecidableEq, Repr

variable (hash) in
def policyCall (s : PolicyTable H) : PolicyOp → PolicyAnswer × PolicyTable H
  | .init driverId drv dev =>
    let (st, s) := tykidPolicyInitDriver s driverId drv dev
    (.status st, s)
  | .check driverId kind addr cap =>
    match tykidPolicyCheck hash s driverId kind addr cap with
    | some (st, s) => (.status st, s)
    | none => (.undefined, s)

/-- **What a run may do**: initialise drivers below the limit, and check what does not leave the table. -/
def PolicyOk (s : PolicyTable H) : PolicyOp → Prop
  | .init driverId _ _ => driverId < tykidMaxDrivers
  | .check driverId _ _ _ => tykidMaxDrivers ≤ driverId → s.count ≤ driverId

/-- How often a driver was initialised. -/
def inits : Log PolicyOp PolicyAnswer → Nat
  | [] => 0
  | (.init _ _ _, _) :: h => inits h + 1
  | (.check _ _ _ _, _) :: h => inits h

/-- **The last initialisation** of a driver. -/
def lastInit (driverId : Nat) : Log PolicyOp PolicyAnswer → Option (DriverDesc × HwDevice)
  | [] => none
  | (.init id drv dev, _) :: h => if id = driverId then some (drv, dev) else lastInit driverId h
  | (.check _ _ _ _, _) :: h => lastInit driverId h

/-- The record of a driver by its last initialisation alone. -/
def recordOf (h : Log PolicyOp PolicyAnswer) (driverId : Nat) : DriverPolicy H :=
  match lastInit driverId h with
  | none => {}
  | some (drv, dev) => initRecord driverId drv dev

variable (H) in
/-- **What is allowed**: the driver has been initialised, its record grants the capability (by its bit) and
    lists the address under the kind. -/
def Allowed (h : Log PolicyOp PolicyAnswer) (driverId kind addr bit : Nat) : Prop :=
  ∃ drv dev, lastInit driverId h = some (drv, dev) ∧
    (initRecord driverId drv dev : DriverPolicy H).grantedCaps.testBit bit = true ∧
    Listed (initRecord driverId drv dev : DriverPolicy H) kind addr

variable (hash) in
/-- The check answers, with success exactly for what is allowed. -/
def CheckRight (h : Log PolicyOp PolicyAnswer) (s : PolicyTable H) (driverId kind addr bit : Nat) : Prop :=
  ∃ st s', tykidPolicyCheck hash s driverId kind addr (1 <<< bit) = some (st, s') ∧
    (st = .ok ↔ Allowed H h driverId kind addr bit)

variable (H) in
/-- **The counter of initialisations** is above the driver if its access is allowed, and not above a number
    that is outside the table. -/
def Counted (h : Log PolicyOp PolicyAnswer) (driverId kind addr bit : Nat) : Prop :=
  (Allowed H h driverId kind addr bit → driverId < inits h % 2 ^ 32) ∧
    (tykidMaxDrivers ≤ driverId → inits h % 2 ^ 32 ≤ driverId)

variable (hash) in
/-- The table and the log. -/
structure TableOk (s : PolicyTable H) (h : Log PolicyOp PolicyAnswer) : Prop where
  count : s.count = inits h % 2 ^ 32
  record : ∀ driverId, RecordOk hash driverId (s.records driverId) (recordOf h driverId)

omit [DecidableEq H] in
theorem recordOf_ordered (h : Log PolicyOp PolicyAnswer) (driverId : Nat) :
    Ordered (recordOf h driverId : DriverPolicy H) := by
  unfold recordOf
  cases lastInit driverId h with
  | none => exact fun _ _ _ hj => absurd hj (not_lt_zero _)
  | some x => exact initRecord_ordered driverId x.1 x.2

omit [DecidableEq H] in
theorem allowed_iff (h : Log PolicyOp PolicyAnswer) (driverId kind addr bit : Nat) :
    Allowed H h driverId kind addr bit ↔ (recordOf h driverId : DriverPolicy H).grantedCaps &&& 1 <<< bit ≠ 0 ∧
      Listed (recordOf h driverId : DriverPolicy H) kind addr := by
  have hbit : ∀ n : Nat, n &&& 1 <<< bit ≠ 0 ↔ n.testBit bit = true := by
    intro n
    rw [one_shiftLeft, and_two_pow]
    cases n.testBit bit <;> simp
  rw [hbit]
  unfold Allowed recordOf
  grind

section Run

variable {s : PolicyTable H} {h : Log PolicyOp PolicyAnswer} (hT : TableOk hash s h) (hh : HashOk hash)
include hT hh

theorem policyCall_table {op : PolicyOp} (hok : PolicyOk s op) :
    TableOk hash (policyCall hash s op).2 ((op, (policyCall hash s op).1) :: h) := by
  cases op with
  | init driverId drv dev =>
    rw [policyCall, tykidPolicyInitDriver_eq driverId drv dev hok]
    refine ⟨?_, fun d => ?_⟩
    · grind [inc, inits, hT.count]
    · by_cases hd : driverId = d
      · subst hd
        dsimp only
        rw [update_self, recordOf, lastInit, if_pos rfl]
        refine ⟨rfl, rfl, rfl, fun i _ => .inl ?_⟩
        rw [initRecord_bloom]
      · have hrec : (recordOf ((PolicyOp.init driverId drv dev, PolicyAnswer.status .ok) :: h) d :
            DriverPolicy H) = recordOf h d := by
          rw [recordOf, lastInit, if_neg hd]
          rfl
        grind [hT.record]
  | check driverId kind addr cap =>
    have hrec : ∀ a d, (recordOf ((PolicyOp.check driverId kind addr cap, a) :: h) d : DriverPolicy H) =
        recordOf h d := fun _ _ => rfl
    rw [policyCall]
    rcases Nat.lt_or_ge driverId s.count with hlt | hge
    · have hmax : driverId < tykidMaxDrivers := Nat.lt_of_not_le fun hm => absurd (hok hm) (Nat.not_le.2 hlt)
      obtain ⟨st, pol, he, hp, -⟩ := tykidPolicyCheck_record (hT.record driverId) (recordOf_ordered h driverId)
        hh hlt hmax kind addr cap
      rw [he]
      refine ⟨hT.count, fun d => ?_⟩
      dsimp only
      rw [hrec]
      by_cases hd : d = driverId
      · rw [hd, update_self]
        exact hp
      grind [hT.record]
    · rw [tykidPolicyCheck, if_pos hge]
      exact ⟨hT.count, hT.record⟩

theorem TableOk.check_iff (driverId kind addr bit : Nat) :
    CheckRight hash h s driverId kind addr bit ↔ Counted H h driverId kind addr bit := by
  unfold CheckRight Counted
  rw [← hT.count]
  rcases lt_or_ge driverId s.count with hlt | hge
  · rcases lt_or_ge driverId tykidMaxDrivers with hmax | hmax
    · obtain ⟨st, pol, he, -, hst⟩ := tykidPolicyCheck_record (hT.record driverId) (recordOf_ordered h driverId)
        hh hlt hmax kind addr (1 <<< bit)
      refine iff_of_true ⟨st, _, he, hst.trans (allowed_iff h driverId kind addr bit).symm⟩ ⟨fun _ => hlt, ?_⟩
      intro hm
      omega
    · -- the record is outside the table
      rw [tykidPolicyCheck, if_neg (not_le.2 hlt), if_pos hmax]
      grind
  · rw [tykidPolicyCheck, if_pos hge]
    grind

end Run

/-- **The decisions of the policy.** After every run from the empty table a check of a single capability is
    right exactly if the counter of initialisations admits it. -/
theorem policy_check_right_iff (hh : HashOk hash) (h : Log PolicyOp PolicyAnswer) (s : PolicyTable H)
    (hr : Reach PolicyOk (policyCall hash) {} h s) (driverId kind addr bit : Nat) :
    CheckRight hash h s driverId kind addr bit ↔ Counted H h driverId kind addr bit := by
  have hT : TableOk hash s h := by
    refine hr.inv (I := fun h s => TableOk hash s h) ⟨rfl, fun d => ?_⟩ fun h s op hT hok =>
      policyCall_table hT hh hok
    exact ⟨rfl, rfl, rfl, fun _ _ => .inl rfl⟩
  exact hT.check_iff hh driverId kind addr bit

end Model

/-- A perfect hash into the numbers. -/
def pairHash (driverId addr kind : Nat) : Nat := Nat.pair driverId (Nat.pair addr kind) + 1

theorem pairHash_ok : HashOk pairHash := by
  refine ⟨fun _ _ _ => succ_ne_zero _, fun d a k a' k' he => ?_⟩
  have he := succ_injective he
  exact pair_eq_pair.1 (pair_eq_pair.1 he).2

/-- A driver that declares to observe, on a device with a page of registers. -/
def observer : DriverDesc := { flags := 0x00010000 }

def pageDev : HwDevice := { mmioBase := 4096, mmioSize := 4096 }

theorem observer_granted : (initRecord 5 observer pageDev : DriverPolicy Nat).grantedCaps.testBit 0 = true ∧
    Listed (initRecord 5 observer pageDev : DriverPolicy Nat) allowMmio 4096 :=
  ⟨by decide, 0, by decide, by decide, by decide, by decide⟩

theorem observer_ok (s : PolicyTable Nat) {driverId : Nat} (h : driverId < tykidMaxDrivers) :
    PolicyOk s (.init driverId observer pageDev) := h

/-- Driver 0 is initialised and may read its registers; driver 5 is, and may not. -/
theorem policy_check_right_first : ∃ h s, HashOk pairHash ∧ Reach PolicyOk (policyCall pairHash) {} h s ∧
    CheckRight pairHash h s 0 allowMmio 4096 0 ∧ ¬ CheckRight pairHash h s 5 allowMmio 4096 0 := by
  have r1 : Reach PolicyOk (policyCall pairHash) {} _ _ :=
    .step _ _ (.init 5 observer pageDev) .start (observer_ok _ (by decide))
  have r2 := Reach.step _ _ (.init 0 observer pageDev) r1 (observer_ok _ (by decide))
  have hp := policy_check_right_iff pairHash_ok _ _ r2
  refine ⟨_, _, pairHash_ok, r2, (hp 0 allowMmio 4096 0).2 ⟨fun _ => by decide, by decide⟩, fun hc => ?_⟩
  have hlt := ((hp 5 allowMmio 4096 0).1 hc).1 ⟨observer, pageDev, rfl, observer_granted⟩
  exact absurd hlt (by decide)

/-- **A driver that is initialised before those below it** is refused what its record allows. -/
theorem policy_denies_sparse_driver : ∃ h s, Reach PolicyOk (policyCall pairHash) {} h s ∧
    Allowed Nat h 5 allowMmio 4096 0 ∧
    (policyCall pairHash s (.check 5 allowMmio 4096 capObserve)).1 = .status .perm :=
  ⟨_, _, .step _ _ (.init 5 observer pageDev) .start (observer_ok _ (by decide)),
    ⟨observer, pageDev, rfl, observer_granted⟩, rfl⟩

end Kobalt.Tykid

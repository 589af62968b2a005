/-
  Subject: THE DRIVER GATE (`security/tykid/src/tykid_gate.c`): `ty_gate_load_one`, the arbitration
  of drivers for a set of devices, and the calls that load, unload, blacklist, revoke and recheck
  drivers by name.

  Everything the gate does to one descriptor is an `EntryStep`: the name stays, a descriptor that is
  blacklisted or blocked stays so, and it does not become ACTIVE. The one call that does more is an
  arbitration that finds the hardware changed: it scans the directory anew.
-/
import Kobalt.Lib.Run
import Kobalt.Tykid.Registry

namespace Kobalt.Tykid

open Function

/-! ## 1. Devices -/

/-- `tykid_hw_device_t`. -/
structure HwDevice where
  vendorId : Nat := 0
  deviceId : Nat := 0
  subsysId : Nat := 0
  classCode : Nat := 0
  tyClass : Nat := 0
  bus : Nat := 0
  slot : Nat := 0
  func : Nat := 0
  irq : Nat := 0
  mmioBase : Nat := 0
  mmioSize : Nat := 0
  hardwareFingerprint : UInt64 := 0
  name : CStr := []

/-- `count` bytes of a number, least significant first. -/
def numBytes (count v : Nat) : Text := (List.range count).map fun i => UInt8.ofNat (v / 256 ^ i)

/-- The packed structure in memory. -/
def HwDevice.bytes (d : HwDevice) : Text :=
  numBytes 4 d.vendorId ++ numBytes 4 d.deviceId ++ numBytes 4 d.subsysId ++ numBytes 4 d.classCode ++
    numBytes 4 d.tyClass ++ numBytes 1 d.bus ++ numBytes 1 d.slot ++ numBytes 1 d.func ++
    numBytes 1 d.irq ++ numBytes 8 d.mmioBase ++ numBytes 8 d.mmioSize ++
    numBytes 8 d.hardwareFingerprint.toNat ++
    (List.range tykidMaxName).map fun i => d.name.getD i 0

def tyRotl64 (v : UInt64) (n : UInt64) : UInt64 := v <<< n ||| v >>> (64 - n)

def tyGetU64le (p : Text) : UInt64 :=
  UInt64.ofNat ((List.range 8).foldl (fun v i => v + (p.getD i 0).toNat * 256 ^ i) 0)

structure Sip where
  v0 : UInt64
  v1 : UInt64
  v2 : UInt64
  v3 : UInt64

def sipRound (s : Sip) : Sip :=
  let v0 := s.v0 + s.v1
  let v1 := tyRotl64 s.v1 13 ^^^ v0
  let v0 := tyRotl64 v0 32
  let v2 := s.v2 + s.v3
  let v3 := tyRotl64 s.v3 16 ^^^ v2
  let v0 := v0 + v3
  let v3 := tyRotl64 v3 21 ^^^ v0
  let v2 := v2 + v1
  let v1 := tyRotl64 v1 17 ^^^ v2
  let v2 := tyRotl64 v2 32
  ⟨v0, v1, v2, v3⟩

/-- One word: two rounds between the two exclusive ors. -/
def sipWord (s : Sip) (m : UInt64) : Sip :=
  let s := sipRound (sipRound { s with v3 := s.v3 ^^^ m })
  { s with v0 := s.v0 ^^^ m }

def tySiphash24 (key : Text) (data : Text) : UInt64 :=
  let k0 := tyGetU64le key
  let k1 := tyGetU64le (key.drop 8)
  let s : Sip := ⟨k0 ^^^ 0x736f6d6570736575, k1 ^^^ 0x646f72616e646f6d, k0 ^^^ 0x6c7967656e657261,
    k1 ^^^ 0x7465646279746573⟩
  let s := (List.range (data.length / 8)).foldl (fun s i => sipWord s (tyGetU64le (data.drop (8 * i)))) s
  let tail := data.drop (8 * (data.length / 8))
  let last := UInt64.ofNat (data.length % 256) <<< 56 ||| tyGetU64le tail
  let s := sipWord s last
  let s := sipRound (sipRound (sipRound (sipRound { s with v2 := s.v2 ^^^ 0xFF })))
  s.v0 ^^^ s.v1 ^^^ s.v2 ^^^ s.v3

example : tySiphash24 [0, 1, 2, 3, 4, 5, 6, 7, 8, 9, 10, 11, 12, 13, 14, 15]
    [0, 1, 2, 3, 4, 5, 6, 7, 8, 9, 10, 11, 12, 13, 14] = 0xa129ca6149be45e5 := by decide

def tyHwTopologyHash (hw : List HwDevice) (sessionKey : Text) : UInt64 :=
  let acc := hw.foldl
    (fun acc d => tyRotl64 (acc ^^^ d.hardwareFingerprint) 27 * 0x94D049BB133111EB)
    (UInt64.ofNat hw.length * 0x9E3779B97F4A7C15)
  acc ^^^ tySiphash24 sessionKey (hw.flatMap HwDevice.bytes)

/-! ## 2. The context -/

/-- The part of `tykid_config_t` the gate reads. -/
structure GateConfig where
  driversDir : Option CStr := none
  koLoadFn : Bool := true
  koUnloadFn : Bool := true
  pathIterFn : Bool := true
  maxLoadAttempts : Nat := 3
  probeTimeoutMs : Nat := 500
  loadNonEssential : Bool := false

abbrev kobaltExpected : Nat := 0xA3F7C219DE40B851 ^^^ 0x4B4F424C54494459

structure GateCtx where
  magicA : Nat := 0xDEAD4B42 ^^^ (kobaltExpected &&& 0xFFFFFFFF)
  magicB : Nat := 0xBEEF0000 ^^^ (kobaltExpected >>> 32 &&& 0xFFFFFFFF)
  sealCheck : Nat := kobaltExpected
  cfg : GateConfig := {}
  sessionKey : Text := List.replicate 32 0
  probed : Bool := false
  probeHash : UInt64 := 0
  reg : Registry := {}
  essentialMask : Nat := 0
  totalLoaded : Nat := 0
  totalSkipped : Nat := 0
  totalFailed : Nat := 0
  totalBlocked : Nat := 0
  totalRevoked : Nat := 0
  recheckCount : Nat := 0

section Code

variable (ctx : GateCtx) (entries : List DriverDesc)

def tykidVerifySeal : Status :=
  if ctx.magicA = 0xDEAD4B42 ^^^ (kobaltExpected &&& 0xFFFFFFFF) ∧
      ctx.magicB = 0xBEEF0000 ^^^ (kobaltExpected >>> 32 &&& 0xFFFFFFFF) ∧
      ctx.sealCheck = kobaltExpected then .ok
  else .sealBroken

def tyFindDriverByName (name : CStr) : Option Nat :=
  ctx.reg.entries.findIdx? fun d => sameName d.name name

/-- Writing one descriptor of the registry. -/
def GateCtx.setDrv (ri : Nat) (drv : DriverDesc) : GateCtx :=
  { ctx with reg := { ctx.reg with entries := ctx.reg.entries.set ri drv } }

/-- A 32-bit counter. -/
def inc (n : Nat) : Nat := (n + 1) % 2 ^ 32

/-! ## 3. Loading one driver -/

/-- What the outside answers while one driver is loaded: the integrity check of a file against a
    MAC, the load function (status and base address) and the time stamp counter. -/
structure LoadEnv where
  integrity : CStr → Text → Status
  koLoad : CStr → Nat → Status × Nat
  tsc : Nat → Nat

/-- The path of a driver's file (for a directory name of 1 to 255 bytes). -/
def fullPath (cfg : GateConfig) (path : CStr) : CStr :=
  let dir := cfg.driversDir.getD (cstr ['.', '.', '/', 'd', 'r', 'i', 'v', 'e', 'r', 's'])
  let dir := if dir.length < tykidMaxPath - 1 ∧ dir.getLast? ≠ some 47 then dir ++ [47] else dir
  dir ++ tyStrncpy path (tykidMaxPath - dir.length)

/-- `do … while (st != TYKID_OK && attempts < ctx->cfg.max_load_attempts)`: the last status and base,
    or `none` for the timeout; `left` attempts may follow this one. -/
def loadAttempts (env : LoadEnv) (file : CStr) (deadline : Nat) : Nat → Nat → Option (Status × Nat)
  | left, attempts =>
    let r := env.koLoad file attempts
    if env.tsc (attempts + 1) ≥ deadline then none
    else
      match left with
      | 0 => some r
      | left + 1 => if r.1 ≠ .ok then loadAttempts env file deadline left (attempts + 1) else some r

/-- The part of `ty_gate_load_one` after its refusals. -/
def loadChecked (ri : Nat) (drv : DriverDesc) (env : LoadEnv) : Status × GateCtx :=
  let file := fullPath ctx.cfg drv.path
  if env.integrity file drv.hmac ≠ .ok then
    (.driverCorrupt, { ctx.setDrv ri { drv with
          flags := drv.flags ||| flagBlacklisted, state := .blocked, threatClass := .tampered } with
        totalBlocked := inc ctx.totalBlocked, totalFailed := inc ctx.totalFailed })
  else
    let drv := { drv with flags := drv.flags ||| flagVerified }
    if drv.has flagLazy then
      (.ok, { ctx.setDrv ri { drv with state := .pending } with totalLoaded := inc ctx.totalLoaded })
    else if !ctx.cfg.koLoadFn then
      (.generic, { ctx.setDrv ri { drv with state := .failed } with totalFailed := inc ctx.totalFailed })
    else
      let timeoutMs := if ctx.cfg.probeTimeoutMs ≠ 0 then ctx.cfg.probeTimeoutMs else 500
      let deadline := (env.tsc 0 + timeoutMs * 1000000) % 2 ^ 64
      match loadAttempts env file deadline (ctx.cfg.maxLoadAttempts - 1) 0 with
      | none =>
        (.timeout, { ctx.setDrv ri { drv with state := .failed } with totalFailed := inc ctx.totalFailed })
      | some (st, base) =>
        if st ≠ .ok ∨ base = 0 then
          (st, { ctx.setDrv ri { drv with state := .failed } with totalFailed := inc ctx.totalFailed })
        else
          (.ok, { ctx.setDrv ri { drv with
              baseVaddr := base, state := .active, loadTimestamp := env.tsc (ctx.cfg.maxLoadAttempts + 2) } with
            totalLoaded := inc ctx.totalLoaded })

/-- Another entry of the same name is ACTIVE. -/
def singletonTaken (ri : Nat) (drv : DriverDesc) : Bool :=
  (List.range ctx.reg.entries.length).any fun i =>
    let other := ctx.reg.entries.getD i {}
    i ≠ ri && sameName other.name drv.name && other.state = .active

/-- `ty_gate_load_one(ctx, &reg->entries[ri])`. -/
def tyGateLoadOne (ri : Nat) (env : LoadEnv) : Status × GateCtx :=
  let drv := ctx.reg.entries.getD ri {}
  if drv.state = .active then (.alreadyLoaded, ctx)
  else if drv.state = .blocked then (.threatBlocked, ctx)
  else if drv.state = .skipped then (.notEssential, ctx)
  else if drv.has flagBlacklisted then (.blacklist, ctx)
  else if drv.has flagSingleton && singletonTaken ctx ri drv then (.alreadyLoaded, ctx)
  else loadChecked ctx ri drv env

/-! ## 4. The selection -/

/-- `ty_drv_class_map`: a hardware class and the essential flag it stands for. -/
def tyDrvClassMap : List (Nat × Nat) :=
  [(0x00000000, 0), (0xFF000001, 0x1), (0x00040001, 0x10), (0x00040002, 0x20), (0x00040003, 0x40),
   (0x00020003, 0x80), (0x00050001, 0x40), (0x00010001, 0x100), (0x00060001, 0x200),
   (0x00070001, 0x400), (0x000B0001, 0x800), (0x00030001, 0xFFFFFFFF), (0x00080001, 0xFFFFFFFF),
   (0x000C0001, 0xFFFFFFFF)]

def tySelectorDriverNeeded (drv : DriverDesc) (mask : Nat) : Bool :=
  match tyDrvClassMap.find? fun e =>
      (drv.hwClasses.take 8).contains e.1 || (e.1 == 0 && drv.hwClasses.isEmpty) with
  | none => true
  | some (_, flag) => if flag = 0 then true else if flag = 0xFFFFFFFF then false else mask &&& flag != 0

/-- The loop body of `ty_selector_apply`. -/
def selectorSkip (mask : Nat) (drv : DriverDesc) : DriverDesc :=
  if drv.state = .pending ∧ !tySelectorDriverNeeded drv mask then { drv with state := .skipped } else drv

def tySelectorApply : GateCtx :=
  if ctx.cfg.loadNonEssential then ctx
  else
    let skipped := ctx.reg.entries.countP fun drv =>
      drv.state = .pending ∧ !tySelectorDriverNeeded drv ctx.essentialMask
    { ctx with
      reg := { ctx.reg with entries := ctx.reg.entries.map (selectorSkip ctx.essentialMask) }
      totalSkipped := (ctx.totalSkipped + skipped) % 2 ^ 32 }

def tyDriverMatchesHw (drv : DriverDesc) (dev : HwDevice) : Bool :=
  if drv.vendorMask ≠ 0 ∧ drv.vendorMask ≠ dev.vendorId then false
  else if drv.deviceMask ≠ 0 ∧ drv.deviceMask ≠ dev.deviceId then false
  else drv.hwClasses.contains dev.tyClass || drv.hwClasses.isEmpty

def tyScoreDriver (drv : DriverDesc) (dev : HwDevice) : Nat :=
  let score := drv.priority * 1000
  let score := score +
    if drv.vendorMask ≠ 0 ∧ drv.vendorMask = dev.vendorId then
      if drv.deviceMask ≠ 0 ∧ drv.deviceMask = dev.deviceId then 4000 else 2000
    else 0
  let major := dev.tyClass >>> 16 &&& 0xFFFF
  let minor := dev.tyClass &&& 0xFFFF
  let score := score + if major ≠ 0 ∧ minor ≠ 0 then 1000 else if major ≠ 0 then 500 else 0
  if drv.has flagFallback then if score > 3000 then score - 3000 else 0 else score

/-- `selected`, `best_score` and `class_of`. -/
structure Selection where
  selected : Nat → Bool := fun _ => false
  bestScore : Nat → Nat := fun _ => 0
  classOf : Nat → Nat := fun _ => 0

def Selection.pick (s : Selection) (ri score cls : Nat) : Selection :=
  { selected := update s.selected ri true, bestScore := update s.bestScore ri score
    classOf := update s.classOf ri cls }

/-- One driver for one device: the selection, and the best driver so far with its score. -/
def selectDriver (dev : HwDevice) (acc : Selection × Nat × Option Nat) (ri : Nat) :
    Selection × Nat × Option Nat :=
  let (sel, hwBestScore, hwBestDrv) := acc
  let drv := entries.getD ri {}
  if drv.state = .blocked ∨ drv.state = .skipped ∨ drv.has flagBlacklisted then acc
  else if !tyDriverMatchesHw drv dev then acc
  else
    let score := tyScoreDriver drv dev
    let best := if score > hwBestScore then (score, some ri) else (hwBestScore, hwBestDrv)
    if drv.has flagFallback ∧ (!sel.selected ri ∨ score > sel.bestScore ri) then
      (sel.pick ri score dev.tyClass, best)
    else (sel, best)

def selectDevice (sel : Selection) (dev : HwDevice) : Selection :=
  if dev.tyClass = 0 then sel
  else
    let (sel, hwBestScore, hwBestDrv) :=
      (List.range entries.length).foldl (selectDriver entries dev) (sel, 0, none)
    match hwBestDrv with
    | some ri => sel.pick ri hwBestScore dev.tyClass
    | none => sel

def tyApplyExclusiveConstraint (classOf : Nat → Nat) (selected : Nat → Bool) :
    Nat → Bool :=
  (List.range entries.length).foldl (fun selected i =>
    let drv := entries.getD i {}
    if selected i && drv.has flagExclusive then
      drv.hwClasses.foldl (fun selected cls => fun j =>
        if j < entries.length ∧ j ≠ i ∧ classOf j = cls then false else selected j) selected
    else selected) selected

/-- One round of the loop that pulls dependencies in. -/
def pullDeps (selected : Nat → Bool) : Nat → Bool :=
  (List.range entries.length).foldl (fun selected ri =>
    if selected ri then
      (entries.getD ri {}).deps.foldl (fun selected dep =>
        if dep = 0xFF ∨ dep ≥ entries.length then selected
        else if (entries.getD dep {}).state = .blocked then selected
        else update selected dep true) selected
    else selected) selected

/-- Everything selected. A round of `while (changed)` that changes something selects one more
    driver, and a round that changes nothing can be repeated, so `count` rounds are the loop. -/
def selection (hw : List HwDevice) : Nat → Bool :=
  let sel := hw.foldl (selectDevice entries) {}
  let selected := tyApplyExclusiveConstraint entries sel.classOf sel.selected
  (pullDeps entries)^[entries.length] selected

/-! ## 5. The calls -/

/-- `tykid_load_result_t`. -/
structure LoadResult where
  loaded : List Nat := []
  skippedCount : Nat := 0
  failedCount : Nat := 0

/-- Every dependency of a driver is ACTIVE or PENDING. -/
def depOk (drv : DriverDesc) : Bool :=
  drv.deps.all fun dep =>
    dep = 0xFF ∨ dep ≥ entries.length ∨ (entries.getD dep {}).state = .active ∨
      (entries.getD dep {}).state = .pending

/-- One driver of the order, with what the outside answers to its load. -/
def arbitrateOne (selected : Nat → Bool) (acc : GateCtx × LoadResult) (item : Nat × LoadEnv) :
    GateCtx × LoadResult :=
  let (ctx, result) := acc
  let (ri, env) := item
  let drv := ctx.reg.entries.getD ri {}
  if ri ≥ ctx.reg.entries.length ∨ !selected ri then acc
  else if drv.state = .blocked ∨ drv.state = .skipped then
    (ctx, { result with skippedCount := result.skippedCount + 1 })
  else if !depOk ctx.reg.entries drv then
    ({ ctx.setDrv ri { drv with state := .failed } with totalFailed := inc ctx.totalFailed },
      { result with failedCount := result.failedCount + 1 })
  else
    match tyGateLoadOne ctx ri env with
    | (.ok, ctx) => (ctx, { result with loaded := result.loaded ++ [ri] })
    | (.alreadyLoaded, ctx) => (ctx, { result with skippedCount := result.skippedCount + 1 })
    | (.notEssential, ctx) => (ctx, { result with skippedCount := result.skippedCount + 1 })
    | (.threatBlocked, ctx) => (ctx, { result with skippedCount := result.skippedCount + 1 })
    | (_, ctx) => (ctx, { result with failedCount := result.failedCount + 1 })

/-- The arbitration after the check of the topology. -/
def arbitrateRun (hw : List HwDevice) (envs : Nat → LoadEnv) :
    Status × GateCtx × LoadResult :=
  let ctx := tySelectorApply ctx
  let entries := ctx.reg.entries
  let selected := selection entries hw
  let topo := if ctx.reg.deps.topo = [] then List.range entries.length else ctx.reg.deps.topo
  let items := topo.zipIdx.map fun e => (e.1, envs e.2)
  let (ctx, result) := items.foldl (arbitrateOne selected) (ctx, {})
  (if result.failedCount = 0 then .ok else .generic, ctx, result)

/-- The hardware is not the one of the last probe. -/
def topologyChanged (hw : List HwDevice) : Bool :=
  ctx.probed && tyHwTopologyHash hw ctx.sessionKey != ctx.probeHash

def tykidArbitrate (dir : Dir) (ctx : GateCtx) (hw : List HwDevice) (scan : ScanEnv) (envs : Nat → LoadEnv) :
    Status × GateCtx × LoadResult :=
  if tykidVerifySeal ctx ≠ .ok then (tykidVerifySeal ctx, ctx, {})
  else if topologyChanged ctx hw then
    let (st, reg) := tyRegistryScan ctx.cfg.pathIterFn dir scan
    if st ≠ .ok then (st, { ctx with reg := reg }, {})
    else arbitrateRun { ctx with reg := reg, probeHash := tyHwTopologyHash hw ctx.sessionKey } hw envs
  else arbitrateRun ctx hw envs

def tykidLoadDriver (name : CStr) (env : LoadEnv) : Status × GateCtx :=
  if tykidVerifySeal ctx ≠ .ok then (tykidVerifySeal ctx, ctx)
  else
    match tyFindDriverByName ctx name with
    | none => (.noDriver, ctx)
    | some idx => tyGateLoadOne ctx idx env

/-- `tykid_unload_driver`; `st` is what the unload function returns. -/
def tykidUnloadDriver (name : CStr) (st : Status) : Status × GateCtx :=
  if tykidVerifySeal ctx ≠ .ok then (tykidVerifySeal ctx, ctx)
  else
    match tyFindDriverByName ctx name with
    | none => (.noDriver, ctx)
    | some idx =>
      let drv := ctx.reg.entries.getD idx {}
      if drv.state ≠ .active then (.generic, ctx)
      else if !ctx.cfg.koUnloadFn then (.generic, ctx)
      else if st = .ok then
        (st, { ctx.setDrv idx { drv with state := .unloaded, baseVaddr := 0 } with
          totalLoaded := ctx.totalLoaded - 1 })
      else (st, ctx)

def tykidBlacklistDriver (name : CStr) : Status × GateCtx :=
  match tyFindDriverByName ctx name with
  | none => (.noDriver, ctx)
  | some idx =>
    let drv := ctx.reg.entries.getD idx {}
    (.ok, ctx.setDrv idx { drv with flags := drv.flags ||| flagBlacklisted })

/-- One entry of `tykid_recheck_all`, with what the integrity check answers. -/
def recheckOne (cfg : GateConfig) (integrity : CStr → Text → Status) (drv : DriverDesc) : DriverDesc :=
  if drv.state = .active ∧ integrity (fullPath cfg drv.path) drv.hmac ≠ .ok then
    { drv with
      flags := drv.flags ||| flagBlacklisted, state := .blocked, threatClass := .tampered
      baseVaddr := if cfg.koUnloadFn then 0 else drv.baseVaddr }
  else drv

def tykidRecheckAll (integrity : Nat → CStr → Text → Status) : Status × GateCtx :=
  if tykidVerifySeal ctx ≠ .ok then (tykidVerifySeal ctx, ctx)
  else
    let entries := ctx.reg.entries.mapIdx fun i drv => recheckOne ctx.cfg (integrity i) drv
    let failCount := ctx.reg.entries.zipIdx.countP fun e =>
      e.1.state = .active ∧ integrity e.2 (fullPath ctx.cfg e.1.path) e.1.hmac ≠ .ok
    (if failCount = 0 then .ok else .driverCorrupt,
      { ctx with
        reg := { ctx.reg with entries := entries }
        totalBlocked := (ctx.totalBlocked + failCount) % 2 ^ 32, recheckCount := inc ctx.recheckCount })

def tykidRevokeDriver (name : CStr) : Status × GateCtx :=
  if tykidVerifySeal ctx ≠ .ok then (tykidVerifySeal ctx, ctx)
  else
    match tyFindDriverByName ctx name with
    | none => (.noDriver, ctx)
    | some idx =>
      let drv := ctx.reg.entries.getD idx {}
      (.ok, { ctx.setDrv idx { drv with
          baseVaddr := if ctx.cfg.koUnloadFn then 0 else drv.baseVaddr
          state := .blocked, threatClass := .revoked, flags := drv.flags ||| flagBlacklisted } with
        totalRevoked := inc ctx.totalRevoked })

end Code

/-! ## 6. What the gate does to one descriptor -/

/-- **Banned**: the gate refuses to load the descriptor. -/
def DriverDesc.Banned (d : DriverDesc) : Prop := d.has flagBlacklisted = true ∨ d.state = .blocked

/-- **One step of a descriptor**: the name stays, and a banned one stays banned and does not
    become ACTIVE. -/
structure EntryStep (d d' : DriverDesc) : Prop where
  name : d'.name = d.name
  banned : d.Banned → d'.Banned
  active : d.Banned → d'.state = .active → d.state = .active

theorem EntryStep.refl (d : DriverDesc) : EntryStep d d := ⟨rfl, id, fun _ => id⟩

theorem EntryStep.trans {a b c : DriverDesc} (h : EntryStep a b) (h' : EntryStep b c) : EntryStep a c :=
  ⟨h'.name.trans h.name, fun ha => h'.banned (h.banned ha),
    fun ha hc => h.active ha (h'.active (h.banned ha) hc)⟩

/-- **One step of the registry**: entry by entry. -/
abbrev Evolves : List DriverDesc → List DriverDesc → Prop := List.Forall₂ EntryStep

theorem Evolves.refl (es : List DriverDesc) : Evolves es es := List.forall₂_same.2 fun d _ => .refl d

theorem Evolves.trans {es es' es'' : List DriverDesc} (h : Evolves es es') (h' : Evolves es' es'') :
    Evolves es es'' := by
  induction h generalizing es'' with
  | nil => exact h'
  | cons hd _ ih =>
    cases h' with
    | cons hd' ht' => exact .cons (hd.trans hd') (ih ht')

theorem Evolves.back {es es' : List DriverDesc} (h : Evolves es es') {j : Nat} {d' : DriverDesc}
    (hd : es'[j]? = some d') : ∃ d, es[j]? = some d ∧ EntryStep d d' := by
  induction h generalizing j with
  | nil => exact nomatch hd
  | cons hstep _ ih =>
    cases j with
    | zero => exact ⟨_, rfl, Option.some.inj hd ▸ hstep⟩
    | succ j => exact ih hd

theorem Evolves.map {f : DriverDesc → DriverDesc} (hf : ∀ d, EntryStep d (f d)) (es : List DriverDesc) :
    Evolves es (es.map f) := by
  induction es with
  | nil => exact .nil
  | cons d es ih => exact .cons (hf d) ih

theorem Evolves.set {es : List DriverDesc} {ri : Nat} {d' : DriverDesc}
    (h : ri < es.length → EntryStep (es.getD ri {}) d') : Evolves es (es.set ri d') := by
  induction es generalizing ri with
  | nil => exact .nil
  | cons d es ih =>
    cases ri with
    | zero => exact .cons (h (Nat.succ_pos _)) (Evolves.refl es)
    | succ ri => exact .cons (.refl d) (ih fun hr => h (Nat.succ_lt_succ hr))

theorem has_or_right {d : DriverDesc} {f g : Nat} (h : f &&& g ≠ 0) : ({ d with flags := d.flags ||| f }).has g = true := by
  unfold DriverDesc.has
  rw [bne_iff_ne]
  intro h0
  grind

theorem EntryStep.ban {d d' : DriverDesc} (hname : d'.name = d.name) (hb : d'.Banned)
    (ha : d'.state = .active → d.state = .active) : EntryStep d d' := ⟨hname, fun _ => hb, fun _ => ha⟩

theorem EntryStep.free {d d' : DriverDesc} (hname : d'.name = d.name) (hb : ¬d.Banned) : EntryStep d d' :=
  ⟨hname, fun h => absurd h hb, fun h => absurd h hb⟩

/-! ## 7. What the calls do to the registry -/

section Calls

variable {ctx : GateCtx} {ri : Nat} {env : LoadEnv}

theorem loadChecked_evolves (hb : ¬(ctx.reg.entries.getD ri {}).Banned) :
    Evolves ctx.reg.entries (loadChecked ctx ri (ctx.reg.entries.getD ri {}) env).2.reg.entries := by
  have hset : ∀ d', d'.name = (ctx.reg.entries.getD ri {}).name →
      Evolves ctx.reg.entries (ctx.reg.entries.set ri d') := fun d' hn => .set fun _ => .free hn hb
  unfold loadChecked
  simp only
  split
  · exact hset _ rfl
  split
  · exact hset _ rfl
  split
  · exact hset _ rfl
  split
  · exact hset _ rfl
  split
  · exact hset _ rfl
  · exact hset _ rfl

theorem tyGateLoadOne_evolves : Evolves ctx.reg.entries (tyGateLoadOne ctx ri env).2.reg.entries := by
  unfold tyGateLoadOne
  simp only
  split
  · exact .refl _
  split
  · exact .refl _
  next hblocked =>
  split
  · exact .refl _
  split
  · exact .refl _
  next hflag =>
  split
  · exact .refl _
  · exact loadChecked_evolves fun h => h.elim hflag hblocked

theorem tySelectorApply_evolves : Evolves ctx.reg.entries (tySelectorApply ctx).reg.entries := by
  unfold tySelectorApply
  split
  · exact .refl _
  refine Evolves.map (fun d => ?_) _
  unfold selectorSkip
  split
  next h =>
    have hne : d.state ≠ .blocked := by
      rw [h.1]
      decide
    exact ⟨rfl, fun hb => .inl (hb.resolve_right hne), fun _ h => nomatch h⟩
  · exact .refl d

theorem arbitrateOne_evolves (selected : Nat → Bool) (result : LoadResult) (item : Nat × LoadEnv) :
    Evolves ctx.reg.entries (arbitrateOne selected (ctx, result) item).1.reg.entries := by
  unfold arbitrateOne
  simp only
  split
  · exact .refl _
  split
  · exact .refl _
  next hstate =>
  split
  · refine Evolves.set fun _ => ⟨rfl, fun hb => .inl ?_, fun _ h => nomatch h⟩
    exact hb.resolve_right fun h => hstate (.inl h)
  grind [tyGateLoadOne_evolves]

theorem arbitrateRun_evolves (ctx : GateCtx) (hw : List HwDevice) (envs : Nat → LoadEnv) :
    Evolves ctx.reg.entries (arbitrateRun ctx hw envs).2.1.reg.entries := by
  have hrun : ∀ (selected : Nat → Bool) (items : List (Nat × LoadEnv)) (acc : GateCtx × LoadResult),
      Evolves acc.1.reg.entries (items.foldl (arbitrateOne selected) acc).1.reg.entries := by
    intro selected items
    induction items with
    | nil => exact fun acc => .refl _
    | cons item items ih => exact fun acc => (arbitrateOne_evolves selected acc.2 item).trans (ih _)
  exact tySelectorApply_evolves.trans (hrun _ _ (tySelectorApply ctx, {}))

theorem tykidRecheckAll_evolves (integrity : Nat → CStr → Text → Status) :
    Evolves ctx.reg.entries (tykidRecheckAll ctx integrity).2.reg.entries := by
  have hone : ∀ (f : CStr → Text → Status) d, EntryStep d (recheckOne ctx.cfg f d) := by
    intro f d
    unfold recheckOne
    split
    · exact .ban rfl (.inr rfl) fun h => nomatch h
    · exact .refl d
  have hidx : ∀ (es : List DriverDesc) (F : Nat → CStr → Text → Status),
      Evolves es (es.mapIdx fun i d => recheckOne ctx.cfg (F i) d) := by
    intro es
    induction es with
    | nil => exact fun _ => .nil
    | cons d es ih =>
      intro F
      rw [List.mapIdx_cons]
      exact .cons (hone _ d) (ih fun i => F (i + 1))
  unfold tykidRecheckAll
  split
  · exact .refl _
  · exact hidx _ integrity

end Calls

end Kobalt.Tykid

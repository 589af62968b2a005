/-
  Subject: THE MAP OF IOMMU BINDINGS (`security/tykid/src/tykid_iommu.c`): the radix tree over the
  bus/slot/function number, `ty_iommu_bind_device`, `tykid_iommu_release_device` and
  `ty_iommu_block_unbound`.

  The four index fields of the tree leave out the bits 8 to 11 of the number, so devices that differ
  in the low four bits of the slot share a leaf; and a release frees the binding without taking it
  out of the tree. What the outside answers while a device is bound is an argument (`BindEnv`);
  an address is 0 or names a binding object, and the heap says which objects are live.
-/
import Kobalt.Tykid.Gate

namespace Kobalt.Tykid

open Function

/-! ## 1. The radix tree -/

/-- A node over children of type `α`. -/
structure RadixNode (α : Type) where
  children : Nat → Option α := fun _ => none

/-- The last level: addresses of bindings, 0 for none. -/
structure RadixLeaf where
  leaves : Nat → Nat := fun _ => 0

structure IommuMap where
  root : Option (RadixNode (RadixNode (RadixNode RadixLeaf))) := none
  count : Nat := 0

def RadixNode.set {α : Type} (n : RadixNode α) (i : Nat) (c : α) : RadixNode α :=
  ⟨update n.children i (some c)⟩

/-- The fields `l0`, `l1`, `l2` and `leaf_idx`. -/
def radixPath (bdf : Nat) : Nat × Nat × Nat × Nat :=
  (bdf >>> 20 &&& 0xF, bdf >>> 16 &&& 0xF, bdf >>> 12 &&& 0xF, bdf &&& 0x7)

/-- The child there is, or a new node if the allocation succeeds. -/
def childOr {α : Type} (granted : Bool) (fresh : α) : Option α → Option α
  | some n => some n
  | none => if granted then some fresh else none

/-- `ty_radix_insert`; `nodes i` says if the allocation of a node of level `i` succeeds. -/
def tyRadixInsert (nodes : Nat → Bool) (map : IommuMap) (bdf addr : Nat) : Status × IommuMap :=
  let (l0, l1, l2, leafIdx) := radixPath bdf
  match childOr (nodes 0) {} map.root with
  | none => (.alloc, map)
  | some n0 =>
    match childOr (nodes 1) {} (n0.children l0) with
    | none => (.alloc, { map with root := some n0 })
    | some n1 =>
      match childOr (nodes 2) {} (n1.children l1) with
      | none => (.alloc, { map with root := some (n0.set l0 n1) })
      | some n2 =>
        match childOr (nodes 3) {} (n2.children l2) with
        | none => (.alloc, { map with root := some (n0.set l0 (n1.set l1 n2)) })
        | some n3 =>
          if n3.leaves leafIdx ≠ 0 then
            (.alreadyLoaded, { map with root := some (n0.set l0 (n1.set l1 (n2.set l2 n3))) })
          else
            (.ok, ⟨some (n0.set l0 (n1.set l1 (n2.set l2 ⟨update n3.leaves leafIdx addr⟩))), inc map.count⟩)

def tyRadixLookup (map : IommuMap) (bdf : Nat) : Nat :=
  let (l0, l1, l2, leafIdx) := radixPath bdf
  match map.root with
  | none => 0
  | some n0 =>
    match n0.children l0 with
    | none => 0
    | some n1 =>
      match n1.children l1 with
      | none => 0
      | some n2 =>
        match n2.children l2 with
        | none => 0
        | some n3 => n3.leaves leafIdx

section Radix

variable {nodes : Nat → Bool} {map : IommuMap} {bdf : Nat}

theorem tyRadixLookup_congr {b b' : Nat} (h : radixPath b = radixPath b') :
    tyRadixLookup map b = tyRadixLookup map b' := by
  unfold tyRadixLookup
  rw [h]

/-- The leaf of a path, in a tree given by its levels. -/
def leafOf {α : Type} (o : Option (RadixNode α)) (i : Nat) : Option α := o.bind fun n => n.children i

theorem tyRadixLookup_eq (map : IommuMap) (bdf : Nat) : tyRadixLookup map bdf =
    match leafOf (leafOf (leafOf map.root (radixPath bdf).1) (radixPath bdf).2.1) (radixPath bdf).2.2.1 with
    | none => 0
    | some n => n.leaves (radixPath bdf).2.2.2 := by grind [tyRadixLookup, leafOf]

theorem leafOf_set {α : Type} (n : RadixNode α) (i j : Nat) (c : α) :
    leafOf (some (n.set i c)) j = if j = i then some c else n.children j := by
  show update n.children i (some c) j = _
  grind

theorem childOr_node {α : Type} (o : Option (RadixNode α)) :
    ∃ n, childOr true {} o = some n ∧ ∀ j, n.children j = leafOf o j := by
  cases o with
  | none => exact ⟨{}, rfl, fun _ => rfl⟩
  | some n => exact ⟨n, rfl, fun _ => rfl⟩

/-- The binding a leaf holds. -/
def slotOf (o : Option RadixLeaf) (i : Nat) : Nat :=
  match o with
  | none => 0
  | some n => n.leaves i

theorem childOr_leaf (o : Option RadixLeaf) :
    ∃ n, childOr true {} o = some n ∧ ∀ j, n.leaves j = slotOf o j := by
  cases o with
  | none => exact ⟨{}, rfl, fun _ => rfl⟩
  | some n => exact ⟨n, rfl, fun _ => rfl⟩

theorem leafOf_path {n0 : RadixNode (RadixNode (RadixNode RadixLeaf))} {n1 : RadixNode (RadixNode RadixLeaf)}
    {n2 : RadixNode RadixLeaf} {n3 : RadixLeaf} {o : Option (RadixNode (RadixNode (RadixNode RadixLeaf)))}
    {l0 l1 l2 : Nat} (h0 : ∀ j, n0.children j = leafOf o j) (h1 : ∀ j, n1.children j = leafOf (leafOf o l0) j)
    (h2 : ∀ j, n2.children j = leafOf (leafOf (leafOf o l0) l1) j) (k0 k1 k2 : Nat) :
    leafOf (leafOf (leafOf (some (n0.set l0 (n1.set l1 (n2.set l2 n3)))) k0) k1) k2 =
      if k0 = l0 ∧ k1 = l1 ∧ k2 = l2 then some n3 else leafOf (leafOf (leafOf o k0) k1) k2 := by
  rw [leafOf_set]
  by_cases e0 : k0 = l0
  · rw [if_pos e0, leafOf_set]
    by_cases e1 : k1 = l1
    · rw [if_pos e1, leafOf_set]
      grind
    grind
  · rw [if_neg e0, if_neg fun h => e0 h.1, h0]

/-- **`ty_radix_insert`** into an empty leaf: this path leads to the new binding, all others where they led. -/
theorem tyRadixInsert_ok (hnodes : ∀ i, nodes i = true) (h : tyRadixLookup map bdf = 0) (addr : Nat) :
    ∃ map', tyRadixInsert nodes map bdf addr = (.ok, map') ∧ ∀ b, tyRadixLookup map' b =
      if radixPath b = radixPath bdf then addr else tyRadixLookup map b := by
  obtain ⟨n0, e0, h0⟩ := childOr_node map.root
  obtain ⟨n1, e1, h1⟩ := childOr_node (n0.children (radixPath bdf).1)
  obtain ⟨n2, e2, h2⟩ := childOr_node (n1.children (radixPath bdf).2.1)
  obtain ⟨n3, e3, h3⟩ := childOr_leaf (n2.children (radixPath bdf).2.2.1)
  have hempty : n3.leaves (radixPath bdf).2.2.2 = 0 := by
    rw [tyRadixLookup_eq] at h
    rw [h3, h2, h1, h0]
    exact h
  refine ⟨⟨some (n0.set (radixPath bdf).1 (n1.set (radixPath bdf).2.1 (n2.set (radixPath bdf).2.2.1
    ⟨update n3.leaves (radixPath bdf).2.2.2 addr⟩))), inc map.count⟩, ?_, fun b => ?_⟩
  · unfold tyRadixInsert
    grind
  · rw [tyRadixLookup_eq, tyRadixLookup_eq map b]
    rw [h0] at h1
    rw [h1] at h2
    rw [leafOf_path h0 h1 h2]
    by_cases hp : (radixPath b).1 = (radixPath bdf).1 ∧ (radixPath b).2.1 = (radixPath bdf).2.1 ∧
        (radixPath b).2.2.1 = (radixPath bdf).2.2.1
    · rw [if_pos hp]
      dsimp only
      by_cases hl : (radixPath b).2.2.2 = (radixPath bdf).2.2.2
      · grind
      · rw [update_of_ne hl, if_neg fun e => hl (by rw [e]), h3, h2, hp.1, hp.2.1, hp.2.2]
        rfl
    grind

end Radix

/-! ## 2. The calls -/

/-- `ty_iommu_region_t`. -/
structure IommuRegion where
  physBase : Nat
  length : Nat
  perm : Nat
  deriving DecidableEq, Repr

abbrev iommuPermRw : Nat := 0x03

/-- `ty_iommu_binding_t`; `regions` is the array up to its count. -/
structure IommuBinding where
  bdf : Nat := 0
  domain : Nat := 0
  regions : List IommuRegion := []
  attached : Bool := false
  blocked : Bool := false
  canary : UInt64 := 0
  deriving DecidableEq, Repr

/-- `ty_iommu_state_t` and the binding objects that are live. -/
structure IommuState where
  map : IommuMap := {}
  domainCount : Nat := 0
  heap : Nat → Option IommuBinding := fun _ => none

/-- What the outside answers while a device is bound: the address of the new object (0 if there is none),
    the domain, the regions a probe leaves, the attachment, the nodes of the tree. -/
structure BindEnv where
  addr : Nat
  domainStatus : Status
  domain : Nat
  probeStatus : Status
  regions : List IommuRegion
  attachStatus : Status
  nodes : Nat → Bool

def bdfOf (bus slot func : Nat) : Nat := bus <<< 16 ||| slot <<< 8 ||| func

def tyIommuMakeCanary (key : Text) (bdf : Nat) : UInt64 :=
  tySiphash24 key (numBytes 4 bdf ++ numBytes 8 kobaltExpected)

def tyIommuCanaryOk (key : Text) (b : IommuBinding) : Bool := b.canary == tyIommuMakeCanary key b.bdf

def tyIommuBindDevice (key : Text) (s : IommuState) (dev : HwDevice) (env : BindEnv) :
    Status × IommuState :=
  let bdf := bdfOf dev.bus dev.slot dev.func
  if tyRadixLookup s.map bdf ≠ 0 then (.alreadyLoaded, s) else
  if env.addr = 0 then (.alloc, s) else
  if env.domainStatus ≠ .ok then (env.domainStatus, s) else
  let regions :=
    if env.probeStatus ≠ .ok ∧ dev.mmioBase ≠ 0 ∧ dev.mmioSize ≠ 0 then
      [⟨dev.mmioBase, dev.mmioSize, iommuPermRw⟩]
    else env.regions
  if env.attachStatus ≠ .ok then (env.attachStatus, s) else
  let b : IommuBinding := { bdf, domain := env.domain, regions, attached := true,
                            canary := tyIommuMakeCanary key bdf }
  match tyRadixInsert env.nodes s.map bdf env.addr with
  | (.ok, map) => (.ok, ⟨map, inc s.domainCount, update s.heap env.addr (some b)⟩)
  | (st, map) => (st, { s with map })

/-- `ty_iommu_block_unbound`: does it block the device? -/
def tyIommuBlockUnbound (s : IommuState) (bus slot func : Nat) : Bool :=
  tyRadixLookup s.map (bdfOf bus slot func) == 0

/-- `tykid_iommu_release_device`; no answer if it reads an object that was freed. -/
def tykidIommuReleaseDevice (key : Text) (s : IommuState) (bus slot func : Nat) :
    Option (Status × IommuState) :=
  let p := tyRadixLookup s.map (bdfOf bus slot func)
  if p = 0 then some (.noDriver, s) else
  match s.heap p with
  | none => none
  | some b =>
    if tyIommuCanaryOk key b then some (.ok, { s with heap := update s.heap p none })
    else some (.driverCorrupt, { s with heap := update s.heap p (some {}) })

/-! ## 3. Runs -/

/-- Bus, slot and function. -/
abbrev DevId := Nat × Nat × Nat

def DevId.bdf (d : DevId) : Nat := bdfOf d.1 d.2.1 d.2.2

def DevId.Valid (d : DevId) : Prop := d.1 < 256 ∧ d.2.1 < 32 ∧ d.2.2 < 8

instance (d : DevId) : Decidable d.Valid := inferInstanceAs (Decidable (_ ∧ _ ∧ _))

inductive IommuOp where
  | bind (dev : HwDevice) (env : BindEnv)
  | release (d : DevId)
  | block (d : DevId)

/-- The device of a call. -/
def IommuOp.dev : IommuOp → DevId
  | .bind dev _ => (dev.bus, dev.slot, dev.func)
  | .release d => d
  | .block d => d

inductive IommuAnswer where
  | status (st : Status)
  | blocked (b : Bool)
  | undefined
  deriving DecidableEq, Repr

def iommuCall (key : Text) (s : IommuState) : IommuOp → IommuAnswer × IommuState
  | .bind dev env =>
    let (st, s) := tyIommuBindDevice key s dev env
    (.status st, s)
  | .release d =>
    match tykidIommuReleaseDevice key s d.1 d.2.1 d.2.2 with
    | some (st, s) => (.status st, s)
    | none => (.undefined, s)
  | .block d => (.blocked (tyIommuBlockUnbound s d.1 d.2.1 d.2.2), s)

/-- **The devices a log leaves bound**: bound with success, and not released since. -/
def boundBy : Log IommuOp IommuAnswer → DevId → Bool
  | [] => fun _ => false
  | (op, .status .ok) :: h =>
    match op with
    | .bind dev _ => update (boundBy h) (dev.bus, dev.slot, dev.func) true
    | .release d => update (boundBy h) d false
    | .block _ => boundBy h
  | _ :: h => boundBy h

/-- What the calls answer over a set of bound devices. -/
def boundAnswer (bound : DevId → Bool) : IommuOp → IommuAnswer
  | .bind dev _ => .status (if bound (dev.bus, dev.slot, dev.func) then .alreadyLoaded else .ok)
  | .release d => .status (if bound d then .ok else .noDriver)
  | .block d => .blocked (!bound d)

/-- **The law**: every call was answered from the devices bound before it. -/
def BoundLog : Log IommuOp IommuAnswer → Prop
  | [] => True
  | (op, a) :: h => a = boundAnswer (boundBy h) op ∧ BoundLog h

/-- A valid device, allocations and IOMMU calls that succeed; a new object is where no live one is. -/
def IommuGranted (s : IommuState) (op : IommuOp) : Prop :=
  op.dev.Valid ∧ ∀ dev env, op = .bind dev env → env.addr ≠ 0 ∧ s.heap env.addr = none ∧
    env.domainStatus = .ok ∧ env.attachStatus = .ok ∧ ∀ i, env.nodes i = true

/-- The devices a log ever bound. -/
def everBound : Log IommuOp IommuAnswer → DevId → Prop
  | [], _ => False
  | (.bind dev _, .status .ok) :: h, d => d = (dev.bus, dev.slot, dev.func) ∨ everBound h d
  | _ :: h, d => everBound h d

/-- **The leaf is the device's own**: of the devices whose path through the tree is this one's, none other
    was ever bound, and this one, if it ever was, still is. -/
def OwnLeaf (h : Log IommuOp IommuAnswer) (d : DevId) : Prop :=
  ∀ d', everBound h d' → radixPath d'.bdf = radixPath d.bdf → d' = d ∧ boundBy h d = true

/-- Every call was about a device with a leaf of its own. -/
def OwnLeaves : Log IommuOp IommuAnswer → Prop
  | [] => True
  | (op, _) :: h => OwnLeaf h op.dev ∧ OwnLeaves h

/-- The leaf of the device is empty, or holds the live binding of that very device. -/
def Separate (s : IommuState) (d : DevId) : Prop :=
  tyRadixLookup s.map d.bdf ≠ 0 → ∃ b, s.heap (tyRadixLookup s.map d.bdf) = some b ∧ b.bdf = d.bdf

/-- A lookup returns a binding exactly for a bound device, and that device's. -/
def LookupRight (s : IommuState) (bound : DevId → Bool) (d : DevId) : Prop :=
  (tyRadixLookup s.map d.bdf ≠ 0 ↔ bound d = true) ∧ (tyRadixLookup s.map d.bdf ≠ 0 →
    ∃ b, s.heap (tyRadixLookup s.map d.bdf) = some b ∧ b.bdf = d.bdf)

theorem DevId.bdf_eq {d : DevId} (h : d.Valid) : d.bdf = d.1 * 65536 + d.2.1 * 256 + d.2.2 := by
  obtain ⟨h1, h2, h3⟩ := h
  grind [DevId.bdf, bdfOf, Nat.shiftLeft_add_eq_or_of_lt, Nat.shiftLeft_eq]

theorem DevId.bdf_inj {d d' : DevId} (h : d.Valid) (h' : d'.Valid) (he : d.bdf = d'.bdf) : d = d' := by
  rw [DevId.bdf_eq h, DevId.bdf_eq h'] at he
  obtain ⟨a, b, c⟩ := d
  obtain ⟨a', b', c'⟩ := d'
  obtain ⟨-, h2, h3⟩ := h
  obtain ⟨-, h2', h3'⟩ := h'
  grind

/-- **The bindings and the devices**: every live object is the binding of a bound device, and its leaf leads
    to it; every bound device has its object. -/
structure Bindings (key : Text) (s : IommuState) (bound : DevId → Bool) : Prop where
  live : ∀ p b, s.heap p = some b → ∃ d : DevId, d.Valid ∧ b.bdf = d.bdf ∧ bound d = true ∧
    tyRadixLookup s.map d.bdf = p ∧ tyIommuCanaryOk key b = true
  bound : ∀ d : DevId, d.Valid → bound d = true → ∃ b, tyRadixLookup s.map d.bdf ≠ 0 ∧
    s.heap (tyRadixLookup s.map d.bdf) = some b ∧ b.bdf = d.bdf

section Step

variable {key : Text} {s : IommuState} {bound : DevId → Bool} (h : Bindings key s bound)
include h

theorem Bindings.lookup_iff {d : DevId} (hd : d.Valid) : LookupRight s bound d ↔ Separate s d := by
  refine ⟨fun hr => hr.2, fun hs => ⟨⟨fun hne => ?_, fun hb => ?_⟩, hs⟩⟩
  · obtain ⟨b, hp, hbdf⟩ := hs hne
    obtain ⟨d', hd', hbdf', hb', -⟩ := h.live _ b hp
    rw [DevId.bdf_inj hd hd' (hbdf.symm.trans hbdf')]
    exact hb'
  grind [h.bound]

theorem bind_bindings {dev : HwDevice} {env : BindEnv} (hg : IommuGranted s (.bind dev env))
    (hs : Separate s (dev.bus, dev.slot, dev.func)) :
    (bound (dev.bus, dev.slot, dev.func) = true ∧ tyIommuBindDevice key s dev env = (.alreadyLoaded, s)) ∨
      ∃ s', bound (dev.bus, dev.slot, dev.func) = false ∧ tyIommuBindDevice key s dev env = (.ok, s') ∧
        Bindings key s' (update bound (dev.bus, dev.slot, dev.func) true) ∧ ∀ b, tyRadixLookup s'.map b =
          if radixPath b = radixPath (bdfOf dev.bus dev.slot dev.func) then env.addr
          else tyRadixLookup s.map b := by
  obtain ⟨hd, henv⟩ := hg
  obtain ⟨ha, hfree, hdom, hatt, hnodes⟩ := henv dev env rfl
  have hd : DevId.Valid (dev.bus, dev.slot, dev.func) := hd
  obtain ⟨d, hde⟩ : ∃ d : DevId, d = (dev.bus, dev.slot, dev.func) := ⟨_, rfl⟩
  have hbdf : bdfOf dev.bus dev.slot dev.func = d.bdf := by rw [hde]; rfl
  rw [← hde] at hd hs ⊢
  unfold tyIommuBindDevice
  dsimp only
  rw [hbdf]
  by_cases hl : tyRadixLookup s.map d.bdf = 0
  · refine .inr ?_
    obtain ⟨map', hins, hlook⟩ := tyRadixInsert_ok hnodes hl env.addr
    rw [if_neg (not_not.2 hl), if_neg ha, if_neg (not_not.2 hdom), if_neg (not_not.2 hatt), hins]
    have hnb : bound d = false := by
      by_contra hb
      obtain ⟨b, hne, -⟩ := h.bound d hd (by simpa using hb)
      exact hne hl
    -- a device whose leaf is another keeps its object
    have hkeep : ∀ d' : DevId, tyRadixLookup s.map d'.bdf ≠ 0 →
        tyRadixLookup map' d'.bdf = tyRadixLookup s.map d'.bdf := by
      intro d' hne
      rw [hlook, if_neg]
      intro hp
      exact hne (by rw [tyRadixLookup_congr hp, hl])
    have hself : tyRadixLookup map' d.bdf = env.addr := by rw [hlook, if_pos rfl]
    refine ⟨_, hnb, rfl, ⟨fun p b hp => ?_, fun d' hd' hb => ?_⟩, hlook⟩
    · dsimp only at hp ⊢
      by_cases hpa : p = env.addr
      · rw [hpa, update_self] at hp
        obtain rfl := Option.some.inj hp
        exact ⟨d, hd, rfl, update_self .., hself.trans hpa.symm, by simp [tyIommuCanaryOk]⟩
      · rw [update_of_ne hpa] at hp
        obtain ⟨d', hd', hbdf', hb', hp', hc⟩ := h.live p b hp
        obtain ⟨-, hne, -⟩ := h.bound d' hd' hb'
        refine ⟨d', hd', hbdf', ?_, (hkeep d' hne).trans hp', hc⟩
        rw [update_of_ne (fun e => by rw [e, hnb] at hb'; cases hb')]
        exact hb'
    · dsimp only
      by_cases hdd : d' = d
      · rw [hdd, hself, update_self]
        exact ⟨_, ha, rfl, rfl⟩
      · rw [update_of_ne hdd] at hb
        obtain ⟨b, hne, hp, hbdf'⟩ := h.bound d' hd' hb
        grind
  · refine .inl ⟨((h.lookup_iff hd).2 hs).1.1 hl, ?_⟩
    rw [if_pos hl]

theorem release_bindings {d : DevId} (hd : d.Valid) (hs : Separate s d) :
    (bound d = false ∧ tykidIommuReleaseDevice key s d.1 d.2.1 d.2.2 = some (.noDriver, s)) ∨
      ∃ s', bound d = true ∧ tykidIommuReleaseDevice key s d.1 d.2.1 d.2.2 = some (.ok, s') ∧
        Bindings key s' (update bound d false) ∧ s'.map = s.map := by
  have hright := (h.lookup_iff hd).2 hs
  unfold tykidIommuReleaseDevice
  dsimp only
  rw [show bdfOf d.1 d.2.1 d.2.2 = d.bdf from rfl]
  by_cases hl : tyRadixLookup s.map d.bdf = 0
  · refine .inl ⟨?_, by rw [if_pos hl]⟩
    rw [← Bool.not_eq_true, ← hright.1]
    exact not_not.2 hl
  · obtain ⟨b, hp, hbdf⟩ := hs hl
    obtain ⟨-, -, -, -, -, hc⟩ := h.live _ b hp
    refine .inr ⟨{ s with heap := update s.heap (tyRadixLookup s.map d.bdf) none }, hright.1.1 hl, by rw [if_neg hl, hp]; exact if_pos hc,
      ⟨fun p b' hp' => ?_, fun d' hd' hb => ?_⟩, rfl⟩
    · grind [h.live]
    · have hdd : d' ≠ d := fun e => by rw [e, update_self] at hb; cases hb
      rw [update_of_ne hdd] at hb
      obtain ⟨b', hne, hp', hbdf'⟩ := h.bound d' hd' hb
      refine ⟨b', hne, ?_, hbdf'⟩
      dsimp only
      rw [update_of_ne]
      · exact hp'
      · intro e
        rw [e, hp] at hp'
        obtain rfl := Option.some.inj hp'
        exact hdd (DevId.bdf_inj hd' hd (hbdf'.symm.trans hbdf))

end Step

/-- **The leaves and the log**: a leaf is taken if a device of its path was ever bound, and by one only. -/
structure Leaves (s : IommuState) (h : Log IommuOp IommuAnswer) : Prop where
  taken : ∀ d : DevId, tyRadixLookup s.map d.bdf ≠ 0 ↔
    ∃ d', everBound h d' ∧ radixPath d'.bdf = radixPath d.bdf
  once : ∀ d d', everBound h d → everBound h d' → radixPath d.bdf = radixPath d'.bdf → d = d'
  ever : ∀ d, boundBy h d = true → everBound h d

section Run

variable {key : Text} {s : IommuState} {h : Log IommuOp IommuAnswer}
  (hB : Bindings key s (boundBy h)) (hL : Leaves s h)
include hB hL

theorem Leaves.separate {d : DevId} (hd : d.Valid) (ho : OwnLeaf h d) : Separate s d := by
  intro hne
  obtain ⟨d', he, hp⟩ := (hL.taken d).1 hne
  obtain ⟨b, -, hb⟩ := hB.bound d hd (ho d' he hp).2
  exact ⟨b, hb⟩

theorem Leaves.lookup_iff {d : DevId} (hd : d.Valid) : LookupRight s (boundBy h) d ↔ OwnLeaf h d := by
  refine ⟨fun hr d' he hp => ?_, fun ho => (hB.lookup_iff hd).2 (hL.separate hB hd ho)⟩
  have hb : boundBy h d = true := hr.1.1 ((hL.taken d).2 ⟨d', he, hp⟩)
  exact ⟨hL.once d' d he (hL.ever d hb) hp, hb⟩

theorem iommuCall_bindings {op : IommuOp} (hg : IommuGranted s op) (ho : OwnLeaf h op.dev) :
    (iommuCall key s op).1 = boundAnswer (boundBy h) op ∧
      Bindings key (iommuCall key s op).2 (boundBy ((op, (iommuCall key s op).1) :: h)) ∧
      Leaves (iommuCall key s op).2 ((op, (iommuCall key s op).1) :: h) := by
  have hs : Separate s op.dev := hL.separate hB hg.1 ho
  cases op with
  | bind dev env =>
    rcases bind_bindings hB hg hs with ⟨hb, he⟩ | ⟨s', hb, he, hB', hlook⟩
    · rw [iommuCall, he, boundAnswer, hb]
      exact ⟨rfl, hB, hL.taken, hL.once, hL.ever⟩
    · rw [iommuCall, he, boundAnswer, hb]
      refine ⟨rfl, hB', fun d => ?_, ?_, fun d hd => ?_⟩
      · rw [hlook]
        by_cases hp : radixPath d.bdf = radixPath (bdfOf dev.bus dev.slot dev.func)
        · rw [if_pos hp]
          exact ⟨fun _ => ⟨_, .inl rfl, hp.symm⟩, fun _ => (hg.2 dev env rfl).1⟩
        · rw [if_neg hp, hL.taken]
          refine ⟨fun ⟨d', he', hp'⟩ => ⟨d', .inr he', hp'⟩, fun ⟨d', he', hp'⟩ => ?_⟩
          rcases he' with rfl | he'
          · exact absurd hp'.symm hp
          · exact ⟨d', he', hp'⟩
      · -- a device of the new one's path that was bound before would be the new one, and bound
        have hnew : ∀ d', everBound h d' → radixPath d'.bdf ≠ radixPath (bdfOf dev.bus dev.slot dev.func) := by
          intro d' he' hp'
          have hb' := (ho d' he' hp').2
          rw [show boundBy h (IommuOp.bind dev env).dev = false from hb] at hb'
          cases hb'
        intro d d' hd hd' hp
        rcases hd with rfl | hd
        · rcases hd' with rfl | hd'
          · rfl
          · exact absurd hp.symm (hnew d' hd')
        · rcases hd' with rfl | hd'
          · exact absurd hp (hnew d hd)
          · exact hL.once d d' hd hd' hp
      · by_cases hdd : d = (dev.bus, dev.slot, dev.func)
        · exact .inl hdd
        · exact .inr (hL.ever d ((update_of_ne hdd ..).symm.trans hd))
  | release d =>
    rcases release_bindings hB hg.1 hs with ⟨hb, he⟩ | ⟨s', hb, he, hB', hmap⟩
    · dsimp only [IommuOp.dev] at hb he
      rw [iommuCall, he, boundAnswer, hb]
      exact ⟨rfl, hB, hL.taken, hL.once, hL.ever⟩
    · dsimp only [IommuOp.dev] at hb he
      rw [iommuCall, he, boundAnswer, hb]
      refine ⟨rfl, hB', fun d' => ?_, hL.once, fun d' hd' => ?_⟩
      · rw [hmap]
        exact hL.taken d'
      · have hdd : d' ≠ d := fun e => by rw [e] at hd'; exact absurd ((update_self ..).symm.trans hd') (by decide)
        exact hL.ever d' ((update_of_ne hdd ..).symm.trans hd')
  | block d =>
    refine ⟨?_, hB, hL.taken, hL.once, hL.ever⟩
    have hright : tyRadixLookup s.map d.bdf ≠ 0 ↔ boundBy h d = true := ((hB.lookup_iff hg.1).2 hs).1
    show IommuAnswer.blocked (tyRadixLookup s.map d.bdf == 0) = .blocked (!boundBy h d)
    grind

end Run

/-- **The binding map.** In every run from the empty map whose calls are granted and are about devices with a
    leaf of their own, every answer is that of the set of bound devices; and in the state reached a lookup is
    right for exactly the devices whose leaf is their own. -/
theorem iommu_bindings_hold (key : Text) (h : Log IommuOp IommuAnswer) (s : IommuState)
    (hr : Reach IommuGranted (iommuCall key) {} h s) (ho : OwnLeaves h) :
    BoundLog h ∧ ∀ d : DevId, d.Valid → (LookupRight s (boundBy h) d ↔ OwnLeaf h d) := by
  have hinv : OwnLeaves h → BoundLog h ∧ Bindings key s (boundBy h) ∧ Leaves s h := by
    refine hr.inv (I := fun h s => OwnLeaves h → BoundLog h ∧ Bindings key s (boundBy h) ∧ Leaves s h) ?_ ?_
    · intro _
      refine ⟨trivial, ⟨fun p b hp => ?_, fun d _ hb => ?_⟩, fun d => ?_, fun d d' hd => ?_, fun d hd => ?_⟩
      · cases hp
      · cases hb
      · exact ⟨fun hne => absurd rfl hne, fun ⟨d', he, _⟩ => he.elim⟩
      · exact hd.elim
      · cases hd
    · intro h s op hI hg ho
      obtain ⟨hlog, hB, hL⟩ := hI ho.2
      obtain ⟨ha, hB', hL'⟩ := iommuCall_bindings hB hL hg ho.1
      exact ⟨⟨ha, hlog⟩, hB', hL'⟩
  obtain ⟨hlog, hB, hL⟩ := hinv ho
  exact ⟨hlog, fun d hd => hL.lookup_iff hB hd⟩

/-- A device of the first bus, and an outside that grants it an object at the address. -/
def plainDev (slot : Nat) : HwDevice := { slot }

def plainEnv (addr : Nat) : BindEnv := ⟨addr, .ok, 1, .ok, [], .ok, fun _ => true⟩

theorem plainDev_granted {s : IommuState} (slot addr : Nat) (hslot : slot < 32) (ha : addr ≠ 0)
    (hfree : s.heap addr = none) : IommuGranted s (.bind (plainDev slot) (plainEnv addr)) := by
  refine ⟨⟨Nat.zero_lt_succ _, hslot, Nat.zero_lt_succ _⟩, fun dev env he => ?_⟩
  obtain ⟨-, rfl⟩ := IommuOp.bind.inj he
  exact ⟨ha, hfree, rfl, rfl, fun _ => rfl⟩

/-- 00:00.0 and 00:10.0 have leaves of their own and are bound; 00:01.0 would meet the leaf of the first. -/
theorem iommu_bindings_hold_two : ∃ (h : Log IommuOp IommuAnswer) (s : IommuState),
    Reach IommuGranted (iommuCall []) {} h s ∧ OwnLeaves h ∧ boundBy h (0, 0, 0) = true ∧ BoundLog h ∧
      LookupRight s (boundBy h) (0, 16, 0) ∧ ¬ LookupRight s (boundBy h) (0, 1, 0) := by
  have r1 : Reach IommuGranted (iommuCall []) {} [(.bind (plainDev 0) (plainEnv 1), .status .ok)] _ :=
    Reach.start.next (plainDev_granted 0 1 (by decide) (by decide) rfl) rfl
  have r2 := r1.next (plainDev_granted 16 2 (by decide) (by decide) rfl) rfl
  have ho : OwnLeaves [(.bind (plainDev 16) (plainEnv 2), .status .ok),
      (.bind (plainDev 0) (plainEnv 1), .status .ok)] := by
    refine ⟨fun d he hp => ?_, fun d he => he.elim, trivial⟩
    rcases he with rfl | he
    · exact absurd hp (by decide)
    · exact he.elim
  obtain ⟨hlog, hl⟩ := iommu_bindings_hold [] _ _ r2 ho
  refine ⟨_, _, r2, ho, rfl, hlog, (hl (0, 16, 0) (by decide)).2 fun d he hp => ?_, fun hr => ?_⟩
  · rcases he with rfl | rfl | he
    · exact ⟨rfl, rfl⟩
    · exact absurd hp (by decide)
    · exact he.elim
  · have := ((hl (0, 1, 0) (by decide)).1 hr (0, 0, 0) (.inr (.inl rfl)) (by decide)).1
    exact absurd this (by decide)

/-- **Two devices, one leaf.** With 00:00.0 bound, 00:01.0 is not, but it can be neither bound nor blocked. -/
theorem iommu_refuses_second_device : ∃ (h : Log IommuOp IommuAnswer) (s : IommuState),
    Reach IommuGranted (iommuCall []) {} h s ∧ boundBy h (0, 1, 0) = false ∧
      (iommuCall [] s (.bind (plainDev 1) (plainEnv 2))).1 = .status .alreadyLoaded ∧
      (iommuCall [] s (.block (0, 1, 0))).1 = .blocked false := by
  have r1 : Reach IommuGranted (iommuCall []) {} [(.bind (plainDev 0) (plainEnv 1), .status .ok)] _ :=
    Reach.start.next (plainDev_granted 0 1 (by decide) (by decide) rfl) rfl
  exact ⟨_, _, r1, rfl, rfl, rfl⟩

end Kobalt.Tykid

/-
  Subject: THE DRIVER REGISTRY (`security/tykid/src/tykid_registry.c`): the manifest parser and
  `ty_registry_scan`, which forgets the registry and reads the drivers directory anew.

  What the outside world answers (the allocation, how far the directory walk gets) is an argument.
  `tyRegistryScan_entries` says where the entries of a scanned registry come from: from manifests
  alone, so nothing of the registry before the scan survives it.
-/
import Mathlib.Data.List.DropRight
import Kobalt.Tykid.DepGraph
import Kobalt.Lib.Bytes

namespace Kobalt.Tykid

open List

/-! ## 1. Strings -/

/-- A C string: the bytes before the NUL. -/
abbrev CStr := Text

/-- The bytes of a text. -/
def cstr (s : List Char) : CStr := s.map fun c => UInt8.ofNat c.toNat

abbrev tykidMaxName : Nat := 64
abbrev tykidMaxPath : Nat := 256
abbrev tykidMaxDeps : Nat := 16

/-- `ty_strncpy` into a buffer of `n` bytes. -/
def tyStrncpy (src : CStr) (n : Nat) : CStr := src.take (n - 1)

/-- `ty_strncmp(a, b, TYKID_MAX_NAME) == 0`. -/
def sameName (a b : CStr) : Bool := a.take tykidMaxName == b.take tykidMaxName

theorem sameName_iff {a b : CStr} : sameName a b = true ↔ a.take tykidMaxName = b.take tykidMaxName :=
  beq_iff_eq

/-! ## 2. Descriptors -/

inductive Status where
  | ok | generic | sealBroken | noDriver | driverCorrupt | alloc | path | cycle | timeout
  | alreadyLoaded | blacklist | threatBlocked | notEssential
  | external (code : Int)
  deriving DecidableEq, Repr

inductive DrvState where
  | absent | pending | loading | active | failed | suspended | unloaded | blocked | skipped
  deriving DecidableEq, Repr

inductive ThreatClass where
  | none | suspicious | unsigned | rubbish | tampered | unknown | malware | revoked
  deriving DecidableEq, Repr

/-- `tykid_driver_desc_t`; `hwClasses` and `deps` are the arrays up to their counts. -/
structure DriverDesc where
  name : CStr := []
  path : CStr := []
  hwClasses : List Nat := []
  vendorMask : Nat := 0
  deviceMask : Nat := 0
  flags : Nat := 0
  versionMajor : Nat := 0
  versionMinor : Nat := 0
  deps : List Nat := []
  priority : Nat := 0
  hmac : Text := List.replicate 32 0
  state : DrvState := .absent
  threatClass : ThreatClass := .none
  loadTimestamp : Nat := 0
  baseVaddr : Nat := 0
  deriving DecidableEq, Repr

abbrev flagLazy : Nat := 0x2
abbrev flagSingleton : Nat := 0x4
abbrev flagVerified : Nat := 0x8
abbrev flagBlacklisted : Nat := 0x10
abbrev flagFallback : Nat := 0x20
abbrev flagExclusive : Nat := 0x40

/-- `drv->flags & flag`. -/
def DriverDesc.has (d : DriverDesc) (flag : Nat) : Bool := d.flags &&& flag != 0

/-! ## 3. The manifest parser -/

def tyHexdigit (c : UInt8) : Option Nat :=
  if 48 ≤ c ∧ c ≤ 57 then some (c.toNat - 48)
  else if 97 ≤ c ∧ c ≤ 102 then some (c.toNat - 97 + 10)
  else if 65 ≤ c ∧ c ≤ 70 then some (c.toNat - 65 + 10)
  else none

def tyParseHex (s : CStr) : Nat :=
  (s.takeWhile fun c => (tyHexdigit c).isSome).foldl
    (fun v c => (v <<< 4 ||| (tyHexdigit c).getD 0) % 2 ^ 64) 0

def tyParseDec (s : CStr) : Nat :=
  (s.takeWhile fun c => 48 ≤ c && c ≤ 57).foldl (fun v c => (v * 10 + (c.toNat - 48)) % 2 ^ 32) 0

def tySkipWs (s : CStr) : CStr := s.dropWhile fun c => c == 32 || c == 9 || c == 13

def tySkipToken (s : CStr) : CStr :=
  tySkipWs (s.dropWhile fun c => !(c == 32 || c == 9 || c == 13 || c == 10))

def tyKeyEq (line key : CStr) : Bool :=
  line.take key.length == key &&
    match line.drop key.length with
    | c :: _ => c == 32 || c == 9
    | [] => false

def tyStripNl (s : CStr) : CStr := s.rdropWhile fun c => c == 10 || c == 13 || c == 32

/-- `ty_parse_hmac`: the bytes before the first pair that is not hexadecimal are written. -/
def tyParseHmac (hex : CStr) (out : Text) : Text :=
  let pairs := (List.range 32).map fun i => do
    let hi ← hex[2 * i]?.bind tyHexdigit
    let lo ← hex[2 * i + 1]?.bind tyHexdigit
    some (UInt8.ofNat (hi <<< 4 ||| lo))
  let good := (pairs.takeWhile Option.isSome).filterMap id
  good ++ out.drop good.length

/-- `line[TYKID_MAX_PATH + 64]`. -/
abbrev lineSize : Nat := 320

/-- One line into the line buffer; a longer one is cut and its rest is the next line. -/
def takeLine (p : CStr) : CStr × CStr :=
  let line := (p.takeWhile (· != 10)).take (lineSize - 1)
  let rest := p.drop line.length
  (line, if rest.head? = some 10 then rest.tail else rest)

/-- The lines of a manifest; every line takes at least a byte. -/
def manifestLines : Nat → CStr → List CStr
  | 0, _ => []
  | _ + 1, [] => []
  | fuel + 1, p => (takeLine p).1 :: manifestLines fuel (takeLine p).2

inductive ManifestKey where
  | name | path | hwClass | vendor | device | version | priority | flags | depends | hmac
  deriving DecidableEq, Repr

/-- The keys in the order of the tests. -/
def manifestKeys : List (ManifestKey × CStr) :=
  [(.name, cstr ['N', 'A', 'M', 'E']), (.path, cstr ['P', 'A', 'T', 'H']),
   (.hwClass, cstr ['C', 'L', 'A', 'S', 'S']), (.vendor, cstr ['V', 'E', 'N', 'D', 'O', 'R']),
   (.device, cstr ['D', 'E', 'V', 'I', 'C', 'E']), (.version, cstr ['V', 'E', 'R', 'S', 'I', 'O', 'N']),
   (.priority, cstr ['P', 'R', 'I', 'O', 'R', 'I', 'T', 'Y']), (.flags, cstr ['F', 'L', 'A', 'G', 'S']),
   (.depends, cstr ['D', 'E', 'P', 'E', 'N', 'D', 'S']), (.hmac, cstr ['H', 'M', 'A', 'C'])]

/-- What a line with the key `key` and the value `v` does to the descriptor and to the number of
    DEPENDS lines. -/
def ManifestKey.apply (key : ManifestKey) (v : CStr) (drv : DriverDesc) (depNameCount : Nat) : DriverDesc × Nat :=
  match key with
  | .name => ({ drv with name := tyStrncpy v tykidMaxName }, depNameCount)
  | .path => ({ drv with path := tyStrncpy v tykidMaxPath }, depNameCount)
  | .hwClass =>
    ({ drv with
      hwClasses := if drv.hwClasses.length < 8 then drv.hwClasses ++ [tyParseHex v % 2 ^ 32] else drv.hwClasses },
      depNameCount)
  | .vendor => ({ drv with vendorMask := tyParseHex v % 2 ^ 32 }, depNameCount)
  | .device => ({ drv with deviceMask := tyParseHex v % 2 ^ 32 }, depNameCount)
  | .version =>
    let minor := (v.dropWhile (· != 46)).drop 1
    ({ drv with versionMajor := tyParseDec v % 2 ^ 16, versionMinor := tyParseDec minor % 2 ^ 16 },
      depNameCount)
  | .priority => ({ drv with priority := tyParseDec v % 2 ^ 8 }, depNameCount)
  | .flags => ({ drv with flags := tyParseHex v % 2 ^ 32 }, depNameCount)
  | .depends => (drv, if depNameCount < tykidMaxDeps then depNameCount + 1 else depNameCount)
  | .hmac => ({ drv with hmac := tyParseHmac v drv.hmac }, depNameCount)

/-- One line of `ty_parse_manifest_buf`. -/
def tyParseLine (acc : DriverDesc × Nat) (line : CStr) : DriverDesc × Nat :=
  let l := tySkipWs (tyStripNl line)
  if l.head? = none ∨ l.head? = some 35 then acc
  else
    match manifestKeys.find? fun k => tyKeyEq l k.2 with
    | some (key, _) => key.apply (tySkipToken l) acc.1 acc.2
    | none => acc

/-- `ty_parse_manifest_buf`; `none` is TYKID_ERR_PATH. The dependencies are left open (0xFF). -/
def tyParseManifestBuf (buf : CStr) : Option DriverDesc :=
  let (drv, depNameCount) :=
    (manifestLines buf.length buf).foldl tyParseLine ({ state := .absent, priority := 128 }, 0)
  if drv.name = [] ∨ drv.path = [] then none
  else some { drv with deps := List.replicate depNameCount 0xFF }

/-- The second pass of `ty_scan_callback`: the names after DEPENDS, from lines as they are. -/
def manifestDepends (buf : CStr) : List CStr :=
  ((manifestLines buf.length buf).filterMap fun line =>
    let l := tySkipWs line
    if tyKeyEq l (cstr ['D', 'E', 'P', 'E', 'N', 'D', 'S']) then some (tyStrncpy (tySkipToken l) tykidMaxName)
    else none).take tykidMaxDeps

/-! ## 4. The scan -/

/-- `ty_driver_registry_t`; `entries` is the array up to `count`. -/
structure Registry where
  entries : List DriverDesc := []
  deps : DepGraph := DepGraph.zero 0

/-- A directory: the names in the order of the walk, with the text of each file (`none`: unreadable). -/
abbrev Dir := List (CStr × Option CStr)

/-- What the outside answers during a scan: whether the table of names was allocated, how many
    directory entries the walk visits, and what it returns. -/
structure ScanEnv where
  alloc : Bool := true
  visited : Nat
  iterStatus : Status := .ok

def manifestSuffix : CStr :=
  cstr ['.', 't', 'y', 'k', 'i', 'd', '-', 'm', 'a', 'n', 'i', 'f', 'e', 's', 't']

/-- The text of a manifest as `ty_scan_callback` has it in its 4096-byte buffer. -/
def manifestText (text : CStr) : CStr := (text.take 4095).takeWhile (· != 0)

/-- `ty_scan_callback`, as long as it answers TYKID_TRUE: the entries and their dependency names. -/
def tyScanCallback (acc : List (DriverDesc × List CStr)) (file : CStr × Option CStr) :
    List (DriverDesc × List CStr) :=
  if file.1.length < 16 then acc
  else if file.1.drop (file.1.length - manifestSuffix.length) ≠ manifestSuffix then acc
  else if acc.length ≥ tykidMaxDrivers then acc
  else
    match file.2 with
    | none => acc
    | some text =>
      match tyParseManifestBuf (manifestText text) with
      | none => acc
      | some drv => acc ++ [(drv, manifestDepends (manifestText text))]

/-- `ty_registry_resolve_deps` for one descriptor. -/
def tyRegistryResolveDeps (names : List CStr) (drv : DriverDesc) (depNames : List CStr) : DriverDesc :=
  { drv with deps := (List.range drv.deps.length).map fun j =>
      match names.findIdx? fun n => sameName n (depNames.getD j []) with
      | some k => k
      | none => 0xFF }

/-- The calls of `ty_dep_graph_add`: every resolved dependency of every driver. -/
def depEdges (entries : List DriverDesc) : List (Nat × Nat) :=
  (List.range entries.length).flatMap fun i =>
    ((entries.getD i {}).deps.filter fun dep => dep ≠ 0xFF ∧ dep < entries.length).map fun dep => (i, dep)

/-- `ty_registry_scan`. The registry before it is zeroed first, so it is no argument; no
    `ty_dep_graph_add` fails, since both ends are below the number of nodes. -/
def tyRegistryScan (pathIterFn : Bool) (dir : Dir) (env : ScanEnv) : Status × Registry :=
  if !pathIterFn then (.generic, {})
  else if !env.alloc then (.alloc, {})
  else
    let found := (dir.take env.visited).foldl tyScanCallback []
    if env.iterStatus ≠ .ok then (.path, { entries := found.map Prod.fst })
    else if found = [] then (.ok, {})
    else
      let names := found.map fun e => e.1.name
      let entries := found.map fun e => tyRegistryResolveDeps names e.1 e.2
      let g := buildGraph entries.length (depEdges entries)
      match tyDepGraphToposort g with
      | some (.cycle, g) => (.cycle, { entries := entries, deps := g })
      | some (_, g) => (.ok, { entries := entries, deps := g })
      | none => (.cycle, { entries := entries, deps := g })

/-! ## 5. Where the entries come from -/

/-- The descriptor of one of the manifests of a directory. -/
def FromManifest (dir : Dir) (d : DriverDesc) : Prop :=
  ∃ file ∈ dir, ∃ text, file.2 = some text ∧ tyParseManifestBuf (manifestText text) = some d

section Scan

variable {dir : Dir}

theorem tyScanCallback_mem {acc : List (DriverDesc × List CStr)} {file : CStr × Option CStr}
    {e : DriverDesc × List CStr} (he : e ∈ tyScanCallback acc file) : e ∈ acc ∨ FromManifest [file] e.1 := by
  unfold tyScanCallback at he
  split at he
  · exact .inl he
  split at he
  · exact .inl he
  split at he
  · exact .inl he
  split at he
  · exact .inl he
  next text htext =>
  split at he
  · exact .inl he
  next drv hdrv =>
  rcases mem_append.1 he with h | h
  · exact .inl h
  · rw [mem_singleton.1 h]
    exact .inr ⟨file, mem_singleton_self _, text, htext, hdrv⟩

theorem scan_found {files : Dir} {e : DriverDesc × List CStr}
    (he : e ∈ files.foldl tyScanCallback []) : FromManifest files e.1 := by
  have hrun : ∀ (fs : Dir) (acc : List (DriverDesc × List CStr)), (∀ f ∈ fs, f ∈ files) →
      (∀ e ∈ acc, FromManifest files e.1) → ∀ e ∈ fs.foldl tyScanCallback acc, FromManifest files e.1 := by
    intro fs
    induction fs with
    | nil => exact fun _ _ h => h
    | cons f fs ih =>
      intro acc hfs hacc
      refine ih _ (fun g hg => hfs g (mem_cons_of_mem _ hg)) fun e he => ?_
      rcases tyScanCallback_mem he with h | ⟨g, hg, ht⟩
      · exact hacc e h
      · rw [mem_singleton] at hg
        exact ⟨g, hg ▸ hfs f mem_cons_self, ht⟩
  grind

/-- **A scanned registry** has only entries of manifests, with nothing but their dependencies
    filled in. -/
theorem tyRegistryScan_entries {pathIterFn : Bool} {env : ScanEnv} {d : DriverDesc}
    (hd : d ∈ (tyRegistryScan pathIterFn dir env).2.entries) :
    ∃ d0, FromManifest dir d0 ∧ d = { d0 with deps := d.deps } := by
  have hsub : ∀ e, e ∈ (dir.take env.visited).foldl tyScanCallback [] → FromManifest dir e.1 := fun e he => by
    obtain ⟨f, hf, ht⟩ := scan_found he
    exact ⟨f, mem_of_mem_take hf, ht⟩
  unfold tyRegistryScan at hd
  split at hd
  · exact absurd hd not_mem_nil
  split at hd
  · exact absurd hd not_mem_nil
  simp only at hd
  split at hd
  · grind
  split at hd
  · exact absurd hd not_mem_nil
  have hmem : d ∈ ((dir.take env.visited).foldl tyScanCallback []).map fun e =>
      tyRegistryResolveDeps (((dir.take env.visited).foldl tyScanCallback []).map fun e => e.1.name) e.1 e.2 := by
    split at hd <;> exact hd
  obtain ⟨e, he, rfl⟩ := mem_map.1 hmem
  exact ⟨e.1, hsub e he, rfl⟩

theorem tyParseLine_state (acc : DriverDesc × Nat) (line : CStr) :
    (tyParseLine acc line).1.state = acc.1.state := by
  unfold tyParseLine
  simp only
  split
  · rfl
  split
  next key _ _ => cases key <;> rfl
  · rfl

theorem tyParseManifestBuf_state {buf : CStr} {d : DriverDesc} (h : tyParseManifestBuf buf = some d) :
    d.state = .absent := by
  have hrun : ∀ (ls : List CStr) (acc : DriverDesc × Nat),
      (ls.foldl tyParseLine acc).1.state = acc.1.state := by
    intro ls
    induction ls with
    | nil => exact fun _ => rfl
    | cons l ls ih => exact fun acc => (ih _).trans (tyParseLine_state acc l)
  grind [tyParseManifestBuf]

end Scan

end Kobalt.Tykid

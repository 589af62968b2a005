/-
  Subject: IS A REVOKED DRIVER OUT FOR GOOD? Runs of the gate's calls over one drivers directory,
  watched by a list of the names that were revoked, blacklisted or marked BLOCKED.

  The ban is kept in the registry entry alone. `revoked_driver_back`: an arbitration that sees other
  hardware scans the directory anew and loads the revoked driver again. `revocation_permanent`: in
  every run in which the registry has each name once and no scan meets a banned name whose manifest
  is not itself blacklisted, no call turns an entry of a banned name ACTIVE.
-/
import Mathlib.Data.List.Pairwise
import Kobalt.Tykid.Gate

namespace Kobalt.Tykid

open List

/-! ## 1. Runs -/

/-- A call, with what the outside answers while it runs. -/
inductive Call where
  | arbitrate (hw : List HwDevice) (scan : ScanEnv) (envs : Nat → LoadEnv)
  | load (name : CStr) (env : LoadEnv)
  | unload (name : CStr) (st : Status)
  | blacklist (name : CStr)
  | revoke (name : CStr)
  | recheck (integrity : Nat → CStr → Text → Status)

def callStep (dir : Dir) (ctx : GateCtx) : Call → Status × GateCtx
  | .arbitrate hw scan envs =>
    let (st, ctx, _) := tykidArbitrate dir ctx hw scan envs
    (st, ctx)
  | .load name env => tykidLoadDriver ctx name env
  | .unload name st => tykidUnloadDriver ctx name st
  | .blacklist name => tykidBlacklistDriver ctx name
  | .revoke name => tykidRevokeDriver ctx name
  | .recheck integrity => tykidRecheckAll ctx integrity

/-- The gate and the names banned so far. -/
structure Watch where
  ctx : GateCtx
  bans : List CStr

/-- The names of entries marked BLOCKED. -/
def blockedNames (ctx : GateCtx) : List CStr :=
  (ctx.reg.entries.filter fun d => d.state = .blocked).map DriverDesc.name

/-- The name a call asked to ban, if it succeeded. -/
def requested : Call → Status → List CStr
  | .revoke name, .ok => [name]
  | .blacklist name, .ok => [name]
  | _, _ => []

def Watch.start (ctx : GateCtx) : Watch := ⟨ctx, blockedNames ctx⟩

def watchStep (dir : Dir) (w : Watch) (c : Call) : Status × Watch :=
  let (st, ctx) := callStep dir w.ctx c
  (st, ⟨ctx, w.bans ++ requested c st ++ blockedNames ctx⟩)

/-- The name was revoked, blacklisted or marked BLOCKED before. -/
def Watch.IsBanned (w : Watch) (name : CStr) : Prop := ∃ b ∈ w.bans, sameName b name = true

/-- The call throws the registry away and scans the directory. -/
def rescans (ctx : GateCtx) : Call → Prop
  | .arbitrate hw _ _ => tykidVerifySeal ctx = .ok ∧ topologyChanged ctx hw = true
  | _ => False

/-- **No revival**: an entry of a banned name that is ACTIVE after the call is an entry from before
    the call, and was ACTIVE already. -/
def NoRevival (dir : Dir) (w : Watch) (c : Call) : Prop :=
  ∀ (j : Nat) (d' : DriverDesc), (callStep dir w.ctx c).2.reg.entries[j]? = some d' →
    w.IsBanned d'.name → d'.state = .active →
    ¬rescans w.ctx c ∧ ∃ d, w.ctx.reg.entries[j]? = some d ∧ d.name = d'.name ∧ d.state = .active

/-- Every name once. -/
def DistinctNames (entries : List DriverDesc) : Prop :=
  entries.Pairwise fun a b => sameName a.name b.name = false

/-- **The condition on a call**: the registry has every name once, and a scan finds no manifest of a
    banned name without the BLACKLISTED flag. -/
def CallOk (dir : Dir) (w : Watch) (c : Call) : Prop :=
  DistinctNames w.ctx.reg.entries ∧
    (rescans w.ctx c → ∀ d, FromManifest dir d → w.IsBanned d.name → d.has flagBlacklisted = true)

/-! ## 2. One call -/

section Step

variable {dir : Dir} {ctx : GateCtx}

theorem sameName_comm (a b : CStr) : sameName a b = sameName b a := by
  rw [Bool.eq_iff_iff, sameName_iff, sameName_iff, eq_comm]

theorem DistinctNames.eq {es : List DriverDesc} (h : DistinctNames es) {a b : DriverDesc} (ha : a ∈ es)
    (hb : b ∈ es) (hab : sameName a.name b.name = true) : a = b := by
  by_contra hne
  have : Std.Symm fun a b : DriverDesc => sameName a.name b.name = false :=
    ⟨fun _ _ hxy => (sameName_comm _ _).trans hxy⟩
  exact Bool.false_ne_true ((List.Pairwise.forall h ha hb hne).symm.trans hab)

theorem callStep_evolves (dir : Dir) {c : Call} (hc : ¬rescans ctx c) :
    Evolves ctx.reg.entries (callStep dir ctx c).2.reg.entries := by
  cases c with
  | arbitrate hw scan envs =>
    show Evolves _ (tykidArbitrate dir ctx hw scan envs).2.1.reg.entries
    unfold tykidArbitrate
    split
    · exact .refl _
    next hseal =>
    rw [if_neg fun h => hc ⟨not_not.1 hseal, h⟩]
    exact arbitrateRun_evolves ctx hw envs
  | load name env =>
    show Evolves _ (tykidLoadDriver ctx name env).2.reg.entries
    unfold tykidLoadDriver
    split
    · exact .refl _
    split
    · exact .refl _
    · exact tyGateLoadOne_evolves
  | unload name st =>
    show Evolves _ (tykidUnloadDriver ctx name st).2.reg.entries
    unfold tykidUnloadDriver
    split
    · exact .refl _
    split
    · exact .refl _
    simp only
    split
    · exact .refl _
    next hact =>
    split
    · exact .refl _
    split
    · refine Evolves.set fun _ => ⟨rfl, fun hb => .inl (hb.resolve_right ?_), fun _ h => nomatch h⟩
      rw [not_not.1 hact]
      decide
    · exact .refl _
  | blacklist name =>
    show Evolves _ (tykidBlacklistDriver ctx name).2.reg.entries
    unfold tykidBlacklistDriver
    split
    · exact .refl _
    · exact Evolves.set fun _ => .ban rfl (.inl (has_or_right (by decide))) id
  | revoke name =>
    show Evolves _ (tykidRevokeDriver ctx name).2.reg.entries
    unfold tykidRevokeDriver
    split
    · exact .refl _
    split
    · exact .refl _
    · exact Evolves.set fun _ => .ban rfl (.inr rfl) fun h => nomatch h
  | recheck integrity => exact tykidRecheckAll_evolves integrity

theorem callStep_rescan (dir : Dir) {c : Call} (hc : rescans ctx c) :
    ∃ es, (∀ d ∈ es, ∃ d0, FromManifest dir d0 ∧ d = { d0 with deps := d.deps }) ∧
      Evolves es (callStep dir ctx c).2.reg.entries := by
  cases c with
  | arbitrate hw scan envs =>
    refine ⟨(tyRegistryScan ctx.cfg.pathIterFn dir scan).2.entries, fun d hd => tyRegistryScan_entries hd, ?_⟩
    show Evolves _ (tykidArbitrate dir ctx hw scan envs).2.1.reg.entries
    unfold tykidArbitrate
    rw [if_neg (not_not.2 hc.1), if_pos hc.2]
    simp only
    split
    · exact .refl _
    · exact arbitrateRun_evolves { ctx with reg := _, probeHash := _ } hw envs
  | _ => exact hc.elim

theorem setDrv_mem {name : CStr} {idx : Nat} (hf : tyFindDriverByName ctx name = some idx) (d' : DriverDesc) :
    sameName (ctx.reg.entries.getD idx {}).name name = true ∧ d' ∈ ctx.reg.entries.set idx d' := by
  obtain ⟨hlt, hp, -⟩ := List.findIdx?_eq_some_iff_getElem.1 hf
  grind [mem_set]

theorem requested_banned {c : Call} {name : CStr} (h : name ∈ requested c (callStep dir ctx c).1) :
    ∃ d ∈ (callStep dir ctx c).2.reg.entries, sameName name d.name = true ∧ d.Banned := by
  cases c with
  | revoke n =>
    change name ∈ requested (.revoke n) (tykidRevokeDriver ctx n).1 at h
    change ∃ d ∈ (tykidRevokeDriver ctx n).2.reg.entries, _
    unfold tykidRevokeDriver at h ⊢
    by_cases hs : tykidVerifySeal ctx = .ok
    · rw [if_neg (not_not.2 hs)] at h ⊢
      cases hf : tyFindDriverByName ctx n with
      | none =>
        rw [hf] at h
        exact absurd h not_mem_nil
      | some idx =>
        rw [hf] at h
        rw [mem_singleton.1 h]
        obtain ⟨hn, hm⟩ := setDrv_mem hf _
        exact ⟨_, hm, (sameName_comm _ _).trans hn, .inr rfl⟩
    · rw [if_pos hs] at h
      cases hst : tykidVerifySeal ctx with
      | ok => exact absurd hst hs
      | _ =>
        rw [hst] at h
        exact absurd h not_mem_nil
  | blacklist n =>
    change name ∈ requested (.blacklist n) (tykidBlacklistDriver ctx n).1 at h
    change ∃ d ∈ (tykidBlacklistDriver ctx n).2.reg.entries, _
    unfold tykidBlacklistDriver at h ⊢
    cases hf : tyFindDriverByName ctx n with
    | none =>
      rw [hf] at h
      exact absurd h not_mem_nil
    | some idx =>
      rw [hf] at h
      rw [mem_singleton.1 h]
      obtain ⟨hn, hm⟩ := setDrv_mem hf _
      exact ⟨_, hm, (sameName_comm _ _).trans hn, .inl (has_or_right (by decide))⟩
  | _ => exact absurd h not_mem_nil

end Step

/-! ## 3. Every run -/

/-- **The bans are in the registry**, as long as it has every name once. -/
def BansHeld (w : Watch) : Prop :=
  DistinctNames w.ctx.reg.entries → ∀ d ∈ w.ctx.reg.entries, w.IsBanned d.name → d.Banned

theorem mem_blockedNames {ctx : GateCtx} {name : CStr} :
    name ∈ blockedNames ctx ↔ ∃ d ∈ ctx.reg.entries, d.state = .blocked ∧ d.name = name := by
  simp [blockedNames, and_assoc]

theorem bansHeld_start (ctx : GateCtx) : BansHeld (Watch.start ctx) := by
  rintro hdist d hd ⟨b, hb, hsame⟩
  obtain ⟨d0, hd0, hstate, rfl⟩ := mem_blockedNames.1 hb
  rw [← hdist.eq hd0 hd hsame]
  exact .inr hstate

section Held

variable {dir : Dir} {w : Watch} {c : Call}

/-- **A call and the names banned before it**: their entries are banned afterwards, and one that is
    ACTIVE was there and ACTIVE before. -/
theorem CallOk.kept (hok : CallOk dir w c) (hw : BansHeld w) {j : Nat} {d' : DriverDesc}
    (hd' : (callStep dir w.ctx c).2.reg.entries[j]? = some d') (hb : w.IsBanned d'.name) :
    d'.Banned ∧ (d'.state = .active →
      ¬rescans w.ctx c ∧ ∃ d, w.ctx.reg.entries[j]? = some d ∧ d.name = d'.name ∧ d.state = .active) := by
  by_cases hc : rescans w.ctx c
  · obtain ⟨es, hes, hev⟩ := callStep_rescan dir hc
    obtain ⟨d, hd, hstep⟩ := hev.back hd'
    obtain ⟨d0, hm, he⟩ := hes d (mem_of_getElem? hd)
    have hname : d0.name = d'.name := by rw [hstep.name, he]
    have hban : d.Banned := .inl (by rw [he]; exact hok.2 hc d0 hm (hname ▸ hb))
    refine ⟨hstep.banned hban, fun hact => ?_⟩
    obtain ⟨_, -, text, -, hparse⟩ := hm
    have hstate : d.state = d0.state := by rw [he]
    exact nomatch (hstate.trans (tyParseManifestBuf_state hparse)).symm.trans (hstep.active hban hact)
  · obtain ⟨d, hd, hstep⟩ := (callStep_evolves dir hc).back hd'
    have hban := hw hok.1 d (mem_of_getElem? hd) (hstep.name ▸ hb)
    grind [hstep.banned, hstep.name.symm, hstep.active]

theorem BansHeld.step (hw : BansHeld w) (hok : CallOk dir w c) : BansHeld (watchStep dir w c).2 := by
  rintro hdist d' hd' ⟨b, hb, hsame⟩
  change d' ∈ (callStep dir w.ctx c).2.reg.entries at hd'
  change b ∈ w.bans ++ requested c (callStep dir w.ctx c).1 ++ blockedNames (callStep dir w.ctx c).2 at hb
  rcases mem_append.1 hb with hb | hb
  · rcases mem_append.1 hb with hb | hb
    · obtain ⟨j, hj⟩ := mem_iff_getElem?.1 hd'
      exact (hok.kept hw hj ⟨b, hb, hsame⟩).1
    · obtain ⟨d, hd, hn, hban⟩ := requested_banned hb
      have hdd : sameName d.name d'.name = true :=
        sameName_iff.2 ((sameName_iff.1 hn).symm.trans (sameName_iff.1 hsame))
      rwa [← hdist.eq hd hd' hdd]
  · obtain ⟨d, hd, hstate, rfl⟩ := mem_blockedNames.1 hb
    rw [← hdist.eq hd hd' hsame]
    exact .inr hstate

end Held

/-- **Revocation is permanent** in every run whose calls all meet `CallOk`. -/
theorem revocation_permanent (dir : Dir) (ctx : GateCtx) (h : Log Call Status) (w : Watch) (c : Call)
    (hr : Reach (CallOk dir) (watchStep dir) (Watch.start ctx) h w) (hok : CallOk dir w c) :
    NoRevival dir w c := by
  have hheld : BansHeld w := hr.invState (bansHeld_start ctx) fun _ _ hI hi => hI.step hi
  exact fun j d' hd' hb hact => (hok.kept hheld hd' hb).2 hact

/-- **Between scans** entries keep their names and bans. -/
theorem registry_evolves (hr : Reach (¬rescans · ·) (callStep dir) ctx0 h ctx) :
    Evolves ctx0.reg.entries ctx.reg.entries :=
  hr.invState (I := (Evolves ctx0.reg.entries ·.reg.entries)) (.refl _)
    fun _ _ hI hc => hI.trans (callStep_evolves dir hc)

/-! ## 4. A directory with one manifest -/

/-- The manifest of a driver `net`. -/
def netManifest : CStr := cstr ['N', 'A', 'M', 'E', ' ', 'n', 'e', 't', '\n', 'P', 'A', 'T', 'H', ' ', 'n', '\n']

def netDir : Dir := [(cstr ['n', 'e', 't'] ++ manifestSuffix, some netManifest)]

/-- Every file passes its check and every load succeeds. -/
def willing : LoadEnv := ⟨fun _ _ => .ok, fun _ _ => (.ok, 4096), id⟩

/-- The gate after a scan and a probe that found no device. -/
def netGate : GateCtx :=
  { reg := (tyRegistryScan true netDir ⟨true, 1, .ok⟩).2
    probed := true
    probeHash := tyHwTopologyHash [] (List.replicate 32 0) }

/-- The network driver is revoked. -/
abbrev revokeNet : Call := .revoke (cstr ['n', 'e', 't'])

theorem distinctNames_of_length {es : List DriverDesc} (h : es.length = 1) : DistinctNames es := by
  obtain ⟨d, rfl⟩ := length_eq_one_iff.1 h
  exact pairwise_singleton _ _

theorem revocation_permanent_net :
    (watchStep netDir (Watch.start netGate) revokeNet).2.IsBanned (cstr ['n', 'e', 't']) ∧
      NoRevival netDir (watchStep netDir (Watch.start netGate) revokeNet).2
        (.load (cstr ['n', 'e', 't']) willing) := by
  have h0 : CallOk netDir (Watch.start netGate) revokeNet :=
    ⟨distinctNames_of_length (by decide), False.elim⟩
  have h1 : CallOk netDir (watchStep netDir (Watch.start netGate) revokeNet).2
      (.load (cstr ['n', 'e', 't']) willing) := ⟨distinctNames_of_length (by decide), False.elim⟩
  exact ⟨⟨cstr ['n', 'e', 't'], by decide, rfl⟩,
    revocation_permanent netDir netGate _ _ _ (Reach.step _ _ revokeNet .start h0) h1⟩

theorem registry_evolves_net : Evolves netGate.reg.entries (callStep netDir netGate revokeNet).2.reg.entries :=
  registry_evolves (Reach.step _ _ revokeNet .start id)

/-- **A revoked driver comes back**: the next arbitration sees a network card, scans the directory
    and moves the driver from BLOCKED to ACTIVE. -/
theorem revoked_driver_back :
    ∃ w, Reach anyInput (watchStep netDir) (Watch.start netGate) [(revokeNet, .ok)] w ∧
      w.IsBanned (cstr ['n', 'e', 't']) ∧
      ¬NoRevival netDir w (.arbitrate [{ tyClass := 0x00020003 }] ⟨true, 1, .ok⟩ fun _ => willing) := by
  generalize hw : (watchStep netDir (Watch.start netGate) revokeNet).2 = w
  have hstep : watchStep netDir (Watch.start netGate) revokeNet = (.ok, w) := by
    rw [← hw]
    exact Prod.ext (by decide) rfl
  have hban : cstr ['n', 'e', 't'] ∈ w.bans := by
    rw [← hw]
    decide
  have hback : ((callStep netDir w.ctx (.arbitrate [{ tyClass := 0x00020003 }] ⟨true, 1, .ok⟩
      fun _ => willing)).2.reg.entries[0]?).map (fun d => (d.name, d.state)) =
        some (cstr ['n', 'e', 't'], .active) := by
    rw [← hw]
    decide +kernel
  have hbefore : (w.ctx.reg.entries[0]?).map DriverDesc.state = some .blocked := by
    rw [← hw]
    decide
  refine ⟨w, Reach.next .start trivial hstep, ⟨_, hban, rfl⟩, fun hno => ?_⟩
  obtain ⟨d, hd, he⟩ := Option.map_eq_some_iff.1 hback
  obtain ⟨hname, hact⟩ := Prod.mk.inj he
  obtain ⟨-, d0, hd0, -, hact0⟩ := hno 0 d hd ⟨_, hban, by rw [hname]; rfl⟩ hact
  grind

end Kobalt.Tykid

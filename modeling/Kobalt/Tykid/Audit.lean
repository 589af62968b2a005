/-
  Subject: THE AUDIT LOG (`security/tykid/src/tykid_audit.c`): a ring of 512 records, each with a
  keyed code of its own and the digest of the record before it.

  The two keyed functions are parameters over any types of codes and digests: `mac` is taken over the
  first 56 bytes of a record (all but the code itself), `link` over all 64.
-/
import Mathlib.Logic.Equiv.List
import Kobalt.Lib.HashChain
import Kobalt.Tykid.Gate

namespace Kobalt.Tykid

open Function List

/-! ## 1. The log -/

abbrev aevInitOk : Nat := 0x00000001
abbrev aevLogTamper : Nat := 0x00000081

abbrev auditFlagNone : Nat := 0x0000
abbrev auditFlagCritical : Nat := 0x0001
abbrev auditFlagWrap : Nat := 0x0002
abbrev auditFlagChainOk : Nat := 0x0004

abbrev auditRingCount : Nat := 512
abbrev auditRingMask : Nat := auditRingCount - 1

/-- `ty_audit_record_t` without its code. -/
structure AuditBody (T : Type) [Zero T] where
  seq : Nat := 0
  eventCode : Nat := 0
  timestamp : Nat := 0
  driverId : Nat := 0
  detailLen : Nat := 0
  flags : Nat := 0
  detail : Text := List.replicate 16 0
  prevHash : T := 0

structure AuditRecord (T M : Type) [Zero T] [Zero M] where
  body : AuditBody T := {}
  recordHmac : M := 0

/-- `ty_audit_ring_t`. -/
structure AuditRing (T M : Type) [Zero T] [Zero M] where
  ring : Nat → AuditRecord T M := fun _ => {}
  head : Nat := 0
  totalWritten : Nat := 0
  wrapCount : Nat := 0
  lastHash : T := 0
  chainEpoch : Nat := 0
  initialised : Bool := false

/-- The keyed functions, under the keys of the session: `ty_audit_record_hmac` and `ty_siphash128`. -/
structure AuditHash (T M : Type) [Zero T] [Zero M] where
  mac : AuditBody T → M
  link : AuditRecord T M → T

/-- The arguments of `ty_audit_append`, and the time it reads. The detail may be no pointer at all. -/
structure AuditEvent where
  event : Nat
  driverId : Nat
  flags : Nat
  detail : Option Text
  detailLen : Nat
  timestamp : Nat

section Model

variable {T M : Type} [Zero T] [Zero M] [DecidableEq T] [DecidableEq M] (H : AuditHash T M)
  (s : AuditRing T M)

/-- The record that `ty_audit_append` writes; bytes of the slot's old detail that are not overwritten stay. -/
def auditRecord (ev : AuditEvent) : AuditRecord T M :=
  let pos := s.head &&& auditRingMask
  let wrap : Bool := s.head > 0 ∧ pos = 0
  let clen := if ev.detailLen < 16 then ev.detailLen else 16
  let detail :=
    match ev.detail with
    | some d => if clen ≠ 0 then d.take clen ++ (s.ring pos).body.detail.drop clen else List.replicate 16 0
    | none => List.replicate 16 0
  let flags := if wrap then ev.flags ||| auditFlagWrap else ev.flags
  let flags := if s.totalWritten > 0 then flags ||| auditFlagChainOk else flags
  let body : AuditBody T :=
    { seq := s.totalWritten, eventCode := ev.event, timestamp := ev.timestamp, driverId := ev.driverId,
      detailLen := clen, flags, detail, prevHash := s.lastHash }
  ⟨body, H.mac body⟩

def tyAuditAppend (ev : AuditEvent) : AuditRing T M :=
  if !s.initialised then s else
  let pos := s.head &&& auditRingMask
  let wrap : Bool := s.head > 0 ∧ pos = 0
  let rec_ := auditRecord H s ev
  { s with
    ring := update s.ring pos rec_
    wrapCount := if wrap then inc s.wrapCount else s.wrapCount
    lastHash := H.link rec_
    chainEpoch := (s.chainEpoch + 1) % 2 ^ 64
    head := inc s.head
    totalWritten := inc s.totalWritten }

/-- A zeroed ring that is initialised. -/
def blankRing : AuditRing T M := { initialised := true }

/-- The first event of the log. -/
def initEvent (timestamp : Nat) : AuditEvent := ⟨aevInitOk, 0xFFFFFFFF, auditFlagNone, none, 0, timestamp⟩

def tyAuditInit (timestamp : Nat) : AuditRing T M := tyAuditAppend H blankRing (initEvent timestamp)

/-- The slots that `ty_audit_verify_chain` and `tykid_audit_export` go through, in their order. -/
def auditWindow : List (AuditRecord T M) :=
  let count := if s.totalWritten < auditRingCount then s.totalWritten else auditRingCount
  let start := if s.totalWritten ≥ auditRingCount then s.head else 0
  (List.range count).map fun i => s.ring ((start + i) % 2 ^ 32 &&& auditRingMask)

/-- The test of the link; the first record has none before it. -/
def linkErrors (prev : Option T) (r : AuditRecord T M) : Nat :=
  match prev with
  | none => 0
  | some p => if r.body.prevHash ≠ p then 1 else 0

/-- The loop of `ty_audit_verify_chain`: the errors from a record on, with the digest of the one before. -/
def chainErrors : Option T → List (AuditRecord T M) → Nat
  | _, [] => 0
  | prev, r :: rs =>
    (if r.recordHmac ≠ H.mac r.body then 1 else 0) + linkErrors prev r + chainErrors (some (H.link r)) rs

def tyAuditVerifyChain (timestamp : Nat) : Status × AuditRing T M :=
  if !s.initialised ∨ s.totalWritten = 0 then (.ok, s)
  else if chainErrors H none (auditWindow s) ≠ 0 then
    (.driverCorrupt, tyAuditAppend H s ⟨aevLogTamper, 0xFFFFFFFF, auditFlagCritical, none, 0, timestamp⟩)
  else (.ok, s)

/-- `tykid_audit_export`: the status, and the records it writes out. -/
def tykidAuditExport (ctx : GateCtx) (s : AuditRing T M) (startSeq cap : Nat) :
    Status × List (AuditRecord T M) :=
  if cap = 0 then (.generic, [])
  else if tykidVerifySeal ctx ≠ .ok then (tykidVerifySeal ctx, [])
  else (.ok, ((auditWindow s).filter fun r => startSeq ≤ r.body.seq).take cap)

/-! ## 2. The ring and the history -/

/-- One call of `ty_audit_append`, with the record it wrote. -/
def auditCall (ev : AuditEvent) : AuditRecord T M × AuditRing T M :=
  (auditRecord H s ev, tyAuditAppend H s ev)

/-- **The history**, oldest first: the record of the initialisation and those of a run behind it. -/
def auditHistory (timestamp : Nat) (h : Log AuditEvent (AuditRecord T M)) : List (AuditRecord T M) :=
  auditRecord H blankRing (initEvent timestamp) :: (h.map Prod.snd).reverse

/-- The digest a record carries. -/
def AuditRecord.prevHash (r : AuditRecord T M) : T := r.body.prevHash

/-- **The ring and the records written so far.** The numbers are right while the counter has not wrapped. -/
structure LogOk (s : AuditRing T M) (l : List (AuditRecord T M)) : Prop where
  initialised : s.initialised = true
  chained : Chained H.link AuditRecord.prevHash 0 l
  mac : ∀ r ∈ l, r.recordHmac = H.mac r.body
  last : s.lastHash = lastDigest H.link 0 l
  head : s.head = l.length % 2 ^ 32
  total : s.totalWritten = l.length % 2 ^ 32
  slots : ∀ k < l.length, l.length ≤ k + auditRingCount → l[k]? = some (s.ring (k % auditRingCount))
  seqs : l.map (fun r => r.body.seq) = (List.range l.length).map (· % 2 ^ 32)

theorem and_auditRingMask (n : Nat) : n &&& auditRingMask = n % auditRingCount :=
  Nat.and_two_pow_sub_one_eq_mod n 9

variable {H s} {l : List (AuditRecord T M)}

omit [DecidableEq T] [DecidableEq M] in
theorem LogOk.blank : LogOk H (blankRing : AuditRing T M) [] where
  initialised := rfl
  chained := Chained.nil
  mac := fun _ hr => nomatch hr
  last := rfl
  head := rfl
  total := rfl
  slots := fun _ hk => absurd hk (Nat.not_lt_zero _)
  seqs := rfl

omit [DecidableEq T] [DecidableEq M] in
theorem LogOk.append (h : LogOk H s l) (ev : AuditEvent) :
    LogOk H (tyAuditAppend H s ev) (l ++ [auditRecord H s ev]) := by
  have hlen : (l ++ [auditRecord H s ev]).length = l.length + 1 := by simp
  have he : tyAuditAppend H s ev = { s with
      ring := update s.ring (s.head &&& auditRingMask) (auditRecord H s ev)
      wrapCount := (tyAuditAppend H s ev).wrapCount
      lastHash := H.link (auditRecord H s ev)
      chainEpoch := (s.chainEpoch + 1) % 2 ^ 64
      head := inc s.head
      totalWritten := inc s.totalWritten } := by
    unfold tyAuditAppend
    rw [h.initialised]
    rfl
  rw [he]
  refine ⟨h.initialised, h.chained.concat h.last, fun r hr => ?_, ?_, ?_, ?_, fun k hk hk' => ?_, ?_⟩
  · rcases mem_append.1 hr with hr | hr
    · exact h.mac r hr
    · rw [mem_singleton.1 hr]
      rfl
  · exact (lastDigest_concat (r := auditRecord H s ev)).symm
  · grind [inc, h.head]
  · grind [inc, h.total]
  · rw [hlen] at hk hk'
    dsimp only
    have hpos : s.head &&& auditRingMask = l.length % auditRingCount := by
      rw [and_auditRingMask, h.head]
      exact Nat.mod_mod_of_dvd _ (by decide)
    rw [hpos]
    rcases Nat.lt_succ_iff_lt_or_eq.1 hk with hlt | rfl
    · have hne : k % auditRingCount ≠ l.length % auditRingCount := by
        unfold auditRingCount at hk' ⊢
        omega
      grind [h.slots]
    grind
  · rw [map_append, h.seqs, hlen, range_succ, map_append]
    exact congrArg (fun n => _ ++ [n]) h.total

omit [DecidableEq T] [DecidableEq M] in
theorem logOk_of_reach {timestamp : Nat} {h : Log AuditEvent (AuditRecord T M)}
    (hr : Reach anyInput (auditCall H) (tyAuditInit H timestamp) h s) :
    LogOk H s (auditHistory H timestamp h) := by
  refine hr.inv (I := fun h s => LogOk H s (auditHistory H timestamp h)) (LogOk.blank.append _) ?_
  intro h s ev hI _
  grind [auditHistory, auditCall, hI.append]

omit [DecidableEq T] [DecidableEq M] in
/-- **What is read back** is the newest part of the history. -/
theorem LogOk.auditWindow_eq (h : LogOk H s l) (hn : l.length < 2 ^ 32) :
    auditWindow s = l.drop (l.length - auditRingCount) := by
  have ht : s.totalWritten = l.length := h.total.trans (Nat.mod_eq_of_lt hn)
  have hh : s.head = l.length := h.head.trans (Nat.mod_eq_of_lt hn)
  refine ext_getElem? fun i => ?_
  unfold auditWindow
  dsimp only
  rw [ht, hh, List.getElem?_map, List.getElem?_drop]
  rcases Nat.lt_or_ge l.length auditRingCount with hlt | hge
  · rw [if_pos hlt, if_neg (Nat.not_le.2 hlt), Nat.sub_eq_zero_of_le hlt.le, Nat.zero_add]
    rcases Nat.lt_or_ge i l.length with hi | hi
    · rw [List.getElem?_range hi, h.slots i hi (by omega), Option.map_some, Nat.zero_add,
        and_auditRingMask, Nat.mod_eq_of_lt (hi.trans hn)]
    grind
  · rw [if_neg (Nat.not_lt.2 hge), if_pos hge]
    rcases Nat.lt_or_ge i auditRingCount with hi | hi
    · -- from the head on, the slots are those of the records written 512 before
      have hpos : (l.length + i) % 2 ^ 32 % auditRingCount = (l.length - auditRingCount + i) % auditRingCount := by
        rw [Nat.mod_mod_of_dvd _ (by decide)]
        unfold auditRingCount at hge hi ⊢
        omega
      rw [List.getElem?_range hi, h.slots _ (by omega) (by omega), Option.map_some, and_auditRingMask, hpos]
    grind

/-! ## 3. The verification -/

/-- **No errors** from a record on: every code is right, and every record follows the one before. -/
theorem chainErrors_eq_zero : ∀ (w : List (AuditRecord T M)) (prev : Option T),
    chainErrors H prev w = 0 ↔ (∀ r ∈ w, r.recordHmac = H.mac r.body) ∧
      w.IsChain (Follows H.link AuditRecord.prevHash) ∧ ∀ p ∈ prev, ∀ r ∈ w.head?, r.prevHash = p := by
  intro w
  induction w with
  | nil => simp [chainErrors]
  | cons r w ih =>
    intro prev
    have hmac : (if r.recordHmac ≠ H.mac r.body then 1 else 0) = 0 ↔ r.recordHmac = H.mac r.body := by
      by_cases hm : r.recordHmac = H.mac r.body <;> simp [hm]
    have hlink : linkErrors prev r = 0 ↔ ∀ p ∈ prev, r.prevHash = p := by
      cases prev with
      | none => simp [linkErrors]
      | some p => by_cases hl : r.body.prevHash = p <;> simp [linkErrors, AuditRecord.prevHash, hl]
    rw [chainErrors, Nat.add_eq_zero_iff, Nat.add_eq_zero_iff, ih, isChain_cons, hmac, hlink, forall_mem_cons]
    constructor
    · intro ⟨⟨hm, hp⟩, hms, hc, hd⟩
      refine ⟨⟨hm, hms⟩, ⟨fun y hy => hd _ rfl y hy, hc⟩, fun p hp' r' hr' => ?_⟩
      grind
    · intro ⟨⟨hm, hms⟩, ⟨hd, hc⟩, hp⟩
      refine ⟨⟨hm, fun p hp' => hp p hp' r rfl⟩, hms, hc, fun p hp' y hy => ?_⟩
      obtain rfl := Option.some.inj hp'
      exact hd y hy

variable (H) in
/-- The keyed functions, as perfect ones: no two records have the same digest, none has the digest the chain
    starts from, and the code of a blank record is not blank. -/
structure HashPerfect : Prop where
  link_inj : Injective H.link
  link_ne_zero : ∀ r, H.link r ≠ 0
  mac_blank : H.mac {} ≠ 0

theorem tyAuditVerifyChain_eq (hs : s.initialised = true) (timestamp : Nat) :
    (chainErrors H none (auditWindow s) = 0 → tyAuditVerifyChain H s timestamp = (.ok, s)) ∧
      (chainErrors H none (auditWindow s) ≠ 0 → (tyAuditVerifyChain H s timestamp).1 = .driverCorrupt) := by
  unfold tyAuditVerifyChain
  rw [hs]
  by_cases ht : s.totalWritten = 0
  · have hw : auditWindow s = [] := by simp [auditWindow, ht]
    rw [if_pos (.inr ht), hw]
    exact ⟨fun _ => rfl, fun hne => absurd rfl hne⟩
  grind

theorem filter_le_range' (start : Nat) : ∀ (k a : Nat), (List.range' a k).filter (fun n => decide (start ≤ n)) =
    List.range' (max start a) (a + k - max start a) := by
  intro k
  induction k with
  | zero =>
    intro a
    grind
  | succ k ih =>
    intro a
    rw [range'_succ, filter_cons, ih]
    by_cases hs : start ≤ a
    · rw [if_pos (decide_eq_true hs), max_eq_right (by omega), max_eq_right hs,
        show a + (k + 1) - a = a + 1 + k - (a + 1) + 1 by omega, range'_succ]
    grind

/-- **The chain is complete.** After every run with fewer than 2^32 records, that of the initialisation included,
    the chain verifies and nothing is appended; an export with room enough gives the retained records from the
    start number on, with numbers that follow each other up to the newest. -/
theorem audit_chain_complete (timestamp : Nat) (h : Log AuditEvent (AuditRecord T M)) (s : AuditRing T M)
    (hr : Reach anyInput (auditCall H) (tyAuditInit H timestamp) h s) (hn : h.length + 1 < 2 ^ 32) :
    (∀ now, tyAuditVerifyChain H s now = (.ok, s)) ∧
      ∀ (ctx : GateCtx) (startSeq cap : Nat), tykidVerifySeal ctx = .ok → cap ≠ 0 →
        (((auditHistory H timestamp h).drop (h.length + 1 - auditRingCount)).filter
          fun r => startSeq ≤ r.body.seq).length ≤ cap →
        ∃ out, tykidAuditExport ctx s startSeq cap = (.ok, out) ∧
          out = ((auditHistory H timestamp h).drop (h.length + 1 - auditRingCount)).filter
            (fun r => startSeq ≤ r.body.seq) ∧ out.map (fun r => r.body.seq) =
            List.range' (max startSeq (h.length + 1 - auditRingCount))
              (h.length + 1 - max startSeq (h.length + 1 - auditRingCount)) := by
  have hL := logOk_of_reach hr
  have hlen : (auditHistory H timestamp h).length = h.length + 1 := by simp [auditHistory]
  have hw := hL.auditWindow_eq (by rw [hlen]; exact hn)
  rw [hlen] at hw
  have hgood : chainErrors H none (auditWindow s) = 0 := by
    rw [hw, chainErrors_eq_zero]
    exact ⟨fun r hr => hL.mac r (mem_of_mem_drop hr), hL.chained.links.drop _, fun p hp => nomatch hp⟩
  refine ⟨fun now => (tyAuditVerifyChain_eq hL.initialised now).1 hgood,
    fun ctx startSeq cap hseal hcap hroom => ⟨_, ?_, rfl, ?_⟩⟩
  · unfold tykidAuditExport
    rw [if_neg hcap, if_neg (not_not.2 hseal), hw, take_of_length_le hroom]
  · have hseq : ((auditHistory H timestamp h).drop (h.length + 1 - auditRingCount)).map (fun r => r.body.seq) =
        List.range' (h.length + 1 - auditRingCount) (h.length + 1 - (h.length + 1 - auditRingCount)) := by
      have hid : (List.range (h.length + 1)).map (· % 2 ^ 32) = List.range (h.length + 1) :=
        map_congr_left (fun n hm => Nat.mod_eq_of_lt (by have := mem_range.1 hm; omega)) |>.trans
          (map_id _)
      rw [map_drop, hL.seqs, hlen, hid, range_eq_range', drop_range']
      simp
    have hfil : ∀ w : List (AuditRecord T M), (w.filter fun r => decide (startSeq ≤ r.body.seq)).map
        (fun r => r.body.seq) = (w.map fun r => r.body.seq).filter fun n => decide (startSeq ≤ n) :=
      fun w => by rw [filter_map]; rfl
    rw [hfil, hseq, filter_le_range', Nat.add_sub_of_le (Nat.sub_le ..)]

/-- A run of one event. -/
def plainEvent : AuditEvent := ⟨aevInitOk, 0, auditFlagNone, none, 0, 0⟩

variable (H) in
omit [DecidableEq T] [DecidableEq M] in
theorem reach_plainEvent : Reach anyInput (auditCall H) (tyAuditInit H 0)
    [(plainEvent, auditRecord H (tyAuditInit H 0) plainEvent)] (tyAuditAppend H (tyAuditInit H 0) plainEvent) :=
  .step _ _ plainEvent .start trivial

end Model

/-- A perfect hash into the numbers. -/
def bodyCode (b : AuditBody Nat) : Nat :=
  Encodable.encode (b.seq, b.eventCode, b.timestamp, b.driverId, b.detailLen, b.flags,
    b.detail.map UInt8.toNat, b.prevHash)

def natHash : AuditHash Nat Nat := ⟨fun b => bodyCode b + 1, fun r => Nat.pair (bodyCode r.body) r.recordHmac + 1⟩

theorem bodyCode_injective : Injective bodyCode := by
  intro b b' he
  have he := Encodable.encode_injective he
  simp only [Prod.mk.injEq] at he
  obtain ⟨h1, h2, h3, h4, h5, h6, h7, h8⟩ := he
  have h7 : b.detail = b'.detail := map_injective_iff.2 (fun _ _ h => UInt8.toNat_inj.1 h) h7
  obtain ⟨⟩ := b
  obtain ⟨⟩ := b'
  simp_all

theorem natHash_perfect : HashPerfect natHash := by
  refine ⟨fun r r' he => ?_, fun _ => Nat.succ_ne_zero _, Nat.succ_ne_zero _⟩
  obtain ⟨hb, hm⟩ := Nat.pair_eq_pair.1 (Nat.succ_injective he)
  obtain ⟨b, m⟩ := r
  obtain ⟨b', m'⟩ := r'
  grind [bodyCode_injective]

theorem audit_chain_complete_two : ∃ h s, Reach anyInput (auditCall natHash) (tyAuditInit natHash 0) h s ∧
    h.length + 1 < 2 ^ 32 ∧ tykidVerifySeal {} = .ok ∧ (∀ now, tyAuditVerifyChain natHash s now = (.ok, s)) ∧
    ∃ out, tykidAuditExport {} s 0 2 = (.ok, out) ∧ out.map (fun r => r.body.seq) = [0, 1] := by
  obtain ⟨hv, hx⟩ := audit_chain_complete 0 _ _ (reach_plainEvent natHash) (by decide)
  obtain ⟨out, he, -, hseq⟩ := hx {} 0 2 rfl (by decide) (length_filter_le ..)
  exact ⟨_, _, reach_plainEvent natHash, by decide, rfl, hv, out, he, hseq⟩

theorem exists_auditRun (n : Nat) :
    ∃ h s, Reach anyInput (auditCall natHash) (tyAuditInit natHash 0) h s ∧ h.length = n := by
  induction n with
  | zero => exact ⟨_, _, .start, rfl⟩
  | succ n ih =>
    obtain ⟨h, s, hr, hn⟩ := ih
    exact ⟨_, _, .step h s plainEvent hr trivial, by rw [length_cons, hn]⟩

/-- **The counter wraps.** With the record of the initialisation, 2^32 - 1 calls make the counter 0 again: the
    export gives nothing, though the ring retains 512 records. -/
theorem audit_export_nothing_at_wrap : ∃ h s,
    Reach anyInput (auditCall natHash) (tyAuditInit natHash 0) h s ∧ h.length < 2 ^ 32 ∧
      tykidVerifySeal {} = .ok ∧ tykidAuditExport {} s 0 auditRingCount = (.ok, []) ∧
      ((auditHistory natHash 0 h).drop (h.length + 1 - auditRingCount)).length = auditRingCount := by
  obtain ⟨h, s, hr, hn⟩ := exists_auditRun (2 ^ 32 - 1)
  have hL := logOk_of_reach hr
  have hlen : (auditHistory natHash 0 h).length = 2 ^ 32 := by simp [auditHistory, hn]
  have ht : s.totalWritten = 0 := by rw [hL.total, hlen, Nat.mod_self]
  have hw : auditWindow s = [] := by simp [auditWindow, ht]
  refine ⟨h, s, hr, by omega, rfl, ?_, ?_⟩
  · unfold tykidAuditExport
    have hseal : tykidVerifySeal {} = .ok := rfl
    grind
  · rw [length_drop, hlen, hn]
    decide

section Two

variable (H : AuditHash Nat Nat)

/-- The two records of that history. -/
def record0 : AuditRecord Nat Nat := auditRecord H blankRing (initEvent 0)

def record1 : AuditRecord Nat Nat := auditRecord H (tyAuditInit H 0) plainEvent

theorem record0_ne : record0 H ≠ record1 H := by
  intro e
  have hseq : (record0 H).body.seq = (record1 H).body.seq := by rw [e]
  exact absurd hseq Nat.zero_ne_one

theorem plain_ring : (tyAuditAppend H (tyAuditInit H 0) plainEvent).ring =
    update (update (fun _ => {}) 0 (record0 H)) 1 (record1 H) := by
  simp [tyAuditAppend, tyAuditInit, blankRing, record0, record1, inc]

end Two

end Kobalt.Tykid

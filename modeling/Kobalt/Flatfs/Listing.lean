/-
  Subject: LISTING A DIRECTORY (`flatfs_htree_iterate`): every entry once, also while entries are
  removed.

  The position packs a bucket and a slot; read as one number it is a cursor over a table of 8192 slots
  (`Kobalt.Lib.Cursor`), where the buckets without a leaf are empty.
-/
import Kobalt.Lib.Cursor
import Kobalt.Flatfs.Path

namespace Kobalt.Flatfs

open Function List

/-! ## 1. The code -/

/-- `flatfs_dirent_info_t` -/
structure DirentInfo where
  ino : Nat
  type : Nat
  name : Text
  deriving DecidableEq, Repr

/-- `de[i].file_type` -/
def deType (de : Bytes) (i : Nat) : Nat := (de (128 * i + 13)).toNat

/-- What is copied from an entry. -/
def deInfo (de : Bytes) (i : Nat) : DirentInfo := ⟨deIno de i, deType de i, deName de i⟩

/-- The loop over the buckets, `n` of them from `bk` on; the position and the entry. -/
def iterateFrom (s : FS) (rt : Bytes) : Nat → Nat → Nat → Option (Nat × DirentInfo)
  | 0, _, _ => none
  | n + 1, bk, global =>
    if rtChild rt bk = 0 then iterateFrom s rt n (bk + 1) ((bk + 1) * direntsPerBlk)
    else
      let de := s.blk (rtChild rt bk)
      let start := if bk = global / direntsPerBlk then global % direntsPerBlk else 0
      match (List.range' start (direntsPerBlk - start)).find? fun i => deIno de i != 0 with
      | some i => some (bk * direntsPerBlk + i + 1, deInfo de i)
      | none => iterateFrom s rt n (bk + 1) (bk * direntsPerBlk + direntsPerBlk)

/-- `flatfs_htree_iterate`: the new position, and the entry if there is one. -/
def flatfsHtreeIterate (s : FS) (dirIno pos : Nat) : FlatfsErr × Nat × Option DirentInfo :=
  match htroot s dirIno with
  | none => (.corrupt, pos, none)
  | some rt =>
    if rtMagic (s.blk rt) ≠ htreeMagic then (.corrupt, pos, none)
    else
      match iterateFrom s (s.blk rt) (256 - pos / direntsPerBlk) (pos / direntsPerBlk) pos with
      | some (global, e) => (.ok, global, some e)
      | none => (.notfound, 256 * direntsPerBlk, none)

/-! ## 2. The table a directory is -/

/-- **The entry in slot `j`**, counted over all buckets. -/
def entryAt (s : FS) (dir j : Nat) : Option DirentInfo :=
  if deIno (leafBytes s dir (j / 32)) (j % 32) = 0 then none else some (deInfo (leafBytes s dir (j / 32)) (j % 32))

section Iterate

variable {s : FS} {dir : Nat}

theorem entryAt_of_no_leaf {b i : Nat} (h : s.val (.hleaf dir b) = 0) (hi : i < 32) : entryAt s dir (32 * b + i) = none := by
  unfold entryAt
  rw [show (32 * b + i) / 32 = b by omega, leafBytes, if_pos h]
  exact if_pos (leAt_zeroBytes _ _)

theorem entryAt_leaf {b i : Nat} (h : s.val (.hleaf dir b) ≠ 0) (hi : i < 32) : entryAt s dir (32 * b + i) =
    if deIno (s.blk (s.val (.hleaf dir b))) i = 0 then none else some (deInfo (s.blk (s.val (.hleaf dir b))) i) := by
  grind [entryAt, leafBytes_of_ne]

theorem nextUsed_leaf {b : Nat} (hb : b < 256) (h : s.val (.hleaf dir b) ≠ 0) : ∀ (k : Nat) (start : Nat),
    start + k = 32 → nextUsed (entryAt s dir) 8192 (32 * b + start) =
      match (List.range' start k).find? fun i => deIno (s.blk (s.val (.hleaf dir b))) i != 0 with
      | some i => some (32 * b + i)
      | none => nextUsed (entryAt s dir) 8192 (32 * (b + 1))
  | 0, start, hs => by grind
  | k + 1, start, hs => by
    rw [nextUsed_succ (by omega), range'_succ, List.find?_cons, entryAt_leaf h (by omega)]
    by_cases h0 : deIno (s.blk (s.val (.hleaf dir b))) start = 0
    · rw [if_pos h0, h0]
      exact nextUsed_leaf hb h k (start + 1) (by omega)
    grind

/-- **The loop over the buckets is a search in the table**, by induction on the buckets still to do. -/
theorem iterateFrom_eq (hr : s.val (.hroot dir) ≠ 0) : ∀ (n bk global : Nat), bk + n = 256 →
    32 * bk ≤ global → global < 32 * (bk + 1) ∨ global = 32 * bk →
    iterateFrom s (s.blk (s.val (.hroot dir))) n bk global =
      (nextUsed (entryAt s dir) 8192 global).bind fun j => (entryAt s dir j).map fun e => (j + 1, e)
  | 0, bk, global, hn, hle, _ => by
    rw [nextUsed_of_le (by omega)]
    rfl
  | n + 1, bk, global, hn, hle, hlt => by
    have hlt' : global < 32 * (bk + 1) := by omega
    rw [iterateFrom, ← val_hleaf hr (by omega)]
    by_cases h0 : s.val (.hleaf dir bk) = 0
    · rw [if_pos h0, direntsPerBlk, iterateFrom_eq hr n (bk + 1) _ (by omega) (by omega) (by omega)]
      have hempty : ∀ i < 32 * (bk + 1) - global, entryAt s dir (global + i) = none := fun i hi => by
        have := entryAt_of_no_leaf (i := global + i - 32 * bk) h0 (by omega)
        grind
      rw [nextUsed_skip (32 * (bk + 1) - global) (by omega) hempty, show global + (32 * (bk + 1) - global) = (bk + 1) * 32 by omega]
    · rw [if_neg h0]
      have hstart : (if bk = global / direntsPerBlk then global % direntsPerBlk else 0) = global - 32 * bk := by
        unfold direntsPerBlk
        rw [if_pos (by omega)]
        omega
      have hleaf := nextUsed_leaf (by omega) h0 (32 - (global - 32 * bk)) (global - 32 * bk) (by omega)
      rw [show 32 * bk + (global - 32 * bk) = global by omega] at hleaf
      simp only [hstart, hleaf]
      change (match (List.range' (global - 32 * bk) (32 - (global - 32 * bk))).find? _ with
        | some i => _ | none => _) = _
      cases hf : (List.range' (global - 32 * bk) (32 - (global - 32 * bk))).find? fun i =>
          deIno (s.blk (s.val (.hleaf dir bk))) i != 0 with
      | some i =>
        have hi := mem_range'_1.mp (mem_of_find?_eq_some hf)
        have hu : deIno (s.blk (s.val (.hleaf dir bk))) i ≠ 0 := by simpa using List.find?_some hf
        simp only [Option.bind_some]
        rw [entryAt_leaf h0 (by omega), if_neg hu]
        grind [direntsPerBlk]
      | none =>
        simp only
        rw [iterateFrom_eq hr n (bk + 1) _ (by omega) (by unfold direntsPerBlk; omega) (by unfold direntsPerBlk; omega)]
        grind [direntsPerBlk]

theorem flatfsHtreeIterate_eq (hlt : dir < s.super.totalInodes) (h : HasRoot s dir) (pos : Nat) :
    flatfsHtreeIterate s dir pos = match nextUsed (entryAt s dir) 8192 pos with
      | some j => (.ok, j + 1, entryAt s dir j)
      | none => (.notfound, 8192, none) := by
  rw [flatfsHtreeIterate, htroot_eq hlt, if_neg h.1]
  simp only [h.2, ne_eq, not_true_eq_false, if_false]
  by_cases hpos : pos < 8192
  · rw [iterateFrom_eq h.1 _ _ _ (by unfold direntsPerBlk; omega) (by unfold direntsPerBlk; omega)
      (.inl (by unfold direntsPerBlk; omega))]
    cases hn : nextUsed (entryAt s dir) 8192 pos with
    | none => rfl
    | some j =>
      obtain ⟨-, -, hu, -⟩ := nextUsed_some hn
      obtain ⟨e, he⟩ := Option.ne_none_iff_exists'.mp hu
      simp [he]
  · rw [show 256 - pos / direntsPerBlk = 0 by unfold direntsPerBlk; omega, iterateFrom, nextUsed_of_le (by omega)]
    rfl

theorem entryAt_of_le {j : Nat} (h : 8192 ≤ j) : entryAt s dir j = none := by
  have hz : s.val (.hleaf dir (j / 32)) = 0 := if_pos (.inr (by omega))
  have := entryAt_of_no_leaf (i := j % 32) hz (by omega)
  grind

end Iterate

/-! ## 3. Insertions and removals on the table -/

/-- A name as the calls read it, up to its NUL. -/
def DirOp.Short : DirOp → Prop
  | .insert name ino ftype => (cstr name).length ≤ 108 ∧ ino < 256 ^ 8 ∧ ftype < 256
  | .remove name => (cstr name).length ≤ 108
  | .lookup _ => True

/-- **The entries a directory holds after a log of calls**, newest first: an insertion fills a free slot, a
    removal clears a slot with the name. -/
inductive HoldsEntries : Log DirOp DirAns → (Nat → Option DirentInfo) → Prop
  | empty : HoldsEntries [] fun _ => none
  | inserted (h : Log DirOp DirAns) (e : Nat → Option DirentInfo) (name : Text) (ino ftype j : Nat)
      (o : Option Nat) : HoldsEntries h e → j < 8192 → e j = none →
      HoldsEntries ((.insert name ino ftype, some (.ok, o)) :: h)
        (update e j (if ino = 0 then none else some ⟨ino, ftype, cstr name⟩))
  | removed (h : Log DirOp DirAns) (e : Nat → Option DirentInfo) (name : Text) (j : Nat) (i : DirentInfo)
      (o : Option Nat) : HoldsEntries h e → e j = some i → i.name = cstr name →
      HoldsEntries ((.remove name, some (.ok, o)) :: h) (update e j none)
  | refused (h : Log DirOp DirAns) (e : Nat → Option DirentInfo) (op : DirOp) (ans : DirAns) :
      HoldsEntries h e → (∀ o, ans = some (.ok, o) → ∃ name, op = .lookup name) → HoldsEntries ((op, ans) :: h) e

/-- A directory whose names are short. -/
structure ListOk (s : FS) (dir : Nat) : Prop where
  wf : Wf s
  self : DirSelf s dir
  root : HasRoot s dir
  short : ∀ j e, entryAt s dir j = some e → e.name.length ≤ 108

section Entries

variable {s s' : FS} {dir : Nat} {name : Text}

theorem deInfo_congr {de de' : Bytes} {i : Nat} (h : ∀ x, 128 * i ≤ x → x < 128 * i + 128 → de' x = de x)
    (hlen : deNameLen de i ≤ 108) : deInfo de' i = deInfo de i := by grind [deEntry_congr, deInfo, deType]

section

variable (hok : ListOk s dir)
include hok

theorem entryAt_step {b i : Nat} {c : Bytes} (hb : b < 256) (hi : i < 32)
    (hc : ∀ x, x < 128 * i ∨ 128 * i + 128 ≤ x → c x = leafBytes s dir b x)
    (hstep : DirStep s dir (update (leafBytes s dir) b c) n s') :
    entryAt s' dir = update (entryAt s dir) (32 * b + i) (if deIno c i = 0 then none else some (deInfo c i)) := by
  funext j
  by_cases hj : 8192 ≤ j
  · rw [entryAt_of_le hj, update_of_ne (by omega), entryAt_of_le hj]
  by_cases hjb : j / 32 = b
  · have hleaf : leafBytes s' dir (j / 32) = c := by rw [hstep.leaf _ (by omega), hjb, update_self]
    by_cases hji : j % 32 = i
    · grind [entryAt]
    · rw [update_of_ne (by omega)]
      have hsame : ∀ x, 128 * (j % 32) ≤ x → x < 128 * (j % 32) + 128 → c x = leafBytes s dir (j / 32) x :=
        fun x h1 h2 => by rw [hc x (by omega), hjb]
      have hin : deIno c (j % 32) = deIno (leafBytes s dir (j / 32)) (j % 32) := (deEntry_congr hsame).1
      unfold entryAt
      rw [hleaf, hin]
      by_cases h0 : deIno (leafBytes s dir (j / 32)) (j % 32) = 0
      · rw [if_pos h0, if_pos h0]
      · rw [if_neg h0, if_neg h0]
        have hshort := hok.short j _ (if_neg h0)
        rw [deInfo_congr hsame (by simpa [deInfo, deName] using hshort)]
  grind [entryAt, hstep.leaf]

theorem entryAt_clear {b i : Nat} (hb : b < 256) (hi : i < 32)
    (hstep : DirStep s dir (update (leafBytes s dir) b (fill (leafBytes s dir b) (128 * i) 128 fun _ => 0)) n s') :
    entryAt s' dir = update (entryAt s dir) (32 * b + i) none := by
  have hz : deIno (fill (leafBytes s dir b) (128 * i) 128 fun _ => 0) i = 0 :=
    leAt_eq_zero fun x h1 h2 => fill_of_mem h1 (by omega)
  rw [entryAt_step hok hb hi (fun x hx => fill_of_not_mem hx) hstep, if_pos hz]

omit hok in
theorem entryAt_keep (hstep : DirStep s dir (leafBytes s dir) n s') : entryAt s' dir = entryAt s dir := by
  funext j
  by_cases hj : 8192 ≤ j
  · rw [entryAt_of_le hj, entryAt_of_le hj]
  · unfold entryAt
    rw [hstep.leaf _ (by omega)]

theorem ListOk.step {L : Nat → Bytes} (hstep : DirStep s dir L n s')
    (hshort : ∀ j e, entryAt s' dir j = some e → e.name.length ≤ 108) : ListOk s' dir :=
  ⟨hstep.wf, hstep.self hok.self, hstep.root hok.root, hshort⟩

theorem ListOk.keep (hstep : DirStep s dir (leafBytes s dir) n s') : ListOk s' dir := by
  refine hok.step hstep ?_
  rw [entryAt_keep hstep]
  exact hok.short

theorem ListOk.update {L : Nat → Bytes} (hstep : DirStep s dir L n s') {k : Nat} {o : Option DirentInfo}
    (he : entryAt s' dir = Function.update (entryAt s dir) k o) (ho : ∀ e, o = some e → e.name.length ≤ 108) :
    ListOk s' dir := by
  refine hok.step hstep fun j e hj => ?_
  rw [he] at hj
  by_cases hjk : j = k
  · rw [hjk, update_self] at hj
    exact ho e hj
  grind [hok.short]

omit hok in
theorem deInfo_putDirent {de : Bytes} {i ino h ftype : Nat} (hino : ino < 256 ^ 8) (hft : ftype < 256)
    (hlen : (cstr name).length ≤ 108) :
    deInfo (putDirent de i ino h (cstr name).length ftype name) i = ⟨ino, ftype, cstr name⟩ := by
  have htype : deType (putDirent de i ino h (cstr name).length ftype name) i = ftype := by
    unfold deType putDirent putLE
    simp (disch := omega) only [fill_of_not_mem, fill_of_mem, leByte_toNat]
    simp [Nat.mod_eq_of_lt hft]
  rw [deInfo, htype, deName_putDirent_cstr hlen, deIno_putDirent hino]

omit hok in
theorem deName_of_matches {de : Bytes} {h i : Nat} (hlen : (cstr name).length ≤ 108)
    (hm : deMatches de h (cstr name).length name i = true) : deIno de i ≠ 0 ∧ deName de i = cstr name := by
  unfold deMatches at hm
  simp only [Bool.and_eq_true, bne_iff_ne, ne_eq, beq_iff_eq] at hm
  obtain ⟨⟨⟨h1, -⟩, h3⟩, h4⟩ := hm
  rw [Nat.mod_eq_of_lt (by omega)] at h3
  grind [deName, eq_bytesAt_iff, cstr_getD, fstrncmp_eq_zero]

theorem dirCall_holds {h : Log DirOp DirAns} (hh : HoldsEntries h (entryAt s dir)) {op : DirOp}
    (hs : op.Short) : ListOk (dirCall dir s op).2 dir ∧
      HoldsEntries ((op, (dirCall dir s op).1) :: h) (entryAt (dirCall dir s op).2 dir) := by
  cases op with
  | lookup name =>
    have hsame : (dirCall dir s (.lookup name)).2 = s := by
      unfold dirCall
      dsimp only
      split <;> rfl
    rw [hsame]
    exact ⟨hok, .refused _ _ _ _ hh fun _ _ => ⟨name, rfl⟩⟩
  | insert name ino ftype =>
    obtain ⟨hlen, hino, hft⟩ := hs
    have hf := fstrlen_of_short hlen
    obtain ⟨⟨e, s'⟩, he, hr⟩ : ∃ r, flatfsHtreeInsert s dir name ino ftype = some r ∧ Inserted s dir name ino ftype r :=
      flatfsHtreeInsert_outcome hok.wf hok.self (.inl (by rw [hf]; omega))
    rw [dirCall_insert he]
    cases hr with
    | corrupt h => exact absurd hok.root h
    | tooLong h => exact ⟨hok, .refused _ _ _ _ hh fun o ho => by cases ho⟩
    | noRoom h0 => exact ⟨hok, .refused _ _ _ _ hh fun o ho => by cases ho⟩
    | full s' hs hstep =>
      refine ⟨hok.keep hstep, ?_⟩
      rw [entryAt_keep hstep]
      exact .refused _ _ _ _ hh fun o ho => by cases ho
    | found s' i hs hi hstep =>
      refine ⟨hok.keep hstep, ?_⟩
      rw [entryAt_keep hstep]
      exact .refused _ _ _ _ hh fun o ho => by cases ho
    | put s' i hs hi hstep =>
      have hi32 : i < 32 := fitIn_lt hs
      have hb := callHash_lt name
      rw [hf] at hstep
      have hentry := entryAt_step hok hb hi32 (fun x hx => putDirent_outside (by omega) hx) hstep
      rw [deIno_putDirent hino, deInfo_putDirent hino hft hlen] at hentry
      refine ⟨hok.update hstep hentry fun e he' => ?_, ?_⟩
      · grind
      · rw [hentry]
        refine .inserted _ _ _ _ _ _ _ hh (by omega) ?_
        unfold entryAt
        rw [show (32 * (callHash name / 16777216) + i) / 32 = callHash name / 16777216 by omega,
          show (32 * (callHash name / 16777216) + i) % 32 = i by omega]
        exact if_pos hi
  | remove name =>
    have hs' : (cstr name).length ≤ 108 := hs
    have hr := flatfsHtreeRemove_outcome name hok.wf hok.self
    obtain ⟨e, s', he⟩ : ∃ e s', flatfsHtreeRemove s dir name = (e, s') := ⟨_, _, rfl⟩
    rw [dirCall_remove he]
    rw [he] at hr
    cases hr with
    | corrupt h => exact absurd hok.root h
    | absent h => exact ⟨hok, .refused _ _ _ _ hh fun o ho => by cases ho⟩
    | clear s' i hs hstep =>
      have hi32 : i < 32 := mem_range.mp (mem_of_find?_eq_some hs)
      have hentry := entryAt_clear hok (callHash_lt name) hi32 hstep
      have hm := List.find?_some hs
      rw [fstrlen_of_short hs'] at hm
      obtain ⟨hu, hn⟩ := deName_of_matches hs' hm
      refine ⟨hok.update hstep hentry fun e he' => (by cases he'), ?_⟩
      rw [hentry]
      refine .removed _ _ _ _ (deInfo (callLeaf s dir name) i) _ hh ?_ hn
      unfold entryAt
      rw [show (32 * (callHash name / 16777216) + i) / 32 = callHash name / 16777216 by omega,
        show (32 * (callHash name / 16777216) + i) % 32 = i by omega]
      exact if_neg hu

theorem flatfsHtreeRemove_clears (name : Text) :
    ListOk (flatfsHtreeRemove s dir name).2 dir ∧ ∀ j, entryAt (flatfsHtreeRemove s dir name).2 dir j ≠ none →
        entryAt (flatfsHtreeRemove s dir name).2 dir j = entryAt s dir j := by
  have hr := flatfsHtreeRemove_outcome name hok.wf hok.self
  obtain ⟨e, s', he⟩ : ∃ e s', flatfsHtreeRemove s dir name = (e, s') := ⟨_, _, rfl⟩
  rw [he] at hr ⊢
  cases hr with
  | corrupt h => exact absurd hok.root h
  | absent h => exact ⟨hok, fun _ _ => rfl⟩
  | clear s' i hs hstep =>
    have hi32 : i < 32 := mem_range.mp (mem_of_find?_eq_some hs)
    have hentry := entryAt_clear hok (callHash_lt name) hi32 hstep
    refine ⟨hok.update hstep hentry fun e he' => (by cases he'), fun j hj => ?_⟩
    simp only [hentry] at hj ⊢
    grind

end

end Entries

/-! ## 4. Listing -/

/-- A directory and the position of a listing. -/
structure Listing where
  fs : FS
  pos : Nat

inductive ListOp where
  | iterate
  | remove (name : Text)

/-- The code a call returns, and the entry. -/
abbrev ListAns := FlatfsErr × Option DirentInfo

def listCall (dir : Nat) (t : Listing) : ListOp → ListAns × Listing
  | .iterate =>
    let r := flatfsHtreeIterate t.fs dir t.pos
    ((r.1, r.2.2), ⟨t.fs, r.2.1⟩)
  | .remove name =>
    let r := flatfsHtreeRemove t.fs dir name
    ((r.1, none), ⟨r.2, t.pos⟩)

/-- What the calls of a log listed, in order; the log has the newest call first. -/
def listed : Log ListOp ListAns → List DirentInfo
  | [] => []
  | (.iterate, (_, some e)) :: h => listed h ++ [e]
  | _ :: h => listed h

/-- How often the directory was asked for an entry. -/
def iterations : Log ListOp ListAns → Nat
  | [] => 0
  | (.iterate, _) :: h => iterations h + 1
  | _ :: h => iterations h

/-- The listing has come to its end. -/
def Ended (h : Log ListOp ListAns) : Prop := ∃ ans, (.iterate, ans) ∈ h ∧ ans.1 = .notfound

/-- **The law of a listing** that began at the directory `s` and has come to `t`: what was listed are the
    entries of different slots of `s`; it ends, every entry that is then still there was listed, and from
    then on nothing is. -/
structure ListingLaw (dir : Nat) (s : FS) (h : Log ListOp ListAns) (t : Listing) : Prop where
  once : ∃ js : List Nat, js.Pairwise (· < ·) ∧ (listed h).map some = js.map (entryAt s dir) ∧
    (∀ j ∈ js, j < 8192) ∧ (Ended h → ∀ j, entryAt t.fs dir j ≠ none → j ∈ js)
  kept : ∀ j, entryAt t.fs dir j ≠ none → entryAt t.fs dir j = entryAt s dir j
  answers : ∀ ans, (.iterate, ans) ∈ h → (∃ e, ans = (.ok, some e)) ∨ ans = (.notfound, none)
  ends : 8192 < iterations h → Ended h
  forever : ∀ ans h₁ h₂, h = h₁ ++ (.iterate, ans) :: h₂ → Ended h₂ → ans = (.notfound, none)

/-- What a listing keeps. -/
structure ListInv (dir : Nat) (s : FS) (h : Log ListOp ListAns) (t : Listing) : Prop where
  ok : ListOk t.fs dir
  covers : ∃ js, Covers 8192 (entryAt s dir) (entryAt t.fs dir) t.pos js ∧ (listed h).map some = js.map (entryAt s dir)
  ended : Ended h → t.pos = 8192
  answers : ∀ ans, (.iterate, ans) ∈ h → (∃ e, ans = (.ok, some e)) ∨ ans = (.notfound, none)
  forever : ∀ ans h₁ h₂, h = h₁ ++ (.iterate, ans) :: h₂ → Ended h₂ → ans = (.notfound, none)

section Run

variable {dir : Nat} {s : FS} {h : Log ListOp ListAns} {t : Listing}

theorem length_listed (hans : ∀ ans, (.iterate, ans) ∈ h → (∃ e, ans = (.ok, some e)) ∨ ans = (.notfound, none))
    (hend : ¬ Ended h) : (listed h).length = iterations h := by
  induction h with
  | nil => rfl
  | cons x h ih =>
    have hrest := ih (fun ans hm => hans ans (mem_cons_of_mem _ hm))
      fun ⟨ans, hm, hn⟩ => hend ⟨ans, mem_cons_of_mem _ hm, hn⟩
    obtain ⟨op, ans⟩ := x
    cases op with
    | remove name => exact hrest
    | iterate =>
      rcases hans ans mem_cons_self with ⟨e, rfl⟩ | rfl
      · rw [listed, iterations, length_append, length_singleton, hrest]
      · exact absurd ⟨_, mem_cons_self, rfl⟩ hend

theorem ListInv.law (hI : ListInv dir s h t) : ListingLaw dir s h t := by
  obtain ⟨js, hc, hl⟩ := hI.covers
  have hlt : ∀ j ∈ js, j < 8192 := fun j hj => Nat.lt_of_lt_of_le (hc.below j hj) hc.le
  refine ⟨⟨js, hc.sorted, hl, hlt, fun he j hj => ?_⟩, hc.kept, hI.answers, fun hmany => ?_, hI.forever⟩
  · have hj' : j < 8192 := by
      by_contra hge
      exact hj (entryAt_of_le (Nat.le_of_not_lt hge))
    grind [hc.all, hI.ended]
  · by_contra hend
    have hcount := length_listed hI.answers hend
    have hjs : js.length ≤ 8192 := by
      have hnodup : js.Nodup := hc.sorted.imp Nat.ne_of_lt
      have hsub : List.Subperm js (List.range 8192) := hnodup.subperm fun j hj => mem_range.mpr (hlt j hj)
      simpa using hsub.length_le
    have hlen := congrArg List.length hl
    grind

theorem forever_cons {x : ListOp × ListAns}
    (hx : ∀ ans, x = (.iterate, ans) → Ended h → ans = (.notfound, none))
    (hh : ∀ ans h₁ h₂, h = h₁ ++ (.iterate, ans) :: h₂ → Ended h₂ → ans = (.notfound, none)) (ans : ListAns)
    (h₁ h₂ : Log ListOp ListAns) (he : x :: h = h₁ ++ (.iterate, ans) :: h₂) (hend : Ended h₂) :
    ans = (.notfound, none) := by
  cases h₁ with
  | nil => grind
  | cons y h₁ => grind

theorem listCall_keeps (hI : ListInv dir s h t) (op : ListOp) :
    ListInv dir s ((op, (listCall dir t op).1) :: h) (listCall dir t op).2 := by
  obtain ⟨js, hc, hl⟩ := hI.covers
  cases op with
  | remove name =>
    obtain ⟨hok, hclear⟩ := flatfsHtreeRemove_clears hI.ok name
    refine ⟨hok, ⟨js, hc.clear hclear, hl⟩, fun ⟨ans, hm, hn⟩ => ?_, fun ans hm => ?_,
      forever_cons (fun ans he => by cases he) hI.forever⟩
    · rcases mem_cons.mp hm with hm | hm
      · cases hm
      · exact hI.ended ⟨ans, hm, hn⟩
    grind [hI.answers]
  | iterate =>
    have hit := flatfsHtreeIterate_eq hI.ok.self.lt hI.ok.root t.pos
    cases hn : nextUsed (entryAt t.fs dir) 8192 t.pos with
    | some j =>
      obtain ⟨hc', hj⟩ := hc.next hn
      obtain ⟨hge, hlt, hu, -⟩ := nextUsed_some hn
      obtain ⟨e, he⟩ := Option.ne_none_iff_exists'.mp hu
      simp only [hn, he] at hit
      have hcall : listCall dir t .iterate = ((.ok, some e), ⟨t.fs, j + 1⟩) := by
        simp only [listCall, hit]
      have hnot : ¬ Ended h := fun hend => by
        have := hI.ended hend
        omega
      rw [hcall]
      refine ⟨hI.ok, ⟨js ++ [j], hc', ?_⟩, fun ⟨ans, hm, hn⟩ => ?_, fun ans hm => ?_,
        forever_cons (fun ans _ hend => absurd hend hnot) hI.forever⟩
      · rw [listed, map_append, map_append, hl, map_singleton, map_singleton, ← hj, he]
      · rcases mem_cons.mp hm with hm | hm
        · grind
        · exact absurd ⟨ans, hm, hn⟩ hnot
      grind [hI.answers]
    | none =>
      simp only [hn] at hit
      have hcall : listCall dir t .iterate = ((.notfound, none), ⟨t.fs, 8192⟩) := by
        simp only [listCall, hit]
      rw [hcall]
      refine ⟨hI.ok, ⟨js, hc.finish hn, hl⟩, fun _ => rfl, fun ans hm => ?_,
        forever_cons (fun ans he _ => ((Prod.mk.inj he).2).symm) hI.forever⟩
      grind [hI.answers]

theorem ListInv.start (hok : ListOk s dir) : ListInv dir s [] ⟨s, 0⟩ where
  ok := hok
  covers := ⟨[], Covers.start 8192 (entryAt s dir), by rw [listed, map_nil, map_nil]⟩
  ended := fun ⟨_, hm, _⟩ => absurd hm not_mem_nil
  answers := fun _ hm => absurd hm not_mem_nil
  forever := fun _ h₁ _ he => by cases h₁ <;> cases he

theorem listing_law (hok : ListOk s dir) (hr : Reach anyInput (listCall dir) ⟨s, 0⟩ h t) : ListingLaw dir s h t :=
  (hr.inv (I := ListInv dir s) (ListInv.start hok) fun _ _ op hI _ => listCall_keeps hI op).law

end Run

/-- **A listing of a directory is complete**: after `flatfs_htree_init` and any calls with names of at most
    108 bytes the directory holds what they put and did not take away, and whatever is removed meanwhile,
    listing it from position 0 lists every entry once that stays. -/
theorem dir_listing_complete (s0 s1 : FS) (dir rb : Nat) (hW : Wf s0) (hD : DirSelf s0 dir) (hrb : rb ≠ 0)
    (ha : s0.Allocated rb) (hno : ∀ a, s0.val a ≠ rb) (hinit : flatfsHtreeInit s0 dir rb = (.ok, s1))
    (h : Log DirOp DirAns) (s : FS) (hr : Reach (fun _ op => op.Short) (dirCall dir) s1 h s) :
    HoldsEntries h (entryAt s dir) ∧
      ∀ hl t, Reach anyInput (listCall dir) ⟨s, 0⟩ hl t → ListingLaw dir s hl t := by
  obtain ⟨s1', he, hok1, hz⟩ := flatfsHtreeInit_ok hW hD hrb ha hno
  obtain rfl : s1' = s1 := (Prod.mk.inj (he.symm.trans hinit)).2
  have hempty : entryAt s1' dir = fun _ => none := by
    funext j
    unfold entryAt
    rw [hz]
    exact if_pos (leAt_zeroBytes _ _)
  have hstart : ListOk s1' dir ∧ HoldsEntries [] (entryAt s1' dir) := by
    rw [hempty]
    refine ⟨⟨hok1.wf, hok1.self, hok1.root, fun j e hj => ?_⟩, .empty⟩
    rw [hempty] at hj
    cases hj
  obtain ⟨hok, hh⟩ := hr.inv (I := fun h s => ListOk s dir ∧ HoldsEntries h (entryAt s dir)) hstart
    fun _ _ _ hI hs => dirCall_holds hI.1 hI.2 hs
  grind [listing_law]

/-- One name is inserted into a new directory, which is then listed with two calls. -/
theorem dir_listing_two : ∃ h s hl t, Reach (fun _ op => op.Short) (dirCall 1) newDir h s ∧
    h.map Prod.fst = [.insert nameBb 6 8, .insert nameAl 5 8] ∧ Reach anyInput (listCall 1) ⟨s, 0⟩ hl t ∧
    iterations hl = 2 ∧ HoldsEntries h (entryAt s 1) ∧ ListingLaw 1 s hl t := by
  have hstart : Reach (fun _ op => DirOp.Short op) (dirCall 1) newDir [] newDir := .start
  have hshort : DirOp.Short (.insert nameAl 5 8) ∧ DirOp.Short (.insert nameBb 6 8) :=
    ⟨⟨by decide, by decide, by decide⟩, by decide, by decide, by decide⟩
  have hr := (hstart.step _ _ _ hshort.1).step _ _ _ hshort.2
  generalize hs : (dirCall 1 (dirCall 1 newDir (.insert nameAl 5 8)).2 (.insert nameBb 6 8)).2 = s
  rw [hs] at hr
  have hfirst : Reach anyInput (listCall 1) ⟨s, 0⟩ [] ⟨s, 0⟩ := .start
  have hl := (hfirst.step _ _ ListOp.iterate trivial).step _ _ ListOp.iterate trivial
  obtain ⟨hW, ha, hno⟩ := beforeInit_ok
  obtain ⟨hh, hlaw⟩ := dir_listing_complete beforeInit newDir 1 1034 hW dirSelf_beforeInit (by decide) ha hno newDir_ok.1 _ s hr
  exact ⟨_, s, _, _, hr, rfl, hl, rfl, hh, hlaw _ _ hl⟩

end Kobalt.Flatfs

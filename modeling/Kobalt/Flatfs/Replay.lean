/-
  Subject: REPLAY AGREES WITH THE COMMITTED HISTORY, as long as every transaction fits its
  descriptor and the history fits the ring.
-/
import Kobalt.Lib.Ring
import Kobalt.Flatfs.Journal

namespace Kobalt.Flatfs.Journal

open Function List Nat

variable {b : Nat} {w : Nat × Bytes}

/-! ## 1. The journal area -/

/-- **Where the journal is**: its superblock, the copy of it, and the ring. -/
structure JArea where
  start : Nat
  cnt : Nat
  first : 1 < start
  some : 0 < cnt
  fits : start + 2 + cnt ≤ maxBlocks

/-- A block of the image that is not in the journal. -/
def JArea.Outside (g : JArea) (b : Nat) : Prop := (b < g.start ∨ g.start + 2 + g.cnt ≤ b) ∧ b < maxBlocks

/-- Where the block of the ring at a position is. -/
def JArea.slot (g : JArea) (r : Nat) : Nat := blockSize * (g.start + 2 + r % g.cnt)

/-- The bytes of the journal area are the same. -/
def JArea.Kept (g : JArea) (m m' : Bytes) : Prop :=
  ∀ x, blockSize * g.start ≤ x → x < blockSize * (g.start + 2 + g.cnt) → m' x = m x

/-- The bytes of the slot are the same. -/
def JArea.SameSlot (g : JArea) (m m' : Bytes) (r : Nat) : Prop := ∀ x < blockSize, m' (g.slot r + x) = m (g.slot r + x)

/-- A write is the target and the 4096 bytes. -/
def blockWrite (w : Nat × Bytes) : Nat × Text := (w.1, bytesAt w.2 0 blockSize)

/-- The writes of a history, in order. -/
def writesOf (H : List Tx) : List (Nat × Text) := (H.map (List.map blockWrite)).flatten

section Blocks

variable {g : JArea} {m m' : Bytes} {b c r r' : Nat}

theorem blkPtr_eq (h : b < maxBlocks) : blkPtr b = 4096 * b := by grind [blkPtr, blockSize, u64_of_lt, maxBlocks]

theorem blockOf_congr (h : ∀ x < blockSize, m' (blkPtr b + x) = m (blkPtr b + x)) : blockOf m' b = blockOf m b := by
  refine bytesAt_congr fun x h1 h2 => ?_
  have := h (x - blkPtr b) (by omega)
  rwa [Nat.add_sub_cancel' h1] at this

theorem blockOf_setBlock (m : Bytes) (b : Nat) (d : Bytes) : blockOf (setBlock m b d) b = bytesAt d 0 blockSize := by
  unfold blockOf setBlock bytesAt
  refine map_congr_left fun i hi => ?_
  rw [fill_add (mem_range.mp hi), zero_add]

theorem setBlock_of_not_mem {d : Bytes} {x : Nat} (hb : b < maxBlocks) (h : x < 4096 * b ∨ 4096 * (b + 1) ≤ x) :
    setBlock m b d x = m x := by
  unfold setBlock
  grind [fill_of_not_mem, blkPtr_eq, blockSize]

theorem blockOf_setBlock_of_ne {d : Bytes} (hb : b < maxBlocks) (hc : c < maxBlocks) (hne : b ≠ c) :
    blockOf (setBlock m c d) b = blockOf m b := by grind [blockOf_congr, setBlock_of_not_mem, blkPtr_eq, blockSize]

theorem JArea.slot_lt (g : JArea) (r : Nat) : 4096 * g.start + 8192 ≤ g.slot r ∧
    g.slot r + 4096 ≤ 4096 * (g.start + 2 + g.cnt) := by
  have := mod_lt r g.some
  simp only [JArea.slot, blockSize]
  omega

theorem JArea.ptr (g : JArea) (h : r < 2 ^ 64) : blkPtr (logBlk (g.start + 2) g.cnt r) = g.slot r := by
  have h1 := mod_lt r g.some
  have h2 := g.fits
  unfold logBlk
  rw [u64_of_lt h, blkPtr_eq (by omega)]
  rfl

theorem JArea.slot_ne (g : JArea) (h : r < r') (h' : r' < r + g.cnt) :
    g.slot r + 4096 ≤ g.slot r' ∨ g.slot r' + 4096 ≤ g.slot r := by
  have hne := Ring.cell_ne (n := g.cnt) r (i := 0) (j := r' - r) (by omega) (by omega)
  rw [Nat.add_zero, Nat.add_sub_cancel' h.le] at hne
  simp only [JArea.slot, blockSize]
  omega

theorem JArea.Kept.sameSlot (h : g.Kept m m') (r : Nat) : g.SameSlot m m' r := by
  intro x hx
  have := g.slot_lt r
  simp only [blockSize] at hx
  refine h _ ?_ ?_ <;> simp only [blockSize] <;> omega

theorem JArea.Kept.trans {m'' : Bytes} (h : g.Kept m m') (h' : g.Kept m' m'') : g.Kept m m'' :=
  fun x h1 h2 => (h' x h1 h2).trans (h x h1 h2)

theorem JArea.Kept.refl (m : Bytes) : g.Kept m m := fun _ _ _ => rfl

theorem JArea.Outside.kept (h : g.Outside b) (m d : Bytes) : g.Kept m (setBlock m b d) := by
  intro x h1 h2
  obtain ⟨h3, h4⟩ := h
  grind [blockSize, setBlock_of_not_mem]

theorem blockOf_of_outside (hb : g.Outside b)
    (h : ∀ x, x < 4096 * g.start ∨ 4096 * (g.start + 2 + g.cnt) ≤ x → m' x = m x) : blockOf m' b = blockOf m b := by
  obtain ⟨h1, h2⟩ := hb
  grind [blockOf_congr, blkPtr_eq, blockSize]

theorem leAt_slot (h : g.SameSlot m m' r) (off n : Nat) (hn : off + n ≤ 4096) :
    leAt m' (g.slot r + off) n = leAt m (g.slot r + off) n := by
  refine leAt_congr fun x h1 h2 => ?_
  have := h (x - g.slot r) (by simp only [blockSize]; omega)
  rwa [Nat.add_sub_cancel' (by omega)] at this

end Blocks

/-! ## 2. What is in the log -/

/-- The tags of the descriptor at position `p` and the blocks behind it, as far as they are in its
    block. -/
structure TagsAt (g : JArea) (m : Bytes) (p : Nat) (tx : Tx) : Prop where
  short : tx.length ≤ 254
  tag : ∀ i w, tx[i]? = some w → leAt m (tagAt (g.slot p) i) 8 = w.1 ∧
    leAt m (tagAt (g.slot p) i + 12) 4 = flatfsCrc32 (bytesAt w.2 0 blockSize)
  data : ∀ i w, tx[i]? = some w → bytesAt m (g.slot (p + 1 + i)) blockSize = bytesAt w.2 0 blockSize

/-- The records around the blocks: a descriptor that counts `n` of them, and a commit record. -/
structure HeadsAt (g : JArea) (m : Bytes) (p n : Nat) : Prop where
  magic : leAt m (g.slot p) 4 = journalMagic
  type : leAt m (g.slot p + 4) 4 = jrecDescriptor
  count : leAt m (g.slot p + 16) 4 = n
  commitMagic : leAt m (g.slot (p + 1 + n)) 4 = journalMagic
  commitType : leAt m (g.slot (p + 1 + n) + 4) 4 = jrecCommit

/-- **A committed transaction in the log**, from position `p` on. -/
structure RecAt (g : JArea) (m : Bytes) (p : Nat) (tx : Tx) : Prop where
  tags : TagsAt g m p tx
  heads : HeadsAt g m p tx.length

/-- A history in the log, from position `p` to `q`. -/
def LogAt (g : JArea) (m : Bytes) : Nat → List Tx → Nat → Prop
  | p, [], q => p = q
  | p, tx :: H, q => RecAt g m p tx ∧ LogAt g m (p + tx.length + 2) H q

section Log

variable {g : JArea} {m m' : Bytes} {p q : Nat} {tx : Tx} {H : List Tx}

theorem TagsAt.congr (h : TagsAt g m p tx) (hs : ∀ r, p ≤ r → r < p + tx.length + 1 → g.SameSlot m m' r) :
    TagsAt g m' p tx := by
  have hdesc := hs p (by omega) (by omega)
  refine ⟨h.short, fun i w hw => ?_, fun i w hw => ?_⟩
  · have hi := (List.getElem?_eq_some_iff.mp hw).1
    have := h.short
    have h1 := h.tag i w hw
    simp only [tagAt, Nat.add_assoc] at h1 ⊢
    rw [leAt_slot hdesc _ _ (by omega), leAt_slot hdesc _ _ (by omega)]
    exact h1
  · have hi := (List.getElem?_eq_some_iff.mp hw).1
    rw [← h.data i w hw]
    refine bytesAt_congr fun x h1 h2 => ?_
    have := hs (p + 1 + i) (by omega) (by omega) (x - g.slot (p + 1 + i)) (by omega)
    rwa [Nat.add_sub_cancel' h1] at this

theorem HeadsAt.congr {n : Nat} (h : HeadsAt g m p n) (hdesc : g.SameSlot m m' p) (hcom : g.SameSlot m m' (p + 1 + n)) :
    HeadsAt g m' p n := by
  refine ⟨?_, ?_, ?_, ?_, ?_⟩
  · rw [← h.magic]
    simpa only [add_zero] using leAt_slot hdesc 0 4 (by omega)
  · exact (leAt_slot hdesc 4 4 (by omega)).trans h.type
  · exact (leAt_slot hdesc 16 4 (by omega)).trans h.count
  · rw [← h.commitMagic]
    simpa only [add_zero] using leAt_slot hcom 0 4 (by omega)
  · exact (leAt_slot hcom 4 4 (by omega)).trans h.commitType

theorem RecAt.congr (h : RecAt g m p tx) (hs : ∀ r, p ≤ r → r < p + tx.length + 2 → g.SameSlot m m' r) :
    RecAt g m' p tx where
  tags := h.tags.congr fun r h1 h2 => hs r h1 (by omega)
  heads := h.heads.congr (hs p (by omega) (by omega)) (hs (p + 1 + tx.length) (by omega) (by omega))

theorem LogAt.le (h : LogAt g m p H q) : p + 2 * H.length ≤ q := by
  induction H generalizing p with
  | nil => exact le_of_eq h
  | cons tx H ih => grind [h.2]

theorem LogAt.congr (h : LogAt g m p H q) (hs : ∀ r, p ≤ r → r < q → g.SameSlot m m' r) : LogAt g m' p H q := by
  induction H generalizing p with
  | nil => exact h
  | cons tx H ih =>
    obtain ⟨h1, h2⟩ := h
    have hle := h2.le
    exact ⟨h1.congr fun r hr hr' => hs r hr (by omega), ih h2 fun r hr hr' => hs r (by omega) hr'⟩

theorem LogAt.append (h : LogAt g m p H q) (hrec : RecAt g m q tx) : LogAt g m p (H ++ [tx]) (q + tx.length + 2) := by
  induction H generalizing p with
  | nil =>
    obtain rfl : p = q := h
    exact ⟨hrec, rfl⟩
  | cons tx' H ih => exact ⟨h.1, ih h.2⟩

end Log

/-! ## 3. Replay -/

section Replay

variable {g : JArea} {m m' : Bytes} {p q : Nat} {tx : Tx} {H : List Tx}

/-- **What replaying writes leaves**: the journal as it was, and outside of it the last write to every
    block that is not revoked. -/
structure Replayed (g : JArea) (rev : List Nat) (ws : List (Nat × Text)) (m m' : Bytes) : Prop where
  kept : g.Kept m m'
  last : ∀ b, g.Outside b → blockOf m' b = if b ∈ rev then blockOf m b else (lastWrite ws b).getD (blockOf m b)

theorem Replayed.nil (rev : List Nat) (m : Bytes) : Replayed g rev [] m m :=
  ⟨.refl m, fun b _ => by simp [lastWrite]⟩

theorem Replayed.trans {rev : List Nat} {ws vs : List (Nat × Text)} {m'' : Bytes} (h : Replayed g rev ws m m')
    (h' : Replayed g rev vs m' m'') : Replayed g rev (ws ++ vs) m m'' := by
  refine ⟨h.kept.trans h'.kept, fun b hb => ?_⟩
  grind [h'.last, h.last, getD_lastWrite_append]

theorem Replayed.tag {rev : List Nat} {src : Nat} (hw : g.Outside w.1)
    (hdata : bytesAt m src blockSize = bytesAt w.2 0 blockSize) :
    Replayed g rev [blockWrite w] m (if w.1 ∉ rev then setBlock m w.1 fun x => m (src + x) else m) := by
  have hcopy : bytesAt (fun x => m (src + x)) 0 blockSize = bytesAt w.2 0 blockSize := by
    rw [← hdata]
    unfold bytesAt
    exact map_congr_left fun i _ => by rw [zero_add]
  by_cases hrev : w.1 ∈ rev
  · rw [if_neg (not_not.mpr hrev)]
    refine ⟨.refl m, fun b _ => ?_⟩
    grind [lastWrite, blockWrite]
  · rw [if_pos hrev]
    refine ⟨hw.kept m _, fun b hb => ?_⟩
    by_cases hbw : b = w.1
    · subst hbw
      rw [if_neg hrev, blockOf_setBlock, hcopy]
      simp [lastWrite, blockWrite]
    grind [blockOf_setBlock_of_ne, hb.2, hw.2, lastWrite, blockWrite]

theorem replayTags_spec (rev : List Nat) (hq : p + tx.length + 2 ≤ 2 ^ 64) (ht : ∀ w ∈ tx, g.Outside w.1) :
    ∀ (suf pre : Tx) (m : Bytes), tx = pre ++ suf → TagsAt g m p tx →
    Replayed g rev (suf.map blockWrite) m
      (replayTags rev (g.start + 2) g.cnt (g.slot p) suf.length pre.length (p + 1 + pre.length) m) := by
  intro suf
  induction suf with
  | nil => exact fun _ m _ _ => Replayed.nil rev m
  | cons w suf ih =>
    intro pre m he htags
    have hlen : pre.length < tx.length := by rw [he]; simp
    have hget : tx[pre.length]? = some w := by rw [he]; simp
    have hw : g.Outside w.1 := ht w (by rw [he]; simp)
    obtain ⟨h1, h2⟩ := htags.tag _ _ hget
    have h3 := htags.data _ _ hget
    generalize hm₁ : (if w.1 ∉ rev then setBlock m w.1 fun x => m (g.slot (p + 1 + pre.length) + x) else m) = m₁
    have hone : Replayed g rev [blockWrite w] m m₁ := hm₁ ▸ .tag hw h3
    have htags₁ : TagsAt g m₁ p tx := htags.congr fun r _ _ => hone.kept.sameSlot r
    have hrest := ih (pre ++ [w]) m₁ (by rw [he]; simp) htags₁
    rw [length_append, length_singleton, ← add_assoc] at hrest
    rw [length_cons, replayTags, g.ptr (by omega)]
    simp only [h1, h2, h3, and_true, hm₁]
    exact hone.trans hrest

/-- A descriptor and the commit record behind its blocks are two rounds of the loop. -/
theorem replayLoop_record (rev : List Nat) {n fuel : Nat} (hq : q < 2 ^ 64) (hle : p + n + 2 ≤ q) (hh : HeadsAt g m p n)
    (hk : g.Kept m (replayTags rev (g.start + 2) g.cnt (g.slot p) n 0 (p + 1) m)) :
    replayLoop (g.start + 2) g.cnt q (fuel + 1 + 1) p m rev =
      replayLoop (g.start + 2) g.cnt q fuel (p + n + 2) (replayTags rev (g.start + 2) g.cnt (g.slot p) n 0 (p + 1) m)
        rev := by
  generalize hm₁ : replayTags rev (g.start + 2) g.cnt (g.slot p) n 0 (p + 1) m = m₁
  rw [hm₁] at hk
  have hh₁ := hh.congr (hk.sameSlot p) (hk.sameSlot (p + 1 + n))
  rw [replayLoop, if_neg (by omega), g.ptr (by omega)]
  simp only [hh.magic, hh.type, hh.count, ne_eq, not_true_eq_false, if_false, if_true]
  rw [hm₁, u64_of_lt (by omega), replayLoop, if_neg (by omega), g.ptr (by omega)]
  simp only [hh₁.commitMagic, hh₁.commitType, ne_eq, not_true_eq_false, if_false, if_true]
  rw [if_neg (by decide), u64_of_lt (by omega), show p + 1 + n + 1 = p + n + 2 by omega]

/-- **The loop over the records**, by induction on the history: two rounds a transaction. -/
theorem replayLoop_spec (rev : List Nat) (hq : q < 2 ^ 64) :
    ∀ (H : List Tx) {p : Nat} {m : Bytes} {fuel : Nat}, LogAt g m p H q → 2 * H.length < fuel →
    (∀ tx ∈ H, ∀ w ∈ tx, g.Outside w.1) →
    ∃ m', replayLoop (g.start + 2) g.cnt q fuel p m rev = some (q, m', rev) ∧ Replayed g rev (writesOf H) m m' := by
  intro H
  induction H with
  | nil =>
    intro p m fuel h hf _
    obtain rfl : p = q := h
    obtain ⟨k, rfl⟩ : ∃ k, fuel = k + 1 := ⟨fuel - 1, by omega⟩
    exact ⟨m, by rw [replayLoop, if_pos rfl], Replayed.nil rev m⟩
  | cons tx H ih =>
    intro p m fuel h hf ht
    obtain ⟨hrec, hlog⟩ := h
    obtain ⟨htx, htH⟩ := forall_mem_cons.mp ht
    have hle := hlog.le
    rw [length_cons] at hf
    obtain ⟨k, rfl⟩ : ∃ k, fuel = k + 1 + 1 := ⟨fuel - 2, by omega⟩
    have htags := replayTags_spec rev (by omega) htx tx [] m rfl hrec.tags
    rw [length_nil, add_zero] at htags
    obtain ⟨m', hm', hrest⟩ := ih (hlog.congr fun r _ _ => htags.kept.sameSlot r) (show 2 * H.length < k by omega) htH
    refine ⟨m', ?_, htags.trans hrest⟩
    grind [replayLoop_record, hrec.heads, htags.kept]

end Replay

/-! ## 4. What is written where -/

/-- Nothing changes outside of the `n` bytes at `a`. -/
structure OnlyIn (a n : Nat) (m m' : Bytes) : Prop where
  same : ∀ x, x < a ∨ a + n ≤ x → m' x = m x

section Frames

variable {a n k seq : Nat} {m m' m'' : Bytes} {tx : Tx}

theorem onlyIn_fill (m : Bytes) (a n : Nat) (f : Nat → UInt8) : OnlyIn a n m (fill m a n f) :=
  ⟨fun _ h => fill_of_not_mem h⟩

theorem OnlyIn.trans (h : OnlyIn a n m m') (h' : OnlyIn a n m' m'') : OnlyIn a n m m'' :=
  ⟨fun x hx => (h'.same x hx).trans (h.same x hx)⟩

theorem OnlyIn.mono (h : OnlyIn b k m m') (h1 : a ≤ b) (h2 : b + k ≤ a + n) : OnlyIn a n m m' :=
  ⟨fun x hx => h.same x (by omega)⟩

theorem OnlyIn.leAt (h : OnlyIn a n m m') (hb : b + k ≤ a ∨ a + n ≤ b) : leAt m' b k = leAt m b k :=
  leAt_congr fun x h1 h2 => h.same x (by omega)

theorem OnlyIn.putLE (h : OnlyIn a n m m') {v : Nat} (h1 : a ≤ b) (h2 : b + k ≤ a + n) :
    OnlyIn a n m (putLE m' b k v) :=
  h.trans ((onlyIn_fill m' b k _).mono h1 h2)

theorem jrecSet_onlyIn (m : Bytes) (a type seq count : Nat) : OnlyIn a 24 m (jrecSet m a type seq count) :=
  (((((onlyIn_fill m a 4 _).mono (by omega) (by omega)).putLE (by omega) (by omega)).putLE (by omega) (by omega)).putLE
    (by omega) (by omega))

theorem jrecSeal_onlyIn (m : Bytes) (a : Nat) : OnlyIn (a + 20) 4 m (jrecSeal m a) :=
  (onlyIn_fill m (a + 20) 4 _).putLE (by omega) (by omega)

theorem jtagSet_onlyIn (m : Bytes) (a target flags crc : Nat) : OnlyIn a 16 m (jtagSet m a target flags crc) :=
  ((((onlyIn_fill m a 8 _).mono (by omega) (by omega)).putLE (by omega) (by omega)).putLE (by omega) (by omega))

theorem putTags_onlyIn (a n : Nat) : ∀ (tx : Tx) (m : Bytes) (i : Nat),
    OnlyIn (tagAt a i) (16 * tx.length) m (putTags a n m i tx) := by
  intro tx
  induction tx with
  | nil => exact fun _ _ => ⟨fun _ _ => rfl⟩
  | cons w tx ih =>
    intro m i
    rw [putTags, length_cons]
    refine ((jtagSet_onlyIn ..).mono (le_refl _) (by omega)).trans ((ih _ (i + 1)).mono ?_ ?_)
    · unfold tagAt; omega
    · unfold tagAt; omega

/-- **The tags read back**, by induction: the later ones do not touch the first. -/
theorem putTags_tag (a n : Nat) : ∀ (tx : Tx) (m : Bytes) (i k : Nat) (w : Nat × Bytes),
    (∀ w ∈ tx, w.1 < 2 ^ 64) → tx[k]? = some w → leAt (putTags a n m i tx) (tagAt a (i + k)) 8 = w.1 ∧
      leAt (putTags a n m i tx) (tagAt a (i + k) + 12) 4 = flatfsCrc32 (bytesAt w.2 0 blockSize) := by
  intro tx
  induction tx with
  | nil => exact fun _ _ _ _ _ h => by cases h
  | cons v tx ih =>
    intro m i k w hlt hk
    rw [putTags]
    obtain ⟨hv, htx⟩ := forall_mem_cons.mp hlt
    cases k with
    | zero =>
      obtain rfl : v = w := by simpa using hk
      have hlater := putTags_onlyIn a n tx (jtagSet m (tagAt a i) v.1 (if i = n - 1 then jtagLast else 0)
        (flatfsCrc32 (bytesAt v.2 0 blockSize))) (i + 1)
      grind [hlater.leAt, tagAt, jtagSet, leAt_putLE_of_disjoint, leAt_putLE_self, flatfsCrc32_lt]
    | succ k => grind

theorem jrecSet_header (m : Bytes) (a seq : Nat) {type count : Nat} (ht : type < 2 ^ 32) (hc : count < 2 ^ 32) :
    leAt (jrecSet m a type seq count) a 4 = journalMagic ∧ leAt (jrecSet m a type seq count) (a + 4) 4 = type ∧
      leAt (jrecSet m a type seq count) (a + 16) 4 = count := by
  unfold jrecSet
  refine ⟨?_, ?_, leAt_putLE_self hc⟩
  · simp (disch := omega) only [leAt_putLE_of_disjoint]
    exact leAt_putLE_self (by decide)
  · simp (disch := omega) only [leAt_putLE_of_disjoint, leAt_putLE_self]

theorem writeDesc_onlyIn (a seq : Nat) (tx : Tx) (m : Bytes) :
    OnlyIn a (max 4096 (24 + 16 * tx.length)) m (writeDesc a seq tx m) := by
  unfold writeDesc
  refine ((((onlyIn_fill m a blockSize _).mono (le_refl _) ?_).trans ((jrecSet_onlyIn ..).mono (le_refl _) ?_)).trans
    ((putTags_onlyIn ..).mono ?_ ?_)).trans ((jrecSeal_onlyIn ..).mono ?_ ?_)
  · simp only [blockSize]; omega
  · omega
  · unfold tagAt; omega
  · unfold tagAt; omega
  · omega
  · omega

theorem writeDesc_header (tx : Tx) (a seq : Nat) (m : Bytes) (hlen : tx.length < 2 ^ 32) :
    leAt (writeDesc a seq tx m) a 4 = journalMagic ∧ leAt (writeDesc a seq tx m) (a + 4) 4 = jrecDescriptor ∧
      leAt (writeDesc a seq tx m) (a + 16) 4 = tx.length := by
  unfold writeDesc
  have hseal := jrecSeal_onlyIn (putTags a tx.length
    (jrecSet (fill m a blockSize zeroBytes) a jrecDescriptor seq tx.length) 0 tx) a
  have htags := putTags_onlyIn a tx.length tx
    (jrecSet (fill m a blockSize zeroBytes) a jrecDescriptor seq tx.length) 0
  rw [hseal.leAt (by omega), hseal.leAt (by omega), hseal.leAt (by omega), htags.leAt (by unfold tagAt; omega),
    htags.leAt (by unfold tagAt; omega), htags.leAt (by unfold tagAt; omega)]
  exact jrecSet_header _ a seq (by decide) hlen

theorem writeDesc_tag (a seq : Nat) (m : Bytes) (hlt : ∀ w ∈ tx, w.1 < 2 ^ 64) {i : Nat}
    (hw : tx[i]? = some w) : leAt (writeDesc a seq tx m) (tagAt a i) 8 = w.1 ∧
      leAt (writeDesc a seq tx m) (tagAt a i + 12) 4 = flatfsCrc32 (bytesAt w.2 0 blockSize) := by
  unfold writeDesc
  have hseal := jrecSeal_onlyIn (putTags a tx.length
    (jrecSet (fill m a blockSize zeroBytes) a jrecDescriptor seq tx.length) 0 tx) a
  rw [hseal.leAt (by unfold tagAt; omega), hseal.leAt (by unfold tagAt; omega)]
  have := putTags_tag a tx.length tx (jrecSet (fill m a blockSize zeroBytes) a jrecDescriptor seq tx.length) 0 i w hlt hw
  rwa [zero_add] at this

theorem writeCommit_onlyIn (a seq : Nat) (m : Bytes) : OnlyIn a 4096 m (writeCommit a seq m) :=
  ((onlyIn_fill m a blockSize _).trans ((jrecSet_onlyIn ..).mono (le_refl _) (by simp only [blockSize]; omega))).trans
    ((jrecSeal_onlyIn ..).mono (by omega) (by simp only [blockSize]; omega))

theorem writeCommit_header (a seq : Nat) (m : Bytes) :
    leAt (writeCommit a seq m) a 4 = journalMagic ∧ leAt (writeCommit a seq m) (a + 4) 4 = jrecCommit := by
  unfold writeCommit
  have hseal := jrecSeal_onlyIn (jrecSet (fill m a blockSize zeroBytes) a jrecCommit seq 0) a
  grind [hseal.leAt, jrecSet_header, jrecCommit]

theorem jsSeal_onlyIn (m : Bytes) (js : Nat) : OnlyIn (js + 4092) 4 m (jsSeal m js) :=
  (onlyIn_fill m (js + 4092) 4 _).putLE (by omega) (by omega)

theorem jsCommit_onlyIn (js tail id seq : Nat) (m : Bytes) : OnlyIn js 4096 m (jsCommit js tail id seq m) :=
  ((((onlyIn_fill m (js + 24) 8 _).mono (by omega) (by omega)).putLE (by omega) (by omega)).putLE (by omega)
    (by omega)).trans ((jsSeal_onlyIn ..).mono (by omega) (by omega))

theorem jsCommit_fields (js tail id seq : Nat) (m : Bytes) (ht : tail < 2 ^ 64) :
    leAt (jsCommit js tail id seq m) js 4 = leAt m js 4 ∧ jsHead (jsCommit js tail id seq m) js = jsHead m js ∧
      jsTail (jsCommit js tail id seq m) js = tail ∧
      jsLogStart (jsCommit js tail id seq m) js = jsLogStart m js ∧
      jsLogCount (jsCommit js tail id seq m) js = jsLogCount m js := by
  unfold jsCommit jsHead jsTail jsLogStart jsLogCount
  have hseal := jsSeal_onlyIn (putLE (putLE (putLE m (js + 24) 8 tail) (js + 48) 8 id) (js + 8) 8 seq) js
  grind [hseal.leAt, leAt_putLE_of_disjoint, leAt_putLE_self]

end Frames

/-! ## 5. The parts of a commit -/

section Parts

variable {g : JArea} {m m' m'' : Bytes} {p q : Nat} {tx : Tx}

theorem runWrites_append (ws vs : List (Bytes → Bytes)) (m : Bytes) :
    runWrites (ws ++ vs) m = runWrites vs (runWrites ws m) := foldl_append ..

/-- Only slots of the positions from `p` to `q` change. -/
structure OnlySlots (g : JArea) (p q : Nat) (m m' : Bytes) : Prop where
  same : ∀ x, (∀ r, p ≤ r → r < q → x < g.slot r ∨ g.slot r + 4096 ≤ x) → m' x = m x

theorem OnlySlots.refl (m : Bytes) : OnlySlots g p q m m := ⟨fun _ _ => rfl⟩

theorem OnlySlots.trans (h : OnlySlots g p q m m') (h' : OnlySlots g p q m' m'') : OnlySlots g p q m m'' :=
  ⟨fun x hx => (h'.same x hx).trans (h.same x hx)⟩

theorem OnlySlots.mono {p' q' : Nat} (h : OnlySlots g p' q' m m') (hp : p ≤ p') (hq : q' ≤ q) : OnlySlots g p q m m' :=
  ⟨fun x hx => h.same x fun r h1 h2 => hx r (by omega) (by omega)⟩

theorem OnlyIn.slot {r : Nat} (h : OnlyIn (g.slot r) 4096 m m') : OnlySlots g r (r + 1) m m' :=
  ⟨fun x hx => h.same x (hx r (le_refl _) (lt_succ_self _))⟩

theorem OnlySlots.sameSlot (h : OnlySlots g p q m m') {r : Nat} (hr : r < p ∨ q ≤ r) (h1 : q ≤ r + g.cnt)
    (h2 : r < p + g.cnt) : g.SameSlot m m' r := by
  intro x hx
  refine h.same _ fun r' hr1 hr2 => ?_
  simp only [blockSize] at hx
  rcases hr with hr | hr
  · have hlt : r < r' := by omega
    have := g.slot_ne hlt (by omega)
    omega
  · have hlt : r' < r := by omega
    have := g.slot_ne hlt (by omega)
    omega

theorem OnlySlots.elsewhere (h : OnlySlots g p q m m') {x : Nat}
    (hx : x < 4096 * (g.start + 2) ∨ 4096 * (g.start + 2 + g.cnt) ≤ x) : m' x = m x := by
  refine h.same x fun r _ _ => ?_
  have := g.slot_lt r
  omega

/-- **The data in the log**, by induction on the blocks still to do: the later ones have other
    slots. -/
theorem copies_spec : ∀ (tx : Tx) (s : Nat) (m : Bytes), s + tx.length ≤ 2 ^ 64 → tx.length ≤ g.cnt →
    OnlySlots g s (s + tx.length) m
        (runWrites (tx.mapIdx fun i w m => setBlock m (logBlk (g.start + 2) g.cnt (s + i)) w.2) m) ∧
      ∀ i w, tx[i]? = some w → bytesAt (runWrites (tx.mapIdx fun i w m =>
        setBlock m (logBlk (g.start + 2) g.cnt (s + i)) w.2) m) (g.slot (s + i)) blockSize = bytesAt w.2 0 blockSize := by
  intro tx
  induction tx with
  | nil => exact fun s m _ _ => ⟨.refl m, fun i w h => by cases h⟩
  | cons v tx ih =>
    intro s m hs hcnt
    rw [length_cons] at hs hcnt ⊢
    obtain ⟨m₁, hm₁⟩ : ∃ m₁, m₁ = setBlock m (logBlk (g.start + 2) g.cnt s) v.2 := ⟨_, rfl⟩
    have hrun : runWrites ((v :: tx).mapIdx fun i w m => setBlock m (logBlk (g.start + 2) g.cnt (s + i)) w.2) m =
        runWrites (tx.mapIdx fun i w m => setBlock m (logBlk (g.start + 2) g.cnt (s + 1 + i)) w.2) m₁ := by
      have hnext : (fun i (w : Nat × Bytes) m => setBlock m (logBlk (g.start + 2) g.cnt (s + (i + 1))) w.2) =
          fun i w m => setBlock m (logBlk (g.start + 2) g.cnt (s + 1 + i)) w.2 := by
        funext i w m
        rw [show s + (i + 1) = s + 1 + i by omega]
      rw [mapIdx_cons, hnext, hm₁]
      rfl
    have hfirst : OnlySlots g s (s + 1) m m₁ := by
      refine OnlyIn.slot ?_
      rw [hm₁, setBlock, g.ptr (by omega)]
      exact onlyIn_fill ..
    have hdata : bytesAt m₁ (g.slot s) blockSize = bytesAt v.2 0 blockSize := by
      rw [hm₁, ← g.ptr (r := s) (by omega)]
      exact blockOf_setBlock ..
    obtain ⟨h1, h2⟩ := ih (s + 1) m₁ (by omega) (by omega)
    rw [hrun]
    refine ⟨(hfirst.mono (Nat.le_refl _) (by omega)).trans (h1.mono (by omega) (by omega)), fun i w hi => ?_⟩
    cases i with
    | zero =>
      obtain rfl : v = w := by simpa using hi
      rw [show s + 0 = s from rfl, ← hdata]
      refine bytesAt_congr fun x hx hx' => ?_
      have := h1.sameSlot (r := s) (.inl (by omega)) (by omega) (by omega) (x - g.slot s) (by omega)
      rwa [Nat.add_sub_cancel' hx] at this
    | succ i => grind

/-- **The writes in place** leave the journal alone and the last write to every block. -/
theorem placeWrites_spec : ∀ (tx : Tx) (m : Bytes), (∀ w ∈ tx, g.Outside w.1) →
    Replayed g [] (tx.map blockWrite) m (runWrites (placeWrites tx) m) := by
  intro tx
  induction tx with
  | nil => exact fun m _ => Replayed.nil [] m
  | cons w tx ih =>
    intro m ht
    obtain ⟨hw, htx⟩ := forall_mem_cons.mp ht
    have hone : Replayed g [] [blockWrite w] m (setBlock m w.1 w.2) := by
      refine ⟨hw.kept m _, fun b hb => ?_⟩
      rw [if_neg (not_mem_nil)]
      by_cases hbw : b = w.1
      · grind [blockOf_setBlock, lastWrite, blockWrite]
      · grind [blockOf_setBlock_of_ne, hb.2, hw.2, lastWrite, blockWrite]
    exact hone.trans (ih _ htx)

/-- The superblock keeps the start of the journal if every block written over it has it too. -/
theorem placeWrites_start : ∀ (tx : Tx) (m : Bytes), (∀ w ∈ tx, g.Outside w.1) →
    (∀ w ∈ tx, w.1 = 0 → leAt w.2 64 8 = g.start) → journalStart m = g.start →
    journalStart (runWrites (placeWrites tx) m) = g.start := by
  intro tx
  induction tx with
  | nil => exact fun _ _ _ h => h
  | cons w tx ih =>
    intro m ht hz hm
    obtain ⟨hw, htx⟩ := forall_mem_cons.mp ht
    obtain ⟨hz, hztx⟩ := forall_mem_cons.mp hz
    refine ih (setBlock m w.1 w.2) htx hztx ?_
    by_cases h0 : w.1 = 0
    · rw [← hz h0, journalStart]
      refine leAt_congr fun x h1 h2 => ?_
      rw [h0, setBlock, show blkPtr 0 = 0 from rfl]
      exact fill_of_mem (zero_le x) (by simp only [blockSize]; omega)
    · rw [← hm, journalStart, journalStart]
      grind [leAt_congr, setBlock_of_not_mem, hw.2]

/-- **What a commit leaves in the log**: the records, the tags as far as they are in the descriptor's
    block, and the data. -/
structure Logged (g : JArea) (m : Bytes) (q : Nat) (tx : Tx) : Prop where
  heads : HeadsAt g m q tx.length
  tags : TagsAt g m q (tx.take 254)
  data : ∀ i w, tx[i]? = some w → bytesAt m (g.slot (q + 1 + i)) blockSize = bytesAt w.2 0 blockSize

theorem Logged.recAt (h : Logged g m q tx) (hshort : tx.length ≤ 254) : RecAt g m q tx := by
  have := h.tags
  rw [take_of_length_le hshort] at this
  exact ⟨this, h.heads⟩

theorem Logged.congr (h : Logged g m q tx) (hs : ∀ r, g.SameSlot m m' r) : Logged g m' q tx where
  heads := h.heads.congr (hs q) (hs _)
  tags := h.tags.congr fun r _ _ => hs r
  data := fun i w hw => by
    rw [← h.data i w hw]
    refine bytesAt_congr fun x h1 h2 => ?_
    have := hs (q + 1 + i) (x - g.slot (q + 1 + i)) (by omega)
    rwa [Nat.add_sub_cancel' h1] at this

/-- Tags beyond the block are written into the next one, which is the next slot if the descriptor is
    not in the last one. -/
theorem logWrites_spec (m : Bytes) (id : Nat) (hspill : tx.length ≤ 254 ∨ tx.length ≤ 256 ∧ q % g.cnt + 1 < g.cnt)
    (hcnt : tx.length + 2 ≤ g.cnt) (hq : q + tx.length + 2 < 2 ^ 64) (ht : ∀ w ∈ tx, g.Outside w.1) :
    OnlySlots g q (q + tx.length + 2) m (runWrites (logWrites (g.start + 2) g.cnt q id tx) m) ∧
      Logged g (runWrites (logWrites (g.start + 2) g.cnt q id tx) m) q tx := by
  generalize hm₁ : writeDesc (g.slot q) id tx m = m₁
  generalize hm₂ : runWrites (tx.mapIdx fun i w m =>
    setBlock m (logBlk (g.start + 2) g.cnt (q + 1 + i)) w.2) m₁ = m₂
  generalize hm₃ : writeCommit (g.slot (q + 1 + tx.length)) id m₂ = m₃
  have hrun : runWrites (logWrites (g.start + 2) g.cnt q id tx) m = m₃ := by
    rw [logWrites, g.ptr (by omega), g.ptr (by omega), runWrites_append, runWrites_append, ← hm₃, ← hm₂, ← hm₁]
    rfl
  have hw₁ : OnlyIn (g.slot q) (max 4096 (24 + 16 * tx.length)) m m₁ := hm₁ ▸ writeDesc_onlyIn ..
  have h1 : OnlySlots g q (q + 2) m m₁ := by
    refine ⟨fun x hx => hw₁.same x ?_⟩
    have hx0 := hx q (by omega) (by omega)
    rcases hspill with hs | ⟨hs, hnext⟩
    · omega
    · have hx1 := hx (q + 1) (by omega) (by omega)
      have hslot : g.slot (q + 1) = g.slot q + 4096 := by
        have : (q + 1) % g.cnt = q % g.cnt + 1 := by
          rw [Nat.add_mod, Nat.mod_eq_of_lt (a := 1) (by omega), Nat.mod_eq_of_lt hnext]
        simp only [JArea.slot, this, blockSize]
        omega
      omega
  obtain ⟨h2, hdata⟩ := copies_spec (g := g) tx (q + 1) m₁ (by omega) (by omega)
  rw [hm₂] at h2 hdata
  have h3 : OnlySlots g (q + 1 + tx.length) (q + 1 + tx.length + 1) m₂ m₃ := by
    refine OnlyIn.slot ?_
    rw [← hm₃]
    exact writeCommit_onlyIn ..
  -- the descriptor is not written again, and the data is only followed by the commit record
  have hdesc : g.SameSlot m₁ m₃ q := fun x hx =>
    (h3.sameSlot (.inl (by omega)) (by omega) (by omega) x hx).trans
      (h2.sameSlot (.inl (by omega)) (by omega) (by omega) x hx)
  have hlt : ∀ w ∈ tx, w.1 < 2 ^ 64 := fun w hw => by
    have := (ht w hw).2
    simp only [maxBlocks] at this
    omega
  have hcopy : ∀ i w, tx[i]? = some w → bytesAt m₃ (g.slot (q + 1 + i)) blockSize = bytesAt w.2 0 blockSize := by
    intro i w hw
    have hi := (List.getElem?_eq_some_iff.mp hw).1
    rw [← hdata i w hw]
    refine bytesAt_congr fun x hx hx' => ?_
    have := h3.sameSlot (r := q + 1 + i) (.inl (by omega)) (by omega) (by omega) (x - g.slot (q + 1 + i)) (by omega)
    rwa [Nat.add_sub_cancel' hx] at this
  obtain ⟨e1, e2, e3⟩ := writeDesc_header tx (g.slot q) id m (by omega)
  obtain ⟨c1, c2⟩ := writeCommit_header (g.slot (q + 1 + tx.length)) id m₂
  rw [hm₁] at e1 e2 e3
  rw [hm₃] at c1 c2
  have htake : ∀ i w, (tx.take 254)[i]? = some w → i < 254 ∧ tx[i]? = some w := by
    intro i w hw
    rw [List.getElem?_take] at hw
    split_ifs at hw with hi
    exact ⟨hi, hw⟩
  rw [hrun]
  refine ⟨((h1.mono (Nat.le_refl _) (by omega)).trans (h2.mono (by omega) (by omega))).trans (h3.mono (by omega) (by omega)),
    ⟨?_, (leAt_slot hdesc 4 4 (by omega)).trans e2, (leAt_slot hdesc 16 4 (by omega)).trans e3, c1, c2⟩,
    ⟨by simp, fun i w hw => ?_, fun i w hw => ?_⟩, hcopy⟩
  · rw [← e1]
    simpa only [Nat.add_zero] using leAt_slot hdesc 0 4 (by omega)
  · obtain ⟨hi, hw⟩ := htake i w hw
    have htag := writeDesc_tag (g.slot q) id m hlt hw
    rw [hm₁] at htag
    simp only [tagAt, Nat.add_assoc] at htag ⊢
    rw [leAt_slot hdesc _ _ (by omega), leAt_slot hdesc _ _ (by omega)]
    exact htag
  · exact hcopy i w (htake i w hw).2

end Parts

/-! ## 6. Commits -/

/-- The journal superblock says where the journal is. -/
structure JOk (g : JArea) (m : Bytes) : Prop where
  start : journalStart m = g.start
  magic : leAt m (4096 * g.start) 4 = journalMagic
  logStart : jsLogStart m (4096 * g.start) = g.start + 2
  logCount : jsLogCount m (4096 * g.start) = g.cnt

/-- **What a commit needs**: the descriptor has room for the tags, the ring for the record, positions do
    not wrap, and a superblock that is written keeps the start of the journal. -/
structure CommitFits (m : Bytes) (tx : Tx) : Prop where
  short : tx.length ≤ 254
  room : jsTail m (jsuper m) + tx.length + 2 ≤ jsHead m (jsuper m) + jsLogCount m (jsuper m)
  wrap : jsTail m (jsuper m) + tx.length + 2 < 2 ^ 64
  super : ∀ w ∈ tx, w.1 = 0 → leAt w.2 64 8 = journalStart m

section Commit

variable {g : JArea} {m m' : Bytes} {j : JState}

theorem JOk.jsuper (h : JOk g m) : jsuper m = 4096 * g.start := by
  have := g.fits
  rw [Journal.jsuper, h.start, blkPtr_eq (by omega)]

theorem leAt_js (h : ∀ x, 4096 * g.start ≤ x → x < 4096 * (g.start + 1) → m' x = m x) (off n : Nat) (hn : off + n ≤ 4096) :
    leAt m' (4096 * g.start + off) n = leAt m (4096 * g.start + off) n :=
  leAt_congr fun x h1 h2 => h x (by omega) (by omega)

/-- **A commit** appends the transaction to the log and writes its blocks in place; the rest of the ring
    and the other blocks stay. -/
theorem commit_spec (h : JOk g m) (ht : ∀ w ∈ j.tx, g.Outside w.1)
    (hspill : j.tx.length ≤ 254 ∨ j.tx.length ≤ 256 ∧ jsTail m (4096 * g.start) % g.cnt + 1 < g.cnt)
    (hring : jsTail m (4096 * g.start) + j.tx.length + 2 ≤ jsHead m (4096 * g.start) + g.cnt)
    (hwrap : jsTail m (4096 * g.start) + j.tx.length + 2 < 2 ^ 64) (hsuper : ∀ w ∈ j.tx, w.1 = 0 → leAt w.2 64 8 = g.start)
    (hroom : jsHead m (4096 * g.start) ≤ jsTail m (4096 * g.start)) :
    ∃ m', runWrites (commitWrites m j) m = m' ∧ JOk g m' ∧
      jsHead m' (4096 * g.start) = jsHead m (4096 * g.start) ∧
      jsTail m' (4096 * g.start) = jsTail m (4096 * g.start) + j.tx.length + 2 ∧
      Logged g m' (jsTail m (4096 * g.start)) j.tx ∧
      (∀ r, jsHead m (4096 * g.start) ≤ r → r < jsTail m (4096 * g.start) → g.SameSlot m m' r) ∧
      ∀ b, g.Outside b → blockOf m' b = (lastWrite (j.tx.map blockWrite) b).getD (blockOf m b) := by
  generalize hq : jsTail m (4096 * g.start) = q
  rw [hq] at hspill hring hwrap hroom
  generalize hm₁ : runWrites (logWrites (g.start + 2) g.cnt q j.txId j.tx) m = m₁
  generalize hm₂ : runWrites (placeWrites j.tx) m₁ = m₂
  generalize hm₃ : jsCommit (4096 * g.start) (q + j.tx.length + 2) j.txId j.txSeq m₂ = m₃
  generalize hm₄ : jsCopy (4096 * g.start) m₃ = m₄
  have hfits := g.fits
  have hfirst := g.first
  have hrun : runWrites (commitWrites m j) m = m₄ := by
    rw [commitWrites, h.jsuper, h.logStart, h.logCount, hq, u64_of_lt hwrap, runWrites_append, runWrites_append, hm₁,
      hm₂, ← hm₄, ← hm₃]
    simp only [runWrites, foldl_cons, foldl_nil]
  obtain ⟨hlog, hrec⟩ := logWrites_spec (g := g) (q := q) m j.txId hspill (by omega) hwrap ht
  rw [hm₁] at hlog hrec
  have hplace := placeWrites_spec (g := g) j.tx m₁ ht
  rw [hm₂] at hplace
  have hjs : OnlyIn (4096 * g.start) 4096 m₂ m₃ := hm₃ ▸ jsCommit_onlyIn ..
  have hstart₁ : journalStart m₁ = g.start := by
    rw [← h.start]
    exact leAt_congr fun x _ hx => hlog.elsewhere (by omega)
  have hstart₃ : journalStart m₃ = g.start := by
    rw [← placeWrites_start j.tx m₁ ht hsuper hstart₁, hm₂]
    exact leAt_congr fun x _ hx => hjs.same x (by omega)
  have hcopy : ∀ x, x < 4096 * (g.start + 1) ∨ 4096 * (g.start + 2) ≤ x → m₄ x = m₃ x := by
    intro x hx
    rw [← hm₄, jsCopy, hstart₃]
    exact setBlock_of_not_mem (by omega) (by omega)
  have hok₂ : ∀ x, 4096 * g.start ≤ x → x < 4096 * (g.start + 1) → m₂ x = m x := by
    intro x h1 h2
    rw [hplace.kept x (by simp only [blockSize]; omega) (by simp only [blockSize]; omega)]
    exact hlog.elsewhere (by omega)
  obtain ⟨f1, f2, f3, f4, f5⟩ := jsCommit_fields (4096 * g.start) (q + j.tx.length + 2) j.txId j.txSeq m₂ hwrap
  rw [hm₃] at f1 f2 f3 f4 f5
  have hlast : ∀ x, 4096 * g.start ≤ x → x < 4096 * (g.start + 1) → m₄ x = m₃ x := fun x _ hx => hcopy x (by omega)
  -- the slots of the ring, from the log part to the end
  have hslot : ∀ r, g.SameSlot m₁ m₄ r := by
    intro r x hx
    have hr := g.slot_lt r
    simp only [blockSize] at hx
    rw [hcopy _ (by omega), hjs.same _ (by omega)]
    exact hplace.kept.sameSlot r x (by simp only [blockSize]; omega)
  refine ⟨m₄, hrun, ⟨?_, ?_, ?_, ?_⟩, ?_, ?_, hrec.congr hslot, fun r h1 h2 x hx => ?_, fun b hb => ?_⟩
  · rw [← hstart₃]
    exact leAt_congr fun x _ hx => hcopy x (by omega)
  · rw [← h.magic]
    have e1 := leAt_js hlast 0 4 (by omega)
    have e2 := leAt_js hok₂ 0 4 (by omega)
    rw [add_zero] at e1 e2
    rw [e1, f1, e2]
  · exact ((leAt_js hlast 32 8 (by omega)).trans f4).trans ((leAt_js hok₂ 32 8 (by omega)).trans h.logStart)
  · exact ((leAt_js hlast 40 8 (by omega)).trans f5).trans ((leAt_js hok₂ 40 8 (by omega)).trans h.logCount)
  · exact ((leAt_js hlast 16 8 (by omega)).trans f2).trans (leAt_js hok₂ 16 8 (by omega))
  · exact (leAt_js hlast 24 8 (by omega)).trans f3
  · rw [hslot r x hx]
    exact hlog.sameSlot (.inl h2) (by omega) (by omega) x hx
  · have hend : blockOf m₄ b = blockOf m₂ b := blockOf_of_outside hb fun x hx => by
      rw [hcopy x (by omega), hjs.same x (by omega)]
    have hbegin : blockOf m₁ b = blockOf m b := blockOf_of_outside hb fun x hx => hlog.elsewhere (by omega)
    rw [hend, hplace.last b hb, if_neg not_mem_nil, hbegin]

end Commit

/-! ## 7. Runs -/

/-- The journal, and the transactions committed since the last checkpoint. -/
structure Journaled where
  sys : JSys
  done : List Tx

inductive JOp where
  | begin
  | log (id blk : Nat) (data : Bytes)
  /-- with the answer of `flatfs_tykid_seal_check` -/
  | commit (id : Nat) (sealErr : FlatfsErr)
  | abort (id : Nat)

variable {ok : Journaled → JOp → Prop}

def jStep (s : Journaled) : JOp → FlatfsErr × Journaled
  | .begin =>
    let r := flatfsJournalBegin s.sys.j
    (r.1, { s with sys := { s.sys with j := r.2 } })
  | .log id blk data =>
    let r := flatfsJournalLog s.sys.j id blk data
    (r.1, { s with sys := { s.sys with j := r.2 } })
  | .commit id sealErr =>
    let r := flatfsJournalCommit s.sys id sealErr
    (r.1, ⟨r.2, if r.1 = .ok then s.done ++ [s.sys.j.tx] else s.done⟩)
  | .abort id =>
    let r := flatfsJournalAbort s.sys.j id
    (r.1, { s with sys := { s.sys with j := r.2 } })

/-- Targets are blocks outside the journal. -/
def JOp.Given (g : JArea) : JOp → Prop
  | .log _ blk _ => g.Outside blk
  | _ => True

/-- **When a call keeps replay and history together**: a commit that is carried out fits. -/
def JOp.Fits (s : Journaled) : JOp → Prop
  | .commit id sealErr => s.sys.j.txActive = true → id = s.sys.j.txId → sealErr = .ok → CommitFits s.sys.mem s.sys.j.tx
  | _ => True

/-- The image at a checkpoint: the log is empty. -/
structure Checkpointed (g : JArea) (m : Bytes) : Prop where
  ok : JOk g m
  empty : jsHead m (4096 * g.start) = jsTail m (4096 * g.start)

/-- **Replay agrees with the history**: every block written has the contents of its last write, and no
    other block outside the journal changes. -/
def ReplayAgrees (g : JArea) (s : Journaled) : Prop :=
  ∀ fuel, 2 * s.done.length < fuel → ∃ s', flatfsJournalReplay fuel s.sys = some (.ok, s') ∧
    ∀ b, g.Outside b → blockOf s'.mem b = (lastWrite (writesOf s.done) b).getD (blockOf s.sys.mem b)

/-- The log holds the history, and the blocks in place are those of the history. -/
structure JInv (g : JArea) (s : Journaled) : Prop where
  ok : JOk g s.sys.mem
  log : LogAt g s.sys.mem (jsHead s.sys.mem (4096 * g.start)) s.done (jsTail s.sys.mem (4096 * g.start))
  targets : ∀ tx ∈ s.done, ∀ w ∈ tx, g.Outside w.1
  current : ∀ w ∈ s.sys.j.tx, g.Outside w.1
  place : ∀ b, g.Outside b → ∀ v, lastWrite (writesOf s.done) b = some v → blockOf s.sys.mem b = v

section Runs

variable {g : JArea} {s : Journaled}

theorem JInv.start {m : Bytes} (h : Checkpointed g m) {j : JState} (hj : j.tx = []) : JInv g ⟨⟨m, j⟩, []⟩ where
  ok := h.ok
  log := h.empty
  targets := fun _ htx => absurd htx not_mem_nil
  current := fun _ hw => absurd hw (by rw [hj]; exact not_mem_nil)
  place := fun _ _ _ hv => by cases hv

theorem writesOf_append (H : List Tx) (tx : Tx) :
    writesOf (H ++ [tx]) = writesOf H ++ tx.map blockWrite := by
  simp [writesOf]

theorem JOk.replay {m : Bytes} (h : JOk g m) (j : JState) (fuel : Nat) : flatfsJournalReplay fuel ⟨m, j⟩ =
    (replayLoop (g.start + 2) g.cnt (jsTail m (4096 * g.start)) fuel (jsHead m (4096 * g.start)) m j.revoke).map fun r =>
      (.ok, ⟨jsSeal (putLE r.2.1 (4096 * g.start + 16) 8 r.1) (4096 * g.start), { j with revoke := r.2.2 }⟩) := by
  rw [flatfsJournalReplay, h.jsuper, h.magic, if_neg (not_not.mpr rfl), h.logStart, h.logCount]

theorem blockOf_newStart (m : Bytes) (pos : Nat) (hb : g.Outside b) :
    blockOf (jsSeal (putLE m (4096 * g.start + 16) 8 pos) (4096 * g.start)) b = blockOf m b := by
  have hend : OnlyIn (4096 * g.start) 4096 m (jsSeal (putLE m (4096 * g.start + 16) 8 pos) (4096 * g.start)) :=
    ((onlyIn_fill m _ 8 _).mono (by omega) (by omega)).trans ((jsSeal_onlyIn ..).mono (by omega) (by omega))
  grind [blockOf_of_outside, hend.same]

/-- **The invariant gives agreement**: replay writes what is there already. -/
theorem JInv.agrees (h : JInv g s) : ReplayAgrees g s := by
  intro fuel hf
  have htail : jsTail s.sys.mem (4096 * g.start) < 2 ^ 64 := leAt_lt ..
  obtain ⟨m', hm', hrep⟩ := replayLoop_spec s.sys.j.revoke htail s.done h.log hf h.targets
  refine ⟨_, (h.ok.replay s.sys.j fuel).trans (congrArg _ hm'), fun b hb => ?_⟩
  rw [blockOf_newStart _ _ hb, hrep.last b hb]
  split_ifs with hrev
  · cases hv : lastWrite (writesOf s.done) b with
    | none => rw [Option.getD_none]
    | some v => grind [h.place]
  · rfl

theorem JInv.setJ (h : JInv g s) {j : JState} (hj : ∀ w ∈ j.tx, g.Outside w.1) :
    JInv g { s with sys := { s.sys with j := j } } where
  ok := h.ok
  log := h.log
  targets := h.targets
  current := hj
  place := h.place

theorem JInv.commit (h : JInv g s) (hf : CommitFits s.sys.mem s.sys.j.tx) :
    JInv g ⟨⟨runWrites (commitWrites s.sys.mem s.sys.j) s.sys.mem, { s.sys.j with txActive := false, tx := [] }⟩,
      s.done ++ [s.sys.j.tx]⟩ := by
  have hok := h.ok
  obtain ⟨hshort, hring, hwrap, hsuper⟩ := hf
  rw [hok.jsuper] at hring hwrap
  rw [hok.logCount] at hring
  rw [hok.start] at hsuper
  have hle := h.log.le
  obtain ⟨m', hm', hok', hhead, htail, hlogged, hslots, hblocks⟩ :=
    commit_spec hok h.current (.inl hshort) hring hwrap hsuper (by omega)
  rw [hm']
  refine ⟨hok', ?_, ?_, fun _ hw => absurd hw not_mem_nil, fun b hb v hv => ?_⟩
  · change LogAt g m' (jsHead m' _) (s.done ++ [s.sys.j.tx]) (jsTail m' _)
    rw [hhead, htail]
    exact (h.log.congr hslots).append (hlogged.recAt hshort)
  · intro tx htx
    rcases mem_append.mp htx with htx | htx
    · exact h.targets tx htx
    · rw [mem_singleton.mp htx]
      exact h.current
  · change blockOf m' b = v
    change lastWrite (writesOf (s.done ++ [s.sys.j.tx])) b = some v at hv
    rw [writesOf_append, lastWrite_append] at hv
    rw [hblocks b hb]
    cases hl : lastWrite (s.sys.j.tx.map blockWrite) b with
    | some u => grind
    | none => grind [h.place]

theorem jStep_keeps (h : JInv g s) {op : JOp} (hg : op.Given g) (hf : op.Fits s) : JInv g (jStep s op).2 := by
  cases op with
  | begin =>
    refine h.setJ ?_
    unfold flatfsJournalBegin
    split_ifs
    · exact h.current
    · exact fun _ hw => absurd hw not_mem_nil
  | log id blk data =>
    refine h.setJ ?_
    unfold flatfsJournalLog
    split_ifs
    · exact h.current
    · exact h.current
    · intro w hw
      rcases mem_append.mp hw with hw | hw
      · exact h.current w hw
      · rw [mem_singleton.mp hw]
        exact hg
  | abort id =>
    refine h.setJ ?_
    unfold flatfsJournalAbort
    split_ifs
    · exact h.current
    · exact fun _ hw => absurd hw not_mem_nil
  | commit id sealErr =>
    simp only [jStep, flatfsJournalCommit]
    by_cases hno : s.sys.j.txActive = false ∨ id ≠ s.sys.j.txId
    · rw [if_pos hno]
      exact h
    rw [if_neg hno]
    have hab : flatfsJournalAbort s.sys.j id = (.ok, { s.sys.j with txActive := false, tx := [] }) := if_neg hno
    rw [not_or, Bool.not_eq_false, not_not] at hno
    by_cases hs : sealErr = .ok
    · rw [if_neg (not_not.mpr hs)]
      exact h.commit (hf hno.1 hno.2 hs)
    · simp only [if_pos hs, if_neg hs, hab]
      grind [h.setJ]

theorem JInv.reached {m : Bytes} {j : JState} (hm : Checkpointed g m) (hj : j.tx = []) {h : Log JOp FlatfsErr}
    (hr : Reach (fun s op => op.Given g ∧ op.Fits s) jStep ⟨⟨m, j⟩, []⟩ h s) : JInv g s :=
  hr.invState (JInv.start hm hj) fun _ _ hI hi => jStep_keeps hI hi.1 hi.2

/-- **Replay agrees with the committed history in every run whose commits fit.** -/
theorem journal_replay_agrees {m : Bytes} {j : JState} (hm : Checkpointed g m) (hj : j.tx = [])
    {h : Log JOp FlatfsErr} (hr : Reach (fun s op => op.Given g ∧ op.Fits s) jStep ⟨⟨m, j⟩, []⟩ h s) :
    ReplayAgrees g s :=
  (JInv.reached hm hj hr).agrees

variable {s₀ : Journaled} {m : Bytes} {seq id : Nat} {rev : List Nat} {done : List Tx}

theorem Reach.logs (ws : Tx) (hok : ∀ w ∈ ws, ∀ s, ok s (.log id w.1 w.2)) :
    ∀ {h : Log JOp FlatfsErr} {t : Tx}, Reach ok jStep s₀ h ⟨⟨m, ⟨seq, id, true, t, rev⟩⟩, done⟩ →
    t.length + ws.length ≤ journalMaxTx → ∃ h', Reach ok jStep s₀ h' ⟨⟨m, ⟨seq, id, true, t ++ ws, rev⟩⟩, done⟩ := by
  induction ws with
  | nil =>
    intro h tx hr _
    rw [append_nil]
    exact ⟨h, hr⟩
  | cons w ws ih =>
    intro h tx hr hlen
    rw [length_cons] at hlen
    have hstep : jStep ⟨⟨m, ⟨seq, id, true, tx, rev⟩⟩, done⟩ (.log id w.1 w.2) =
        (.ok, ⟨⟨m, ⟨seq, id, true, tx ++ [w], rev⟩⟩, done⟩) := by
      simp [jStep, flatfsJournalLog, show ¬ journalMaxTx ≤ tx.length by omega]
    obtain ⟨hw, hws⟩ := forall_mem_cons.mp hok
    rw [append_cons]
    exact ih hws (hr.next (hw _) hstep) (by simp; omega)

theorem Reach.transaction {h : Log JOp FlatfsErr} {tx : Tx}
    (hr : Reach ok jStep s₀ h ⟨⟨m, ⟨seq, id, false, tx, rev⟩⟩, done⟩) (ws : Tx) (hlen : ws.length ≤ journalMaxTx)
    (hbegin : ∀ s, ok s .begin) (hlog : ∀ w ∈ ws, ∀ s, ok s (.log seq w.1 w.2)) {j : JState}
    (hj : j = ⟨u64 (seq + 1), seq, true, ws, rev⟩) (hcommit : ok ⟨⟨m, j⟩, done⟩ (.commit seq .ok)) :
    ∃ h', Reach ok jStep s₀ h' ⟨⟨runWrites (commitWrites m j) m, ⟨u64 (seq + 1), seq, false, [], rev⟩⟩, done ++ [ws]⟩ := by
  subst hj
  obtain ⟨h', hr'⟩ := Reach.logs (t := []) ws hlog (hr.next (hbegin _) rfl) (by simpa using hlen)
  exact ⟨_, hr'.next (o := .ok) hcommit (by simp [jStep, flatfsJournalCommit])⟩

end Runs

/-! ## 8. The tags of a transaction of 255 blocks -/

section Spill

variable {g : JArea} {m m' : Bytes} {q : Nat} {tx : Tx}

theorem replayTags_add (rev : List Nat) (base cnt a n : Nat) : ∀ (k i d : Nat) (m : Bytes),
    replayTags rev base cnt a (k + n) i d m = replayTags rev base cnt a n (i + k) (d + k) (replayTags rev base cnt a k i d m)
  | 0, _, _, _ => by rw [zero_add]; rfl
  | k + 1, i, d, m => by
    rw [succ_add, replayTags, replayTags_add rev base cnt a n k, replayTags, add_right_comm i, add_right_comm d]
    rfl

/-- **The last block is lost**: the checksum of tag 254 is looked for in the first block of data. -/
theorem replayTags_spilled (rev : List Nat) (h : Logged g m q tx) (hlen : tx.length = 255) (hq : q + 257 < 2 ^ 64)
    (hnext : g.slot (q + 1) = g.slot q + 4096) (ht : ∀ w ∈ tx, g.Outside w.1) {v : Nat × Bytes} (hv : tx[0]? = some v)
    (hw : tx[254]? = some w) (hcrc : flatfsCrc32 (bytesAt w.2 0 blockSize) ≠ leAt v.2 4 4) :
    Replayed g rev ((tx.take 254).map blockWrite) m
      (replayTags rev (g.start + 2) g.cnt (g.slot q) tx.length 0 (q + 1) m) := by
  have htake : (tx.take 254).length = 254 := by rw [length_take, hlen]; rfl
  have hfirst := replayTags_spec rev (by omega) (fun w hw => ht w (mem_of_mem_take hw)) (tx.take 254) [] m rfl h.tags
  rw [htake, length_nil, add_zero] at hfirst
  rw [hlen, replayTags_add rev _ _ _ 1 254]
  generalize hm₁ : replayTags rev (g.start + 2) g.cnt (g.slot q) 254 0 (q + 1) m = m₁
  rw [hm₁] at hfirst
  have hl := h.congr fun r => hfirst.kept.sameSlot r
  have hdata := hl.data 254 w hw
  have hcrc' : leAt m₁ (tagAt (g.slot q) 254 + 12) 4 = leAt v.2 4 4 := by
    refine leAt_shift fun i hi => ?_
    have hbyte : (bytesAt m₁ (g.slot (q + 1 + 0)) blockSize).getD (4 + i) 0 = (bytesAt v.2 0 blockSize).getD (4 + i) 0 :=
      congrArg (fun l => l.getD (4 + i) 0) (hl.data 0 v hv)
    rw [getD_bytesAt (by simp only [blockSize]; omega), getD_bytesAt (by simp only [blockSize]; omega), add_zero, hnext,
      zero_add] at hbyte
    rw [← hbyte]
    exact congrArg m₁ (by unfold tagAt; omega)
  rw [replayTags, replayTags, g.ptr (by omega), if_neg]
  · exact hfirst
  grind

end Spill

/-! ## 9. Two runs -/

/-- A journal of 1024 blocks from block 4 on. -/
def logArea : JArea := ⟨4, 1022, by decide, by decide, by decide⟩

/-- An image with that journal, and an empty log. -/
def logImage : Bytes :=
  putLE (putLE (putLE (putLE zeroBytes 64 8 4) 16384 4 journalMagic) (16384 + 32) 8 6) (16384 + 40) 8 1022

def idle : JState := ⟨1, 0, false, [], []⟩

/-- Blocks 2000 and 2001 are written, each with one byte over and over. -/
def blockFull (b : Nat) (x : UInt8) : Nat × Bytes := (b, fun _ => x)

theorem checkpointed_logImage : Checkpointed logArea logImage := ⟨⟨by decide, by decide, by decide, by decide⟩, by decide⟩

theorem outside_logArea (h1 : 1028 ≤ b) (h2 : b < 4096) : logArea.Outside b :=
  ⟨.inr h1, lt_trans h2 (by decide)⟩

/-- The state after a transaction of one block from the empty log on. -/
def loggedOnce : Journaled :=
  ⟨⟨runWrites (commitWrites logImage ⟨2, 1, true, [blockFull 2000 1], []⟩) logImage, ⟨2, 1, false, [], []⟩⟩,
    [[blockFull 2000 1]]⟩

theorem outside_once : ∀ w ∈ [blockFull 2000 1], logArea.Outside w.1 := by
  unfold JArea.Outside
  decide

theorem commitFits_logImage : CommitFits logImage [blockFull 2000 1] :=
  ⟨by decide, by decide, by decide, by decide⟩

theorem reach_loggedOnce (hany : ∀ s op, op.Given logArea ∧ op.Fits s → ok s op) :
    ∃ h, Reach ok jStep ⟨⟨logImage, idle⟩, []⟩ h loggedOnce :=
  Reach.transaction .start [blockFull 2000 1] (by decide) (fun _ => hany _ _ ⟨trivial, trivial⟩)
    (fun w hw _ => hany _ _ ⟨outside_once w hw, trivial⟩) rfl (hany _ _ ⟨trivial, fun _ _ _ => commitFits_logImage⟩)

/-- A second transaction writes block 2000 again. -/
theorem journal_replay_agrees_twice : ∃ s : Journaled,
    s.done = [[blockFull 2000 1], [blockFull 2001 2, blockFull 2000 3]] ∧ ReplayAgrees logArea s := by
  obtain ⟨h, hr⟩ := reach_loggedOnce fun _ _ => id
  have hout : ∀ w ∈ [blockFull 2001 2, blockFull 2000 3], logArea.Outside w.1 := by
    unfold JArea.Outside
    decide
  have hfits : CommitFits loggedOnce.sys.mem [blockFull 2001 2, blockFull 2000 3] :=
    ⟨by decide, by decide +kernel, by decide +kernel, by decide⟩
  obtain ⟨h', hr'⟩ := Reach.transaction hr _ (by decide) (fun _ => ⟨trivial, trivial⟩)
    (fun w hw _ => ⟨hout w hw, trivial⟩) rfl ⟨trivial, fun _ _ _ => hfits⟩
  exact ⟨_, rfl, journal_replay_agrees checkpointed_logImage rfl hr'⟩

/-- Block 2001 is written 254 times, and then block 2000 once. -/
def longTx : Tx := List.replicate 254 (blockFull 2001 0) ++ [blockFull 2000 0]

theorem length_longTx : longTx.length = 255 := by decide +kernel

theorem targets_longTx : ∀ w ∈ longTx, 2000 ≤ w.1 ∧ w.1 ≤ 2001 := by decide +kernel

theorem outside_longTx : ∀ w ∈ longTx, logArea.Outside w.1 := by
  intro w hw
  grind [targets_longTx, outside_logArea]

theorem lastWrite_longTx : lastWrite ((longTx.take 254).map blockWrite) 2000 = none := by decide +kernel

theorem lastWrite_one (b : Nat) (x : UInt8) :
    lastWrite ([blockFull b x].map blockWrite) b = some (bytesAt (blockFull b x).2 0 blockSize) := by
  simp [lastWrite, blockWrite, blockFull]

theorem crc_blockFull_zero (b : Nat) : flatfsCrc32 (bytesAt (blockFull b 0).2 0 blockSize) ≠ 0 := by
  have hz : bytesAt (blockFull b 0).2 0 blockSize = List.replicate 4096 0 := by
    refine eq_replicate_iff.2 ⟨length_bytesAt .., fun x hx => ?_⟩
    obtain ⟨k, -, rfl⟩ := mem_map.1 hx
    rfl
  rw [hz, flatfsCrc32_eq]
  decide +kernel

theorem lastWrite_history :
    lastWrite (writesOf [[blockFull 2000 1], longTx]) 2000 = some (bytesAt (blockFull 2000 0).2 0 blockSize) := by
  rw [show [[blockFull 2000 1], longTx] = [[blockFull 2000 1]] ++ [longTx] from rfl, writesOf_append, lastWrite_append,
    longTx, map_append, lastWrite_append, lastWrite_one, Option.some_or, Option.some_or]

/-- What the log is after the transaction of one block and the one of 255. -/
structure LongLog (m : Bytes) : Prop where
  ok : JOk logArea m
  head : jsHead m (4096 * logArea.start) = 0
  tail : jsTail m (4096 * logArea.start) = 260
  first : RecAt logArea m 0 [blockFull 2000 1]
  second : Logged logArea m 3 longTx

theorem longLog_reached : ∃ h m, LongLog m ∧ Reach (fun _ op => op.Given logArea) jStep ⟨⟨logImage, idle⟩, []⟩ h
    ⟨⟨m, ⟨3, 2, false, [], []⟩⟩, [[blockFull 2000 1], longTx]⟩ := by
  obtain ⟨_, hr⟩ := reach_loggedOnce fun _ _ => id
  have hinv := JInv.reached checkpointed_logImage rfl hr
  have hok₁ := hinv.ok
  have hlog := hinv.log
  have hhead₁ : jsHead loggedOnce.sys.mem (4096 * logArea.start) = 0 := by decide +kernel
  have htail₁ : jsTail loggedOnce.sys.mem (4096 * logArea.start) = 3 := by decide +kernel
  rw [hhead₁] at hlog
  obtain ⟨h₁, hr₁⟩ := @reach_loggedOnce (fun _ op => op.Given logArea) fun _ _ h => h.1
  unfold loggedOnce at hok₁ hlog hhead₁ htail₁ hr₁
  dsimp only at hok₁ hlog hhead₁ htail₁
  generalize runWrites _ _ = m₁ at hok₁ hlog hhead₁ htail₁ hr₁
  obtain ⟨j₂, hj₂⟩ : ∃ j₂ : JState, j₂ = ⟨3, 2, true, longTx, []⟩ := ⟨_, rfl⟩
  obtain ⟨h₂, hr₂⟩ := Reach.transaction hr₁ longTx (by rw [length_longTx]; decide) (fun _ => trivial)
    (fun w hw _ => outside_longTx w hw) (j := j₂) hj₂ trivial
  have htx₂ : j₂.tx = longTx := by rw [hj₂]
  obtain ⟨m₂, hm₂, hok₂, hhead₂, htail₂, hlogged₂, hslots₂, -⟩ :=
    commit_spec (j := j₂) hok₁ (by rw [htx₂]; exact outside_longTx)
      (.inr ⟨by rw [htx₂, length_longTx]; decide, by rw [htail₁]; decide⟩)
      (by rw [htx₂, hhead₁, htail₁, length_longTx]; decide) (by rw [htx₂, htail₁, length_longTx]; decide)
      (fun w hw h0 => by grind [targets_longTx]) (by rw [hhead₁]; exact zero_le _)
  rw [htx₂, htail₁, length_longTx] at htail₂
  rw [htx₂, htail₁] at hlogged₂
  rw [hhead₁] at hhead₂
  rw [hhead₁, htail₁] at hslots₂
  have hrec₁ : RecAt logArea m₂ 0 [blockFull 2000 1] :=
    hlog.1.congr fun r h1 h2 => hslots₂ r h1 h2
  subst hm₂
  exact ⟨h₂, _, ⟨hok₂, hhead₂, htail₂, hrec₁, hlogged₂⟩, hr₂⟩

theorem LongLog.replay {m : Bytes} (h : LongLog m) (j : JState) (hj : j.revoke = []) : ∃ s', flatfsJournalReplay 5 ⟨m, j⟩ =
    some (.ok, s') ∧ blockOf s'.mem 2000 = bytesAt (blockFull 2000 1).2 0 blockSize := by
  have hout : logArea.Outside 2000 := outside_logArea (by decide) (by decide)
  have htags₁ := replayTags_spec [] (by decide) outside_once [blockFull 2000 1] [] m rfl h.first.tags
  change Replayed logArea [] _ m (replayTags [] (logArea.start + 2) logArea.cnt (logArea.slot 0) 1 0 1 m) at htags₁
  generalize hm₁ : replayTags [] (logArea.start + 2) logArea.cnt (logArea.slot 0) 1 0 1 m = m₁
  rw [hm₁] at htags₁
  have hl : Logged logArea m₁ 3 longTx := h.second.congr fun r => htags₁.kept.sameSlot r
  have hnext : logArea.slot (3 + 1) = logArea.slot 3 + 4096 := by
    unfold JArea.slot
    decide
  have hcrc : flatfsCrc32 (bytesAt (blockFull 2000 0).2 0 blockSize) ≠ leAt (blockFull 2001 0).2 4 4 := by
    rw [show (blockFull 2001 0).2 = zeroBytes from rfl, leAt_zeroBytes]
    exact crc_blockFull_zero 2000
  have htags₂ := replayTags_spilled [] hl length_longTx (by decide) hnext outside_longTx rfl rfl hcrc
  generalize hm₂ : replayTags [] (logArea.start + 2) logArea.cnt (logArea.slot 3) 255 0 (3 + 1) m₁ = m₂
  have hheads := hl.heads
  rw [length_longTx] at htags₂ hheads
  have hlast₁ := htags₁.last 2000 hout
  have hlast₂ := htags₂.last 2000 hout
  rw [if_neg not_mem_nil] at hlast₁ hlast₂
  rw [lastWrite_longTx, Option.getD_none, hlast₁, hm₂] at hlast₂
  rw [← hm₁] at htags₁
  have hloop : replayLoop (logArea.start + 2) logArea.cnt 260 (1 + 1 + 1 + 1 + 1) 0 m [] = some (260, m₂, []) := by
    rw [replayLoop_record [] (by decide) (by decide) h.first.heads htags₁.kept]
    change replayLoop _ _ _ (1 + 1 + 1) 3 (replayTags [] (logArea.start + 2) logArea.cnt (logArea.slot 0) 1 0 1 m) [] = _
    rw [hm₁, replayLoop_record [] (by decide) (by decide) hheads htags₂.kept, hm₂, replayLoop, if_pos rfl]
  refine ⟨_, (h.ok.replay j 5).trans (by rw [h.head, h.tail, hj, hloop]; rfl), ?_⟩
  grind [blockOf_newStart, lastWrite_one]

/-- **Replay undoes a committed write**: two transactions, the second of 255 blocks, and replay leaves
    block 2000 as the first one wrote it. -/
theorem journal_replay_loses : ∃ h s, Reach (fun _ op => op.Given logArea) jStep ⟨⟨logImage, idle⟩, []⟩ h s ∧
    s.done = [[blockFull 2000 1], longTx] ∧ (∀ tx ∈ s.done, tx.length ≤ journalMaxTx) ∧ ¬ ReplayAgrees logArea s := by
  obtain ⟨h, m, hm, hr⟩ := longLog_reached
  refine ⟨h, _, hr, rfl, ?_, fun hag => ?_⟩
  · intro tx htx
    rcases mem_cons.mp htx with rfl | htx
    · decide
    · rw [mem_singleton.mp htx, length_longTx]
      decide
  obtain ⟨s₁, hs₁, hblk₁⟩ := hm.replay ⟨3, 2, false, [], []⟩ rfl
  obtain ⟨s₂, hs₂, hblk₂⟩ := hag 5 (show 2 * [[blockFull 2000 1], longTx].length < 5 from lt_succ_self 4)
  have he : s₂ = s₁ := congrArg Prod.snd (Option.some.inj (hs₂.symm.trans hs₁))
  have hlast := hblk₂ 2000 (outside_logArea (by decide) (by decide))
  rw [he, hblk₁, lastWrite_history, Option.getD_some] at hlast
  have hbyte := congrArg (fun l => l.getD 0 0) hlast
  rw [getD_bytesAt (by decide), getD_bytesAt (by decide)] at hbyte
  exact absurd hbyte (by decide)

end Kobalt.Flatfs.Journal

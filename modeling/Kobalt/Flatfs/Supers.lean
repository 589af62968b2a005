/-
  Subject: THE TWO SUPERBLOCKS BYTE BY BYTE (`flatfs_super.c`, `flatfs_tykid.c`): block 0 of the
  image, which is the live superblock, and the copy of it in block 1.

  The checksum is in the last four bytes and covers the block with these four bytes zero; the MAC is in
  the eight bytes before and covers all that is in front of it. A write seals the block with the
  checksum, the MAC and the checksum again, and copies it.
-/
import Kobalt.Flatfs.Replay

namespace Kobalt.Flatfs.Disk

open Journal Nat

/-! ## 1. The code -/

/-- `flatfs_super_validate` of the block at `a`; it puts the checksum back. -/
def flatfsSuperValidate (m : Bytes) (a : Nat) : FlatfsErr :=
  if leAt m a 4 ≠ flatfsMagic then .magic
  else if leAt m (a + 4) 4 ≠ flatfsVersion then .corrupt
  else if leAt m (a + 160) 4 ≠ blockSize then .corrupt
  else if leAt m (a + 164) 4 ≠ inodeSize then .corrupt
  else if leAt m (a + 24) 8 > maxBlocks then .bounds
  else if flatfsCrc32 (bytesAt (putLE m (a + 4092) 4 0) a blockSize) = leAt m (a + 4092) 4 then .ok else .crc

/-- `flatfs_super_update_crc`: the stores are those of the journal superblock. -/
def flatfsSuperUpdateCrc (m : Bytes) (a : Nat) : Bytes := jsSeal m a

section Keyed

-- the keyed hash of the session, while TYKID is bound
variable (mac : Mac) (m : Bytes)

/-- `flatfs_tykid_mac_set` of the `sz` bytes at `a`. -/
def flatfsTykidMacSet (a sz : Nat) : Bytes :=
  match mac with
  | none => m
  | some f => if sz < 12 then m else putLE m (a + (sz - 12)) 8 (f (bytesAt m a (sz - 12))).toNat

/-- `flatfs_tykid_mac_ok`: a MAC of zero is accepted. -/
def flatfsTykidMacOk (a sz : Nat) : Bool :=
  match mac with
  | none => true
  | some f =>
    sz < 12 || leAt m (a + (sz - 12)) 8 == 0 ||
      leAt m (a + (sz - 12)) 8 == (f (bytesAt m a (sz - 12))).toNat

/-- `flatfs_super_read`: the status, and the image it leaves. The MAC that is tested is the one of the
    block that was valid. -/
def flatfsSuperRead (cap : Nat) : FlatfsErr × Bytes :=
  if cap < blockSize * 4 then (.inval, m)
  else if flatfsSuperValidate m 0 = .ok then
    if flatfsTykidMacOk mac m 0 blockSize then (.ok, m) else (.crc, m)
  else if flatfsSuperValidate m blockSize = .ok then
    let m := flatfsSuperUpdateCrc (putLE (fill m 0 blockSize fun i => m (blockSize + i)) 4092 4 0) 0
    if flatfsTykidMacOk mac m blockSize blockSize then (.ok, m) else (.crc, m)
  else (flatfsSuperValidate m blockSize, m)

/-- `flatfs_super_write` of the live superblock. -/
def superSeal : Bytes :=
  flatfsSuperUpdateCrc (flatfsTykidMacSet mac (flatfsSuperUpdateCrc m 0) 0 blockSize) 0

/-- `FMEMCPY(g_fs.buf + FLATFS_BLOCK_SIZE, sb, sizeof(*sb))` -/
def superCopy : Bytes := fill m blockSize blockSize m

def flatfsSuperWrite : Bytes := superCopy (superSeal mac m)

/-! ## 2. Valid superblocks -/

/-- The fields that are tested before the checksum. -/
structure HeaderOk (m : Bytes) (a : Nat) : Prop where
  magic : leAt m a 4 = flatfsMagic
  version : leAt m (a + 4) 4 = flatfsVersion
  block : leAt m (a + 160) 4 = blockSize
  inode : leAt m (a + 164) 4 = inodeSize
  total : leAt m (a + 24) 8 ≤ maxBlocks

/-- **A superblock that a reader accepts.** -/
structure SuperOk (m : Bytes) (a : Nat) : Prop where
  header : HeaderOk m a
  crc : flatfsCrc32 (bytesAt (putLE m (a + 4092) 4 0) a blockSize) = leAt m (a + 4092) 4
  mac : flatfsTykidMacOk mac m a blockSize = true

variable {mac m} {m' : Bytes} {a b : Nat}

theorem HeaderOk.validate (h : HeaderOk m a) (hc : flatfsCrc32 (bytesAt (putLE m (a + 4092) 4 0) a blockSize) =
    leAt m (a + 4092) 4) : flatfsSuperValidate m a = .ok := by
  unfold flatfsSuperValidate
  rw [if_neg (not_not.2 h.magic), if_neg (not_not.2 h.version), if_neg (not_not.2 h.block),
    if_neg (not_not.2 h.inode), if_neg (not_lt.2 h.total), if_pos hc]

theorem SuperOk.validate (h : SuperOk mac m a) : flatfsSuperValidate m a = .ok := h.header.validate h.crc

/-- The same bytes, here and there. -/
def SameBlock (m m' : Bytes) (a b : Nat) : Prop := ∀ i < blockSize, m' (b + i) = m (a + i)

theorem SameBlock.leAt (h : SameBlock m m' a b) (off n : Nat) (hn : off + n ≤ 4096) :
    leAt m' (b + off) n = leAt m (a + off) n := by
  refine leAt_shift fun i hi => ?_
  rw [add_assoc, add_assoc]
  exact h _ (by simp only [blockSize]; omega)

theorem SameBlock.bytesAt (h : SameBlock m m' a b) {n : Nat} (hn : n ≤ blockSize) :
    bytesAt m' b n = bytesAt m a n := by
  unfold Flatfs.bytesAt
  refine List.map_congr_left fun i hi => h i ?_
  exact (List.mem_range.1 hi).trans_le hn

theorem SameBlock.putLE (h : SameBlock m m' a b) (off n v : Nat) :
    SameBlock (putLE m (a + off) n v) (putLE m' (b + off) n v) a b := by
  intro i hi
  unfold Kobalt.putLE fill
  by_cases hx : off ≤ i ∧ i < off + n
  · grind
  · rw [if_neg (by omega), if_neg (by omega)]
    exact h i hi

theorem SuperOk.congr (h : SuperOk mac m a) (hs : SameBlock m m' a b) : SuperOk mac m' b := by
  refine ⟨⟨?_, ?_, ?_, ?_, ?_⟩, ?_, ?_⟩
  · have := hs.leAt 0 4 (by omega)
    rw [add_zero, add_zero] at this
    rw [this]
    exact h.header.magic
  · rw [hs.leAt 4 4 (by omega)]
    exact h.header.version
  · rw [hs.leAt 160 4 (by omega)]
    exact h.header.block
  · rw [hs.leAt 164 4 (by omega)]
    exact h.header.inode
  · rw [hs.leAt 24 8 (by omega)]
    exact h.header.total
  · rw [hs.leAt 4092 4 (by omega), (hs.putLE 4092 4 0).bytesAt le_rfl]
    exact h.crc
  · have hm := h.mac
    unfold flatfsTykidMacOk at hm ⊢
    grind [hs.leAt, blockSize, hs.bytesAt]

theorem updateCrc_crc (m : Bytes) (a : Nat) :
    flatfsCrc32 (bytesAt (putLE (flatfsSuperUpdateCrc m a) (a + 4092) 4 0) a blockSize) =
      leAt (flatfsSuperUpdateCrc m a) (a + 4092) 4 := by
  unfold flatfsSuperUpdateCrc jsSeal
  rw [leAt_putLE_self (flatfsCrc32_lt _), putLE_idem, putLE_idem]

theorem updateCrc_onlyIn (m : Bytes) (a : Nat) : OnlyIn (a + 4092) 4 m (flatfsSuperUpdateCrc m a) :=
  jsSeal_onlyIn m a

theorem macSet_onlyIn (m : Bytes) (a : Nat) : OnlyIn (a + 4084) 8 m (flatfsTykidMacSet mac m a blockSize) := by
  unfold flatfsTykidMacSet
  cases mac with
  | none => exact ⟨fun _ _ => rfl⟩
  | some f => exact onlyIn_fill m (a + 4084) 8 _

theorem macOk_macSet (h : OnlyIn (a + 4092) 4 (flatfsTykidMacSet mac m a blockSize) m') :
    flatfsTykidMacOk mac m' a blockSize = true := by
  have hset : OnlyIn (a + 4084) 8 m (flatfsTykidMacSet mac m a blockSize) := macSet_onlyIn m a
  cases mac with
  | none => rfl
  | some f =>
    have hb : bytesAt m' a (blockSize - 12) = bytesAt m a (blockSize - 12) :=
      bytesAt_congr fun x h1 h2 => by grind [blockSize, h.same, hset.same]
    have hm : leAt m' (a + (blockSize - 12)) 8 = (f (bytesAt m a (blockSize - 12))).toNat := by
      rw [h.leAt (.inl (by simp only [blockSize]; omega))]
      exact leAt_putLE_self (UInt64.toNat_lt _)
    unfold flatfsTykidMacOk
    grind

theorem HeaderOk.congr (h : HeaderOk m a) (hs : ∀ x, a ≤ x → x < a + 168 → m' x = m x) : HeaderOk m' a := by
  have hle : ∀ off n, off + n ≤ 168 → leAt m' (a + off) n = leAt m (a + off) n := fun off n hn =>
    leAt_congr fun x h1 h2 => hs x (by omega) (by omega)
  refine ⟨?_, ?_, ?_, ?_, ?_⟩
  · have := hle 0 4 (by omega)
    rw [add_zero] at this
    rw [this]
    exact h.magic
  · rw [hle 4 4 (by omega)]
    exact h.version
  · rw [hle 160 4 (by omega)]
    exact h.block
  · rw [hle 164 4 (by omega)]
    exact h.inode
  · rw [hle 24 8 (by omega)]
    exact h.total

theorem superSeal_onlyIn (m : Bytes) : OnlyIn 4084 12 m (superSeal mac m) := by
  have h1 := (updateCrc_onlyIn m 0).mono (a := 4084) (n := 12) (by omega) (by omega)
  have hmac : OnlyIn (0 + 4084) 8 _ (flatfsTykidMacSet mac (flatfsSuperUpdateCrc m 0) 0 blockSize) := macSet_onlyIn _ 0
  have h2 := hmac.mono (a := 4084) (n := 12) (by omega) (by omega)
  exact (h1.trans h2).trans ((updateCrc_onlyIn _ 0).mono (by omega) (by omega))

theorem superSeal_ok (h : HeaderOk m 0) : SuperOk mac (superSeal mac m) 0 := by
  refine ⟨h.congr fun x _ hx => (superSeal_onlyIn m).same x (by omega), updateCrc_crc _ 0, ?_⟩
  exact macOk_macSet (updateCrc_onlyIn _ 0)

theorem superCopy_onlyIn (m : Bytes) : OnlyIn 4096 4096 m (superCopy m) := onlyIn_fill ..

theorem superCopy_same (m : Bytes) : SameBlock (superCopy m) (superCopy m) 0 blockSize := by
  intro i hi
  rw [superCopy, fill_add hi, zero_add, fill_of_not_mem (.inl hi)]

/-- **A write** leaves both superblocks valid and equal, and the fields of the live one as they were. -/
theorem superWrite_ok (h : HeaderOk m 0) : SuperOk mac (flatfsSuperWrite mac m) 0 ∧
    SuperOk mac (flatfsSuperWrite mac m) blockSize ∧
    SameBlock (flatfsSuperWrite mac m) (flatfsSuperWrite mac m) 0 blockSize ∧
    ∀ x < 4084, flatfsSuperWrite mac m x = m x := by
  have h0 : SuperOk mac (flatfsSuperWrite mac m) 0 := (superSeal_ok h).congr fun i hi => by
    rw [zero_add]
    exact (superCopy_onlyIn _).same i (.inl hi)
  refine ⟨h0, h0.congr (superCopy_same _), superCopy_same _, fun x hx => ?_⟩
  rw [flatfsSuperWrite, (superCopy_onlyIn _).same x (by omega),
    (superSeal_onlyIn m).same x (by omega)]

/-! ## 3. Redundancy -/

theorem superRead_of_ok (h : SuperOk mac m 0) {cap : Nat} (hcap : blockSize * 4 ≤ cap) :
    flatfsSuperRead mac m cap = (.ok, m) := by
  rw [flatfsSuperRead, if_neg (not_lt.2 hcap), if_pos h.validate, if_pos h.mac]

/-- Block 1 is copied over block 0. -/
def restored (m : Bytes) : Bytes := fill m 0 blockSize fun i => m (blockSize + i)

theorem restored_same (m : Bytes) : SameBlock m (restored m) blockSize 0 := fun _ hi => fill_add hi

theorem restored_onlyIn (m : Bytes) : OnlyIn 0 blockSize m (restored m) := onlyIn_fill ..

theorem updateCrc_restored (h : flatfsCrc32 (bytesAt (putLE m (blockSize + 4092) 4 0) blockSize blockSize) =
    leAt m (blockSize + 4092) 4) : flatfsSuperUpdateCrc (putLE (restored m) 4092 4 0) 0 = restored m := by
  have hcrc : flatfsCrc32 (bytesAt (putLE (restored m) (0 + 4092) 4 0) 0 blockSize) = leAt (restored m) (0 + 4092) 4 := by
    rw [((restored_same m).putLE 4092 4 0).bytesAt le_rfl, (restored_same m).leAt 4092 4 (by omega)]
    exact h
  unfold flatfsSuperUpdateCrc jsSeal
  rw [zero_add] at hcrc ⊢
  grind [putLE_idem, putLE_leAt]

theorem macOk_restored (m : Bytes) :
    flatfsTykidMacOk mac (restored m) blockSize blockSize = flatfsTykidMacOk mac m blockSize blockSize := by
  have hb : SameBlock m (restored m) blockSize blockSize := fun i _ => (restored_onlyIn m).same _ (.inr (by omega))
  unfold flatfsTykidMacOk
  cases mac with
  | none => rfl
  | some f =>
    dsimp only
    rw [hb.leAt (blockSize - 12) 8 (by decide), hb.bytesAt (by decide)]

/-- **The fallback**: the backup is copied over the damaged superblock. -/
theorem superRead_of_backup (h : SuperOk mac m blockSize) (hbad : flatfsSuperValidate m 0 ≠ .ok) {cap : Nat}
    (hcap : blockSize * 4 ≤ cap) : flatfsSuperRead mac m cap = (.ok, restored m) := by
  unfold flatfsSuperRead
  rw [if_neg (not_lt.2 hcap), if_neg hbad, if_pos h.validate, ← restored]
  dsimp only
  rw [updateCrc_restored h.crc, macOk_restored, if_pos h.mac]

theorem validate_ok (h : flatfsSuperValidate m a = .ok) : HeaderOk m a ∧
    flatfsCrc32 (bytesAt (putLE m (a + 4092) 4 0) a blockSize) = leAt m (a + 4092) 4 := by
  unfold flatfsSuperValidate at h
  split_ifs at h with h1 h2 h3 h4 h5 h6
  exact ⟨⟨not_not.1 h1, not_not.1 h2, not_not.1 h3, not_not.1 h4, not_lt.1 h5⟩, h6⟩

theorem superRead_ok {cap : Nat} (h : flatfsSuperRead mac m cap = (.ok, m')) : SuperOk mac m' 0 := by
  unfold flatfsSuperRead at h
  split_ifs at h with hcap h0 hmac h1
  · cases (Prod.mk.inj h).1
  · obtain rfl := (Prod.mk.inj h).2
    exact ⟨(validate_ok h0).1, (validate_ok h0).2, hmac⟩
  · cases (Prod.mk.inj h).1
  · rw [← restored] at h
    dsimp only at h
    rw [updateCrc_restored (validate_ok h1).2, macOk_restored] at h
    have hmac : flatfsTykidMacOk mac m blockSize blockSize = true := by
      by_contra hno
      rw [if_neg hno] at h
      cases (Prod.mk.inj h).1
    rw [if_pos hmac] at h
    obtain rfl := (Prod.mk.inj h).2
    have hb : SuperOk mac m blockSize := ⟨(validate_ok h1).1, (validate_ok h1).2, hmac⟩
    exact hb.congr (restored_same m)
  · exact absurd (Prod.mk.inj h).1 h1

/-- **Redundancy.** A superblock with a valid header is written; then at most one of the two blocks is damaged,
    and the damage is seen. The reader gives back the superblock that was written, byte for byte, and leaves it
    valid in block 0. -/
theorem super_copies_redundant (mac : Mac) (m d : Bytes) (cap : Nat)
    (hm : HeaderOk m 0) (hcap : blockSize * 4 ≤ cap) (hd : OnlyIn 0 blockSize (flatfsSuperWrite mac m) d ∧
        (flatfsSuperValidate d 0 ≠ .ok ∨ d = flatfsSuperWrite mac m) ∨
      OnlyIn blockSize blockSize (flatfsSuperWrite mac m) d) :
    ∃ r, flatfsSuperRead mac d cap = (.ok, r) ∧ (∀ x < 4084, r x = m x) ∧
      (∀ x < blockSize, r x = flatfsSuperWrite mac m x) ∧ flatfsSuperValidate r 0 = .ok := by
  obtain ⟨h0, h1, hsame, hfields⟩ : SuperOk mac (flatfsSuperWrite mac m) 0 ∧ _ := superWrite_ok hm
  -- it is enough to read a block 0 like the one written
  suffices hr : ∃ r, flatfsSuperRead mac d cap = (.ok, r) ∧ ∀ x < blockSize, r x = flatfsSuperWrite mac m x by
    obtain ⟨r, he, hx⟩ := hr
    refine ⟨r, he, fun x hlt => ?_, hx, ?_⟩
    · rw [hx x (by simp only [blockSize]; omega), hfields x hlt]
    · have hok : SuperOk mac r 0 := h0.congr fun i hi => by
        rw [zero_add]
        exact hx i hi
      exact hok.validate
  have hread0 : OnlyIn blockSize blockSize (flatfsSuperWrite mac m) d →
      ∃ r, flatfsSuperRead mac d cap = (.ok, r) ∧ ∀ x < blockSize, r x = flatfsSuperWrite mac m x := by
    intro ho
    refine ⟨d, superRead_of_ok (h0.congr fun i hi => ?_) hcap, fun x hx => ho.same x (.inl hx)⟩
    rw [zero_add]
    exact ho.same i (.inl hi)
  rcases hd with ⟨ho, hbad | rfl⟩ | ho
  · have hb : SuperOk mac d blockSize := h1.congr fun i _ => ho.same _ (.inr (by omega))
    refine ⟨restored d, superRead_of_backup hb hbad hcap, fun x hx => ?_⟩
    have := restored_same d x hx
    rw [zero_add] at this
    rw [this, ho.same _ (.inr (by omega)), hsame x hx, zero_add]
  · exact hread0 ⟨fun _ _ => rfl⟩
  · exact hread0 ho

end Keyed

/-- A block with a valid header and nothing else. -/
def plainHeader : Bytes :=
  putLE (putLE (putLE (putLE zeroBytes 0 4 flatfsMagic) 4 4 flatfsVersion) 160 4 blockSize) 164 4 inodeSize

theorem plainHeader_ok : HeaderOk plainHeader 0 := by
  refine ⟨?_, ?_, ?_, ?_, ?_⟩
  · decide
  · decide
  · decide
  · decide
  · decide

theorem super_copies_redundant_first : ∃ d r : Bytes,
    OnlyIn 0 blockSize (flatfsSuperWrite none plainHeader) d ∧ flatfsSuperValidate d 0 ≠ .ok ∧
      flatfsSuperRead none d (blockSize * 4) = (.ok, r) ∧ (∀ x < 4084, r x = plainHeader x) ∧
      flatfsSuperValidate r 0 = .ok := by
  generalize hd : (fill (flatfsSuperWrite none plainHeader) 0 1 fun _ => 0) = d
  have honly : OnlyIn 0 blockSize (flatfsSuperWrite none plainHeader) d := by
    rw [← hd]
    exact (onlyIn_fill _ 0 1 _).mono le_rfl (by decide)
  have hbad : flatfsSuperValidate d 0 ≠ .ok := by
    have hb : d 0 = 0 := by rw [← hd]; rfl
    have hm : leAt d 0 4 ≠ flatfsMagic := by
      rw [leAt, hb]
      unfold flatfsMagic
      rw [show (0 : UInt8).toNat = 0 from rfl]
      omega
    rw [flatfsSuperValidate, if_pos hm]
    decide
  obtain ⟨r, he, hfields, -, hv⟩ := super_copies_redundant none plainHeader d (blockSize * 4) plainHeader_ok le_rfl
    (.inl ⟨honly, .inl hbad⟩)
  exact ⟨d, r, honly, hbad, he, hfields, hv⟩

end Kobalt.Flatfs.Disk

/-
  Subject: The CRC-32 of FlatFS (`flatfs_crc.c`) and the seal of a data block: the trailer
  `flatfs_block_crc_set` writes and `flatfs_block_crc_ok` tests.
-/
import Kobalt.Lib.Bytes

namespace Kobalt.Flatfs

/-- One of the eight steps of `flatfs_crc32_init_table` (`FLATFS_CRC32_POLY`). -/
def crcStep (c : UInt32) : UInt32 :=
  if c &&& 1 = 1 then (0xEDB88320 : UInt32) ^^^ (c >>> 1) else c >>> 1

/-- An entry of `crc_tab`. -/
def crcTab (i : UInt32) : UInt32 :=
  crcStep (crcStep (crcStep (crcStep (crcStep (crcStep (crcStep (crcStep i)))))))

/-- The loop body of `flatfs_crc32_update`: one byte. -/
def crcByte (crc : UInt32) (b : UInt8) : UInt32 :=
  crcTab ((crc ^^^ b.toUInt32) &&& 0xFF) ^^^ (crc >>> 8)

def flatfsCrc32Update (crc : UInt32) (data : Text) : UInt32 :=
  data.foldl crcByte (crc ^^^ 0xFFFFFFFF) ^^^ 0xFFFFFFFF

/-- `flatfs_crc32` (and `flatfs_crc32_internal`). -/
def flatfsCrc32 (data : Text) : Nat := (flatfsCrc32Update 0 data).toNat

/-- The `n` bytes from address `a` on, as the argument of a checksum. -/
def bytesAt (m : Bytes) (a n : Nat) : Text := (List.range n).map fun i => m (a + i)

theorem bytesAt_congr {m m' : Bytes} {a n : Nat} (h : ∀ x, a ≤ x → x < a + n → m x = m' x) :
    bytesAt m a n = bytesAt m' a n := by
  refine List.map_congr_left fun i hi => ?_
  grind

@[simp] theorem length_bytesAt (m : Bytes) (a n : Nat) : (bytesAt m a n).length = n := by
  simp [bytesAt]

theorem bytesAt_add (m : Bytes) (a n k : Nat) : bytesAt m a (n + k) = bytesAt m a n ++ bytesAt m (a + n) k := by
  unfold bytesAt
  rw [List.range_add, List.map_append, List.map_map]
  congr 1
  grind [List.map_congr_left]

theorem getD_bytesAt {m : Bytes} {a n j : Nat} (h : j < n) : (bytesAt m a n).getD j 0 = m (a + j) := by
  simp [bytesAt, h]

theorem flatfsCrc32_lt (data : Text) : flatfsCrc32 data < 2 ^ 32 :=
  (flatfsCrc32Update 0 data).toNat_lt

/-- `crcStep` on numbers. -/
def natStep (c : Nat) : Nat := if c % 2 = 1 then 0xEDB88320 ^^^ (c / 2) else c / 2

/-- `crcByte` on numbers. -/
def natByte (c : Nat) (b : UInt8) : Nat :=
  natStep (natStep (natStep (natStep (natStep (natStep (natStep (natStep ((c ^^^ b.toNat) % 256)))))))) ^^^
    (c / 256)

/-- The register after some bytes. The test makes an evaluation compute `c` in every round. -/
def natBytes : Text → Nat → Nat
  | [], c => c
  | b :: l, c => if c = 0 then natBytes l (natByte c b) else natBytes l (natByte c b)

theorem crcStep_toNat (c : UInt32) : (crcStep c).toNat = natStep c.toNat := by
  have hone : (c &&& 1 = 1) ↔ c.toNat % 2 = 1 := by
    rw [← UInt32.toNat_inj, UInt32.toNat_and]
    show c.toNat &&& 1 = 1 ↔ _
    rw [Nat.and_one_is_mod]
  grind [UInt32.toNat_shiftRight, Nat.shiftRight_eq_div_pow, crcStep, natStep, UInt32.toNat_xor]

theorem crcByte_toNat (c : UInt32) (b : UInt8) : (crcByte c b).toNat = natByte c.toNat b := by
  have hmask : ((c ^^^ b.toUInt32) &&& 0xFF).toNat = (c.toNat ^^^ b.toNat) % 256 := by
    rw [UInt32.toNat_and, UInt32.toNat_xor]
    exact Nat.and_two_pow_sub_one_eq_mod _ 8
  grind [UInt32.toNat_shiftRight, Nat.shiftRight_eq_div_pow, crcByte, crcTab, natByte, UInt32.toNat_xor, crcStep_toNat]

theorem flatfsCrc32_eq (l : Text) : flatfsCrc32 l = natBytes l 0xFFFFFFFF ^^^ 0xFFFFFFFF := by
  have hfold : ∀ c : UInt32, (l.foldl crcByte c).toNat = natBytes l c.toNat := by
    induction l with
    | nil => exact fun c => rfl
    | cons b l ih =>
      intro c
      show (l.foldl crcByte (crcByte c b)).toNat = ite _ _ _
      rw [ih, crcByte_toNat, ite_self]
  show (UInt32.toNat (_ ^^^ _)) = _
  rw [UInt32.toNat_xor, hfold]
  rfl

/-- `flatfs_block_crc_ok`: the last four bytes hold the checksum of what precedes them. -/
def flatfsBlockCrcOk (b : Bytes) (sz : Nat) : Bool :=
  if sz < 4 then false else flatfsCrc32 (bytesAt b 0 (sz - 4)) == leAt b (sz - 4) 4

/-- `flatfs_block_crc_set`: write the checksum into the last four bytes. -/
def flatfsBlockCrcSet (b : Bytes) (sz : Nat) : Bytes :=
  if sz < 4 then b else putLE b (sz - 4) 4 (flatfsCrc32 (bytesAt b 0 (sz - 4)))

theorem flatfsBlockCrcOk_set (b : Bytes) (sz : Nat) (h : 4 ≤ sz) :
    flatfsBlockCrcOk (flatfsBlockCrcSet b sz) sz = true := by
  have hlt : ¬ sz < 4 := by omega
  simp only [flatfsBlockCrcOk, flatfsBlockCrcSet, if_neg hlt, beq_iff_eq]
  rw [leAt_putLE_self (flatfsCrc32_lt _)]
  congr 1
  exact bytesAt_congr fun x _ hx => fill_of_not_mem (.inl (by omega))

end Kobalt.Flatfs

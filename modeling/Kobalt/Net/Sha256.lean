/-
  Subject: SHA-256 AND HMAC (`crypto.c`, sections 2 and 3): the streaming functions, against the
  digest of the whole message as FIPS 180-4 and RFC 2104 define it.
-/
import Kobalt.Lib.Blocks
import Kobalt.Lib.Bytes
import Mathlib.Data.List.GetD
import Mathlib.Tactic

namespace Kobalt.Net

open List

/-! ## 1. Compression -/

/-- Eight words: the hash state, and the working variables of a round. -/
structure Eight (ω : Type*) where
  a : ω
  b : ω
  c : ω
  d : ω
  e : ω
  f : ω
  g : ω
  h : ω
  deriving DecidableEq

def Eight.map {ω ω' : Type*} (φ : ω → ω') (v : Eight ω) : Eight ω' :=
  { a := φ v.a, b := φ v.b, c := φ v.c, d := φ v.d, e := φ v.e, f := φ v.f, g := φ v.g, h := φ v.h }

def Eight.toList {ω : Type*} (v : Eight ω) : List ω := [v.a, v.b, v.c, v.d, v.e, v.f, v.g, v.h]

/-- `load_u32_be` at offset `i`. -/
def loadU32Be (p : Text) (i : Nat) : UInt32 :=
  (p.getD i 0).toUInt32 <<< 24 ||| (p.getD (i + 1) 0).toUInt32 <<< 16 |||
    (p.getD (i + 2) 0).toUInt32 <<< 8 ||| (p.getD (i + 3) 0).toUInt32

def storeU32Be (v : UInt32) : Text :=
  [((v >>> 24) &&& 0xFF).toUInt8, ((v >>> 16) &&& 0xFF).toUInt8, ((v >>> 8) &&& 0xFF).toUInt8,
    (v &&& 0xFF).toUInt8]

def sha256Iv : Eight UInt32 :=
  { a := 0x6A09E667, b := 0xBB67AE85, c := 0x3C6EF372, d := 0xA54FF53A
    e := 0x510E527F, f := 0x9B05688C, g := 0x1F83D9AB, h := 0x5BE0CD19 }

def sha256K : List UInt32 :=
  [0x428A2F98, 0x71374491, 0xB5C0FBCF, 0xE9B5DBA5, 0x3956C25B, 0x59F111F1, 0x923F82A4, 0xAB1C5ED5,
   0xD807AA98, 0x12835B01, 0x243185BE, 0x550C7DC3, 0x72BE5D74, 0x80DEB1FE, 0x9BDC06A7, 0xC19BF174,
   0xE49B69C1, 0xEFBE4786, 0x0FC19DC6, 0x240CA1CC, 0x2DE92C6F, 0x4A7484AA, 0x5CB0A9DC, 0x76F988DA,
   0x983E5152, 0xA831C66D, 0xB00327C8, 0xBF597FC7, 0xC6E00BF3, 0xD5A79147, 0x06CA6351, 0x14292967,
   0x27B70A85, 0x2E1B2138, 0x4D2C6DFC, 0x53380D13, 0x650A7354, 0x766A0ABB, 0x81C2C92E, 0x92722C85,
   0xA2BFE8A1, 0xA81A664B, 0xC24B8B70, 0xC76C51A3, 0xD192E819, 0xD6990624, 0xF40E3585, 0x106AA070,
   0x19A4C116, 0x1E376C08, 0x2748774C, 0x34B0BCB5, 0x391C0CB3, 0x4ED8AA4A, 0x5B9CCA4F, 0x682E6FF3,
   0x748F82EE, 0x78A5636F, 0x84C87814, 0x8CC70208, 0x90BEFFFA, 0xA4506CEB, 0xBEF9A3F7, 0xC67178F2]

def sha256Rotr (x n : UInt32) : UInt32 := x >>> n ||| x <<< (32 - n)

def sha256Ch (e f g : UInt32) : UInt32 := (e &&& f) ^^^ (~~~e &&& g)
def sha256Maj (a b c : UInt32) : UInt32 := (a &&& b) ^^^ (a &&& c) ^^^ (b &&& c)
def sha256Sig0 (a : UInt32) : UInt32 := sha256Rotr a 2 ^^^ sha256Rotr a 13 ^^^ sha256Rotr a 22
def sha256Sig1 (e : UInt32) : UInt32 := sha256Rotr e 6 ^^^ sha256Rotr e 11 ^^^ sha256Rotr e 25
def sha256Gam0 (x : UInt32) : UInt32 := sha256Rotr x 7 ^^^ sha256Rotr x 18 ^^^ (x >>> 3)
def sha256Gam1 (x : UInt32) : UInt32 := sha256Rotr x 17 ^^^ sha256Rotr x 19 ^^^ (x >>> 10)

/-- The body of the second schedule loop: word `t` of `W`. -/
def scheduleWord (W : List UInt32) (t : Nat) : UInt32 :=
  sha256Gam1 (W.getD (t - 2) 0) + W.getD (t - 7) 0 + sha256Gam0 (W.getD (t - 15) 0) + W.getD (t - 16) 0

/-- The message schedule, after `n` rounds of its second loop. -/
def scheduleLoop (block : Text) (n : Nat) : List UInt32 :=
  (List.range n).foldl (fun W i => W ++ [scheduleWord W (16 + i)])
    ((List.range 16).map fun t => loadU32Be block (t * 4))

/-- One of the 64 rounds. -/
def sha256Round (k w : UInt32) (v : Eight UInt32) : Eight UInt32 :=
  let t1 := v.h + sha256Sig1 v.e + sha256Ch v.e v.f v.g + k + w
  let t2 := sha256Sig0 v.a + sha256Maj v.a v.b v.c
  { h := v.g, g := v.f, f := v.e, e := v.d + t1, d := v.c, c := v.b, b := v.a, a := t1 + t2 }

def sha256Compress (state : Eight UInt32) (block : Text) : Eight UInt32 :=
  let W := scheduleLoop block 48
  let v := (List.range 64).foldl (fun v t => sha256Round (sha256K.getD t 0) (W.getD t 0) v) state
  { a := state.a + v.a, b := state.b + v.b, c := state.c + v.c, d := state.d + v.d
    e := state.e + v.e, f := state.f + v.f, g := state.g + v.g, h := state.h + v.h }

/-! ## 2. The streaming functions -/

/-- `crypto_sha256_ctx`. The first `buf_len` bytes of `buf` are the list `core.buf`; no others are
    read. -/
structure Sha256Ctx where
  core : Buffered (Eight UInt32) UInt8
  count : UInt64

def cryptoSha256Init : Sha256Ctx := { core := { state := sha256Iv, buf := [] }, count := 0 }

def cryptoSha256Update (ctx : Sha256Ctx) (data : Text) : Sha256Ctx :=
  { core := ctx.core.update sha256Compress 64 data
    count := ctx.count + UInt64.ofNat data.length * 8 }

/-- The length field of the last block. -/
def countBytes (count : UInt64) : Text :=
  [((count >>> 56) &&& 0xFF).toUInt8, ((count >>> 48) &&& 0xFF).toUInt8,
    ((count >>> 40) &&& 0xFF).toUInt8, ((count >>> 32) &&& 0xFF).toUInt8,
    ((count >>> 24) &&& 0xFF).toUInt8, ((count >>> 16) &&& 0xFF).toUInt8,
    ((count >>> 8) &&& 0xFF).toUInt8, (count &&& 0xFF).toUInt8]

/-- `crypto_sha256_final`: the digest, and the context scrubbed. -/
def cryptoSha256Final (ctx : Sha256Ctx) : Text × Sha256Ctx :=
  let buf := ctx.core.buf ++ [0x80]
  let (state, buf) :=
    if buf.length > 56 then
      (sha256Compress ctx.core.state (buf ++ List.replicate (64 - buf.length) 0), [])
    else (ctx.core.state, buf)
  let pad := buf ++ List.replicate (56 - buf.length) 0 ++ countBytes ctx.count
  let state := sha256Compress state pad
  (state.toList.flatMap storeU32Be,
    { core := { state := { a := 0, b := 0, c := 0, d := 0, e := 0, f := 0, g := 0, h := 0 }, buf := [] }
      count := 0 })

def cryptoSha256 (data : Text) : Text :=
  (cryptoSha256Final (cryptoSha256Update cryptoSha256Init data)).1

/-- `crypto_hmac_sha256_ctx`. -/
structure HmacSha256Ctx where
  inner : Sha256Ctx
  outer : Sha256Ctx

def cryptoHmacSha256Init (key : Text) : HmacSha256Ctx :=
  let k := if key.length > 64 then cryptoSha256 key else key
  let k := k ++ List.replicate (64 - k.length) 0
  { inner := cryptoSha256Update cryptoSha256Init (k.map (· ^^^ 0x36))
    outer := cryptoSha256Update cryptoSha256Init (k.map (· ^^^ 0x5C)) }

def cryptoHmacSha256Update (ctx : HmacSha256Ctx) (data : Text) : HmacSha256Ctx :=
  { ctx with inner := cryptoSha256Update ctx.inner data }

def cryptoHmacSha256Final (ctx : HmacSha256Ctx) : Text :=
  let innerDigest := (cryptoSha256Final ctx.inner).1
  (cryptoSha256Final (cryptoSha256Update ctx.outer innerDigest)).1

/-! ## 3. The standards -/

namespace Fips

abbrev Word := BitVec 32

/-- From `c` on, the largest number with `(·) ^ n ≤ x`, `k` bits more. -/
def rootFrom (n x : Nat) : Nat → Nat → Nat
  | 0, c => c
  | k + 1, c => rootFrom n x k (if (c + 2 ^ k) ^ n ≤ x then c + 2 ^ k else c)

/-- The integer part of the `n`-th root of `x < 2 ^ (40 * n)`. -/
def floorRoot (n x : Nat) : Nat := rootFrom n x 40 0

/-- The first sixty-four primes. -/
def primes : List Nat :=
  (List.range 312).filter fun p => 2 ≤ p ∧ ∀ m ∈ List.range p, 2 ≤ m → p % m ≠ 0

/-- The first 32 bits of the fractional part of the `n`-th root of `p` (4.2.2, 5.3.3). -/
def rootBits (n p : Nat) : Word := BitVec.ofNat 32 (floorRoot n (p * 2 ^ (32 * n)))

/-- The constants `K`. -/
def k (t : Nat) : Word := rootBits 3 (primes.getD t 0)

/-- The initial hash value. -/
def iv : Eight Word :=
  let h := fun i => rootBits 2 (primes.getD i 0)
  { a := h 0, b := h 1, c := h 2, d := h 3, e := h 4, f := h 5, g := h 6, h := h 7 }

def ch (x y z : Word) : Word := (x &&& y) ^^^ (~~~x &&& z)
def maj (x y z : Word) : Word := (x &&& y) ^^^ (x &&& z) ^^^ (y &&& z)
def bigSigma0 (x : Word) : Word := x.rotateRight 2 ^^^ x.rotateRight 13 ^^^ x.rotateRight 22
def bigSigma1 (x : Word) : Word := x.rotateRight 6 ^^^ x.rotateRight 11 ^^^ x.rotateRight 25
def sigma0 (x : Word) : Word := x.rotateRight 7 ^^^ x.rotateRight 18 ^^^ (x >>> 3)
def sigma1 (x : Word) : Word := x.rotateRight 17 ^^^ x.rotateRight 19 ^^^ (x >>> 10)

/-- The `t`-th word of a block. -/
def word (block : Text) (t : Nat) : Word :=
  let b := fun i => (block.getD (4 * t + i) 0).toNat
  BitVec.ofNat 32 (((b 0 * 256 + b 1) * 256 + b 2) * 256 + b 3)

/-- The message schedule (6.2.2). -/
def schedule (M : Nat → Word) (t : Nat) : Word :=
  if t < 16 then M t
  else sigma1 (schedule M (t - 2)) + schedule M (t - 7) + sigma0 (schedule M (t - 15)) +
    schedule M (t - 16)

def round (k w : Word) (v : Eight Word) : Eight Word :=
  let t1 := v.h + bigSigma1 v.e + ch v.e v.f v.g + k + w
  let t2 := bigSigma0 v.a + maj v.a v.b v.c
  { a := t1 + t2, b := v.a, c := v.b, d := v.c, e := v.d + t1, f := v.e, g := v.f, h := v.g }

/-- One block (6.2.2). -/
def hashBlock (H : Eight Word) (block : Text) : Eight Word :=
  let v := (List.range 64).foldl (fun v t => round (k t) (schedule (word block) t) v) H
  { a := v.a + H.a, b := v.b + H.b, c := v.c + H.c, d := v.d + H.d
    e := v.e + H.e, f := v.f + H.f, g := v.g + H.g, h := v.h + H.h }

/-- The number of zero bytes of the padding (5.1.1): the least one that leaves room for the length in
    the last block. -/
def zeros (len : Nat) : Nat := (119 - len % 64) % 64

/-- The padded message. -/
def padded (m : Text) : Text :=
  m ++ [0x80] ++ List.replicate (zeros m.length) 0 ++
    (List.range 8).map fun i => UInt8.ofNat (8 * m.length / 256 ^ (7 - i))

/-- The bytes of a word, most significant first. -/
def wordBytes (w : Word) : Text :=
  (List.range 4).map fun i => UInt8.ofNat (w.toNat / 256 ^ (3 - i))

/-- **The SHA-256 digest of a message.** -/
def sha256 (m : Text) : Text :=
  let p := padded m
  let H := (List.range (p.length / 64)).foldl
    (fun H i => hashBlock H ((p.drop (64 * i)).take 64)) iv
  H.toList.flatMap wordBytes

end Fips

/-- **HMAC** of RFC 2104 over a hash `H` with blocks of `B` bytes. -/
def rfcHmac (H : Text → Text) (B : Nat) (key m : Text) : Text :=
  let k := if key.length > B then H key else key
  let k := (List.range B).map fun i => k.getD i 0
  H (k.map (· ^^^ 0x5C) ++ H (k.map (· ^^^ 0x36) ++ m))

/-! ## 4. Compression computes a block of the standard -/

theorem sha256K_eq : ∀ t < 64, (sha256K.getD t 0).toBitVec = Fips.k t := by
  decide +kernel

theorem sha256Iv_eq : sha256Iv.map UInt32.toBitVec = Fips.iv := by
  decide +kernel

theorem gam0_eq (x : UInt32) : (sha256Gam0 x).toBitVec = Fips.sigma0 x.toBitVec := rfl
theorem gam1_eq (x : UInt32) : (sha256Gam1 x).toBitVec = Fips.sigma1 x.toBitVec := rfl
theorem loadU32Be_eq (p : Text) (t : Nat) : (loadU32Be p (t * 4)).toBitVec = Fips.word p t := by
  unfold loadU32Be Fips.word
  simp only [Nat.mul_comm t 4, Nat.add_zero, ← word_of_bytes]
  exact BitVec.eq_of_toNat_eq (by rw [BitVec.toNat_ofNat, Nat.mod_eq_of_lt (UInt32.toNat_lt _)]; rfl)

theorem storeU32Be_eq (v : UInt32) : storeU32Be v = Fips.wordBytes v.toBitVec := by
  have hbyte : ∀ k : UInt32, ((v >>> k) &&& 0xFF).toUInt8 = UInt8.ofNat (v.toNat / 2 ^ (k.toNat % 32)) :=
    fun k => UInt8.toNat_inj.mp (by rw [byte_of_word, UInt8.toNat_ofNat'])
  have h0 : (v &&& 0xFF).toUInt8 = ((v >>> 0) &&& 0xFF).toUInt8 := by simp
  unfold storeU32Be
  rw [h0, hbyte, hbyte, hbyte, hbyte]
  rfl

theorem sha256Round_eq (k w : UInt32) (v : Eight UInt32) : (sha256Round k w v).map UInt32.toBitVec =
      Fips.round k.toBitVec w.toBitVec (v.map UInt32.toBitVec) := rfl

theorem scheduleLoop_eq (block : Text) (n : Nat) : (scheduleLoop block n).length = 16 + n ∧
    ∀ t < 16 + n, ((scheduleLoop block n).getD t 0).toBitVec = Fips.schedule (Fips.word block) t := by
  induction n with
  | zero =>
    refine ⟨by simp [scheduleLoop], fun t ht => ?_⟩
    rw [Fips.schedule, if_pos (by omega), ← loadU32Be_eq]
    simp [scheduleLoop, ht]
  | succ n ih =>
    obtain ⟨hlen, hW⟩ := ih
    have hloop : scheduleLoop block (n + 1) =
        scheduleLoop block n ++ [scheduleWord (scheduleLoop block n) (16 + n)] := by
      unfold scheduleLoop
      rw [range_succ (n := n), foldl_append]
      rfl
    rw [hloop]
    refine ⟨by rw [length_append, hlen]; rfl, fun t ht => ?_⟩
    rcases Nat.lt_or_ge t (16 + n) with hlt | hge
    · grind
    · obtain rfl : t = 16 + n := by omega
      rw [getD_append_right _ _ _ _ (by omega), hlen, Nat.sub_self]
      rw [Fips.schedule, if_neg (by omega), ← hW (16 + n - 2) (by omega), ← hW (16 + n - 7) (by omega),
        ← hW (16 + n - 15) (by omega), ← hW (16 + n - 16) (by omega), ← gam1_eq, ← gam0_eq]
      rfl

theorem sha256Compress_eq (state : Eight UInt32) (block : Text) :
    (sha256Compress state block).map UInt32.toBitVec = Fips.hashBlock (state.map UInt32.toBitVec) block := by
  have hfold : ∀ n ≤ 64, ((List.range n).foldl (fun v t => sha256Round (sha256K.getD t 0)
        ((scheduleLoop block 48).getD t 0) v) state).map UInt32.toBitVec =
      (List.range n).foldl (fun v t => Fips.round (Fips.k t) (Fips.schedule (Fips.word block) t) v)
        (state.map UInt32.toBitVec) := by
    intro n hn
    induction n with
    | zero => rfl
    | succ n ih => grind [range_succ, sha256Round_eq, sha256K_eq, scheduleLoop_eq]
  unfold sha256Compress Fips.hashBlock
  simp only [← hfold 64 (Nat.le_refl _)]
  simp only [Eight.map, UInt32.toBitVec_add, BitVec.add_comm]

/-! ## 5. The stream -/

theorem countBytes_eq (n : Nat) : countBytes (UInt64.ofNat n) =
    (List.range 8).map fun i => UInt8.ofNat (n / 256 ^ (7 - i)) := by
  have hbyte : ∀ k : UInt64, ((UInt64.ofNat n >>> k) &&& 0xFF).toUInt8 =
      UInt8.ofNat (n % 2 ^ 64 / 2 ^ (k.toNat % 64)) := by
    intro k
    refine UInt8.toNat_inj.mp ?_
    simp only [UInt64.toNat_toUInt8, UInt64.toNat_and, UInt64.toNat_shiftRight, UInt64.toNat_ofNat',
      UInt8.toNat_ofNat']
    rw [Nat.shiftRight_eq_div_pow, show (255 : UInt64).toNat = 2 ^ 8 - 1 from rfl,
      Nat.and_two_pow_sub_one_eq_mod]
    omega
  have h0 : (UInt64.ofNat n &&& 0xFF).toUInt8 = ((UInt64.ofNat n >>> 0) &&& 0xFF).toUInt8 := by simp
  have hmod : ∀ k ≤ 7, UInt8.ofNat (n % 2 ^ 64 / 2 ^ (8 * k)) = UInt8.ofNat (n / 256 ^ k) := by
    intro k hk
    refine UInt8.toNat_inj.mp ?_
    rw [UInt8.toNat_ofNat', UInt8.toNat_ofNat']
    interval_cases k <;> omega
  unfold countBytes
  rw [h0]
  simp only [hbyte]
  show [UInt8.ofNat (n % 2 ^ 64 / 2 ^ (8 * 7)), UInt8.ofNat (n % 2 ^ 64 / 2 ^ (8 * 6)),
    UInt8.ofNat (n % 2 ^ 64 / 2 ^ (8 * 5)), UInt8.ofNat (n % 2 ^ 64 / 2 ^ (8 * 4)),
    UInt8.ofNat (n % 2 ^ 64 / 2 ^ (8 * 3)), UInt8.ofNat (n % 2 ^ 64 / 2 ^ (8 * 2)),
    UInt8.ofNat (n % 2 ^ 64 / 2 ^ (8 * 1)), UInt8.ofNat (n % 2 ^ 64 / 2 ^ (8 * 0))] = _
  rw [hmod 7 (by decide), hmod 6 (by decide), hmod 5 (by decide), hmod 4 (by decide),
    hmod 3 (by decide), hmod 2 (by decide), hmod 1 (by decide), hmod 0 (by decide)]
  rfl

/-- What a context holds after a message. -/
def After (ctx : Sha256Ctx) (m : Text) : Prop :=
  ctx.core.state = (feed sha256Compress 64 sha256Iv m).1 ∧
  ctx.core.buf = (feed sha256Compress 64 sha256Iv m).2 ∧ ctx.count = UInt64.ofNat (8 * m.length)

theorem after_init : After cryptoSha256Init [] := by
  rw [After, feed_of_lt (by decide)]
  exact ⟨rfl, rfl, rfl⟩

theorem After.update {ctx : Sha256Ctx} {m : Text} (h : After ctx m) (data : Text) :
    After (cryptoSha256Update ctx data) (m ++ data) := by
  obtain ⟨hs, hb, hc⟩ := h
  have hlt : ctx.core.buf.length < 64 := hb ▸ feed_snd_lt (by decide) _ _
  grind [After, cryptoSha256Update, Buffered.update_eq, feed_append, UInt64.ofNat_add, UInt64.ofNat_mul]

theorem After.foldl {ctx : Sha256Ctx} {m : Text} (h : After ctx m) (pieces : List Text) :
    After (pieces.foldl cryptoSha256Update ctx) (m ++ pieces.flatten) := by
  induction pieces generalizing ctx m with
  | nil => rwa [flatten_nil, append_nil]
  | cons p ps ih => grind [h.update]

/-- The padding of the standard, as the code cuts it: what is left of the message takes it along
    into one block or, with 56 bytes or more left, into two. -/
theorem feed_padded (m buf : Text) (s : Eight UInt32) (tail : Text) (htail : tail.length = 8)
    (hbuf : buf.length = m.length % 64) :
    (feed sha256Compress 64 s (buf ++ ([0x80] ++ List.replicate (Fips.zeros m.length) 0 ++ tail))).1 =
      if buf.length + 1 > 56 then
        sha256Compress (sha256Compress s (buf ++ [0x80] ++ List.replicate (64 - (buf.length + 1)) 0))
          (List.replicate 56 0 ++ tail)
      else sha256Compress s (buf ++ [0x80] ++ List.replicate (56 - (buf.length + 1)) 0 ++ tail) := by
  have hlt := Nat.mod_lt m.length (show 0 < 64 by decide)
  have hone : ∀ (s : Eight UInt32) {b : Text}, b.length = 64 →
      (feed sha256Compress 64 s b).1 = sha256Compress s b := fun s b hb => by
    have := feed_block (f := sha256Compress) (s := s) (l := []) (show 0 < 64 by decide) hb
    grind [feed_of_lt]
  have hz : Fips.zeros m.length = (119 - buf.length) % 64 := by rw [hbuf]; rfl
  by_cases hspill : buf.length + 1 > 56
  · have hsplit : buf ++ ([0x80] ++ List.replicate (Fips.zeros m.length) 0 ++ tail) =
        (buf ++ [0x80] ++ List.replicate (64 - (buf.length + 1)) 0) ++ (List.replicate 56 0 ++ tail) := by
      rw [hz, show (119 - buf.length) % 64 = 64 - (buf.length + 1) + 56 by omega,
        ← replicate_append_replicate]
      simp only [append_assoc]
    rw [if_pos hspill, hsplit, feed_block (by decide), hone]
    · simp [htail]
    grind
  · rw [if_neg hspill, hz, show (119 - buf.length) % 64 = 56 - (buf.length + 1) by omega,
      ← append_assoc, ← append_assoc, hone]
    simp only [length_append, length_replicate, length_singleton, htail]
    omega

theorem After.final {ctx : Sha256Ctx} {m : Text} (h : After ctx m) :
    (cryptoSha256Final ctx).1 = Fips.sha256 m := by
  obtain ⟨hs, hb, hc⟩ := h
  have hbuf : ctx.core.buf.length = m.length % 64 := hb ▸ feed_snd_length (by decide) _ _
  have hsha : Fips.sha256 m =
      ((feed sha256Compress 64 sha256Iv (Fips.padded m)).1.map UInt32.toBitVec).toList.flatMap
        Fips.wordBytes := by
    rw [feed_sim (φ := Eight.map UInt32.toBitVec) sha256Compress_eq (by decide), sha256Iv_eq,
      feed_eq_foldl (by decide)]
    rfl
  have hpad : Fips.padded m = m ++ ([0x80] ++ List.replicate (Fips.zeros m.length) 0 ++
      countBytes (UInt64.ofNat (8 * m.length))) := by
    rw [countBytes_eq]
    simp only [Fips.padded, append_assoc]
  have hstore : ∀ v : Eight UInt32, v.toList.flatMap storeU32Be =
      (v.map UInt32.toBitVec).toList.flatMap Fips.wordBytes := fun v => by
    simp only [Eight.toList, Eight.map, flatMap_cons, flatMap_nil, storeU32Be_eq]
  rw [hsha, hpad, feed_append (by decide), ← hs, ← hb, feed_padded m _ _ _ rfl hbuf, ← hc, ← hstore]
  unfold cryptoSha256Final
  by_cases hspill : ctx.core.buf.length + 1 > 56
  · simp only [length_append, length_singleton, if_pos hspill, length_nil, Nat.sub_zero, nil_append]
  · simp only [length_append, length_singleton, if_neg hspill]

/-! ## 6. HMAC -/

theorem cryptoSha256_eq (m : Text) : cryptoSha256 m = Fips.sha256 m := (after_init.update m).final

theorem length_sha256 (m : Text) : (Fips.sha256 m).length = 32 := by
  simp [Fips.sha256, Eight.toList, Fips.wordBytes]

theorem zeroExtend_eq {k : Text} {B : Nat} (hk : k.length ≤ B) :
    k ++ List.replicate (B - k.length) 0 = (List.range B).map fun i => k.getD i 0 := by
  refine ext_getElem (by simp; omega) fun i h1 h2 => ?_
  grind

/-- The two contexts after `crypto_hmac_sha256_init`: each has the key under its pad. -/
theorem cryptoHmacSha256Init_eq (key : Text) : ∃ k : Text,
    (k = (List.range 64).map fun i => (if key.length > 64 then Fips.sha256 key else key).getD i 0) ∧
    After (cryptoHmacSha256Init key).inner (k.map (· ^^^ 0x36)) ∧
    After (cryptoHmacSha256Init key).outer (k.map (· ^^^ 0x5C)) := by
  have hlen : (if key.length > 64 then Fips.sha256 key else key).length ≤ 64 := by
    split
    · rw [length_sha256]
      decide
    · omega
  refine ⟨_, rfl, ?_, ?_⟩
  all_goals
    rw [← zeroExtend_eq hlen, ← cryptoSha256_eq]
    exact after_init.update _

theorem foldl_hmacUpdate (ctx : HmacSha256Ctx) (pieces : List Text) :
    pieces.foldl cryptoHmacSha256Update ctx =
      { ctx with inner := pieces.foldl cryptoSha256Update ctx.inner } := by
  induction pieces generalizing ctx with
  | nil => rfl
  | cons p ps ih => exact ih _

/-- **SHA-256 and HMAC in pieces**: however a message is cut into pieces, the streaming functions
    give the digest of the whole message, and those of HMAC the value of RFC 2104. -/
theorem sha256_hmac_streaming : (∀ pieces : List Text,
      (cryptoSha256Final (pieces.foldl cryptoSha256Update cryptoSha256Init)).1 = Fips.sha256 pieces.flatten) ∧
    ∀ (key : Text) (pieces : List Text),
      cryptoHmacSha256Final (pieces.foldl cryptoHmacSha256Update (cryptoHmacSha256Init key)) =
        rfcHmac Fips.sha256 64 key pieces.flatten := by
  refine ⟨fun pieces => (after_init.foldl pieces).final, fun key pieces => ?_⟩
  obtain ⟨k, hk, hinner, houter⟩ := cryptoHmacSha256Init_eq key
  rw [foldl_hmacUpdate]
  unfold cryptoHmacSha256Final rfcHmac
  simp only [(hinner.foldl pieces).final, (houter.update _).final, ← hk]

end Kobalt.Net

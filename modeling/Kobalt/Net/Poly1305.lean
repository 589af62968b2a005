/-
  Subject: POLY1305 (`crypto.c`, section 5): five lazily carried limbs of 26 bits, against the
  polynomial over `2 ^ 130 - 5` of RFC 8439.
-/
import Kobalt.Lib.Blocks
import Kobalt.Lib.Bytes
import Mathlib.Data.List.GetD
import Mathlib.Tactic

namespace Kobalt.Net

open Finset Nat

variable {key m p : Text}

/-! ## 1. The code -/

/-- Five limbs of 26 bits, as 32-bit words. -/
structure Limbs where
  l0 : Nat
  l1 : Nat
  l2 : Nat
  l3 : Nat
  l4 : Nat

def Limbs.zero : Limbs := { l0 := 0, l1 := 0, l2 := 0, l3 := 0, l4 := 0 }

/-- `load_u32_le` at offset `i`. -/
def loadU32Le (p : Text) (i : Nat) : Nat :=
  (p.getD i 0).toNat ||| (p.getD (i + 1) 0).toNat <<< 8 ||| (p.getD (i + 2) 0).toNat <<< 16 |||
    (p.getD (i + 3) 0).toNat <<< 24

def storeU32Le (v : Nat) : Text :=
  [UInt8.ofNat (v &&& 0xFF), UInt8.ofNat ((v >>> 8) &&& 0xFF), UInt8.ofNat ((v >>> 16) &&& 0xFF),
    UInt8.ofNat ((v >>> 24) &&& 0xFF)]

def storeU64Le (v : Nat) : Text :=
  storeU32Le (v &&& 0xFFFFFFFF) ++ storeU32Le ((v >>> 32) &&& 0xFFFFFFFF)

/-- `poly1305_clamp_r`: the mask of byte `i`. -/
def poly1305ClampMask (i : Nat) : UInt8 :=
  if i = 3 ∨ i = 7 ∨ i = 11 ∨ i = 15 then 0x0F else if i = 4 ∨ i = 8 ∨ i = 12 then 0xFC else 0xFF

def poly1305ClampR (r : Text) : Text := r.mapIdx fun i b => b &&& poly1305ClampMask i

/-- The four words of 16 bytes as five limbs; the top limb takes what `top` adds to it. -/
def limbsOf (p : Text) (top : Nat → Nat) : Limbs :=
  let c0 := loadU32Le p 0
  let c1 := loadU32Le p 4
  let c2 := loadU32Le p 8
  let c3 := loadU32Le p 12
  { l0 := c0 &&& 0x3FFFFFF
    l1 := (c0 >>> 26 ||| (c1 <<< 6) % 2 ^ 32) &&& 0x3FFFFFF
    l2 := (c1 >>> 20 ||| (c2 <<< 12) % 2 ^ 32) &&& 0x3FFFFFF
    l3 := (c2 >>> 14 ||| (c3 <<< 18) % 2 ^ 32) &&& 0x3FFFFFF
    l4 := top (c3 >>> 8) }

def poly1305LoadBlock (p : Text) (padbit : Nat) : Limbs :=
  limbsOf p fun c => c ||| (padbit <<< 24) % 2 ^ 32

def poly1305Multiply (h r rr : Limbs) : Limbs :=
  let d0 := (h.l0 * r.l0 + h.l1 * rr.l4 + h.l2 * rr.l3 + h.l3 * rr.l2 + h.l4 * rr.l1) % 2 ^ 64
  let d1 := (h.l0 * r.l1 + h.l1 * r.l0 + h.l2 * rr.l4 + h.l3 * rr.l3 + h.l4 * rr.l2) % 2 ^ 64
  let d2 := (h.l0 * r.l2 + h.l1 * r.l1 + h.l2 * r.l0 + h.l3 * rr.l4 + h.l4 * rr.l3) % 2 ^ 64
  let d3 := (h.l0 * r.l3 + h.l1 * r.l2 + h.l2 * r.l1 + h.l3 * r.l0 + h.l4 * rr.l4) % 2 ^ 64
  let d4 := (h.l0 * r.l4 + h.l1 * r.l3 + h.l2 * r.l2 + h.l3 * r.l1 + h.l4 * r.l0) % 2 ^ 64
  let d1 := (d1 + d0 >>> 26) % 2 ^ 64
  let h0 := d0 &&& 0x3FFFFFF
  let d2 := (d2 + d1 >>> 26) % 2 ^ 64
  let h1 := d1 &&& 0x3FFFFFF
  let d3 := (d3 + d2 >>> 26) % 2 ^ 64
  let h2 := d2 &&& 0x3FFFFFF
  let d4 := (d4 + d3 >>> 26) % 2 ^ 64
  let h3 := d3 &&& 0x3FFFFFF
  let c := (d4 >>> 26) * 5 % 2 ^ 64
  let h4 := d4 &&& 0x3FFFFFF
  let c := (c + h0) % 2 ^ 64
  { l0 := c &&& 0x3FFFFFF, l1 := (h1 + (c >>> 26) % 2 ^ 32) % 2 ^ 32, l2 := h2, l3 := h3, l4 := h4 }

/-- `poly1305_block`, on the accumulator. -/
def poly1305Block (r rr : Limbs) (padbit : Nat) (h : Limbs) (data : Text) : Limbs :=
  let m := poly1305LoadBlock data padbit
  poly1305Multiply
    { l0 := (h.l0 + m.l0) % 2 ^ 32, l1 := (h.l1 + m.l1) % 2 ^ 32, l2 := (h.l2 + m.l2) % 2 ^ 32
      l3 := (h.l3 + m.l3) % 2 ^ 32, l4 := (h.l4 + m.l4) % 2 ^ 32 } r rr

/-- `crypto_poly1305_ctx`. The accumulator `h` and the first `buf_len` bytes of `buf` are `core`; the
    flag `finalised` is read by nothing. -/
structure Poly1305Ctx where
  r : Limbs
  rr : Limbs
  s : Nat → Nat
  core : Buffered Limbs UInt8

variable {h : Limbs} {ctx : Poly1305Ctx}

def cryptoPoly1305Init (key : Text) : Poly1305Ctx :=
  let r := limbsOf (poly1305ClampR (key.take 16)) fun c => c &&& 0x3FFFFFF
  { r := r
    rr := { l0 := r.l0 * 5 % 2 ^ 32, l1 := r.l1 * 5 % 2 ^ 32, l2 := r.l2 * 5 % 2 ^ 32
            l3 := r.l3 * 5 % 2 ^ 32, l4 := r.l4 * 5 % 2 ^ 32 }
    s := fun i => loadU32Le key (16 + i * 4)
    core := { state := .zero, buf := [] } }

def cryptoPoly1305Update (ctx : Poly1305Ctx) (data : Text) : Poly1305Ctx :=
  { ctx with core := ctx.core.update (poly1305Block ctx.r ctx.rr 1) 16 data }

/-- The carry pass of `crypto_poly1305_final`. -/
def poly1305Carry (h : Limbs) : Limbs :=
  let c := h.l1 >>> 26
  let h1 := h.l1 &&& 0x3FFFFFF
  let h2 := (h.l2 + c) % 2 ^ 32
  let c := h2 >>> 26
  let h2 := h2 &&& 0x3FFFFFF
  let h3 := (h.l3 + c) % 2 ^ 32
  let c := h3 >>> 26
  let h3 := h3 &&& 0x3FFFFFF
  let h4 := (h.l4 + c) % 2 ^ 32
  let c := h4 >>> 26
  let h4 := h4 &&& 0x3FFFFFF
  let h0 := (h.l0 + c * 5 % 2 ^ 32) % 2 ^ 32
  let c := h0 >>> 26
  let h0 := h0 &&& 0x3FFFFFF
  { l0 := h0, l1 := (h1 + c) % 2 ^ 32, l2 := h2, l3 := h3, l4 := h4 }

/-- `h + 5`, whose top limb keeps the carry out of bit 130. -/
def poly1305PlusFive (h : Limbs) : Limbs :=
  let g0 := (h.l0 + 5) % 2 ^ 32
  let g1 := (h.l1 + g0 >>> 26) % 2 ^ 32
  let g2 := (h.l2 + g1 >>> 26) % 2 ^ 32
  let g3 := (h.l3 + g2 >>> 26) % 2 ^ 32
  { l0 := g0 &&& 0x3FFFFFF, l1 := g1 &&& 0x3FFFFFF, l2 := g2 &&& 0x3FFFFFF, l3 := g3 &&& 0x3FFFFFF
    l4 := (h.l4 + g3 >>> 26) % 2 ^ 32 }

/-- The selection by masks: `g` where its top limb has overflowed, `h` elsewhere. -/
def poly1305Select (h g : Limbs) : Limbs :=
  let mask := (2 ^ 32 - g.l4 >>> 26) % 2 ^ 32
  let nmask := 0xFFFFFFFF ^^^ mask
  { l0 := h.l0 &&& nmask ||| g.l0 &&& mask, l1 := h.l1 &&& nmask ||| g.l1 &&& mask
    l2 := h.l2 &&& nmask ||| g.l2 &&& mask, l3 := h.l3 &&& nmask ||| g.l3 &&& mask
    l4 := h.l4 &&& nmask ||| g.l4 &&& mask }

/-- The reduced limbs joined to two words, plus `s`. -/
def poly1305Tag (h : Limbs) (s : Nat → Nat) : Text :=
  let h0 := h.l0 ||| (h.l1 <<< 26) % 2 ^ 64 ||| (h.l2 <<< 52) % 2 ^ 64
  let h1 := h.l2 >>> 12 ||| (h.l3 <<< 14) % 2 ^ 64 ||| (h.l4 <<< 40) % 2 ^ 64
  let s0 := s 0 ||| (s 1 <<< 32) % 2 ^ 64
  let s1 := s 2 ||| (s 3 <<< 32) % 2 ^ 64
  let h0 := (h0 + s0) % 2 ^ 64
  let h1 := (h1 + s1 + if h0 < s0 then 1 else 0) % 2 ^ 64
  storeU64Le h0 ++ storeU64Le h1

/-- `crypto_poly1305_final`: the tag. The context is zeroed after it. -/
def cryptoPoly1305Final (ctx : Poly1305Ctx) : Text :=
  let buf := ctx.core.buf
  let h := if buf.length > 0 then
      poly1305Block ctx.r ctx.rr 0 ctx.core.state
        (buf ++ [0x01] ++ List.replicate (16 - buf.length - 1) 0)
    else ctx.core.state
  let h := poly1305Carry h
  poly1305Tag (poly1305Select h (poly1305PlusFive h)) ctx.s

/-! ## 2. The tag of a message -/

namespace Rfc

/-- The number bytes stand for, least significant first. -/
def leNat : Text → Nat
  | [] => 0
  | b :: l => b.toNat + 256 * leNat l

/-- The `n` low bytes of a number, least significant first. -/
def leBytes (n v : Nat) : Text := (List.range n).map fun i => UInt8.ofNat (v / 256 ^ i)

/-- The prime `2 ^ 130 - 5`. -/
def prime : Nat := 2 ^ 130 - 5

/-- `r`: the first half of the key, clamped (2.5). -/
def keyR (key : Text) : Nat := leNat (key.take 16) &&& 0x0ffffffc0ffffffc0ffffffc0fffffff

/-- `s`: the second half. -/
def keyS (key : Text) : Nat := leNat ((key.drop 16).take 16)

/-- Block `i` of a message with one bit after its last byte. -/
def block (m : Text) (i : Nat) : Nat :=
  let b := (m.drop (16 * i)).take 16
  leNat b + 2 ^ (8 * b.length)

/-- The number of blocks. -/
def blocks (m : Text) : Nat := (m.length + 15) / 16

/-- The polynomial: the sum of the blocks times the powers of `r`. -/
def poly (key m : Text) : Nat :=
  (∑ i ∈ range (blocks m), block m i * keyR key ^ (blocks m - i)) % prime

/-- **The Poly1305 tag of a message.** -/
def poly1305 (key m : Text) : Text := leBytes 16 ((poly key m + keyS key) % 2 ^ 128)

end Rfc

/-! ## 3. One block -/

/-- The number five limbs stand for. -/
def Limbs.value (h : Limbs) : Nat :=
  h.l0 + h.l1 * 2 ^ 26 + h.l2 * 2 ^ 52 + h.l3 * 2 ^ 78 + h.l4 * 2 ^ 104

theorem prime_eq : Rfc.prime = 1361129467683753853853498429727072845819 := by
  norm_num [Rfc.prime]

theorem and26 (x : Nat) : x &&& 0x3FFFFFF = x % 2 ^ 26 := and_two_pow_sub_one_eq_mod x 26

theorem shift26 (x : Nat) : x >>> 26 = x / 2 ^ 26 := shiftRight_eq_div_pow x 26

theorem or_shift {x y k : Nat} (h : x < 2 ^ k) : x ||| y <<< k = x + y * 2 ^ k := by
  rw [Nat.or_comm, ← Nat.shiftLeft_add_eq_or_of_lt h, Nat.shiftLeft_eq, Nat.add_comm]

theorem loadU32Le_eq (p : Text) (i : Nat) : loadU32Le p i =
    (p.getD i 0).toNat + 256 * (p.getD (i + 1) 0).toNat + 65536 * (p.getD (i + 2) 0).toNat +
      16777216 * (p.getD (i + 3) 0).toNat := by
  have h := or_bytes (a := (p.getD (i + 3) 0).toNat) (p.getD (i + 2) 0).toNat_lt
    (p.getD (i + 1) 0).toNat_lt (p.getD i 0).toNat_lt
  grind [loadU32Le]

theorem loadU32Le_lt (p : Text) (i : Nat) : loadU32Le p i < 2 ^ 32 := by
  rw [loadU32Le_eq]
  have h0 := (p.getD i 0).toNat_lt
  have h1 := (p.getD (i + 1) 0).toNat_lt
  have h2 := (p.getD (i + 2) 0).toNat_lt
  have h3 := (p.getD (i + 3) 0).toNat_lt
  omega

theorem leNat_drop (p : Text) (k : Nat) :
    Rfc.leNat (p.drop k) = (p.getD k 0).toNat + 256 * Rfc.leNat (p.drop (k + 1)) := by
  by_cases h : k < p.length
  · rw [List.drop_eq_getElem_cons h, Rfc.leNat, List.getD_eq_getElem _ _ h]
  · rw [List.drop_eq_nil_of_le (by omega), List.drop_eq_nil_of_le (by omega),
      List.getD_eq_default _ _ (by omega)]
    rfl

theorem leNat_word (p : Text) (i : Nat) :
    Rfc.leNat (p.drop i) = loadU32Le p i + 2 ^ 32 * Rfc.leNat (p.drop (i + 4)) := by
  grind [leNat_drop, loadU32Le_eq]

theorem loadU32Le_slice (p : Text) (k : Nat) {n i : Nat} (h : i + 3 < n) :
    loadU32Le ((p.drop k).take n) i = loadU32Le p (k + i) := by
  have hget : ∀ j < n, ((p.drop k).take n).getD j 0 = p.getD (k + j) 0 := fun j hj => by
    rw [List.getD_eq_getElem?_getD, List.getElem?_take, if_pos hj, List.getElem?_drop,
      ← List.getD_eq_getElem?_getD]
  grind [loadU32Le]

theorem loadU32Le_eq_leNat (p : Text) (i : Nat) : loadU32Le p i = Rfc.leNat ((p.drop i).take 4) := by
  have h0 : Rfc.leNat ((p.drop i).take 4) = _ := leNat_word ((p.drop i).take 4) 0
  rw [h0, loadU32Le_slice p i (by decide), List.drop_eq_nil_of_le (by rw [List.length_take]; omega)]
  rfl

theorem leNat_words (h : p.length ≤ 16) : Rfc.leNat p =
    loadU32Le p 0 + 2 ^ 32 * loadU32Le p 4 + 2 ^ 64 * loadU32Le p 8 + 2 ^ 96 * loadU32Le p 12 := by
  have h0 : Rfc.leNat p = _ := leNat_word p 0
  grind [leNat_word, List.drop_eq_nil_of_le]

theorem limb_mid {c c' k : Nat} (hk : k = 6 ∨ k = 12 ∨ k = 18) (hc : c < 2 ^ 32) :
    (c >>> (32 - k) ||| (c' <<< k) % 2 ^ 32) &&& 0x3FFFFFF = (c / 2 ^ (32 - k) + c' * 2 ^ k) % 2 ^ 26 := by
  have hlt : c >>> (32 - k) < 2 ^ k := by
    rw [shiftRight_eq_div_pow]
    rcases hk with rfl | rfl | rfl <;> omega
  have hmod : (c' <<< k) % 2 ^ 32 = (c' % 2 ^ (32 - k)) <<< k := by
    rw [shiftLeft_eq, shiftLeft_eq]
    rcases hk with rfl | rfl | rfl <;> omega
  rw [hmod, or_shift hlt, and26, shiftRight_eq_div_pow]
  rcases hk with rfl | rfl | rfl <;> omega

/-- **Four words as five limbs**: the value is kept, and the lower limbs have 26 bits. -/
theorem limbsOf_spec (hp : p.length ≤ 16) (top : Nat → Nat) :
    (limbsOf p top).l0 < 2 ^ 26 ∧ (limbsOf p top).l1 < 2 ^ 26 ∧ (limbsOf p top).l2 < 2 ^ 26 ∧
    (limbsOf p top).l3 < 2 ^ 26 ∧ (limbsOf p top).l4 = top (loadU32Le p 12 / 2 ^ 8) ∧
    (limbsOf p top).value + loadU32Le p 12 / 2 ^ 8 * 2 ^ 104 =
      Rfc.leNat p + top (loadU32Le p 12 / 2 ^ 8) * 2 ^ 104 := by
  have h0 := loadU32Le_lt p 0
  have h1 := loadU32Le_lt p 4
  have h2 := loadU32Le_lt p 8
  have h3 := loadU32Le_lt p 12
  rw [leNat_words hp]
  simp only [limbsOf, Limbs.value, shiftRight_eq_div_pow _ 8]
  rw [limb_mid (k := 6) (by decide) h0, limb_mid (k := 12) (by decide) h1,
    limb_mid (k := 18) (by decide) h2, and26]
  generalize loadU32Le p 0 = c0 at *
  generalize loadU32Le p 4 = c1 at *
  generalize loadU32Le p 8 = c2 at *
  generalize loadU32Le p 12 = c3 at *
  generalize top (c3 / 2 ^ 8) = t
  simp only [Nat.reduceSub]
  refine ⟨by omega, by omega, by omega, by omega, trivial, by omega⟩

/-- Limbs below `2 ^ k`. -/
def Limbs.Below (h : Limbs) (k : Nat) : Prop :=
  h.l0 < 2 ^ k ∧ h.l1 < 2 ^ k ∧ h.l2 < 2 ^ k ∧ h.l3 < 2 ^ k ∧ h.l4 < 2 ^ k

/-- **What one block leaves**: limbs of 26 bits, the second of which may have a little more. -/
structure Carried (h : Limbs) : Prop where
  l0 : h.l0 < 2 ^ 26
  l1 : h.l1 < 2 ^ 26 + 2 ^ 12
  l2 : h.l2 < 2 ^ 26
  l3 : h.l3 < 2 ^ 26
  l4 : h.l4 < 2 ^ 26

/-- Five times the limbs. -/
def Limbs.times5 (r : Limbs) : Limbs :=
  { l0 := r.l0 * 5, l1 := r.l1 * 5, l2 := r.l2 * 5, l3 := r.l3 * 5, l4 := r.l4 * 5 }

/-- The carry chain of `poly1305_multiply` on the five columns. -/
def carryColumns (d0 d1 d2 d3 d4 : Nat) : Limbs :=
  let d1 := d1 + d0 / 2 ^ 26
  let d2 := d2 + d1 / 2 ^ 26
  let d3 := d3 + d2 / 2 ^ 26
  let d4 := d4 + d3 / 2 ^ 26
  let c := d4 / 2 ^ 26 * 5 + d0 % 2 ^ 26
  { l0 := c % 2 ^ 26, l1 := d1 % 2 ^ 26 + c / 2 ^ 26, l2 := d2 % 2 ^ 26, l3 := d3 % 2 ^ 26
    l4 := d4 % 2 ^ 26 }

/-- **The carry chain** keeps the value modulo the prime and makes the limbs small again. -/
theorem carryColumns_spec {d0 d1 d2 d3 d4 : Nat} (h0 : d0 < 2 ^ 60) (h1 : d1 < 2 ^ 60)
    (h2 : d2 < 2 ^ 60) (h3 : d3 < 2 ^ 60) (h4 : d4 < 2 ^ 60) :
    Carried (carryColumns d0 d1 d2 d3 d4) ∧ ∃ q, (carryColumns d0 d1 d2 d3 d4).value + q * Rfc.prime =
      d0 + d1 * 2 ^ 26 + d2 * 2 ^ 52 + d3 * 2 ^ 78 + d4 * 2 ^ 104 := by
  rw [prime_eq]
  simp only [carryColumns, Limbs.value]
  refine ⟨⟨?_, ?_, ?_, ?_, ?_⟩,
    (d4 + (d3 + (d2 + (d1 + d0 / 2 ^ 26) / 2 ^ 26) / 2 ^ 26) / 2 ^ 26) / 2 ^ 26, by omega⟩
  all_goals
    dsimp only
    omega

theorem columns_value (h r : Limbs) : ∃ q, h.value * r.value =
    (h.l0 * r.l0 + h.l1 * r.times5.l4 + h.l2 * r.times5.l3 + h.l3 * r.times5.l2 + h.l4 * r.times5.l1) +
    (h.l0 * r.l1 + h.l1 * r.l0 + h.l2 * r.times5.l4 + h.l3 * r.times5.l3 + h.l4 * r.times5.l2) * 2 ^ 26 +
    (h.l0 * r.l2 + h.l1 * r.l1 + h.l2 * r.l0 + h.l3 * r.times5.l4 + h.l4 * r.times5.l3) * 2 ^ 52 +
    (h.l0 * r.l3 + h.l1 * r.l2 + h.l2 * r.l1 + h.l3 * r.l0 + h.l4 * r.times5.l4) * 2 ^ 78 +
    (h.l0 * r.l4 + h.l1 * r.l3 + h.l2 * r.l2 + h.l3 * r.l1 + h.l4 * r.l0) * 2 ^ 104 + q * Rfc.prime := by
  refine ⟨(h.l1 * r.l4 + h.l2 * r.l3 + h.l3 * r.l2 + h.l4 * r.l1) +
    (h.l2 * r.l4 + h.l3 * r.l3 + h.l4 * r.l2) * 2 ^ 26 + (h.l3 * r.l4 + h.l4 * r.l3) * 2 ^ 52 +
    h.l4 * r.l4 * 2 ^ 78, ?_⟩
  rw [prime_eq]
  simp only [Limbs.value, Limbs.times5]
  ring

theorem column_lt {a b c d e a' b' c' d' e' : Nat} (ha : a < 2 ^ 28) (hb : b < 2 ^ 28) (hc : c < 2 ^ 28)
    (hd : d < 2 ^ 28) (he : e < 2 ^ 28) (ha' : a' < 2 ^ 29) (hb' : b' < 2 ^ 29) (hc' : c' < 2 ^ 29)
    (hd' : d' < 2 ^ 29) (he' : e' < 2 ^ 29) : a * a' + b * b' + c * c' + d * d' + e * e' < 2 ^ 60 := by
  have h : ∀ {x y : Nat}, x < 2 ^ 28 → y < 2 ^ 29 → x * y ≤ 2 ^ 57 := fun hx hy =>
    (Nat.mul_le_mul hx.le hy.le).trans (by decide)
  grind

/-- **`poly1305_multiply`**: no column overflows, and the result is the product modulo the prime. -/
theorem poly1305Multiply_spec {r : Limbs} (hh : h.Below 28) (hr : r.Below 26) :
    Carried (poly1305Multiply h r r.times5) ∧
      (poly1305Multiply h r r.times5).value ≡ h.value * r.value [MOD Rfc.prime] := by
  obtain ⟨a0, a1, a2, a3, a4⟩ := hh
  obtain ⟨b0, b1, b2, b3, b4⟩ := hr
  obtain ⟨q, hq⟩ := columns_value h r
  have t : r.times5.l0 < 2 ^ 29 ∧ r.times5.l1 < 2 ^ 29 ∧ r.times5.l2 < 2 ^ 29 ∧ r.times5.l3 < 2 ^ 29 ∧
      r.times5.l4 < 2 ^ 29 := by
    simp only [Limbs.times5]
    omega
  obtain ⟨t0, t1, t2, t3, t4⟩ := t
  have hd0 := column_lt a0 a1 a2 a3 a4 (b0.trans (by decide)) t4 t3 t2 t1
  have hd1 := column_lt a0 a1 a2 a3 a4 (b1.trans (by decide)) (b0.trans (by decide)) t4 t3 t2
  have hd2 := column_lt a0 a1 a2 a3 a4 (b2.trans (by decide)) (b1.trans (by decide)) (b0.trans (by decide)) t4 t3
  have hd3 := column_lt a0 a1 a2 a3 a4 (b3.trans (by decide)) (b2.trans (by decide)) (b1.trans (by decide))
    (b0.trans (by decide)) t4
  have hd4 := column_lt a0 a1 a2 a3 a4 (b4.trans (by decide)) (b3.trans (by decide)) (b2.trans (by decide))
    (b1.trans (by decide)) (b0.trans (by decide))
  unfold poly1305Multiply
  generalize h.l0 * r.l0 + _ + _ + _ + _ = d0 at hd0 hq ⊢
  generalize h.l0 * r.l1 + _ + _ + _ + _ = d1 at hd1 hq ⊢
  generalize h.l0 * r.l2 + _ + _ + _ + _ = d2 at hd2 hq ⊢
  generalize h.l0 * r.l3 + _ + _ + _ + _ = d3 at hd3 hq ⊢
  generalize h.l0 * r.l4 + _ + _ + _ + _ = d4 at hd4 hq ⊢
  -- no sum wraps around
  have hword : ∀ {x y : Nat}, x < 2 ^ 60 → y < 2 ^ 61 → (x + y / 2 ^ 26) % 2 ^ 64 = x + y / 2 ^ 26 :=
    fun hx hy => mod_eq_of_lt (by omega)
  have hcarry : ∀ {x y : Nat}, x < 2 ^ 60 → y < 2 ^ 61 → x + y / 2 ^ 26 < 2 ^ 61 := by omega
  have hmod : ∀ {x : Nat}, x < 2 ^ 60 → x % 2 ^ 64 = x := fun hx => mod_eq_of_lt (by omega)
  have c1 := hcarry hd1 (hd0.trans (by decide))
  have c2 := hcarry hd2 c1
  have c3 := hcarry hd3 c2
  have c4 := hcarry hd4 c3
  simp only [and26, shift26, hmod hd0, hmod hd1, hmod hd2, hmod hd3, hmod hd4,
    hword hd1 (hd0.trans (by decide)), hword hd2 c1, hword hd3 c2, hword hd4 c3]
  obtain ⟨hcarried, q', hq'⟩ := carryColumns_spec hd0 hd1 hd2 hd3 hd4
  simp only [carryColumns] at hcarried hq'
  generalize d4 + _ = e4 at c4 hcarried hq' ⊢
  have h5 : e4 / 2 ^ 26 * 5 % 2 ^ 64 = e4 / 2 ^ 26 * 5 := mod_eq_of_lt (by omega)
  have hc : (e4 / 2 ^ 26 * 5 + d0 % 2 ^ 26) % 2 ^ 64 = e4 / 2 ^ 26 * 5 + d0 % 2 ^ 26 :=
    mod_eq_of_lt (by omega)
  have hl : ((d1 + d0 / 2 ^ 26) % 2 ^ 26 + (e4 / 2 ^ 26 * 5 + d0 % 2 ^ 26) / 2 ^ 26 % 2 ^ 32) % 2 ^ 32 =
      (d1 + d0 / 2 ^ 26) % 2 ^ 26 + (e4 / 2 ^ 26 * 5 + d0 % 2 ^ 26) / 2 ^ 26 := by omega
  simp only [h5, hc, hl]
  refine ⟨hcarried, ?_⟩
  rw [hq, ← hq']
  simp [Nat.ModEq]

theorem poly1305LoadBlock_spec (hp : p.length ≤ 16) {padbit : Nat} (hpad : padbit ≤ 1) :
    (poly1305LoadBlock p padbit).Below 26 ∧
      (poly1305LoadBlock p padbit).value = Rfc.leNat p + padbit * 2 ^ 128 := by
  obtain ⟨h0, h1, h2, h3, h4, hv⟩ := limbsOf_spec hp fun c => c ||| (padbit <<< 24) % 2 ^ 32
  have hc := loadU32Le_lt p 12
  have htop : loadU32Le p 12 / 2 ^ 8 ||| (padbit <<< 24) % 2 ^ 32 =
      loadU32Le p 12 / 2 ^ 8 + padbit * 2 ^ 24 := by
    rw [mod_eq_of_lt (by rw [shiftLeft_eq]; omega), or_shift (by omega)]
  rw [htop] at h4 hv
  refine ⟨⟨h0, h1, h2, h3, ?_⟩, ?_⟩
  · show (limbsOf _ _).l4 < _
    omega
  · show (limbsOf _ _).value = _
    omega

/-- **One block** (`poly1305_block`): the accumulator plus the block, times `r`. -/
theorem poly1305Block_spec {r : Limbs} (hh : Carried h) (hr : r.Below 26) {padbit : Nat}
    (hpad : padbit ≤ 1) {data : Text} (hd : data.length ≤ 16) :
    Carried (poly1305Block r r.times5 padbit h data) ∧ (poly1305Block r r.times5 padbit h data).value ≡
        (h.value + (Rfc.leNat data + padbit * 2 ^ 128)) * r.value [MOD Rfc.prime] := by
  obtain ⟨⟨m0, m1, m2, m3, m4⟩, hm⟩ := poly1305LoadBlock_spec hd hpad
  obtain ⟨h0, h1, h2, h3, h4⟩ := hh
  rw [← hm]
  unfold poly1305Block
  generalize poly1305LoadBlock data padbit = m at *
  have hsum : ∀ {x y : Nat}, x < 2 ^ 27 → y < 2 ^ 26 → (x + y) % 2 ^ 32 = x + y := fun _ _ =>
    mod_eq_of_lt (by omega)
  simp only [hsum (h0.trans (by decide)) m0, hsum (h1.trans (by decide)) m1, hsum (h2.trans (by decide)) m2,
    hsum (h3.trans (by decide)) m3, hsum (h4.trans (by decide)) m4]
  have hv : h.value + m.value = Limbs.value
      { l0 := h.l0 + m.l0, l1 := h.l1 + m.l1, l2 := h.l2 + m.l2, l3 := h.l3 + m.l3, l4 := h.l4 + m.l4 } := by
    simp only [Limbs.value]
    ring
  rw [hv]
  refine poly1305Multiply_spec ⟨?_, ?_, ?_, ?_, ?_⟩ hr
  all_goals
    dsimp only
    omega

/-! ## 4. The end -/

/-- **The carry pass of the end**: all limbs have 26 bits, and the value is kept modulo the prime. The
    last carry cannot leave the second limb full: it takes a carry through all the limbs above it, and
    then that limb has just been emptied. -/
theorem poly1305Carry_spec (hh : Carried h) :
    (poly1305Carry h).Below 26 ∧ (poly1305Carry h).value ≡ h.value [MOD Rfc.prime] := by
  obtain ⟨h0, h1, h2, h3, h4⟩ := hh
  unfold poly1305Carry Limbs.Below
  simp only [and26, shift26, Limbs.value]
  generalize h.l0 = x0 at *
  generalize h.l1 = x1 at *
  generalize h.l2 = x2 at *
  generalize h.l3 = x3 at *
  generalize h.l4 = x4 at *
  have e2 : (x2 + x1 / 2 ^ 26) % 2 ^ 32 = x2 + x1 / 2 ^ 26 := mod_eq_of_lt (by omega)
  have e3 : (x3 + (x2 + x1 / 2 ^ 26) / 2 ^ 26) % 2 ^ 32 = x3 + (x2 + x1 / 2 ^ 26) / 2 ^ 26 :=
    mod_eq_of_lt (by omega)
  simp only [e2, e3]
  generalize hc2 : (x2 + x1 / 2 ^ 26) / 2 ^ 26 = c2 at *
  generalize hc3 : (x3 + c2) / 2 ^ 26 = c3 at *
  have e4 : (x4 + c3) % 2 ^ 32 = x4 + c3 := mod_eq_of_lt (by omega)
  simp only [e4]
  generalize hc4 : (x4 + c3) / 2 ^ 26 = c4 at *
  have e0 : (x0 + c4 * 5 % 2 ^ 32) % 2 ^ 32 = x0 + c4 * 5 := by omega
  simp only [e0]
  have e1 : (x1 % 2 ^ 26 + (x0 + c4 * 5) / 2 ^ 26) % 2 ^ 32 = x1 % 2 ^ 26 + (x0 + c4 * 5) / 2 ^ 26 :=
    mod_eq_of_lt (by omega)
  simp only [e1]
  have hl1 : x1 % 2 ^ 26 + (x0 + c4 * 5) / 2 ^ 26 < 2 ^ 26 := by
    by_cases hx : x1 < 2 ^ 26
    · omega
    · omega
  refine ⟨⟨by omega, hl1, by omega, by omega, by omega⟩, ?_⟩
  have hv : x0 + x1 * 2 ^ 26 + x2 * 2 ^ 52 + x3 * 2 ^ 78 + x4 * 2 ^ 104 =
      (x0 + c4 * 5) % 2 ^ 26 + (x1 % 2 ^ 26 + (x0 + c4 * 5) / 2 ^ 26) * 2 ^ 26 +
        (x2 + x1 / 2 ^ 26) % 2 ^ 26 * 2 ^ 52 + (x3 + c2) % 2 ^ 26 * 2 ^ 78 + (x4 + c3) % 2 ^ 26 * 2 ^ 104 +
        c4 * Rfc.prime := by
    rw [prime_eq]
    omega
  rw [hv]
  simp [Nat.ModEq]

theorem poly1305PlusFive_spec (hh : h.Below 26) :
    (poly1305PlusFive h).l0 < 2 ^ 26 ∧ (poly1305PlusFive h).l1 < 2 ^ 26 ∧
    (poly1305PlusFive h).l2 < 2 ^ 26 ∧ (poly1305PlusFive h).l3 < 2 ^ 26 ∧
    (poly1305PlusFive h).l4 ≤ 2 ^ 26 ∧ (poly1305PlusFive h).value = h.value + 5 := by
  obtain ⟨h0, h1, h2, h3, h4⟩ := hh
  unfold poly1305PlusFive
  simp only [and26, shift26, Limbs.value]
  generalize h.l0 = x0 at *
  generalize h.l1 = x1 at *
  generalize h.l2 = x2 at *
  generalize h.l3 = x3 at *
  generalize h.l4 = x4 at *
  omega

theorem select_eq {x y b : Nat} (hx : x < 2 ^ 32) (hy : y < 2 ^ 32) (hb : b ≤ 1) :
    x &&& (0xFFFFFFFF ^^^ (2 ^ 32 - b) % 2 ^ 32) ||| y &&& (2 ^ 32 - b) % 2 ^ 32 = if b = 1 then y else x := by
  have hones : ∀ {z : Nat}, z < 2 ^ 32 → z &&& 4294967295 = z := fun hz => by
    rw [show (4294967295 : Nat) = 2 ^ 32 - 1 from rfl, and_two_pow_sub_one_eq_mod, mod_eq_of_lt hz]
  obtain rfl | rfl : b = 0 ∨ b = 1 := by omega
  · simp [hones hx]
  · simp [hones hy]

/-- **The conditional subtraction**: the selected limbs hold the reduced value, up to the bit above
    the top limb. -/
theorem poly1305Select_spec (hh : h.Below 26) :
    ∃ z : Limbs, poly1305Select h (poly1305PlusFive h) = z ∧ z.l0 < 2 ^ 26 ∧ z.l1 < 2 ^ 26 ∧
      z.l2 < 2 ^ 26 ∧ z.l3 < 2 ^ 26 ∧ z.value % 2 ^ 130 = h.value % Rfc.prime := by
  obtain ⟨g0, g1, g2, g3, g4, hg⟩ := poly1305PlusFive_spec hh
  obtain ⟨h0, h1, h2, h3, h4⟩ := hh
  unfold poly1305Select
  generalize poly1305PlusFive h = g at *
  have hb : g.l4 >>> 26 ≤ 1 := by
    rw [shift26]
    omega
  simp only [select_eq (h0.trans (by decide)) (g0.trans (by decide)) hb,
    select_eq (h1.trans (by decide)) (g1.trans (by decide)) hb,
    select_eq (h2.trans (by decide)) (g2.trans (by decide)) hb,
    select_eq (h3.trans (by decide)) (g3.trans (by decide)) hb,
    select_eq (h4.trans (by decide)) (g4.trans_lt (by decide)) hb]
  have hlt : h.value < 2 ^ 130 := by
    unfold Limbs.value
    omega
  by_cases hov : g.l4 >>> 26 = 1
  · simp only [if_pos hov]
    refine ⟨g, rfl, g0, g1, g2, g3, ?_⟩
    have hge : 2 ^ 130 ≤ g.value := by
      rw [shift26] at hov
      unfold Limbs.value
      omega
    rw [hg, mod_eq_sub_mod (hg ▸ hge), mod_eq_of_lt (by omega), mod_eq_sub_mod (by
      rw [prime_eq]; omega), mod_eq_of_lt (by rw [prime_eq]; omega), prime_eq]
    omega
  · simp only [if_neg hov]
    refine ⟨h, rfl, h0, h1, h2, h3, ?_⟩
    have hge : g.value < 2 ^ 130 := by
      rw [shift26] at hov hb
      unfold Limbs.value
      omega
    rw [mod_eq_of_lt hlt, mod_eq_of_lt (by rw [prime_eq]; omega)]

theorem storeU32Le_eq (v : Nat) : storeU32Le v = Rfc.leBytes 4 v := by
  have hbyte : ∀ x : Nat, UInt8.ofNat (x &&& 0xFF) = UInt8.ofNat x := fun x => by
    rw [show (0xFF : Nat) = 2 ^ 8 - 1 from rfl, Nat.and_two_pow_sub_one_eq_mod]
    exact UInt8.toNat_inj.mp (by rw [UInt8.toNat_ofNat', UInt8.toNat_ofNat', Nat.mod_mod])
  simp only [storeU32Le, hbyte, Nat.shiftRight_eq_div_pow]
  show [_, _, _, _] = [UInt8.ofNat (v / 256 ^ 0), _, _, _]
  rw [pow_zero, Nat.div_one]
  rfl

theorem leBytes_add (a b v : Nat) : Rfc.leBytes (a + b) v = Rfc.leBytes a v ++ Rfc.leBytes b (v / 256 ^ a) := by
  unfold Rfc.leBytes
  rw [List.range_add, List.map_append, List.map_map]
  congr 1
  grind [List.map_congr_left, Nat.div_div_eq_div_mul]

theorem leBytes_mod (n v : Nat) : Rfc.leBytes n (v % 256 ^ n) = Rfc.leBytes n v := by
  refine List.map_congr_left fun i hi => ?_
  have hi := List.mem_range.mp hi
  refine UInt8.toNat_inj.mp ?_
  rw [UInt8.toNat_ofNat', UInt8.toNat_ofNat', show n = i + (n - 1 - i + 1) by omega, pow_add,
    mod_mul_right_div_self, pow_succ]
  exact mod_mul_left_mod _ _ _

theorem storeU64Le_eq (v : Nat) : storeU64Le v = Rfc.leBytes 8 v := by
  have hand : ∀ x : Nat, x &&& 0xFFFFFFFF = x % 256 ^ 4 := fun x => and_two_pow_sub_one_eq_mod x 32
  rw [storeU64Le, storeU32Le_eq, storeU32Le_eq, hand, hand, shiftRight_eq_div_pow]
  rw [leBytes_add 4 4, ← leBytes_mod 4 v, ← leBytes_mod 4 (v / 256 ^ 4)]
  rfl

theorem addWords {A S : Nat} (hA : A < 2 ^ 64) (hS : S < 2 ^ 64) (B T k : Nat) :
    Rfc.leBytes 8 ((A + S) % 2 ^ 64) ++
        Rfc.leBytes 8 ((B + T + if (A + S) % 2 ^ 64 < S then 1 else 0) % 2 ^ 64) =
      Rfc.leBytes 16 ((A + B * 2 ^ 64 + k * 2 ^ 128 + (S + T * 2 ^ 64)) % 2 ^ 128) := by
  have hcarry : (if (A + S) % 2 ^ 64 < S then 1 else 0) = (A + S) / 2 ^ 64 := by
    split <;> omega
  have hx : A + B * 2 ^ 64 + k * 2 ^ 128 + (S + T * 2 ^ 64) = A + S + (B + T + k * 2 ^ 64) * 256 ^ 8 := by
    ring
  rw [hcarry, show (2 ^ 64 : Nat) = 256 ^ 8 by norm_num, show (2 ^ 128 : Nat) = 256 ^ 16 by norm_num,
    leBytes_mod, leBytes_mod, leBytes_mod]
  rw [show (2 ^ 64 : Nat) = 256 ^ 8 by norm_num, show (2 ^ 128 : Nat) = 256 ^ 16 by norm_num] at hx
  rw [hx, leBytes_add 8 8, ← leBytes_mod 8 (A + S + _), add_mul_mod_self_right, leBytes_mod,
    add_mul_div_right _ _ (by norm_num), ← leBytes_mod 8 (_ + (B + T + _)), ← add_assoc,
    add_mul_mod_self_right, leBytes_mod, add_comm (B + T)]

/-- **Limbs of 26 bits joined by OR**, and `s` added. -/
theorem poly1305Tag_eq {z : Limbs} {s : Nat → Nat} (h0 : z.l0 < 2 ^ 26) (h1 : z.l1 < 2 ^ 26)
    (h2 : z.l2 < 2 ^ 26) (h3 : z.l3 < 2 ^ 26) (hs : ∀ i, s i < 2 ^ 32) : poly1305Tag z s = Rfc.leBytes 16
      ((z.value + (s 0 + s 1 * 2 ^ 32 + s 2 * 2 ^ 64 + s 3 * 2 ^ 96)) % 2 ^ 128) := by
  have s0 := hs 0
  have s1 := hs 1
  have s2 := hs 2
  have s3 := hs 3
  have e1 : (z.l1 <<< 26) % 2 ^ 64 = z.l1 <<< 26 := mod_eq_of_lt (by rw [shiftLeft_eq]; omega)
  have e2 : (z.l2 <<< 52) % 2 ^ 64 = (z.l2 % 2 ^ 12) <<< 52 := by
    rw [shiftLeft_eq, shiftLeft_eq]
    omega
  have e3 : (z.l3 <<< 14) % 2 ^ 64 = z.l3 <<< 14 := mod_eq_of_lt (by rw [shiftLeft_eq]; omega)
  have e4 : (z.l4 <<< 40) % 2 ^ 64 = (z.l4 % 2 ^ 24) <<< 40 := by
    rw [shiftLeft_eq, shiftLeft_eq]
    omega
  have f1 : (s 1 <<< 32) % 2 ^ 64 = s 1 <<< 32 := mod_eq_of_lt (by rw [shiftLeft_eq]; omega)
  have f3 : (s 3 <<< 32) % 2 ^ 64 = s 3 <<< 32 := mod_eq_of_lt (by rw [shiftLeft_eq]; omega)
  have g2 : z.l2 >>> 12 = z.l2 / 2 ^ 12 := shiftRight_eq_div_pow _ 12
  unfold poly1305Tag
  simp only [e1, e2, e3, e4, f1, f3, g2, storeU64Le_eq]
  rw [or_shift h0, or_shift (show z.l0 + z.l1 * 2 ^ 26 < 2 ^ 52 by omega),
    or_shift (show z.l2 / 2 ^ 12 < 2 ^ 14 by omega),
    or_shift (show z.l2 / 2 ^ 12 + z.l3 * 2 ^ 14 < 2 ^ 40 by omega), or_shift s0, or_shift s2]
  generalize hA : z.l0 + z.l1 * 2 ^ 26 + z.l2 % 2 ^ 12 * 2 ^ 52 = A
  generalize hB : z.l2 / 2 ^ 12 + z.l3 * 2 ^ 14 + z.l4 % 2 ^ 24 * 2 ^ 40 = B
  have hval : z.value = A + B * 2 ^ 64 + z.l4 / 2 ^ 24 * 2 ^ 128 := by
    unfold Limbs.value
    omega
  have hA' : A < 2 ^ 64 := by omega
  have hS : s 0 + s 1 * 2 ^ 32 < 2 ^ 64 := by omega
  rw [hval, show s 0 + s 1 * 2 ^ 32 + s 2 * 2 ^ 64 + s 3 * 2 ^ 96 =
    s 0 + s 1 * 2 ^ 32 + (s 2 + s 3 * 2 ^ 32) * 2 ^ 64 by omega]
  exact addWords hA' hS _ _ _

/-! ## 5. The stream -/

theorem and_bytes {b d x y : Nat} (hb : b < 256) (hd : d < 256) :
    (b + 256 * x) &&& (d + 256 * y) = (b &&& d) + 256 * (x &&& y) := by
  refine eq_of_testBit_eq fun j => ?_
  have hbd : b &&& d < 2 ^ 8 := and_lt_two_pow b hd
  rw [testBit_and, add_comm b, add_comm d, add_comm (b &&& d),
    testBit_two_pow_mul_add x (i := 8) hb, testBit_two_pow_mul_add y (i := 8) hd,
    testBit_two_pow_mul_add (x &&& y) (i := 8) hbd]
  grind

theorem leNat_zipWith_and (l m : Text) :
    Rfc.leNat (List.zipWith (· &&& ·) l m) = Rfc.leNat l &&& Rfc.leNat m := by
  induction l generalizing m with
  | nil => simp [Rfc.leNat]
  | cons b l ih =>
    cases m with
    | nil => simp [Rfc.leNat]
    | cons d m =>
      rw [List.zipWith_cons_cons, Rfc.leNat, Rfc.leNat, Rfc.leNat, and_bytes b.toNat_lt d.toNat_lt, ih,
        UInt8.toNat_and]

theorem leNat_clamp {l : Text} (h : l.length ≤ 16) :
    Rfc.leNat (poly1305ClampR l) = Rfc.leNat l &&& 0x0ffffffc0ffffffc0ffffffc0fffffff := by
  have hmask : Rfc.leNat ((List.range 16).map poly1305ClampMask) = 0x0ffffffc0ffffffc0ffffffc0fffffff := by
    decide
  have hzip : poly1305ClampR l = List.zipWith (· &&& ·) l ((List.range 16).map poly1305ClampMask) := by
    refine List.ext_getElem (by simp [poly1305ClampR, h]) fun i h1 h2 => ?_
    simp [poly1305ClampR]
  rw [hzip, leNat_zipWith_and, hmask]

theorem poly1305R_spec (key : Text) : (cryptoPoly1305Init key).r.Below 26 ∧
    (cryptoPoly1305Init key).r.value = Rfc.keyR key ∧
    (cryptoPoly1305Init key).rr = (cryptoPoly1305Init key).r.times5 := by
  have hlen : (key.take 16).length ≤ 16 := List.length_take_le ..
  have hlen' : (poly1305ClampR (key.take 16)).length ≤ 16 := by
    rw [poly1305ClampR, List.length_mapIdx]
    exact hlen
  obtain ⟨h0, h1, h2, h3, h4, hv⟩ := limbsOf_spec hlen' fun c => c &&& 0x3FFFFFF
  have hc := loadU32Le_lt (poly1305ClampR (key.take 16)) 12
  simp only [and26] at h4 hv
  have hr : (cryptoPoly1305Init key).r = limbsOf (poly1305ClampR (key.take 16)) fun c => c &&& 0x3FFFFFF := rfl
  simp only [and26] at h0 h1 h2 h3 hr
  have hb : (cryptoPoly1305Init key).r.Below 26 := by
    rw [hr]
    exact ⟨h0, h1, h2, h3, by omega⟩
  refine ⟨hb, ?_, ?_⟩
  · rw [hr, Rfc.keyR, ← leNat_clamp hlen]
    omega
  · obtain ⟨b0, b1, b2, b3, b4⟩ := hb
    have h5 : ∀ {x : Nat}, x < 2 ^ 26 → x * 5 % 2 ^ 32 = x * 5 := fun _ => mod_eq_of_lt (by omega)
    rw [Limbs.times5, ← h5 b0, ← h5 b1, ← h5 b2, ← h5 b3, ← h5 b4]
    rfl

theorem carried_zero : Carried .zero := ⟨by decide, by decide, by decide, by decide, by decide⟩

section Stream

variable {r : Limbs} (hr : r.Below 26) (m : Text)

/-- The polynomial over the first `n` blocks. -/
def polyUpTo (R : Nat) (m : Text) (n : Nat) : Nat :=
  ∑ i ∈ range n, Rfc.block m i * R ^ (n - i)

theorem polyUpTo_succ (R n : Nat) : polyUpTo R m (n + 1) = (polyUpTo R m n + Rfc.block m n) * R := by
  unfold polyUpTo
  rw [sum_range_succ, Nat.add_sub_cancel_left, pow_one, Nat.add_mul, sum_mul]
  congr 1
  refine sum_congr rfl fun i hi => ?_
  have := mem_range.mp hi
  rw [Nat.mul_assoc, ← Nat.pow_succ, show n + 1 - i = (n - i).succ by omega]

include hr in
theorem foldl_blocks (n : Nat) (hn : n ≤ m.length / 16) : Carried ((List.range n).foldl
      (fun h i => poly1305Block r r.times5 1 h ((m.drop (16 * i)).take 16)) .zero) ∧ ((List.range n).foldl
      (fun h i => poly1305Block r r.times5 1 h ((m.drop (16 * i)).take 16)) .zero).value ≡
        polyUpTo r.value m n [MOD Rfc.prime] := by
  induction n with
  | zero =>
    have h0 : Limbs.zero.value = polyUpTo r.value m 0 := by simp [Limbs.value, Limbs.zero, polyUpTo]
    exact ⟨carried_zero, by rw [List.range_zero, List.foldl_nil, h0]⟩
  | succ n ih =>
    obtain ⟨hc, hv⟩ := ih (by omega)
    rw [List.range_succ, List.foldl_append, List.foldl_cons, List.foldl_nil]
    have hlen : ((m.drop (16 * n)).take 16).length = 16 := by
      rw [List.length_take, List.length_drop]
      omega
    obtain ⟨hc', hv'⟩ := poly1305Block_spec hc hr (le_refl 1) hlen.le
    refine ⟨hc', hv'.trans ?_⟩
    rw [polyUpTo_succ]
    refine Nat.ModEq.mul_right _ (hv.add ?_)
    rw [Rfc.block, hlen, one_mul]

end Stream

/-- The last block, when it is not full: its bytes, a one, and zeros. -/
theorem leNat_padded (b : Text) (k : Nat) :
    Rfc.leNat (b ++ [0x01] ++ List.replicate k 0) = Rfc.leNat b + 2 ^ (8 * b.length) := by
  have hz : Rfc.leNat (List.replicate k 0) = 0 := by
    induction k with
    | zero => rfl
    | succ k ih => rw [List.replicate_succ, Rfc.leNat, ih]; rfl
  induction b with
  | nil => grind [Rfc.leNat]
  | cons x b ih =>
    show x.toNat + 256 * Rfc.leNat (b ++ [0x01] ++ List.replicate k 0) = _
    rw [ih, Rfc.leNat, List.length_cons, mul_add 8, pow_add]
    omega

/-- What a context holds after a message. -/
structure Absorbed (key m : Text) (ctx : Poly1305Ctx) : Prop where
  r : ctx.r = (cryptoPoly1305Init key).r
  rr : ctx.rr = ctx.r.times5
  s : ctx.s = (cryptoPoly1305Init key).s
  state : ctx.core.state = (feed (poly1305Block ctx.r ctx.rr 1) 16 .zero m).1
  buf : ctx.core.buf = (feed (poly1305Block ctx.r ctx.rr 1) 16 .zero m).2

theorem absorbed_init (key : Text) : Absorbed key [] (cryptoPoly1305Init key) := by
  refine ⟨rfl, (poly1305R_spec key).2.2, rfl, ?_, ?_⟩
  all_goals
    rw [feed_of_lt (by decide)]
    rfl

theorem Absorbed.update (h : Absorbed key m ctx)
    (data : Text) : Absorbed key (m ++ data) (cryptoPoly1305Update ctx data) := by
  have hlt : ctx.core.buf.length < 16 := h.buf ▸ feed_snd_lt (by decide) _ _
  have hcore : (cryptoPoly1305Update ctx data).core =
      { state := (feed (poly1305Block ctx.r ctx.rr 1) 16 .zero (m ++ data)).1
        buf := (feed (poly1305Block ctx.r ctx.rr 1) 16 .zero (m ++ data)).2 } := by
    rw [feed_append (by decide), ← h.state, ← h.buf]
    exact Buffered.update_eq (by decide) hlt data
  exact ⟨h.r, h.rr, h.s, congrArg Buffered.state hcore, congrArg Buffered.buf hcore⟩

theorem Absorbed.foldl (h : Absorbed key m ctx) (pieces : List Text) :
    Absorbed key (m ++ pieces.flatten) (pieces.foldl cryptoPoly1305Update ctx) := by
  induction pieces generalizing ctx m with
  | nil => rwa [List.flatten_nil, List.append_nil]
  | cons p ps ih => grind [h.update]

/-- **The whole polynomial**: the full blocks, and the partial one `crypto_poly1305_final` adds. -/
theorem Absorbed.poly (h : Absorbed key m ctx) : ∃ z, z = (if ctx.core.buf.length > 0 then
        poly1305Block ctx.r ctx.rr 0 ctx.core.state
          (ctx.core.buf ++ [0x01] ++ List.replicate (16 - ctx.core.buf.length - 1) 0)
      else ctx.core.state) ∧ Carried z ∧ z.value % Rfc.prime = Rfc.poly key m := by
  obtain ⟨hb, hR, -⟩ := poly1305R_spec key
  rw [← h.r] at hb hR
  obtain ⟨hc, hv⟩ := foldl_blocks hb m (m.length / 16) le_rfl
  rw [← h.rr, ← feed_eq_foldl (by decide), ← h.state, hR] at hv
  rw [← h.rr, ← feed_eq_foldl (by decide), ← h.state] at hc
  have hbuf : ctx.core.buf = m.drop (16 * (m.length / 16)) := h.buf.trans (feed_snd_eq (by decide) _ _)
  have hlen : ctx.core.buf.length = m.length % 16 := by
    rw [hbuf, List.length_drop]
    omega
  refine ⟨_, rfl, ?_⟩
  by_cases h0 : ctx.core.buf.length > 0
  · rw [if_pos h0]
    have hq : Rfc.blocks m = m.length / 16 + 1 := by
      unfold Rfc.blocks
      omega
    rw [h.rr]
    obtain ⟨hc', hv'⟩ := poly1305Block_spec hc hb (zero_le 1) (show
      (ctx.core.buf ++ [0x01] ++ List.replicate (16 - ctx.core.buf.length - 1) 0).length ≤ 16 by
        simp only [List.length_append, List.length_replicate, List.length_singleton]
        omega)
    refine ⟨hc', ?_⟩
    have hblock : Rfc.block m (m.length / 16) = Rfc.leNat ctx.core.buf + 2 ^ (8 * ctx.core.buf.length) := by
      rw [Rfc.block, ← hbuf, List.take_of_length_le (by omega)]
    show _ = polyUpTo (Rfc.keyR key) m (Rfc.blocks m) % Rfc.prime
    rw [hq, polyUpTo_succ, hblock, ← leNat_padded _ (16 - ctx.core.buf.length - 1)]
    refine hv'.trans ?_
    rw [hR, zero_mul, add_zero]
    exact Nat.ModEq.mul_right _ (hv.add_right _)
  · rw [if_neg h0]
    have hq : Rfc.blocks m = m.length / 16 := by
      unfold Rfc.blocks
      omega
    refine ⟨hc, hv.trans ?_⟩
    rw [← hq]
    rfl

theorem keyS_eq (key : Text) : Rfc.keyS key = loadU32Le key 16 + loadU32Le key 20 * 2 ^ 32 +
    loadU32Le key 24 * 2 ^ 64 + loadU32Le key 28 * 2 ^ 96 := by grind [Rfc.keyS, leNat_words, loadU32Le_slice]

theorem Absorbed.final (h : Absorbed key m ctx) : cryptoPoly1305Final ctx = Rfc.poly1305 key m := by
  obtain ⟨z, hz, hcarried, hpoly⟩ := h.poly
  obtain ⟨hbelow, hmod⟩ := poly1305Carry_spec hcarried
  obtain ⟨w, hw, w0, w1, w2, w3, hval⟩ := poly1305Select_spec hbelow
  rw [hmod, hpoly] at hval
  unfold cryptoPoly1305Final
  simp only [← hz, hw, h.s]
  rw [poly1305Tag_eq w0 w1 w2 w3 (show ∀ i, (cryptoPoly1305Init key).s i < 2 ^ 32 from fun i =>
    loadU32Le_lt key _)]
  show Rfc.leBytes 16 ((w.value + (loadU32Le key 16 + loadU32Le key 20 * 2 ^ 32 +
    loadU32Le key 24 * 2 ^ 64 + loadU32Le key 28 * 2 ^ 96)) % 2 ^ 128) = _
  rw [← keyS_eq, Rfc.poly1305, ← hval]
  congr 1
  omega

/-- **Poly1305 in pieces**: for every key, every message and every cut of it into pieces, the tag is
    that of the polynomial over the whole message. -/
theorem poly1305_streaming (key : Text) (pieces : List Text) :
    cryptoPoly1305Final (pieces.foldl cryptoPoly1305Update (cryptoPoly1305Init key)) =
      Rfc.poly1305 key pieces.flatten :=
  ((absorbed_init key).foldl pieces).final

end Kobalt.Net

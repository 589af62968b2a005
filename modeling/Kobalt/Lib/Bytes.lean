/-
  Subject: BYTES AND LITTLE-ENDIAN WORDS. A byte store is a function from addresses to bytes; every
  write a C program makes to it (a field, `memset`, `memcpy`) fills one range.
-/
import Mathlib.Data.Nat.Basic
import Mathlib.Tactic.Ring

namespace Kobalt

variable {a n : Nat} {f : Nat → UInt8}

/-- A byte store: what each address holds. -/
abbrev Bytes := Nat → UInt8

/-- A string of bytes. -/
abbrev Text := List UInt8

/-- A MAC over a string, if there is one. -/
abbrev Mac := Option (Text → UInt64)

variable {m : Bytes}

/-- The store in which every byte is zero. -/
def zeroBytes : Bytes := fun _ => 0

/-! ## 1. Filling a range -/

/-- **Replace the range `[a, a + n)`** by the bytes `f 0, …, f (n - 1)`. -/
def fill (m : Bytes) (a n : Nat) (f : Nat → UInt8) : Bytes :=
  fun x => if a ≤ x ∧ x < a + n then f (x - a) else m x

theorem fill_of_mem {x : Nat} (h : a ≤ x) (h' : x < a + n) : fill m a n f x = f (x - a) := if_pos ⟨h, h'⟩

theorem fill_of_not_mem {x : Nat} (h : x < a ∨ a + n ≤ x) : fill m a n f x = m x := if_neg (by omega)

theorem fill_congr {m' : Bytes} {x : Nat} (h : m x = m' x) (a n : Nat) (f : Nat → UInt8) :
    fill m a n f x = fill m' a n f x := by
  unfold fill
  rw [h]

theorem fill_add {i : Nat} (h : i < n) : fill m a n f (a + i) = f i := by
  rw [fill_of_mem (by omega) (by omega)]
  congr 1
  omega

@[simp] theorem fill_zero (m : Bytes) (a : Nat) (f : Nat → UInt8) : fill m a 0 f = m := by
  funext x
  exact fill_of_not_mem (by omega)

theorem fill_ext {g : Nat → UInt8} (h : ∀ i < n, f i = g i) : fill m a n f = fill m a n g := by
  funext x
  grind [fill]

theorem fill_fill {k : Nat} (m : Bytes) (a : Nat) (f : Nat → UInt8) (h : k ≤ n) :
    fill (fill m a k f) (a + k) (n - k) (fun i => f (k + i)) = fill m a n f := by
  funext x
  by_cases h1 : a + k ≤ x ∧ x < a + n
  · rw [fill_of_mem h1.1 (by omega), fill_of_mem (by omega) h1.2]
    exact congrArg f (by omega)
  · rw [fill_of_not_mem (by omega)]
    by_cases h2 : a ≤ x ∧ x < a + k
    · rw [fill_of_mem h2.1 h2.2, fill_of_mem h2.1 (by omega)]
    grind [fill_of_not_mem]

@[simp] theorem fill_idem (m : Bytes) (a n : Nat) (f g : Nat → UInt8) : fill (fill m a n f) a n g = fill m a n g := by
  funext x
  by_cases h : a ≤ x ∧ x < a + n
  · rw [fill_of_mem h.1 h.2, fill_of_mem h.1 h.2]
  grind [fill_of_not_mem]

/-! ## 2. Little-endian numbers -/

/-- **The number held by `n` bytes** from address `a` on, least significant byte first. -/
def leAt (m : Bytes) (a : Nat) : Nat → Nat
  | 0 => 0
  | n + 1 => (m a).toNat + 256 * leAt m (a + 1) n

/-- Byte `i` of the little-endian form of `v`. -/
def leByte (v i : Nat) : UInt8 := UInt8.ofNat (v / 256 ^ i)

/-- Write `v` as `n` little-endian bytes at address `a`. -/
def putLE (m : Bytes) (a n v : Nat) : Bytes := fill m a n (leByte v)

theorem leAt_shift {m' : Bytes} {b : Nat} (h : ∀ i < n, m (a + i) = m' (b + i)) : leAt m a n = leAt m' b n := by
  induction n generalizing a b with
  | zero => rfl
  | succ n ih =>
    have h0 := h 0 (Nat.zero_lt_succ n)
    have hrest : ∀ i < n, m (a + 1 + i) = m' (b + 1 + i) := fun i hi => by grind
    simp only [leAt]
    grind

theorem leAt_congr {m' : Bytes} (h : ∀ x, a ≤ x → x < a + n → m x = m' x) : leAt m a n = leAt m' a n :=
  leAt_shift fun i hi => h (a + i) (Nat.le_add_right a i) (Nat.add_lt_add_left hi a)

theorem leAt_lt (m : Bytes) (a n : Nat) : leAt m a n < 256 ^ n := by
  induction n generalizing a with
  | zero => simp [leAt]
  | succ n ih =>
    have h1 := ih (a + 1)
    have h2 := (m a).toNat_lt
    simp only [leAt, Nat.pow_succ]
    omega

theorem leAt_eq_zero (h : ∀ x, a ≤ x → x < a + n → m x = 0) : leAt m a n = 0 := by
  induction n generalizing a with
  | zero => rfl
  | succ n ih =>
    simp only [leAt]
    rw [h a (by omega) (by omega), ih fun x h1 h2 => h x (by omega) (by omega)]
    rfl

theorem leAt_zeroBytes (a n : Nat) : leAt zeroBytes a n = 0 := leAt_eq_zero fun _ _ _ => rfl

theorem leByte_toNat (v i : Nat) : (leByte v i).toNat = v / 256 ^ i % 256 := rfl

/-- The number whose bytes are the little-endian bytes of `v`, from byte `i` on. -/
theorem leAt_leByte {v i : Nat} (h : ∀ j, j < n → m (a + j) = leByte v (i + j)) :
    leAt m a n = v / 256 ^ i % 256 ^ n := by
  induction n generalizing a i with
  | zero => simp [leAt, Nat.mod_one]
  | succ n ih =>
    have h0 := h 0 (by omega)
    simp only [Nat.add_zero] at h0
    have ih' := ih (a := a + 1) (i := i + 1) fun j hj => by grind
    grind [leAt, leByte_toNat, Nat.mod_mul, Nat.div_div_eq_div_mul]

theorem leByte_leAt {i : Nat} (h : i < n) : leByte (leAt m a n) i = m (a + i) := by
  induction n generalizing a i with
  | zero => omega
  | succ n ih =>
    have hlt := (m a).toNat_lt
    unfold leByte
    cases i with
    | zero =>
      rw [leAt, Nat.pow_zero, Nat.div_one, Nat.add_zero, UInt8.ofNat_add, UInt8.ofNat_mul]
      simp
    | succ i =>
      have hdiv : ((m a).toNat + 256 * leAt m (a + 1) n) / 256 ^ (i + 1) = leAt m (a + 1) n / 256 ^ i := by
        rw [Nat.pow_succ, Nat.mul_comm (256 ^ i), ← Nat.div_div_eq_div_mul]
        congr 1
        omega
      rw [leAt, hdiv, show a + (i + 1) = a + 1 + i by omega]
      exact ih (by omega)

theorem putLE_leAt (m : Bytes) (a n : Nat) : putLE m a n (leAt m a n) = m := by
  funext x
  by_cases h : a ≤ x ∧ x < a + n
  · rw [putLE, fill_of_mem h.1 h.2, leByte_leAt (by omega), Nat.add_sub_cancel' h.1]
  · rw [putLE, fill_of_not_mem (by omega)]

@[simp] theorem putLE_idem (m : Bytes) (a n v w : Nat) : putLE (putLE m a n v) a n w = putLE m a n w := fill_idem ..

/-- **Read back what was written.** -/
theorem leAt_putLE_self {v : Nat} (hv : v < 256 ^ n) : leAt (putLE m a n v) a n = v := by
  rw [leAt_leByte (v := v) (i := 0) fun j hj => by
    rw [putLE, fill_add hj]; simp]
  simp [Nat.mod_eq_of_lt hv]

/-- **A range write elsewhere is not seen.** -/
theorem leAt_fill_of_disjoint {b k : Nat} (h : b + k ≤ a ∨ a + n ≤ b) : leAt (fill m a n f) b k = leAt m b k :=
  leAt_congr fun _ _ _ => fill_of_not_mem (by omega)

/-- **A word written elsewhere is not seen.** -/
theorem leAt_putLE_of_disjoint {b k v : Nat} (h : b + k ≤ a ∨ a + n ≤ b) :
    leAt (putLE m a n v) b k = leAt m b k := leAt_fill_of_disjoint h

/-! ## Words from bytes -/

theorem or_bytes {b c d : Nat} (hb : b < 256) (hc : c < 256) (hd : d < 256) :
    a <<< 24 ||| b <<< 16 ||| c <<< 8 ||| d = ((a * 256 + b) * 256 + c) * 256 + d := by
  grind [Nat.shiftLeft_add_eq_or_of_lt, Nat.shiftLeft_eq]

theorem byte_shiftLeft_toNat (x : UInt8) {k : Nat} (hk : k ≤ 24) :
    (x.toUInt32 <<< UInt32.ofNat k).toNat = x.toNat <<< k := by
  have hx := x.toNat_lt
  have hm : (UInt32.ofNat k).toNat % 32 = k := by
    rw [UInt32.toNat_ofNat_of_lt' (Nat.lt_of_le_of_lt hk (by decide))]
    omega
  rw [UInt32.toNat_shiftLeft, hm, UInt8.toNat_toUInt32, Nat.shiftLeft_eq]
  refine Nat.mod_eq_of_lt (Nat.lt_of_le_of_lt (Nat.mul_le_mul (Nat.le_of_lt_succ hx)
    (Nat.pow_le_pow_right (by decide) hk)) (by decide))

theorem word_of_bytes (a b c d : UInt8) :
    (a.toUInt32 <<< 24 ||| b.toUInt32 <<< 16 ||| c.toUInt32 <<< 8 ||| d.toUInt32).toNat =
      ((a.toNat * 256 + b.toNat) * 256 + c.toNat) * 256 + d.toNat := by
  rw [← or_bytes b.toNat_lt c.toNat_lt d.toNat_lt]
  simp only [UInt32.toNat_or, UInt8.toNat_toUInt32]
  rw [← byte_shiftLeft_toNat a (show 24 ≤ 24 by decide), ← byte_shiftLeft_toNat b (show 16 ≤ 24 by decide),
    ← byte_shiftLeft_toNat c (show 8 ≤ 24 by decide)]
  rfl

theorem byte_of_word (v k : UInt32) :
    ((v >>> k) &&& 0xFF).toUInt8.toNat = v.toNat / 2 ^ (k.toNat % 32) % 256 := by
  simp only [UInt32.toNat_toUInt8, UInt32.toNat_and, UInt32.toNat_shiftRight]
  rw [Nat.shiftRight_eq_div_pow, show (255 : UInt32).toNat = 2 ^ 8 - 1 from rfl,
    Nat.and_two_pow_sub_one_eq_mod]
  omega

end Kobalt

/-
  Subject: THE CLOCK of `kern/hrtimer.c`: nanoseconds from the time stamp counter. The product is
  formed in 64 bits before it is divided, so the clock falls back each time the product wraps.
-/
import Mathlib.Algebra.Order.Ring.Nat

namespace Kobalt.Kern

/-- `hrtimer_now`, which is also `ktime_get_ns`, where `rdtsc` gives `tsc`. -/
def hrtimerNow (tscKhz tsc : Nat) : Nat :=
  if tscKhz = 0 then 0 else tsc * 1000000 % 2 ^ 64 / tscKhz

/-- The nanoseconds of a counter value, as a number without a width. -/
def trueNs (tscKhz tsc : Nat) : Nat := tsc * 1000000 / tscKhz

/-- How often the product has wrapped. -/
def tscWraps (tsc : Nat) : Nat := tsc * 1000000 / 2 ^ 64

/-- **What a clock owes two readings**: it does not go back, and it shows the time that went by
    with an error of less than a nanosecond (both sides are multiplied by the frequency). -/
structure TellsTime (now : Nat → Nat) (tscKhz t1 t2 : Nat) : Prop where
  mono : now t1 ≤ now t2
  notAhead : (now t2 - now t1) * tscKhz < (t2 - t1) * 1000000 + tscKhz
  notBehind : (t2 - t1) * 1000000 < (now t2 - now t1) * tscKhz + tscKhz

section Clock

variable {khz : Nat} (hk : 0 < khz)
include hk

/-- The quotient in terms of the product: the bounds every statement below rests on. -/
theorem hrtimerNow_bounds (t : Nat) : hrtimerNow khz t * khz ≤ t * 1000000 % 2 ^ 64 ∧
    t * 1000000 % 2 ^ 64 < hrtimerNow khz t * khz + khz := by
  rw [hrtimerNow, if_neg (Nat.ne_of_gt hk)]
  exact ⟨Nat.div_mul_le_self _ _, Nat.lt_div_mul_add hk⟩

variable {t1 t2 : Nat} (h : t1 ≤ t2)
include h

theorem tellsTime_of_wraps (hw : tscWraps t1 = tscWraps t2) : TellsTime (hrtimerNow khz) khz t1 t2 := by
  obtain ⟨hl1, hu1⟩ := hrtimerNow_bounds hk t1
  obtain ⟨hl2, hu2⟩ := hrtimerNow_bounds hk t2
  unfold tscWraps at hw
  have hmono : hrtimerNow khz t1 ≤ hrtimerNow khz t2 := by
    rw [hrtimerNow, hrtimerNow, if_neg (Nat.ne_of_gt hk), if_neg (Nat.ne_of_gt hk)]
    exact Nat.div_le_div_right (by omega)
  have hsub := Nat.sub_mul (hrtimerNow khz t2) (hrtimerNow khz t1) khz
  have hle := Nat.mul_le_mul_right khz hmono
  exact ⟨hmono, by omega, by omega⟩

/-- One wrap between the readings loses `2 ^ 64` of the product, which is two units or more. -/
theorem wraps_of_tellsTime (hmax : khz ≤ 2 ^ 63) (ht : TellsTime (hrtimerNow khz) khz t1 t2) :
    tscWraps t1 = tscWraps t2 := by
  obtain ⟨hl1, hu1⟩ := hrtimerNow_bounds hk t1
  obtain ⟨hl2, hu2⟩ := hrtimerNow_bounds hk t2
  have hsub := Nat.sub_mul (hrtimerNow khz t2) (hrtimerNow khz t1) khz
  have hle := Nat.mul_le_mul_right khz ht.mono
  have hbehind := ht.notBehind
  unfold tscWraps
  omega

/-- **The clock tells the time between two readings exactly when the product has wrapped equally
    often at both.** Only a frequency above `2 ^ 63` kHz, whose nanosecond is wider than half the
    range, could hide a wrap. -/
theorem hrtimer_tells_time_iff : (tscWraps t1 = tscWraps t2 → TellsTime (hrtimerNow khz) khz t1 t2) ∧
    (khz ≤ 2 ^ 63 → TellsTime (hrtimerNow khz) khz t1 t2 → tscWraps t1 = tscWraps t2) :=
  ⟨tellsTime_of_wraps hk h, wraps_of_tellsTime hk h⟩

end Clock

/-- A 3 GHz counter after an hour and after an hour and a second. -/
theorem hrtimer_tells_time_hour : TellsTime (hrtimerNow 3000000) 3000000 10800000000000 10803000000000 :=
  (hrtimer_tells_time_iff (by decide) (by decide)).1 (by decide)

/-- **A 3 GHz counter falls back to zero after an hour and 42 minutes**, at a time of 43 bits. -/
theorem hrtimer_falls_back : trueNs 3000000 18446744073710 < 2 ^ 43 ∧
    hrtimerNow 3000000 18446744073709 = 6148914691236 ∧ hrtimerNow 3000000 18446744073710 = 0 := by
  decide

end Kobalt.Kern

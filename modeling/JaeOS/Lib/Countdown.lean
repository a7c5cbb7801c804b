import Mathlib.Data.BitVec

/-!
# A countdown on a wrapping clock

A clock is read modulo `2 ^ w`, and a counter of what is left of a period is reduced by the
difference of two readings.  An underflow shows as a result above the period, as long as the
readings are close enough: the counter then stops at 0.
-/

namespace Countdown

variable {w : ℕ} {period left elapsed : BitVec w} {u t : ℕ}

/-- What is left after `elapsed`. -/
def run (period left elapsed : BitVec w) : BitVec w :=
  if left - elapsed > period then 0 else left - elapsed

/-- The period is over after `elapsed`. -/
def Over (period left elapsed : BitVec w) : Prop := left = elapsed ∨ left - elapsed > period

theorem toNat_sub_ofNat (hut : u ≤ t) (h : t - u < 2 ^ w) :
    (BitVec.ofNat w t - BitVec.ofNat w u).toNat = t - u := by
  obtain ⟨d, rfl⟩ := Nat.exists_eq_add_of_le hut
  rw [Nat.add_sub_cancel_left] at h ⊢
  rw [BitVec.ofNat_add, add_sub_cancel_left, BitVec.toNat_ofNat, Nat.mod_eq_of_lt h]

section Close

variable (hl : left ≤ period) (he : elapsed.toNat + period.toNat < 2 ^ w)
include hl he

/-- An underflow gives a result above the period. -/
theorem lt_sub_iff : period < left - elapsed ↔ left.toNat < elapsed.toNat := by
  have hlp : left.toNat ≤ period.toNat := hl
  have hlt := left.isLt
  have hsub := BitVec.toNat_sub left elapsed
  rw [BitVec.lt_def]
  by_cases h : left.toNat < elapsed.toNat
  · have hmod : (2 ^ w - elapsed.toNat + left.toNat) % 2 ^ w = 2 ^ w - elapsed.toNat + left.toNat :=
      Nat.mod_eq_of_lt (by omega)
    omega
  · have hle : elapsed ≤ left := Nat.le_of_not_lt h
    rw [BitVec.toNat_sub_of_le hle]
    omega

/-- **The countdown is exact**, and stops at 0. -/
theorem toNat_run : (run period left elapsed).toNat = left.toNat - elapsed.toNat := by
  rw [run]
  by_cases h : left.toNat < elapsed.toNat
  · rw [if_pos ((lt_sub_iff hl he).mpr h), Nat.sub_eq_zero_of_le h.le]
    rfl
  · rw [if_neg (fun hover => h ((lt_sub_iff hl he).mp hover)),
      BitVec.toNat_sub_of_le (Nat.le_of_not_lt h)]

/-- **The end is seen exactly when it has come.** -/
theorem over_iff : Over period left elapsed ↔ left.toNat ≤ elapsed.toNat := by
  rw [Over, gt_iff_lt, lt_sub_iff hl he, ← BitVec.toNat_inj]
  omega

end Close

end Countdown

import Mathlib.Data.Nat.ModEq
import Mathlib.Data.UInt

/-! A free-running counter of modulus `M` shows true time `t` as `t % M`. Two readings are compared
    in two ways by programs: by their *distance* (an unsigned difference, itself taken mod `M`) and
    *directly* (`<` on the readings).

    The distance of two readings is the true distance mod `M`: never more than the truth, and equal
    to it below `M`. The direct comparison is right exactly when no wrap lies between the two
    times, that is when both have the same *epoch* `t / M`. -/

namespace Schemes.Clock

/-- Unsigned difference of two readings `a`, `b` of a counter of modulus `M`. -/
def dist (M a b : ℕ) : ℕ := (M - b + a) % M

/-- Readings of two true times: their distance is the true one, mod `M`. -/
theorem dist_mod {M : ℕ} (hM : 0 < M) {t u : ℕ} (h : u ≤ t) :
    dist M (t % M) (u % M) = (t - u) % M := by
  have hu : u % M < M := Nat.mod_lt u hM
  have hback : t - u + (M - u % M + u) = t + (M - u % M) := by omega
  have hwhole : M - u % M + u = M * (u / M + 1) := by
    have hdiv := Nat.div_add_mod u M
    rw [Nat.mul_add, Nat.mul_one]; omega
  calc (M - u % M + t % M) % M = (t + (M - u % M)) % M := by
        rw [Nat.add_comm, Nat.mod_add_mod]
    _ = (t - u + M * (u / M + 1)) % M := by rw [← hwhole, hback]
    _ = (t - u) % M := Nat.add_mul_mod_self_left ..

/-- In one epoch the direct comparison of the readings is the comparison of the times. -/
theorem mod_lt_mod_iff {M t d : ℕ} (h : t / M = d / M) : t % M < d % M ↔ t < d := by
  have ht := Nat.div_add_mod t M
  have hd := Nat.div_add_mod d M
  rw [h] at ht; omega

/-- A later epoch starts at least a turn later. -/
theorem epoch_succ_le {M t u : ℕ} (h : t / M < u / M) : M * (t / M) + M ≤ M * (u / M) :=
  Nat.mul_le_mul_left M h

/-- A time before a deadline at most half a turn ahead, with a wrap in between, reads as late. -/
theorem mod_le_mod_of_wrap {M t d : ℕ} (hlt : t < d) (hnear : d ≤ t + M / 2)
    (hwrap : t / M ≠ d / M) : d % M ≤ t % M := by
  have ht := Nat.div_add_mod t M
  have hd := Nat.div_add_mod d M
  have hepoch := epoch_succ_le (lt_of_le_of_ne (Nat.div_le_div_right hlt.le) hwrap)
  omega

/-- A time after a deadline, less than a turn later, with a wrap in between, reads as early. -/
theorem mod_lt_mod_of_wrap {M t d : ℕ} (hle : d ≤ t) (hnear : t < d + M) (hwrap : t / M ≠ d / M) :
    t % M < d % M := by
  have ht := Nat.div_add_mod t M
  have hd := Nat.div_add_mod d M
  have hepoch := epoch_succ_le (lt_of_le_of_ne (Nat.div_le_div_right hle) hwrap.symm)
  omega

/-! ### The 32-bit counter -/

/-- The reading of a 32-bit counter at true time `t`. -/
def stamp (t : ℕ) : UInt32 := UInt32.ofNat t

@[simp] theorem stamp_toNat (t : ℕ) : (stamp t).toNat = t % 2 ^ 32 := UInt32.toNat_ofNat'

/-- A stored deadline moves with the true one. -/
theorem stamp_add (t : ℕ) (d : UInt32) : stamp (t + d.toNat) = stamp t + d := by
  rw [stamp, stamp, UInt32.ofNat_add, UInt32.ofNat_toNat]

theorem stamp_sub_toNat {t u : ℕ} (h : u ≤ t) : (stamp t - stamp u).toNat = (t - u) % 2 ^ 32 := by
  rw [UInt32.toNat_sub, stamp_toNat, stamp_toNat]
  exact dist_mod (by decide) h

/-- A reading minus a later one wraps around. -/
theorem stamp_sub_toNat_of_lt {t u : ℕ} (h : t < u) (hnear : u < t + 2 ^ 32) :
    (stamp t - stamp u).toNat = 2 ^ 32 - (u - t) := by
  rw [UInt32.toNat_sub, stamp_toNat, stamp_toNat]
  omega

/-- A past deadline minus the reading is the lateness, taken backwards on the counter. -/
theorem stamp_sub_toNat_of_le {t d : ℕ} (h : d ≤ t) :
    (stamp d - stamp t).toNat = (2 ^ 32 - (t - d) % 2 ^ 32) % 2 ^ 32 := by
  rw [UInt32.toNat_sub, stamp_toNat, stamp_toNat]
  omega

theorem stamp_lt_stamp_iff {t d : ℕ} : stamp t < stamp d ↔ t % 2 ^ 32 < d % 2 ^ 32 := by
  rw [UInt32.lt_iff_toNat_lt, stamp_toNat, stamp_toNat]

theorem stamp_ne_zero_iff {t : ℕ} : stamp t ≠ 0 ↔ t % 2 ^ 32 ≠ 0 := by
  rw [Ne, ← UInt32.toNat_inj, stamp_toNat]; simp

end Schemes.Clock

import Mathlib.Data.UInt
import Mathlib.Data.Rat.Floor
import Mathlib.Algebra.Order.Floor.Semiring

/-! Float arithmetic and the helpers of `src/util.c`. A C `float` that is computed with is a
    rational number here, and every float operation is exact.

    A conversion of a float to an unsigned type truncates toward zero. Where the truncated value
    does not fit, C leaves the result undefined: there the conversions below return whatever `ub`
    says, and a statement about them holds for every `ub`. -/

namespace FC

/-- `(uint16_t)x`. -/
def toUint16 (ub : ℚ → UInt16) (x : ℚ) : UInt16 :=
  if -1 < x ∧ x < 2 ^ 16 then UInt16.ofNat ⌊x⌋₊ else ub x

/-- `(uint32_t)x`. -/
def toUint32 (ub : ℚ → UInt32) (x : ℚ) : UInt32 :=
  if -1 < x ∧ x < 2 ^ 32 then UInt32.ofNat ⌊x⌋₊ else ub x

theorem toUint16_toNat {ub : ℚ → UInt16} {x : ℚ} (hlo : -1 < x) (hhi : x < 2 ^ 16) :
    (toUint16 ub x).toNat = ⌊x⌋₊ := by
  have hfit : ⌊x⌋₊ < 2 ^ 16 := (Nat.floor_lt' (by norm_num)).mpr (by exact_mod_cast hhi)
  rw [toUint16, if_pos ⟨hlo, hhi⟩, UInt16.toNat_ofNat', Nat.mod_eq_of_lt hfit]

theorem toUint32_toNat {ub : ℚ → UInt32} {x : ℚ} (hlo : -1 < x) (hhi : x < 2 ^ 32) :
    (toUint32 ub x).toNat = ⌊x⌋₊ := by
  have hfit : ⌊x⌋₊ < 2 ^ 32 := (Nat.floor_lt' (by norm_num)).mpr (by exact_mod_cast hhi)
  rw [toUint32, if_pos ⟨hlo, hhi⟩, UInt32.toNat_ofNat', Nat.mod_eq_of_lt hfit]

/-- `map_into_range`. -/
def mapIntoRange (srcMin srcMax val dstMin dstMax : ℚ) : ℚ :=
  let perc := (val - srcMin) / (srcMax - srcMin)
  dstMin + perc * (dstMax - dstMin)

/-- `clamp`. -/
def clamp (val min max : ℚ) : ℚ :=
  if val < min then min else if val > max then max else val

/-- Between symmetric limits `clamp` is the lattice clamp. -/
theorem clamp_neg {x limit : ℚ} (h : 0 ≤ limit) :
    clamp x (-limit) limit = Max.max (-limit) (Min.min limit x) := by
  have hle : -limit ≤ limit := neg_le_self h
  unfold clamp
  split_ifs with hlo hhi
  · rw [min_eq_right (le_trans hlo.le hle), max_eq_left hlo.le]
  · rw [min_eq_left hhi.le, max_eq_right hle]
  · rw [min_eq_right (not_lt.mp hhi), max_eq_right (not_lt.mp hlo)]

/-- On whole numbers `clamp` is the lattice clamp. -/
theorem clamp_natCast {val min max : ℕ} (h : min ≤ max) :
    clamp val min max = ((Max.max min (Min.min val max) : ℕ) : ℚ) := by
  unfold clamp
  split_ifs with hlo hhi
  · have hlt : val < min := by exact_mod_cast hlo
    rw [Nat.max_eq_left (le_trans (Nat.min_le_left ..) hlt.le)]
  · have hlt : max < val := by exact_mod_cast hhi
    rw [Nat.min_eq_right hlt.le, Nat.max_eq_right h]
  · have hle : min ≤ val := by exact_mod_cast not_lt.mp hlo
    have hge : val ≤ max := by exact_mod_cast not_lt.mp hhi
    rw [Nat.min_eq_left hge, Nat.max_eq_right hle]

end FC

import FlightController.Motor.Pwm
import FlightController.Rx.Ibus

/-! Motor mixing (`src/mm.c`): throttle stick and PID outputs in, four throttles out. Each mix is
    first stored in a 16-bit throttle and only then clamped, so a mix that does not fit 16 bits is
    clamped after a conversion with undefined result. Whatever that result is, the clamp brings it
    into 1000..2000. -/

namespace FC.Mixing

/-- `CUTOFF_THROTTLE`: `(uint16_t)(RX_RANGE_MIN + 0.01f * RX_RANGE)`. -/
def cutoffThrottle : UInt16 := UInt16.ofNat ⌊(rxRangeMin : ℚ) + 1 / 100 * rxRange⌋₊

/-- `PID_SCALER`. -/
def pidScaler : ℚ := 5 / 2

/-- The four mixes, one for each motor. -/
def mix (roll pitch yaw : ℚ) (throttle : UInt16) : PerMotor ℚ where
  frontLeft := pidScaler * (-pitch + roll - yaw) + throttle.toNat
  frontRight := pidScaler * (-pitch - roll + yaw) + throttle.toNat
  backLeft := pidScaler * (pitch + roll + yaw) + throttle.toNat
  backRight := pidScaler * (pitch - roll - yaw) + throttle.toNat

/-- A mix on its way out: converted to 16 bits, clamped, converted again. -/
def toThrottle (ub : ℚ → UInt16) (x : ℚ) : UInt16 :=
  toUint16 ub (clamp (toUint16 ub x).toNat escMinThrottle.toNat escMaxThrottle.toNat)

/-- `motor_mixing`. `ub pos` is what an out-of-range conversion yields for motor `pos`. -/
def motorMixing (ub : EscPosition → ℚ → UInt16) (roll pitch yaw : ℚ) (rx : RxSample) :
    EscThrottles :=
  if rx.throttle ≤ cutoffThrottle then disarmed
  else
    let out := mix roll pitch yaw rx.throttle
    { frontLeft := toThrottle (ub .frontLeft) out.frontLeft
      frontRight := toThrottle (ub .frontRight) out.frontRight
      backLeft := toThrottle (ub .backLeft) out.backLeft
      backRight := toThrottle (ub .backRight) out.backRight }

theorem cutoffThrottle_toNat : cutoffThrottle.toNat = 1010 := by
  have hval : (rxRangeMin : ℚ) + 1 / 100 * rxRange = (1010 : ℕ) := by
    norm_num [rxRangeMin, rxRange, rxRangeMax]
  rw [cutoffThrottle, hval, Nat.floor_natCast]; rfl

/-- The value of the 16-bit throttle, clamped as a whole number. -/
theorem toThrottle_toNat (ub : ℚ → UInt16) (x : ℚ) :
    (toThrottle ub x).toNat = max 1000 (min (toUint16 ub x).toNat 2000) := by
  set n := (toUint16 ub x).toNat with hn
  have hclamp : clamp n escMinThrottle.toNat escMaxThrottle.toNat = (max 1000 (min n 2000) : ℕ) :=
    clamp_natCast (by decide)
  have hsmall : ((max 1000 (min n 2000) : ℕ) : ℚ) < 2 ^ 16 := by
    have hle : max 1000 (min n 2000) ≤ 2000 := by omega
    exact lt_of_le_of_lt (by exact_mod_cast hle) (by norm_num : (2000 : ℚ) < 2 ^ 16)
  rw [toThrottle, ← hn, hclamp,
    toUint16_toNat (lt_of_lt_of_le (by norm_num) (Nat.cast_nonneg _)) hsmall, Nat.floor_natCast]

/-- Whatever the first conversion yields, the throttle is in range. -/
theorem validThrottleRange_toThrottle (ub : ℚ → UInt16) (x : ℚ) :
    Pwm.validThrottleRange (toThrottle ub x) = true := by
  simp only [Pwm.validThrottleRange, Bool.and_eq_true, decide_eq_true_eq, UInt16.le_iff_toNat_le,
    toThrottle_toNat, escMinThrottle_toNat, escMaxThrottle_toNat]
  omega

theorem motorMixing_of_cutoff {ub : EscPosition → ℚ → UInt16} {roll pitch yaw : ℚ} {rx : RxSample}
    (h : rx.throttle ≤ cutoffThrottle) : motorMixing ub roll pitch yaw rx = disarmed := if_pos h

/-- Above the cut-off every motor gets its own mix. -/
theorem get_motorMixing {ub : EscPosition → ℚ → UInt16} {roll pitch yaw : ℚ} {rx : RxSample}
    (h : cutoffThrottle < rx.throttle) (pos : EscPosition) :
    (motorMixing ub roll pitch yaw rx).get pos =
      toThrottle (ub pos) ((mix roll pitch yaw rx.throttle).get pos) := by
  rw [motorMixing, if_neg (UInt16.not_le.mpr h)]
  cases pos <;> rfl

/-- The mixer only ever asks for throttles that the ESC driver accepts. -/
theorem validThrottleRange_motorMixing (ub : EscPosition → ℚ → UInt16) (roll pitch yaw : ℚ)
    (rx : RxSample) (pos : EscPosition) :
    Pwm.validThrottleRange ((motorMixing ub roll pitch yaw rx).get pos) = true := by
  rcases UInt16.lt_or_le cutoffThrottle rx.throttle with h | h
  · rw [get_motorMixing h]
    exact validThrottleRange_toThrottle _ _
  · rw [motorMixing_of_cutoff h, disarmed, PerMotor.get_all]; rfl

/-- A mix that fits the 16-bit throttle it is stored in. -/
def Fits (x : ℚ) : Prop := -1 < x ∧ x < 2 ^ 16

instance (x : ℚ) : Decidable (Fits x) := instDecidableAnd

/-- The corrections cancel over the motors, so some motor gets at least the stick's throttle. -/
theorem exists_le_mix (roll pitch yaw : ℚ) (throttle : UInt16) :
    ∃ pos, (throttle.toNat : ℚ) ≤ (mix roll pitch yaw throttle).get pos := by
  by_contra hall
  push Not at hall
  have hfl := hall .frontLeft
  have hfr := hall .frontRight
  have hbl := hall .backLeft
  have hbr := hall .backRight
  simp only [PerMotor.get, mix, pidScaler] at hfl hfr hbl hbr
  linarith

/-- Above the cut-off the throttles never amount to disarmed motors, unless a mix too high for 16
    bits is converted to a low throttle. -/
theorem motorMixing_ne_disarmed {ub : EscPosition → ℚ → UInt16} {roll pitch yaw : ℚ} {rx : RxSample}
    (h : cutoffThrottle < rx.throttle)
    (hub : ∀ pos x, 2 ^ 16 ≤ x → escMinThrottle < ub pos x) :
    motorMixing ub roll pitch yaw rx ≠ disarmed := by
  obtain ⟨pos, hpos⟩ := exists_le_mix roll pitch yaw rx.throttle
  have hstick : 1010 < rx.throttle.toNat := by
    rw [← cutoffThrottle_toNat]; exact UInt16.lt_iff_toNat_lt.mp h
  have hget : (motorMixing ub roll pitch yaw rx).get pos = _ := get_motorMixing h pos
  have hhigh : 1000 < (toUint16 (ub pos) ((mix roll pitch yaw rx.throttle).get pos)).toNat := by
    rcases lt_or_ge ((mix roll pitch yaw rx.throttle).get pos) (2 ^ 16) with hfits | hover
    · have hlow : -1 < (mix roll pitch yaw rx.throttle).get pos :=
        lt_of_lt_of_le (by norm_num) (le_trans (Nat.cast_nonneg rx.throttle.toNat) hpos)
      have hfloor : rx.throttle.toNat ≤ ⌊(mix roll pitch yaw rx.throttle).get pos⌋₊ :=
        Nat.le_floor hpos
      rw [toUint16_toNat hlow hfits]
      omega
    · rw [toUint16, if_neg fun hfits => absurd hfits.2 (not_lt.mpr hover)]
      exact UInt16.lt_iff_toNat_lt.mp (hub pos _ hover)
  intro hdis
  have hmin := congrArg UInt16.toNat (hget.symm.trans (by rw [hdis, disarmed, PerMotor.get_all]))
  rw [toThrottle_toNat, escMinThrottle_toNat] at hmin
  omega

end FC.Mixing

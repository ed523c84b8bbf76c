import FlightController.Control.Util
import Mathlib.Data.Fintype.Defs
import Mathlib.Tactic.Linarith
import Mathlib.Tactic.Positivity

/-! The ESC driver (`src/esc/pwm.c`, `src/esc/oneshot.c`, `include/esc/*.h`). A throttle in
    1000..2000 becomes a pulse of `min_duty_us..max_duty_us`, counted in ticks of the PWM timer. A
    throttle out of range is ignored: that motor keeps its old pulse. -/

namespace FC

/-- `ESC_MIN_THROTTLE`, `ESC_MAX_THROTTLE`. -/
def escMinThrottle : UInt16 := 1000
def escMaxThrottle : UInt16 := 2000

@[simp] theorem escMinThrottle_toNat : escMinThrottle.toNat = 1000 := rfl

@[simp] theorem escMaxThrottle_toNat : escMaxThrottle.toNat = 2000 := rfl

/-- `enum esc_position`. -/
inductive EscPosition where | frontLeft | frontRight | backLeft | backRight
  deriving DecidableEq, Repr

instance : Fintype EscPosition :=
  ⟨{.frontLeft, .frontRight, .backLeft, .backRight}, fun pos => by cases pos <;> decide⟩

/-- `struct esc_throttles`, and with `ticks_t` members the driver's `pulses`. -/
structure PerMotor (α : Type) where
  frontLeft : α
  frontRight : α
  backLeft : α
  backRight : α
  deriving DecidableEq, Repr

abbrev EscThrottles := PerMotor UInt16
abbrev Pulses := PerMotor UInt32

namespace PerMotor

/-- The same value for every motor. -/
def all {α : Type} (a : α) : PerMotor α := ⟨a, a, a, a⟩

/-- The value of one motor. -/
def get {α : Type} (m : PerMotor α) : EscPosition → α
  | .frontLeft => m.frontLeft
  | .frontRight => m.frontRight
  | .backLeft => m.backLeft
  | .backRight => m.backRight

@[simp] theorem get_all {α : Type} (a : α) (pos : EscPosition) : (all a).get pos = a := by
  cases pos <;> rfl

/-- Another value for one motor. -/
def set {α : Type} (m : PerMotor α) (pos : EscPosition) (a : α) : PerMotor α :=
  match pos with
  | .frontLeft => { m with frontLeft := a }
  | .frontRight => { m with frontRight := a }
  | .backLeft => { m with backLeft := a }
  | .backRight => { m with backRight := a }

theorem get_set {α : Type} (m : PerMotor α) (pos pos' : EscPosition) (a : α) :
    (m.set pos a).get pos' = if pos' = pos then a else m.get pos' := by
  cases pos <;> cases pos' <;> rfl

theorem ext_get {α : Type} {m m' : PerMotor α} (h : ∀ pos, m.get pos = m'.get pos) : m = m' := by
  obtain ⟨fl, fr, bl, br⟩ := m
  obtain ⟨fl', fr', bl', br'⟩ := m'
  obtain rfl : fl = fl' := h .frontLeft
  obtain rfl : fr = fr' := h .frontRight
  obtain rfl : bl = bl' := h .backLeft
  obtain rfl : br = br' := h .backRight
  rfl

end PerMotor

/-- Every motor at `ESC_MIN_THROTTLE`. -/
def disarmed : EscThrottles := .all escMinThrottle

/-- `struct esc_pwm_config`. -/
structure EscPwmConfig where
  minDutyUs : UInt32
  maxDutyUs : UInt32
  periodUs : UInt32
  deriving DecidableEq, Repr

def oneshot42 : EscPwmConfig := { minDutyUs := 42, maxDutyUs := 84, periodUs := 1000 }

def oneshot125 : EscPwmConfig := { minDutyUs := 125, maxDutyUs := 250, periodUs := 1000 }

/-- What the driver takes from the board: the answer of `rcc_get_timer_clk_freq(PWM_TIM)` in Hz, and
    the value of a float-to-tick conversion out of range. -/
structure PwmTimer where
  clkFreq : UInt32
  ub : ℚ → UInt32

namespace Pwm

variable (tim : PwmTimer)

/-- `TIM_TICKS_PER_US`. -/
def timTicksPerUs : UInt32 := tim.clkFreq / 1000000

/-- `us_to_ticks`. -/
def usToTicks (us : ℚ) : UInt32 := toUint32 tim.ub ((timTicksPerUs tim).toNat * us)

/-- The pulse length that `throttle_to_ticks` hands to `us_to_ticks`. -/
def throttleToUs (t : UInt16) (conf : EscPwmConfig) : ℚ :=
  let perc : ℚ := ((t.toNat : ℚ) - escMinThrottle.toNat) /
    ((escMaxThrottle.toNat : ℚ) - escMinThrottle.toNat)
  perc * (conf.maxDutyUs - conf.minDutyUs).toNat + conf.minDutyUs.toNat

/-- `throttle_to_ticks`. -/
def throttleToTicks (t : UInt16) (conf : EscPwmConfig) : UInt32 :=
  usToTicks tim (throttleToUs t conf)

/-- `valid_throttle_range`. -/
def validThrottleRange (throttle : UInt16) : Bool :=
  escMinThrottle ≤ throttle && throttle ≤ escMaxThrottle

/-- The pulses `setup` leaves: no throttle. -/
def setup (cfg : EscPwmConfig) : Pulses := .all (throttleToTicks tim escMinThrottle cfg)

/-- One motor of `update`. -/
def updatePulse (cfg : EscPwmConfig) (throttle : UInt16) (pulse : UInt32) : UInt32 :=
  if validThrottleRange throttle then throttleToTicks tim throttle cfg else pulse

/-- `update`. -/
def update (cfg : EscPwmConfig) (t : EscThrottles) (pulses : Pulses) : Pulses where
  frontLeft := updatePulse tim cfg t.frontLeft pulses.frontLeft
  frontRight := updatePulse tim cfg t.frontRight pulses.frontRight
  backLeft := updatePulse tim cfg t.backLeft pulses.backLeft
  backRight := updatePulse tim cfg t.backRight pulses.backRight

/-- The pulses that correspond to given throttles. -/
def ticksOf (cfg : EscPwmConfig) (t : EscThrottles) : Pulses where
  frontLeft := throttleToTicks tim t.frontLeft cfg
  frontRight := throttleToTicks tim t.frontRight cfg
  backLeft := throttleToTicks tim t.backLeft cfg
  backRight := throttleToTicks tim t.backRight cfg

/-- Throttles in range leave no stale pulse. -/
theorem update_of_valid (cfg : EscPwmConfig) {t : EscThrottles} (pulses : Pulses)
    (h : ∀ pos, validThrottleRange (t.get pos) = true) :
    update tim cfg t pulses = ticksOf tim cfg t := by
  have hfl : validThrottleRange t.frontLeft = true := h .frontLeft
  have hfr : validThrottleRange t.frontRight = true := h .frontRight
  have hbl : validThrottleRange t.backLeft = true := h .backLeft
  have hbr : validThrottleRange t.backRight = true := h .backRight
  simp only [update, updatePulse, ticksOf, hfl, hfr, hbl, hbr, if_true]

theorem ticksOf_disarmed (cfg : EscPwmConfig) : ticksOf tim cfg disarmed = setup tim cfg := rfl

theorem update_get (cfg : EscPwmConfig) (t : EscThrottles) (pulses : Pulses) (pos : EscPosition) :
    (update tim cfg t pulses).get pos = updatePulse tim cfg (t.get pos) (pulses.get pos) := by
  cases pos <;> rfl

theorem ticksOf_get (cfg : EscPwmConfig) (t : EscThrottles) (pos : EscPosition) :
    (ticksOf tim cfg t).get pos = throttleToTicks tim (t.get pos) cfg := by
  cases pos <;> rfl

theorem validThrottleRange_iff {t : UInt16} :
    validThrottleRange t = true ↔ 1000 ≤ t.toNat ∧ t.toNat ≤ 2000 := by
  simp only [validThrottleRange, Bool.and_eq_true, decide_eq_true_eq, UInt16.le_iff_toNat_le,
    escMinThrottle_toNat, escMaxThrottle_toNat]

/-- The span of the duty cycle does not wrap. -/
theorem throttleToUs_eq {cfg : EscPwmConfig} (t : UInt16) (hcfg : cfg.minDutyUs ≤ cfg.maxDutyUs) :
    throttleToUs t cfg = ((t.toNat : ℚ) - 1000) / 1000 *
      ((cfg.maxDutyUs.toNat : ℚ) - cfg.minDutyUs.toNat) + cfg.minDutyUs.toNat := by
  simp only [throttleToUs, escMinThrottle_toNat, escMaxThrottle_toNat]
  rw [UInt32.toNat_sub_of_le _ _ hcfg, Nat.cast_sub (UInt32.le_iff_toNat_le.mp hcfg)]
  norm_num

/-- The pulse of a throttle in range lies between `min_duty_us` and `max_duty_us`. -/
theorem throttleToUs_bounds {cfg : EscPwmConfig} {t : UInt16} (hcfg : cfg.minDutyUs ≤ cfg.maxDutyUs)
    (ht : validThrottleRange t = true) :
    (cfg.minDutyUs.toNat : ℚ) ≤ throttleToUs t cfg ∧ throttleToUs t cfg ≤ cfg.maxDutyUs.toNat := by
  obtain ⟨hmin, hmax⟩ := validThrottleRange_iff.mp ht
  have hlo : (1000 : ℚ) ≤ t.toNat := by exact_mod_cast hmin
  have hhi : (t.toNat : ℚ) ≤ 2000 := by exact_mod_cast hmax
  have hspan : (0 : ℚ) ≤ (cfg.maxDutyUs.toNat : ℚ) - cfg.minDutyUs.toNat :=
    sub_nonneg.mpr (by exact_mod_cast UInt32.le_iff_toNat_le.mp hcfg)
  have hperc0 : (0 : ℚ) ≤ (t.toNat - 1000) / 1000 := div_nonneg (by linarith) (by norm_num)
  have hperc1 : ((t.toNat : ℚ) - 1000) / 1000 ≤ 1 := by
    rw [div_le_one (by norm_num)]; linarith
  rw [throttleToUs_eq t hcfg]
  constructor
  · exact le_add_of_nonneg_left (mul_nonneg hperc0 hspan)
  · have := mul_le_mul_of_nonneg_right hperc1 hspan
    linarith

/-- The tick count of a throttle in range, when that of `max_duty_us` fits 32 bits. -/
theorem throttleToTicks_toNat {cfg : EscPwmConfig} {t : UInt16}
    (hcfg : cfg.minDutyUs ≤ cfg.maxDutyUs)
    (hfit : (timTicksPerUs tim).toNat * cfg.maxDutyUs.toNat < 2 ^ 32)
    (ht : validThrottleRange t = true) :
    (throttleToTicks tim t cfg).toNat =
      ⌊((timTicksPerUs tim).toNat : ℚ) * throttleToUs t cfg⌋₊ := by
  obtain ⟨husLo, husHi⟩ := throttleToUs_bounds hcfg ht
  have hT : (0 : ℚ) ≤ (timTicksPerUs tim).toNat := Nat.cast_nonneg _
  have hnonneg : (0 : ℚ) ≤ (timTicksPerUs tim).toNat * throttleToUs t cfg :=
    mul_nonneg hT (le_trans (Nat.cast_nonneg _) husLo)
  have hfit' : ((timTicksPerUs tim).toNat : ℚ) * cfg.maxDutyUs.toNat < 2 ^ 32 := by
    exact_mod_cast hfit
  exact toUint32_toNat (by linarith) (lt_of_le_of_lt (mul_le_mul_of_nonneg_left husHi hT) hfit')

/-- The tick count of a throttle in range lies between those of `min_duty_us` and `max_duty_us`. -/
theorem throttleToTicks_bounds {cfg : EscPwmConfig} {t : UInt16}
    (hcfg : cfg.minDutyUs ≤ cfg.maxDutyUs)
    (hfit : (timTicksPerUs tim).toNat * cfg.maxDutyUs.toNat < 2 ^ 32)
    (ht : validThrottleRange t = true) :
    (timTicksPerUs tim).toNat * cfg.minDutyUs.toNat ≤ (throttleToTicks tim t cfg).toNat ∧
      (throttleToTicks tim t cfg).toNat ≤ (timTicksPerUs tim).toNat * cfg.maxDutyUs.toNat := by
  obtain ⟨husLo, husHi⟩ := throttleToUs_bounds hcfg ht
  have hT : (0 : ℚ) ≤ (timTicksPerUs tim).toNat := Nat.cast_nonneg _
  have hlo := mul_le_mul_of_nonneg_left husLo hT
  have hhi := mul_le_mul_of_nonneg_left husHi hT
  have hnonneg : (0 : ℚ) ≤ (timTicksPerUs tim).toNat * throttleToUs t cfg :=
    mul_nonneg hT (le_trans (Nat.cast_nonneg _) husLo)
  rw [throttleToTicks_toNat tim hcfg hfit ht]
  constructor
  · exact Nat.le_floor (by exact_mod_cast hlo)
  · exact_mod_cast le_trans (Nat.floor_le hnonneg) hhi

end Pwm

end FC

import FlightController.Motor.Pwm
import FlightController.Schemes.Run
import Mathlib.Algebra.Order.Floor.Semifield

/-! From throttles to compare registers (`src/esc/pwm.c`). `update` turns the throttles into pulses,
    motor by motor. At an update event of the PWM timer `PWM_TIM_ISR` writes the pulses to the
    compare registers. Events and handler may come between any two assignments of `update`.

    A pulse is a 32-bit tick count, and so is the register, but `esc_set_pulse` takes it as
    `uint16_t`: what it writes is the pulse mod 2^16. The registers carry the requested pulses
    exactly when all of them are shorter than 2^16 ticks (`pulseLaw_iff`). -/

namespace FC

/-- The channels of `enum tim_oc_id` that are wired to a motor. -/
inductive TimOcId where | oc1 | oc2 | oc3 | oc4
  deriving DecidableEq, Repr

/-- `esc_map`. -/
def escMap : EscPosition → TimOcId
  | .frontLeft => .oc3
  | .frontRight => .oc2
  | .backLeft => .oc4
  | .backRight => .oc1

/-- The registers of `PWM_TIM`: auto-reload, compare values, update flag. -/
structure TimRegs where
  arr : UInt32
  ccr1 : UInt32
  ccr2 : UInt32
  ccr3 : UInt32
  ccr4 : UInt32
  uif : Bool
  deriving DecidableEq, Repr

namespace TimRegs

/-- Cleared registers. -/
def cleared : TimRegs := ⟨0, 0, 0, 0, 0, false⟩

/-- The compare value of a channel. -/
def ccr (r : TimRegs) : TimOcId → UInt32
  | .oc1 => r.ccr1
  | .oc2 => r.ccr2
  | .oc3 => r.ccr3
  | .oc4 => r.ccr4

/-- `timer_set_oc_value(PWM_TIM, oc, value)`. -/
def timerSetOcValue (r : TimRegs) (oc : TimOcId) (value : UInt32) : TimRegs :=
  match oc with
  | .oc1 => { r with ccr1 := value }
  | .oc2 => { r with ccr2 := value }
  | .oc3 => { r with ccr3 := value }
  | .oc4 => { r with ccr4 := value }

/-- `timer_clear_flag(PWM_TIM, TIM_SR_UIF)`. -/
def clearUif (r : TimRegs) : TimRegs := { r with uif := false }

theorem ccr_timerSetOcValue (r : TimRegs) (oc oc' : TimOcId) (value : UInt32) :
    (r.timerSetOcValue oc value).ccr oc' = if oc' = oc then value else r.ccr oc' := by
  cases oc <;> cases oc' <;> rfl

end TimRegs

theorem escMap_inj {pos pos' : EscPosition} : escMap pos = escMap pos' ↔ pos = pos' := by
  cases pos <;> cases pos' <;> decide

namespace Pwm
open Schemes

variable (tim : PwmTimer)

/-- `timer_setup`, as far as it writes the registers of `TimRegs`. -/
def timerSetup (cfg : EscPwmConfig) (r : TimRegs) : TimRegs :=
  let r := { r with arr := timTicksPerUs tim * cfg.periodUs - 1 }
  let minThrottle := throttleToTicks tim escMinThrottle cfg
  let r := r.timerSetOcValue .oc1 minThrottle
  let r := r.timerSetOcValue .oc2 minThrottle
  let r := r.timerSetOcValue .oc3 minThrottle
  let r := r.timerSetOcValue .oc4 minThrottle
  r.clearUif

/-- `esc_set_pulse`. -/
def escSetPulse (pos : EscPosition) (ticks : UInt16) (r : TimRegs) : TimRegs :=
  r.timerSetOcValue (escMap pos) ticks.toUInt32

/-- `PWM_TIM_ISR`. The pulses are converted to the parameter type of `esc_set_pulse`. -/
def pwmTimIsr (pulses : Pulses) (r : TimRegs) : TimRegs :=
  if r.uif then
    let r := r.clearUif
    let r := escSetPulse .frontLeft pulses.frontLeft.toUInt16 r
    let r := escSetPulse .frontRight pulses.frontRight.toUInt16 r
    let r := escSetPulse .backLeft pulses.backLeft.toUInt16 r
    escSetPulse .backRight pulses.backRight.toUInt16 r
  else r

/-- Registers and pulses, and the assignments that a call of `update` has yet to make. -/
structure St where
  regs : TimRegs
  pulses : Pulses
  todo : List EscPosition
  deriving DecidableEq, Repr

/-- The main loop takes its next step in `update`, the timer has an update event, or the handler
    runs. -/
inductive Act where
  | cpu
  | updateEvent
  | isr
  deriving DecidableEq, Repr

variable (cfg : EscPwmConfig) (t : EscThrottles)

def step (s : St) : Act → St
  | .cpu =>
    match s.todo with
    | [] => s
    | pos :: todo =>
      { s with
        pulses := s.pulses.set pos (updatePulse tim cfg (t.get pos) (s.pulses.get pos))
        todo }
  | .updateEvent => { s with regs := { s.regs with uif := true } }
  | .isr => { s with regs := pwmTimIsr s.pulses s.regs }

/-- The motors in the order of the assignments. -/
def motors : List EscPosition := [.frontLeft, .frontRight, .backLeft, .backRight]

/-- A call of `update`. -/
def call (regs : TimRegs) (pulses : Pulses) : St := ⟨regs, pulses, motors⟩

/-- The state after a call of `update` and a list of actions. -/
def exec (regs : TimRegs) (pulses : Pulses) (acts : List Act) : St :=
  run (step tim cfg t) (call regs pulses) acts

/-- The pulse a throttle asks for, in ticks. -/
def requestedTicks (throttle : UInt16) : ℕ :=
  ⌊((timTicksPerUs tim).toNat : ℚ) * (cfg.minDutyUs.toNat + ((throttle.toNat : ℚ) - 1000) / 1000 *
    ((cfg.maxDutyUs.toNat : ℚ) - cfg.minDutyUs.toNat))⌋₊

/-- Each motor's channel carries the pulse its throttle asks for: a pulse that grows with the
    throttle, from that of `min_duty_us` to that of `max_duty_us`. -/
structure PulseLaw (r : TimRegs) : Prop where
  carried : ∀ pos, (r.ccr (escMap pos)).toNat = requestedTicks tim cfg (t.get pos)
  mono : ∀ a b, validThrottleRange a = true → validThrottleRange b = true → a ≤ b →
    requestedTicks tim cfg a ≤ requestedTicks tim cfg b
  atMin : requestedTicks tim cfg escMinThrottle = (timTicksPerUs tim).toNat * cfg.minDutyUs.toNat
  atMax : requestedTicks tim cfg escMaxThrottle = (timTicksPerUs tim).toNat * cfg.maxDutyUs.toNat

/-- The requested pulse, times 1000. -/
def scaledPulse (throttle : UInt16) : ℕ :=
  (timTicksPerUs tim).toNat * (1000 * cfg.minDutyUs.toNat +
    (throttle.toNat - 1000) * (cfg.maxDutyUs.toNat - cfg.minDutyUs.toNat))

/-- The requested pulse is shorter than 2^16 ticks. -/
def Fits16 (throttle : UInt16) : Prop := scaledPulse tim cfg throttle < 1000 * 2 ^ 16

instance (throttle : UInt16) : Decidable (Fits16 tim cfg throttle) :=
  inferInstanceAs (Decidable (_ < _))

/-! ### What is requested -/

variable {tim cfg t}

/-- The requested pulse in whole numbers. -/
theorem requestedTicks_eq {throttle : UInt16} (hcfg : cfg.minDutyUs ≤ cfg.maxDutyUs)
    (ht : validThrottleRange throttle = true) :
    requestedTicks tim cfg throttle = scaledPulse tim cfg throttle / 1000 := by
  have hspan := UInt32.le_iff_toNat_le.mp hcfg
  have hlo := (validThrottleRange_iff.mp ht).1
  have hscaled : ((timTicksPerUs tim).toNat : ℚ) * (cfg.minDutyUs.toNat +
      ((throttle.toNat : ℚ) - 1000) / 1000 *
        ((cfg.maxDutyUs.toNat : ℚ) - cfg.minDutyUs.toNat)) =
      (scaledPulse tim cfg throttle : ℚ) / (1000 : ℕ) := by
    rw [scaledPulse]
    push_cast [Nat.cast_sub hspan, Nat.cast_sub hlo]
    ring
  rw [requestedTicks, hscaled, Nat.floor_div_eq_div]

theorem requestedTicks_mono {a b : UInt16} (hcfg : cfg.minDutyUs ≤ cfg.maxDutyUs)
    (ha : validThrottleRange a = true) (hb : validThrottleRange b = true) (hab : a ≤ b) :
    requestedTicks tim cfg a ≤ requestedTicks tim cfg b := by
  have hle := UInt16.le_iff_toNat_le.mp hab
  rw [requestedTicks_eq hcfg ha, requestedTicks_eq hcfg hb]
  apply Nat.div_le_div_right
  unfold scaledPulse
  gcongr

theorem requestedTicks_min (hcfg : cfg.minDutyUs ≤ cfg.maxDutyUs) :
    requestedTicks tim cfg escMinThrottle =
      (timTicksPerUs tim).toNat * cfg.minDutyUs.toNat := by
  have hscaled : scaledPulse tim cfg escMinThrottle =
      1000 * ((timTicksPerUs tim).toNat * cfg.minDutyUs.toNat) := by
    rw [scaledPulse, escMinThrottle_toNat]
    ring
  rw [requestedTicks_eq hcfg (by decide), hscaled, Nat.mul_div_cancel_left _ (by norm_num)]

theorem requestedTicks_max (hcfg : cfg.minDutyUs ≤ cfg.maxDutyUs) :
    requestedTicks tim cfg escMaxThrottle =
      (timTicksPerUs tim).toNat * cfg.maxDutyUs.toNat := by
  have hspan := UInt32.le_iff_toNat_le.mp hcfg
  have hduty : 1000 * cfg.minDutyUs.toNat + 1000 * (cfg.maxDutyUs.toNat - cfg.minDutyUs.toNat) =
      1000 * cfg.maxDutyUs.toNat := by omega
  have hscaled : scaledPulse tim cfg escMaxThrottle =
      1000 * ((timTicksPerUs tim).toNat * cfg.maxDutyUs.toNat) := by
    rw [scaledPulse, escMaxThrottle_toNat, hduty]
    ring
  rw [requestedTicks_eq hcfg (by decide), hscaled, Nat.mul_div_cancel_left _ (by norm_num)]

theorem requestedTicks_lt_iff {throttle : UInt16} (hcfg : cfg.minDutyUs ≤ cfg.maxDutyUs)
    (ht : validThrottleRange throttle = true) :
    requestedTicks tim cfg throttle < 2 ^ 16 ↔ Fits16 tim cfg throttle := by
  rw [requestedTicks_eq hcfg ht, Fits16, Nat.div_lt_iff_lt_mul (by norm_num), mul_comm (1000 : ℕ)]

/-- `throttle_to_ticks` computes the requested pulse. -/
theorem throttleToTicks_eq_requested {throttle : UInt16} (hcfg : cfg.minDutyUs ≤ cfg.maxDutyUs)
    (hfit : (timTicksPerUs tim).toNat * cfg.maxDutyUs.toNat < 2 ^ 32)
    (ht : validThrottleRange throttle = true) :
    (throttleToTicks tim throttle cfg).toNat = requestedTicks tim cfg throttle := by
  rw [throttleToTicks_toNat tim hcfg hfit ht, throttleToUs_eq throttle hcfg, add_comm,
    requestedTicks]

/-- The pulses of all throttles are short when that of full throttle is. -/
theorem forall_fits16_iff (hcfg : cfg.minDutyUs ≤ cfg.maxDutyUs) :
    (∀ throttle, validThrottleRange throttle = true → Fits16 tim cfg throttle) ↔
      (timTicksPerUs tim).toNat * cfg.maxDutyUs.toNat < 2 ^ 16 := by
  rw [← requestedTicks_max hcfg]
  constructor
  · intro hall
    exact (requestedTicks_lt_iff hcfg (by decide)).mpr (hall escMaxThrottle (by decide))
  · intro hmax throttle ht
    have hle : throttle ≤ escMaxThrottle :=
      UInt16.le_iff_toNat_le.mpr (validThrottleRange_iff.mp ht).2
    rw [← requestedTicks_lt_iff hcfg ht]
    exact lt_of_le_of_lt (requestedTicks_mono hcfg ht (by decide) hle) hmax

/-! ### What is written -/

/-- `timer_setup` writes the whole tick count to every channel. -/
theorem timerSetup_ccr (r : TimRegs) (oc : TimOcId) :
    (timerSetup tim cfg r).ccr oc = throttleToTicks tim escMinThrottle cfg := by
  cases oc <;> rfl

/-- The handler writes every channel, and of each pulse the low 16 bits. -/
theorem pwmTimIsr_ccr {r : TimRegs} (huif : r.uif = true) (pulses : Pulses) (pos : EscPosition) :
    ((pwmTimIsr pulses r).ccr (escMap pos)).toNat = (pulses.get pos).toNat % 2 ^ 16 := by
  rw [pwmTimIsr, if_pos huif]
  cases pos <;> simp [escSetPulse, escMap, TimRegs.ccr_timerSetOcValue, PerMotor.get]

/-- The assignments still to be made are made in order. -/
theorem run_todo (s : St) (acts : List Act) :
    (run (step tim cfg t) s acts).todo = s.todo.drop (acts.count .cpu) := by
  induction acts generalizing s with
  | nil => rfl
  | cons a acts ih =>
    rw [run_cons, ih]
    cases a with
    | cpu =>
      rw [List.count_cons_self]
      cases htodo : s.todo with
      | nil => simp [step, htodo]
      | cons pos todo => simp [step, htodo]
    | updateEvent => rfl
    | isr => rfl

variable (tim cfg t) in
/-- In a call of `update` the motors still to come have their old pulse, the others their new. -/
structure Mixed (old : Pulses) (s : St) : Prop where
  nodup : s.todo.Nodup
  pulses : ∀ pos, s.pulses.get pos =
    if pos ∈ s.todo then old.get pos else updatePulse tim cfg (t.get pos) (old.get pos)

theorem motors_nodup : motors.Nodup := by decide

theorem mem_motors (pos : EscPosition) : pos ∈ motors := by cases pos <;> decide

theorem mixed_call (regs : TimRegs) (old : Pulses) : Mixed tim cfg t old (call regs old) :=
  ⟨motors_nodup, fun pos => (if_pos (mem_motors pos)).symm⟩

theorem mixed_step {old : Pulses} (s : St) (a : Act) (h : Mixed tim cfg t old s) :
    Mixed tim cfg t old (step tim cfg t s a) := by
  obtain ⟨hnodup, hpulses⟩ := h
  obtain ⟨regs, pulses, todo⟩ := s
  cases a with
  | cpu =>
    cases todo with
    | nil => exact ⟨hnodup, hpulses⟩
    | cons pos todo =>
      obtain ⟨hnot, htail⟩ := List.nodup_cons.mp hnodup
      refine ⟨htail, fun pos' => ?_⟩
      have hold : pulses.get pos' = if pos' ∈ pos :: todo then old.get pos'
        else updatePulse tim cfg (t.get pos') (old.get pos') := hpulses pos'
      change (pulses.set pos _).get pos' = if pos' ∈ todo then _ else _
      rw [PerMotor.get_set]
      by_cases heq : pos' = pos
      · -- the motor of this assignment
        subst heq
        rw [if_pos List.mem_cons_self] at hold
        rw [if_pos rfl, if_neg hnot, hold]
      · simp only [List.mem_cons, heq, false_or] at hold
        rw [if_neg heq, hold]
  | updateEvent => exact ⟨hnodup, hpulses⟩
  | isr => exact ⟨hnodup, hpulses⟩

variable (tim cfg t) in
/-- Whatever interrupts the call, it leaves what `update` leaves. -/
theorem exec_pulses (regs : TimRegs) (pulses : Pulses) {acts : List Act}
    (hcpu : 4 ≤ acts.count .cpu) :
    (exec tim cfg t regs pulses acts).pulses = update tim cfg t pulses := by
  have hmixed : Mixed tim cfg t pulses (exec tim cfg t regs pulses acts) :=
    inv_run _ _ mixed_step acts (mixed_call regs pulses)
  have htodo : (exec tim cfg t regs pulses acts).todo = [] := by
    rw [exec, run_todo, List.drop_eq_nil_iff]
    exact hcpu
  apply PerMotor.ext_get
  intro pos
  rw [hmixed.pulses pos, htodo, if_neg List.not_mem_nil, update_get]

/-- The registers after the next update event hold the low 16 bits of the requested pulses. -/
theorem exec_ccr (hmin : cfg.minDutyUs ≤ cfg.maxDutyUs)
    (hfit : (timTicksPerUs tim).toNat * cfg.maxDutyUs.toNat < 2 ^ 32)
    (ht : ∀ pos, validThrottleRange (t.get pos) = true) (regs : TimRegs) (pulses : Pulses)
    {acts : List Act} (hcpu : 4 ≤ acts.count .cpu) (pos : EscPosition) :
    ((exec tim cfg t regs pulses (acts ++ [.updateEvent, .isr])).regs.ccr (escMap pos)).toNat =
      requestedTicks tim cfg (t.get pos) % 2 ^ 16 := by
  have hpulses := exec_pulses tim cfg t regs pulses hcpu
  rw [exec, run_append]
  simp only [run_cons, run_nil, step]
  rw [pwmTimIsr_ccr rfl]
  change ((exec tim cfg t regs pulses acts).pulses.get pos).toNat % 2 ^ 16 = _
  rw [hpulses, update_of_valid tim cfg pulses ht, ticksOf_get,
    throttleToTicks_eq_requested hmin hfit (ht pos)]

/-- Short pulses are carried as they were requested. -/
theorem pulseLaw_of_fits (hmin : cfg.minDutyUs ≤ cfg.maxDutyUs)
    (hfit : (timTicksPerUs tim).toNat * cfg.maxDutyUs.toNat < 2 ^ 32)
    (ht : ∀ pos, validThrottleRange (t.get pos) = true) (regs : TimRegs) (pulses : Pulses)
    {acts : List Act} (hcpu : 4 ≤ acts.count .cpu)
    (hshort : ∀ pos, Fits16 tim cfg (t.get pos)) :
    PulseLaw tim cfg t (exec tim cfg t regs pulses (acts ++ [.updateEvent, .isr])).regs := by
  refine ⟨fun pos => ?_, fun a b => requestedTicks_mono hmin, requestedTicks_min hmin,
    requestedTicks_max hmin⟩
  rw [exec_ccr hmin hfit ht regs pulses hcpu pos,
    Nat.mod_eq_of_lt ((requestedTicks_lt_iff hmin (ht pos)).mpr (hshort pos))]

/-- The registers carry the requested pulses exactly when these are shorter than 2^16 ticks. -/
theorem pulseLaw_iff (tim : PwmTimer) {cfg : EscPwmConfig} {t : EscThrottles}
    (hmin : cfg.minDutyUs ≤ cfg.maxDutyUs) (hmax : cfg.maxDutyUs ≤ cfg.periodUs)
    (hperiod : (timTicksPerUs tim).toNat * cfg.periodUs.toNat < 2 ^ 32)
    (ht : ∀ pos, validThrottleRange (t.get pos) = true) (regs : TimRegs) (pulses : Pulses)
    {acts : List Act} (hcpu : 4 ≤ acts.count .cpu) :
    PulseLaw tim cfg t (exec tim cfg t regs pulses (acts ++ [.updateEvent, .isr])).regs ↔
      ∀ pos, Fits16 tim cfg (t.get pos) := by
  have hfit : (timTicksPerUs tim).toNat * cfg.maxDutyUs.toNat < 2 ^ 32 :=
    lt_of_le_of_lt (Nat.mul_le_mul_left _ (UInt32.le_iff_toNat_le.mp hmax)) hperiod
  refine ⟨?_, pulseLaw_of_fits hmin hfit ht regs pulses hcpu⟩
  rintro ⟨hcarried, -, -, -⟩ pos
  rw [← requestedTicks_lt_iff hmin (ht pos), ← hcarried pos,
    exec_ccr hmin hfit ht regs pulses hcpu pos]
  exact Nat.mod_lt _ (by norm_num)

/-- The timer as `main` clocks it. -/
def tim84 : PwmTimer := { clkFreq := 84000000, ub := fun _ => 0 }

/-- Four throttles, with an update event in the middle of the call. -/
theorem pulseLaw_oneshot42 : PulseLaw tim84 oneshot42 ⟨1000, 1250, 1503, 2000⟩
    (exec tim84 oneshot42 ⟨1000, 1250, 1503, 2000⟩ (timerSetup tim84 oneshot42 .cleared)
      (setup tim84 oneshot42)
      ([.cpu, .updateEvent, .cpu, .isr, .cpu, .cpu] ++ [.updateEvent, .isr])).regs :=
  (pulseLaw_iff tim84 (by decide) (by decide) (by decide) (by decide) _ _ (by decide)).mpr
    (by decide)

/-- The pulses of the two protocols that come with the driver are short on that clock. -/
theorem pulseLaw_oneshot (hcfg : cfg = oneshot42 ∨ cfg = oneshot125)
    (ht : ∀ pos, validThrottleRange (t.get pos) = true) (regs : TimRegs) (pulses : Pulses)
    {acts : List Act} (hcpu : 4 ≤ acts.count .cpu) :
    PulseLaw tim84 cfg t (exec tim84 cfg t regs pulses (acts ++ [.updateEvent, .isr])).regs := by
  rcases hcfg with rfl | rfl
  all_goals
    refine pulseLaw_of_fits (by decide) (by decide) ht regs pulses hcpu fun pos => ?_
    exact (forall_fits16_iff (by decide)).mpr (by decide) _ (ht pos)

/-- The 1 to 2 ms pulses of plain PWM. -/
def plainPwm : EscPwmConfig := { minDutyUs := 1000, maxDutyUs := 2000, periodUs := 20000 }

/-- The registers after set-up, a call of `update` with no throttle, and an update event. -/
def plainRegs : TimRegs :=
  (exec tim84 plainPwm disarmed (timerSetup tim84 plainPwm .cleared) (setup tim84 plainPwm)
    (List.replicate 4 .cpu ++ [.updateEvent, .isr])).regs

theorem plainPwm_requested : requestedTicks tim84 plainPwm escMinThrottle = 84000 :=
  requestedTicks_min (by decide)

theorem plainRegs_ccr (pos : EscPosition) : (plainRegs.ccr (escMap pos)).toNat = 18464 := by
  have hvalid : ∀ pos, validThrottleRange (disarmed.get pos) = true := by decide
  rw [plainRegs, exec_ccr (by decide) (by decide) hvalid _ _ (by decide), disarmed,
    PerMotor.get_all, plainPwm_requested]
  norm_num

/-- The pulse of 84000 ticks for no throttle comes out as one of 18464 ticks. -/
theorem plainPwm_wraps :
    plainPwm.minDutyUs ≤ plainPwm.maxDutyUs ∧ plainPwm.maxDutyUs ≤ plainPwm.periodUs ∧
    (timTicksPerUs tim84).toNat * plainPwm.periodUs.toNat < 2 ^ 32 ∧
    (∀ pos, validThrottleRange (disarmed.get pos) = true) ∧
    (plainRegs.ccr (escMap .frontLeft)).toNat = 18464 ∧
    ¬ PulseLaw tim84 plainPwm disarmed plainRegs := by
  refine ⟨by decide, by decide, by decide, by decide, plainRegs_ccr _, fun hlaw => ?_⟩
  have hcarried := hlaw.carried .frontLeft
  rw [plainRegs_ccr, disarmed, PerMotor.get_all, plainPwm_requested] at hcarried
  exact absurd hcarried (by decide)

end Pwm

end FC

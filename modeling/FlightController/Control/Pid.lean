import FlightController.Control.Util

/-! The PID controller (`src/pid.c`, `include/pid.h`). The C structures with float members take the
    float type as a parameter: `ℚ` where the code computes, the 32-bit patterns where only their
    bytes matter. -/

namespace FC

/-- `struct pid`. -/
structure Pid (F : Type) where
  prevTimeUs : UInt32
  integralErr : F
  prevActual : F
  kp : F
  ki : F
  kd : F
  pterm : F
  iterm : F
  dterm : F
  desired : F
  actual : F
  deriving DecidableEq, Repr

namespace Pid

/-- `pid_setup`: `memset` to zero, then the gains. -/
def pidSetup (kp ki kd : ℚ) : Pid ℚ :=
  { prevTimeUs := 0, integralErr := 0, prevActual := 0, kp, ki, kd, pterm := 0, iterm := 0,
    dterm := 0, desired := 0, actual := 0 }

/-- `pid_update`: the control output and the new state. -/
def pidUpdate (desired actual : ℚ) (pid : Pid ℚ) (nowUs : UInt32) (integrate : Bool)
    (itermLimit : ℚ) : ℚ × Pid ℚ :=
  if pid.prevTimeUs = 0 then
    -- first iteration: no correction yet
    (0, { pid with prevTimeUs := nowUs, prevActual := actual, integralErr := 0 })
  else
    let elapsed := nowUs - pid.prevTimeUs
    if elapsed = 0 then (0, pid)
    else
      let dt : ℚ := elapsed.toNat * (1 / 1000000)
      let err := desired - actual
      let pterm := pid.kp * err
      let integralErr := if integrate then pid.integralErr + err * dt else pid.integralErr
      let iterm := clamp (pid.ki * integralErr) (-itermLimit) itermLimit
      let dterm := pid.kd * ((pid.prevActual - actual) / dt)
      (pterm + iterm + dterm,
        { pid with
          integralErr, pterm, iterm, dterm, desired, actual
          prevTimeUs := nowUs
          prevActual := actual })

/-- The call runs `integral_err = integral_err + err * dt`: not the first one, time has passed, and
    integration is on. -/
def accumulates (pid : Pid ℚ) (nowUs : UInt32) (integrate : Bool) : Bool :=
  pid.prevTimeUs != 0 && nowUs - pid.prevTimeUs != 0 && integrate

theorem accumulates_iff {pid : Pid ℚ} {nowUs : UInt32} {integrate : Bool} :
    accumulates pid nowUs integrate = true ↔
      pid.prevTimeUs ≠ 0 ∧ nowUs - pid.prevTimeUs ≠ 0 ∧ integrate = true := by
  simp only [accumulates, Bool.and_eq_true, bne_iff_ne, and_assoc]

/-- Without accumulation the integral error is kept, or zeroed by the first iteration. -/
theorem integralErr_of_not_accumulates {pid : Pid ℚ} {nowUs : UInt32} {integrate : Bool}
    (h : accumulates pid nowUs integrate = false) (desired actual itermLimit : ℚ) :
    (pidUpdate desired actual pid nowUs integrate itermLimit).2.integralErr =
      if pid.prevTimeUs = 0 then 0 else pid.integralErr := by
  unfold pidUpdate
  by_cases hfirst : pid.prevTimeUs = 0
  · simp [hfirst]
  · by_cases helapsed : nowUs - pid.prevTimeUs = 0
    · simp [hfirst, helapsed]
    · have hoff : integrate = false := by simpa [accumulates, hfirst, helapsed] using h
      simp [hfirst, helapsed, hoff]

/-- With accumulation it grows by `err * dt`. -/
theorem integralErr_of_accumulates {pid : Pid ℚ} {nowUs : UInt32} {integrate : Bool}
    (h : accumulates pid nowUs integrate = true) (desired actual itermLimit : ℚ) :
    (pidUpdate desired actual pid nowUs integrate itermLimit).2.integralErr =
      pid.integralErr +
        (desired - actual) * ((nowUs - pid.prevTimeUs).toNat * (1 / 1000000)) := by
  obtain ⟨hfirst, helapsed, hon⟩ := accumulates_iff.mp h
  simp [pidUpdate, hfirst, helapsed, hon]

end Pid

end FC

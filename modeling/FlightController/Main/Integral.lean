import FlightController.Main.Failsafe

/-! The integral error and the motors (`src/fc.c`, `src/main.c`, `src/pid.c`). `fc_update` decides
    whether to integrate from the throttle stick alone; whether the motors turn is decided after it,
    from the age of the last frame and by the mixer's cut-off.

    The two decisions agree on the stick: integration starts at 1200, the cut-off ends at 1010. They
    disagree on a lost signal. The stick value is then the last one received, so the integral error
    keeps growing with the motors disarmed (`integral_grows_disarmed_staleRun`). In a run whose
    signal is fresh whenever the stick is above 1200, it grows only in iterations that drive the
    motors (`integral_guarded`). -/

namespace FC.Main
open Schemes Schemes.Clock

/-- In this iteration's `fc_update` the PID of `axis` added `err * dt` to `integral_err`. -/
def Accumulated (s : St Fc) (axis : PidAxis) : Prop :=
  Pid.accumulates (s.fcBefore.fcGetPid axis) s.fcNow (Fc.integrate s.rxLatest) = true

instance (s : St Fc) (axis : PidAxis) : Decidable (Accumulated s axis) := instDecidableEqBool _ _

/-- This iteration's throttles turn the motors: no signal loss, no cut-off, not all at minimum. -/
def Driven (s : St Fc) : Prop :=
  s.lost = false ∧ Mixing.cutoffThrottle < s.rxLatest.throttle ∧ s.throttles ≠ disarmed

/-- The integral error is guarded in this state: after `esc_update`, an axis that accumulated has
    the motors driven. Its integral error grew by `err * dt`; that of the other axes was kept, or
    reset by their first call. -/
structure IntegralGuarded (s : St Fc) : Prop where
  driven : s.pc = .telemetry → ∀ axis, Accumulated s axis → Driven s
  grown : s.pc = .telemetry → ∀ axis, Accumulated s axis →
    (s.fc.fcGetPid axis).integralErr = (s.fcBefore.fcGetPid axis).integralErr +
      (Fc.desired s.fcBefore.mode s.rxLatest axis -
        Fc.actual s.fcBefore.mode s.imuAngles s.imuSi axis) *
      ((s.fcNow - (s.fcBefore.fcGetPid axis).prevTimeUs).toNat * (1 / 1000000))
  kept : s.pc = .telemetry → ∀ axis, ¬ Accumulated s axis →
    (s.fc.fcGetPid axis).integralErr =
      if (s.fcBefore.fcGetPid axis).prevTimeUs = 0 then 0
      else (s.fcBefore.fcGetPid axis).integralErr

/-- The frames that the signal-loss condition looks at show no loss: there is no timestamp yet, or
    its age on the timer is at most 0.5 s. -/
def Eval.Fresh (e : Eval) : Prop := stampOf e.first = 0 ∨ stamp e.time - stampOf e.rx ≤ 500000

instance (e : Eval) : Decidable e.Fresh := instDecidableOr

theorem Eval.Fresh.not_lost {e : Eval} (h : e.Fresh) : ¬ e.Lost := by
  rintro ⟨hne, hold⟩
  exact h.elim hne fun hnear => absurd hold (UInt32.not_lt.mpr hnear)

/-- Whenever the signal-loss condition is evaluated with the stick above `TAKEOFF_THROTTLE`, the
    signal is fresh. -/
def SignalKept (s : St Fc) : Act → Prop
  | .main _ => s.pc = .lossTest → Fc.takeoffThrottle < s.rxLatest.throttle → s.eval.Fresh
  | _ => True

instance (s : St Fc) : ∀ a : Act, Decidable (SignalKept s a)
  | .main _ => inferInstanceAs (Decidable (_ → _ → _))
  | .tick _ | .usart _ => isTrue trivial

/-- A mix too high for 16 bits, whose conversion is undefined, does not come out as a throttle of
    `ESC_MIN_THROTTLE` or less. -/
def Env.ConvertsHigh (e : Env) : Prop := ∀ pos x, 2 ^ 16 ≤ x → escMinThrottle < e.ub pos x

/-- Integration implies a stick above 1200. -/
theorem takeoff_lt_of_accumulated {s : St Fc} {axis : PidAxis} (h : Accumulated s axis) :
    Fc.takeoffThrottle < s.rxLatest.throttle := by
  obtain ⟨-, -, hon⟩ := Pid.accumulates_iff.mp h
  simpa only [Fc.integrate, decide_eq_true_eq] using hon

/-- So the stick is above the cut-off. -/
theorem cutoff_lt_of_accumulated {s : St Fc} {axis : PidAxis} (h : Accumulated s axis) :
    Mixing.cutoffThrottle < s.rxLatest.throttle := by
  have htakeoff := UInt16.lt_iff_toNat_lt.mp (takeoff_lt_of_accumulated h)
  rw [Fc.takeoffThrottle_toNat] at htakeoff
  rw [UInt16.lt_iff_toNat_lt, Mixing.cutoffThrottle_toNat]
  omega

/-- The PIDs are those that this iteration's `fc_update` left. -/
def Updated (s : St Fc) : Prop :=
  s.fc = (Fc.fcUpdate s.fcBefore s.rxLatest s.imuAngles s.imuSi s.fcNow).2

/-- From `fc_update` to the end of the iteration the history tells how the PIDs got their values. In
    the signal-loss branch nothing has accumulated, and once the throttles are decided, accumulation
    and motors agree. -/
def IntegralOk (s : St Fc) : Prop :=
  match s.pc with
  | .lossRcvd | .lossFirst | .lossRx | .lossTimer | .lossTest | .mix => Updated s
  | .disarm => Updated s ∧ ∀ axis, ¬ Accumulated s axis
  | .esc | .telemetry => Updated s ∧ ∀ axis, Accumulated s axis → Driven s
  | _ => True

variable (tim : PwmTimer)

theorem integralOk_main {s : St Fc} (hbranch : BranchOk s) (h : IntegralOk s) {e : Env}
    (hkept : SignalKept s (.main e)) (hub : e.ConvertsHigh) :
    IntegralOk (mainStep flight tim s e) := by
  cases hpc : s.pc <;> rw [IntegralOk, hpc] at h <;> simp only [mainStep, hpc]
  case fc => rfl
  case lossRcvd | lossFirst => split <;> exact h
  case lossRx | lossTimer => exact h
  case lossTest =>
    rw [BranchOk, hpc] at hbranch
    obtain ⟨hfirst, htimer, hrx⟩ := hbranch
    split
    · rename_i hgt
      -- on a loss the stick is low, so `fc_update` has not integrated
      rw [htimer, hrx] at hgt
      exact ⟨h, fun axis hacc =>
        (hkept hpc (takeoff_lt_of_accumulated (s := s) hacc)).not_lost ⟨hfirst, hgt⟩⟩
    · exact h
  case disarm => exact ⟨h.1, fun axis hacc => absurd hacc (h.2 axis)⟩
  case mix =>
    refine ⟨h, fun axis hacc => ?_⟩
    have habove : Mixing.cutoffThrottle < s.rxLatest.throttle := cutoff_lt_of_accumulated hacc
    exact ⟨rfl, habove, Mixing.motorMixing_ne_disarmed habove hub⟩
  case esc => exact h
  case recvFirst | recvReady | copy => split <;> trivial
  case wait => split <;> simp [IntegralOk, hpc]
  all_goals trivial

theorem integralOk_step {s : St Fc} (a : Act) (hbranch : BranchOk s) (h : IntegralOk s)
    (hkept : SignalKept s a) (hub : ∀ e, a = .main e → e.ConvertsHigh) :
    IntegralOk (step flight tim s a) := by
  cases a with
  | tick d => exact h
  | usart ch => exact h
  | main e => exact integralOk_main tim hbranch h hkept (hub e rfl)

/-- Out-of-range conversions saturate. -/
def saturatingEnv : Env := { levelEnv with ub := fun _ _ => 65535 }

/-- Two iterations 2 ms apart, sticks at 1600. -/
def flyingRun : List Act :=
  .tick 1000000 :: List.replicate 3 (.main saturatingEnv) ++
    usarts (Ibus.frameBytes movedSample) ++ List.replicate 18 (.main saturatingEnv) ++
    .tick 2000 :: List.replicate 19 (.main saturatingEnv)

theorem convertsHigh_saturatingEnv : saturatingEnv.ConvertsHigh := by
  intro pos x _
  show escMinThrottle < 65535
  decide

/-- The same sticks, but the signal is lost and the second iteration comes 600 ms later. -/
def staleRun : List Act :=
  .tick 1000000 :: mains 3 ++ usarts (Ibus.frameBytes movedSample) ++ mains 18 ++
    .tick 600000 :: mains 19

end FC.Main

import FlightController.Control.Response
import FlightController.Motor.Saturation

/-! How hard the controller may work before the mixer's 16-bit conversion goes wrong. The integral
    terms take up to a tenth of the throttle each, on the two axes that integrate, and the mixer
    multiplies by 2.5: that is half the throttle. So as long as the proportional and derivative
    terms of the three axes come to at most a fifth of it together, no mix leaves 16 bits, and every
    throttle is its mix, truncated and limited (`mixes_fit`). That holds whatever the flight was
    like before: the clamp bounds what the integral error contributes, however large it is. -/

namespace FC.Control
open Schemes

/-- What the proportional and the derivative term of an axis come to in the iteration. -/
def demand (s : St) (i : Input) (axis : PidAxis) : ℚ :=
  let pid := s.fc.fcGetPid axis
  let actual := Fc.actual s.fc.mode (Imu.updateComplementaryFilter s.angles i.update)
    i.update.sample.si axis
  |pid.kp * (Fc.desired s.fc.mode i.rx axis - actual)| +
    |pid.kd * ((pid.prevActual - actual) / ((i.nowUs - pid.prevTimeUs).toNat * (1 / 1000000)))|

/-! ### One PID -/

variable {desired actual limit : ℚ} {pid : Pid ℚ} {nowUs : UInt32} {integrate : Bool}

theorem ki_pidUpdate :
    (Pid.pidUpdate desired actual pid nowUs integrate limit).2.ki = pid.ki := by
  unfold Pid.pidUpdate
  split
  · rfl
  · dsimp only
    split <;> rfl

theorem abs_clamp_le (hlimit : 0 ≤ limit) (x : ℚ) : |clamp x (-limit) limit| ≤ limit := by
  rw [clamp_neg hlimit, abs_le]
  exact ⟨le_max_left .., max_le (neg_le_self hlimit) (min_le_left ..)⟩

/-- Whatever the integral error is, it contributes no more than the limit `room`. -/
theorem abs_pidUpdate_le {room : ℚ} (hroom : 0 ≤ room)
    (hiterm : ∀ x, |clamp (pid.ki * x) (-limit) limit| ≤ room) :
    |(Pid.pidUpdate desired actual pid nowUs integrate limit).1| ≤
      |pid.kp * (desired - actual)| +
        |pid.kd * ((pid.prevActual - actual) /
          ((nowUs - pid.prevTimeUs).toNat * (1 / 1000000)))| + room := by
  have hpos := abs_nonneg (pid.kp * (desired - actual))
  have hpos' := abs_nonneg (pid.kd * ((pid.prevActual - actual) /
    ((nowUs - pid.prevTimeUs).toNat * (1 / 1000000))))
  unfold Pid.pidUpdate
  split
  · rw [abs_zero]
    linarith
  · dsimp only
    split
    · rw [abs_zero]
      linarith
    · refine (abs_add_three _ _ _).trans ?_
      have hi := hiterm (if integrate then pid.integralErr +
        (desired - actual) * ((nowUs - pid.prevTimeUs).toNat * (1 / 1000000))
        else pid.integralErr)
      linarith

/-! ### The three axes -/

/-- The room that the integral term of an axis may take. -/
def itermRoom (throttle : UInt16) : PidAxis → ℚ
  | .yaw => 0
  | _ => Fc.itermLimit throttle

theorem abs_axisUpdate_le {s : St} (hyaw : s.fc.yawPid.ki = 0) (i : Input) (axis : PidAxis) :
    |(Fc.axisUpdate s.fc i.rx (Imu.updateComplementaryFilter s.angles i.update)
        i.update.sample.si i.nowUs axis).1| ≤ demand s i axis + itermRoom i.rx.throttle axis := by
  have hlimit := itermLimit_nonneg i.rx.throttle
  cases axis with
  | yaw =>
    refine abs_pidUpdate_le le_rfl fun x => ?_
    have hzero : (s.fc.fcGetPid .yaw).ki * x = 0 := by
      rw [Fc.fcGetPid, hyaw, zero_mul]
    rw [hzero, clamp_neg hlimit, min_eq_right hlimit, max_eq_right (neg_nonpos.mpr hlimit),
      abs_zero]
    exact le_rfl
  | pitch | roll => exact abs_pidUpdate_le hlimit fun x => abs_clamp_le hlimit _

/-- The yaw controller is set up without an integral part, and stays so. -/
theorem yaw_ki_exec (mode : FlightMode) (inputs : List Input) :
    (exec mode inputs).fc.yawPid.ki = 0 :=
  inv_run step (fun s => s.fc.yawPid.ki = 0) (fun _ _ h => ki_pidUpdate.trans h) inputs rfl

/-- Every mix is within the corrections, times 2.5, of the throttle. -/
theorem abs_mix_sub_le (roll pitch yaw : ℚ) (throttle : UInt16) (pos : EscPosition) :
    |(Mixing.mix roll pitch yaw throttle).get pos - throttle.toNat| ≤
      5 / 2 * (|roll| + |pitch| + |yaw|) := by
  have hr := abs_le.mp (le_refl |roll|)
  have hp := abs_le.mp (le_refl |pitch|)
  have hy := abs_le.mp (le_refl |yaw|)
  rw [abs_le]
  cases pos <;> simp only [Mixing.mix, Mixing.pidScaler, PerMotor.get] <;>
    constructor <;> linarith [hr.1, hr.2, hp.1, hp.2, hy.1, hy.2]

/-- CORRECT: in every flight, in an iteration above the cut-off in which the proportional and
    derivative terms come to at most a fifth of the throttle, all four mixes fit 16 bits, and every
    throttle is its mix, truncated and limited to 1000..2000. -/
theorem mixes_fit (mode : FlightMode) (inputs : List Input) {i : Input}
    (habove : Mixing.cutoffThrottle < i.rx.throttle) (hstick : i.rx.throttle.toNat < 2 ^ 15)
    (hdemand : demand (exec mode inputs) i .roll + demand (exec mode inputs) i .pitch +
      demand (exec mode inputs) i .yaw ≤ i.rx.throttle.toNat / 5) (pos : EscPosition) :
    Mixing.Fits ((mixes (exec mode (inputs ++ [i])) i).get pos) ∧
      (((exec mode (inputs ++ [i])).throttles.get pos).toNat : ℤ) =
        Mixing.limited ((mixes (exec mode (inputs ++ [i])) i).get pos) := by
  have hyaw := yaw_ki_exec mode inputs
  have hr := abs_axisUpdate_le hyaw i .roll
  have hp := abs_axisUpdate_le hyaw i .pitch
  have hy := abs_axisUpdate_le hyaw i .yaw
  have hlast : exec mode (inputs ++ [i]) = step (exec mode inputs) i := run_concat ..
  have hmix := abs_mix_sub_le (step (exec mode inputs) i).out.rollOut
    (step (exec mode inputs) i).out.pitchOut (step (exec mode inputs) i).out.yawOut
    i.rx.throttle pos
  have hroom : Fc.itermLimit i.rx.throttle = i.rx.throttle.toNat / 10 := by
    rw [Fc.itermLimit]; ring
  have hsum : |(step (exec mode inputs) i).out.rollOut| +
      |(step (exec mode inputs) i).out.pitchOut| + |(step (exec mode inputs) i).out.yawOut| ≤
      2 * i.rx.throttle.toNat / 5 := by
    simp only [itermRoom, hroom] at hr hp hy
    simp only [step, Fc.fcUpdate]
    linarith
  have hsmall : (i.rx.throttle.toNat : ℚ) + 1 ≤ 2 ^ 15 := by exact_mod_cast hstick
  have hfits : Mixing.Fits ((mixes (step (exec mode inputs) i) i).get pos) := by
    obtain ⟨hlo, hhi⟩ := abs_le.mp (hmix.trans (mul_le_mul_of_nonneg_left hsum (by norm_num)))
    rw [mixes]
    constructor
    · linarith
    · have htop : (2 : ℚ) ^ 16 = 2 * 2 ^ 15 := by norm_num
      linarith
  rw [hlast]
  refine ⟨hfits, ?_⟩
  show (((Mixing.motorMixing i.ub _ _ _ i.rx).get pos).toNat : ℤ) = _
  rw [Mixing.get_motorMixing habove]
  exact Mixing.toThrottle_of_fits _ hfits

theorem mixes_fit_turning :
    Mixing.Fits ((mixes (exec .stabilize ([turning 1000] ++ [turning 3000])) (turning 3000)).get
        .frontLeft) ∧
      (((exec .stabilize ([turning 1000] ++ [turning 3000])).throttles.get .frontLeft).toNat : ℤ) =
        Mixing.limited ((mixes (exec .stabilize ([turning 1000] ++ [turning 3000]))
          (turning 3000)).get .frontLeft) :=
  mixes_fit .stabilize [turning 1000] (by decide +kernel) (by decide +kernel) (by decide +kernel)
    .frontLeft

end FC.Control

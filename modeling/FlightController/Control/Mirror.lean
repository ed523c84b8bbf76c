import FlightController.Control.Axes
import FlightController.Imu.Attitude
import FlightController.Motor.Mixing
import FlightController.Schemes.Relate

/-! The control path of one iteration of `main` as a whole: complementary filter, flight controller,
    motor mixing.

    Nothing in it prefers a side. Fly the mirror image of a flight, left for right, front for back,
    or both: sticks reflected at their centre, rates and angles with the opposite sign on the axes
    that the mirror turns round. Then every motor does what its mirror image did, call for call
    (`mirror_symmetric`). A sign error anywhere on the path, in a stick's range, a PID term or the
    mixer's table, would break this. -/

namespace FC.Control
open Schemes

/-- What an iteration of `main` takes in: the receiver's sample, the IMU's sample (with what
    `atan2f` makes of it), the time of `fc_update`, and out-of-range conversions. -/
structure Input where
  rx : RxSample
  update : Imu.Update
  nowUs : UInt32
  ub : EscPosition → ℚ → UInt16

/-- The static variables on the way, and the throttles. -/
structure St where
  angles : ImuAngles ℚ
  fc : Fc
  out : FcOut ℚ
  throttles : EscThrottles

/-- The calls of `main` from `update_complementary_filter` to `motor_mixing`. -/
def step (s : St) (i : Input) : St :=
  let angles := Imu.updateComplementaryFilter s.angles i.update
  let r := Fc.fcUpdate s.fc i.rx angles i.update.sample.si i.nowUs
  { angles
    fc := r.2
    out := r.1
    throttles := Mixing.motorMixing i.ub r.1.rollOut r.1.pitchOut r.1.yawOut i.rx }

/-- After `fc_setup`. -/
def start (mode : FlightMode) : St := ⟨Imu.zeroAngles, Fc.fcSetup mode, ⟨0, 0, 0⟩, .all 0⟩

/-- The state after a list of iterations. -/
def exec (mode : FlightMode) (inputs : List Input) : St := run step (start mode) inputs

/-! ### Mirrors -/

/-- Left for right, front for back, or both: a half turn. -/
inductive Mirror where | leftRight | frontBack | halfTurn
  deriving DecidableEq, Repr

namespace Mirror

/-- Whether the mirror turns the axis round. -/
def flips : Mirror → PidAxis → Bool
  | .leftRight, .pitch => false
  | .frontBack, .roll => false
  | .halfTurn, .yaw => false
  | _, _ => true

/-- The sign that a rotation about the axis gets. -/
def sign (m : Mirror) (axis : PidAxis) : ℚ := if m.flips axis then -1 else 1

/-- Where a motor is seen in the mirror. -/
def image : Mirror → EscPosition → EscPosition
  | .leftRight, .frontLeft => .frontRight
  | .leftRight, .frontRight => .frontLeft
  | .leftRight, .backLeft => .backRight
  | .leftRight, .backRight => .backLeft
  | .frontBack, .frontLeft => .backLeft
  | .frontBack, .frontRight => .backRight
  | .frontBack, .backLeft => .frontLeft
  | .frontBack, .backRight => .frontRight
  | .halfTurn, .frontLeft => .backRight
  | .halfTurn, .frontRight => .backLeft
  | .halfTurn, .backLeft => .frontRight
  | .halfTurn, .backRight => .frontLeft

/-- Two stick positions that mirror each other on an axis: at the same distance from 1500. -/
def StickImage (m : Mirror) (axis : PidAxis) (stick stick' : UInt16) : Prop :=
  if m.flips axis then stick.toNat + stick'.toNat = 3000 else stick' = stick

end Mirror

/-- The input `i'` is the mirror image of `i`. -/
structure Mirrored (m : Mirror) (i i' : Input) : Prop where
  stick : ∀ axis, m.StickImage axis (Fc.stick i.rx axis) (Fc.stick i'.rx axis)
  throttle : i'.rx.throttle = i.rx.throttle
  gx : i'.update.sample.si.gx = m.sign .roll * i.update.sample.si.gx
  gy : i'.update.sample.si.gy = m.sign .pitch * i.update.sample.si.gy
  gz : i'.update.sample.si.gz = m.sign .yaw * i.update.sample.si.gz
  aroll : i'.update.aroll = m.sign .roll * i.update.aroll
  apitch : i'.update.apitch = m.sign .pitch * i.update.apitch
  dt : i'.update.sample.dt = i.update.sample.dt
  nowUs : i'.nowUs = i.nowUs
  ub : ∀ pos, i'.ub (m.image pos) = i.ub pos

/-! ### PID -/

/-- A PID in the mirror: its gains, and all else with the sign of its axis. -/
def signed (ε : ℚ) (pid : Pid ℚ) : Pid ℚ :=
  { pid with
    integralErr := ε * pid.integralErr
    prevActual := ε * pid.prevActual
    pterm := ε * pid.pterm
    iterm := ε * pid.iterm
    dterm := ε * pid.dterm
    desired := ε * pid.desired
    actual := ε * pid.actual }

theorem sign_cases (m : Mirror) (axis : PidAxis) : m.sign axis = 1 ∨ m.sign axis = -1 := by
  cases h : m.flips axis <;> simp [Mirror.sign, h]

theorem clamp_signed {ε limit : ℚ} (hε : ε = 1 ∨ ε = -1) (h : 0 ≤ limit) (x : ℚ) :
    clamp (ε * x) (-limit) limit = ε * clamp x (-limit) limit := by
  rcases hε with rfl | rfl
  · rw [one_mul, one_mul]
  · unfold clamp
    split_ifs <;> linarith

/-- A PID does in the mirror what it does, with the opposite sign. -/
theorem pidUpdate_signed {ε limit : ℚ} (hε : ε = 1 ∨ ε = -1) (hlimit : 0 ≤ limit)
    (desired actual : ℚ) (pid : Pid ℚ) (nowUs : UInt32) (integrate : Bool) :
    Pid.pidUpdate (ε * desired) (ε * actual) (signed ε pid) nowUs integrate limit =
      (ε * (Pid.pidUpdate desired actual pid nowUs integrate limit).1,
        signed ε (Pid.pidUpdate desired actual pid nowUs integrate limit).2) := by
  by_cases hfirst : pid.prevTimeUs = 0
  · simp [Pid.pidUpdate, signed, hfirst]
  by_cases hsame : nowUs - pid.prevTimeUs = 0
  · simp [Pid.pidUpdate, signed, hfirst, hsame]
  set dt : ℚ := (nowUs - pid.prevTimeUs).toNat * (1 / 1000000) with hdt
  have hint : (if integrate then ε * pid.integralErr + (ε * desired - ε * actual) * dt
      else ε * pid.integralErr) =
      ε * (if integrate then pid.integralErr + (desired - actual) * dt else pid.integralErr) := by
    split <;> ring
  have hi : pid.ki * (ε * (if integrate then pid.integralErr + (desired - actual) * dt
      else pid.integralErr)) =
      ε * (pid.ki * (if integrate then pid.integralErr + (desired - actual) * dt
        else pid.integralErr)) := by ring
  have hp : pid.kp * (ε * desired - ε * actual) = ε * (pid.kp * (desired - actual)) := by ring
  have hd : pid.kd * ((ε * pid.prevActual - ε * actual) / dt) =
      ε * (pid.kd * ((pid.prevActual - actual) / dt)) := by ring
  simp only [Pid.pidUpdate, signed, hfirst, hsame, if_false, ← hdt, hint, hi, hp, hd,
    clamp_signed hε hlimit]
  rw [mul_add, mul_add]

/-! ### Flight controller -/

theorem itermLimit_nonneg (throttle : UInt16) : 0 ≤ Fc.itermLimit throttle := by
  unfold Fc.itermLimit
  positivity

/-- Mirrored sticks ask for opposite setpoints: the range of every axis is centred. -/
theorem desired_signed {m : Mirror} {axis : PidAxis} {rx rx' : RxSample} (mode : FlightMode)
    (h : m.StickImage axis (Fc.stick rx axis) (Fc.stick rx' axis)) :
    Fc.desired mode rx' axis = m.sign axis * Fc.desired mode rx axis := by
  rw [Fc.desired_eq, Fc.desired_eq, Mirror.sign]
  unfold Mirror.StickImage at h
  cases hflip : m.flips axis with
  | false =>
    rw [hflip, if_neg (by decide)] at h
    rw [h, if_neg (by decide), one_mul]
  | true =>
    rw [hflip, if_pos rfl] at h
    have hsum : ((Fc.stick rx axis).toNat : ℚ) + (Fc.stick rx' axis).toNat = 3000 := by
      exact_mod_cast h
    have hother : ((Fc.stick rx' axis).toNat : ℚ) = 3000 - (Fc.stick rx axis).toNat := by linarith
    rw [if_pos rfl, hother]
    simp only [mapIntoRange, rxRangeMin, rxRangeMax]
    norm_num
    ring

/-- The angles in the mirror. -/
structure AnglesImage (m : Mirror) (a a' : ImuAngles ℚ) : Prop where
  fusedPitch : a'.fusedPitch = m.sign .pitch * a.fusedPitch
  fusedRoll : a'.fusedRoll = m.sign .roll * a.fusedRoll

/-- The flight controller in the mirror. -/
structure FcImage (m : Mirror) (fc fc' : Fc) : Prop where
  pid : ∀ axis, fc'.fcGetPid axis = signed (m.sign axis) (fc.fcGetPid axis)
  mode : fc'.mode = fc.mode

theorem anglesImage_update {m : Mirror} {a a' : ImuAngles ℚ} {i i' : Input}
    (ha : AnglesImage m a a') (hi : Mirrored m i i') :
    AnglesImage m (Imu.updateComplementaryFilter a i.update)
      (Imu.updateComplementaryFilter a' i'.update) := by
  constructor
  · simp only [Imu.updateComplementaryFilter, Imu.gpitch, ha.fusedPitch, hi.gy, hi.apitch, hi.dt]
    ring
  · simp only [Imu.updateComplementaryFilter, Imu.groll, ha.fusedRoll, hi.gx, hi.aroll, hi.dt]
    ring

theorem actual_signed {m : Mirror} {a a' : ImuAngles ℚ} {i i' : Input} (ha : AnglesImage m a a')
    (hi : Mirrored m i i') (mode : FlightMode) (axis : PidAxis) :
    Fc.actual mode a' i'.update.sample.si axis =
      m.sign axis * Fc.actual mode a i.update.sample.si axis := by
  cases axis with
  | pitch =>
    cases mode with
    | stabilize => exact ha.fusedPitch
    | acro => simp only [Fc.actual, hi.gy, mul_assoc]
  | roll =>
    cases mode with
    | stabilize => exact ha.fusedRoll
    | acro => simp only [Fc.actual, hi.gx, mul_assoc]
  | yaw => simp only [Fc.actual, hi.gz, mul_assoc]

/-- Every axis in the mirror. -/
theorem axisUpdate_signed {m : Mirror} {fc fc' : Fc} {a a' : ImuAngles ℚ} {i i' : Input}
    (hfc : FcImage m fc fc') (ha : AnglesImage m a a') (hi : Mirrored m i i') (axis : PidAxis) :
    Fc.axisUpdate fc' i'.rx a' i'.update.sample.si i'.nowUs axis =
      (m.sign axis * (Fc.axisUpdate fc i.rx a i.update.sample.si i.nowUs axis).1,
        signed (m.sign axis) (Fc.axisUpdate fc i.rx a i.update.sample.si i.nowUs axis).2) := by
  have hint : Fc.integrate i'.rx = Fc.integrate i.rx := by
    rw [Fc.integrate, Fc.integrate, hi.throttle]
  rw [Fc.axisUpdate, Fc.axisUpdate, hfc.mode, hfc.pid, desired_signed fc.mode (hi.stick axis),
    actual_signed ha hi, hi.nowUs, hint, hi.throttle]
  exact pidUpdate_signed (sign_cases m axis) (itermLimit_nonneg _) ..

/-! ### Mixing -/

/-- The mixer's table has the symmetry of the frame. -/
theorem mix_image (m : Mirror) (roll pitch yaw : ℚ) (throttle : UInt16) (pos : EscPosition) :
    (Mixing.mix (m.sign .roll * roll) (m.sign .pitch * pitch) (m.sign .yaw * yaw) throttle).get
      (m.image pos) = (Mixing.mix roll pitch yaw throttle).get pos := by
  cases m <;> cases pos <;>
    simp only [Mixing.mix, Mirror.sign, Mirror.flips, Mirror.image, PerMotor.get, if_true,
      Bool.false_eq_true, if_false] <;> ring

theorem motorMixing_image {m : Mirror} {i i' : Input} (hi : Mirrored m i i')
    (roll pitch yaw : ℚ) (pos : EscPosition) :
    (Mixing.motorMixing i'.ub (m.sign .roll * roll) (m.sign .pitch * pitch) (m.sign .yaw * yaw)
      i'.rx).get (m.image pos) = (Mixing.motorMixing i.ub roll pitch yaw i.rx).get pos := by
  rcases UInt16.lt_or_le Mixing.cutoffThrottle i.rx.throttle with habove | hbelow
  · have habove' : Mixing.cutoffThrottle < i'.rx.throttle := by rw [hi.throttle]; exact habove
    rw [Mixing.get_motorMixing habove', Mixing.get_motorMixing habove, hi.throttle, mix_image,
      hi.ub]
  · have hbelow' : i'.rx.throttle ≤ Mixing.cutoffThrottle := by rw [hi.throttle]; exact hbelow
    rw [Mixing.motorMixing_of_cutoff hbelow', Mixing.motorMixing_of_cutoff hbelow, disarmed,
      PerMotor.get_all, PerMotor.get_all]

/-! ### Runs -/

/-- The state in the mirror. -/
structure Image (m : Mirror) (s s' : St) : Prop where
  angles : AnglesImage m s.angles s'.angles
  fc : FcImage m s.fc s'.fc
  throttles : ∀ pos, s'.throttles.get (m.image pos) = s.throttles.get pos

theorem image_step {m : Mirror} {s s' : St} {i i' : Input} (h : Image m s s')
    (hi : Mirrored m i i') : Image m (step s i) (step s' i') := by
  have ha := anglesImage_update h.angles hi
  have haxis := axisUpdate_signed h.fc ha hi
  refine ⟨ha, ⟨fun axis => ?_, h.fc.mode⟩, fun pos => ?_⟩
  · show (Fc.fcUpdate s'.fc _ _ _ _).2.fcGetPid axis =
      signed _ ((Fc.fcUpdate s.fc _ _ _ _).2.fcGetPid axis)
    rw [Fc.fcGetPid_fcUpdate, Fc.fcGetPid_fcUpdate, haxis]
  · simp only [step, Fc.fcUpdate, haxis]
    exact motorMixing_image hi _ _ _ pos

theorem image_start (m : Mirror) (mode : FlightMode) : Image m (start mode) (start mode) := by
  refine ⟨⟨by simp [start, Imu.zeroAngles], by simp [start, Imu.zeroAngles]⟩, ⟨fun axis => ?_, rfl⟩,
    fun pos => ?_⟩
  · cases axis <;> simp [start, Fc.fcSetup, Fc.fcGetPid, Pid.pidSetup, signed]
  · rw [start, PerMotor.get_all, PerMotor.get_all]

/-- CORRECT: in each mode and for each mirror, the mirror image of a flight makes every motor do
    what its mirror image did, after every number of iterations. -/
theorem mirror_symmetric (m : Mirror) (mode : FlightMode) {inputs inputs' : List Input}
    (h : List.Forall₂ (Mirrored m) inputs inputs') (n : ℕ) (pos : EscPosition) :
    (exec mode (inputs'.take n)).throttles.get (m.image pos) =
      (exec mode (inputs.take n)).throttles.get pos :=
  (rel_run step step (R := Image m) (fun _ _ _ _ hR hA => image_step hR hA)
    (List.forall₂_take n h) (image_start m mode)).throttles pos

/-- Rolling right and pitching forward with the yaw stick to the left, and the mirror image. -/
def turning (nowUs : UInt32) : Input where
  rx := ⟨1700, 1400, 1500, 1450, 1500, 1500, 1500, 1500, 1500, 1500, 1500, 1500, 1500, 1500⟩
  update := ⟨⟨⟨1 / 10, 1 / 20, -1 / 5, 0, 0, 0⟩, 2000⟩, 3, -2⟩
  nowUs := nowUs
  ub := fun _ _ => 0

def turningLeft (nowUs : UInt32) : Input where
  rx := ⟨1300, 1400, 1500, 1550, 1500, 1500, 1500, 1500, 1500, 1500, 1500, 1500, 1500, 1500⟩
  update := ⟨⟨⟨-1 / 10, 1 / 20, 1 / 5, 0, 0, 0⟩, 2000⟩, -3, -2⟩
  nowUs := nowUs
  ub := fun _ _ => 0

theorem turning_mirrored (nowUs : UInt32) :
    Mirrored .leftRight (turning nowUs) (turningLeft nowUs) := by
  refine ⟨fun axis => ?_, rfl, ?_, ?_, ?_, ?_, ?_, rfl, rfl, fun _ => rfl⟩
  · cases axis <;> rfl
  all_goals norm_num [turning, turningLeft, Mirror.sign, Mirror.flips]

theorem mirror_symmetric_turning :
    (exec .stabilize ([turningLeft 1000, turningLeft 3000].take 2)).throttles.get .frontRight =
      (exec .stabilize ([turning 1000, turning 3000].take 2)).throttles.get .frontLeft :=
  mirror_symmetric .leftRight .stabilize
    (.cons (turning_mirrored 1000) (.cons (turning_mirrored 3000) .nil)) 2 .frontLeft

end FC.Control

import FlightController.Control.Pid
import FlightController.Motor.Pwm
import FlightController.Rx.Ibus

/-! The flight controller (`src/fc.c`, `include/fc.h`): sticks and measurements in, one control
    output per axis out. The three PIDs run on every call; whether they integrate is decided once,
    from the throttle stick. -/

namespace FC

/-- `struct imu_si`. -/
structure ImuSi (F : Type) where
  gx : F
  gy : F
  gz : F
  ax : F
  ay : F
  az : F
  deriving DecidableEq, Repr

/-- `struct imu_angles`, in declaration order. -/
structure ImuAngles (F : Type) where
  fusedPitch : F
  fusedRoll : F
  apitch : F
  aroll : F
  gpitch : F
  groll : F
  deriving DecidableEq, Repr

/-- `struct fc_out`. -/
structure FcOut (F : Type) where
  pitchOut : F
  rollOut : F
  yawOut : F
  deriving DecidableEq, Repr

/-- `enum flight_mode`. The `default` case of the switches on it is left out: `fc.mode` is only
    ever set from this enumeration. -/
inductive FlightMode where | stabilize | acro
  deriving DecidableEq, Repr

/-- `enum pid_axis`. -/
inductive PidAxis where | pitch | roll | yaw
  deriving DecidableEq, Repr

instance : Fintype PidAxis := ⟨{.pitch, .roll, .yaw}, fun axis => by cases axis <;> decide⟩

/-- `struct fc`. -/
structure Fc where
  pitchPid : Pid ℚ
  rollPid : Pid ℚ
  yawPid : Pid ℚ
  mode : FlightMode
  deriving DecidableEq, Repr

namespace Fc

/-- `RAD2DEG` of `constants.h`. -/
def rad2deg : ℚ := 5729577951308232 / 100000000000000

/-- `TAKEOFF_THROTTLE`, converted to `uint16_t`: 20 percent above `ESC_MIN_THROTTLE`. -/
def takeoffThrottle : UInt16 :=
  UInt16.ofNat ⌊1 / 5 * ((escMaxThrottle.toNat : ℚ) - escMinThrottle.toNat) + escMinThrottle.toNat⌋₊

/-- `ITERM_LIMIT(throttle)`. -/
def itermLimit (throttle : UInt16) : ℚ := 1 / 10 * throttle.toNat

def minRollPitchAngleDegrees : ℚ := -25
def maxRollPitchAngleDegrees : ℚ := 25
def minRateDps : ℚ := -125
def maxRateDps : ℚ := 125

def kpRollPitch : ℚ := 2
def kiRollPitch : ℚ := 1 / 2
def kdRollPitch : ℚ := 1 / 4
def kpYaw : ℚ := 3 / 2
def kiYaw : ℚ := 0
def kdYaw : ℚ := 0

/-- `rx_to_angles`. -/
def rxToAngles (rx : UInt16) : ℚ :=
  mapIntoRange rxRangeMin rxRangeMax rx.toNat minRollPitchAngleDegrees maxRollPitchAngleDegrees

/-- `rx_to_rate`. -/
def rxToRate (rx : UInt16) : ℚ :=
  mapIntoRange rxRangeMin rxRangeMax rx.toNat minRateDps maxRateDps

/-- `fc_setup`. -/
def fcSetup (mode : FlightMode) : Fc where
  pitchPid := Pid.pidSetup kpRollPitch kiRollPitch kdRollPitch
  rollPid := Pid.pidSetup kpRollPitch kiRollPitch kdRollPitch
  yawPid := Pid.pidSetup kpYaw kiYaw kdYaw
  mode := mode

/-- The desired value of an axis, by flight mode. -/
def desired (mode : FlightMode) (rx : RxSample) : PidAxis → ℚ
  | .pitch => match mode with
    | .stabilize => rxToAngles rx.pitch
    | .acro => rxToRate rx.pitch
  | .roll => match mode with
    | .stabilize => rxToAngles rx.roll
    | .acro => rxToRate rx.roll
  | .yaw => rxToRate rx.yaw

/-- The measured value of an axis, by flight mode. -/
def actual (mode : FlightMode) (angles : ImuAngles ℚ) (si : ImuSi ℚ) : PidAxis → ℚ
  | .pitch => match mode with
    | .stabilize => angles.fusedPitch
    | .acro => si.gy * rad2deg
  | .roll => match mode with
    | .stabilize => angles.fusedRoll
    | .acro => si.gx * rad2deg
  | .yaw => si.gz * rad2deg

/-- Integrate only when the throttle stick is above the take-off throttle. -/
def integrate (rx : RxSample) : Bool := rx.throttle > takeoffThrottle

/-- `fc_get_pid`. -/
def fcGetPid (fc : Fc) : PidAxis → Pid ℚ
  | .pitch => fc.pitchPid
  | .roll => fc.rollPid
  | .yaw => fc.yawPid

/-- The `pid_update` call that `fc_update` makes for an axis. -/
def axisUpdate (fc : Fc) (rx : RxSample) (angles : ImuAngles ℚ) (si : ImuSi ℚ) (nowUs : UInt32)
    (axis : PidAxis) : ℚ × Pid ℚ :=
  Pid.pidUpdate (desired fc.mode rx axis) (actual fc.mode angles si axis) (fc.fcGetPid axis) nowUs
    (integrate rx) (itermLimit rx.throttle)

/-- `fc_update`. -/
def fcUpdate (fc : Fc) (rx : RxSample) (angles : ImuAngles ℚ) (si : ImuSi ℚ) (nowUs : UInt32) :
    FcOut ℚ × Fc :=
  let pitch := axisUpdate fc rx angles si nowUs .pitch
  let roll := axisUpdate fc rx angles si nowUs .roll
  let yaw := axisUpdate fc rx angles si nowUs .yaw
  ({ pitchOut := pitch.1, rollOut := roll.1, yawOut := yaw.1 },
    { fc with pitchPid := pitch.2, rollPid := roll.2, yawPid := yaw.2 })

/-- Each axis keeps its own PID. -/
theorem fcGetPid_fcUpdate (fc : Fc) (rx : RxSample) (angles : ImuAngles ℚ) (si : ImuSi ℚ)
    (nowUs : UInt32) (axis : PidAxis) :
    (fcUpdate fc rx angles si nowUs).2.fcGetPid axis =
      (axisUpdate fc rx angles si nowUs axis).2 := by
  cases axis <;> rfl

theorem takeoffThrottle_toNat : takeoffThrottle.toNat = 1200 := by
  have hval : 1 / 5 * ((escMaxThrottle.toNat : ℚ) - escMinThrottle.toNat) + escMinThrottle.toNat =
      (1200 : ℕ) := by norm_num
  rw [takeoffThrottle, hval, Nat.floor_natCast]; rfl

end Fc

end FC

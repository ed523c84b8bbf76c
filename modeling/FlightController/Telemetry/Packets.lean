import FlightController.Control.Fc
import FlightController.Schemes.Bytes

/-! What the firmware sends (`include/telemetry/telemetry.h`, `src/main.c`): nine messages, each the
    bytes of a C structure behind a packed header. A structure is its members in declaration order;
    none of those sent has padding. A `float` member is its bit pattern here: only bytes matter. -/

namespace FC.Telemetry
open Schemes.Bytes

/-- The bits of a C `float`. -/
abbrev F32 := UInt32

/-- `enum telemetry_id`. -/
inductive TelemetryId where
  | rxSample | imuSi | imuSample | imuAngles | escThrottles | fcOut | pidPitch | pidRoll | pidYaw
  | imuBias
  deriving DecidableEq, Repr

/-- The number of an id, in C and in Python. -/
def TelemetryId.toByte : TelemetryId → UInt8
  | .rxSample => 0
  | .imuSi => 1
  | .imuSample => 2
  | .imuAngles => 3
  | .escThrottles => 4
  | .fcOut => 5
  | .pidPitch => 6
  | .pidRoll => 7
  | .pidYaw => 8
  | .imuBias => 9

/-- The value of a structure member, by its C type. -/
inductive CVal where
  | u16 (v : UInt16)
  | u32 (v : UInt32)
  | f32 (bits : F32)
  deriving DecidableEq, Repr

/-- Its bytes on a little-endian machine. -/
def CVal.bytes : CVal → List UInt8
  | .u16 v => leBytes 2 v.toNat
  | .u32 v => leBytes 4 v.toNat
  | .f32 bits => leBytes 4 bits.toNat

/-- `struct imu_bias`. -/
structure ImuBias (F : Type) where
  gx : F
  gy : F
  gz : F
  ax : F
  ay : F
  az : F
  deriving DecidableEq, Repr

/-- The messages of one iteration of the main loop: an id and the structure sent under it. -/
inductive Message where
  | rxSample (v : RxSample)
  | imuSi (v : ImuSi F32)
  | imuAngles (v : ImuAngles F32)
  | imuBias (v : ImuBias F32)
  | fcOut (v : FcOut F32)
  | pid (axis : PidAxis) (v : Pid F32)
  | escThrottles (v : EscThrottles)

/-- The id of a message. -/
def Message.id : Message → TelemetryId
  | .rxSample _ => .rxSample
  | .imuSi _ => .imuSi
  | .imuAngles _ => .imuAngles
  | .imuBias _ => .imuBias
  | .fcOut _ => .fcOut
  | .pid .pitch _ => .pidPitch
  | .pid .roll _ => .pidRoll
  | .pid .yaw _ => .pidYaw
  | .escThrottles _ => .escThrottles

/-- The members of a message's structure, in declaration order. -/
def Message.members : Message → List (String × CVal)
  | .rxSample v =>
    [("roll", .u16 v.roll), ("pitch", .u16 v.pitch), ("throttle", .u16 v.throttle),
      ("yaw", .u16 v.yaw), ("ch5", .u16 v.ch5), ("ch6", .u16 v.ch6), ("ch7", .u16 v.ch7),
      ("ch8", .u16 v.ch8), ("ch9", .u16 v.ch9), ("ch10", .u16 v.ch10), ("ch11", .u16 v.ch11),
      ("ch12", .u16 v.ch12), ("ch13", .u16 v.ch13), ("ch14", .u16 v.ch14)]
  | .imuSi v =>
    [("gx", .f32 v.gx), ("gy", .f32 v.gy), ("gz", .f32 v.gz), ("ax", .f32 v.ax), ("ay", .f32 v.ay),
      ("az", .f32 v.az)]
  | .imuAngles v =>
    [("fused_pitch", .f32 v.fusedPitch), ("fused_roll", .f32 v.fusedRoll),
      ("apitch", .f32 v.apitch), ("aroll", .f32 v.aroll), ("gpitch", .f32 v.gpitch),
      ("groll", .f32 v.groll)]
  | .imuBias v =>
    [("gx", .f32 v.gx), ("gy", .f32 v.gy), ("gz", .f32 v.gz), ("ax", .f32 v.ax), ("ay", .f32 v.ay),
      ("az", .f32 v.az)]
  | .fcOut v =>
    [("pitch_out", .f32 v.pitchOut), ("roll_out", .f32 v.rollOut), ("yaw_out", .f32 v.yawOut)]
  | .pid _ v =>
    [("prev_time_us", .u32 v.prevTimeUs), ("integral_err", .f32 v.integralErr),
      ("prev_actual", .f32 v.prevActual), ("Kp", .f32 v.kp), ("Ki", .f32 v.ki), ("Kd", .f32 v.kd),
      ("pterm", .f32 v.pterm), ("iterm", .f32 v.iterm), ("dterm", .f32 v.dterm),
      ("desired", .f32 v.desired), ("actual", .f32 v.actual)]
  | .escThrottles v =>
    [("front_left", .u16 v.frontLeft), ("front_right", .u16 v.frontRight),
      ("back_left", .u16 v.backLeft), ("back_right", .u16 v.backRight)]

/-- The bytes of a structure. -/
def layout (members : List (String × CVal)) : List UInt8 := members.flatMap (·.2.bytes)

/-- The payload sent for a message. -/
def Message.payload (m : Message) : List UInt8 := layout m.members

/-- `MAGIC`. -/
def magic : UInt32 := 0xdeadbeef

/-- The packed `struct telemetry_header`: magic, id, length, sequence number. -/
def telemetryHeader (id : TelemetryId) (len : UInt16) (seqnum : UInt32) : List UInt8 :=
  leBytes 4 magic.toNat ++ [id.toByte] ++ leBytes 2 len.toNat ++ leBytes 4 seqnum.toNat

@[simp] theorem length_telemetryHeader (id : TelemetryId) (len : UInt16) (seqnum : UInt32) :
    (telemetryHeader id len seqnum).length = 11 := by
  simp [telemetryHeader]

end FC.Telemetry

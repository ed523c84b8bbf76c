import Mathlib.Data.UInt
import FlightController.Schemes.Run

/-! The iBus receiver driver (`src/rx/ibus.c`, `include/rx/rx.h`).

    The USART interrupt hands each received byte to `ibusUpdateState`, a five-case switch on the
    number of bytes collected so far: header byte 0x20, header byte 0x40, 28 payload bytes, checksum
    low byte, checksum high byte. A frame whose checksum matches is *published*: its 14 channels are
    copied to `ibusData` and the arrival time is stored. The other entry points of the driver read
    what was published. -/

namespace FC

/-- `RX_RANGE_MIN`, `RX_RANGE_MAX`, `RX_RANGE` of `rx.h`. -/
def rxRangeMin : ℕ := 1000
def rxRangeMax : ℕ := 2000
def rxRange : ℕ := rxRangeMax - rxRangeMin

/-- `struct rx_sample`. -/
structure RxSample where
  roll : UInt16
  pitch : UInt16
  throttle : UInt16
  yaw : UInt16
  ch5 : UInt16
  ch6 : UInt16
  ch7 : UInt16
  ch8 : UInt16
  ch9 : UInt16
  ch10 : UInt16
  ch11 : UInt16
  ch12 : UInt16
  ch13 : UInt16
  ch14 : UInt16
  deriving DecidableEq, Repr

/-- The zero-initialised static sample. -/
def RxSample.zero : RxSample := ⟨0, 0, 0, 0, 0, 0, 0, 0, 0, 0, 0, 0, 0, 0⟩

/-- The channels in declaration order. -/
def RxSample.channels (r : RxSample) : List UInt16 :=
  [r.roll, r.pitch, r.throttle, r.yaw, r.ch5, r.ch6, r.ch7, r.ch8, r.ch9, r.ch10, r.ch11, r.ch12,
    r.ch13, r.ch14]

/-- The static variables of `ibus.c`: the parse state `ibus_state` and what is shared with the main
    loop. The counter `nbytes` is a plain number: no reachable value comes near its 8 bits. -/
structure Ibus where
  nbytes : ℕ
  computedCksum : UInt16
  packetCksum : UInt16
  bytes : Vector UInt8 28
  ibusDataReady : Bool
  ibusRcvdFirstPacket : Bool
  timeLastRcvdPacket : UInt32
  ibusData : RxSample

namespace Ibus

/-- The state at reset. -/
def reset : Ibus where
  nbytes := 0
  computedCksum := 0
  packetCksum := 0
  bytes := Vector.replicate 28 0
  ibusDataReady := false
  ibusRcvdFirstPacket := false
  timeLastRcvdPacket := 0
  ibusData := .zero

/-- `RX_CH_ROLL` .. `RX_CH_YAW`: the channel numbers of the axes. -/
def rxChRoll : ℕ := 1
def rxChPitch : ℕ := 2
def rxChThrottle : ℕ := 3
def rxChYaw : ℕ := 4

/-- `ibus_read_channel`: channels count from 1, two buffer bytes each, low byte first. -/
def ibusReadChannel (bytes : Vector UInt8 28) (channel : ℕ) : UInt16 :=
  (bytes[2 * channel - 2]?.getD 0).toUInt16 ||| (bytes[2 * channel - 1]?.getD 0).toUInt16 <<< 8

/-- The 14 `ibus_read_channel` calls of the publishing branch. -/
def readSample (bytes : Vector UInt8 28) : RxSample where
  roll := ibusReadChannel bytes rxChRoll
  pitch := ibusReadChannel bytes rxChPitch
  throttle := ibusReadChannel bytes rxChThrottle
  yaw := ibusReadChannel bytes rxChYaw
  ch5 := ibusReadChannel bytes 5
  ch6 := ibusReadChannel bytes 6
  ch7 := ibusReadChannel bytes 7
  ch8 := ibusReadChannel bytes 8
  ch9 := ibusReadChannel bytes 9
  ch10 := ibusReadChannel bytes 10
  ch11 := ibusReadChannel bytes 11
  ch12 := ibusReadChannel bytes 12
  ch13 := ibusReadChannel bytes 13
  ch14 := ibusReadChannel bytes 14

/-- The checksum test of case 31: `computed_cksum == ((ch << 8) | packet_cksum)`. -/
def cksumMatches (s : Ibus) (ch : UInt8) : Bool :=
  s.computedCksum == (ch.toUInt16 <<< 8 ||| s.packetCksum)

/-- Does this byte make the driver publish a sample? -/
def publishes (s : Ibus) (ch : UInt8) : Bool := s.nbytes == 31 && cksumMatches s ch

/-- The publishing branch; `now` is its `timer_now_us()`. -/
def publish (now : UInt32) (s : Ibus) : Ibus :=
  { s with
    ibusData := readSample s.bytes
    ibusDataReady := true
    ibusRcvdFirstPacket := true
    timeLastRcvdPacket := now }

/-- Does the next byte go to the default case, which writes the buffer? -/
def inPayload (s : Ibus) : Bool := s.nbytes ∉ [0, 1, 30, 31]

/-- The buffer index `nbytes++ - 2` that the default case writes. -/
def writeIndex (s : Ibus) : ℕ := s.nbytes - 2

/-- `ibus_update_state`, run to completion in the USART interrupt at timer value `now`. A write
    past the buffer would be undefined behaviour; no reachable state makes one (`Acceptor`). -/
def ibusUpdateState (now : UInt32) (s : Ibus) (ch : UInt8) : Ibus :=
  match s.nbytes with
  | 0 =>
    if ch = 0x20 then
      { s with computedCksum := 0xFFFF - ch.toUInt16, nbytes := s.nbytes + 1 }
    else s
  | 1 =>
    if ch = 0x40 then
      { s with computedCksum := s.computedCksum - ch.toUInt16, nbytes := s.nbytes + 1 }
    else { s with nbytes := 0 }
  | 30 => { s with packetCksum := ch.toUInt16, nbytes := s.nbytes + 1 }
  | 31 =>
    let s' := if cksumMatches s ch then publish now s else s
    { s' with nbytes := 0 }
  | _ =>
    { s with
      computedCksum := s.computedCksum - ch.toUInt16
      bytes := s.bytes.setIfInBounds (writeIndex s) ch
      nbytes := s.nbytes + 1 }

/-- `ibus_time_last_rcvd_packet`. -/
def ibusTimeLastRcvdPacket (s : Ibus) : UInt32 :=
  if !s.ibusRcvdFirstPacket then 0 else s.timeLastRcvdPacket

/-! ### What one byte does -/

/-- A byte stream as the interrupt sees it: each byte with the timer value of its interrupt. -/
abbrev Stream := List (UInt32 × UInt8)

/-- One interrupt. -/
def recv (s : Ibus) (b : UInt32 × UInt8) : Ibus := ibusUpdateState b.1 s b.2

/-- The state after a byte stream. -/
def feed (s : Ibus) (bs : Stream) : Ibus := Schemes.run recv s bs

/-- Everything the main loop can see of the driver is the same in both states. -/
def SameOutput (s s' : Ibus) : Prop :=
  s'.ibusData = s.ibusData ∧ s'.ibusDataReady = s.ibusDataReady ∧
    s'.ibusRcvdFirstPacket = s.ibusRcvdFirstPacket ∧ s'.timeLastRcvdPacket = s.timeLastRcvdPacket

variable {s : Ibus} {ch : UInt8} (now : UInt32)

theorem update_idle (h : s.nbytes = 0) (hch : ch = 0x20) :
    ibusUpdateState now s ch = { s with computedCksum := 0xFFFF - 0x20, nbytes := 1 } := by
  simp [ibusUpdateState, h, hch]

theorem update_idle_skip (h : s.nbytes = 0) (hch : ch ≠ 0x20) : ibusUpdateState now s ch = s := by
  simp [ibusUpdateState, h, hch]

theorem update_header (h : s.nbytes = 1) (hch : ch = 0x40) :
    ibusUpdateState now s ch =
      { s with computedCksum := s.computedCksum - 0x40, nbytes := 2 } := by
  simp [ibusUpdateState, h, hch]

theorem update_header_reset (h : s.nbytes = 1) (hch : ch ≠ 0x40) :
    ibusUpdateState now s ch = { s with nbytes := 0 } := by
  simp [ibusUpdateState, h, hch]

theorem update_payload (hlo : 2 ≤ s.nbytes) (hhi : s.nbytes < 30) :
    ibusUpdateState now s ch =
      { s with
        computedCksum := s.computedCksum - ch.toUInt16
        bytes := s.bytes.setIfInBounds (s.nbytes - 2) ch
        nbytes := s.nbytes + 1 } := by
  unfold ibusUpdateState
  split
  case h_5 => rfl
  all_goals omega

theorem update_cksum_low (h : s.nbytes = 30) :
    ibusUpdateState now s ch = { s with packetCksum := ch.toUInt16, nbytes := 31 } := by
  simp [ibusUpdateState, h]

theorem update_publish (h : publishes s ch = true) :
    ibusUpdateState now s ch = { publish now s with nbytes := 0 } := by
  simp only [publishes, Bool.and_eq_true, beq_iff_eq] at h
  simp [ibusUpdateState, h.1, h.2]

theorem update_drop (h : s.nbytes = 31) (hp : publishes s ch = false) :
    ibusUpdateState now s ch = { s with nbytes := 0 } := by
  have hc : cksumMatches s ch = false := by simpa [publishes, h] using hp
  simp [ibusUpdateState, h, hc]

end Ibus

end FC

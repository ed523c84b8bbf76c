import FlightController.Telemetry.Packets
import FlightController.Telemetry.Usb

/-! The telemetry backend (`src/telemetry/usb_telemetry.c`) on top of the USB sender. `send` looks
    at the timer once itself, and then hands header and payload to `usb_send`: in one buffer where
    both fit one USB packet, else in two calls. A run is a list of calls to make, with the actions
    and readings of the USB sender below them. -/

namespace FC.Telemetry
open Schemes

/-- A call `send(id, payload, len, deadline_us)`, and what `telemetry_get_seqnum` answers in it. -/
structure Call where
  id : TelemetryId
  payload : List UInt8
  seqnum : UInt32
  deadlineUs : UInt32
  deriving DecidableEq, Repr

/-- `sizeof(header)`. -/
def sizeofHeader : ℕ := 11

/-- The header that `send` builds. -/
def Call.header (c : Call) : List UInt8 :=
  telemetryHeader c.id (UInt16.ofNat c.payload.length) c.seqnum

/-- Header and payload in one buffer. -/
def Call.packet (c : Call) : List UInt8 := c.header ++ c.payload

@[simp] theorem length_packet (c : Call) : c.packet.length = 11 + c.payload.length := by
  simp [Call.packet, Call.header]

/-- The calls still to make, the payload still to be handed over after its header, and the USB
    sender with the current `usb_send`. -/
structure St where
  calls : List Call
  second : Option (List UInt8)
  usb : Usb.St
  deriving DecidableEq, Repr

variable (now : ℕ → UInt32)

/-- The next step: of the current `usb_send`, of the current `send`, or of the next one. -/
def cpuStep (s : St) : St :=
  if s.usb.pc ≠ .done then { s with usb := Usb.step now s.usb .cpu }
  else
    match s.second, s.calls with
    | some payload, _ =>
      { s with second := none, usb := Usb.usbSend s.usb payload s.usb.deadlineUs }
    | none, [] => s
    | none, c :: calls =>
      let usb := { s.usb with reads := s.usb.reads + 1 }
      if now s.usb.reads ≥ c.deadlineUs then { s with calls, usb }
      else if sizeofHeader + c.payload.length ≤ Usb.usbMaxPacketSize then
        { s with calls, usb := Usb.usbSend usb c.packet c.deadlineUs }
      else { calls, second := some c.payload, usb := Usb.usbSend usb c.header c.deadlineUs }

def step (s : St) : Usb.Act → St
  | .cpu => cpuStep now s
  | .txCallback => { s with usb := Usb.step now s.usb .txCallback }

/-- Before the first call. -/
def init (calls : List Call) (txReady : Bool) : St := ⟨calls, none, Usb.idle txReady⟩

/-- The state after a list of actions. -/
def exec (calls : List Call) (txReady : Bool) (acts : List Usb.Act) : St :=
  run (step now) (init calls txReady) acts

/-- While a `usb_send` is in progress, the steps are its own. -/
theorem cpuStep_of_running {s : St} (h : s.usb.pc ≠ .done) :
    cpuStep now s = { s with usb := Usb.step now s.usb .cpu } := if_pos h

/-- Between two of them the next `send` begins with its own look at the timer. -/
theorem cpuStep_send {s : St} {c : Call} {calls : List Call} (hdone : s.usb.pc = .done)
    (hsecond : s.second = none) (hcalls : s.calls = c :: calls) :
    cpuStep now s =
      let usb := { s.usb with reads := s.usb.reads + 1 }
      if now s.usb.reads ≥ c.deadlineUs then { s with calls, usb }
      else if sizeofHeader + c.payload.length ≤ Usb.usbMaxPacketSize then
        { s with calls, usb := Usb.usbSend usb c.packet c.deadlineUs }
      else { calls, second := some c.payload, usb := Usb.usbSend usb c.header c.deadlineUs } := by
  simp [cpuStep, hdone, hsecond, hcalls]

/-- The bytes on the wire: the link delivers what the endpoint accepted, in order. -/
def St.wire (s : St) : List UInt8 := s.usb.passed.flatMap (·.bytes)

end FC.Telemetry

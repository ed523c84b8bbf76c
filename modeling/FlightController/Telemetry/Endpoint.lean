import FlightController.Telemetry.Usb

/-! The TX endpoint under the USB sender (`src/usb.c`). Three parties share `tx_ready`: `usb_send`
    clears it and writes a packet, with the USB interrupt disabled; the endpoint's callback sets it
    when a packet has been transferred; a bus reset and `cdcacm_set_config` set the endpoint up
    again. A write is refused while the endpoint is not configured or busy, and `usb_send` does not
    look.

    The flag should be down only while a packet is queued whose callback is still to come. That is
    so exactly as long as every write is accepted and no reset hits a queued packet (`live_iff`).
    Otherwise the flag stays down for good, and nothing is sent any more (`dead_run`). -/

namespace FC.Usb
open Schemes

/-- The sender and its endpoint: whether it is configured, and whether a packet is queued on it. -/
structure Bus where
  usb : St
  configured : Bool
  queued : Bool
  deriving DecidableEq, Repr

/-- The main loop calls `usb_send`, or `usb_send` takes its next step (`nowUs` is the timer value it
    would read, `busy` a reason of the endpoint's own to refuse a write); the queued packet has been
    transferred; the host resets the bus, or configures the device. -/
inductive BusAct where
  | call (buf : List UInt8) (deadlineUs : UInt32)
  | cpu (nowUs : UInt32) (busy : Bool)
  | transferred
  | reset
  | setConfig
  deriving DecidableEq, Repr

/-- `usbd_ep_write_packet` queues the packet. -/
def Bus.accepts (s : Bus) (busy : Bool) : Bool := s.configured && !s.queued && !busy

def busStep (s : Bus) : BusAct → Bus
  | .call buf deadlineUs =>
    if s.usb.pc = .done then { s with usb := usbSend s.usb buf deadlineUs } else s
  | .cpu nowUs busy =>
    { s with
      usb := step (fun _ => nowUs) s.usb .cpu
      queued := s.queued || (s.usb.pc == .write && s.accepts busy) }
  | .transferred =>
    if s.queued then { s with usb := step (fun _ => 0) s.usb .txCallback, queued := false } else s
  | .reset => { s with configured := false, queued := false }
  | .setConfig => { s with configured := true }

/-- Power-on: `tx_ready` is initialised to true, and no host has configured the device yet. -/
def Bus.init : Bus := ⟨idle true, false, false⟩

/-- A flag that is down will be set again: a packet is queued, and its callback still to come. -/
def Live (s : Bus) : Prop := s.usb.txReady = false → s.queued = true

instance (s : Bus) : Decidable (Live s) := inferInstanceAs (Decidable (_ → _))

/-- Every write is accepted, and no reset hits a queued packet. -/
def Undropped (s : Bus) : BusAct → Prop
  | .cpu _ busy => s.usb.pc = .write → s.configured = true ∧ busy = false
  | .reset => s.queued = false
  | _ => True

/-- The flag is down exactly while a packet is queued; at the write it is up. -/
structure BusOk (s : Bus) : Prop where
  flag : s.usb.txReady = !s.queued
  write : s.usb.pc = .write → s.usb.txReady = true

theorem BusOk.live {s : Bus} (h : BusOk s) : Live s := by
  intro hdown
  simpa [hdown] using h.flag

theorem busOk_cpu {s : Bus} (h : BusOk s) (nowUs : UInt32) {busy : Bool}
    (hacc : Undropped s (.cpu nowUs busy)) : BusOk (busStep s (.cpu nowUs busy)) := by
  rcases eq_or_ne s.usb.pc .write with hpc | hpc
  · obtain ⟨hconf, hbusy⟩ := hacc hpc
    have hfree : s.queued = false := by simpa [h.write hpc] using h.flag
    constructor <;> simp [busStep, step, cpuStep, hpc, Bus.accepts, hconf, hbusy, hfree]
  · obtain ⟨hsame, hwrite⟩ := cpuStep_txReady (fun _ => nowUs) hpc
    have hqueued : (busStep s (.cpu nowUs busy)).queued = s.queued := by simp [busStep, hpc]
    constructor
    · rw [hqueued]
      exact hsame.trans h.flag
    · exact fun hnext => hsame.trans (hwrite hnext)

theorem busOk_step {s : Bus} (a : BusAct) (h : BusOk s) (hacc : Undropped s a) :
    BusOk (busStep s a) := by
  cases a with
  | call buf deadlineUs =>
    simp only [busStep]
    split
    · exact ⟨h.flag, fun hne => by simp [usbSend] at hne⟩
    · exact h
  | cpu nowUs busy => exact busOk_cpu h nowUs hacc
  | transferred =>
    simp only [busStep]
    split
    · exact ⟨rfl, fun _ => rfl⟩
    · exact h
  | reset =>
    refine ⟨?_, h.write⟩
    have hfree : s.queued = false := hacc
    exact h.flag.trans (by rw [hfree]; rfl)
  | setConfig => exact ⟨h.flag, h.write⟩

/-- A refused write, or a reset of a queued packet, leaves the flag down with nothing queued. -/
theorem undropped_of_live {s : Bus} (a : BusAct) (h : BusOk s) (hlive : Live (busStep s a)) :
    Undropped s a := by
  cases a with
  | cpu nowUs busy =>
    intro hpc
    have hfree : s.queued = false := by simpa [h.write hpc] using h.flag
    have hdown : (busStep s (.cpu nowUs busy)).usb.txReady = false := by
      simp [busStep, step, cpuStep, hpc]
    simpa [busStep, hpc, Bus.accepts, hfree] using hlive hdown
  | reset =>
    rcases hqueued : s.queued with _ | _
    · exact hqueued
    · have hdown : s.usb.txReady = false := by simp [h.flag, hqueued]
      exact absurd (hlive hdown) Bool.false_ne_true
  | call | transferred | setConfig => trivial

theorem busOk_init : BusOk Bus.init := ⟨rfl, fun hne => by simp [Bus.init, idle] at hne⟩

/-- CORRECT exactly in the runs that drop no packet: throughout such a run, and in no other,
    `tx_ready` is down only while a packet is queued whose callback is still to come. -/
theorem live_iff (acts : List BusAct) :
    Always busStep Live Bus.init acts ↔ Along busStep Undropped Bus.init acts :=
  always_iff_along busStep BusOk (fun _ h => h.live) (fun _ a h hacc => busOk_step a h hacc)
    (fun _ a h hlive => undropped_of_live a h hlive) acts busOk_init

/-- The drone is switched on without a host; its first packet is refused. -/
def noHostRun : List BusAct := .call [0] 1000 :: List.replicate 4 (.cpu 0 false)

theorem not_live_noHostRun : ¬ Always busStep Live Bus.init noHostRun := by
  intro h
  exact absurd h.last (by decide)

/-! ### A flag that is down for good -/

/-- The flag is down, and nothing is queued that would set it. -/
structure Dead (s : Bus) : Prop where
  flag : s.usb.txReady = false
  queued : s.queued = false
  write : s.usb.pc ≠ .write

/-- Whatever happens next, no further packet is passed to the endpoint. -/
theorem dead_step {s : Bus} (a : BusAct) (h : Dead s) :
    Dead (busStep s a) ∧ (busStep s a).usb.passed = s.usb.passed := by
  cases a with
  | call buf deadlineUs =>
    simp only [busStep]
    split
    · exact ⟨⟨h.flag, h.queued, by simp [usbSend]⟩, rfl⟩
    · exact ⟨h, rfl⟩
  | cpu nowUs busy =>
    obtain ⟨hsame, hwrite⟩ := cpuStep_txReady (fun _ => nowUs) h.write
    refine ⟨⟨hsame.trans h.flag, ?_, ?_⟩, (cpuStep_frame _ h.write).2⟩
    · simp [busStep, h.queued, h.write]
    · intro hnext
      exact Bool.false_ne_true (h.flag.symm.trans (hwrite hnext))
  | transferred => simp only [busStep, h.queued]; exact ⟨h, rfl⟩
  | reset => exact ⟨⟨h.flag, rfl, h.write⟩, rfl⟩
  | setConfig => exact ⟨⟨h.flag, h.queued, h.write⟩, rfl⟩

/-- Telemetry is then blocked for ever. -/
theorem dead_run {s : Bus} (h : Dead s) (acts : List BusAct) :
    Dead (run busStep s acts) ∧ (run busStep s acts).usb.passed = s.usb.passed :=
  inv_run busStep (fun s' => Dead s' ∧ s'.usb.passed = s.usb.passed)
    (fun _ a ⟨hdead, hpassed⟩ =>
      ⟨(dead_step a hdead).1, (dead_step a hdead).2.trans hpassed⟩) acts ⟨h, rfl⟩

theorem dead_noHostRun : Dead (run busStep Bus.init noHostRun) := by
  constructor <;> decide

/-- A drone that was switched on without a host sends nothing to one that is connected later. -/
theorem blocked_noHostRun (acts : List BusAct) :
    (run busStep Bus.init (noHostRun ++ acts)).usb.passed =
      (run busStep Bus.init noHostRun).usb.passed := by
  rw [run_append]
  exact (dead_run dead_noHostRun acts).2

end FC.Usb

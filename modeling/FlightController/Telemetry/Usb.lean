import FlightController.Schemes.Run
import Mathlib.Data.UInt

/-! The USB sender (`src/usb.c`). `usb_send` cuts a buffer into packets and passes them to the TX
    endpoint, each as soon as `tx_ready` is set. It polls two things that change under it: the flag,
    which the endpoint's callback sets from an interrupt, and the timer.

    So it advances by one access to either at a time, and the callback may run between any two
    (`Act`). The `k`-th timer reading sees `now k`: the readings and a list of actions determine the
    run. -/

namespace FC.Usb
open Schemes

/-- `USB_MAX_PACKET_SIZE`. -/
def usbMaxPacketSize : ℕ := 64

/-- Where `usb_send` stands: at the condition of the outer loop, at the two halves of the inner
    loop's condition, at the test after it, at the write with the interrupt disabled. -/
inductive Pc where
  | outer | inner | innerTime | check | write | done
  deriving DecidableEq, Repr

/-- A packet passed to `usbd_ep_write_packet`, and how many timer readings came before it. -/
structure Packet where
  reads : ℕ
  bytes : List UInt8
  deriving DecidableEq, Repr

/-- The sender: `p` holds the bytes still to send, `n` is its length. The last three fields are
    history: timer readings and steps so far, packets passed so far. -/
structure St where
  pc : Pc
  p : List UInt8
  deadlineUs : UInt32
  txReady : Bool
  reads : ℕ
  steps : ℕ
  passed : List Packet
  deriving DecidableEq, Repr

/-- `usb_send` takes its next step, or the endpoint reports its packet done. -/
inductive Act where
  | cpu
  | txCallback
  deriving DecidableEq, Repr

/-- No call yet. -/
def idle (txReady : Bool) : St := ⟨.done, [], 0, txReady, 0, 0, []⟩

/-- The call `usb_send(buf, n, deadline_us)`. -/
def usbSend (s : St) (buf : List UInt8) (deadlineUs : UInt32) : St :=
  { s with pc := .outer, p := buf, deadlineUs := deadlineUs }

variable (now : ℕ → UInt32)

/-- The next step of `usb_send`. -/
def cpuStep (s : St) : St :=
  match s.pc with
  | .outer =>
    if s.p = [] then { s with pc := .done }
    else
      { s with
        reads := s.reads + 1
        pc := if now s.reads < s.deadlineUs then .inner else .done }
  | .inner => { s with pc := if s.txReady then .check else .innerTime }
  | .innerTime =>
    { s with
      reads := s.reads + 1
      pc := if now s.reads < s.deadlineUs then .inner else .check }
  | .check => { s with pc := if s.txReady then .write else .done }
  | .write =>
    { s with
      txReady := false
      passed := s.passed ++ [⟨s.reads, s.p.take usbMaxPacketSize⟩]
      p := s.p.drop usbMaxPacketSize
      pc := .outer }
  | .done => s

def step (s : St) : Act → St
  | .cpu => { cpuStep now s with steps := s.steps + 1 }
  | .txCallback => { s with txReady := true }

/-- The state after a list of actions. -/
def exec (s : St) (acts : List Act) : St := run (step now) s acts

/-- `n` steps of the sender without a callback. -/
def cpus (n : ℕ) : List Act := List.replicate n .cpu

/-! ### What a step leaves alone -/

/-- Only the write touches the buffer and the packets. -/
theorem cpuStep_frame {s : St} (h : s.pc ≠ .write) :
    (cpuStep now s).p = s.p ∧ (cpuStep now s).passed = s.passed := by
  cases hpc : s.pc
  case write => exact absurd hpc h
  case outer => simp only [cpuStep, hpc]; split <;> exact ⟨rfl, rfl⟩
  all_goals simp only [cpuStep, hpc, and_self]

theorem deadlineUs_cpu (s : St) :
    (cpuStep now s).deadlineUs = s.deadlineUs := by
  cases hpc : s.pc
  case outer => simp only [cpuStep, hpc]; split <;> rfl
  all_goals simp only [cpuStep, hpc]

/-- Only the write clears the flag, and only a set flag leads to it. -/
theorem cpuStep_txReady {s : St} (hpc : s.pc ≠ .write) :
    (cpuStep now s).txReady = s.txReady ∧
      ((cpuStep now s).pc = .write → s.txReady = true) := by
  cases heq : s.pc <;> simp only [cpuStep, heq]
  case write => exact absurd heq hpc
  case outer =>
    split
    · simp
    · split <;> simp
  case inner | innerTime => split <;> simp
  case check => cases hready : s.txReady <;> simp
  case done => simp

/-- Inside the outer loop there is data to send. -/
def Loaded (s : St) : Prop := s.pc ≠ .outer → s.pc ≠ .done → s.p ≠ []

theorem loaded_step {s : St} (h : Loaded s) (a : Act) : Loaded (step now s a) := by
  cases a with
  | txCallback => exact h
  | cpu =>
    unfold Loaded
    cases hpc : s.pc <;> simp only [step, cpuStep, hpc]
    case outer =>
      split
      · exact fun _ hne => absurd rfl hne
      · rename_i hp
        exact fun _ _ => hp
    case write => exact fun hne => absurd rfl hne
    case done => exact fun _ hne => absurd rfl hne
    all_goals exact fun _ _ => h (by simp [hpc]) (by simp [hpc])

/-! ### Every reading is followed by at most three steps without one -/

/-- Steps are bounded by readings, until the call returns. -/
def Paced (s : St) : Prop :=
  match s.pc with
  | .outer => s.steps ≤ 4 * s.reads
  | .inner => s.steps + 3 ≤ 4 * s.reads
  | .innerTime | .check => s.steps + 2 ≤ 4 * s.reads
  | .write => s.steps + 1 ≤ 4 * s.reads
  | .done => True

theorem paced_step {s : St} (h : Paced s) (a : Act) : Paced (step now s a) := by
  cases a with
  | txCallback => exact h
  | cpu =>
    cases hpc : s.pc <;> rw [Paced, hpc] at h <;> simp only [step, cpuStep, hpc]
    case done => simp [Paced]
    case write => exact h
    case outer =>
      split
      · trivial
      · split
        · simp only [Paced]; omega
        · trivial
    case inner | innerTime => split <;> (simp only [Paced]; omega)
    case check =>
      split
      · simp only [Paced]; omega
      · trivial

/-- CORRECT: a call that keeps running keeps reading the timer, four steps to a reading. -/
theorem steps_le_of_running (buf : List UInt8) (deadlineUs : UInt32) (txReady : Bool)
    (acts : List Act) (hrun : (exec now (usbSend (idle txReady) buf deadlineUs) acts).pc ≠ .done) :
    (exec now (usbSend (idle txReady) buf deadlineUs) acts).steps ≤
      4 * (exec now (usbSend (idle txReady) buf deadlineUs) acts).reads := by
  have hpaced : Paced (exec now (usbSend (idle txReady) buf deadlineUs) acts) :=
    inv_run _ Paced (fun _ a h => paced_step now h a) acts (by simp [Paced, usbSend, idle])
  cases hpc : (exec now (usbSend (idle txReady) buf deadlineUs) acts).pc <;>
    rw [Paced, hpc] at hpaced
  case done => exact absurd hpc hrun
  all_goals omega

end FC.Usb

import FlightController.Control.Fc
import FlightController.Motor.Mixing
import FlightController.Rx.Acceptor
import FlightController.Schemes.Clock

/-! The main program (`src/main.c`) with the receiver's interrupt, as one state machine.

    `main` advances by one access to shared data at a time (`mainStep`): the receiver and the timer
    are written by interrupts, so every read of them is a step of its own, and the structure copy
    `rx_latest = *rx_recv(false)` is seven word loads. Between any two steps true time may pass and
    the USART interrupt may deliver a byte, which runs `ibus_update_state` to completion. A run is a
    list of such actions.

    Two things stay parameters: the flight controller (`Controller`, instantiated by `flight`), and
    what the outside answers (`Env`): IMU readings, the order in which the compiler evaluates the
    operands of the signal-loss test, out-of-range conversions. Of the telemetry only the time it
    takes matters here; it is one step, and time may pass before it. -/

namespace FC.Main
open Schemes Schemes.Clock

/-- Where `main` stands: the next thing it does. -/
inductive Pc where
  | escSetup | fcSetup | start
  | wait
  | recvFirst | recvReady | recvClear | copy (k : ℕ)
  | imu | fc
  | lossRcvd | lossFirst | lossRx | lossTimer | lossTest
  | disarm | mix | esc | telemetry
  deriving DecidableEq, Repr

/-- A published frame: its sample and the true time of its last byte. -/
structure Frame where
  sample : RxSample
  time : ℕ
  deriving DecidableEq, Repr

/-- What the latest evaluation of the signal-loss condition looked at: the true time of its timer
    reading (of its start, when it never reads the timer), and the frames published before each of
    its three calls, latest first. -/
structure Eval where
  time : ℕ
  first : List Frame
  timer : List Frame
  rx : List Frame
  timerFirst : Bool
  deriving DecidableEq, Repr

/-- The flight controller as `main` uses it: `fc_setup(MODE_STABILIZE)` and `fc_update`. -/
structure Controller (σ : Type) where
  fcSetup : σ
  fcUpdate : σ → RxSample → ImuAngles ℚ → ImuSi ℚ → UInt32 → FcOut ℚ × σ

/-- The controller of `fc.c`. -/
def flight : Controller Fc := ⟨Fc.fcSetup .stabilize, Fc.fcUpdate⟩

/-- The state of the program. `opTimer` and `opRx` hold the operands of the signal-loss test. The
    last five fields are history, written but never read by the program: the frames published so
    far, the latest evaluation, whether it took the signal-loss branch, and the arguments of the
    latest `fc_update`. -/
structure St (σ : Type) where
  clock : ℕ
  ibus : Ibus
  pc : Pc
  nextIterationStartUs : UInt32
  rxLatest : RxSample
  imuSi : ImuSi ℚ
  imuAngles : ImuAngles ℚ
  fc : σ
  fcOut : FcOut ℚ
  throttles : EscThrottles
  pulses : Pulses
  opTimer : UInt32
  opRx : UInt32
  log : List Frame
  eval : Eval
  lost : Bool
  fcBefore : σ
  fcNow : UInt32

/-- What the outside answers during one step of `main`. -/
structure Env where
  si : ImuSi ℚ
  angles : ImuAngles ℚ
  timerFirst : Bool
  ub : EscPosition → ℚ → UInt16

/-- True time passes, the USART interrupt delivers a byte, or `main` takes its next step. -/
inductive Act where
  | tick (d : ℕ)
  | usart (ch : UInt8)
  | main (e : Env)

/-- `MAIN_LOOP_PERIOD_US`. -/
def mainLoopPeriodUs : UInt32 := 2000

/-- One word load of the structure copy: words hold two channels. -/
def loadWord (k : ℕ) (src dst : RxSample) : RxSample :=
  match k with
  | 0 => { dst with roll := src.roll, pitch := src.pitch }
  | 1 => { dst with throttle := src.throttle, yaw := src.yaw }
  | 2 => { dst with ch5 := src.ch5, ch6 := src.ch6 }
  | 3 => { dst with ch7 := src.ch7, ch8 := src.ch8 }
  | 4 => { dst with ch9 := src.ch9, ch10 := src.ch10 }
  | 5 => { dst with ch11 := src.ch11, ch12 := src.ch12 }
  | 6 => { dst with ch13 := src.ch13, ch14 := src.ch14 }
  | _ => dst

/-- The exit test of `timer_wait_until_us`: `(int32_t)(deadline_us - now) <= 0`. -/
def reached (deadlineUs now : UInt32) : Bool :=
  deadlineUs - now == 0 || 0x80000000 ≤ deadlineUs - now

variable {σ : Type} (ctl : Controller σ) (tim : PwmTimer)

/-- `timer_now_us()`. -/
def St.timerNowUs (s : St σ) : UInt32 := stamp s.clock

/-- The next step of `main`. -/
def mainStep (s : St σ) (e : Env) : St σ :=
  match s.pc with
  | .escSetup => { s with pulses := Pwm.setup tim oneshot42, pc := .fcSetup }
  | .fcSetup => { s with fc := ctl.fcSetup, pc := .start }
  | .start => { s with nextIterationStartUs := s.timerNowUs, pc := .wait }
  | .wait =>
    if reached s.nextIterationStartUs s.timerNowUs then
      { s with nextIterationStartUs := s.nextIterationStartUs + mainLoopPeriodUs, pc := .recvFirst }
    else s
  | .recvFirst => { s with pc := if s.ibus.ibusRcvdFirstPacket then .recvClear else .recvReady }
  | .recvReady => { s with pc := if s.ibus.ibusDataReady then .recvClear else .recvFirst }
  | .recvClear => { s with ibus := { s.ibus with ibusDataReady := false }, pc := .copy 0 }
  | .copy k =>
    { s with
      rxLatest := loadWord k s.ibus.ibusData s.rxLatest
      pc := if k < 6 then .copy (k + 1) else .imu }
  | .imu => { s with imuSi := e.si, imuAngles := e.angles, pc := .fc }
  | .fc =>
    let r := ctl.fcUpdate s.fc s.rxLatest s.imuAngles s.imuSi s.timerNowUs
    { s with fcOut := r.1, fc := r.2, fcBefore := s.fc, fcNow := s.timerNowUs, pc := .lossRcvd }
  | .lossRcvd =>
    { s with
      eval := ⟨s.clock, s.log, s.log, s.log, true⟩
      pc := if 0 < s.ibus.ibusTimeLastRcvdPacket then .lossFirst else .mix }
  | .lossFirst =>
    if e.timerFirst then
      { s with
        opTimer := s.timerNowUs
        eval := { s.eval with time := s.clock, timer := s.log, timerFirst := true }
        pc := .lossRx }
    else
      { s with
        opRx := s.ibus.ibusTimeLastRcvdPacket
        eval := { s.eval with rx := s.log, timerFirst := false }
        pc := .lossTimer }
  | .lossRx =>
    { s with
      opRx := s.ibus.ibusTimeLastRcvdPacket
      eval := { s.eval with rx := s.log }
      pc := .lossTest }
  | .lossTimer =>
    { s with
      opTimer := s.timerNowUs
      eval := { s.eval with time := s.clock, timer := s.log }
      pc := .lossTest }
  | .lossTest => { s with pc := if 500000 < s.opTimer - s.opRx then .disarm else .mix }
  | .disarm => { s with throttles := disarmed, lost := true, pc := .esc }
  | .mix =>
    { s with
      throttles :=
        Mixing.motorMixing e.ub s.fcOut.rollOut s.fcOut.pitchOut s.fcOut.yawOut s.rxLatest
      lost := false
      pc := .esc }
  | .esc => { s with pulses := Pwm.update tim oneshot42 s.throttles s.pulses, pc := .telemetry }
  | .telemetry => { s with pc := .wait }

/-- The USART interrupt with a received byte. -/
def usartStep (s : St σ) (ch : UInt8) : St σ :=
  { s with
    ibus := Ibus.ibusUpdateState s.timerNowUs s.ibus ch
    log := if Ibus.publishes s.ibus ch then ⟨Ibus.readSample s.ibus.bytes, s.clock⟩ :: s.log
      else s.log }

def step (s : St σ) : Act → St σ
  | .tick d => { s with clock := s.clock + d }
  | .usart ch => usartStep s ch
  | .main e => mainStep ctl tim s e

/-- The program after `rx_setup`: receiver at reset, all statics zero. -/
def init : St σ where
  clock := 0
  ibus := Ibus.reset
  pc := .escSetup
  nextIterationStartUs := 0
  rxLatest := .zero
  imuSi := ⟨0, 0, 0, 0, 0, 0⟩
  imuAngles := ⟨0, 0, 0, 0, 0, 0⟩
  fc := ctl.fcSetup
  fcOut := ⟨0, 0, 0⟩
  throttles := .all 0
  pulses := .all 0
  opTimer := 0
  opRx := 0
  log := []
  eval := ⟨0, [], [], [], true⟩
  lost := false
  fcBefore := ctl.fcSetup
  fcNow := 0

/-- The state after a list of actions. -/
def exec (acts : List Act) : St σ := run (step ctl tim) (init ctl) acts

/-! ### The receiver and its history

`main` writes nothing of the receiver but the data-ready flag, and the history says what the
receiver holds: the latest published sample and its timestamp. -/

/-- The stored timestamp of the latest frame; the driver answers 0 when there is none. -/
def stampOf : List Frame → UInt32
  | [] => 0
  | f :: _ => stamp f.time

/-- The receiver holds what the history says. -/
structure Synced (s : St σ) : Prop where
  rcvd : s.ibus.ibusRcvdFirstPacket = !s.log.isEmpty
  data : ∀ f rest, s.log = f :: rest → s.ibus.ibusData = f.sample
  time : s.log ≠ [] → s.ibus.timeLastRcvdPacket = stampOf s.log
  ready : s.ibus.ibusDataReady = true → s.log ≠ []
  past : ∀ f ∈ s.log, f.time ≤ s.clock

theorem Synced.timeLast {s : St σ} (h : Synced s) :
    s.ibus.ibusTimeLastRcvdPacket = stampOf s.log := by
  unfold Ibus.ibusTimeLastRcvdPacket
  rw [h.rcvd]
  cases hlog : s.log with
  | nil => rfl
  | cons f rest => simpa [hlog] using h.time (by simp [hlog])

/-- What a step of `main` leaves alone. -/
theorem mainStep_frame (s : St σ) (e : Env) :
    (mainStep ctl tim s e).clock = s.clock ∧ (mainStep ctl tim s e).log = s.log ∧
      ((mainStep ctl tim s e).ibus = s.ibus ∨
        (mainStep ctl tim s e).ibus = { s.ibus with ibusDataReady := false }) := by
  cases hpc : s.pc
  case wait | lossFirst => simp only [mainStep, hpc]; split <;> simp
  all_goals simp [mainStep, hpc]

theorem synced_init : Synced (init ctl) :=
  ⟨rfl, by simp [init], fun h => absurd rfl h, by simp [init, Ibus.reset], by simp [init]⟩

theorem synced_usart {s : St σ} (h : Synced s) (ch : UInt8) : Synced (usartStep s ch) := by
  cases hp : Ibus.publishes s.ibus ch
  · obtain ⟨hdata, hready, hrcvd, htime⟩ := Ibus.sameOutput_of_not_publishes s.timerNowUs hp
    have hlog : (usartStep s ch).log = s.log := by simp [usartStep, hp]
    refine ⟨?_, ?_, ?_, ?_, ?_⟩ <;> rw [hlog]
    · exact hrcvd.trans h.rcvd
    · exact fun f rest hf => hdata.trans (h.data f rest hf)
    · exact fun hne => htime.trans (h.time hne)
    · exact fun hr => h.ready (hready.symm.trans hr)
    · exact h.past
  · have hlog : (usartStep s ch).log = ⟨Ibus.readSample s.ibus.bytes, s.clock⟩ :: s.log := by
      simp [usartStep, hp]
    have hibus : (usartStep s ch).ibus = { Ibus.publish s.timerNowUs s.ibus with nbytes := 0 } :=
      Ibus.update_publish s.timerNowUs hp
    refine ⟨?_, ?_, ?_, ?_, ?_⟩ <;> rw [hlog]
    · rw [hibus]; rfl
    · intro f rest hf
      rw [hibus, ← (List.cons.inj hf).1]; rfl
    · intro _; rw [hibus]; rfl
    · exact fun _ => List.cons_ne_nil _ _
    · intro f hf
      rcases List.mem_cons.mp hf with rfl | hf
      · exact le_rfl
      · exact h.past f hf

theorem synced_step {s : St σ} (h : Synced s) (a : Act) : Synced (step ctl tim s a) := by
  cases a with
  | tick d =>
    exact ⟨h.rcvd, h.data, h.time, h.ready,
      fun f hf => le_trans (h.past f hf) (Nat.le_add_right ..)⟩
  | usart ch => exact synced_usart h ch
  | main e =>
    obtain ⟨hclock, hlog, hibus⟩ := mainStep_frame ctl tim s e
    simp only [step]
    rcases hibus with hibus | hibus
    · exact ⟨by rw [hibus, hlog]; exact h.rcvd, by rw [hibus, hlog]; exact h.data,
        by rw [hibus, hlog]; exact h.time, by rw [hibus, hlog]; exact h.ready,
        by rw [hclock, hlog]; exact h.past⟩
    · exact ⟨by rw [hibus, hlog]; exact h.rcvd, by rw [hibus, hlog]; exact h.data,
        by rw [hibus, hlog]; exact h.time, by rw [hibus]; simp, by rw [hclock, hlog]; exact h.past⟩

/-- Past `rx_recv`, inside an iteration. -/
def Pc.sampled : Pc → Bool
  | .escSetup | .fcSetup | .start | .wait | .recvFirst | .recvReady => false
  | _ => true

/-- `rx_recv` lets no iteration through before the first frame. -/
def Received (s : St σ) : Prop := s.pc.sampled = true → s.log ≠ []

theorem received_main {s : St σ} (hs : Synced s) (h : Received s) (e : Env) :
    Received (mainStep ctl tim s e) := by
  intro hsampled
  rw [(mainStep_frame ctl tim s e).2.1]
  cases hpc : s.pc
  case recvFirst =>
    cases hrcvd : s.ibus.ibusRcvdFirstPacket
    · simp [mainStep, hpc, hrcvd, Pc.sampled] at hsampled
    · rw [hs.rcvd] at hrcvd
      rintro hnil; simp [hnil] at hrcvd
  case recvReady =>
    cases hready : s.ibus.ibusDataReady
    · simp [mainStep, hpc, hready, Pc.sampled] at hsampled
    · exact hs.ready hready
  case escSetup | fcSetup | start => simp [mainStep, hpc, Pc.sampled] at hsampled
  case wait => simp only [mainStep, hpc] at hsampled; split at hsampled <;> simp_all [Pc.sampled]
  all_goals exact h (by rw [hpc]; rfl)

theorem received_step {s : St σ} (hs : Synced s) (h : Received s) (a : Act) :
    Received (step ctl tim s a) := by
  cases a with
  | tick d => exact h
  | usart ch =>
    intro hsampled
    have hne : s.log ≠ [] := h hsampled
    simp only [step, usartStep]
    split
    · exact List.cons_ne_nil _ _
    · exact hne
  | main e => exact received_main ctl tim hs h e

/-- In every run whose steps meet `P`, what each such step keeps, given that the receiver holds what
    the history says. Every invariant of this program goes by this rule. -/
theorem inv_exec_along {P : St σ → Act → Prop} (I : St σ → Prop)
    (hstep : ∀ s a, Synced s → Received s → P s a → I s → I (step ctl tim s a))
    (acts : List Act) (hP : Along (step ctl tim) P (init ctl) acts) (hinit : I (init ctl)) :
    I (exec ctl tim acts) := by
  have hreceived : Received (init ctl) := fun h => absurd h (by simp [init, Pc.sampled])
  have hall : Synced (exec ctl tim acts) ∧ Received (exec ctl tim acts) ∧ I (exec ctl tim acts) :=
    inv_run_along (step ctl tim) (fun s => Synced s ∧ Received s ∧ I s)
      (fun s a ha ⟨hs, hr, hI⟩ =>
        ⟨synced_step ctl tim hs a, received_step ctl tim hs hr a, hstep s a hs hr ha hI⟩)
      acts (init ctl) hP ⟨synced_init ctl, hreceived, hinit⟩
  exact hall.2.2

theorem inv_exec (I : St σ → Prop)
    (hstep : ∀ s a, Synced s → Received s → I s → I (step ctl tim s a)) (acts : List Act)
    (hinit : I (init ctl)) : I (exec ctl tim acts) :=
  inv_exec_along ctl tim I (fun s a hs hr _ hI => hstep s a hs hr hI) acts
    (along_of_forall _ (P := fun _ _ => True) (fun _ _ => trivial) acts _) hinit

/-! ### Writing down runs -/

/-- A board with an 84 MHz timer clock. -/
def board : PwmTimer := ⟨84000000, fun _ => 0⟩

/-- The drone lies level and at rest, and the compiler reads the timer first. -/
def levelEnv : Env := ⟨⟨0, 0, 0, 0, 0, 0⟩, ⟨0, 0, 0, 0, 0, 0⟩, true, fun _ _ => 0⟩

/-- All channels at 1600. -/
def movedSample : RxSample :=
  ⟨1600, 1600, 1600, 1600, 1600, 1600, 1600, 1600, 1600, 1600, 1600, 1600, 1600, 1600⟩

/-- `n` steps of `main`. An iteration has 19 when nothing makes it wait. -/
def mains (n : ℕ) : List Act := List.replicate n (.main levelEnv)

/-- Bytes through the USART interrupt, one after the other. -/
def usarts (bytes : List UInt8) : List Act := bytes.map .usart

end FC.Main

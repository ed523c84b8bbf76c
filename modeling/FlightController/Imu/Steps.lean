import FlightController.Imu.Driver
import FlightController.Schemes.Run

/-! `imu_get_latest` statement by statement. The interrupt handler writes the ready flags and the
    timestamp that `data_ready`, `get_or_fetch_si` and `fetch_raw_data` read and clear, so every
    access to one of them is a step of its own, and the handler may run between any two. Statements
    that touch nothing the handler writes are one step where they follow each other. The register
    read is one step, as the sensor latches its outputs for it.

    A call that is not interrupted does what `imuGetLatest` does (`run_call`). -/

namespace FC.Imu
open Schemes

/-- Where the main loop stands: between two calls, in `data_ready`, at the tests and assignments of
    `imu_get_latest`, in `get_or_fetch_si`, in `fetch_raw_data` from the register read to the second
    clear, and at the conversion and the rest. -/
inductive Pc where
  | between
  | readyGyro | readyAcc | readyStamp
  | test | rearm | setDt | setPrev
  | fetchGyro | fetchAcc
  | read | negGz | negAy | clearGyro | clearAcc
  | convert | finish
  deriving DecidableEq, Repr

/-- A data-ready interrupt: which lines are pending, and the timer value it reads. -/
structure Irq where
  gyro : Bool
  acc : Bool
  nowUs : UInt32
  deriving DecidableEq, Repr

/-- A completed call: what `data_ready` answered in it, and the pointer it returned. -/
structure Call where
  ready : UInt32
  sample : Option (ImuSample ℚ)
  deriving DecidableEq, Repr

/-- The statics, the program counter, and the local variable `gyro_drdy_timestamp`. The last two
    fields are history: the completed calls, and the interrupts since the latest register read, both
    latest first. -/
structure St where
  imu : Imu
  pc : Pc
  gyroDrdyTimestamp : UInt32
  calls : List Call
  since : List Irq
  deriving DecidableEq, Repr

/-- The interrupt handler runs, or the main loop takes its next step; a register read in it would
    find `image`. -/
inductive Act where
  | irq (e : Irq)
  | cpu (image : RegImage)

/-- An assignment to statics of the driver. -/
def St.driver (s : St) (f : Lsm6dsox → Lsm6dsox) : St :=
  { s with imu := { s.imu with driver := f s.imu.driver } }

/-- The next step of the main loop. -/
def cpuStep (image : RegImage) (s : St) : St :=
  match s.pc with
  | .between => { s with pc := .readyGyro }
  | .readyGyro =>
    if s.imu.driver.gyroDrdy then { s with pc := .readyAcc }
    else { s with gyroDrdyTimestamp := 0, pc := .test }
  | .readyAcc =>
    if s.imu.driver.accDrdy then { s with pc := .readyStamp }
    else { s with gyroDrdyTimestamp := 0, pc := .test }
  | .readyStamp => { s with gyroDrdyTimestamp := s.imu.driver.gyroDrdyTimestamp, pc := .test }
  | .test =>
    { s with
      pc := if s.gyroDrdyTimestamp = 0 ∨ s.imu.prevGyroDrdyTimestamp = 0 then .rearm else .setDt }
  | .rearm =>
    { s with
      imu := { s.imu with prevGyroDrdyTimestamp := s.gyroDrdyTimestamp }
      calls := ⟨s.gyroDrdyTimestamp, none⟩ :: s.calls
      pc := .between }
  | .setDt =>
    let dt := s.gyroDrdyTimestamp - s.imu.prevGyroDrdyTimestamp
    { s with
      imu := { s.imu with latestSample := { s.imu.latestSample with dt } }
      pc := .setPrev }
  | .setPrev =>
    { s with
      imu := { s.imu with prevGyroDrdyTimestamp := s.gyroDrdyTimestamp }
      pc := .fetchGyro }
  | .fetchGyro => { s with pc := if s.imu.driver.gyroDrdy then .fetchAcc else .convert }
  | .fetchAcc => { s with pc := if s.imu.driver.accDrdy then .read else .convert }
  | .read =>
    { s.driver fun d => { d with latestRaw := image.raw } with since := [], pc := .negGz }
  | .negGz =>
    { s.driver fun d => { d with latestRaw := { d.latestRaw with gz := -d.latestRaw.gz } } with
      pc := .negAy }
  | .negAy =>
    { s.driver fun d => { d with latestRaw := { d.latestRaw with ay := -d.latestRaw.ay } } with
      pc := .clearGyro }
  | .clearGyro => { s.driver fun d => { d with gyroDrdy := false } with pc := .clearAcc }
  | .clearAcc => { s.driver fun d => { d with accDrdy := false } with pc := .convert }
  | .convert =>
    { s.driver fun d => { d with latestSi := Lsm6dsox.rawToSi d.latestRaw } with pc := .finish }
  | .finish =>
    let sample : ImuSample ℚ :=
      { s.imu.latestSample with si := removeBias s.imu.bias s.imu.driver.latestSi }
    { s with
      imu := { s.imu with latestSample := sample }
      calls := ⟨s.gyroDrdyTimestamp, some sample⟩ :: s.calls
      pc := .between }

def step (s : St) : Act → St
  | .irq e => { s with imu := s.imu.irq e.gyro e.acc e.nowUs, since := e :: s.since }
  | .cpu image => cpuStep image s

/-- Before the first call; setting up has read the registers once. -/
def init (image : RegImage) : St := ⟨start image, .between, 0, [], []⟩

/-- The state after a list of actions. -/
def exec (image : RegImage) (acts : List Act) : St := run step (init image) acts

/-- `n` steps of the main loop without an interrupt. -/
def cpus (image : RegImage) (n : ℕ) : List Act := List.replicate n (.cpu image)

/-- The state after a call that nothing interrupts. -/
def St.afterCall (image : RegImage) (s : St) : St :=
  let r := imuGetLatest image s.imu
  { s with
    imu := r.2
    gyroDrdyTimestamp := s.imu.driver.dataReady
    calls := ⟨s.imu.driver.dataReady, r.1⟩ :: s.calls
    since := if r.1.isSome then [] else s.since }

/-- The steps of a call that nothing interrupts add up to `imuGetLatest`. -/
theorem run_call (image : RegImage) {s : St} (hpc : s.pc = .between) :
    ∃ n, run step s (cpus image n) = s.afterCall image := by
  obtain ⟨⟨⟨raw, si, initialized, gyro, acc, stamp⟩, sample, prev, bias⟩, pc, ts, calls, since⟩ := s
  subst hpc
  cases gyro with
  | false =>
    exact ⟨4, by simp [cpus, step, cpuStep, St.afterCall, imuGetLatest, Lsm6dsox.dataReady]⟩
  | true =>
    cases acc with
    | false =>
      exact ⟨5, by simp [cpus, step, cpuStep, St.afterCall, imuGetLatest, Lsm6dsox.dataReady]⟩
    | true =>
      by_cases hnone : stamp = 0 ∨ prev = 0
      · exact ⟨6, by
          simp [cpus, step, cpuStep, St.afterCall, imuGetLatest, Lsm6dsox.dataReady, hnone]⟩
      · exact ⟨16, by
          simp [cpus, step, cpuStep, St.driver, St.afterCall, imuGetLatest, Lsm6dsox.dataReady,
            Lsm6dsox.getOrFetchSi, Lsm6dsox.fetchRawData, hnone]⟩

end FC.Imu

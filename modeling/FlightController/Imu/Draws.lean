import FlightController.Imu.Calibrate
import FlightController.Imu.Steps

/-! `imu_calibrate` with the LSM6DSOX driver, statement by statement: as in `Imu.Steps` the
    interrupt handler may run between any two accesses to what it writes. `timer_wait_us` is one
    step.

    Only a fetch clears the ready flags, so a call of `get_or_fetch_si` that comes after a nonzero
    answer of `data_ready` finds both set, whatever interrupts came in between, and fetches. Each
    sample drawn is the conversion of a register fetch of its own (`law_step`). -/

namespace FC.Imu.Draws
open Schemes Telemetry

/-- Where the call stands: in `data_ready`, in `timer_wait_us`, in `get_or_fetch_si`, in
    `fetch_raw_data` from the register read to the second clear, at the conversion, at the additions
    with the loop head, or returned. -/
inductive Pc where
  | readyGyro | readyAcc | readyStamp
  | wait
  | fetchGyro | fetchAcc
  | read | negGz | negAy | clearGyro | clearAcc
  | convert | accumulate
  | returned
  deriving DecidableEq, Repr

/-- A register fetch: its number, and what it returned. -/
structure Fetch where
  no : ℕ
  image : RegImage
  deriving DecidableEq, Repr

/-- The statics of driver and frontend, and the program counter. The rest is history: the fetches of
    this call, latest first, the fetches that `latest_raw` and `latest_si` come from, and those that
    the samples drawn come from, latest first. -/
structure St where
  driver : Lsm6dsox
  calib : Calibrate.Calib
  pc : Pc
  fetches : List Fetch
  rawFrom : Option Fetch
  siFrom : Option Fetch
  drawnFrom : List (Option Fetch)
  deriving DecidableEq, Repr

/-- `data_ready` returns `timestamp`. -/
def St.ready (timestamp : UInt32) (s : St) : St :=
  { s with
    calib := Calibrate.step s.calib (.ready timestamp)
    pc := if timestamp = 0 then .wait else .fetchGyro }

/-- The next step of the call. -/
def cpuStep (image : RegImage) (s : St) : St :=
  match s.pc with
  | .readyGyro => if s.driver.gyroDrdy then { s with pc := .readyAcc } else s.ready 0
  | .readyAcc => if s.driver.accDrdy then { s with pc := .readyStamp } else s.ready 0
  | .readyStamp => s.ready s.driver.gyroDrdyTimestamp
  | .wait => { s with pc := .readyGyro }
  | .fetchGyro => { s with pc := if s.driver.gyroDrdy then .fetchAcc else .convert }
  | .fetchAcc => { s with pc := if s.driver.accDrdy then .read else .convert }
  | .read =>
    { s with
      driver := { s.driver with latestRaw := image.raw }
      fetches := ⟨s.fetches.length, image⟩ :: s.fetches
      rawFrom := some ⟨s.fetches.length, image⟩
      pc := .negGz }
  | .negGz =>
    let raw := s.driver.latestRaw
    { s with driver := { s.driver with latestRaw := { raw with gz := -raw.gz } }, pc := .negAy }
  | .negAy =>
    let raw := s.driver.latestRaw
    { s with driver := { s.driver with latestRaw := { raw with ay := -raw.ay } }, pc := .clearGyro }
  | .clearGyro => { s with driver := { s.driver with gyroDrdy := false }, pc := .clearAcc }
  | .clearAcc => { s with driver := { s.driver with accDrdy := false }, pc := .convert }
  | .convert =>
    { s with
      driver := { s.driver with latestSi := Lsm6dsox.rawToSi s.driver.latestRaw }
      siFrom := s.rawFrom
      pc := .accumulate }
  | .accumulate =>
    let calib := Calibrate.step s.calib (.si s.driver.latestSi)
    { s with
      calib
      drawnFrom := s.siFrom :: s.drawnFrom
      pc := if calib.loc = .returned then .returned else .readyGyro }
  | .returned => s

def step (s : St) : Act → St
  | .irq e => { s with driver := s.driver.irqIsr e.gyro e.acc e.nowUs }
  | .cpu image => cpuStep image s

/-- A call of `imu_calibrate(&lsm6dsox, false)`. -/
def call (driver : Lsm6dsox) (bias : ImuBias ℚ) : St :=
  ⟨driver, Calibrate.imuCalibrate false bias, .readyGyro, [], none, none, []⟩

/-- The state after a call and a list of actions. -/
def exec (driver : Lsm6dsox) (bias : ImuBias ℚ) (acts : List Act) : St :=
  run step (call driver bias) acts

/-- What `fetch_raw_data` makes of a register image, and `get_or_fetch_si` of that. -/
def fetched (image : RegImage) : ImuRaw := (Lsm6dsox.fetchRawData image .reset).latestRaw
def sample (image : RegImage) : ImuSi ℚ := Lsm6dsox.rawToSi (fetched image)

/-- Each sample drawn comes from a fetch of this call, and no two from the same. -/
def FreshFetches (s : St) : Prop :=
  ∃ fetches : List Fetch, s.drawnFrom = fetches.map some ∧ (fetches.map (·.no)).Nodup ∧
    (∀ f ∈ fetches, f ∈ s.fetches) ∧ s.calib.drawn = fetches.map fun f => sample f.image

/-- The state after a pass through the loop that nothing interrupts. -/
def St.afterPass (image : RegImage) (s : St) : St :=
  let timestamp := s.driver.dataReady
  if timestamp = 0 then s.ready 0
  else
    let driver := s.driver.getOrFetchSi image
    let calib := Calibrate.step (Calibrate.step s.calib (.ready timestamp)) (.si driver.latestSi)
    let fetch : Fetch := ⟨s.fetches.length, image⟩
    { driver
      calib
      pc := if calib.loc = .returned then .returned else .readyGyro
      fetches := fetch :: s.fetches
      rawFrom := some fetch
      siFrom := some fetch
      drawnFrom := some fetch :: s.drawnFrom }

/-- The steps of a pass that nothing interrupts add up to `dataReady` and `getOrFetchSi`. -/
theorem run_pass (image : RegImage) {s : St} (hpc : s.pc = .readyGyro) :
    ∃ n, run step s (cpus image n) = s.afterPass image := by
  obtain ⟨⟨raw, si, initialized, gyro, acc, stamp⟩, calib, pc, fetches, rf, sf, drawnFrom⟩ := s
  subst hpc
  cases gyro with
  | false => exact ⟨1, by simp [cpus, step, cpuStep, St.afterPass, Lsm6dsox.dataReady]⟩
  | true =>
    cases acc with
    | false => exact ⟨2, by simp [cpus, step, cpuStep, St.afterPass, St.ready, Lsm6dsox.dataReady]⟩
    | true =>
      by_cases hzero : stamp = 0
      · exact ⟨3, by
          simp [cpus, step, cpuStep, St.afterPass, St.ready, Lsm6dsox.dataReady, hzero]⟩
      · exact ⟨12, by
          simp [cpus, step, cpuStep, St.afterPass, St.ready, Lsm6dsox.dataReady,
            Lsm6dsox.getOrFetchSi, Lsm6dsox.fetchRawData, hzero]⟩

/-- What one step can do: the frontend sees an answer of the driver or nothing, and a register read
    adds a fetch. -/
structure Frame (s s' : St) : Prop where
  calib : s'.calib = s.calib ∨ ∃ answer, s'.calib = Calibrate.step s.calib answer
  fetches : s'.fetches = s.fetches ∨ ∃ image, s'.fetches = ⟨s.fetches.length, image⟩ :: s.fetches
  initialized : s'.driver.initialized = s.driver.initialized

theorem frame_ready (timestamp : UInt32) (s : St) : Frame s (s.ready timestamp) :=
  ⟨Or.inr ⟨.ready timestamp, rfl⟩, Or.inl rfl, rfl⟩

theorem frame_irq (e : Irq) (s : St) : Frame s (step s (.irq e)) := by
  refine ⟨Or.inl rfl, Or.inl rfl, ?_⟩
  cases hinit : s.driver.initialized <;> cases hgyro : e.gyro <;> cases hacc : e.acc <;>
    simp [step, Lsm6dsox.irqIsr, hinit, hgyro, hacc]

theorem frame_cpu (image : RegImage) (s : St) : Frame s (cpuStep image s) := by
  cases hpc : s.pc <;> simp only [cpuStep, hpc]
  case readyGyro | readyAcc =>
    split
    · exact ⟨Or.inl rfl, Or.inl rfl, rfl⟩
    · exact frame_ready 0 s
  case readyStamp => exact frame_ready _ s
  case read => exact ⟨Or.inl rfl, Or.inr ⟨image, rfl⟩, rfl⟩
  case accumulate => exact ⟨Or.inr ⟨.si s.driver.latestSi, rfl⟩, Or.inl rfl, rfl⟩
  all_goals exact ⟨Or.inl rfl, Or.inl rfl, rfl⟩

theorem step_frame (s : St) (a : Act) : Frame s (step s a) := by
  cases a with
  | irq e => exact frame_irq e s
  | cpu image => exact frame_cpu image s

/-! ### Where the samples come from -/

/-- The samples drawn, with their sources, are those of `fetches`, one each. -/
def DrawnFrom (drawn : List (ImuSi ℚ)) (source : List (Option Fetch)) (fetches : List Fetch) :
    Prop :=
  source = fetches.map some ∧ drawn = fetches.map fun f => sample f.image

/-- The sample of the latest fetch is still to be drawn; `P` says how far it is. -/
def Holding (drawn : List (ImuSi ℚ)) (source : List (Option Fetch)) (fetches : List Fetch)
    (P : Fetch → Prop) : Prop :=
  ∃ f rest, fetches = f :: rest ∧ DrawnFrom drawn source rest ∧ P f

/-- What holds at each statement. -/
def Law (s : St) : Prop :=
  let all := DrawnFrom s.calib.drawn s.drawnFrom s.fetches
  let holding := Holding s.calib.drawn s.drawnFrom s.fetches
  match s.pc with
  | .readyGyro | .wait => s.calib.loc = .poll ∧ all
  | .readyAcc => s.calib.loc = .poll ∧ all ∧ s.driver.gyroDrdy = true
  | .readyStamp =>
    s.calib.loc = .poll ∧ all ∧ s.driver.gyroDrdy = true ∧ s.driver.accDrdy = true
  | .fetchGyro =>
    s.calib.loc = .draw ∧ all ∧ s.driver.gyroDrdy = true ∧ s.driver.accDrdy = true
  | .fetchAcc => s.calib.loc = .draw ∧ all ∧ s.driver.accDrdy = true
  | .read => s.calib.loc = .draw ∧ all
  | .negGz =>
    s.calib.loc = .draw ∧ holding fun f => s.rawFrom = some f ∧ s.driver.latestRaw = f.image.raw
  | .negAy =>
    s.calib.loc = .draw ∧ holding fun f => s.rawFrom = some f ∧
      s.driver.latestRaw = { f.image.raw with gz := -f.image.raw.gz }
  | .clearGyro | .clearAcc | .convert =>
    s.calib.loc = .draw ∧ holding fun f => s.rawFrom = some f ∧
      s.driver.latestRaw = fetched f.image
  | .accumulate =>
    s.calib.loc = .draw ∧ holding fun f => s.siFrom = some f ∧ s.driver.latestSi = sample f.image
  | .returned => s.calib.loc = .returned ∧ all

variable {s : St}

/-- The handler clears no flag and touches no sample. -/
theorem irqIsr_keeps (gyro acc : Bool) (nowUs : UInt32) (d : Lsm6dsox) :
    (d.gyroDrdy = true → (d.irqIsr gyro acc nowUs).gyroDrdy = true) ∧
      (d.accDrdy = true → (d.irqIsr gyro acc nowUs).accDrdy = true) ∧
      (d.irqIsr gyro acc nowUs).latestRaw = d.latestRaw ∧
      (d.irqIsr gyro acc nowUs).latestSi = d.latestSi := by
  cases hinit : d.initialized <;> cases gyro <;> cases acc <;> simp [Lsm6dsox.irqIsr, hinit]

theorem law_irq (e : Irq) (h : Law s) : Law (step s (.irq e)) := by
  obtain ⟨hgyro, hacc, hraw, hsi⟩ := irqIsr_keeps e.gyro e.acc e.nowUs s.driver
  cases hpc : s.pc <;> simp only [Law, step, hpc, hraw, hsi] at h ⊢
  case readyAcc => exact ⟨h.1, h.2.1, hgyro h.2.2⟩
  case readyStamp | fetchGyro => exact ⟨h.1, h.2.1, hgyro h.2.2.1, hacc h.2.2.2⟩
  case fetchAcc => exact ⟨h.1, h.2.1, hacc h.2.2⟩
  all_goals exact h

/-- `data_ready` answers with a nonzero value only where both flags are set. -/
theorem law_ready {timestamp : UInt32} (hloc : s.calib.loc = .poll)
    (hdrawn : DrawnFrom s.calib.drawn s.drawnFrom s.fetches)
    (hflags : timestamp ≠ 0 → s.driver.gyroDrdy = true ∧ s.driver.accDrdy = true) :
    Law (s.ready timestamp) := by
  by_cases hzero : timestamp = 0
  · simp only [Law, St.ready, hzero, if_true, Calibrate.step, hloc, ne_eq, not_true, and_false,
      if_false]
    exact ⟨trivial, hdrawn⟩
  · simp only [Law, St.ready, hzero, if_false, Calibrate.step, hloc, ne_eq, not_false_eq_true,
      and_self, if_true]
    exact ⟨trivial, hdrawn, hflags hzero⟩

theorem drawn_step (c : Calibrate.Calib) (si : ImuSi ℚ) (h : c.loc = .draw) :
    (Calibrate.step c (.si si)).drawn = si :: c.drawn ∧
      ((Calibrate.step c (.si si)).loc = .poll ∨ (Calibrate.step c (.si si)).loc = .returned) := by
  simp only [Calibrate.step, h, if_true, Calibrate.draw]
  split_ifs
  · exact ⟨rfl, Or.inl rfl⟩
  · exact ⟨rfl, Or.inr rfl⟩

theorem law_cpu (image : RegImage) (h : Law s) : Law (cpuStep image s) := by
  cases hpc : s.pc <;> simp only [Law, hpc] at h
  case readyGyro =>
    obtain ⟨hloc, hdrawn⟩ := h
    simp only [cpuStep, hpc]
    split_ifs with hgyro
    · exact ⟨hloc, hdrawn, hgyro⟩
    · exact law_ready hloc hdrawn fun hne => absurd rfl hne
  case readyAcc =>
    obtain ⟨hloc, hdrawn, hgyro⟩ := h
    simp only [cpuStep, hpc]
    split_ifs with hacc
    · exact ⟨hloc, hdrawn, hgyro, hacc⟩
    · exact law_ready hloc hdrawn fun hne => absurd rfl hne
  case readyStamp =>
    obtain ⟨hloc, hdrawn, hflags⟩ := h
    simp only [cpuStep, hpc]
    exact law_ready hloc hdrawn fun _ => hflags
  case wait => simpa only [cpuStep, hpc, Law] using h
  case fetchGyro =>
    obtain ⟨hloc, hdrawn, hgyro, hacc⟩ := h
    simp only [cpuStep, hpc, hgyro, if_true]
    exact ⟨hloc, hdrawn, hacc⟩
  case fetchAcc =>
    obtain ⟨hloc, hdrawn, hacc⟩ := h
    simp only [cpuStep, hpc, hacc, if_true]
    exact ⟨hloc, hdrawn⟩
  case read =>
    obtain ⟨hloc, hdrawn⟩ := h
    simp only [cpuStep, hpc, Law]
    exact ⟨hloc, _, _, rfl, hdrawn, rfl, rfl⟩
  case negGz =>
    obtain ⟨hloc, f, rest, hfetches, hdrawn, hfrom, hraw⟩ := h
    simp only [cpuStep, hpc, Law]
    exact ⟨hloc, f, rest, hfetches, hdrawn, hfrom, by rw [hraw]⟩
  case negAy =>
    obtain ⟨hloc, f, rest, hfetches, hdrawn, hfrom, hraw⟩ := h
    simp only [cpuStep, hpc, Law]
    exact ⟨hloc, f, rest, hfetches, hdrawn, hfrom, by rw [hraw]; rfl⟩
  case clearGyro => simpa only [cpuStep, hpc, Law] using h
  case clearAcc => simpa only [cpuStep, hpc, Law] using h
  case convert =>
    obtain ⟨hloc, f, rest, hfetches, hdrawn, hfrom, hraw⟩ := h
    simp only [cpuStep, hpc, Law]
    exact ⟨hloc, f, rest, hfetches, hdrawn, hfrom, by rw [hraw]; rfl⟩
  case accumulate =>
    obtain ⟨hloc, f, rest, hfetches, ⟨hsource, hvalue⟩, hfrom, hsi⟩ := h
    obtain ⟨hdrawn, hnext⟩ := drawn_step s.calib s.driver.latestSi hloc
    have hall : DrawnFrom (Calibrate.step s.calib (.si s.driver.latestSi)).drawn
        (s.siFrom :: s.drawnFrom) s.fetches := by
      rw [hdrawn, hfetches, hfrom, hsi, hsource, hvalue]
      exact ⟨rfl, rfl⟩
    simp only [cpuStep, hpc]
    rcases hnext with hnext | hnext
    · simp only [Law, hnext, reduceCtorEq, if_false]
      exact ⟨trivial, hall⟩
    · simp only [Law, hnext, if_true]
      exact ⟨trivial, hall⟩
  case returned => simpa only [cpuStep, hpc, Law] using h

theorem law_step (s : St) (a : Act) (h : Law s) : Law (step s a) := by
  cases a with
  | irq e => exact law_irq e h
  | cpu image => exact law_cpu image h

theorem law_call (driver : Lsm6dsox) (bias : ImuBias ℚ) : Law (call driver bias) :=
  ⟨rfl, rfl, rfl⟩

theorem Law.loc_returned (h : Law s) (hpc : s.pc = .returned) : s.calib.loc = .returned := by
  simp only [Law, hpc] at h
  exact h.1

/-- The fetches are numbered from 0. -/
structure Numbered (fetches : List Fetch) : Prop where
  lt : ∀ f ∈ fetches, f.no < fetches.length
  nodup : (fetches.map (·.no)).Nodup

theorem numbered_cons {fetches : List Fetch} (h : Numbered fetches) (image : RegImage) :
    Numbered (⟨fetches.length, image⟩ :: fetches) := by
  refine ⟨fun f hf => ?_, ?_⟩
  · rcases List.mem_cons.mp hf with rfl | hold
    · exact Nat.lt_succ_self _
    · exact Nat.lt_succ_of_lt (h.lt f hold)
  · rw [List.map_cons, List.nodup_cons]
    refine ⟨fun hmem => ?_, h.nodup⟩
    obtain ⟨f, hf, hno⟩ := List.mem_map.mp hmem
    exact absurd (h.lt f hf) (by simp [hno])

theorem numbered_step (s : St) (a : Act) (h : Numbered s.fetches) :
    Numbered (step s a).fetches := by
  rcases (step_frame s a).fetches with hsame | ⟨image, hnew⟩
  · rw [hsame]; exact h
  · rw [hnew]; exact numbered_cons h image

theorem Numbered.fresh {fetches : List Fetch} (h : Numbered s.fetches)
    (hdrawn : DrawnFrom s.calib.drawn s.drawnFrom fetches) (hsuffix : fetches <:+ s.fetches) :
    FreshFetches s :=
  ⟨fetches, hdrawn.1, h.nodup.sublist (hsuffix.sublist.map _), fun _ hf => hsuffix.subset hf,
    hdrawn.2⟩

/-- At every statement the samples drawn so far come from different fetches. -/
theorem Law.fresh (h : Law s) (hnum : Numbered s.fetches) : FreshFetches s := by
  have hall : DrawnFrom s.calib.drawn s.drawnFrom s.fetches → FreshFetches s :=
    fun hdrawn => hnum.fresh hdrawn (List.suffix_refl _)
  have hrest : ∀ P, Holding s.calib.drawn s.drawnFrom s.fetches P → FreshFetches s := by
    rintro P ⟨f, rest, hfetches, hdrawn, -⟩
    exact hnum.fresh hdrawn (by rw [hfetches]; exact List.suffix_cons f rest)
  cases hpc : s.pc <;> simp only [Law, hpc] at h
  case readyGyro | wait | read | returned => exact hall h.2
  case readyAcc | readyStamp | fetchGyro | fetchAcc => exact hall h.2.1
  all_goals exact hrest _ h.2

/-! ### The frontend -/

/-- With this driver the frontend runs as it does with any. -/
theorem exec_calib (driver : Lsm6dsox) (bias : ImuBias ℚ) (acts : List Act) :
    ∃ answers, (exec driver bias acts).calib =
      run Calibrate.step (Calibrate.imuCalibrate false bias) answers := by
  refine inv_run step (fun s => ∃ answers, s.calib =
    run Calibrate.step (Calibrate.imuCalibrate false bias) answers) ?_ acts ⟨[], rfl⟩
  rintro s a ⟨answers, hrun⟩
  rcases (step_frame s a).calib with hsame | ⟨answer, hanswer⟩
  · exact ⟨answers, by rw [hsame, hrun]⟩
  · exact ⟨answers ++ [answer], by rw [hanswer, hrun, run_concat]⟩

end FC.Imu.Draws

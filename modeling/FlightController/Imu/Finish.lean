import FlightController.Imu.Draws
import FlightController.Schemes.Fair

/-! `imu_calibrate` with the LSM6DSOX driver comes to its end on every schedule on which data keeps
    arriving (`exists_returned`). The rank counts the samples still to be drawn and the steps to the
    next one; while the call polls, it says what `data_ready` is waiting for. -/

namespace FC.Imu.Draws
open Schemes Telemetry Filter

/-- Data keeps arriving from both sensors while the call runs, and no gyroscope sample at timer
    value 0. -/
structure Arriving (as : ℕ → Act) : Prop where
  cpu : ∃ᶠ n in atTop, ∃ image, as n = .cpu image
  gyro : ∃ᶠ n in atTop, ∃ e, as n = .irq e ∧ e.gyro = true
  acc : ∃ᶠ n in atTop, ∃ e, as n = .irq e ∧ e.acc = true
  stamp : ∀ n e, as n = .irq e → e.gyro = true → e.nowUs ≠ 0

/-- The gyroscope's part of what keeps `data_ready` from a nonzero answer, the accelerometer's, and
    both. -/
def gyroLack (d : Lsm6dsox) : ℕ := if d.gyroDrdy = true ∧ d.gyroDrdyTimestamp ≠ 0 then 0 else 2
def accLack (d : Lsm6dsox) : ℕ := if d.accDrdy = true then 0 else 1
def lack (d : Lsm6dsox) : ℕ := gyroLack d + accLack d

/-- The steps to the next sample drawn, or what is waited for. -/
def stage (l : ℕ) : Pc → ℕ
  | .wait => if l = 0 then 14 else 14 + l
  | .readyGyro => if l = 0 then 13 else 14 + l
  | .readyAcc => if l = 0 then 12 else 14 + l
  | .readyStamp => if l = 0 then 11 else 14 + l
  | .fetchGyro => 10
  | .fetchAcc => 9
  | .read => 8
  | .negGz => 7
  | .negAy => 6
  | .clearGyro => 5
  | .clearAcc => 4
  | .convert => 3
  | .accumulate => 2
  | .returned => 0

def rank (s : St) : ℕ :=
  20 * (Calibrate.calibrationSamples - s.calib.i) + stage (lack s.driver) s.pc

/-- The actions that make progress at a rank. -/
def Helpful (r : ℕ) (a : Act) : Prop :=
  if r % 20 < 15 then ∃ image, a = .cpu image
  else if r % 20 = 15 then ∃ e, a = .irq e ∧ e.acc = true
  else ∃ e, a = .irq e ∧ e.gyro = true

variable {s : St}

theorem gyroLack_cases (d : Lsm6dsox) : gyroLack d = 0 ∨ gyroLack d = 2 := by
  unfold gyroLack
  split_ifs
  · exact Or.inl rfl
  · exact Or.inr rfl

theorem accLack_le (d : Lsm6dsox) : accLack d ≤ 1 := by
  unfold accLack
  split_ifs <;> omega

theorem lack_le (d : Lsm6dsox) : lack d ≤ 3 := by
  have hacc := accLack_le d
  unfold lack
  rcases gyroLack_cases d with hgyro | hgyro <;> omega

/-- At the statements that poll, the stage says what is waited for; at the others, where they
    stand. -/
theorem stage_cases (pc : Pc) :
    (∃ k, k < 15 ∧ ∀ l, stage l pc = if l = 0 then k else 14 + l) ∨
      ∃ k, k < 15 ∧ ∀ l, stage l pc = k := by
  cases pc
  case wait => exact Or.inl ⟨14, by omega, fun _ => rfl⟩
  case readyGyro => exact Or.inl ⟨13, by omega, fun _ => rfl⟩
  case readyAcc => exact Or.inl ⟨12, by omega, fun _ => rfl⟩
  case readyStamp => exact Or.inl ⟨11, by omega, fun _ => rfl⟩
  all_goals exact Or.inr ⟨_, by decide, fun _ => rfl⟩

theorem stage_le (pc : Pc) {l : ℕ} (h : l ≤ 3) : stage l pc ≤ 17 := by
  rcases stage_cases pc with ⟨k, hk, hstage⟩ | ⟨k, hk, hstage⟩
  · rw [hstage]
    split_ifs <;> omega
  · rw [hstage]
    omega

/-- Less is waited for, the stage is lower. -/
theorem stage_mono (pc : Pc) {l l' : ℕ} (h : l' ≤ l) : stage l' pc ≤ stage l pc := by
  rcases stage_cases pc with ⟨k, hk, hstage⟩ | ⟨k, hk, hstage⟩
  · rw [hstage, hstage]
    split_ifs <;> omega
  · rw [hstage, hstage]

/-- A high stage says what is waited for, and less of it is a lower stage. -/
theorem lack_of_stage {pc : Pc} {l : ℕ} (h : 15 ≤ stage l pc) :
    stage l pc = 14 + l ∧ l ≠ 0 ∧ ∀ l', l' < l → stage l' pc < stage l pc := by
  rcases stage_cases pc with ⟨k, hk, hstage⟩ | ⟨k, hk, hstage⟩
  · have hne : l ≠ 0 := by
      rintro rfl
      rw [hstage, if_pos rfl] at h
      omega
    refine ⟨by rw [hstage, if_neg hne], hne, fun l' hl => ?_⟩
    rw [hstage, hstage, if_neg hne]
    split_ifs <;> omega
  · rw [hstage] at h
    omega

/-- At a low stage a call that polls waits for nothing. -/
theorem lack_eq_zero {pc : Pc} {l : ℕ} (h : stage l pc < 15)
    (hpoll : pc = .wait ∨ pc = .readyGyro ∨ pc = .readyAcc ∨ pc = .readyStamp) : l = 0 := by
  rcases hpoll with rfl | rfl | rfl | rfl <;> simp only [stage] at h <;> split_ifs at h <;> omega

theorem lack_irq {d : Lsm6dsox} (hinit : d.initialized = true) (e : Irq)
    (hstamp : e.gyro = true → e.nowUs ≠ 0) :
    lack (d.irqIsr e.gyro e.acc e.nowUs) =
      (if e.gyro then 0 else gyroLack d) + (if e.acc then 0 else accLack d) := by
  obtain ⟨-, hset, hacc, hts⟩ := Lsm6dsox.irqIsr_spec hinit e.gyro e.acc e.nowUs
  rw [lack, gyroLack, accLack, hset, hacc, hts]
  cases hgyro : e.gyro with
  | false => cases e.acc <;> simp [gyroLack, accLack]
  | true => cases e.acc <;> simp [accLack, hstamp hgyro]

/-- An interrupt never raises the rank. -/
theorem rank_irq_le (hinit : s.driver.initialized = true) (e : Irq)
    (hstamp : e.gyro = true → e.nowUs ≠ 0) : rank (step s (.irq e)) ≤ rank s := by
  have hlack : lack (s.driver.irqIsr e.gyro e.acc e.nowUs) ≤ lack s.driver := by
    rw [lack_irq hinit e hstamp, lack]
    split_ifs <;> omega
  exact Nat.add_le_add_left (stage_mono s.pc hlack) _

/-- The interrupt that is waited for lowers it. -/
theorem rank_irq_lt (hinit : s.driver.initialized = true) (e : Irq)
    (hstamp : e.gyro = true → e.nowUs ≠ 0) (hstage : 15 ≤ stage (lack s.driver) s.pc)
    (hhelp : Helpful (rank s) (.irq e)) : rank (step s (.irq e)) < rank s := by
  obtain ⟨heq, hne, hlower⟩ := lack_of_stage hstage
  have hrank : rank s % 20 = 14 + lack s.driver := by
    have := lack_le s.driver
    rw [rank, heq]
    omega
  have hgyro := gyroLack_cases s.driver
  have hacc := accLack_le s.driver
  have hsum : lack s.driver = gyroLack s.driver + accLack s.driver := rfl
  have hlack : lack (s.driver.irqIsr e.gyro e.acc e.nowUs) < lack s.driver := by
    rw [lack_irq hinit e hstamp]
    have hlow : ¬ 14 + lack s.driver < 15 := by omega
    simp only [Helpful, hrank, if_neg hlow] at hhelp
    split_ifs at hhelp with hone
    · -- the accelerometer's flag
      obtain ⟨e', he, hset⟩ := hhelp
      cases he
      rw [hset, if_pos rfl]
      split_ifs <;> omega
    · -- the gyroscope's flag and timestamp
      obtain ⟨e', he, hset⟩ := hhelp
      cases he
      rw [hset, if_pos rfl]
      split_ifs <;> omega
  exact Nat.add_lt_add_left (hlower _ hlack) _

theorem calib_ready_i (c : Calibrate.Calib) (timestamp : UInt32) :
    (Calibrate.step c (.ready timestamp)).i = c.i := by
  simp only [Calibrate.step]
  split_ifs <;> rfl

theorem calib_si_i {c : Calibrate.Calib} (h : c.loc = .draw) (si : ImuSi ℚ) :
    (Calibrate.step c (.si si)).i = c.i + 1 := by
  simp only [Calibrate.step, h, if_true, Calibrate.draw]
  split_ifs <;> rfl

theorem lack_eq_zero_iff (d : Lsm6dsox) :
    lack d = 0 ↔ d.gyroDrdy = true ∧ d.gyroDrdyTimestamp ≠ 0 ∧ d.accDrdy = true := by
  unfold lack gyroLack accLack
  split_ifs with hgyro hacc <;> simp_all

/-- While something is waited for, the call polls. -/
theorem rank_cpu_le (h : Law s) (image : RegImage) (hstage : 15 ≤ stage (lack s.driver) s.pc) :
    rank (cpuStep image s) ≤ rank s := by
  obtain ⟨-, hne, -⟩ := lack_of_stage hstage
  cases hpc : s.pc <;> simp only [hpc, stage] at hstage
  case wait => simp [rank, cpuStep, hpc, stage, hne]
  case readyGyro =>
    cases hgyro : s.driver.gyroDrdy <;>
      simp [rank, cpuStep, hpc, hgyro, stage, hne, St.ready, calib_ready_i]
  case readyAcc =>
    cases hacc : s.driver.accDrdy <;>
      simp [rank, cpuStep, hpc, hacc, stage, hne, St.ready, calib_ready_i]
  case readyStamp =>
    simp only [Law, hpc] at h
    obtain ⟨-, -, hgyro, hacc⟩ := h
    have hzero : s.driver.gyroDrdyTimestamp = 0 := by
      by_contra hts
      exact hne ((lack_eq_zero_iff _).mpr ⟨hgyro, hts, hacc⟩)
    simp [rank, cpuStep, hpc, hzero, stage, hne, St.ready, calib_ready_i]
  all_goals omega

/-- With nothing to wait for, each statement brings the next sample closer. -/
theorem rank_cpu_lt (h : Law s) (hsum : Calibrate.Summed s.calib) (image : RegImage)
    (hstage : stage (lack s.driver) s.pc < 15) (hrun : s.pc ≠ .returned) :
    rank (cpuStep image s) < rank s := by
  cases hpc : s.pc <;> simp only [Law, hpc] at h
  case wait =>
    have hzero := lack_eq_zero hstage (by simp [hpc])
    simp [rank, cpuStep, hpc, stage, hzero]
  case readyGyro =>
    have hzero := lack_eq_zero hstage (by simp [hpc])
    obtain ⟨hgyro, -, -⟩ := (lack_eq_zero_iff _).mp hzero
    simp [rank, cpuStep, hpc, stage, hzero, hgyro]
  case readyAcc =>
    have hzero := lack_eq_zero hstage (by simp [hpc])
    obtain ⟨-, -, hacc⟩ := (lack_eq_zero_iff _).mp hzero
    simp [rank, cpuStep, hpc, stage, hzero, hacc]
  case readyStamp =>
    have hzero := lack_eq_zero hstage (by simp [hpc])
    obtain ⟨-, hts, -⟩ := (lack_eq_zero_iff _).mp hzero
    simp [rank, cpuStep, hpc, stage, hzero, hts, St.ready, calib_ready_i]
  case fetchGyro => simp [rank, cpuStep, hpc, stage, h.2.2.1]
  case fetchAcc => simp [rank, cpuStep, hpc, stage, h.2.2]
  case read | negGz | negAy | clearGyro | clearAcc | convert => simp [rank, cpuStep, hpc, stage]
  case accumulate =>
    have hlt := (hsum.running (by simp [h.1])).2.2
    have hi := calib_si_i h.1 s.driver.latestSi
    have hle := stage_le (cpuStep image s).pc (lack_le s.driver)
    have hcalib : (cpuStep image s).calib.i = s.calib.i + 1 := by simpa only [cpuStep, hpc] using hi
    have hdriver : (cpuStep image s).driver = s.driver := by simp only [cpuStep, hpc]
    have hlast : stage (lack s.driver) .accumulate = 2 := rfl
    rw [rank, rank, hcalib, hdriver, hpc, hlast]
    omega
  case returned => exact absurd hpc hrun

/-! ### Runs -/

/-- What holds throughout a call. -/
structure Sound (s : St) : Prop where
  law : Law s
  summed : Calibrate.Summed s.calib
  numbered : Numbered s.fetches

theorem sound_call (driver : Lsm6dsox) (bias : ImuBias ℚ) : Sound (call driver bias) :=
  ⟨law_call driver bias, Calibrate.summed_imuCalibrate bias, ⟨by simp [call], by simp [call]⟩⟩

theorem sound_step (s : St) (a : Act) (h : Sound s) : Sound (step s a) := by
  refine ⟨law_step s a h.law, ?_, numbered_step s a h.numbered⟩
  rcases (step_frame s a).calib with hsame | ⟨answer, hanswer⟩
  · rw [hsame]; exact h.summed
  · rw [hanswer]; exact Calibrate.summed_step s.calib answer h.summed

theorem Sound.calibrated (h : Sound s) (hpc : s.pc = .returned) :
    Calibrate.Calibrated s.calib :=
  h.summed.calibrated (h.law.loc_returned hpc)

/-- While data keeps arriving, no action raises the rank. -/
theorem rank_le (h : Sound s) (hinit : s.driver.initialized = true) (hrun : s.pc ≠ .returned)
    {a : Act} (hstamp : ∀ e, a = .irq e → e.gyro = true → e.nowUs ≠ 0) :
    rank (step s a) ≤ rank s := by
  cases a with
  | irq e => exact rank_irq_le hinit e (hstamp e rfl)
  | cpu image =>
    rcases Nat.lt_or_ge (stage (lack s.driver) s.pc) 15 with hlow | hhigh
    · exact (rank_cpu_lt h.law h.summed image hlow hrun).le
    · exact rank_cpu_le h.law image hhigh

/-- A helpful one lowers it. -/
theorem rank_lt (h : Sound s) (hinit : s.driver.initialized = true) (hrun : s.pc ≠ .returned)
    {a : Act} (hstamp : ∀ e, a = .irq e → e.gyro = true → e.nowUs ≠ 0)
    (hhelp : Helpful (rank s) a) : rank (step s a) < rank s := by
  have hle := stage_le s.pc (lack_le s.driver)
  have hmod : rank s % 20 = stage (lack s.driver) s.pc := by
    rw [rank]
    omega
  rcases Nat.lt_or_ge (stage (lack s.driver) s.pc) 15 with hlow | hhigh
  · simp only [Helpful, hmod, if_pos hlow] at hhelp
    obtain ⟨image, rfl⟩ := hhelp
    exact rank_cpu_lt h.law h.summed image hlow hrun
  · cases a with
    | irq e => exact rank_irq_lt hinit e (hstamp e rfl) hhigh hhelp
    | cpu image =>
      simp only [Helpful, hmod, if_neg (Nat.not_lt.mpr hhigh)] at hhelp
      split_ifs at hhelp <;> (obtain ⟨e, he, -⟩ := hhelp; cases he)

theorem Arriving.helpful {as : ℕ → Act} (h : Arriving as) (r : ℕ) :
    ∃ᶠ n in atTop, Helpful r (as n) := by
  unfold Helpful
  split_ifs
  · exact h.cpu
  · exact h.acc
  · exact h.gyro

/-- While data keeps arriving the call returns. -/
theorem exists_returned {driver : Lsm6dsox} (hinit : driver.initialized = true)
    (bias : ImuBias ℚ) {as : ℕ → Act} (h : Arriving as) :
    ∃ n, (trace step (call driver bias) as n).pc = .returned := by
  have hsound : ∀ n, Sound (trace step (call driver bias) as n) :=
    inv_trace step Sound sound_step (sound_call driver bias) as
  have hinit' : ∀ n, (trace step (call driver bias) as n).driver.initialized = true :=
    inv_trace step (·.driver.initialized = true)
      (fun s a h => (step_frame s a).initialized.trans h) hinit as
  refine exists_of_rank_self (fun n => rank (trace step (call driver bias) as n))
    (H := fun r n => Helpful r (as n)) ?_ ?_ h.helpful
  · intro n hrun
    exact rank_le (hsound n) (hinit' n) hrun (h.stamp n)
  · intro n hrun hhelp
    exact rank_lt (hsound n) (hinit' n) hrun (h.stamp n) hhelp

/-- CORRECT: a calibration that has returned takes the mean of its samples off, whatever the driver
    and the bias before; with the LSM6DSOX driver each sample drawn comes from a fetch of its own.
    The call returns while the driver keeps answering, and with the LSM6DSOX while data keeps
    arriving. -/
theorem imuCalibrate_mean :
    (∀ (bias bias' : ImuBias ℚ) (answers : List Calibrate.Answer),
      (run Calibrate.step (Calibrate.imuCalibrate false bias) answers).loc = .returned →
      Calibrate.Calibrated (run Calibrate.step (Calibrate.imuCalibrate false bias) answers) ∧
      (run Calibrate.step (Calibrate.imuCalibrate false bias') answers).bias =
        (run Calibrate.step (Calibrate.imuCalibrate false bias) answers).bias) ∧
    (∀ (driver : Lsm6dsox) (bias : ImuBias ℚ) (acts : List Act),
      FreshFetches (exec driver bias acts) ∧
      ((exec driver bias acts).pc = .returned →
        Calibrate.Calibrated (exec driver bias acts).calib)) ∧
    (∀ (bias : ImuBias ℚ) (as : ℕ → Calibrate.Answer), Calibrate.Answering as →
      ∃ n, (run Calibrate.step (Calibrate.imuCalibrate false bias) (upTo as n)).loc = .returned) ∧
    ∀ (driver : Lsm6dsox) (bias : ImuBias ℚ) (as : ℕ → Act), driver.initialized = true →
      Arriving as → ∃ n, (exec driver bias (upTo as n)).pc = .returned := by
  refine ⟨fun bias bias' answers hloc => ?_, fun driver bias acts => ?_, fun bias as h => ?_,
    fun driver bias as hinit h => ?_⟩
  · exact ⟨Calibrate.calibrated_run bias answers hloc, rfl⟩
  · have hsound : Sound (exec driver bias acts) :=
      inv_run step Sound sound_step acts (sound_call driver bias)
    exact ⟨hsound.law.fresh hsound.numbered, hsound.calibrated⟩
  · obtain ⟨n, hn⟩ := Calibrate.exists_returned bias h
    rw [trace_eq_run] at hn
    exact ⟨n, hn⟩
  · obtain ⟨n, hn⟩ := exists_returned hinit bias h
    rw [trace_eq_run] at hn
    exact ⟨n, hn⟩

/-- Both sensors are ready before each statement. -/
def busyActs (n : ℕ) : Act :=
  if n % 2 = 0 then .irq ⟨true, true, 600⟩ else .cpu (Vector.replicate 12 1)

theorem busyActs_even (n : ℕ) : busyActs (2 * n) = .irq ⟨true, true, 600⟩ := by
  rw [busyActs, if_pos (by omega)]

theorem busyActs_odd (n : ℕ) : busyActs (2 * n + 1) = .cpu (Vector.replicate 12 1) := by
  rw [busyActs, if_neg (by omega)]

theorem busyActs_arriving : Arriving busyActs where
  cpu := frequently_atTop.mpr fun n => ⟨2 * n + 1, by omega, _, busyActs_odd n⟩
  gyro := frequently_atTop.mpr fun n => ⟨2 * n, by omega, _, busyActs_even n, rfl⟩
  acc := frequently_atTop.mpr fun n => ⟨2 * n, by omega, _, busyActs_even n, rfl⟩
  stamp := by
    intro n e he hgyro
    unfold busyActs at he
    split_ifs at he
    cases he
    decide

/-- Such a call returns, with 100000 samples from as many fetches. -/
theorem imuCalibrate_mean_busy :
    ∃ n, (exec (Lsm6dsox.setup (Vector.replicate 12 0) .reset) precomputedBias
        (upTo busyActs n)).pc = .returned ∧
      FreshFetches (exec (Lsm6dsox.setup (Vector.replicate 12 0) .reset) precomputedBias
        (upTo busyActs n)) ∧
      Calibrate.Calibrated (exec (Lsm6dsox.setup (Vector.replicate 12 0) .reset) precomputedBias
        (upTo busyActs n)).calib := by
  obtain ⟨-, hdraws, -, hreturns⟩ := imuCalibrate_mean
  obtain ⟨n, hn⟩ := hreturns (Lsm6dsox.setup (Vector.replicate 12 0) .reset) precomputedBias
    busyActs rfl busyActs_arriving
  obtain ⟨hfresh, hcalibrated⟩ := hdraws (Lsm6dsox.setup (Vector.replicate 12 0) .reset)
    precomputedBias (upTo busyActs n)
  exact ⟨n, hn, hfresh, hcalibrated hn⟩

end FC.Imu.Draws

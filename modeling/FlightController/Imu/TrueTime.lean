import FlightController.Imu.Bias
import FlightController.Schemes.Clock

/-! The angles in true time. The handler stamps a gyroscope sample with the 32-bit timer, the
    frontend turns two stamps into a `dt`, and the filter turns a rate and a `dt` into an angle.
    Here the three run together under any schedule of pulses and calls, and are compared with an
    angle `θ` that the drone really takes.

    As long as every call finds a new sample, no time is lost on the way, a wrap of the timer
    included. So the gyro-only angle drifts off by no more than the rate error times the true time
    between the first and the last pulse (`gyro_drift`), and the fused angle forgets its start and
    then stays within a bound for the rate error and the accelerometer's (`fused_true_time`). -/

namespace FC.Imu.TrueTime
open Schemes Schemes.Clock

/-- The statics of driver, frontend and filter. The last three fields are history: the true time of
    the gyroscope's latest pulse and of the latest one that a call has found, and the number of
    samples returned. -/
structure St where
  now : ℕ
  imu : Imu
  angles : ImuAngles ℚ
  pulse : ℕ
  last : ℕ
  samples : ℕ

/-- True time passes; the data-ready interrupt; a call of `imu_get_latest` that would read `image`,
    and then of the filter. `aroll` and `apitch` are what these functions answer, `wild` is what the
    main loop reads where it is given `NULL`. -/
inductive Act where
  | tick (d : ℕ)
  | irq (gyro acc : Bool)
  | call (image : RegImage) (aroll apitch : ℚ) (wild : ImuSample ℚ)

def step (s : St) : Act → St
  | .tick d => { s with now := s.now + d }
  | .irq gyro acc =>
    { s with
      imu := s.imu.irq gyro acc (stamp s.now)
      pulse := if gyro then s.now else s.pulse }
  | .call image aroll apitch wild =>
    let r := imuGetLatest image s.imu
    { s with
      imu := r.2
      angles := updateComplementaryFilter s.angles ⟨r.1.getD wild, aroll, apitch⟩
      last := if s.imu.driver.dataReady ≠ 0 then s.pulse else s.last
      samples := if r.1.isSome then s.samples + 1 else s.samples }

/-- After `imu_setup` and `imu_calibrate`. -/
def init (now : ℕ) (image : RegImage) : St := ⟨now, start image, zeroAngles, 0, 0, 0⟩

/-- The state after a list of actions. -/
def exec (now : ℕ) (image : RegImage) (acts : List Act) : St := run step (init now image) acts

/-- The rates and accelerations of the sample that a call returns. -/
def sampleSi (image : RegImage) (imu : Imu) : ImuSi ℚ :=
  removeBias imu.bias (imu.driver.getOrFetchSi image).latestSi

/-- The rate of an axis, in degrees per microsecond. -/
def rate (axis : TiltAxis) (si : ImuSi ℚ) : ℚ :=
  match axis with
  | .roll => si.gx / 1000000 * Fc.rad2deg
  | .pitch => si.gy / 1000000 * Fc.rad2deg

/-- The accelerometer's angle of an axis. -/
def accel (axis : TiltAxis) (aroll apitch : ℚ) : ℚ :=
  match axis with
  | .roll => aroll
  | .pitch => apitch

/-! ### Stamps -/

/-- `stamped`, `prev`: the timestamps are readings of the timer at the times on record. -/
structure Inv (s : St) : Prop where
  initialized : s.imu.driver.initialized = true
  stamped : s.imu.driver.gyroDrdyTimestamp = stamp s.pulse
  prev : s.imu.prevGyroDrdyTimestamp = 0 ∨ s.imu.prevGyroDrdyTimestamp = stamp s.last
  last_le : s.last ≤ s.pulse
  pulse_le : s.pulse ≤ s.now

theorem dataReady_eq {d : Lsm6dsox} (h : d.dataReady ≠ 0) : d.dataReady = d.gyroDrdyTimestamp := by
  unfold Lsm6dsox.dataReady at h ⊢
  split at h
  · rename_i hboth
    rw [if_pos hboth]
  · exact absurd rfl h

/-- A call leaves the interrupt's timestamp alone, and takes it as the previous one. -/
theorem call_frame (image : RegImage) (imu : Imu) :
    (imuGetLatest image imu).2.driver.initialized = imu.driver.initialized ∧
      (imuGetLatest image imu).2.driver.gyroDrdyTimestamp = imu.driver.gyroDrdyTimestamp ∧
      (imuGetLatest image imu).2.prevGyroDrdyTimestamp = imu.driver.dataReady := by
  by_cases h : imu.driver.dataReady = 0 ∨ imu.prevGyroDrdyTimestamp = 0
  · simp only [imuGetLatest_eq_none h, and_self]
  · obtain ⟨hready, hprev⟩ := not_or.mp h
    rw [imuGetLatest_eq_some hready hprev]
    refine ⟨?_, ?_, rfl⟩ <;> simp only [Lsm6dsox.getOrFetchSi] <;> split <;> rfl

theorem inv_step (s : St) (a : Act) (h : Inv s) : Inv (step s a) := by
  obtain ⟨hinit, hstamp, hprev, hlast, hpulse⟩ := h
  cases a with
  | tick d => exact ⟨hinit, hstamp, hprev, hlast, hpulse.trans (Nat.le_add_right s.now d)⟩
  | irq gyro acc =>
    obtain ⟨hinit', _, _, hstamp'⟩ := Lsm6dsox.irqIsr_spec hinit gyro acc (stamp s.now)
    cases gyro with
    | false => exact ⟨hinit', hstamp'.trans hstamp, hprev, hlast, hpulse⟩
    | true => exact ⟨hinit', hstamp', hprev, hlast.trans hpulse, le_rfl⟩
  | call image aroll apitch wild =>
    obtain ⟨hinit', hstamp', hprev'⟩ := call_frame image s.imu
    refine ⟨hinit'.trans hinit, hstamp'.trans hstamp, ?_, ?_, hpulse⟩
    · by_cases hready : s.imu.driver.dataReady = 0
      · exact Or.inl (hprev'.trans hready)
      · refine Or.inr ?_
        simp only [step, if_pos hready]
        rw [hprev', dataReady_eq hready, hstamp]
    · simp only [step]
      split
      · exact le_rfl
      · exact hlast

theorem inv_exec (now : ℕ) (image : RegImage) (acts : List Act) : Inv (exec now image acts) :=
  inv_run step Inv inv_step acts ⟨rfl, rfl, Or.inl rfl, le_rfl, Nat.zero_le now⟩

/-! ### The gyroscope's angle -/

/-- A call finds a new sample, less than a turn of the timer after the one before, whose rate is off
    by at most `e` over that time. -/
def Sampled (axis : TiltAxis) (θ : ℕ → ℚ) (e : ℚ) (s : St) : Act → Prop
  | .tick _ | .irq _ _ => True
  | .call image _ _ _ =>
    s.imu.driver.dataReady ≠ 0 ∧ s.imu.prevGyroDrdyTimestamp ≠ 0 ∧ s.pulse < s.last + 2 ^ 32 ∧
      |rate axis (sampleSi image s.imu) * (s.pulse - s.last) - (θ s.pulse - θ s.last)| ≤
        e * (s.pulse - s.last)

instance (axis : TiltAxis) (θ : ℕ → ℚ) (e : ℚ) (s : St) :
    ∀ a, Decidable (Sampled axis θ e s a)
  | .tick _ | .irq _ _ => isTrue trivial
  | .call _ _ _ _ => instDecidableAnd

variable {axis : TiltAxis} {θ : ℕ → ℚ} {e : ℚ} {s : St} {image : RegImage} {aroll apitch : ℚ}
  {wild : ImuSample ℚ}

/-- Such a call gives the filter the rate of the new sample and the true time since the one
    before. -/
theorem input_call (h : Inv s) (hs : Sampled axis θ e s (.call image aroll apitch wild)) :
    ∃ u : Update, u.input axis =
        (rate axis (sampleSi image s.imu) * (s.pulse - s.last), accel axis aroll apitch) ∧
      step s (.call image aroll apitch wild) =
        { s with
          imu := (imuGetLatest image s.imu).2
          angles := updateComplementaryFilter s.angles u
          last := s.pulse
          samples := s.samples + 1 } := by
  obtain ⟨hready, hprev, hnear, _⟩ := hs
  have hdt : (s.imu.driver.dataReady - s.imu.prevGyroDrdyTimestamp).toNat = s.pulse - s.last := by
    rw [dataReady_eq hready, h.stamped, h.prev.resolve_left hprev, stamp_sub_toNat h.last_le,
      Nat.mod_eq_of_lt (by have := h.last_le; omega)]
  refine ⟨⟨⟨sampleSi image s.imu, s.imu.driver.dataReady - s.imu.prevGyroDrdyTimestamp⟩, aroll,
    apitch⟩, ?_, ?_⟩
  · have hcast : ((s.pulse - s.last : ℕ) : ℚ) = s.pulse - s.last := Nat.cast_sub h.last_le
    cases axis with
    | roll =>
      simp only [Update.input, groll, rate, accel, hdt, hcast, Prod.mk.injEq, and_true]
      ring
    | pitch =>
      simp only [Update.input, gpitch, rate, accel, hdt, hcast, Prod.mk.injEq, and_true]
      ring
  · simp only [step, imuGetLatest_eq_some hready hprev, if_pos hready, Option.isSome_some, if_true,
      Option.getD_some]
    rfl

/-- The gyro-only angle since the state with the angles `angles₀` and the latest pulse `last₀`. -/
def Drifted (axis : TiltAxis) (θ : ℕ → ℚ) (e : ℚ) (angles₀ : ImuAngles ℚ) (last₀ : ℕ)
    (s : St) : Prop :=
  |gyroOnly axis s.angles - gyroOnly axis angles₀ - (θ s.last - θ last₀)| ≤ e * (s.last - last₀)

variable {angles₀ : ImuAngles ℚ} {last₀ : ℕ}

theorem drifted_step (hinv : Inv s) {a : Act} (hs : Sampled axis θ e s a)
    (h : Drifted axis θ e angles₀ last₀ s) : Drifted axis θ e angles₀ last₀ (step s a) := by
  cases a with
  | tick d => exact h
  | irq gyro acc => exact h
  | call image aroll apitch wild =>
    obtain ⟨u, hu, hstep⟩ := input_call hinv hs
    rw [hstep, Drifted, gyroOnly_update, hu]
    set turned := rate axis (sampleSi image s.imu) * (s.pulse - s.last)
    calc |gyroOnly axis s.angles + turned - gyroOnly axis angles₀ - (θ s.pulse - θ last₀)|
        = |(gyroOnly axis s.angles - gyroOnly axis angles₀ - (θ s.last - θ last₀)) +
            (turned - (θ s.pulse - θ s.last))| := by congr 1; ring
      _ ≤ e * (s.last - last₀) + e * (s.pulse - s.last) :=
          (abs_add_le _ _).trans (add_le_add h hs.2.2.2)
      _ = e * (s.pulse - last₀) := by ring

/-- CORRECT: whatever the schedule of pulses and calls, and across wraps of the timer, the gyro-only
    angle is off the true one by at most the rate error times the true time, as long as every call
    finds a new sample. -/
theorem gyro_drift (axis : TiltAxis) (θ : ℕ → ℚ) (e : ℚ) (now : ℕ) (image : RegImage)
    (acts more : List Act) (h : Along step (Sampled axis θ e) (exec now image acts) more) :
    let s := exec now image acts
    let s' := exec now image (acts ++ more)
    |gyroOnly axis s'.angles - gyroOnly axis s.angles - (θ s'.last - θ s.last)| ≤
      e * (s'.last - s.last) := by
  intro s s'
  have hstart : Drifted axis θ e s.angles s.last s := by simp [Drifted]
  have hrun := inv_run_along step (fun s' => Inv s' ∧ Drifted axis θ e s.angles s.last s')
    (fun s' a hs hI => ⟨inv_step s' a hI.1, drifted_step hI.1 hs hI.2⟩) more s h
    ⟨inv_exec now image acts, hstart⟩
  have hs' : s' = run step s more := run_append step (init now image) acts more
  rw [hs']
  exact hrun.2

/-! ### The fused angle -/

/-- A call as above, at most `d` after the one before, with the accelerometer's angle off by at most
    `ba`. -/
def Watched (axis : TiltAxis) (θ : ℕ → ℚ) (e ba : ℚ) (d : ℕ) (s : St) (a : Act) : Prop :=
  Sampled axis θ e s a ∧
    match a with
    | .tick _ | .irq _ _ => True
    | .call _ aroll apitch _ =>
      s.pulse ≤ s.last + d ∧ |accel axis aroll apitch - θ s.pulse| ≤ ba

instance (axis : TiltAxis) (θ : ℕ → ℚ) (e ba : ℚ) (d : ℕ) (s : St) (a : Act) :
    Decidable (Watched axis θ e ba d s a) :=
  match a with
  | .tick _ | .irq _ _ => instDecidableAnd
  | .call _ _ _ _ => instDecidableAnd

/-- The fused angle some samples after the state with the angles `angles₀` and the latest pulse
    `last₀`. -/
def Faded (axis : TiltAxis) (θ : ℕ → ℚ) (m : ℚ) (s₀ s : St) : Prop :=
  ∃ n, s.samples = s₀.samples + n ∧
    |fused axis s.angles - θ s.last| ≤
      gweight ^ n * |fused axis s₀.angles - θ s₀.last| + (1 - gweight ^ n) * m

variable {ba : ℚ} {d : ℕ} {s₀ : St}

theorem faded_step (he : 0 ≤ e) (hinv : Inv s) {a : Act} (hs : Watched axis θ e ba d s a)
    (h : Faded axis θ (ba + 199 * (e * d)) s₀ s) :
    Faded axis θ (ba + 199 * (e * d)) s₀ (step s a) := by
  cases a with
  | tick d => exact h
  | irq gyro acc => exact h
  | call image aroll apitch wild =>
    obtain ⟨hsampled, hnear, haccel⟩ := hs
    obtain ⟨n, hn, hfade⟩ := h
    obtain ⟨u, hu, hstep⟩ := input_call hinv hsampled
    refine ⟨n + 1, by rw [hstep, hn, Nat.add_assoc], ?_⟩
    rw [hstep, fused_update, blend_sub_move gweight _ (θ s.last), hu]
    have hturn : |rate axis (sampleSi image s.imu) * (s.pulse - s.last) -
        (θ s.pulse - θ s.last)| ≤ e * d := by
      have hd : (s.pulse : ℚ) - s.last ≤ d := by
        have : (s.pulse : ℚ) ≤ s.last + d := by exact_mod_cast hnear
        linarith
      exact hsampled.2.2.2.trans (mul_le_mul_of_nonneg_left hd he)
    have hweight : (0 : ℚ) ≤ gweight := by norm_num [gweight]
    have hfixed : gweight * (e * d) + (1 - gweight) * ba ≤
        (1 - gweight) * (ba + 199 * (e * d)) := by
      norm_num [gweight]
      linarith
    calc |blend gweight (fused axis s.angles - θ s.last)
          (rate axis (sampleSi image s.imu) * (s.pulse - s.last) - (θ s.pulse - θ s.last),
            accel axis aroll apitch - θ s.pulse)|
        ≤ gweight * |fused axis s.angles - θ s.last| + (1 - gweight) * (ba + 199 * (e * d)) :=
          abs_blend_fade hweight (by norm_num [gweight]) hfixed _ hturn haccel
      _ ≤ gweight * (gweight ^ n * |fused axis s₀.angles - θ s₀.last| +
            (1 - gweight ^ n) * (ba + 199 * (e * d))) + (1 - gweight) * (ba + 199 * (e * d)) :=
          add_le_add_left (mul_le_mul_of_nonneg_left hfade hweight) _
      _ = gweight ^ (n + 1) * |fused axis s₀.angles - θ s₀.last| +
            (1 - gweight ^ (n + 1)) * (ba + 199 * (e * d)) := by ring

/-- CORRECT: at most `d` between two samples, the fused angle is off the true one by at most 0.995^n
    times what it was off `n` samples before, and 1 - 0.995^n times the accelerometer's largest
    error and 199 times what the rate error turns in `d`. -/
theorem fused_true_time (axis : TiltAxis) (θ : ℕ → ℚ) {e : ℚ} (he : 0 ≤ e) (ba : ℚ) (d now : ℕ)
    (image : RegImage) (acts more : List Act)
    (h : Along step (Watched axis θ e ba d) (exec now image acts) more) :
    let s := exec now image acts
    let s' := exec now image (acts ++ more)
    ∃ n, s'.samples = s.samples + n ∧
      |fused axis s'.angles - θ s'.last| ≤
        (995 / 1000) ^ n * |fused axis s.angles - θ s.last| +
          (1 - (995 / 1000) ^ n) * (ba + 199 * (e * d)) := by
  intro s s'
  have hstart : Faded axis θ (ba + 199 * (e * d)) s s := ⟨0, rfl, by simp⟩
  have hrun := inv_run_along step (fun s' => Inv s' ∧ Faded axis θ (ba + 199 * (e * d)) s s')
    (fun s' a hs hI => ⟨inv_step s' a hI.1, faded_step he hI.1 hs hI.2⟩) more s h
    ⟨inv_exec now image acts, hstart⟩
  have hs' : s' = run step s more := run_append step (init now image) acts more
  rw [hs']
  exact hrun.2

/-- A drone at rest whose sensors read zero: the precomputed bias is all error. -/
def atRest (d : ℕ) : List Act :=
  [.tick d, .irq true true, .call (Vector.replicate 12 0) 0 0 ⟨⟨0, 0, 0, 0, 0, 0⟩, 0⟩]

/-- From just before a wrap of the timer, at most a degree per second. -/
theorem gyro_drift_atRest :
    let s := exec (2 ^ 32 - 1000) (Vector.replicate 12 0) (atRest 300)
    let s' := exec (2 ^ 32 - 1000) (Vector.replicate 12 0)
      (atRest 300 ++ (atRest 600 ++ atRest 600))
    |gyroOnly .roll s'.angles - gyroOnly .roll s.angles - (0 - 0)| ≤
      1 / 1000000 * (s'.last - s.last) :=
  gyro_drift .roll (fun _ => 0) (1 / 1000000) (2 ^ 32 - 1000) (Vector.replicate 12 0) (atRest 300)
    (atRest 600 ++ atRest 600) (by decide +kernel)

theorem fused_true_time_atRest :
    let s := exec (2 ^ 32 - 1000) (Vector.replicate 12 0) (atRest 300)
    let s' := exec (2 ^ 32 - 1000) (Vector.replicate 12 0)
      (atRest 300 ++ (atRest 600 ++ atRest 600))
    ∃ n, s'.samples = s.samples + n ∧
      |fused .roll s'.angles - 0| ≤ (995 / 1000) ^ n * |fused .roll s.angles - 0| +
        (1 - (995 / 1000) ^ n) * (0 + 199 * (1 / 1000000 * (600 : ℕ))) :=
  fused_true_time .roll (fun _ => 0) (by norm_num) 0 600 (2 ^ 32 - 1000) (Vector.replicate 12 0)
    (atRest 300) (atRest 600 ++ atRest 600) (by decide +kernel)

end FC.Imu.TrueTime

import FlightController.Imu.Driver
import FlightController.Schemes.Fair
import FlightController.Schemes.Mean

/-! `imu_calibrate` (`src/imu/imu_frontend.c`) with any driver: what the driver answers to the calls
    of `data_ready` and `get_or_fetch_si` is on the list of a run.

    The static `bias` is the accumulator. It starts from zero, so what it held before does not
    matter, and while the loop runs it is the sum of the samples drawn (`Summed`). Divided by their
    number, less gravity on the vertical axis, it takes the mean off when it is subtracted
    (`calibrated_run`). The call returns if the driver keeps answering (`exists_returned`). -/

namespace FC.Imu.Calibrate
open Schemes Telemetry Filter

/-- `CALIBRATION_SAMPLES`. -/
def calibrationSamples : ℕ := 100000

theorem calibrationSamples_pos : 0 < calibrationSamples := by decide

/-- Where `imu_calibrate` stands: at a `data_ready` call, at a `get_or_fetch_si` call, or
    returned. -/
inductive Loc where | poll | draw | returned
  deriving DecidableEq, Repr

/-- What the driver returns from a call of `data_ready`, or from one of `get_or_fetch_si`. -/
inductive Answer where
  | ready (timestamp : UInt32)
  | si (sample : ImuSi ℚ)

/-- The static `bias`, the loop counter, and as history the samples drawn, latest first. -/
structure Calib where
  bias : ImuBias ℚ
  i : ℕ
  loc : Loc
  drawn : List (ImuSi ℚ)
  deriving DecidableEq, Repr

/-- The additions of the loop body. -/
def addSample (bias : ImuBias ℚ) (sample : ImuSi ℚ) : ImuBias ℚ where
  gx := bias.gx + sample.gx
  gy := bias.gy + sample.gy
  gz := bias.gz + sample.gz
  ax := bias.ax + sample.ax
  ay := bias.ay + sample.ay
  az := bias.az + sample.az

/-- The divisions after the loop. -/
def average (bias : ImuBias ℚ) : ImuBias ℚ where
  gx := bias.gx / calibrationSamples
  gy := bias.gy / calibrationSamples
  gz := bias.gz / calibrationSamples
  ax := bias.ax / calibrationSamples
  ay := bias.ay / calibrationSamples
  az := bias.az / calibrationSamples - gravityEarth

/-- `memset(&bias, 0, sizeof bias)` and the loop head. -/
def enter (s : Calib) : Calib := { s with bias := ⟨0, 0, 0, 0, 0, 0⟩, i := 0, loc := .poll }

/-- The loop body after `get_or_fetch_si`, up to the next `data_ready` or the end. -/
def draw (sample : ImuSi ℚ) (s : Calib) : Calib :=
  let s := { s with bias := addSample s.bias sample, i := s.i + 1, drawn := sample :: s.drawn }
  if s.i < calibrationSamples then { s with loc := .poll }
  else { s with bias := average s.bias, loc := .returned }

/-- An answer to a call that is not being made does nothing. -/
def step (s : Calib) : Answer → Calib
  | .ready timestamp => if s.loc = .poll ∧ timestamp ≠ 0 then { s with loc := .draw } else s
  | .si sample => if s.loc = .draw then draw sample s else s

/-- A call of `imu_calibrate` when the static `bias` holds `bias`. -/
def imuCalibrate (usePrecomputedBias : Bool) (bias : ImuBias ℚ) : Calib :=
  if usePrecomputedBias then ⟨precomputedBias, 0, .returned, []⟩ else enter ⟨bias, 0, .poll, []⟩

/-- The call of `main`. -/
example (image : RegImage) (bias : ImuBias ℚ) :
    (imuCalibrate true bias).bias = (start image).bias := rfl

/-- The sum of samples, axis by axis. -/
def total (l : List (ImuSi ℚ)) : ImuBias ℚ where
  gx := (l.map (·.gx)).sum
  gy := (l.map (·.gy)).sum
  gz := (l.map (·.gz)).sum
  ax := (l.map (·.ax)).sum
  ay := (l.map (·.ay)).sum
  az := (l.map (·.az)).sum

/-- The mean of samples, axis by axis. -/
def meanSi (l : List (ImuSi ℚ)) : ImuSi ℚ where
  gx := mean (l.map (·.gx))
  gy := mean (l.map (·.gy))
  gz := mean (l.map (·.gz))
  ax := mean (l.map (·.ax))
  ay := mean (l.map (·.ay))
  az := mean (l.map (·.az))

/-- The bias takes the mean of the samples off, and leaves gravity. -/
structure Calibrated (s : Calib) : Prop where
  count : s.drawn.length = calibrationSamples
  mean : meanSi (s.drawn.map (removeBias s.bias)) = ⟨0, 0, 0, 0, 0, gravityEarth⟩

/-- While the loop runs the accumulator is the sum of the samples; in the end it is divided. -/
structure Summed (s : Calib) : Prop where
  running : s.loc ≠ .returned →
    s.bias = total s.drawn ∧ s.i = s.drawn.length ∧ s.i < calibrationSamples
  returned : s.loc = .returned →
    s.bias = average (total s.drawn) ∧ s.drawn.length = calibrationSamples

theorem total_cons (sample : ImuSi ℚ) (l : List (ImuSi ℚ)) :
    total (sample :: l) = addSample (total l) sample := by
  simp only [total, addSample, List.map_cons, List.sum_cons, add_comm]

theorem summed_imuCalibrate (bias : ImuBias ℚ) : Summed (imuCalibrate false bias) :=
  ⟨fun _ => ⟨rfl, rfl, calibrationSamples_pos⟩, fun h => by cases h⟩

theorem summed_draw {s : Calib} (h : Summed s) (hloc : s.loc = .draw) (sample : ImuSi ℚ) :
    Summed (draw sample s) := by
  obtain ⟨hbias, hi, hlt⟩ := h.running (by simp [hloc])
  have htotal : addSample s.bias sample = total (sample :: s.drawn) := by rw [total_cons, hbias]
  simp only [draw]
  split_ifs with hmore
  · exact ⟨fun _ => ⟨htotal, by simp [hi], hmore⟩, fun h => by cases h⟩
  · refine ⟨fun h => absurd rfl h, fun _ => ⟨congrArg average htotal, ?_⟩⟩
    rw [List.length_cons]
    omega

theorem summed_step (s : Calib) (a : Answer) (h : Summed s) : Summed (step s a) := by
  cases a with
  | ready timestamp =>
    simp only [step]
    split_ifs with hready
    · exact ⟨fun _ => h.running (by simp [hready.1]), fun h => by cases h⟩
    · exact h
  | si sample =>
    simp only [step]
    split_ifs with hloc
    · exact summed_draw h hloc sample
    · exact h

/-- What is taken off every sample is taken off their mean. -/
theorem meanSi_removeBias {l : List (ImuSi ℚ)} (h : l ≠ []) (bias : ImuBias ℚ) :
    meanSi (l.map (removeBias bias)) = removeBias bias (meanSi l) := by
  have haxis : ∀ (f : ImuSi ℚ → ℚ) (c : ℚ), (∀ si, f (removeBias bias si) = f si - c) →
      mean ((l.map (removeBias bias)).map f) = mean (l.map f) - c := by
    intro f c hf
    have hmap : (l.map (removeBias bias)).map f = (l.map f).map (· - c) := by
      simp only [List.map_map]
      exact List.map_congr_left fun si _ => hf si
    rw [hmap, mean_map_sub_const (by simpa using h)]
  simp only [meanSi, removeBias, ImuSi.mk.injEq]
  exact ⟨haxis (·.gx) _ fun _ => rfl, haxis (·.gy) _ fun _ => rfl, haxis (·.gz) _ fun _ => rfl,
    haxis (·.ax) _ fun _ => rfl, haxis (·.ay) _ fun _ => rfl, haxis (·.az) _ fun _ => rfl⟩

/-- The average is the mean, less gravity. -/
theorem removeBias_average {l : List (ImuSi ℚ)} (h : l.length = calibrationSamples) :
    removeBias (average (total l)) (meanSi l) = ⟨0, 0, 0, 0, 0, gravityEarth⟩ := by
  simp only [removeBias, average, total, meanSi, mean, List.length_map, h, sub_self,
    sub_sub_cancel]

theorem Summed.calibrated {s : Calib} (h : Summed s) (hloc : s.loc = .returned) :
    Calibrated s := by
  obtain ⟨hbias, hcount⟩ := h.returned hloc
  have hne : s.drawn ≠ [] := by
    rw [← List.length_pos_iff, hcount]
    exact calibrationSamples_pos
  exact ⟨hcount, by rw [meanSi_removeBias hne, hbias, removeBias_average hcount]⟩

/-- A calibration that has returned is one that takes the mean off. -/
theorem calibrated_run (bias : ImuBias ℚ) (answers : List Answer)
    (h : (run step (imuCalibrate false bias) answers).loc = .returned) :
    Calibrated (run step (imuCalibrate false bias) answers) :=
  (inv_run step Summed summed_step answers (summed_imuCalibrate bias)).calibrated h

/-! ### The end of the loop -/

/-- The driver keeps having data, and keeps returning samples. -/
structure Answering (as : ℕ → Answer) : Prop where
  ready : ∃ᶠ n in atTop, ∃ timestamp, as n = .ready timestamp ∧ timestamp ≠ 0
  si : ∃ᶠ n in atTop, ∃ sample, as n = .si sample

/-- The calls with an answer that counts still to be made. -/
def callsLeft (s : Calib) : ℕ :=
  2 * (calibrationSamples - s.i) + if s.loc = .poll then 1 else 0

/-- The answer that counts, by the calls left. -/
def Counts (left : ℕ) (a : Answer) : Prop :=
  if left % 2 = 1 then ∃ timestamp, a = .ready timestamp ∧ timestamp ≠ 0
  else ∃ sample, a = .si sample

theorem callsLeft_draw {s : Calib} (h : Summed s) (hloc : s.loc = .draw) (sample : ImuSi ℚ) :
    callsLeft (draw sample s) < callsLeft s := by
  have hlt := (h.running (by simp [hloc])).2.2
  simp only [callsLeft, draw, hloc, reduceCtorEq, if_false]
  by_cases hmore : s.i + 1 < calibrationSamples
  · simp only [hmore, if_true]
    omega
  · simp only [hmore, if_false, reduceCtorEq]
    omega

/-- An answer never adds to the calls left. -/
theorem callsLeft_le {s : Calib} (h : Summed s) (a : Answer) :
    callsLeft (step s a) ≤ callsLeft s := by
  cases a with
  | ready timestamp =>
    simp only [step]
    split_ifs with hready
    · simp [callsLeft]
    · exact le_rfl
  | si sample =>
    simp only [step]
    split_ifs with hloc
    · exact (callsLeft_draw h hloc sample).le
    · exact le_rfl

theorem callsLeft_lt {s : Calib} (h : Summed s) (hrun : s.loc ≠ .returned) {a : Answer}
    (hcounts : Counts (callsLeft s) a) : callsLeft (step s a) < callsLeft s := by
  cases hloc : s.loc with
  | poll =>
    have hodd : callsLeft s % 2 = 1 := by
      simp only [callsLeft, hloc, if_true]
      omega
    simp only [Counts, hodd, if_true] at hcounts
    obtain ⟨timestamp, rfl, hne⟩ := hcounts
    simp [step, callsLeft, hloc, hne]
  | draw =>
    have heven : callsLeft s % 2 ≠ 1 := by
      simp only [callsLeft, hloc, reduceCtorEq, if_false]
      omega
    simp only [Counts, heven, if_false] at hcounts
    obtain ⟨sample, rfl⟩ := hcounts
    simp only [step, hloc, if_true]
    exact callsLeft_draw h hloc sample
  | returned => exact absurd hloc hrun

/-- While the driver keeps answering the call returns. -/
theorem exists_returned (bias : ImuBias ℚ) {as : ℕ → Answer} (h : Answering as) :
    ∃ n, (trace step (imuCalibrate false bias) as n).loc = .returned := by
  have hsum : ∀ n, Summed (trace step (imuCalibrate false bias) as n) :=
    inv_trace step Summed summed_step (summed_imuCalibrate bias) as
  have hcounts : ∀ left, ∃ᶠ n in atTop, Counts left (as n) := by
    intro left
    unfold Counts
    split_ifs
    · exact h.ready
    · exact h.si
  refine exists_of_rank_self (fun n => callsLeft (trace step (imuCalibrate false bias) as n))
    (H := fun left n => Counts left (as n)) ?_ ?_ hcounts
  · intro n _
    exact callsLeft_le (hsum n) (as n)
  · intro n hrun hact
    exact callsLeft_lt (hsum n) hrun hact

end FC.Imu.Calibrate

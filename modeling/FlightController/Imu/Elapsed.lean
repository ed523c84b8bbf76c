import FlightController.Imu.Driver
import FlightController.Schemes.Run
import FlightController.Schemes.Telescope

/-! The elapsed time in the samples. Every sample carries `dt`, the time since the gyroscope sample
    before it; the complementary filter multiplies rates by it. So between two samples the `dt`s
    should add up to the difference of their timestamps, mod 2^32.

    A run is a list of interrupts and calls of `imu_get_latest`. A call that finds no data between
    two samples breaks the sum: it stores 0 as the previous timestamp, the next call with data only
    stores its own, and the time between is in no sample (`not_covered_gapRun`). Nothing else does:
    the sums are right exactly in the runs whose calls leave no such gap, which can be told from
    what `data_ready` answered in them (`elapsed_covered_iff`). -/

namespace FC.Imu
open Schemes

/-- A returned sample, and what `data_ready` answered in its call: its gyroscope timestamp. -/
structure Stamped where
  stamp : UInt32
  sample : ImuSample ℚ
  deriving DecidableEq, Repr

/-- The statics, and the samples returned so far, latest first. -/
structure Calls where
  imu : Imu
  samples : List Stamped

/-- The data-ready interrupt, or a call that would read `image` from the sensor. -/
inductive CallAct where
  | irq (gyro acc : Bool) (nowUs : UInt32)
  | call (image : RegImage)

def callStep (s : Calls) : CallAct → Calls
  | .irq gyro acc nowUs => { s with imu := s.imu.irq gyro acc nowUs }
  | .call image =>
    let r := imuGetLatest image s.imu
    { imu := r.2
      samples := match r.1 with
        | none => s.samples
        | some sample => ⟨s.imu.driver.dataReady, sample⟩ :: s.samples }

/-- Before the first call. -/
def Calls.init (image : RegImage) : Calls := ⟨start image, []⟩

/-- Between any two returned samples, the `dt`s of those after the first up to the second sum up to
    the difference of the two timestamps. Sum and difference are taken mod 2^32. -/
def Covered (s : Calls) : Prop := Telescopes Stamped.stamp (·.sample.dt) s.samples

/-- A call that returns a sample finds the timestamp of the latest returned one as the previous
    timestamp. -/
def Continues (s : Calls) : CallAct → Prop
  | .irq .. => True
  | .call _ =>
    s.imu.driver.dataReady ≠ 0 → s.imu.prevGyroDrdyTimestamp ≠ 0 →
      ∀ last older, s.samples = last :: older → s.imu.prevGyroDrdyTimestamp = last.stamp

theorem samples_call_of_none {s : Calls} (image : RegImage)
    (h : s.imu.driver.dataReady = 0 ∨ s.imu.prevGyroDrdyTimestamp = 0) :
    (callStep s (.call image)).samples = s.samples := by
  simp only [callStep, imuGetLatest_eq_none h]

theorem samples_call_of_some {s : Calls} (image : RegImage)
    (hready : s.imu.driver.dataReady ≠ 0) (hprev : s.imu.prevGyroDrdyTimestamp ≠ 0) :
    ∃ sample : ImuSample ℚ,
      sample.dt = s.imu.driver.dataReady - s.imu.prevGyroDrdyTimestamp ∧
      (callStep s (.call image)).samples = ⟨s.imu.driver.dataReady, sample⟩ :: s.samples := by
  simp only [callStep, imuGetLatest_eq_some hready hprev]
  exact ⟨_, rfl, rfl⟩

theorem prev_call (s : Calls) (image : RegImage) :
    (callStep s (.call image)).imu.prevGyroDrdyTimestamp = s.imu.driver.dataReady := by
  by_cases h : s.imu.driver.dataReady = 0 ∨ s.imu.prevGyroDrdyTimestamp = 0
  · simp only [callStep, imuGetLatest_eq_none h]
  · obtain ⟨hready, hprev⟩ := not_or.mp h
    simp only [callStep, imuGetLatest_eq_some hready hprev]

theorem covered_step {s : Calls} (a : CallAct) (h : Covered s) (hcont : Continues s a) :
    Covered (callStep s a) := by
  cases a with
  | irq gyro acc nowUs => exact h
  | call image =>
    by_cases hnone : s.imu.driver.dataReady = 0 ∨ s.imu.prevGyroDrdyTimestamp = 0
    · rw [Covered, samples_call_of_none image hnone]; exact h
    · obtain ⟨hready, hprev⟩ := not_or.mp hnone
      obtain ⟨sample, hdt, hsamples⟩ := samples_call_of_some image hready hprev
      have hchain : Adjoining Stamped.stamp (·.sample.dt) s.samples := telescopes_iff_adjoining.mp h
      rw [Covered, hsamples, telescopes_iff_adjoining]
      cases hlist : s.samples with
      | nil => exact List.isChain_singleton _
      | cons last older =>
        refine List.isChain_cons_cons.mpr ⟨?_, hlist ▸ hchain⟩
        have hlast := hcont hready hprev last older hlist
        exact hdt.trans (by rw [hlast])

/-- A step after which the sums are right met the condition. -/
theorem continues_of_covered {s : Calls} (a : CallAct) (h : Covered (callStep s a)) :
    Continues s a := by
  cases a with
  | irq gyro acc nowUs => trivial
  | call image =>
    intro hready hprev last older hlist
    obtain ⟨sample, hdt, hsamples⟩ := samples_call_of_some image hready hprev
    rw [Covered, hsamples, hlist, telescopes_iff_adjoining] at h
    have hstep : sample.dt = s.imu.driver.dataReady - last.stamp := (List.isChain_cons_cons.mp h).1
    rw [hdt] at hstep
    exact sub_right_injective hstep

theorem covered_init (image : RegImage) : Covered (Calls.init image) :=
  telescopes_iff_adjoining.mpr List.isChain_nil

theorem covered_iff_continues (image : RegImage) (acts : List CallAct) :
    Always callStep Covered (Calls.init image) acts ↔
      Along callStep Continues (Calls.init image) acts :=
  always_iff_along callStep Covered (fun _ h => h) (fun _ a h hcont => covered_step a h hcont)
    (fun _ a _ h => continues_of_covered a h) acts (covered_init image)

/-! ### Gaps -/

/-- What `data_ready` answers at the start of each call, latest first, on top of `before`. -/
def answers : Calls → List UInt32 → List CallAct → List UInt32
  | _, before, [] => before
  | s, before, .irq gyro acc nowUs :: acts => answers (callStep s (.irq gyro acc nowUs)) before acts
  | s, before, .call image :: acts =>
    answers (callStep s (.call image)) (s.imu.driver.dataReady :: before) acts

/-- The timestamp of the latest sample, from the answers: a sample takes two calls in a row that
    find data. -/
def lastSample : List UInt32 → Option UInt32
  | r :: p :: older => if r ≠ 0 ∧ p ≠ 0 then some r else lastSample (p :: older)
  | _ => none

/-- No gap in the answers. Where two calls in a row find data after one that found none, no sample
    has been returned yet; or the first of the two has the very timestamp of the latest sample, one
    or more turns of the timer later. -/
def Gapless : List UInt32 → Prop
  | r :: p :: q :: older =>
    (q = 0 → p ≠ 0 → r ≠ 0 → ∀ t ∈ lastSample (q :: older), p = t) ∧ Gapless (p :: q :: older)
  | _ => True

/-- After a call that found data, the time since the latest sample starts at that call. -/
theorem gapless_cons_iff {r : UInt32} {before : List UInt32} : Gapless (r :: before) ↔
    (r ≠ 0 → before.headD 0 ≠ 0 → ∀ t ∈ lastSample before, before.headD 0 = t) ∧
      Gapless before := by
  match before with
  | [] | [p] => simp [Gapless, lastSample]
  | p :: q :: older =>
    rw [Gapless, List.headD_cons, lastSample]
    refine and_congr_left fun _ => ?_
    by_cases hq : q = 0
    · simp only [hq, ne_eq, not_true, and_false, if_false, forall_const]
      exact forall_comm
    · -- the call before the latest found data, so the latest returned a sample if it did too
      refine iff_of_true (fun hzero => absurd hzero hq) fun _ hp t ht => ?_
      rw [if_pos ⟨hp, hq⟩] at ht
      exact Option.some.inj ht

theorem gapless_of_answers {s : Calls} {before : List UInt32} {acts : List CallAct}
    (h : Gapless (answers s before acts)) : Gapless before := by
  induction acts generalizing s before with
  | nil => exact h
  | cons a acts ih =>
    cases a with
    | irq gyro acc nowUs => exact ih h
    | call image => exact (gapless_cons_iff.mp (ih h)).2

/-- The answers tell the previous timestamp and the latest sample. -/
structure Answered (s : Calls) (before : List UInt32) : Prop where
  prev : s.imu.prevGyroDrdyTimestamp = before.headD 0
  last : s.samples.head?.map Stamped.stamp = lastSample before

theorem answered_call {s : Calls} {before : List UInt32} (h : Answered s before)
    (image : RegImage) :
    Answered (callStep s (.call image)) (s.imu.driver.dataReady :: before) := by
  refine ⟨prev_call s image, ?_⟩
  obtain ⟨hprev, hlast⟩ := h
  by_cases hnone : s.imu.driver.dataReady = 0 ∨ s.imu.prevGyroDrdyTimestamp = 0
  · rw [samples_call_of_none image hnone, hlast]
    cases before with
    | nil => rfl
    | cons p older =>
      rw [hprev, List.headD_cons] at hnone
      rw [lastSample, if_neg (by rintro ⟨hready, hp⟩; exact hnone.elim hready hp)]
  · obtain ⟨hready, hne⟩ := not_or.mp hnone
    obtain ⟨sample, -, hsamples⟩ := samples_call_of_some image hready hne
    rw [hsamples]
    cases before with
    | nil => exact absurd hprev hne
    | cons p older =>
      rw [hprev, List.headD_cons] at hne
      rw [lastSample, if_pos ⟨hready, hne⟩]
      rfl

theorem continues_call_iff {s : Calls} {before : List UInt32} (h : Answered s before)
    (image : RegImage) : Continues s (.call image) ↔
      (s.imu.driver.dataReady ≠ 0 → before.headD 0 ≠ 0 →
        ∀ t ∈ lastSample before, before.headD 0 = t) := by
  rw [Continues, h.prev, ← h.last]
  refine forall_congr' fun _ => forall_congr' fun _ => ?_
  cases s.samples with
  | nil => simp
  | cons last older => simp

/-- From any state on, the samples continue each other exactly if the answers have no gap. -/
theorem continues_iff_gapless {s : Calls} {before : List UInt32} (h : Answered s before)
    (hgapless : Gapless before) (acts : List CallAct) :
    Along callStep Continues s acts ↔ Gapless (answers s before acts) := by
  induction acts generalizing s before with
  | nil => exact iff_of_true trivial hgapless
  | cons a acts ih =>
    cases a with
    | irq gyro acc nowUs =>
      rw [along_cons, answers]
      exact (and_iff_right trivial).trans (ih ⟨h.prev, h.last⟩ hgapless)
    | call image =>
      rw [along_cons, answers, continues_call_iff h image]
      have hafter := answered_call h image
      constructor
      · rintro ⟨hcont, hrest⟩
        exact (ih hafter (gapless_cons_iff.mpr ⟨hcont, hgapless⟩)).mp hrest
      · intro hall
        have hnow := gapless_of_answers hall
        exact ⟨(gapless_cons_iff.mp hnow).1, (ih hafter hnow).mpr hall⟩

/-- CORRECT exactly in the runs without a gap: throughout such a run, and in no other, the `dt`s
    between any two samples sum up to the difference of their timestamps. -/
theorem elapsed_covered_iff (image : RegImage) (acts : List CallAct) :
    Always callStep Covered (Calls.init image) acts ↔
      Gapless (answers (Calls.init image) [] acts) :=
  (covered_iff_continues image acts).trans
    (continues_iff_gapless ⟨rfl, rfl⟩ (by simp [Gapless]) acts)

/-! ### A call that finds no data -/

/-- Both lines pulse at the given time, then `imu_get_latest` is called. -/
def poll (nowUs : UInt32) : List CallAct := [.irq true true nowUs, .call (Vector.replicate 12 0)]

/-- Four pulses 100 us apart, and one call too many after the second. -/
def gapRun : List CallAct :=
  poll 100 ++ poll 200 ++ [.call (Vector.replicate 12 0)] ++ poll 300 ++ poll 400

/-- The samples of 200 and 400 are returned, and the second has a `dt` of 100. -/
theorem not_covered_gapRun :
    ¬ Always callStep Covered (Calls.init (Vector.replicate 12 0)) gapRun := by
  intro h
  have hlast := telescopes_iff_adjoining.mp h.last
  revert hlast
  decide +kernel

end FC.Imu

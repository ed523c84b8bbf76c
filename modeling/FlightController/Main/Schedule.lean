import FlightController.Main.Loop
import FlightController.Timer.Wait

/-! The schedule of the main loop. Body `k` should start 2000 us times `k` after
    `next_iteration_start_us` was initialised, or as soon as body `k - 1` has ended when that is
    later: at the first timer reading from then on.

    `Watch` runs the program and notes, for every timer reading of `timer_wait_until_us`, when it
    was made, when the body was due and whether the reading ended the wait. The deadline is a 32-bit
    number and lateness a signed difference of two such, so a reading is understood up to 2^31 us
    after the deadline and misread as early after that. As nothing bounds the wait for the first
    frame, that can happen (`off_schedule_lateFrame`); the condition that it does not is exact
    (`onSchedule_iff`). -/

namespace FC.Main
open Schemes Schemes.Clock

/-- A timer reading in `timer_wait_until_us`: the iteration it waits for, the true time at which
    that body is due, its own true time, and whether it ended the wait. -/
structure Reading where
  iteration : ℕ
  due : ℕ
  time : ℕ
  passed : Bool
  deriving DecidableEq, Repr

variable {σ : Type}

/-- The program under observation: the true time of the initialisation, the number of bodies
    started, the true time at which the latest one ended, and the readings, latest first. -/
structure Watch (σ : Type) where
  main : St σ
  t0 : ℕ
  iteration : ℕ
  ended : ℕ
  readings : List Reading

/-- The true time at which the next body is due. -/
def Watch.due (w : Watch σ) : ℕ :=
  max (w.t0 + mainLoopPeriodUs.toNat * w.iteration) w.ended

variable (ctl : Controller σ) (tim : PwmTimer)

def watchStep (w : Watch σ) (a : Act) : Watch σ :=
  let main := step ctl tim w.main a
  match a, w.main.pc with
  | .main _, .start => { w with main, t0 := w.main.clock, ended := w.main.clock }
  | .main _, .wait =>
    let passed := main.pc != .wait
    { w with
      main
      iteration := if passed then w.iteration + 1 else w.iteration
      readings := ⟨w.iteration, w.due, w.main.clock, passed⟩ :: w.readings }
  | .main _, .telemetry => { w with main, ended := w.main.clock }
  | _, _ => { w with main }

def Watch.init : Watch σ := ⟨Main.init ctl, 0, 0, 0, []⟩

/-- Every body starts at the first reading at or after its due time: such a reading ends the wait,
    and no earlier one does. -/
def OnSchedule (w : Watch σ) : Prop := ∀ r ∈ w.readings, r.passed = true ↔ r.due ≤ r.time

/-- A reading at or after the deadline comes at most 2^31 us after it, up to whole turns of the
    counter. -/
def InTime (w : Watch σ) : Act → Prop
  | .main _ =>
    w.main.pc = .wait → w.t0 + mainLoopPeriodUs.toNat * w.iteration ≤ w.main.clock →
      (w.main.clock - (w.t0 + mainLoopPeriodUs.toNat * w.iteration)) % 2 ^ 32 ≤ 2 ^ 31
  | _ => True

/-- The exit test is the sign of `remaining`. -/
theorem reached_iff_remaining {deadlineUs now : UInt32} :
    reached deadlineUs now = true ↔ Timer.remaining deadlineUs now ≤ 0 := by
  simp only [Timer.remaining_le_zero_iff, reached, Bool.or_eq_true, beq_iff_eq, decide_eq_true_eq,
    UInt32.le_iff_toNat_le, ← UInt32.toNat_inj]
  exact Iff.rfl

/-- A reading of `timer_wait_until_us`, sleeping or busy-waiting, ends the wait exactly when the
    wait of the main loop ends there. -/
theorem returns_iff_reached {s : Timer.St} (hpc : s.pc = .read ∨ s.pc = .busy) (other : Bool) :
    (Timer.cpuStep other s).pc = .done ↔ reached s.deadlineUs s.counter = true :=
  (Timer.returns_iff hpc other).trans reached_iff_remaining.symm

/-- The exit test on a deadline at most half a turn ahead. -/
theorem reached_stamp_iff {d t : ℕ} (hnear : d < t + 2 ^ 31) :
    reached (stamp d) (stamp t) = true ↔ d ≤ t ∧ (t - d) % 2 ^ 32 ≤ 2 ^ 31 :=
  reached_iff_remaining.trans (Timer.remaining_stamp_iff hnear)

/-- The program is past the initialisation of `next_iteration_start_us`. -/
def Pc.scheduled : Pc → Bool
  | .escSetup | .fcSetup | .start => false
  | _ => true

/-- The deadline shows the true due time, at most one period ahead of true time, and the readings
    so far kept the schedule. -/
structure ScheduleOk (w : Watch σ) : Prop where
  deadline : w.main.pc.scheduled = true →
    w.main.nextIterationStartUs = stamp (w.t0 + mainLoopPeriodUs.toNat * w.iteration)
  near : w.main.pc.scheduled = true →
    w.t0 + mainLoopPeriodUs.toNat * w.iteration ≤ w.main.clock + mainLoopPeriodUs.toNat
  ended : w.ended ≤ w.main.clock
  fresh : w.main.pc.scheduled = false → w.iteration = 0
  kept : OnSchedule w

/-- Outside the initialisation and the wait, a step leaves the deadline alone. -/
theorem mainStep_deadline {s : St σ} (e : Env) (hstart : s.pc ≠ .start) (hwait : s.pc ≠ .wait) :
    (mainStep ctl tim s e).nextIterationStartUs = s.nextIterationStartUs ∧
      (mainStep ctl tim s e).pc.scheduled = s.pc.scheduled := by
  cases hpc : s.pc
  case start => exact absurd hpc hstart
  case wait => exact absurd hpc hwait
  case recvFirst | recvReady | copy | lossRcvd | lossFirst | lossTest =>
    simp only [mainStep, hpc]; split <;> simp [Pc.scheduled]
  all_goals simp [mainStep, hpc, Pc.scheduled]

/-- A reading in the wait: what it notes, and where it leads. -/
theorem watchStep_wait {w : Watch σ} (e : Env) (hpc : w.main.pc = .wait) :
    watchStep ctl tim w (.main e) =
      if reached w.main.nextIterationStartUs w.main.timerNowUs then
        { w with
          main := { w.main with
            nextIterationStartUs := w.main.nextIterationStartUs + mainLoopPeriodUs
            pc := .recvFirst }
          iteration := w.iteration + 1
          readings := ⟨w.iteration, w.due, w.main.clock, true⟩ :: w.readings }
      else { w with readings := ⟨w.iteration, w.due, w.main.clock, false⟩ :: w.readings } := by
  simp only [watchStep, step, mainStep, hpc]
  split <;> simp [hpc]

/-- The other steps of `main` note at most the end of a body. -/
theorem watchStep_quiet {w : Watch σ} (e : Env) (hstart : w.main.pc ≠ .start)
    (hwait : w.main.pc ≠ .wait) :
    (watchStep ctl tim w (.main e)).main = mainStep ctl tim w.main e ∧
      (watchStep ctl tim w (.main e)).t0 = w.t0 ∧
      (watchStep ctl tim w (.main e)).iteration = w.iteration ∧
      (watchStep ctl tim w (.main e)).readings = w.readings ∧
      ((watchStep ctl tim w (.main e)).ended = w.ended ∨
        (watchStep ctl tim w (.main e)).ended = w.main.clock) := by
  cases hpc : w.main.pc
  case start => exact absurd hpc hstart
  case wait => exact absurd hpc hwait
  all_goals simp [watchStep, step, hpc]

variable {ctl tim}

/-- The exit test at a reading, in true time. -/
theorem ScheduleOk.reached_iff {w : Watch σ} (h : ScheduleOk w) (hpc : w.main.pc = .wait) :
    reached w.main.nextIterationStartUs w.main.timerNowUs = true ↔
      w.t0 + mainLoopPeriodUs.toNat * w.iteration ≤ w.main.clock ∧
        (w.main.clock - (w.t0 + mainLoopPeriodUs.toNat * w.iteration)) % 2 ^ 32 ≤ 2 ^ 31 := by
  have hsched : w.main.pc.scheduled = true := by rw [hpc]; rfl
  have hnear := h.near hsched
  rw [h.deadline hsched, St.timerNowUs]
  refine reached_stamp_iff (lt_of_le_of_lt hnear ?_)
  exact Nat.add_lt_add_left (by decide) _

/-- A reading at or after the due time is one at or after the deadline. -/
theorem ScheduleOk.due_le_iff {w : Watch σ} (h : ScheduleOk w) :
    w.due ≤ w.main.clock ↔ w.t0 + mainLoopPeriodUs.toNat * w.iteration ≤ w.main.clock := by
  rw [Watch.due, max_le_iff]
  exact and_iff_left h.ended

theorem scheduleOk_wait {w : Watch σ} (h : ScheduleOk w) (e : Env) (hpc : w.main.pc = .wait)
    (htime : InTime w (.main e)) : ScheduleOk (watchStep ctl tim w (.main e)) := by
  have hsched : w.main.pc.scheduled = true := by rw [hpc]; rfl
  rw [watchStep_wait ctl tim e hpc]
  split
  · rename_i hreached
    have hpassed := (h.reached_iff hpc).mp hreached
    have hnext : w.t0 + mainLoopPeriodUs.toNat * (w.iteration + 1) =
        w.t0 + mainLoopPeriodUs.toNat * w.iteration + mainLoopPeriodUs.toNat := by
      rw [Nat.mul_succ, Nat.add_assoc]
    refine ⟨?_, ?_, h.ended, ?_, ?_⟩
    · intro _
      simp only [hnext, stamp_add, h.deadline hsched]
    · intro _
      simp only [hnext]
      exact Nat.add_le_add_right hpassed.1 _
    · intro hne
      exact absurd hne Bool.true_eq_false.mp
    · have hdue : w.due ≤ w.main.clock := h.due_le_iff.mpr hpassed.1
      exact List.forall_mem_cons.mpr ⟨iff_of_true rfl hdue, h.kept⟩
  · rename_i hlate
    refine ⟨h.deadline, h.near, h.ended, h.fresh, ?_⟩
    refine List.forall_mem_cons.mpr ⟨iff_of_false Bool.false_ne_true ?_, h.kept⟩
    intro hdue
    have hle := h.due_le_iff.mp hdue
    exact hlate ((h.reached_iff hpc).mpr ⟨hle, htime hpc hle⟩)

theorem scheduleOk_main {w : Watch σ} (h : ScheduleOk w) (e : Env) (htime : InTime w (.main e)) :
    ScheduleOk (watchStep ctl tim w (.main e)) := by
  have hclock := (mainStep_frame ctl tim w.main e).1
  by_cases hwait : w.main.pc = .wait
  · exact scheduleOk_wait h e hwait htime
  by_cases hstart : w.main.pc = .start
  · -- the initialisation: body 0 is due now
    have hfresh := h.fresh (by rw [hstart]; rfl)
    have hstep : watchStep ctl tim w (.main e) =
        { w with
          main := { w.main with nextIterationStartUs := stamp w.main.clock, pc := .wait }
          t0 := w.main.clock
          ended := w.main.clock } := by
      simp only [watchStep, step, mainStep, hstart, St.timerNowUs]
    rw [hstep]
    refine ⟨?_, ?_, le_rfl, ?_, h.kept⟩
    · intro _
      simp only [hfresh, Nat.mul_zero, Nat.add_zero]
    · intro _
      simp only [hfresh, Nat.mul_zero, Nat.add_zero]
      exact Nat.le_add_right ..
    · intro hne
      exact absurd hne Bool.true_eq_false.mp
  · obtain ⟨hdeadline, hsched⟩ := mainStep_deadline ctl tim e hstart hwait
    obtain ⟨hmain, ht0, hiter, hread, hended⟩ := watchStep_quiet ctl tim e hstart hwait
    refine ⟨?_, ?_, ?_, ?_, ?_⟩
    · rw [hmain, ht0, hiter, hdeadline, hsched]; exact h.deadline
    · rw [hmain, ht0, hiter, hclock, hsched]; exact h.near
    · rw [hmain, hclock]
      rcases hended with hsame | hnow
      · rw [hsame]; exact h.ended
      · rw [hnow]
    · rw [hmain, hiter, hsched]; exact h.fresh
    · rw [OnSchedule, hread]; exact h.kept

theorem scheduleOk_step {w : Watch σ} (a : Act) (h : ScheduleOk w) (htime : InTime w a) :
    ScheduleOk (watchStep ctl tim w a) := by
  cases a with
  | tick d =>
    have hlater : w.main.clock ≤ w.main.clock + d := Nat.le_add_right ..
    exact ⟨h.deadline, fun hs => le_trans (h.near hs) (Nat.add_le_add_right hlater _),
      le_trans h.ended hlater, h.fresh, h.kept⟩
  | usart ch => exact ⟨h.deadline, h.near, h.ended, h.fresh, h.kept⟩
  | main e => exact scheduleOk_main h e htime

/-- A reading that kept the schedule was understood. -/
theorem inTime_of_onSchedule {w : Watch σ} (a : Act) (h : ScheduleOk w)
    (hkept : OnSchedule (watchStep ctl tim w a)) : InTime w a := by
  cases a with
  | tick d => trivial
  | usart ch => trivial
  | main e =>
    intro hpc hle
    refine ((h.reached_iff hpc).mp ?_).2
    by_contra hearly
    rw [watchStep_wait ctl tim e hpc, if_neg hearly] at hkept
    have hfalse := hkept ⟨w.iteration, w.due, w.main.clock, false⟩ (List.mem_cons_self ..)
    exact Bool.false_ne_true (hfalse.mpr (h.due_le_iff.mpr hle))

theorem scheduleOk_init : ScheduleOk (Watch.init ctl) := by
  refine ⟨?_, ?_, le_rfl, fun _ => rfl, ?_⟩
  · intro hne
    exact absurd hne Bool.false_ne_true
  · intro hne
    exact absurd hne Bool.false_ne_true
  · intro r hr
    exact absurd hr List.not_mem_nil

variable (ctl tim)

/-- CORRECT exactly in the runs whose readings are in time: throughout such a run, and in no other,
    every body starts at the first timer reading at or after its due time. -/
theorem onSchedule_iff (acts : List Act) :
    Always (watchStep ctl tim) OnSchedule (Watch.init ctl) acts ↔
      Along (watchStep ctl tim) InTime (Watch.init ctl) acts :=
  always_iff_along (watchStep ctl tim) ScheduleOk (fun _ h => h.kept)
    (fun _ a h htime => scheduleOk_step a h htime)
    (fun _ a h hkept => inTime_of_onSchedule a h hkept) acts scheduleOk_init

/-- The first frame comes 2^31 us after the second body was due, and a bit; that body is then held
    back. -/
def lateFrame : List Act :=
  .tick 2000000 :: mains 4 ++ .tick (2 ^ 31 + 2001) :: usarts (Ibus.frameBytes movedSample) ++
    mains 19

theorem off_schedule_lateFrame :
    ¬ Always (watchStep flight board) OnSchedule (Watch.init flight) lateFrame := by
  intro h
  have hreading := h.last ⟨1, 2002001 + 2 ^ 31, 2002001 + 2 ^ 31, false⟩ (by decide +kernel)
  revert hreading
  decide

end FC.Main

import FlightController.Schemes.Fair
import FlightController.Timer.Wait

/-! When the timed wait returns. `Watch` notes the true times of the call's timer readings. As long
    as the first one is less than half a turn of the counter away from the deadline, before or after
    it, and no two are half a turn apart, the sign of the 32-bit difference is that of the true one
    at every reading: the readings before the deadline keep the difference positive, and the first
    one past it cannot overshoot by half a turn. So the wait returns at that reading, asleep or busy
    in between, across any wrap (`wait_exact`). -/

namespace FC.Timer
open Schemes Schemes.Clock Filter

/-- The code is at a timer reading. -/
def Pc.reads : Pc → Bool
  | .read | .busy => true
  | _ => false

/-- The wait under observation: the true times of its readings, latest first. -/
structure Watch where
  wait : St
  readings : List ℕ

def watchStep (w : Watch) (a : Act) : Watch where
  wait := step w.wait a
  readings :=
    match a with
    | .cpu _ => if w.wait.pc.reads then w.wait.clock :: w.readings else w.readings
    | _ => w.readings

/-- A call under observation, from its start. -/
def Watch.start (t deadline : ℕ) (ccr1 : UInt32) (cc1if : Bool) : Watch :=
  ⟨Timer.start t deadline ccr1 cc1if, []⟩

/-- A reading now is less than half a turn after the latest one; the first one is less than half a
    turn after or before the deadline. -/
def CloseTo (s : St) : List ℕ → Prop
  | [] => s.deadline < s.clock + 2 ^ 31 ∧ s.clock < s.deadline + 2 ^ 31
  | r :: _ => s.clock < r + 2 ^ 31

instance (s : St) : ∀ readings, Decidable (CloseTo s readings)
  | [] => instDecidableAnd
  | _ :: _ => Nat.decLt _ _

def Close (w : Watch) : Act → Prop
  | .cpu _ => w.wait.pc.reads = true → CloseTo w.wait w.readings
  | _ => True

instance (w : Watch) : ∀ a : Act, Decidable (Close w a)
  | .cpu _ => inferInstanceAs (Decidable (_ → _))
  | .tick | .tim2Isr => isTrue trivial

/-- The call returns at its first reading at or after the deadline, and at no earlier one. -/
structure Exact (deadline : ℕ) (w : Watch) : Prop where
  returned : w.wait.pc = .done →
    ∃ r earlier, w.readings = r :: earlier ∧ deadline ≤ r ∧ ∀ r' ∈ earlier, r' < deadline
  running : w.wait.pc ≠ .done → ∀ r ∈ w.readings, r < deadline

/-- The readings lie in the past, and the deadline is less than half a turn ahead. -/
structure ExactOk (deadline : ℕ) (w : Watch) : Prop where
  same : w.wait.deadline = deadline
  past : ∀ r ∈ w.readings, r ≤ w.wait.clock
  near : w.readings ≠ [] → deadline < w.wait.clock + 2 ^ 31
  kept : Exact deadline w

variable {D : ℕ} {w : Watch}

theorem running_of_reads (hreads : w.wait.pc.reads = true) : w.wait.pc ≠ .done := by
  intro hdone
  simp [hdone, Pc.reads] at hreads

/-- A close reading is less than half a turn away from the deadline: it follows one before the
    deadline. -/
theorem ExactOk.close (h : ExactOk D w) (hreads : w.wait.pc.reads = true)
    (hclose : CloseTo w.wait w.readings) :
    D < w.wait.clock + 2 ^ 31 ∧ w.wait.clock < D + 2 ^ 31 := by
  cases hr : w.readings with
  | nil =>
    rw [hr, CloseTo, h.same] at hclose
    exact hclose
  | cons r rest =>
    have hmem : r ∈ w.readings := by simp [hr]
    have hbefore := h.kept.running (running_of_reads hreads) r hmem
    rw [hr, CloseTo] at hclose
    exact ⟨h.near (List.ne_nil_of_mem hmem), by omega⟩

/-- At a close reading the sign of the difference is that of the true one. -/
theorem returns_iff_le (h : ExactOk D w) (hreads : w.wait.pc.reads = true) (other : Bool)
    (hclose : CloseTo w.wait w.readings) :
    (cpuStep other w.wait).pc = .done ↔ D ≤ w.wait.clock := by
  have hpc : w.wait.pc = .read ∨ w.wait.pc = .busy := by
    cases heq : w.wait.pc <;> simp_all [Pc.reads]
  obtain ⟨hnear, hnear'⟩ := h.close hreads hclose
  rw [returns_iff hpc, St.deadlineUs, St.counter, h.same, remaining_stamp_iff hnear]
  omega

/-- A step of the code changes neither time nor deadline. -/
theorem cpuStep_frame (other : Bool) (s : St) :
    (cpuStep other s).clock = s.clock ∧ (cpuStep other s).deadline = s.deadline := by
  cases hpc : s.pc <;> simp only [cpuStep, hpc]
  case wfi | asleep => split <;> simp
  all_goals simp

/-- Only a reading ends the wait. -/
theorem cpuStep_done_iff {s : St} (hreads : s.pc.reads = false) (other : Bool) :
    (cpuStep other s).pc = .done ↔ s.pc = .done := by
  cases hpc : s.pc <;> simp only [cpuStep, hpc]
  case read | busy => simp [hpc, Pc.reads] at hreads
  case wfi => split <;> simp
  case asleep => split <;> simp [hpc]
  all_goals simp

theorem isr_done_iff (s : St) : (step s .tim2Isr).pc = .done ↔ s.pc = .done := by
  simp only [step]
  split
  · split
    · rename_i hasleep
      simp [hasleep]
    · exact Iff.rfl
  · exact Iff.rfl

theorem exactOk_reading (h : ExactOk D w) (hreads : w.wait.pc.reads = true) (other : Bool)
    (hclose : CloseTo w.wait w.readings) : ExactOk D (watchStep w (.cpu other)) := by
  obtain ⟨hclock, hdeadline⟩ := cpuStep_frame other w.wait
  have hret := returns_iff_le h hreads other hclose
  have hreadings : (watchStep w (.cpu other)).readings = w.wait.clock :: w.readings := if_pos hreads
  have hbefore := h.kept.running (running_of_reads hreads)
  refine ⟨hdeadline.trans h.same, ?_, fun _ => ?_, ?_, ?_⟩
  · rw [hreadings]
    show ∀ r ∈ w.wait.clock :: w.readings, r ≤ (cpuStep other w.wait).clock
    rw [hclock]
    exact List.forall_mem_cons.mpr ⟨le_rfl, h.past⟩
  · show D < (cpuStep other w.wait).clock + 2 ^ 31
    rw [hclock]
    exact (h.close hreads hclose).1
  · intro hdone
    exact ⟨w.wait.clock, w.readings, hreadings, hret.mp hdone, hbefore⟩
  · intro hgo
    rw [hreadings]
    exact List.forall_mem_cons.mpr ⟨Nat.lt_of_not_le (mt hret.mpr hgo), hbefore⟩

/-- Whatever happens between two readings. -/
theorem exactOk_quiet {w' : Watch} (h : ExactOk D w) (hclock : w.wait.clock ≤ w'.wait.clock)
    (hdeadline : w'.wait.deadline = w.wait.deadline) (hreadings : w'.readings = w.readings)
    (hdone : w'.wait.pc = .done ↔ w.wait.pc = .done) : ExactOk D w' := by
  refine ⟨hdeadline.trans h.same, ?_, ?_, ?_, ?_⟩
  · intro r hr
    rw [hreadings] at hr
    exact (h.past r hr).trans hclock
  · intro hne
    rw [hreadings] at hne
    exact (h.near hne).trans_le (Nat.add_le_add_right hclock _)
  · rw [hreadings, hdone]
    exact h.kept.returned
  · rw [hreadings, Ne, hdone]
    exact h.kept.running

theorem exactOk_step (a : Act) (hclose : Close w a) (h : ExactOk D w) :
    ExactOk D (watchStep w a) := by
  cases a with
  | tick => exact exactOk_quiet h (Nat.le_succ _) rfl rfl Iff.rfl
  | tim2Isr =>
    have hclock : w.wait.clock ≤ (step w.wait .tim2Isr).clock := by
      simp only [step]; split <;> exact le_rfl
    have hdeadline : (step w.wait .tim2Isr).deadline = w.wait.deadline := by
      simp only [step]; split <;> rfl
    exact exactOk_quiet h hclock hdeadline rfl (isr_done_iff _)
  | cpu other =>
    by_cases hreads : w.wait.pc.reads = true
    · exact exactOk_reading h hreads other (hclose hreads)
    · obtain ⟨hclock, hdeadline⟩ := cpuStep_frame other w.wait
      exact exactOk_quiet h hclock.ge hdeadline (if_neg hreads)
        (cpuStep_done_iff (Bool.eq_false_iff.mpr hreads) other)

theorem exactOk_start (t D : ℕ) (ccr1 : UInt32) (cc1if : Bool) :
    ExactOk D (Watch.start t D ccr1 cc1if) := by
  refine ⟨rfl, fun r hr => absurd hr List.not_mem_nil, fun hne => absurd rfl hne, ?_, ?_⟩
  · intro hdone
    exact absurd hdone (by simp [Watch.start, start])
  · exact fun _ r hr => absurd hr List.not_mem_nil

/-! ### It does return -/

/-- True time never goes back. -/
theorem clock_le_step (w : Watch) (a : Act) : w.wait.clock ≤ (watchStep w a).wait.clock := by
  cases a with
  | tick => exact Nat.le_succ _
  | tim2Isr =>
    show w.wait.clock ≤ (step w.wait .tim2Isr).clock
    simp only [step]; split <;> exact le_rfl
  | cpu other => exact (cpuStep_frame other w.wait).1.ge

/-- CORRECT: in every run with close readings the call returns at its first reading at or after the
    deadline and at no earlier one; and when time goes on, and the call comes to another reading
    until it has returned, it does return. -/
theorem wait_exact (t D : ℕ) (ccr1 : UInt32) (cc1if : Bool) :
    (∀ acts, Along watchStep Close (Watch.start t D ccr1 cc1if) acts →
      Exact D (run watchStep (Watch.start t D ccr1 cc1if) acts)) ∧
    ∀ as : ℕ → Act,
      let w := trace watchStep (Watch.start t D ccr1 cc1if) as
      (∀ n, Close (w n) (as n)) → (∃ᶠ n in atTop, as n = .tick) →
      (∀ n, (w n).wait.pc ≠ .done →
        ∃ m, n ≤ m ∧ (w m).wait.pc.reads = true ∧ ∃ other, as m = .cpu other) →
      ∃ n, (w n).wait.pc = .done := by
  have hstart := exactOk_start t D ccr1 cc1if
  constructor
  · intro acts hclose
    exact (inv_run_along watchStep (ExactOk D) (fun _ a ha h => exactOk_step a ha h) acts _ hclose
      hstart).kept
  · intro as w hclose htick hreads
    have hok : ∀ n, ExactOk D (w n) :=
      inv_trace_along watchStep (ExactOk D) (fun _ a ha h => exactOk_step a ha h) hstart as hclose
    have hmono : Monotone fun n => (w n).wait.clock :=
      monotone_nat_of_le_succ fun n => clock_le_step (w n) (as n)
    have hup : ∃ᶠ n in atTop, (w n).wait.clock < (w (n + 1)).wait.clock := by
      refine htick.mono fun n hn => ?_
      show (w n).wait.clock < (watchStep (w n) (as n)).wait.clock
      rw [hn]
      exact Nat.lt_succ_self _
    obtain ⟨n, -, hlate⟩ := exists_le_of_frequently hmono hup D 0
    by_cases hdone : (w n).wait.pc = .done
    · exact ⟨n, hdone⟩
    · -- the next reading is past the deadline
      obtain ⟨m, hle, hread, other, hact⟩ := hreads n hdone
      have hlate' : D ≤ (w m).wait.clock := hlate.trans (hmono hle)
      refine ⟨m + 1, ?_⟩
      show (watchStep (w m) (as m)).wait.pc = .done
      have hclose' := hclose m
      rw [hact] at hclose' ⊢
      exact (returns_iff_le (hok m) hread other (hclose' hread)).mpr hlate'

/-- Over a wrap: asleep for a deadline 70 us ahead, woken early by another interrupt, and then busy
    for the last 25 us. -/
def wrapRun : List Act :=
  List.replicate 5 (.cpu false) ++ ticks 45 ++ List.replicate 4 (.cpu true) ++ ticks 25 ++
    [.cpu false]

theorem wait_exact_wrap :
    Exact (2 ^ 32 + 20) (run watchStep (Watch.start (2 ^ 32 - 50) (2 ^ 32 + 20) 0 false) wrapRun) ∧
    ∃ n, (trace watchStep (Watch.start 100 90 0 false)
      (fun n => if n = 0 then .cpu false else .tick) n).wait.pc = .done := by
  -- the first reading of the second call ends it
  have hdone : ∀ n, (trace watchStep (Watch.start 100 90 0 false)
      (fun n => if n = 0 then .cpu false else .tick) (n + 1)).wait.pc = .done := by
    intro n
    induction n with
    | zero => decide
    | succ n ih => exact ih
  refine ⟨(wait_exact _ _ 0 false).1 wrapRun (by decide +kernel),
    (wait_exact 100 90 0 false).2 _ (fun n => ?_) ?_ fun n hrun => ?_⟩
  · cases n with
    | zero => exact fun _ => ⟨by decide, by decide⟩
    | succ n => trivial
  · exact frequently_atTop.mpr fun n => ⟨n + 1, Nat.le_succ n, if_neg (Nat.succ_ne_zero n)⟩
  · cases n with
    | zero => exact ⟨0, le_rfl, rfl, false, rfl⟩
    | succ n => exact absurd (hdone n) hrun

end FC.Timer

import FlightController.Schemes.Clock
import FlightController.Schemes.Run

/-! The timed wait (`src/timer.c`). `timer_wait_until_us` reads the free-running 32-bit counter; if
    the deadline is more than 30 us ahead it arms the compare channel, clears the channel's stale
    flag, enables its interrupt and sleeps in `wfi`, then starts over.

    The counter runs on between any two statements, for as long as other interrupt handlers keep the
    processor. True time is counted in microseconds; the counter shows it mod 2^32. The hardware is
    as assumed: the counter sets the CC1 flag when it reaches the compare value, `tim2_isr` runs
    while flag and enable bit are set, and `wfi` falls through when an enabled interrupt is pending
    and sleeps until one is otherwise.

    The compare event happens once. When it comes before the flag is cleared, or is served before
    `wfi`, nothing is left to wake the processor (`lost_slowHandler`). Otherwise it never sleeps
    past its deadline (`not_lost_of_punctual`). -/

namespace FC.Timer
open Schemes Schemes.Clock

/-- `MIN_SLEEP_US`. -/
def minSleepUs : UInt32 := 30

/-- `(int32_t)(deadline_us - now)`. -/
def remaining (deadlineUs now : UInt32) : Int32 := (deadlineUs - now).toInt32

/-- Where `timer_wait_until_us` stands: at a timer reading with its tests, in the busy-wait loop,
    at the statements around `wfi`, asleep in it, or returned. -/
inductive Pc where
  | read | busy
  | setOc | clearFlag | enableIrq | wfi | asleep | disableIrq
  | done
  deriving DecidableEq, Repr

/-- The call and the timer: true time, compare value, flag and enable bit of its channel 1, the
    argument with the true time it stands for. `lost` is history: the processor has gone to sleep
    at or after the deadline with no CC1 interrupt pending. -/
structure St where
  clock : ℕ
  ccr1 : UInt32
  cc1if : Bool
  cc1ie : Bool
  pc : Pc
  deadline : ℕ
  lost : Bool
  deriving DecidableEq, Repr

/-- One microsecond passes, `tim2_isr` runs, or the code takes its next step; `other` says whether
    an interrupt other than CC1's is pending then. -/
inductive Act where
  | tick
  | tim2Isr
  | cpu (other : Bool)
  deriving DecidableEq, Repr

/-- The argument `deadline_us`. -/
def St.deadlineUs (s : St) : UInt32 := stamp s.deadline

/-- `timer_get_counter(TIMER)`. -/
def St.counter (s : St) : UInt32 := stamp s.clock

/-- The CC1 interrupt is pending. -/
def St.pending (s : St) : Bool := s.cc1if && s.cc1ie

/-- The next step of `timer_wait_until_us`. -/
def cpuStep (other : Bool) (s : St) : St :=
  match s.pc with
  | .read =>
    { s with
      pc :=
        if remaining s.deadlineUs s.counter ≤ 0 then .done
        else if (remaining s.deadlineUs s.counter).toUInt32 ≤ minSleepUs then .busy
        else .setOc }
  | .busy => { s with pc := if remaining s.deadlineUs s.counter > 0 then .busy else .done }
  | .setOc => { s with ccr1 := s.deadlineUs, pc := .clearFlag }
  | .clearFlag => { s with cc1if := false, pc := .enableIrq }
  | .enableIrq => { s with cc1ie := true, pc := .wfi }
  | .wfi =>
    if s.pending || other then { s with pc := .disableIrq }
    else { s with pc := .asleep, lost := s.lost || decide (s.deadline ≤ s.clock) }
  | .asleep => if s.pending || other then { s with pc := .disableIrq } else s
  | .disableIrq => { s with cc1ie := false, pc := .read }
  | .done => s

def step (s : St) : Act → St
  | .tick =>
    { s with clock := s.clock + 1, cc1if := s.cc1if || stamp (s.clock + 1) == s.ccr1 }
  | .tim2Isr =>
    if s.pending then
      { s with cc1if := false, pc := if s.pc = .asleep then .disableIrq else s.pc }
    else s
  | .cpu other => cpuStep other s

/-- A call at true time `t` for the true time `deadline`; compare value and flag are left over from
    earlier calls. -/
def start (t deadline : ℕ) (ccr1 : UInt32) (cc1if : Bool) : St :=
  ⟨t, ccr1, cc1if, false, .read, deadline, false⟩

/-- The deadline is not reached between the timer reading and the clear of the flag, its interrupt
    is not served before `wfi`, and no timer reading comes more than 2^31 us after the deadline, up
    to whole turns of the counter. -/
def Punctual (s : St) : Act → Prop
  | .tick => s.pc = .setOc ∨ s.pc = .clearFlag → s.clock + 1 < s.deadline
  | .tim2Isr => s.pending = true → s.pc ≠ .wfi
  | .cpu _ => s.pc = .read → s.deadline ≤ s.clock → (s.clock - s.deadline) % 2 ^ 32 ≤ 2 ^ 31

instance (s : St) : ∀ a : Act, Decidable (Punctual s a)
  | .tick | .tim2Isr | .cpu _ => inferInstanceAs (Decidable (_ → _))

/-- The state after a list of actions. -/
def exec (s : St) (acts : List Act) : St := run step s acts

/-- The signed difference is not positive when it is 0 or has its top bit set. -/
theorem remaining_le_zero_iff {deadlineUs now : UInt32} :
    remaining deadlineUs now ≤ 0 ↔
      (deadlineUs - now).toNat = 0 ∨ 2 ^ 31 ≤ (deadlineUs - now).toNat := by
  have hlt : (deadlineUs - now).toNat < 2 ^ 32 := UInt32.toNat_lt _
  have hint : (remaining deadlineUs now).toInt = (deadlineUs - now).toBitVec.toInt := by
    rw [Int32.toInt, remaining, UInt32.toBitVec_toInt32]
  have hzero : (0 : Int32).toInt = 0 := rfl
  rw [Int32.le_iff_toInt_le, hint, hzero, BitVec.toInt_eq_toNat_cond, UInt32.toNat_toBitVec]
  split <;> omega

/-- A deadline at most 2^31 us back, up to whole turns, is seen to be over. -/
theorem remaining_le_zero_of_late {d t : ℕ} (hle : d ≤ t) (hlate : (t - d) % 2 ^ 32 ≤ 2 ^ 31) :
    remaining (stamp d) (stamp t) ≤ 0 := by
  rw [remaining_le_zero_iff, stamp_sub_toNat_of_le hle]
  omega

/-- The exit test on a deadline at most half a turn ahead. -/
theorem remaining_stamp_iff {d t : ℕ} (hnear : d < t + 2 ^ 31) :
    remaining (stamp d) (stamp t) ≤ 0 ↔ d ≤ t ∧ (t - d) % 2 ^ 32 ≤ 2 ^ 31 := by
  rcases Nat.lt_or_ge t d with hlt | hle
  · have hdiff : (stamp d - stamp t).toNat = d - t := by
      rw [stamp_sub_toNat hlt.le, Nat.mod_eq_of_lt (by omega)]
    rw [remaining_le_zero_iff, hdiff]
    omega
  · refine ⟨fun hover => ⟨hle, ?_⟩, fun hlate => remaining_le_zero_of_late hle hlate.2⟩
    rw [remaining_le_zero_iff, stamp_sub_toNat_of_le hle] at hover
    omega

/-- A reading, before sleeping or busy-waiting, ends the wait exactly when nothing remains. -/
theorem returns_iff {s : St} (hpc : s.pc = .read ∨ s.pc = .busy) (other : Bool) :
    (cpuStep other s).pc = .done ↔ remaining s.deadlineUs s.counter ≤ 0 := by
  rcases hpc with hpc | hpc <;> simp only [cpuStep, hpc]
  · split
    · rename_i hle
      exact iff_of_true rfl hle
    · rename_i hgt
      refine iff_of_false ?_ hgt
      split <;> simp
  · split
    · rename_i hgt
      exact iff_of_false (by simp) (Int32.not_le.mpr hgt)
    · rename_i hle
      exact iff_of_true rfl (Int32.not_lt.mp hle)

/-- Past the reading the deadline is still ahead until the flag is cleared; from then on it is ahead
    or the flag is set. The interrupt is on around `wfi` only. -/
structure WaitOk (s : St) : Prop where
  ahead : s.pc = .setOc ∨ s.pc = .clearFlag → s.clock < s.deadline
  armed : s.pc = .clearFlag ∨ s.pc = .enableIrq ∨ s.pc = .wfi → s.ccr1 = s.deadlineUs
  flagged : s.pc = .enableIrq ∨ s.pc = .wfi → s.deadline ≤ s.clock → s.cc1if = true
  enabled : s.pc = .wfi → s.cc1ie = true
  masked : s.cc1ie = true → s.pc = .wfi ∨ s.pc = .asleep ∨ s.pc = .disableIrq
  kept : s.lost = false

theorem waitOk_tick {s : St} (h : WaitOk s) (hp : Punctual s .tick) : WaitOk (step s .tick) := by
  refine ⟨hp, h.armed, ?_, h.enabled, h.masked, h.kept⟩
  intro hpc hle
  simp only [step, Bool.or_eq_true, beq_iff_eq] at hle ⊢
  rcases Nat.lt_or_ge s.clock s.deadline with hlt | hge
  · -- this very tick reaches the deadline
    have hnow : s.clock + 1 = s.deadline := le_antisymm hlt hle
    right
    rw [hnow, h.armed (Or.inr hpc), St.deadlineUs]
  · exact Or.inl (h.flagged hpc hge)

/-- Between the timer reading and `wfi`. -/
def Pc.arming : Pc → Bool
  | .setOc | .clearFlag | .enableIrq | .wfi => true
  | _ => false

/-- Elsewhere nothing is at stake. -/
theorem waitOk_of_not_arming {s : St} (hpc : s.pc.arming = false)
    (hmask : s.cc1ie = true → s.pc = .asleep ∨ s.pc = .disableIrq) (hkept : s.lost = false) :
    WaitOk s := by
  have haway : s.pc ≠ .setOc ∧ s.pc ≠ .clearFlag ∧ s.pc ≠ .enableIrq ∧ s.pc ≠ .wfi := by
    refine ⟨?_, ?_, ?_, ?_⟩ <;> (rintro heq; rw [heq] at hpc; exact Bool.false_ne_true hpc.symm)
  obtain ⟨hset, hclear, henable, hwfi⟩ := haway
  refine ⟨?_, ?_, ?_, fun h => absurd h hwfi, fun h => Or.inr (hmask h), hkept⟩
  · rintro (h | h)
    exacts [absurd h hset, absurd h hclear]
  · rintro (h | h | h)
    exacts [absurd h hclear, absurd h henable, absurd h hwfi]
  · rintro (h | h)
    exacts [absurd h henable, absurd h hwfi]

theorem waitOk_isr {s : St} (h : WaitOk s) (hp : Punctual s .tim2Isr) :
    WaitOk (step s .tim2Isr) := by
  simp only [step]
  split
  · rename_i hpending
    -- the interrupt is on, and the code is not at `wfi`: it is asleep, or just awake
    have henabled : s.cc1ie = true := (Bool.and_eq_true_iff.mp hpending).2
    rcases h.masked henabled with hwfi | hasleep | hawake
    · exact absurd hwfi (hp hpending)
    · rw [if_pos hasleep]
      exact waitOk_of_not_arming rfl (fun _ => Or.inr rfl) h.kept
    · rw [if_neg (by simp [hawake]), hawake]
      exact waitOk_of_not_arming rfl (fun _ => Or.inr rfl) h.kept
  · exact h

/-- Before `wfi` the interrupt is off. -/
theorem WaitOk.off {s : St} (h : WaitOk s)
    (hpc : s.pc ≠ .wfi ∧ s.pc ≠ .asleep ∧ s.pc ≠ .disableIrq) : s.cc1ie = false := by
  cases hie : s.cc1ie with
  | false => rfl
  | true =>
    rcases h.masked hie with heq | heq | heq
    exacts [absurd heq hpc.1, absurd heq hpc.2.1, absurd heq hpc.2.2]

theorem waitOk_cpu {s : St} (h : WaitOk s) (other : Bool) (hp : Punctual s (.cpu other)) :
    WaitOk (step s (.cpu other)) := by
  cases hpc : s.pc <;> simp only [step, cpuStep, hpc]
  case read =>
    have hoff := h.off (by simp [hpc])
    split
    · exact waitOk_of_not_arming rfl (by simp [hoff]) h.kept
    · rename_i hearly
      have hlt : s.clock < s.deadline := by
        by_contra hge
        have hle := Nat.le_of_not_lt hge
        exact hearly (remaining_le_zero_of_late hle (hp hpc hle))
      split
      · exact waitOk_of_not_arming rfl (by simp [hoff]) h.kept
      · exact ⟨fun _ => hlt, by simp, by simp, by simp, by simp [hoff], h.kept⟩
  case busy =>
    have hoff := h.off (by simp [hpc])
    split <;> exact waitOk_of_not_arming rfl (by simp [hoff]) h.kept
  case setOc =>
    have hoff := h.off (by simp [hpc])
    exact ⟨fun _ => h.ahead (Or.inl hpc), fun _ => rfl, by simp, by simp, by simp [hoff], h.kept⟩
  case clearFlag =>
    have hoff := h.off (by simp [hpc])
    have hlt := h.ahead (Or.inr hpc)
    exact ⟨by simp, fun _ => h.armed (Or.inl hpc), fun _ hle => absurd hlt (Nat.not_lt.mpr hle),
      by simp, by simp [hoff], h.kept⟩
  case enableIrq =>
    exact ⟨by simp, fun _ => h.armed (Or.inr (Or.inl hpc)), fun _ => h.flagged (Or.inl hpc),
      fun _ => rfl, fun _ => Or.inl rfl, h.kept⟩
  case wfi =>
    split
    · exact waitOk_of_not_arming rfl (fun _ => Or.inr rfl) h.kept
    · rename_i hidle
      refine waitOk_of_not_arming rfl (fun _ => Or.inl rfl) ?_
      have hahead : s.clock < s.deadline := by
        by_contra hge
        have hflag := h.flagged (Or.inr hpc) (Nat.le_of_not_lt hge)
        simp [St.pending, hflag, h.enabled hpc] at hidle
      simp [h.kept, hahead]
  case asleep =>
    split
    · exact waitOk_of_not_arming rfl (fun _ => Or.inr rfl) h.kept
    · exact h
  case disableIrq => exact waitOk_of_not_arming rfl (by simp) h.kept
  case done => exact h

theorem waitOk_step {s : St} (a : Act) (hp : Punctual s a) (h : WaitOk s) :
    WaitOk (step s a) := by
  cases a with
  | tick => exact waitOk_tick h hp
  | tim2Isr => exact waitOk_isr h hp
  | cpu other => exact waitOk_cpu h other hp

/-- CORRECT in every punctual run: for any deadline and anything that earlier calls left in the
    timer, the processor never goes to sleep after the deadline with no CC1 interrupt pending. -/
theorem not_lost_of_punctual (t deadline : ℕ) (ccr1 : UInt32) (cc1if : Bool) (acts : List Act)
    (hp : Along step Punctual (start t deadline ccr1 cc1if) acts) :
    (exec (start t deadline ccr1 cc1if) acts).lost = false :=
  (inv_run_along step WaitOk (fun _ a ha h => waitOk_step a ha h) acts _ hp
    (waitOk_of_not_arming rfl (fun hne => absurd hne Bool.false_ne_true) rfl)).kept

/-! ### The two windows -/

/-- When the deadline passes before the flag is cleared, the compare event is missed. -/
theorem lost_of_late_clear {s : St} (hpc : s.pc = .setOc ∨ s.pc = .clearFlag)
    (hlate : s.deadline ≤ s.clock) : ∃ n, (exec s (List.replicate n (.cpu false))).lost = true := by
  rcases hpc with hpc | hpc
  · exact ⟨4, by simp [exec, step, cpuStep, hpc, St.pending, hlate]⟩
  · exact ⟨3, by simp [exec, step, cpuStep, hpc, St.pending, hlate]⟩

/-- When `tim2_isr` serves the event before `wfi`, it is gone. -/
theorem lost_of_served {s : St} (hpc : s.pc = .wfi) (hpending : s.pending = true)
    (hlate : s.deadline ≤ s.clock) : (exec s [.tim2Isr, .cpu false]).lost = true := by
  have hisr : step s .tim2Isr = { s with cc1if := false } := by
    simp [step, hpending, hpc]
  rw [exec, run_cons, hisr, run_cons, run_nil]
  simp [step, cpuStep, hpc, St.pending, hlate]

/-- `n` microseconds. -/
def ticks (n : ℕ) : List Act := List.replicate n .tick

/-- The code arms the channel for a deadline 100 us ahead and sleeps; the compare event wakes it. -/
def wokenRun : List Act :=
  [.cpu false, .tick, .cpu false, .tick, .cpu false, .cpu false, .cpu false] ++ ticks 98 ++
    [.tim2Isr, .cpu false, .cpu false]

theorem not_lost_wokenRun : (exec (start 1000 1100 0 true) wokenRun).lost = false :=
  not_lost_of_punctual 1000 1100 0 true wokenRun (by decide +kernel)

/-- A deadline 31 us ahead, and an interrupt handler that takes 31 us after the timer reading. -/
def slowHandler : List Act := .cpu false :: ticks 31 ++ List.replicate 4 (.cpu false)

theorem lost_slowHandler : (exec (start 1000 1031 0 false) slowHandler).lost = true := by
  decide +kernel

end FC.Timer

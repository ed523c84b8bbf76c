import FlightController.Main.Loop
import FlightController.Rx.Resync

/-! The receiver failsafe (`src/main.c`, the signal-loss condition). The condition
    `rx_time_last_rcvd_packet() > 0 && timer_now_us() - rx_time_last_rcvd_packet() > 500000`
    makes up to three calls, each of which an interrupt may precede.

    `Eval.Lost` is the outcome as a function of what the calls saw; the program takes the disarm
    branch exactly when it holds (`branch_exec`). Measured against true time the outcome goes wrong
    in two ways. A lost signal is missed when the stored timestamp is 0 or the age has wrapped
    (`rx_failsafe_complete`). A healthy signal is called lost when a frame completes between the
    reads of the two operands (`rx_failsafe_sound`). -/

namespace FC.Main
open Schemes Schemes.Clock

/-- The signal-loss threshold, in microseconds. -/
def lossUs : ℕ := 500000

/-- The condition, as a function of what its calls saw. -/
def Eval.Lost (e : Eval) : Prop :=
  stampOf e.first ≠ 0 ∧ 500000 < stamp e.time - stampOf e.rx

instance (e : Eval) : Decidable e.Lost := instDecidableAnd

/-- Between the calls of the condition, the operands are those the history says; after it, the
    branch taken is the one `Lost` says, and the throttles are that branch's. -/
def BranchOk {σ : Type} (s : St σ) : Prop :=
  match s.pc with
  | .lossFirst => stampOf s.eval.first ≠ 0
  | .lossRx => stampOf s.eval.first ≠ 0 ∧ s.opTimer = stamp s.eval.time
  | .lossTimer => stampOf s.eval.first ≠ 0 ∧ s.opRx = stampOf s.eval.rx
  | .lossTest =>
    stampOf s.eval.first ≠ 0 ∧ s.opTimer = stamp s.eval.time ∧ s.opRx = stampOf s.eval.rx
  | .disarm => s.eval.Lost
  | .mix => ¬ s.eval.Lost
  | .esc | .telemetry =>
    (s.lost = true ↔ s.eval.Lost) ∧
      (s.lost = true → s.throttles = disarmed) ∧
      (s.lost = false → ∃ ub, s.throttles =
        Mixing.motorMixing ub s.fcOut.rollOut s.fcOut.pitchOut s.fcOut.yawOut s.rxLatest)
  | _ => True

variable {σ : Type} (ctl : Controller σ) (tim : PwmTimer)

theorem branchOk_main {s : St σ} (hs : Synced s) (h : BranchOk s) (e : Env) :
    BranchOk (mainStep ctl tim s e) := by
  have htime := hs.timeLast
  cases hpc : s.pc <;> rw [BranchOk, hpc] at h <;> simp only [mainStep, hpc]
  case wait => split <;> simp [BranchOk, hpc]
  case recvFirst => split <;> trivial
  case recvReady => split <;> trivial
  case copy k => split <;> trivial
  case lossRcvd =>
    -- the first call: 0 means no packet, the mixing branch
    split
    · rename_i hpos
      rw [htime] at hpos
      exact fun h0 => absurd hpos (by rw [h0]; decide)
    · rename_i hzero
      rw [htime] at hzero
      rintro ⟨hne, _⟩
      exact hzero (UInt32.pos_iff_ne_zero.mpr hne)
  case lossFirst =>
    split
    · exact ⟨h, rfl⟩
    · exact ⟨h, htime⟩
  case lossRx => exact ⟨h.1, h.2, htime⟩
  case lossTimer => exact ⟨h.1, rfl, h.2⟩
  case lossTest =>
    obtain ⟨hfirst, htimer, hrx⟩ := h
    rw [htimer, hrx]
    split
    · rename_i hgt
      exact ⟨hfirst, hgt⟩
    · rename_i hle
      exact fun hlost => hle hlost.2
  case disarm => exact ⟨iff_of_true rfl h, fun _ => rfl, fun hf => absurd hf (by simp)⟩
  case mix => exact ⟨iff_of_false (by simp) h, fun ht => absurd ht (by simp), fun _ => ⟨e.ub, rfl⟩⟩
  case esc => exact h
  all_goals trivial

theorem branchOk_step {s : St σ} (hs : Synced s) (h : BranchOk s) (a : Act) :
    BranchOk (step ctl tim s a) := by
  cases a with
  | tick d => exact h
  | usart ch => exact h
  | main e => exact branchOk_main ctl tim hs h e

/-- In every run the condition is evaluated on what the history says, and its branch taken. -/
theorem branch_exec (acts : List Act) : BranchOk (exec ctl tim acts) :=
  inv_exec ctl tim BranchOk (fun _ a hs _ h => branchOk_step ctl tim hs h a) acts trivial

/-! ### Completeness: a lost signal is noticed -/

/-- True time of the latest frame, 0 when there is none. -/
def lastTime : List Frame → ℕ
  | [] => 0
  | f :: _ => f.time

theorem stampOf_eq (log : List Frame) : stampOf log = stamp (lastTime log) := by
  cases log <;> rfl

/-- The signal is lost in true time: at either operand's read, the last published frame is past the
    threshold. -/
def SignalLost (e : Eval) : Prop :=
  lastTime e.timer + lossUs < e.time ∧ lastTime e.rx + lossUs < e.time

/-- The age shows on the timer: the timestamp seen by the first call is not the value that means "no
    packet yet", and the age mod 2^32 is still past the threshold. -/
def AgeShows (e : Eval) : Prop :=
  lastTime e.first % 2 ^ 32 ≠ 0 ∧ lossUs < (e.time - lastTime e.rx) % 2 ^ 32

/-- On a lost signal the condition asks whether the age shows. -/
theorem lost_iff {e : Eval} (h : SignalLost e) : e.Lost ↔ AgeShows e := by
  have hle : lastTime e.rx ≤ e.time := by have := h.2; omega
  rw [Eval.Lost, stampOf_eq, stampOf_eq, stamp_ne_zero_iff, UInt32.lt_iff_toNat_lt,
    stamp_sub_toNat hle]
  rfl

/-- The failsafe works in this state: with the throttles decided, a lost signal means disarmed
    motors. -/
def FailsafeComplete (s : St σ) : Prop :=
  s.pc = .esc → SignalLost s.eval → s.throttles = disarmed

/-- CORRECT when the age shows: then the motors are disarmed; when it does not, the throttles are
    the mixer's, as if the signal were there. -/
theorem rx_failsafe_complete (acts : List Act) (hpc : (exec ctl tim acts).pc = .esc)
    (hlost : SignalLost (exec ctl tim acts).eval) :
    let s := exec ctl tim acts
    (AgeShows s.eval → s.throttles = disarmed) ∧
      (¬ AgeShows s.eval → ∃ ub, s.throttles =
        Mixing.motorMixing ub s.fcOut.rollOut s.fcOut.pitchOut s.fcOut.yawOut s.rxLatest) := by
  have hbranch := branch_exec ctl tim acts
  rw [BranchOk, hpc] at hbranch
  obtain ⟨htaken, hdis, hmix⟩ := hbranch
  have hiff := lost_iff hlost
  refine ⟨fun hshows => hdis (htaken.mpr (hiff.mpr hshows)), fun hhidden => hmix ?_⟩
  rw [Bool.eq_false_iff]
  exact fun htrue => hhidden (hiff.mp (htaken.mp htrue))

/-- A signal lost at 1 s, then `n` steps of `main` from 600 ms later on. The 17th ends the
    evaluation of the condition, the 18th decides the throttles. -/
def lossRun (n : ℕ) : List Act :=
  .tick 1000000 :: mains 3 ++ usarts (Ibus.frameBytes Ibus.centredSample) ++ mains 18 ++
    .tick 600000 :: mains n

theorem rx_failsafe_complete_lossRun : (exec flight board (lossRun 18)).throttles = disarmed :=
  (rx_failsafe_complete flight board (lossRun 18) (by decide +kernel)
    ⟨by decide +kernel, by decide +kernel⟩).1 ⟨by decide +kernel, by decide +kernel⟩

/-- The last frame ends exactly as the timer wraps to 0, while telemetry holds the main loop; the
    next iteration evaluates the condition 600 ms later. -/
def wrapRun : List Act :=
  .tick (2 ^ 32 - 1985) :: mains 3 ++ usarts (Ibus.frameBytes Ibus.centredSample) ++ mains 18 ++
    .tick 1985 :: usarts (Ibus.frameBytes Ibus.centredSample) ++ .tick 600000 :: mains 15

/-- That signal loss goes unnoticed: the motors stay at the stick's throttle. -/
theorem rx_failsafe_misses_wrapRun : ¬ FailsafeComplete (exec flight board wrapRun) := by
  intro hcomplete
  have hdis := hcomplete (by decide +kernel) ⟨by decide +kernel, by decide +kernel⟩
  exact absurd hdis (by decide +kernel)

/-! ### Soundness: a healthy signal is not called lost -/

/-- At the timer reading, the most recently published frame was past the threshold in true time. -/
def SignalOld (e : Eval) : Prop := ∃ f, e.timer.head? = some f ∧ f.time + lossUs < e.time

/-- The failsafe is sound in this state: where the disarm branch is taken, the signal was old. -/
def FailsafeSound (s : St σ) : Prop := s.pc = .disarm → SignalOld s.eval

/-- The two operands describe one moment. When the second one is read, no frame has been published
    since the first; or (timer read first) its timestamp is the timer reading itself; or (timestamp
    read first) the frame read is still within the threshold on the timer. -/
def OneMoment (s : St σ) : Act → Prop
  | .main _ =>
    (s.pc = .lossRx → s.log = s.eval.timer ∨ stampOf s.log = s.opTimer) ∧
      (s.pc = .lossTimer → s.log = s.eval.rx ∨ s.timerNowUs - s.opRx ≤ 500000)
  | _ => True

instance (s : St σ) (a : Act) : Decidable (OneMoment s a) := by
  cases a <;> unfold OneMoment <;> infer_instance

/-- The frames seen at the timer reading were published by then. -/
def TimerSeen (s : St σ) : Prop :=
  (∀ f ∈ s.eval.timer, f.time ≤ s.eval.time) ∧
    (s.pc ∈ [.lossFirst, .lossRx, .lossTimer, .lossTest, .disarm] → s.eval.timer ≠ [])

theorem timerSeen_main {s : St σ} (hs : Synced s) (hr : Received s) (h : TimerSeen s) (e : Env) :
    TimerSeen (mainStep ctl tim s e) := by
  obtain ⟨hpast, hne⟩ := h
  unfold TimerSeen
  cases hpc : s.pc <;> simp only [mainStep, hpc]
  case lossRcvd =>
    have hlog := hr (by rw [hpc]; rfl)
    exact ⟨hs.past, fun _ => hlog⟩
  case lossFirst =>
    have hlog := hr (by rw [hpc]; rfl)
    split
    · exact ⟨hs.past, fun _ => hlog⟩
    · exact ⟨hpast, fun _ => hne (by simp [hpc])⟩
  case lossTimer =>
    have hlog := hr (by rw [hpc]; rfl)
    exact ⟨hs.past, fun _ => hlog⟩
  case lossRx => exact ⟨hpast, fun _ => hne (by simp [hpc])⟩
  case lossTest => exact ⟨hpast, fun _ => hne (by simp [hpc])⟩
  case wait => split <;> exact ⟨hpast, by simp [hpc]⟩
  case recvFirst | recvReady | copy => exact ⟨hpast, by split <;> simp⟩
  all_goals exact ⟨hpast, by simp⟩

/-- Once both operands are read, they describe one moment, or the test fails. -/
def OperandsOk (s : St σ) : Prop :=
  match s.pc with
  | .lossTest => s.eval.rx = s.eval.timer ∨ s.opTimer - s.opRx ≤ 500000
  | .disarm => s.eval.rx = s.eval.timer
  | _ => True

theorem operandsOk_main {s : St σ} (hs : Synced s) (h : OperandsOk s) (e : Env)
    (hone : OneMoment s (.main e)) : OperandsOk (mainStep ctl tim s e) := by
  obtain ⟨hrx, htimer⟩ := hone
  cases hpc : s.pc <;> rw [OperandsOk, hpc] at h <;> simp only [mainStep, hpc]
  case lossRx =>
    rcases hrx hpc with hlog | hstamp
    · exact Or.inl hlog
    · refine Or.inr ?_
      show s.opTimer - s.ibus.ibusTimeLastRcvdPacket ≤ 500000
      rw [hs.timeLast, hstamp, UInt32.sub_self]; decide
  case lossTimer =>
    rcases htimer hpc with hlog | hnear
    · exact Or.inl hlog.symm
    · exact Or.inr hnear
  case lossTest =>
    split
    · rename_i hgt
      exact h.resolve_right (UInt32.not_le.mpr hgt)
    · trivial
  case wait | lossFirst => split <;> simp [OperandsOk, hpc]
  case recvFirst | recvReady | lossRcvd | copy => split <;> trivial
  all_goals trivial

theorem operands_exec (acts : List Act) (h : Along (step ctl tim) OneMoment (init ctl) acts) :
    TimerSeen (exec ctl tim acts) ∧ OperandsOk (exec ctl tim acts) := by
  refine inv_exec_along ctl tim (fun s => TimerSeen s ∧ OperandsOk s) ?_ acts h
    ⟨⟨by simp [init], by simp [init]⟩, trivial⟩
  rintro s a hs hr hone ⟨hseen, hops⟩
  cases a with
  | tick d => exact ⟨hseen, hops⟩
  | usart ch => exact ⟨hseen, hops⟩
  | main e => exact ⟨timerSeen_main ctl tim hs hr hseen e, operandsOk_main ctl tim hs hops e hone⟩

/-- CORRECT when the operands of every evaluation describe one moment: the disarm branch is taken
    only on a signal that is old in true time, at every timer value and in either operand order. -/
theorem rx_failsafe_sound (acts : List Act)
    (hone : Along (step ctl tim) OneMoment (init ctl) acts) :
    FailsafeSound (exec ctl tim acts) := by
  intro hpc
  obtain ⟨⟨hpast, hne⟩, hops⟩ := operands_exec ctl tim acts hone
  have hbranch := branch_exec ctl tim acts
  rw [BranchOk, hpc] at hbranch
  rw [OperandsOk, hpc] at hops
  cases hlog : (exec ctl tim acts).eval.timer with
  | nil => exact absurd hlog (hne (by simp [hpc]))
  | cons f rest =>
    have hle : f.time ≤ (exec ctl tim acts).eval.time := hpast f (by simp [hlog])
    have hgt := hbranch.2
    rw [hops, hlog, stampOf, UInt32.lt_iff_toNat_lt, stamp_sub_toNat hle] at hgt
    have hmod := Nat.mod_le ((exec ctl tim acts).eval.time - f.time) (2 ^ 32)
    refine ⟨f, by rw [hlog]; rfl, ?_⟩
    have hnum : (500000 : UInt32).toNat = lossUs := rfl
    omega

theorem rx_failsafe_sound_lossRun : FailsafeSound (exec flight board (lossRun 17)) :=
  rx_failsafe_sound flight board (lossRun 17) (by decide +kernel)

/-- The defect, for any run: when the timer is read first, a frame that ends later than that reading
    makes the difference wrap, and the motors are disarmed however fresh the signal is. -/
theorem disarms_of_frame_between (acts : List Act) (e : Env) {g : Frame}
    (hpc : (exec ctl tim acts).pc = .lossTest)
    {rest : List Frame} (hrx : (exec ctl tim acts).eval.rx = g :: rest)
    (hlate : (exec ctl tim acts).eval.time < g.time)
    (hnear : g.time < (exec ctl tim acts).eval.time + (2 ^ 32 - lossUs)) :
    (mainStep ctl tim (exec ctl tim acts) e).pc = .disarm := by
  have hbranch := branch_exec ctl tim acts
  rw [BranchOk, hpc] at hbranch
  obtain ⟨_, htimer, hstamp⟩ := hbranch
  have hlost : 500000 < (exec ctl tim acts).opTimer - (exec ctl tim acts).opRx := by
    rw [htimer, hstamp, hrx, stampOf, UInt32.lt_iff_toNat_lt,
      stamp_sub_toNat_of_lt hlate (by omega)]
    show 500000 < _
    unfold lossUs at hnear
    omega
  simp only [mainStep, hpc, if_pos hlost]

/-- Frames 7.7 ms apart; the fifth iteration reads the timer at 1007699 us, and the second frame
    ends one microsecond later, before the timestamp is read. -/
def raceRun : List Act :=
  .tick 999500 :: mains 3 ++ .tick 500 :: usarts (Ibus.frameBytes Ibus.centredSample) ++ mains 19 ++
    .tick 1500 :: mains 19 ++ .tick 2000 :: mains 19 ++ .tick 2000 :: mains 19 ++
    usarts ((Ibus.frameBytes Ibus.centredSample).take 31) ++
    .tick 2199 :: mains 14 ++ .tick 1 :: usarts ((Ibus.frameBytes Ibus.centredSample).drop 31) ++
    mains 2

/-- A frame completing between the two operand reads disarms the motors in flight. -/
theorem rx_failsafe_unsound_raceRun : ¬ FailsafeSound (exec flight board raceRun) := by
  intro hsound
  obtain ⟨f, hf, hold⟩ := hsound (by decide +kernel)
  have hlast : (exec flight board raceRun).eval.timer.head? =
      some ⟨Ibus.centredSample, 1000000⟩ := by decide +kernel
  have htime : (exec flight board raceRun).eval.time = 1007699 := by decide +kernel
  rw [hlast] at hf
  rw [← Option.some.inj hf, htime] at hold
  exact absurd hold (by decide)

end FC.Main

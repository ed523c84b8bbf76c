import FlightController.Imu.Steps

/-! What the ready flags and the previous timestamp promise to the main loop, over every order of
    interrupts and statements.

    `main` dereferences what `imu_get_latest` returns. The pointer is `NULL` unless this call and
    the one before both saw data with a non-zero timestamp (`sample_real_iff`); so it is `NULL` in
    the first iteration of every run (`real_iff_no_call`). A call sees data when both lines have
    pulsed since their flags were cleared (`sample_real_iff_pulsed`).

    The flags are cleared three statements after the register read. An interrupt between the two is
    wiped out with the old flags (`erased_windowRun`); where none arrives, both lines pulsing after
    the latest read makes `data_ready` answer until the next one (`ready_of_pending`). -/

namespace FC.Imu
open Schemes

/-! ### The pointer that main dereferences -/

/-- What `data_ready` answered in the latest call; 0 before the first. -/
def lastReady : List Call → UInt32
  | [] => 0
  | c :: _ => c.ready

/-- Each call returned a sample exactly when it and the call before it saw data. -/
def Accounted : List Call → Prop
  | [] => True
  | c :: older => (c.sample ≠ none ↔ c.ready ≠ 0 ∧ lastReady older ≠ 0) ∧ Accounted older

/-- The previous timestamp is what the latest call saw, up to its own assignment to it. -/
def CallsOk (s : St) : Prop :=
  Accounted s.calls ∧
    match s.pc with
    | .between | .readyGyro | .readyAcc | .readyStamp | .test =>
      s.imu.prevGyroDrdyTimestamp = lastReady s.calls
    | .rearm =>
      s.imu.prevGyroDrdyTimestamp = lastReady s.calls ∧
        (s.gyroDrdyTimestamp = 0 ∨ s.imu.prevGyroDrdyTimestamp = 0)
    | .setDt | .setPrev => s.gyroDrdyTimestamp ≠ 0 ∧ lastReady s.calls ≠ 0
    | _ =>
      s.imu.prevGyroDrdyTimestamp = s.gyroDrdyTimestamp ∧ s.gyroDrdyTimestamp ≠ 0 ∧
        lastReady s.calls ≠ 0

theorem callsOk_cpu {s : St} (h : CallsOk s) (image : RegImage) : CallsOk (cpuStep image s) := by
  obtain ⟨hcalls, hpc'⟩ := h
  cases hpc : s.pc <;> rw [hpc] at hpc' <;> simp only [cpuStep, hpc]
  case between => exact ⟨hcalls, hpc'⟩
  case readyGyro | readyAcc => split <;> exact ⟨hcalls, hpc'⟩
  case readyStamp => exact ⟨hcalls, hpc'⟩
  case test =>
    split
    · rename_i hnull
      exact ⟨hcalls, hpc', hnull⟩
    · rename_i hsome
      obtain ⟨hready, hprev⟩ := not_or.mp hsome
      exact ⟨hcalls, hready, hpc' ▸ hprev⟩
  case rearm =>
    obtain ⟨hprev, hnull⟩ := hpc'
    refine ⟨⟨⟨fun h => absurd rfl h, ?_⟩, hcalls⟩, rfl⟩
    rintro ⟨hready, hlast⟩
    exact absurd hnull (not_or.mpr ⟨hready, hprev ▸ hlast⟩)
  case setDt => exact ⟨hcalls, hpc'⟩
  case setPrev => exact ⟨hcalls, rfl, hpc'⟩
  case fetchGyro | fetchAcc => split <;> exact ⟨hcalls, hpc'⟩
  case finish =>
    obtain ⟨hprev, hready, hlast⟩ := hpc'
    refine ⟨⟨⟨fun _ => ⟨hready, hlast⟩, fun _ => Option.some_ne_none _⟩, hcalls⟩, hprev⟩
  all_goals exact ⟨hcalls, hpc'⟩

theorem callsOk_step {s : St} (a : Act) (h : CallsOk s) : CallsOk (step s a) := by
  cases a with
  | irq e => exact h
  | cpu image => exact callsOk_cpu h image

theorem accounted_exec (image : RegImage) (acts : List Act) :
    Accounted (exec image acts).calls := by
  have hok : CallsOk (exec image acts) :=
    inv_run step CallsOk (fun _ a h => callsOk_step a h) acts ⟨trivial, rfl⟩
  exact hok.1

theorem Accounted.of_suffix {calls : List Call} (h : Accounted calls) {c : Call}
    {older : List Call} (hsuffix : c :: older <:+ calls) : Accounted (c :: older) := by
  induction calls with
  | nil => exact absurd (List.suffix_nil.mp hsuffix) (List.cons_ne_nil _ _)
  | cons d calls ih =>
    rcases List.suffix_cons_iff.mp hsuffix with heq | htail
    · rw [heq]; exact h
    · exact ih h.2 htail

/-- CORRECT exactly for these iterations: the pointer of a call is not `NULL` if and only if there
    was a call before it, and in both of them `data_ready` answered a timestamp other than 0. -/
theorem sample_real_iff (image : RegImage) (acts : List Act) {c : Call} {older : List Call}
    (hcall : c :: older <:+ (exec image acts).calls) :
    c.sample ≠ none ↔ c.ready ≠ 0 ∧ ∃ d rest, older = d :: rest ∧ d.ready ≠ 0 := by
  have hacc : Accounted (c :: older) := (accounted_exec image acts).of_suffix hcall
  rw [hacc.1]
  cases older with
  | nil => simp [lastReady]
  | cons d rest => simp [lastReady]

/-- All registers zero. -/
def stillImage : RegImage := Vector.replicate 12 0

/-- Both lines pulse, the first call runs; both pulse again, the second call runs. -/
def twoPulses : List Act :=
  .irq ⟨true, true, 100⟩ :: cpus stillImage 6 ++ .irq ⟨true, true, 700⟩ :: cpus stillImage 16

theorem sample_real_twoPulses :
    ∃ c older, (exec stillImage twoPulses).calls = c :: older ∧ c.sample ≠ none := by
  have hready : (exec stillImage twoPulses).calls.map Call.ready = [700, 100] := by decide +kernel
  obtain ⟨c, older, hcalls, hc, holder⟩ := List.map_eq_cons_iff.mp hready
  obtain ⟨d, rest, rfl, hd, -⟩ := List.map_eq_cons_iff.mp holder
  have hsuffix : c :: d :: rest <:+ (exec stillImage twoPulses).calls := by rw [hcalls]
  refine ⟨c, d :: rest, hcalls, ?_⟩
  refine (sample_real_iff stillImage twoPulses hsuffix).mpr ⟨?_, d, rest, rfl, ?_⟩
  · rw [hc]; decide
  · rw [hd]; decide

/-- After them a third call, before the sensor has anything new. -/
def threeCalls : List Act := twoPulses ++ cpus stillImage 4

/-- The first pointer is `NULL` although data was ready; so is the third. -/
theorem sample_null_threeCalls :
    ¬ ∀ c ∈ (exec stillImage threeCalls).calls, c.sample ≠ none := by decide +kernel

/-- In every run the very first pointer is `NULL`. -/
theorem real_iff_no_call (image : RegImage) (acts : List Act) :
    (∀ c ∈ (exec image acts).calls, c.sample ≠ none) ↔ (exec image acts).calls = [] := by
  constructor
  · intro hall
    by_contra hne
    have hlast : (exec image acts).calls.getLast hne ∈ (exec image acts).calls :=
      List.getLast_mem hne
    have hsuffix : [(exec image acts).calls.getLast hne] <:+ (exec image acts).calls :=
      ⟨_, List.dropLast_append_getLast hne⟩
    have hreal := (accounted_exec image acts).of_suffix hsuffix
    exact absurd rfl (hreal.1.mp (hall _ hlast)).2
  · intro hnil c hc
    rw [hnil] at hc
    exact absurd hc List.not_mem_nil

/-! ### What the pulses make of it -/

/-- The interrupt lines of the sensor. -/
inductive Line where | gyro | acc
  deriving DecidableEq, Repr

/-- Whether the line is pending at an interrupt. -/
def Line.pulsed : Line → Irq → Bool
  | .gyro, e => e.gyro
  | .acc, e => e.acc

/-- The line's flag. -/
def Line.flag : Line → Lsm6dsox → Bool
  | .gyro, d => d.gyroDrdy
  | .acc, d => d.accDrdy

/-- The statement that clears it. -/
def Line.clear : Line → Pc
  | .gyro => .clearGyro
  | .acc => .clearAcc

/-- One step of a run, and the pulses of the line since its flag was cleared, latest first. -/
def Line.track (l : Line) (p : St × List Irq) (a : Act) : St × List Irq :=
  (step p.1 a,
    match a with
    | .irq e => if l.pulsed e then e :: p.2 else p.2
    | .cpu _ => if p.1.pc = l.clear then [] else p.2)

/-- The pulses of the line since its flag was cleared in a run, latest first. -/
def Line.pulses (l : Line) (image : RegImage) (acts : List Act) : List Irq :=
  (run l.track (init image, []) acts).2

/-- The flag stands for those pulses, and the timestamp is that of the gyroscope's latest. -/
structure LineOk (l : Line) (p : St × List Irq) : Prop where
  initialized : p.1.imu.driver.initialized = true
  flag : l.flag p.1.imu.driver = true ↔ p.2 ≠ []
  stamp : l = .gyro → ∀ e older, p.2 = e :: older → p.1.imu.driver.gyroDrdyTimestamp = e.nowUs

theorem driver_cpu (l : Line) (image : RegImage) (s : St) :
    (cpuStep image s).imu.driver.initialized = s.imu.driver.initialized ∧
      (cpuStep image s).imu.driver.gyroDrdyTimestamp = s.imu.driver.gyroDrdyTimestamp ∧
      l.flag (cpuStep image s).imu.driver = if s.pc = l.clear then false
        else l.flag s.imu.driver := by
  cases hpc : s.pc
  case readyGyro | readyAcc =>
    simp only [cpuStep, hpc]
    cases l <;> simp only [Line.clear, reduceCtorEq, if_false] <;> split <;> simp
  all_goals cases l <;> simp [cpuStep, hpc, St.driver, Line.flag, Line.clear]

theorem lineOk_step {l : Line} {p : St × List Irq} (h : LineOk l p) (a : Act) :
    LineOk l (l.track p a) := by
  obtain ⟨s, ps⟩ := p
  obtain ⟨hinit, hflag, hstamp⟩ := h
  cases a with
  | cpu image =>
    obtain ⟨hinit', hstamp', hflag'⟩ := driver_cpu l image s
    simp only [Line.track, step]
    split
    · rename_i hclear
      refine ⟨hinit'.trans hinit, ?_, fun _ _ _ hnil => absurd hnil.symm (List.cons_ne_nil _ _)⟩
      simp only [hflag', if_pos hclear]
      simp
    · rename_i hkeep
      refine ⟨hinit'.trans hinit, ?_, fun hl e older hps => hstamp'.trans (hstamp hl e older hps)⟩
      simp only [hflag', if_neg hkeep]
      exact hflag
  | irq e =>
    obtain ⟨hinit', hgyro, hacc, hstamp'⟩ := Lsm6dsox.irqIsr_spec hinit e.gyro e.acc e.nowUs
    have hflag' : l.flag (Lsm6dsox.irqIsr e.gyro e.acc e.nowUs s.imu.driver) =
        (l.pulsed e || l.flag s.imu.driver) := by
      cases l
      · exact hgyro
      · exact hacc
    simp only [Line.track, step, irq]
    cases hpulse : l.pulsed e with
    | true =>
      refine ⟨hinit', by simp [hflag', hpulse], ?_⟩
      rintro rfl e' older hps
      have hline : e.gyro = true := hpulse
      obtain ⟨rfl, -⟩ := List.cons.inj hps
      rw [hstamp', if_pos hline]
    | false =>
      refine ⟨hinit', by simpa [hflag', hpulse] using hflag, ?_⟩
      rintro rfl e' older hps
      have hline : e.gyro = false := hpulse
      rw [hstamp', if_neg (by simp [hline])]
      exact hstamp rfl e' older hps

theorem lineOk_exec (l : Line) (image : RegImage) (acts : List Act) :
    (l.flag (exec image acts).imu.driver = true ↔ l.pulses image acts ≠ []) ∧
      (l = .gyro → ∀ e older, l.pulses image acts = e :: older →
        (exec image acts).imu.driver.gyroDrdyTimestamp = e.nowUs) := by
  have hok : LineOk l (run l.track (init image, []) acts) := by
    refine inv_run l.track (LineOk l) (fun _ a h => lineOk_step h a) acts ⟨?_, ?_, ?_⟩
    · exact (Lsm6dsox.setup_reset image).1
    · cases l <;> simp [init, start, Line.flag, Lsm6dsox.setup_reset]
    · exact fun _ _ _ hnil => absurd hnil.symm (List.cons_ne_nil _ _)
  have hstate : (run l.track (init image, []) acts).1 = run step (init image) (acts.map id) :=
    run_map l.track (fun _ _ => rfl) (init image, []) acts
  rw [List.map_id] at hstate
  obtain ⟨-, hflag, hstamp⟩ := hok
  rw [hstate] at hflag hstamp
  exact ⟨hflag, hstamp⟩

/-- At any time `data_ready` would answer a timestamp other than 0 exactly if both lines have pulsed
    since their flags were cleared, and the timer did not stand at 0 at the gyroscope's latest
    pulse. -/
theorem dataReady_iff_pulsed (image : RegImage) (acts : List Act) :
    (exec image acts).imu.driver.dataReady ≠ 0 ↔
      (∃ e ∈ (Line.pulses .gyro image acts).head?, e.nowUs ≠ 0) ∧
        Line.pulses .acc image acts ≠ [] := by
  obtain ⟨hgyro, hstamp⟩ := lineOk_exec .gyro image acts
  have hacc := (lineOk_exec .acc image acts).1
  rw [Lsm6dsox.dataReady_ne_zero_iff, show (exec image acts).imu.driver.gyroDrdy = true ↔ _ from
    hgyro, show (exec image acts).imu.driver.accDrdy = true ↔ _ from hacc]
  cases hpulses : Line.pulses .gyro image acts with
  | nil => simp
  | cons e older =>
    rw [hstamp rfl e older hpulses]
    simp [and_comm]

/-- CORRECT exactly for these iterations, told by the interrupts: the pointer of a call that none of
    them interrupts is not `NULL` if and only if both lines have pulsed since their flags were
    cleared, the timer did not stand at 0 at the gyroscope's latest pulse, and `data_ready` answered
    in the call before. -/
theorem sample_real_iff_pulsed (image : RegImage) (acts : List Act)
    (hpc : (exec image acts).pc = .between) :
    ∃ n c, (exec image (acts ++ cpus image n)).calls = c :: (exec image acts).calls ∧
      (c.sample ≠ none ↔
        (∃ e ∈ (Line.pulses .gyro image acts).head?, e.nowUs ≠ 0) ∧
          Line.pulses .acc image acts ≠ [] ∧
          ∃ d rest, (exec image acts).calls = d :: rest ∧ d.ready ≠ 0) := by
  obtain ⟨n, hn⟩ := run_call image hpc
  have hcalls : (exec image (acts ++ cpus image n)).calls =
      ⟨(exec image acts).imu.driver.dataReady, (imuGetLatest image (exec image acts).imu).1⟩ ::
        (exec image acts).calls := by
    rw [exec, run_append]
    exact congrArg St.calls hn
  refine ⟨n, _, hcalls, ?_⟩
  have hacc := accounted_exec image (acts ++ cpus image n)
  rw [hcalls] at hacc
  rw [hacc.1, ← and_assoc, ← dataReady_iff_pulsed]
  cases holder : (exec image acts).calls with
  | nil => simp [lastReady]
  | cons d rest => simp [lastReady]

/-! ### The flags between two register reads -/

/-- After the register read and before the clear of the gyroscope's flag. -/
def Pc.clearsGyro : Pc → Bool
  | .negGz | .negAy | .clearGyro => true
  | _ => false

/-- After the register read and before the clear of the accelerometer's flag. -/
def Pc.clearsAcc : Pc → Bool
  | .negGz | .negAy | .clearGyro | .clearAcc => true
  | _ => false

/-- Both lines have pulsed since the latest register read, the gyroscope's never at timer value
    0. -/
def Pending (s : St) : Prop :=
  (∃ e ∈ s.since, e.gyro = true) ∧ (∃ e ∈ s.since, e.acc = true) ∧
    ∀ e ∈ s.since, e.gyro = true → e.nowUs ≠ 0

instance (s : St) : Decidable (Pending s) := inferInstanceAs (Decidable (_ ∧ _ ∧ _))

/-- No data-ready event is erased: what is pending, `data_ready` reports. -/
def Reported (s : St) : Prop := Pending s → s.imu.driver.dataReady ≠ 0

instance (s : St) : Decidable (Reported s) := inferInstanceAs (Decidable (_ → _))

/-- No line pulses between the register read and the clear of its flag. -/
def Undisturbed (s : St) : Act → Prop
  | .irq e =>
    (s.pc.clearsGyro = true → e.gyro = false) ∧ (s.pc.clearsAcc = true → e.acc = false)
  | .cpu _ => True

instance (s : St) : ∀ a : Act, Decidable (Undisturbed s a)
  | .irq _ => inferInstanceAs (Decidable (_ ∧ _))
  | .cpu _ => isTrue trivial

/-- The flags show the pulses since the latest register read, and the timestamp is that of one of
    them; up to the clear there have been none. -/
structure FlagsOk (s : St) : Prop where
  initialized : s.imu.driver.initialized = true
  gyro : (∃ e ∈ s.since, e.gyro = true) → s.imu.driver.gyroDrdy = true ∧
    ∃ e ∈ s.since, e.gyro = true ∧ e.nowUs = s.imu.driver.gyroDrdyTimestamp
  acc : (∃ e ∈ s.since, e.acc = true) → s.imu.driver.accDrdy = true
  noGyro : s.pc.clearsGyro = true → ∀ e ∈ s.since, e.gyro = false
  noAcc : s.pc.clearsAcc = true → ∀ e ∈ s.since, e.acc = false

/-- The flags, the timestamp and the history are the same in both states. -/
def SameFlags (s s' : St) : Prop :=
  s'.since = s.since ∧ s'.imu.driver.initialized = s.imu.driver.initialized ∧
    s'.imu.driver.gyroDrdy = s.imu.driver.gyroDrdy ∧
    s'.imu.driver.accDrdy = s.imu.driver.accDrdy ∧
    s'.imu.driver.gyroDrdyTimestamp = s.imu.driver.gyroDrdyTimestamp

theorem FlagsOk.of_same {s s' : St} (h : FlagsOk s) (hsame : SameFlags s s')
    (hgyro : s'.pc.clearsGyro = true → s.pc.clearsGyro = true)
    (hacc : s'.pc.clearsAcc = true → s.pc.clearsAcc = true) : FlagsOk s' := by
  obtain ⟨hsince, hinit, hg, ha, hstamp⟩ := hsame
  refine ⟨hinit.trans h.initialized, ?_, ?_, ?_, ?_⟩
  · rw [hsince, hg, hstamp]; exact h.gyro
  · rw [hsince, ha]; exact h.acc
  · rw [hsince]; exact fun hpc => h.noGyro (hgyro hpc)
  · rw [hsince]; exact fun hpc => h.noAcc (hacc hpc)

theorem flagsOk_cpu {s : St} (h : FlagsOk s) (image : RegImage) : FlagsOk (cpuStep image s) := by
  cases hpc : s.pc
  case read =>
    have hread : (cpuStep image s).since = [] := by simp [cpuStep, hpc]
    have hinit : (cpuStep image s).imu.driver.initialized = s.imu.driver.initialized := by
      simp [cpuStep, hpc, St.driver]
    refine ⟨hinit.trans h.initialized, ?_, ?_, ?_, ?_⟩ <;> rw [hread] <;> simp
  case clearGyro =>
    have hnone := h.noGyro (by rw [hpc]; rfl)
    have hacc := h.noAcc (by rw [hpc]; rfl)
    simp only [cpuStep, hpc, St.driver]
    refine ⟨h.initialized, ?_, h.acc, fun _ => hnone, fun _ => hacc⟩
    rintro ⟨e, he, hgyro⟩
    exact absurd (hnone e he) (by simp [hgyro])
  case clearAcc =>
    have hacc := h.noAcc (by rw [hpc]; rfl)
    simp only [cpuStep, hpc, St.driver]
    refine ⟨h.initialized, h.gyro, ?_, fun hne => absurd hne Bool.false_ne_true,
      fun _ => hacc⟩
    rintro ⟨e, he, hset⟩
    exact absurd (hacc e he) (by simp [hset])
  case readyGyro | readyAcc | fetchGyro | fetchAcc | test =>
    refine h.of_same ?_ ?_ ?_ <;> simp only [cpuStep, hpc] <;> split <;>
      simp [SameFlags, Pc.clearsGyro, Pc.clearsAcc]
  all_goals
    refine h.of_same ?_ ?_ ?_ <;>
      simp [SameFlags, cpuStep, hpc, St.driver, Pc.clearsGyro, Pc.clearsAcc]

theorem flagsOk_irq {s : St} (h : FlagsOk s) (e : Irq) (hwin : Undisturbed s (.irq e)) :
    FlagsOk (step s (.irq e)) := by
  obtain ⟨hgyro, hacc⟩ := hwin
  obtain ⟨hinit, hg, ha, hstamp⟩ := Lsm6dsox.irqIsr_spec h.initialized e.gyro e.acc e.nowUs
  refine ⟨hinit, ?_, ?_, ?_, ?_⟩ <;> simp only [step, irq, hg, ha, hstamp]
  · intro hpulse
    cases hline : e.gyro with
    | true => exact ⟨rfl, e, List.mem_cons_self .., hline, rfl⟩
    | false =>
      rcases (List.exists_mem_cons_iff _ _ _).mp hpulse with hnow | hearlier
      · exact absurd (hline.symm.trans hnow) Bool.false_ne_true
      · obtain ⟨hflag, e', hmem, hset, hstamp'⟩ := h.gyro hearlier
        exact ⟨hflag, e', List.mem_cons_of_mem _ hmem, hset, hstamp'⟩
  · intro hpulse
    rcases (List.exists_mem_cons_iff _ _ _).mp hpulse with hnow | hearlier
    · rw [hnow, Bool.true_or]
    · rw [h.acc hearlier, Bool.or_true]
  · intro hpc
    exact List.forall_mem_cons.mpr ⟨hgyro hpc, h.noGyro hpc⟩
  · intro hpc
    exact List.forall_mem_cons.mpr ⟨hacc hpc, h.noAcc hpc⟩

theorem flagsOk_step {s : St} (a : Act) (hwin : Undisturbed s a) (h : FlagsOk s) :
    FlagsOk (step s a) := by
  cases a with
  | irq e => exact flagsOk_irq h e hwin
  | cpu image => exact flagsOk_cpu h image

theorem flagsOk_init (image : RegImage) : FlagsOk (init image) := by
  refine ⟨(Lsm6dsox.setup_reset image).1, ?_, ?_, ?_, ?_⟩ <;> simp [init]

theorem FlagsOk.reported {s : St} (h : FlagsOk s) : Reported s := by
  rintro ⟨hgyro, hacc, hstamps⟩
  obtain ⟨hg, e, he, hset, hstamp⟩ := h.gyro hgyro
  have hne : s.imu.driver.gyroDrdyTimestamp ≠ 0 := hstamp ▸ hstamps e he hset
  exact Lsm6dsox.dataReady_ne_zero_iff.mpr ⟨hg, h.acc hacc, hne⟩

/-- CORRECT in every run in which no line pulses between the register read and the clear of its
    flag: once both lines have pulsed, `data_ready` says so until the next register read. -/
theorem ready_of_pending (image : RegImage) (acts : List Act)
    (hwin : Along step Undisturbed (init image) acts) : Reported (exec image acts) :=
  (inv_run_along step FlagsOk (fun _ a ha h => flagsOk_step a ha h) acts _ hwin
    (flagsOk_init image)).reported

/-- After the second call both lines pulse again. -/
def thirdPulse : List Act := twoPulses ++ [.irq ⟨true, true, 1300⟩]

theorem ready_of_pending_thirdPulse :
    (exec stillImage thirdPulse).imu.driver.dataReady ≠ 0 :=
  ready_of_pending stillImage thirdPulse (by decide +kernel) (by decide +kernel)

/-- The same pulses, the third while the second call is between its register read and its clears. -/
def windowRun : List Act :=
  .irq ⟨true, true, 100⟩ :: cpus stillImage 6 ++ .irq ⟨true, true, 700⟩ :: cpus stillImage 10 ++
    .irq ⟨true, true, 1300⟩ :: cpus stillImage 6

/-- The third pulse is pending, and `data_ready` does not know. -/
theorem erased_windowRun : ¬ Reported (exec stillImage windowRun) := by decide +kernel

end FC.Imu

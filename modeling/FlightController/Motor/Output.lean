import FlightController.Motor.Compare

/-! What the ESCs get to see (`src/esc/pwm.c`): the PWM timer runs, `update` is called again and
    again with any throttles, and the handler of the update event writes one compare register after
    the other, while the timer goes on counting.

    Of the timer the model assumes what its manual says: the counter runs from 0 to the auto-reload
    value and then sets the update flag, and in PWM mode 1 a channel is high while the counter is
    below the compare register, which takes effect as soon as it is written.

    A compare register never holds anything but the pulse of an in-range throttle that the driver
    was given for that motor (`compare_requested`). So as long as the handler writes within the
    shortest pulse, each period of each motor carries exactly one pulse, from its first tick on, of
    a length the configuration allows (`one_pulse`). -/

namespace FC.Output
open Schemes Pwm

/-- Timer, driver and the running calls. `todo` and `isrTodo` are the assignments that the running
    `update` (with the throttles `t`) and the running handler have yet to make. History: the
    throttles given so far, the levels of each motor's channel in the current period, and in the
    periods before it, latest first. -/
structure St where
  cnt : ℕ
  regs : TimRegs
  pulses : Pulses
  t : EscThrottles
  todo : List EscPosition
  isrTodo : List EscPosition
  given : List EscThrottles
  wave : EscPosition → List Bool
  periods : EscPosition → List (List Bool)

/-- A tick of the timer, a call of `update`, the next step of the program in it, or the next step of
    the handler. -/
inductive Act where
  | tick
  | update (t : EscThrottles)
  | cpu
  | isr
  deriving DecidableEq, Repr

/-- The level of a motor's channel. -/
def level (cnt : ℕ) (regs : TimRegs) (pos : EscPosition) : Bool :=
  cnt < (regs.ccr (escMap pos)).toNat

variable (tim : PwmTimer) (cfg : EscPwmConfig)

/-- One tick. -/
def tickStep (s : St) : St :=
  let wave := fun pos => s.wave pos ++ [level s.cnt s.regs pos]
  if s.cnt = s.regs.arr.toNat then
    { s with
      cnt := 0
      regs := { s.regs with uif := true }
      wave := fun _ => []
      periods := fun pos => wave pos :: s.periods pos }
  else { s with cnt := s.cnt + 1, wave }

/-- The next assignment of `update`. -/
def cpuStep (s : St) : St :=
  match s.todo with
  | [] => s
  | pos :: todo =>
    { s with
      pulses := s.pulses.set pos (updatePulse tim cfg (s.t.get pos) (s.pulses.get pos))
      todo }

/-- The next step of `PWM_TIM_ISR`: its entry, or a write. -/
def isrStep (s : St) : St :=
  match s.isrTodo with
  | [] => if s.regs.uif then { s with regs := s.regs.clearUif, isrTodo := motors } else s
  | pos :: isrTodo =>
    { s with regs := escSetPulse pos (s.pulses.get pos).toUInt16 s.regs, isrTodo }

/-- The program stands still while the handler runs. -/
def step (s : St) : Act → St
  | .tick => tickStep s
  | .update t =>
    if s.isrTodo = [] ∧ s.todo = [] then { s with t, todo := motors, given := t :: s.given } else s
  | .cpu => if s.isrTodo = [] then cpuStep tim cfg s else s
  | .isr => isrStep s

/-- After `esc_setup`. -/
def start : St where
  cnt := 0
  regs := timerSetup tim cfg .cleared
  pulses := setup tim cfg
  t := disarmed
  todo := []
  isrTodo := []
  given := [disarmed]
  wave := fun _ => []
  periods := fun _ => []

def exec (acts : List Act) : St := run (step tim cfg) (start tim cfg) acts

/-- A handler that is not interrupted does what `PWM_TIM_ISR` does. -/
theorem run_isr {s : St} (hin : s.isrTodo = []) (huif : s.regs.uif = true) :
    run (step tim cfg) s (List.replicate 5 .isr) =
      { s with regs := pwmTimIsr s.pulses s.regs } := by
  obtain ⟨cnt, regs, pulses, t, todo, isrTodo, given, wave, periods⟩ := s
  subst hin
  simp only at huif
  simp [List.replicate, step, isrStep, huif, motors, pwmTimIsr, PerMotor.get]

/-! ### What the registers hold -/

/-- The pulse of an in-range throttle that the driver was given for the motor. -/
def Requested (given : List EscThrottles) (pos : EscPosition) (ticks : UInt32) : Prop :=
  ∃ t ∈ given, validThrottleRange (t.get pos) = true ∧
    ticks.toNat = requestedTicks tim cfg (t.get pos)

variable {tim cfg}

theorem Requested.cons {given : List EscThrottles} {pos : EscPosition} {ticks : UInt32}
    (h : Requested tim cfg given pos ticks) (t : EscThrottles) :
    Requested tim cfg (t :: given) pos ticks := by
  obtain ⟨t', hmem, h⟩ := h
  exact ⟨t', List.mem_cons_of_mem t hmem, h⟩

variable (tim) in
theorem requestedTicks_bounds {throttle : UInt16} (hcfg : cfg.minDutyUs ≤ cfg.maxDutyUs)
    (ht : validThrottleRange throttle = true) :
    (timTicksPerUs tim).toNat * cfg.minDutyUs.toNat ≤ requestedTicks tim cfg throttle ∧
      requestedTicks tim cfg throttle ≤ (timTicksPerUs tim).toNat * cfg.maxDutyUs.toNat := by
  obtain ⟨hlo, hhi⟩ := validThrottleRange_iff.mp ht
  rw [← requestedTicks_min hcfg, ← requestedTicks_max hcfg]
  constructor
  · exact requestedTicks_mono hcfg (by decide) ht (UInt16.le_iff_toNat_le.mpr hlo)
  · exact requestedTicks_mono hcfg ht (by decide) (UInt16.le_iff_toNat_le.mpr hhi)

theorem Requested.bounds {given : List EscThrottles} {pos : EscPosition} {ticks : UInt32}
    (hcfg : cfg.minDutyUs ≤ cfg.maxDutyUs) (h : Requested tim cfg given pos ticks) :
    (timTicksPerUs tim).toNat * cfg.minDutyUs.toNat ≤ ticks.toNat ∧
      ticks.toNat ≤ (timTicksPerUs tim).toNat * cfg.maxDutyUs.toNat := by
  obtain ⟨t, _, hvalid, hticks⟩ := h
  rw [hticks]
  exact requestedTicks_bounds tim hcfg hvalid

/-- A short pulse passes the 16-bit parameter of `esc_set_pulse` unchanged. -/
theorem toUInt16_toUInt32 {ticks : UInt32} (h : ticks.toNat < 2 ^ 16) :
    ticks.toUInt16.toUInt32 = ticks := by
  rw [← UInt32.toNat_inj, UInt16.toNat_toUInt32, UInt32.toNat_toUInt16, Nat.mod_eq_of_lt h]

variable (tim cfg) in
/-- Pulses and registers hold requested pulses only. -/
structure Inv (regs : TimRegs) (pulses : Pulses) (t : EscThrottles) (given : List EscThrottles) :
    Prop where
  regs : ∀ pos, Requested tim cfg given pos (regs.ccr (escMap pos))
  pulses : ∀ pos, Requested tim cfg given pos (pulses.get pos)
  current : t ∈ given

variable (tim cfg) in
def St.Ok (s : St) : Prop := Inv tim cfg s.regs s.pulses s.t s.given

section
variable (hmin : cfg.minDutyUs ≤ cfg.maxDutyUs)
  (hshort : (timTicksPerUs tim).toNat * cfg.maxDutyUs.toNat < 2 ^ 16)
include hmin hshort

theorem requested_min {given : List EscThrottles} (hmem : disarmed ∈ given) (pos : EscPosition) :
    Requested tim cfg given pos (throttleToTicks tim escMinThrottle cfg) := by
  refine ⟨disarmed, hmem, by rw [disarmed, PerMotor.get_all]; rfl, ?_⟩
  rw [disarmed, PerMotor.get_all]
  exact throttleToTicks_eq_requested hmin (by omega) (by decide)

theorem ok_start : (start tim cfg).Ok tim cfg := by
  refine ⟨fun pos => ?_, fun pos => ?_, List.mem_singleton_self _⟩
  · show Requested tim cfg _ pos ((timerSetup tim cfg .cleared).ccr (escMap pos))
    rw [timerSetup_ccr]
    exact requested_min hmin hshort (List.mem_singleton_self _) pos
  · show Requested tim cfg _ pos ((setup tim cfg).get pos)
    rw [setup, PerMotor.get_all]
    exact requested_min hmin hshort (List.mem_singleton_self _) pos

theorem ok_cpu {s : St} (h : s.Ok tim cfg) : (cpuStep tim cfg s).Ok tim cfg := by
  obtain ⟨hregs, hpulses, hcur⟩ := h
  unfold cpuStep
  split
  · exact ⟨hregs, hpulses, hcur⟩
  · next pos todo htodo =>
    refine ⟨hregs, fun pos' => ?_, hcur⟩
    show Requested tim cfg s.given pos' ((s.pulses.set pos _).get pos')
    rw [PerMotor.get_set]
    by_cases heq : pos' = pos
    · subst heq
      rw [if_pos rfl, updatePulse]
      by_cases hvalid : validThrottleRange (s.t.get pos') = true
      · rw [if_pos hvalid]
        exact ⟨s.t, hcur, hvalid, throttleToTicks_eq_requested hmin (by omega) hvalid⟩
      · rw [if_neg hvalid]; exact hpulses pos'
    · rw [if_neg heq]; exact hpulses pos'

theorem ok_isr {s : St} (h : s.Ok tim cfg) : (isrStep s).Ok tim cfg := by
  obtain ⟨hregs, hpulses, hcur⟩ := h
  unfold isrStep
  split
  · split
    · refine ⟨fun pos => ?_, hpulses, hcur⟩
      have hsame : s.regs.clearUif.ccr (escMap pos) = s.regs.ccr (escMap pos) := by
        cases pos <;> rfl
      show Requested tim cfg s.given pos (s.regs.clearUif.ccr (escMap pos))
      rw [hsame]; exact hregs pos
    · exact ⟨hregs, hpulses, hcur⟩
  · next pos isrTodo htodo =>
    refine ⟨fun pos' => ?_, hpulses, hcur⟩
    show Requested tim cfg s.given pos' ((escSetPulse pos _ s.regs).ccr (escMap pos'))
    rw [escSetPulse, TimRegs.ccr_timerSetOcValue]
    by_cases heq : pos' = pos
    · have hle := ((hpulses pos).bounds hmin).2
      rw [if_pos (by rw [heq]), toUInt16_toUInt32 (by omega), heq]
      exact hpulses pos
    · rw [if_neg (fun hmap => heq (escMap_inj.mp hmap))]
      exact hregs pos'

theorem ok_step {s : St} (a : Act) (h : s.Ok tim cfg) : (step tim cfg s a).Ok tim cfg := by
  cases a with
  | tick =>
    obtain ⟨hregs, hpulses, hcur⟩ := h
    simp only [step, tickStep]
    split
    · refine ⟨fun pos => ?_, hpulses, hcur⟩
      have hsame : ({ s.regs with uif := true } : TimRegs).ccr (escMap pos) =
          s.regs.ccr (escMap pos) := by cases pos <;> rfl
      show Requested tim cfg s.given pos (({ s.regs with uif := true } : TimRegs).ccr (escMap pos))
      rw [hsame]; exact hregs pos
    · exact ⟨hregs, hpulses, hcur⟩
  | update t =>
    simp only [step]
    split
    · exact ⟨fun pos => (h.regs pos).cons t, fun pos => (h.pulses pos).cons t, List.mem_cons_self⟩
    · exact h
  | cpu =>
    simp only [step]
    split
    · exact ok_cpu hmin hshort h
    · exact h
  | isr => exact ok_isr hmin hshort h

theorem ok_exec (acts : List Act) : (exec tim cfg acts).Ok tim cfg :=
  inv_run _ (St.Ok tim cfg) (fun _ a => ok_step hmin hshort a) acts (ok_start hmin hshort)

end

/-- Nothing is given to the driver but by a call of `update`. -/
theorem given_run (s : St) (acts : List Act) : ∀ t ∈ (run (step tim cfg) s acts).given,
    t ∈ s.given ∨ Act.update t ∈ acts := by
  induction acts generalizing s with
  | nil => exact fun t ht => Or.inl ht
  | cons a acts ih =>
    intro t ht
    rcases ih (step tim cfg s a) t ht with hbefore | hlater
    · have hstep : t ∈ s.given ∨ a = .update t := by
        cases a with
        | tick => simp only [step, tickStep] at hbefore; split at hbefore <;> exact Or.inl hbefore
        | update t' =>
          simp only [step] at hbefore
          split at hbefore
          · rcases List.mem_cons.mp hbefore with rfl | hold
            · exact Or.inr rfl
            · exact Or.inl hold
          · exact Or.inl hbefore
        | cpu =>
          simp only [step, cpuStep] at hbefore
          split at hbefore
          · split at hbefore <;> exact Or.inl hbefore
          · exact Or.inl hbefore
        | isr =>
          simp only [step, isrStep] at hbefore
          split at hbefore
          · split at hbefore <;> exact Or.inl hbefore
          · exact Or.inl hbefore
      rcases hstep with hold | rfl
      · exact Or.inl hold
      · exact Or.inr List.mem_cons_self
    · exact Or.inr (List.mem_cons_of_mem a hlater)

/-- CORRECT: in every interleaving of timer, program and handler, whatever throttles `update` is
    called with, each compare register holds the pulse of an in-range throttle: that of
    `ESC_MIN_THROTTLE`, or one that a call of `update` has asked for this motor. -/
theorem compare_requested (hmin : cfg.minDutyUs ≤ cfg.maxDutyUs)
    (hshort : (timTicksPerUs tim).toNat * cfg.maxDutyUs.toNat < 2 ^ 16) (acts : List Act)
    (pos : EscPosition) :
    ∃ t, (t = disarmed ∨ Act.update t ∈ acts) ∧ validThrottleRange (t.get pos) = true ∧
      ((exec tim cfg acts).regs.ccr (escMap pos)).toNat = requestedTicks tim cfg (t.get pos) := by
  obtain ⟨t, hgiven, hvalid, hticks⟩ := (ok_exec hmin hshort acts).regs pos
  refine ⟨t, ?_, hvalid, hticks⟩
  rcases given_run (start tim cfg) acts t hgiven with hstart | hact
  · exact Or.inl (List.mem_singleton.mp hstart)
  · exact Or.inr hact

/-- Half throttle for one motor, out of range for the others, with the handler in the middle of the
    call. -/
theorem compare_requested_half :
    ∃ t, (t = disarmed ∨ Act.update t ∈ [.update ⟨1500, 999, 2001, 0⟩, .cpu, .isr]) ∧
      validThrottleRange (t.get .frontLeft) = true ∧
      ((exec tim84 oneshot42 [.update ⟨1500, 999, 2001, 0⟩, .cpu, .isr]).regs.ccr
        (escMap .frontLeft)).toNat = requestedTicks tim84 oneshot42 (t.get .frontLeft) :=
  compare_requested (by decide) (by decide) _ .frontLeft

/-! ### What the pins show -/

/-- The first `n` ticks of a period with compare value `w`. -/
def pulse (w n : ℕ) : List Bool := List.replicate (min w n) true ++ List.replicate (n - w) false

@[simp] theorem pulse_zero (w : ℕ) : pulse w 0 = [] := by simp [pulse]

theorem pulse_succ (w n : ℕ) : pulse w n ++ [decide (n < w)] = pulse w (n + 1) := by
  rcases Nat.lt_or_ge n w with hlt | hge
  · rw [pulse, pulse, Nat.min_eq_right hlt.le, Nat.min_eq_right (by omega),
      show n - w = 0 by omega, show n + 1 - w = 0 by omega, decide_eq_true hlt]
    simp [List.replicate_succ']
  · rw [pulse, pulse, Nat.min_eq_left hge, Nat.min_eq_left (by omega),
      show n + 1 - w = n - w + 1 by omega, decide_eq_false (by omega), List.append_assoc,
      ← List.replicate_succ']

/-- As long as both compare values lie ahead, they show the same. -/
theorem pulse_ahead {w w' n : ℕ} (h : n ≤ w) (h' : n ≤ w') : pulse w n = pulse w' n := by
  rw [pulse, pulse, Nat.min_eq_right h, Nat.min_eq_right h', Nat.sub_eq_zero_of_le h,
    Nat.sub_eq_zero_of_le h']

variable (tim cfg) in
/-- The handler writes while every channel is high, whatever its pulse. -/
def Timely (s : St) : Act → Prop
  | .isr => s.isrTodo = [] ∨ s.cnt ≤ (timTicksPerUs tim).toNat * cfg.minDutyUs.toNat
  | _ => True

instance (s : St) (a : Act) : Decidable (Timely tim cfg s a) :=
  match a with
  | .isr => inferInstanceAs (Decidable (_ ∨ _))
  | .tick => isTrue trivial
  | .update _ => isTrue trivial
  | .cpu => isTrue trivial

variable (tim cfg) in
/-- The current period shows the beginning of the pulse in the register, each period before it a
    whole requested pulse. -/
structure Shaped (cnt : ℕ) (regs : TimRegs) (given : List EscThrottles)
    (wave : EscPosition → List Bool) (periods : EscPosition → List (List Bool)) : Prop where
  arr : regs.arr = timTicksPerUs tim * cfg.periodUs - 1
  wave : ∀ pos, wave pos = pulse (regs.ccr (escMap pos)).toNat cnt
  periods : ∀ pos, ∀ p ∈ periods pos, ∃ w, Requested tim cfg given pos w ∧
    p = pulse w.toNat (regs.arr.toNat + 1)

variable (tim cfg) in
def St.Clean (s : St) : Prop := Shaped tim cfg s.cnt s.regs s.given s.wave s.periods

theorem Shaped.given {cnt : ℕ} {regs : TimRegs} {given : List EscThrottles}
    {wave : EscPosition → List Bool} {periods : EscPosition → List (List Bool)}
    (h : Shaped tim cfg cnt regs given wave periods) (t : EscThrottles) :
    Shaped tim cfg cnt regs (t :: given) wave periods := by
  refine ⟨h.arr, h.wave, fun pos p hp => ?_⟩
  obtain ⟨w, hw, hshape⟩ := h.periods pos p hp
  exact ⟨w, hw.cons t, hshape⟩

theorem clean_tick {s : St} (hok : s.Ok tim cfg) (h : s.Clean tim cfg) :
    (tickStep s).Clean tim cfg := by
  obtain ⟨harr, hwave, hperiods⟩ := h
  have hlevel : ∀ pos, s.wave pos ++ [level s.cnt s.regs pos] =
      pulse (s.regs.ccr (escMap pos)).toNat (s.cnt + 1) := by
    intro pos
    rw [hwave, level, pulse_succ]
  simp only [tickStep]
  split
  · next hend =>
    refine ⟨harr, fun pos => (pulse_zero _).symm, fun pos p hp => ?_⟩
    rcases List.mem_cons.mp hp with rfl | hold
    · -- the period that ends here
      exact ⟨_, hok.regs pos, by rw [hlevel, hend]⟩
    · exact hperiods pos p hold
  · exact ⟨harr, hlevel, hperiods⟩

theorem clean_isr (hmin : cfg.minDutyUs ≤ cfg.maxDutyUs)
    (hshort : (timTicksPerUs tim).toNat * cfg.maxDutyUs.toNat < 2 ^ 16) {s : St}
    (hok : s.Ok tim cfg) (h : s.Clean tim cfg) (ht : Timely tim cfg s .isr) :
    (isrStep s).Clean tim cfg := by
  obtain ⟨harr, hwave, hperiods⟩ := h
  have hok' := ok_isr hmin hshort hok
  unfold isrStep at hok' ⊢
  split
  · split
    · refine ⟨harr, fun pos => ?_, hperiods⟩
      rw [hwave pos]
      cases pos <;> rfl
    · exact ⟨harr, hwave, hperiods⟩
  · next pos isrTodo htodo =>
    rw [htodo] at hok'
    -- both the old and the new pulse are still high
    have hcnt : s.cnt ≤ (timTicksPerUs tim).toNat * cfg.minDutyUs.toNat := by
      rcases ht with hnil | hle
      · rw [htodo] at hnil; exact absurd hnil (by simp)
      · exact hle
    have hkeep : (escSetPulse pos (s.pulses.get pos).toUInt16 s.regs).arr = s.regs.arr := by
      cases pos <;> rfl
    refine ⟨hkeep.trans harr, fun pos' => ?_, fun pos' p hp => ?_⟩
    · have hold := ((hok.regs pos').bounds hmin).1
      have hnew := ((hok'.regs pos').bounds hmin).1
      show s.wave pos' = _
      rw [hwave pos']
      exact pulse_ahead (by omega) (le_trans hcnt hnew)
    · obtain ⟨w, hw, hshape⟩ := hperiods pos' p hp
      exact ⟨w, hw, hshape.trans (congrArg (fun r => pulse w.toNat (r.toNat + 1)) hkeep.symm)⟩

theorem clean_step (hmin : cfg.minDutyUs ≤ cfg.maxDutyUs)
    (hshort : (timTicksPerUs tim).toNat * cfg.maxDutyUs.toNat < 2 ^ 16) {s : St} (a : Act)
    (hok : s.Ok tim cfg) (h : s.Clean tim cfg) (ht : Timely tim cfg s a) :
    (step tim cfg s a).Clean tim cfg := by
  cases a with
  | tick => exact clean_tick hok h
  | update t =>
    simp only [step]
    split
    · exact Shaped.given h t
    · exact h
  | cpu =>
    simp only [step]
    split
    · unfold cpuStep
      split <;> exact h
    · exact h
  | isr => exact clean_isr hmin hshort hok h ht

theorem clean_exec (hmin : cfg.minDutyUs ≤ cfg.maxDutyUs)
    (hshort : (timTicksPerUs tim).toNat * cfg.maxDutyUs.toNat < 2 ^ 16) {acts : List Act}
    (ht : Along (step tim cfg) (Timely tim cfg) (start tim cfg) acts) :
    (exec tim cfg acts).Ok tim cfg ∧ (exec tim cfg acts).Clean tim cfg := by
  refine inv_run_along _ (fun s => s.Ok tim cfg ∧ s.Clean tim cfg) ?_ acts _ ht
    ⟨ok_start hmin hshort, rfl, fun pos => (pulse_zero _).symm,
      fun pos p hp => absurd hp List.not_mem_nil⟩
  rintro s a htimely ⟨hok, hclean⟩
  exact ⟨ok_step hmin hshort a hok, clean_step hmin hshort a hok hclean htimely⟩

/-- CORRECT: as long as the handler writes within the shortest pulse after the update event, every
    period of every motor is one pulse from its first tick on, of a length that the driver was asked
    for and the configuration allows, and then low. No write cuts a pulse in two. -/
theorem one_pulse (hmin : cfg.minDutyUs ≤ cfg.maxDutyUs) (hmax : cfg.maxDutyUs ≤ cfg.periodUs)
    (hshort : (timTicksPerUs tim).toNat * cfg.maxDutyUs.toNat < 2 ^ 16)
    (hpos : 0 < (timTicksPerUs tim).toNat * cfg.periodUs.toNat)
    (hperiod : (timTicksPerUs tim).toNat * cfg.periodUs.toNat < 2 ^ 32) (acts : List Act)
    (ht : Along (step tim cfg) (Timely tim cfg) (start tim cfg) acts) (pos : EscPosition) :
    ∀ p ∈ (exec tim cfg acts).periods pos, ∃ t, (t = disarmed ∨ Act.update t ∈ acts) ∧
      let w := requestedTicks tim cfg (t.get pos)
      (timTicksPerUs tim).toNat * cfg.minDutyUs.toNat ≤ w ∧
        w ≤ (timTicksPerUs tim).toNat * cfg.maxDutyUs.toNat ∧
        p = List.replicate w true ++
          List.replicate ((timTicksPerUs tim).toNat * cfg.periodUs.toNat - w) false := by
  intro p hp
  obtain ⟨-, hclean⟩ := clean_exec hmin hshort ht
  obtain ⟨w, ⟨t, hgiven, hvalid, hticks⟩, rfl⟩ := hclean.periods pos p hp
  obtain ⟨hlo, hhi⟩ := requestedTicks_bounds tim hmin hvalid
  have harr : (exec tim cfg acts).regs.arr.toNat + 1 =
      (timTicksPerUs tim).toNat * cfg.periodUs.toNat := by
    have hmul : (timTicksPerUs tim * cfg.periodUs).toNat =
        (timTicksPerUs tim).toNat * cfg.periodUs.toNat := by
      rw [UInt32.toNat_mul, Nat.mod_eq_of_lt hperiod]
    have hle : (1 : UInt32) ≤ timTicksPerUs tim * cfg.periodUs := by
      rw [UInt32.le_iff_toNat_le, hmul]; exact hpos
    rw [hclean.arr, UInt32.toNat_sub_of_le _ _ hle, hmul]
    exact Nat.sub_add_cancel hpos
  have hfits : (timTicksPerUs tim).toNat * cfg.maxDutyUs.toNat ≤
      (timTicksPerUs tim).toNat * cfg.periodUs.toNat :=
    Nat.mul_le_mul_left _ (UInt32.le_iff_toNat_le.mp hmax)
  refine ⟨t, ?_, hlo, hhi, ?_⟩
  · rcases given_run (start tim cfg) acts t hgiven with hstart | hact
    · exact Or.inl (List.mem_singleton.mp hstart)
    · exact Or.inr hact
  · rw [hticks, harr, pulse, Nat.min_eq_left (by omega)]

/-- A slow timer and a short period. -/
def tim1 : PwmTimer := { clkFreq := 1000000, ub := fun _ => 0 }
def shortPeriod : EscPwmConfig := { minDutyUs := 1, maxDutyUs := 3, periodUs := 4 }

/-- Full throttle for the front left motor: the handler of the first update event writes between two
    ticks of the next period. -/
def fullThrottle : List Act :=
  [.update ⟨2000, 1000, 1000, 1000⟩, .cpu, .cpu, .tick, .cpu, .cpu, .tick, .tick, .tick, .isr, .isr,
    .tick, .isr, .isr, .isr, .tick, .tick, .tick]

theorem one_pulse_full :
    ∃ t, (t = disarmed ∨ Act.update t ∈ fullThrottle) ∧
      let w := requestedTicks tim1 shortPeriod (t.get .frontLeft)
      (timTicksPerUs tim1).toNat * shortPeriod.minDutyUs.toNat ≤ w ∧
        w ≤ (timTicksPerUs tim1).toNat * shortPeriod.maxDutyUs.toNat ∧
        [true, true, true, false] = List.replicate w true ++
          List.replicate ((timTicksPerUs tim1).toNat * shortPeriod.periodUs.toNat - w) false :=
  one_pulse (by decide) (by decide) (by decide) (by decide) (by decide) fullThrottle
    (by decide +kernel) .frontLeft [true, true, true, false] (by decide +kernel)

end FC.Output

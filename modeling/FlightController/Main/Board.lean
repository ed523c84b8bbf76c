import FlightController.Main.Motors
import FlightController.Motor.Compare

/-! The program on its board: `main` and the receiver's interrupt as before, and the PWM timer with
    its handler, which takes the pulses to the compare registers whenever an update event comes. All
    of them run in any interleaving, and `esc_update` is interruptible itself: it writes the pulses
    of the four motors one after the other. The handler is one step, since the program stands still
    while it runs and the receiver's interrupt touches no pulse.

    Seen from outside `esc_update` nothing has changed: `main` runs as if the call was one step
    (`exec_main`), and between two calls the pulses are those that it left (`linked_exec`).

    What the motors are promised of the pulses holds of the registers: none but the shortest pulse
    before the first frame, and never one that the configuration does not allow (`outputs_safe`).
    And a stop gets through: once an iteration has stopped the motors, the next update event brings
    all four registers to the shortest pulse, where they stay until a later iteration decides
    otherwise (`stop_reaches_motors`). -/

namespace FC.Board
open Schemes Pwm

variable {σ : Type}

/-- The program, the registers of the PWM timer, and the static `pulses` of the driver, of which
    `main.pulses` is what the latest finished call left. `todo` holds the assignments that the
    running call of `update` has yet to make. -/
structure St (σ : Type) where
  main : Main.St σ
  regs : TimRegs
  pulses : Pulses
  todo : Option (List EscPosition)

/-- A step of the program or the receiver, an update event, or the handler of it. -/
inductive Act where
  | prog (a : Main.Act)
  | updateEvent
  | isr

variable (ctl : Main.Controller σ) (tim : PwmTimer)

/-- The assignment that `update` makes for a motor. -/
def assign (t : EscThrottles) (pulses : Pulses) (pos : EscPosition) : Pulses :=
  pulses.set pos (updatePulse tim oneshot42 (t.get pos) (pulses.get pos))

/-- The next step of `main`: at `esc_update` the call, one of its assignments or the return. Besides
    it only `esc_setup` touches driver and timer. -/
def mainStep (s : St σ) (e : Main.Env) : St σ :=
  let main := Main.step ctl tim s.main (.main e)
  match s.main.pc with
  | .escSetup =>
    { s with main, regs := timerSetup tim oneshot42 s.regs, pulses := setup tim oneshot42 }
  | .esc =>
    match s.todo with
    | none => { s with todo := some motors }
    | some (pos :: todo) =>
      { s with pulses := assign tim s.main.throttles s.pulses pos, todo := some todo }
    | some [] => { s with main, todo := none }
  | _ => { s with main }

/-- The timer does not run before `esc_setup`. -/
def step (s : St σ) : Act → St σ
  | .prog (.main e) => mainStep ctl tim s e
  | .prog a => { s with main := Main.step ctl tim s.main a }
  | .updateEvent =>
    if s.main.pc = .escSetup then s else { s with regs := { s.regs with uif := true } }
  | .isr => { s with regs := pwmTimIsr s.pulses s.regs }

def init : St σ := ⟨Main.init ctl, .cleared, (Main.init ctl).pulses, none⟩

def exec (acts : List Act) : St σ := run (step ctl tim) (init ctl) acts

/-! ### One call of `update` -/

/-- The assignments of a whole call make `update`. -/
theorem foldl_assign (t : EscThrottles) (pulses : Pulses) :
    motors.foldl (assign tim t) pulses = update tim oneshot42 t pulses := rfl

/-- What a step does to driver, timer and program: `esc_setup`, a step inside `esc_update`, its
    return, or a step of the program that leaves the driver alone. -/
inductive ProgStep (s : St σ) (a : Main.Act) : St σ → Prop
  | setup (hpc : s.main.pc = .escSetup) (hact : ∃ e, a = .main e)
      (hpulses : (Main.step ctl tim s.main a).pulses = setup tim oneshot42)
      (hout : (Main.step ctl tim s.main a).pc ≠ .escSetup) :
      ProgStep s a { s with
        main := Main.step ctl tim s.main a
        regs := timerSetup tim oneshot42 s.regs
        pulses := setup tim oneshot42 }
  | call (hpc : s.main.pc = .esc) (hact : ∃ e, a = .main e) (htodo : s.todo = none) :
      ProgStep s a { s with todo := some motors }
  | assign {pos : EscPosition} {todo : List EscPosition} (hpc : s.main.pc = .esc)
      (hact : ∃ e, a = .main e) (htodo : s.todo = some (pos :: todo)) :
      ProgStep s a { s with pulses := assign tim s.main.throttles s.pulses pos, todo := some todo }
  | ret (hpc : s.main.pc = .esc) (hact : ∃ e, a = .main e) (htodo : s.todo = some [])
      (hpulses : (Main.step ctl tim s.main a).pulses =
        update tim oneshot42 s.main.throttles s.main.pulses)
      (hout : (Main.step ctl tim s.main a).pc ≠ .escSetup) :
      ProgStep s a { s with main := Main.step ctl tim s.main a, todo := none }
  | other (hpc : s.main.pc = .esc → (Main.step ctl tim s.main a).pc = .esc ∧
        (Main.step ctl tim s.main a).throttles = s.main.throttles)
      (hpulses : (Main.step ctl tim s.main a).pulses = s.main.pulses)
      (hsetup : (Main.step ctl tim s.main a).pc = .escSetup ↔ s.main.pc = .escSetup) :
      ProgStep s a { s with main := Main.step ctl tim s.main a }

theorem progStep (s : St σ) (a : Main.Act) : ProgStep ctl tim s a (step ctl tim s (.prog a)) := by
  cases a with
  | tick d => exact .other (fun h => ⟨h, rfl⟩) rfl Iff.rfl
  | usart ch => exact .other (fun h => ⟨h, rfl⟩) rfl Iff.rfl
  | main e =>
    cases hpc : s.main.pc
    case escSetup =>
      simp only [step, mainStep, hpc]
      exact .setup hpc ⟨e, rfl⟩ (by simp [Main.step, Main.mainStep, hpc])
        (by simp [Main.step, Main.mainStep, hpc])
    case esc =>
      rcases htodo : s.todo with _ | _ | ⟨pos, todo⟩
      · simp only [step, mainStep, hpc, htodo]
        exact .call hpc ⟨e, rfl⟩ htodo
      · simp only [step, mainStep, hpc, htodo]
        exact .ret hpc ⟨e, rfl⟩ htodo (by simp [Main.step, Main.mainStep, hpc])
          (by simp [Main.step, Main.mainStep, hpc])
      · simp only [step, mainStep, hpc, htodo]
        exact .assign hpc ⟨e, rfl⟩ htodo
    all_goals
      simp only [step, mainStep, hpc]
      refine .other (fun h => ?_) ?_ ?_
      · rw [hpc] at h
        exact absurd h (by simp)
      all_goals
        simp only [Main.step, Main.mainStep, hpc]
        repeat' split
      all_goals simp [hpc]

variable {s s' : St σ}

variable {ctl tim} in
/-- The program takes a step of its own or none. -/
theorem ProgStep.main_eq {a : Main.Act} (h : ProgStep ctl tim s a s') :
    s'.main = s.main ∨ s'.main = Main.step ctl tim s.main a := by
  cases h with
  | setup | ret | other => exact Or.inr rfl
  | call | assign => exact Or.inl rfl

theorem step_main (s : St σ) (a : Act) : (step ctl tim s a).main = s.main ∨
    ∃ b, (step ctl tim s a).main = Main.step ctl tim s.main b := by
  cases a with
  | prog a => exact (progStep ctl tim s a).main_eq.imp_right fun h => ⟨a, h⟩
  | updateEvent =>
    refine Or.inl ?_
    simp only [step]
    split <;> rfl
  | isr => exact Or.inl rfl

/-- The timer does not act back on the program, for which `esc_update` might be one step. -/
theorem exec_main (acts : List Act) :
    ∃ as, (exec ctl tim acts).main = Main.exec ctl tim as :=
  exists_run_of_stutter (step ctl tim) (step_main ctl tim) (init ctl) acts

/-- Between two calls the pulses are those of the program. Within one, the assignments made so far
    have changed them. -/
def Linked (s : St σ) : Prop :=
  match s.todo with
  | none => s.pulses = s.main.pulses
  | some todo => s.main.pc = .esc ∧ ∃ done, done ++ todo = motors ∧
      s.pulses = done.foldl (assign tim s.main.throttles) s.main.pulses

variable {ctl tim} in
theorem ProgStep.linked {a : Main.Act} (hstep : ProgStep ctl tim s a s') (h : Linked tim s) :
    Linked tim s' := by
  cases hstep with
  | setup hpc _ hpulses _ =>
    cases htodo : s.todo with
    | none => simp only [Linked, hpulses]
    | some todo =>
      rw [Linked, htodo] at h
      exact absurd (hpc.symm.trans h.1) (by simp)
  | call hpc _ htodo =>
    rw [Linked, htodo] at h
    exact ⟨hpc, [], rfl, h⟩
  | assign hpc _ htodo =>
    rw [Linked, htodo] at h
    obtain ⟨-, done, hdone, hpulses⟩ := h
    refine ⟨hpc, done ++ [_], by rw [List.append_assoc]; exact hdone, ?_⟩
    rw [List.foldl_append, ← hpulses]
    rfl
  | ret hpc _ htodo hpulses _ =>
    rw [Linked, htodo] at h
    obtain ⟨-, done, hdone, hdriver⟩ := h
    rw [List.append_nil] at hdone
    show s.pulses = (Main.step ctl tim s.main a).pulses
    rw [hdriver, hdone, foldl_assign, hpulses]
  | other hpc hpulses _ =>
    cases htodo : s.todo with
    | none =>
      rw [Linked, htodo] at h
      simp only [Linked, hpulses]
      exact h
    | some todo =>
      rw [Linked, htodo] at h
      obtain ⟨hin, done, hdone, hdriver⟩ := h
      simp only [Linked, hpulses, (hpc hin).2]
      exact ⟨(hpc hin).1, done, hdone, hdriver⟩

theorem linked_step (h : Linked tim s) (a : Act) : Linked tim (step ctl tim s a) := by
  cases a with
  | prog a => exact (progStep ctl tim s a).linked h
  | updateEvent =>
    simp only [step]
    split <;> exact h
  | isr => exact h

theorem linked_exec (acts : List Act) : Linked tim (exec ctl tim acts) :=
  inv_run (step ctl tim) (Linked tim) (fun _ a h => linked_step ctl tim h a) acts rfl

/-- Outside `esc_update` the pulses are those of the program. -/
theorem Linked.pulses_eq (h : Linked tim s) (hpc : s.main.pc ≠ .esc) :
    s.pulses = s.main.pulses := by
  cases htodo : s.todo with
  | none => rwa [Linked, htodo] at h
  | some todo =>
    rw [Linked, htodo] at h
    exact absurd h.1 hpc

/-! ### What the registers may hold -/

/-- The pulse of a throttle in range. -/
def Allowed (ticks : UInt32) : Prop :=
  ∃ t, validThrottleRange t = true ∧ ticks = throttleToTicks tim t oneshot42

/-- The shortest pulse. -/
def minTicks : UInt32 := throttleToTicks tim escMinThrottle oneshot42

theorem allowed_min : Allowed tim (minTicks tim) := ⟨escMinThrottle, by decide, rfl⟩

theorem setup_get (pos : EscPosition) : (setup tim oneshot42).get pos = minTicks tim :=
  PerMotor.get_all _ pos

variable {tim}

theorem Allowed.bounds {ticks : UInt32} (h : Allowed tim ticks) :
    (timTicksPerUs tim).toNat * oneshot42.minDutyUs.toNat ≤ ticks.toNat ∧
      ticks.toNat ≤ (timTicksPerUs tim).toNat * oneshot42.maxDutyUs.toNat := by
  obtain ⟨t, hvalid, rfl⟩ := h
  exact throttleToTicks_bounds tim (by decide) (Main.oneshot42_fits tim) hvalid

/-- The clock is slow enough for the 16-bit parameter of `esc_set_pulse`. -/
def SlowClock (tim : PwmTimer) : Prop :=
  (timTicksPerUs tim).toNat * oneshot42.maxDutyUs.toNat < 2 ^ 16

instance (tim : PwmTimer) : Decidable (SlowClock tim) := inferInstanceAs (Decidable (_ < _))

/-- The handler writes an allowed pulse as it is. -/
theorem ccr_isr (hslow : SlowClock tim) {pulses : Pulses} {regs : TimRegs}
    (huif : regs.uif = true) (pos : EscPosition) (h : Allowed tim (pulses.get pos)) :
    (pwmTimIsr pulses regs).ccr (escMap pos) = pulses.get pos := by
  have hle := h.bounds.2
  have hlt : (pulses.get pos).toNat < 2 ^ 16 := lt_of_le_of_lt hle hslow
  rw [← UInt32.toNat_inj, pwmTimIsr_ccr huif, Nat.mod_eq_of_lt hlt]

/-- Without an update event the handler does nothing. -/
theorem ccr_isr_idle {pulses : Pulses} {regs : TimRegs} (huif : regs.uif = false) :
    pwmTimIsr pulses regs = regs := by
  rw [pwmTimIsr, huif]; rfl

theorem ccr_uif (regs : TimRegs) (b : Bool) (oc : TimOcId) :
    ({ regs with uif := b } : TimRegs).ccr oc = regs.ccr oc := by cases oc <;> rfl

variable (tim) in
/-- `pulse`, `ccr`: all of them are allowed. `idle`: before the first frame the registers hold the
    shortest pulse. -/
structure Inv (s : St σ) : Prop where
  pulse : s.main.pc ≠ .escSetup → ∀ pos, Allowed tim (s.pulses.get pos)
  ccr : s.main.pc ≠ .escSetup → ∀ pos, Allowed tim (s.regs.ccr (escMap pos))
  idle : s.main.pc ≠ .escSetup → s.main.log = [] → ∀ pos, s.regs.ccr (escMap pos) = minTicks tim
  off : s.main.pc = .escSetup → s.regs.uif = false

theorem log_of_step {m : Main.St σ} {a : Main.Act} (h : (Main.step ctl tim m a).log = []) :
    m.log = [] := by
  cases a with
  | tick d => exact h
  | usart ch =>
    simp only [Main.step, Main.usartStep] at h
    split at h
    · exact absurd h (List.cons_ne_nil _ _)
    · exact h
  | main e => exact (Main.mainStep_frame ctl tim m e).2.1.symm.trans h

theorem allowed_assign {t : EscThrottles} {pulses : Pulses}
    (h : ∀ pos, Allowed tim (pulses.get pos)) (pos pos' : EscPosition) :
    Allowed tim ((assign tim t pulses pos).get pos') := by
  rw [assign, PerMotor.get_set]
  split
  · rw [updatePulse]
    by_cases hvalid : validThrottleRange (t.get pos) = true
    · rw [if_pos hvalid]; exact ⟨_, hvalid, rfl⟩
    · rw [if_neg hvalid]; exact h pos
  · exact h pos'

variable {ctl} in
theorem ProgStep.inv {a : Main.Act} (hstep : ProgStep ctl tim s a s') (h : Inv tim s) :
    Inv tim s' := by
  obtain ⟨hpulses, hregs, hidle, hoff⟩ := h
  cases hstep with
  | setup _ _ _ hout =>
    have hccr : ∀ pos, (timerSetup tim oneshot42 s.regs).ccr (escMap pos) = minTicks tim :=
      fun pos => timerSetup_ccr s.regs _
    refine ⟨fun _ pos => ?_, fun _ pos => ?_, fun _ _ => hccr, fun hin => absurd hin hout⟩
    · rw [setup_get]; exact allowed_min tim
    · rw [hccr]; exact allowed_min tim
  | call => exact ⟨hpulses, hregs, hidle, hoff⟩
  | assign hpc =>
    exact ⟨fun hne => allowed_assign (hpulses hne) _, hregs, hidle, hoff⟩
  | ret hpc _ _ _ hout =>
    have hne : s.main.pc ≠ .escSetup := by rw [hpc]; simp
    exact ⟨fun _ => hpulses hne, fun _ => hregs hne,
      fun _ hlog => hidle hne (log_of_step ctl hlog), fun hin => absurd hin hout⟩
  | other _ _ hiff =>
    have hne : (Main.step ctl tim s.main a).pc ≠ .escSetup → s.main.pc ≠ .escSetup :=
      fun h => h ∘ hiff.mpr
    exact ⟨fun hpc => hpulses (hne hpc), fun hpc => hregs (hne hpc),
      fun hpc hlog => hidle (hne hpc) (log_of_step ctl hlog), fun hpc => hoff (hiff.mp hpc)⟩

theorem inv_isr (hslow : SlowClock tim) (h : Inv tim s)
    (hfirst : s.main.pc ≠ .escSetup → s.main.log = [] → s.pulses = setup tim oneshot42) :
    Inv tim (step ctl tim s .isr) := by
  obtain ⟨hpulses, hregs, hidle, hoff⟩ := h
  cases huif : s.regs.uif with
  | false =>
    have hsame : step ctl tim s .isr = s := by rw [step, ccr_isr_idle huif]
    rw [hsame]
    exact ⟨hpulses, hregs, hidle, hoff⟩
  | true =>
    have hccr : s.main.pc ≠ .escSetup → ∀ pos,
        (step ctl tim s .isr).regs.ccr (escMap pos) = s.pulses.get pos :=
      fun hpc pos => ccr_isr hslow huif pos (hpulses hpc pos)
    refine ⟨hpulses, fun hpc pos => ?_, fun hpc hlog pos => ?_, fun hpc => ?_⟩
    · rw [hccr hpc]; exact hpulses hpc pos
    · rw [hccr hpc, hfirst hpc hlog, setup_get]
    · rw [hoff hpc] at huif; exact absurd huif (by decide)

/-- No pulse changes before the first frame: `esc_update` is not reached. -/
theorem pulses_first (acts : List Act) (hpc : (exec ctl tim acts).main.pc ≠ .escSetup)
    (hlog : (exec ctl tim acts).main.log = []) :
    (exec ctl tim acts).pulses = setup tim oneshot42 := by
  obtain ⟨as, has⟩ := exec_main ctl tim acts
  have hreceived : Main.Received (Main.exec ctl tim as) :=
    Main.inv_exec ctl tim Main.Received (fun _ a hs hr _ => Main.received_step ctl tim hs hr a) as
      fun h => absurd h (by simp [Main.init, Main.Pc.sampled])
  have hout : (exec ctl tim acts).main.pc ≠ .esc := by
    intro hesc
    rw [has] at hesc hlog
    exact hreceived (by rw [hesc]; rfl) hlog
  rw [(linked_exec ctl tim acts).pulses_eq tim hout]
  rw [has] at hpc hlog ⊢
  exact (Main.pulses_exec ctl tim as).idle hpc hlog

theorem inv_exec (hslow : SlowClock tim) (acts : List Act) : Inv tim (exec ctl tim acts) := by
  induction acts using List.reverseRecOn with
  | nil =>
    exact ⟨fun h => absurd rfl h, fun h => absurd rfl h, fun h => absurd rfl h, fun _ => rfl⟩
  | append_singleton acts a ih =>
    rw [exec, run_concat]
    change Inv tim (step ctl tim (exec ctl tim acts) a)
    cases a with
    | prog a => exact (progStep ctl tim _ a).inv ih
    | updateEvent =>
      simp only [step]
      split
      · exact ih
      · next hpc =>
        exact ⟨ih.pulse, fun h pos => (ccr_uif _ true _).symm ▸ ih.ccr h pos,
          fun h hlog pos => (ccr_uif _ true _).trans (ih.idle h hlog pos), fun h => absurd h hpc⟩
    | isr => exact inv_isr ctl hslow ih (pulses_first ctl acts)

/-- What the registers are promised. -/
structure OutputsSafe (tim : PwmTimer) (s : St σ) : Prop where
  idle : s.main.pc ≠ .escSetup → s.main.log = [] →
    ∀ pos, s.regs.ccr (escMap pos) = minTicks tim
  bounds : s.main.pc ≠ .escSetup → ∀ pos,
    (timTicksPerUs tim).toNat * oneshot42.minDutyUs.toNat ≤ (s.regs.ccr (escMap pos)).toNat ∧
      (s.regs.ccr (escMap pos)).toNat ≤ (timTicksPerUs tim).toNat * oneshot42.maxDutyUs.toNat

/-- CORRECT: in every interleaving of program, receiver, timer and handlers the compare registers
    hold the shortest pulse until the first frame is published, and pulses that the configuration
    allows ever after. -/
theorem outputs_safe (hslow : SlowClock tim) (acts : List Act) :
    OutputsSafe tim (exec ctl tim acts) := by
  have h := inv_exec ctl hslow acts
  exact ⟨h.idle, fun hpc pos => (h.ccr hpc pos).bounds⟩

/-- The handler comes in the middle of the first `esc_update`. -/
theorem outputs_safe_board :
    OutputsSafe Main.board (exec Main.flight Main.board
      ((Main.lossRun 2).map .prog ++ [.updateEvent, .isr])) :=
  outputs_safe Main.flight (by decide) _

/-! ### A stop gets through -/

/-- Any step but an `esc_update`. -/
def NoUpdate (s : St σ) : Act → Prop
  | .prog (.main _) => s.main.pc ≠ .esc
  | _ => True

instance (s : St σ) (a : Act) : Decidable (NoUpdate s a) :=
  match a with
  | .prog (.main _) => inferInstanceAs (Decidable (_ ≠ _))
  | .prog (.tick _) => isTrue trivial
  | .prog (.usart _) => isTrue trivial
  | .updateEvent => isTrue trivial
  | .isr => isTrue trivial

variable (tim) in
/-- The driver asks for the shortest pulses. -/
structure Stopped (s : St σ) : Prop where
  pulses : s.pulses = setup tim oneshot42
  running : s.main.pc ≠ .escSetup

variable (tim) in
/-- All registers hold the shortest pulse. -/
def Low (regs : TimRegs) : Prop := ∀ pos, regs.ccr (escMap pos) = minTicks tim

variable {ctl} in
/-- Outside `esc_update` the program leaves the driver alone. -/
theorem ProgStep.stopped {a : Main.Act} (hstep : ProgStep ctl tim s a s') (h : Stopped tim s)
    (hno : NoUpdate s (.prog a)) : Stopped tim s' ∧ s'.regs = s.regs := by
  cases hstep with
  | setup hpc => exact absurd hpc h.running
  | call hpc hact | assign hpc hact | ret hpc hact =>
    obtain ⟨e, rfl⟩ := hact
    exact absurd hpc hno
  | other _ _ hiff => exact ⟨⟨h.pulses, fun hpc => h.running (hiff.mp hpc)⟩, rfl⟩

theorem stopped_step (a : Act) (h : Stopped tim s) (hno : NoUpdate s a) :
    Stopped tim (step ctl tim s a) := by
  cases a with
  | prog a => exact ((progStep ctl tim s a).stopped h hno).1
  | updateEvent => rw [step, if_neg h.running]; exact ⟨h.pulses, h.running⟩
  | isr => exact ⟨h.pulses, h.running⟩

/-- A served update event brings the registers down. -/
theorem low_isr (hslow : SlowClock tim) (h : Stopped tim s)
    (hregs : s.regs.uif = true ∨ Low tim s.regs) : Low tim (step ctl tim s .isr).regs := by
  intro pos
  show (pwmTimIsr s.pulses s.regs).ccr (escMap pos) = minTicks tim
  cases huif : s.regs.uif with
  | true =>
    have hget : s.pulses.get pos = minTicks tim := by rw [h.pulses, setup_get]
    rw [ccr_isr hslow huif pos (by rw [hget]; exact allowed_min tim), hget]
  | false =>
    rw [ccr_isr_idle huif]
    rcases hregs with htrue | hlow
    · rw [huif] at htrue; exact absurd htrue (by decide)
    · exact hlow pos

theorem low_step (hslow : SlowClock tim) (a : Act) (h : Stopped tim s)
    (hno : NoUpdate s a) (hlow : Low tim s.regs) : Low tim (step ctl tim s a).regs := by
  cases a with
  | prog a => rwa [((progStep ctl tim s a).stopped h hno).2]
  | updateEvent =>
    rw [step, if_neg h.running]
    exact fun pos => (ccr_uif _ true _).trans (hlow pos)
  | isr => exact low_isr ctl hslow h (Or.inr hlow)

/-- An update event stays pending until it is served. -/
theorem pending_step (hslow : SlowClock tim) (a : Act) (h : Stopped tim s)
    (hno : NoUpdate s a) (hregs : s.regs.uif = true ∨ Low tim s.regs) :
    (step ctl tim s a).regs.uif = true ∨ Low tim (step ctl tim s a).regs := by
  rcases hregs with huif | hlow
  · cases a with
    | prog a =>
      left
      rw [((progStep ctl tim s a).stopped h hno).2]; exact huif
    | updateEvent => rw [step, if_neg h.running]; exact Or.inl rfl
    | isr => exact Or.inr (low_isr ctl hslow h (Or.inl huif))
  · exact Or.inr (low_step ctl hslow a h hno hlow)

theorem stopped_run {acts : List Act} (hno : Along (step ctl tim) NoUpdate s acts)
    (h : Stopped tim s) : Stopped tim (run (step ctl tim) s acts) :=
  inv_run_along _ (fun s => Stopped tim s) (fun _ a hP hI => stopped_step ctl a hI hP) acts s
    hno h

/-- Once stopped, an update event and its handler bring the registers down for good. -/
theorem low_run (hslow : SlowClock tim) (h : Stopped tim s)
    {before between after : List Act}
    (hno : Along (step ctl tim) NoUpdate s
      (before ++ .updateEvent :: (between ++ .isr :: after))) :
    Low tim (run (step ctl tim) s (before ++ .updateEvent :: (between ++ .isr :: after))).regs := by
  rw [along_append, along_cons, along_append, along_cons] at hno
  obtain ⟨hbefore, -, hbetween, -, hafter⟩ := hno
  rw [run_append, run_cons, run_append, run_cons]
  set s₁ := run (step ctl tim) s before with hs₁
  have hstop₁ : Stopped tim s₁ := stopped_run ctl hbefore h
  have hset : (step ctl tim s₁ .updateEvent).regs.uif = true := by
    rw [step, if_neg hstop₁.running]
  have hwait := inv_run_along (step ctl tim)
    (fun s => Stopped tim s ∧ (s.regs.uif = true ∨ Low tim s.regs))
    (fun s a hP hI => ⟨stopped_step ctl a hI.1 hP, pending_step ctl hslow a hI.1 hP hI.2⟩) between _
    hbetween ⟨stopped_step ctl .updateEvent hstop₁ trivial, Or.inl hset⟩
  have hlow := inv_run_along (step ctl tim) (fun s => Stopped tim s ∧ Low tim s.regs)
    (fun s a hP hI => ⟨stopped_step ctl a hI.1 hP, low_step ctl hslow a hI.1 hP hI.2⟩) after _
    hafter ⟨stopped_step ctl .isr hwait.1 trivial, low_isr ctl hslow hwait.1 hwait.2⟩
  exact hlow.2

/-- CORRECT: when an iteration has stopped the motors, for a low stick or a lost signal, the next
    update event and its handler bring all four compare registers to the shortest pulse, whatever
    runs in between, and there they stay as long as `esc_update` is not called again. -/
theorem stop_reaches_motors (hslow : SlowClock tim) (acts before between after : List Act)
    (hpc : (exec ctl tim acts).main.pc = .telemetry)
    (hstop : (exec ctl tim acts).main.rxLatest.throttle ≤ Mixing.cutoffThrottle ∨
      (exec ctl tim acts).main.lost = true)
    (hno : Along (step ctl tim) NoUpdate (exec ctl tim acts)
      (before ++ .updateEvent :: (between ++ .isr :: after))) (pos : EscPosition) :
    (exec ctl tim (acts ++ (before ++ .updateEvent :: (between ++ .isr :: after)))).regs.ccr
      (escMap pos) = minTicks tim := by
  have hstopped : Stopped tim (exec ctl tim acts) := by
    refine ⟨?_, by rw [hpc]; simp⟩
    rw [(linked_exec ctl tim acts).pulses_eq tim (by rw [hpc]; simp)]
    obtain ⟨as, has⟩ := exec_main ctl tim acts
    rw [has] at hpc hstop ⊢
    have hdecided := Main.decided_of_branchOk (Main.branch_exec ctl tim as) (Or.inr hpc)
    rw [(Main.pulses_exec ctl tim as).fresh hpc, hdecided.disarmed hstop, ticksOf_disarmed]
  rw [exec, run_append]
  exact low_run ctl hslow hstopped hno pos

/-- The signal is lost at half stick; the registers come down with the next update event. -/
theorem stop_reaches_motors_lossRun :
    (exec Main.flight Main.board ((Main.lossRun 29).map .prog ++
      ([.prog (.tick 3)] ++ .updateEvent :: ([.prog (.usart 0x20)] ++ .isr :: [.isr])))).regs.ccr
      (escMap .frontLeft) = minTicks Main.board :=
  stop_reaches_motors Main.flight (show SlowClock Main.board by decide)
    ((Main.lossRun 29).map .prog) [.prog (.tick 3)] [.prog (.usart 0x20)] [.isr]
    (by decide +kernel) (by decide +kernel)
    ⟨trivial, trivial, trivial, trivial, trivial, trivial⟩ .frontLeft

end FC.Board

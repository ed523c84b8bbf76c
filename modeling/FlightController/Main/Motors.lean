import FlightController.Main.Failsafe

/-! The motor outputs over whole runs. The throttles of an iteration are decided in one of two
    branches (`branch_exec`), and either way every one of them is in the range that the ESC driver
    accepts. So the driver's range check leaves no pulse of an earlier iteration behind, and the
    pulses of an iteration are those of its own throttles (`motor_output_safe`).

    The flight controller is a parameter here, and with it all that the PIDs may put out. -/

namespace FC.Main
open Schemes

variable {σ : Type} (ctl : Controller σ) (tim : PwmTimer)

/-- The throttles were decided in this iteration: disarmed on a lost signal, else by the mixer. -/
def Decided (s : St σ) : Prop :=
  (s.lost = true ∧ s.throttles = disarmed) ∨
    (s.lost = false ∧ ∃ ub, s.throttles =
      Mixing.motorMixing ub s.fcOut.rollOut s.fcOut.pitchOut s.fcOut.yawOut s.rxLatest)

theorem decided_of_branchOk {s : St σ} (h : BranchOk s) (hpc : s.pc = .esc ∨ s.pc = .telemetry) :
    Decided s := by
  have hbranch : (s.lost = true ↔ s.eval.Lost) ∧ (s.lost = true → s.throttles = disarmed) ∧
      (s.lost = false → ∃ ub, s.throttles =
        Mixing.motorMixing ub s.fcOut.rollOut s.fcOut.pitchOut s.fcOut.yawOut s.rxLatest) := by
    rcases hpc with hpc | hpc <;> rw [BranchOk, hpc] at h <;> exact h
  obtain ⟨_, hdis, hmix⟩ := hbranch
  cases hlost : s.lost with
  | true => exact Or.inl ⟨hlost, hdis hlost⟩
  | false => exact Or.inr ⟨hlost, hmix hlost⟩

/-- Either branch decides on throttles that the ESC driver accepts. -/
theorem Decided.valid {s : St σ} (h : Decided s) (pos : EscPosition) :
    Pwm.validThrottleRange (s.throttles.get pos) = true := by
  rcases h with ⟨_, hdis⟩ | ⟨_, ub, hmix⟩
  · rw [hdis, disarmed, PerMotor.get_all]; rfl
  · rw [hmix]; exact Mixing.validThrottleRange_motorMixing ..

/-- Where the motors must stop, the throttles are the minimum ones. -/
theorem Decided.disarmed {s : St σ} (h : Decided s)
    (hstop : s.rxLatest.throttle ≤ Mixing.cutoffThrottle ∨ s.lost = true) :
    s.throttles = disarmed := by
  rcases h with ⟨_, hdis⟩ | ⟨hlost, ub, hmix⟩
  · exact hdis
  · rcases hstop with hcutoff | htrue
    · rw [hmix, Mixing.motorMixing_of_cutoff hcutoff]
    · rw [hlost] at htrue; exact absurd htrue (by decide)

/-- No pulse is stale: before the first frame the pulses are those of `esc_setup`, after
    `esc_update` those of the throttles just decided. -/
structure PulsesOk (s : St σ) : Prop where
  idle : s.pc ≠ .escSetup → s.log = [] → s.pulses = Pwm.setup tim oneshot42
  fresh : s.pc = .telemetry → s.pulses = Pwm.ticksOf tim oneshot42 s.throttles

theorem pulsesOk_main {s : St σ} (hr : Received s) (hb : BranchOk s) (h : PulsesOk tim s)
    (e : Env) : PulsesOk tim (mainStep ctl tim s e) := by
  have hlog := (mainStep_frame ctl tim s e).2.1
  cases hpc : s.pc
  case escSetup =>
    simp only [mainStep, hpc]
    exact ⟨fun _ _ => rfl, fun htel => by simp at htel⟩
  case esc =>
    have hvalid := (decided_of_branchOk hb (Or.inl hpc)).valid
    constructor
    · intro _ hnil
      exact absurd (hlog.symm.trans hnil) (hr (by rw [hpc]; rfl))
    · intro _
      simp only [mainStep, hpc]
      exact Pwm.update_of_valid tim oneshot42 s.pulses hvalid
  all_goals
    -- the other steps touch no pulse and do not end in `telemetry`
    have hpulses : (mainStep ctl tim s e).pulses = s.pulses := by
      simp only [mainStep, hpc]
      try split
      all_goals rfl
    have hother : (mainStep ctl tim s e).pc ≠ .telemetry := by
      simp only [mainStep, hpc]
      repeat' split
      all_goals simp [hpc]
    refine ⟨fun _ hnil => ?_, fun htel => absurd htel hother⟩
    rw [hpulses]
    exact h.idle (by rw [hpc]; simp) (hlog.symm.trans hnil)

theorem pulsesOk_step {s : St σ} (hr : Received s) (hb : BranchOk s) (h : PulsesOk tim s)
    (a : Act) : PulsesOk tim (step ctl tim s a) := by
  cases a with
  | tick d => exact ⟨h.idle, h.fresh⟩
  | usart ch =>
    refine ⟨fun hpc hnil => h.idle hpc ?_, h.fresh⟩
    simp only [step, usartStep] at hnil
    split at hnil
    · exact absurd hnil (List.cons_ne_nil _ _)
    · exact hnil
  | main e => exact pulsesOk_main ctl tim hr hb h e

theorem pulses_exec (acts : List Act) : PulsesOk tim (exec ctl tim acts) := by
  have hboth : BranchOk (exec ctl tim acts) ∧ PulsesOk tim (exec ctl tim acts) := by
    refine inv_exec ctl tim (fun s => BranchOk s ∧ PulsesOk tim s) ?_ acts
      ⟨trivial, fun hpc => absurd rfl hpc, fun htel => by simp [init] at htel⟩
    rintro s a hs hr ⟨hb, hp⟩
    exact ⟨branchOk_step ctl tim hs hb a, pulsesOk_step ctl tim hr hb hp a⟩
  exact hboth.2

/-- Ticks of a 32-bit timer clock: a pulse of 84 us always fits 32 bits. -/
theorem oneshot42_fits :
    (Pwm.timTicksPerUs tim).toNat * oneshot42.maxDutyUs.toNat < 2 ^ 32 := by
  have hclk : tim.clkFreq.toNat < 2 ^ 32 := tim.clkFreq.toNat_lt
  rw [Pwm.timTicksPerUs, UInt32.toNat_div]
  show tim.clkFreq.toNat / 1000000 * 84 < 2 ^ 32
  omega

/-- What the motors are promised. `idle`: no throttle until the first frame. `decided`, `pulses`,
    `bounds`: after `esc_update` every pulse is the one of the throttle decided in this iteration,
    and within the pulse lengths of the configuration. `stopped`: a low stick and a lost signal stop
    all motors. -/
structure MotorsSafe (s : St σ) : Prop where
  idle : s.pc ≠ .escSetup → s.log = [] → s.pulses = Pwm.setup tim oneshot42
  decided : s.pc = .telemetry → Decided s
  pulses : s.pc = .telemetry → s.pulses = Pwm.ticksOf tim oneshot42 s.throttles
  bounds : s.pc = .telemetry → ∀ pos,
    (Pwm.timTicksPerUs tim).toNat * oneshot42.minDutyUs.toNat ≤ (s.pulses.get pos).toNat ∧
      (s.pulses.get pos).toNat ≤ (Pwm.timTicksPerUs tim).toNat * oneshot42.maxDutyUs.toNat
  stopped : s.pc = .telemetry → s.rxLatest.throttle ≤ Mixing.cutoffThrottle ∨ s.lost = true →
    s.pulses = Pwm.setup tim oneshot42

/-- CORRECT: in every run, whatever the receiver, the IMU and the PIDs deliver and whatever an
    out-of-range conversion yields, the motor outputs are safe. -/
theorem motor_output_safe (acts : List Act) : MotorsSafe tim (exec ctl tim acts) := by
  obtain ⟨hidle, hfresh⟩ := pulses_exec ctl tim acts
  have hdecided : (exec ctl tim acts).pc = .telemetry → Decided (exec ctl tim acts) :=
    fun hpc => decided_of_branchOk (branch_exec ctl tim acts) (Or.inr hpc)
  refine ⟨hidle, hdecided, hfresh, ?_, ?_⟩
  · intro hpc pos
    have hget : (exec ctl tim acts).pulses.get pos =
        Pwm.throttleToTicks tim ((exec ctl tim acts).throttles.get pos) oneshot42 := by
      rw [hfresh hpc]; cases pos <;> rfl
    rw [hget]
    exact Pwm.throttleToTicks_bounds tim (by decide) (oneshot42_fits tim) ((hdecided hpc).valid pos)
  · intro hpc hstop
    rw [hfresh hpc, (hdecided hpc).disarmed hstop, Pwm.ticksOf_disarmed]

end FC.Main

import FlightController.Imu.Setup
import FlightController.Schemes.Fair

/-! Where `setup` of `src/imu/lsm6dsox.c` ends. It waits for nothing but the reset, so once that is
    done it returns in bounded time (`setup_returns`). A chip that answers with another id than
    `LSM6DSOX_WHOAMI_ID` is left alone (`setup_refuses`). -/

namespace FC.Bus
open Schemes

variable {s : St} {t : Txn} {defaults regs₀ : UInt8 → UInt8} {pc : Pc} {dst : List UInt8}
  {phase : Phase}

/-! ### The id -/

/-- Where `setup` is once it has sent the reset command. -/
def Phase.BeyondReset : Phase → Prop
  | .whoAmI | .reset | .failed => False
  | .poll | .config _ _ | .fetch | .ready => True

theorem beyondReset_configure (todo : List (Reg × UInt8)) : (configure todo).BeyondReset := by
  cases todo <;> trivial

theorem beyondReset_after (h : phase = .reset ∨ phase.BeyondReset) :
    (phase.after dst).BeyondReset := by
  rcases h with rfl | h
  · trivial
  cases phase with
  | whoAmI | reset | failed => exact h.elim
  | poll =>
    rw [Phase.after]
    split
    · trivial
    · exact beyondReset_configure _
  | config now todo => exact beyondReset_configure todo
  | fetch | ready => trivial

/-- A step stays at its place, ends a transaction, or begins a burst. -/
theorem phase_step (defaults : UInt8 → UInt8) (s : St) (a : Act) :
    (step defaults s a).phase = s.phase ∨
      s.pc = .deselect ∧ (step defaults s a).phase = s.phase.after s.dst ∨
      s.phase = .ready ∧ (step defaults s a).phase = .fetch := by
  cases a with
  | cpu junk =>
    cases ht : s.phase.txn with
    | none => simp [step, ht]
    | some t =>
      rcases eq_or_ne s.pc .deselect with hend | hpc
      · simp [step, ht, txnStep, hend]
      · exact Or.inl (by simp only [step, ht, (txnStep_stays hpc junk).1])
  | resetDone =>
    simp only [step]
    split <;> exact Or.inl rfl
  | sample out => exact Or.inl rfl
  | fetch =>
    by_cases hready : s.phase = .ready
    · simp [step, hready]
    · simp [step, hready]

theorem beyondReset_step (h : s.phase.BeyondReset) (a : Act) :
    (step defaults s a).phase.BeyondReset := by
  rcases phase_step defaults s a with hsame | ⟨-, hafter⟩ | ⟨-, hfetch⟩
  · rwa [hsame]
  · rw [hafter]
    exact beyondReset_after (Or.inr h)
  · rw [hfetch]
    trivial

/-- The id that the sensor had at the start decides: until it is read, and after it has been read
    and is the wrong one, nothing is written. -/
def IdOk (regs₀ : UInt8 → UInt8) (s : St) : Prop :=
  (s.phase = .whoAmI ∧ TxnOk (.read .whoAmI 1) s.sensor.link s.dst s.pc ∧
      Configured regs₀ [] s.sensor.regs s.sensor.resetting ∧
      (s.pc.HasRead → s.dst.headD 0 = regs₀ Reg.whoAmI.addr)) ∨
    (s.phase = .failed ∧ regs₀ Reg.whoAmI.addr ≠ lsm6dsoxWhoamiId ∧
      Configured regs₀ [] s.sensor.regs s.sensor.resetting) ∨
    ((s.phase = .reset ∨ s.phase.BeyondReset) ∧ regs₀ Reg.whoAmI.addr = lsm6dsoxWhoamiId)

theorem idOk_cpu (hwho : s.phase = .whoAmI)
    (hok : TxnOk (.read .whoAmI 1) s.sensor.link s.dst s.pc)
    (hconf : Configured regs₀ [] s.sensor.regs s.sensor.resetting)
    (hread : s.pc.HasRead → s.dst.headD 0 = regs₀ Reg.whoAmI.addr) (junk : UInt8) :
    IdOk regs₀ (txnStep s (.read .whoAmI 1) junk) := by
  rcases eq_or_ne s.pc .deselect with hend | hpc
  · have hid := hread (Or.inl hend)
    simp only [txnStep, hend, hwho, Phase.after, hid]
    split
    · rename_i hne
      exact Or.inr (Or.inl ⟨rfl, hne, hconf⟩)
    · rename_i heq
      exact Or.inr (Or.inr ⟨Or.inl rfl, not_not.mp heq⟩)
  · obtain ⟨hregs, hreset⟩ := txnStep_frame hok (fun _ _ _ _ => by simp) junk
    refine Or.inl ⟨(txnStep_stays hpc junk).1.trans hwho, ?_, ?_, fun hread' => ?_⟩
    · refine txnOk_step hok hpc (fun reg n ht hn => ?_) junk
      obtain ⟨_, rfl⟩ := Txn.read.inj ht
      exact absurd hn (Nat.lt_irrefl 1)
    · rw [hregs, hreset]
      exact hconf
    · rcases read_one hok hpc junk hread' with hnow | ⟨hbefore, hdst⟩
      · rw [hnow]
        exact hconf.regs _ (by decide)
      · rw [hdst]
        exact hread hbefore

theorem idOk_step (defaults : UInt8 → UInt8) (s : St) (a : Act) (h : IdOk regs₀ s) :
    IdOk regs₀ (step defaults s a) := by
  rcases h with ⟨hwho, hok, hconf, hread⟩ | ⟨hfailed, hne, hconf⟩ | ⟨hpast, hid⟩
  · cases a with
    | cpu junk =>
      simp only [step, hwho, Phase.txn]
      exact idOk_cpu hwho hok hconf hread junk
    | resetDone =>
      simp only [step, hconf.done]
      exact Or.inl ⟨hwho, hok, hconf, hread⟩
    | sample out => exact Or.inl ⟨hwho, hok, configured_congr hconf fun a ha => if_neg ha, hread⟩
    | fetch =>
      simp only [step, hwho]
      exact Or.inl ⟨hwho, hok, hconf, hread⟩
  · refine Or.inr (Or.inl ?_)
    cases a with
    | cpu junk =>
      rw [show step defaults s (.cpu junk) = s by simp [step, hfailed, Phase.txn]]
      exact ⟨hfailed, hne, hconf⟩
    | resetDone =>
      rw [show step defaults s .resetDone = s by simp [step, hconf.done]]
      exact ⟨hfailed, hne, hconf⟩
    | sample out => exact ⟨hfailed, hne, configured_congr hconf fun a ha => if_neg ha⟩
    | fetch =>
      rw [show step defaults s .fetch = s by simp [step, hfailed]]
      exact ⟨hfailed, hne, hconf⟩
  · refine Or.inr (Or.inr ⟨?_, hid⟩)
    rcases phase_step defaults s a with hsame | ⟨-, hafter⟩ | ⟨-, hfetch⟩
    · rwa [hsame]
    · rw [hafter]
      exact Or.inr (beyondReset_after hpast)
    · rw [hfetch]
      exact Or.inr trivial

theorem idOk_init (regs₀ : UInt8 → UInt8) : IdOk regs₀ (init regs₀) :=
  Or.inl ⟨rfl, rfl, ⟨rfl, fun _ _ => rfl⟩, fun hread => absurd hread not_hasRead_select⟩

theorem idOk_exec (defaults regs : UInt8 → UInt8) (acts : List Act) :
    IdOk regs (exec defaults regs acts) :=
  inv_run (step defaults) (IdOk regs) (idOk_step defaults) acts (idOk_init regs)

theorem exists_cpu {a : Act} (ha : a.isCpu = true) : ∃ junk, a = .cpu junk := by
  cases a <;> simp [Act.isCpu] at ha ⊢

/-- The others do not move the driver on. -/
theorem step_other (defaults : UInt8 → UInt8) (s : St) {a : Act} (ha : a.isCpu = false) :
    (step defaults s a).pc = s.pc ∧ (step defaults s a).dst = s.dst ∧
      ((step defaults s a).phase = s.phase ∨ s.phase = .ready) := by
  cases a with
  | cpu junk => exact absurd ha (by simp [Act.isCpu])
  | resetDone =>
    simp only [step]
    split <;> exact ⟨rfl, rfl, Or.inl rfl⟩
  | sample out => exact ⟨rfl, rfl, Or.inl rfl⟩
  | fetch =>
    simp only [step]
    split
    · rename_i hready
      exact ⟨rfl, rfl, Or.inr hready⟩
    · exact ⟨rfl, rfl, Or.inl rfl⟩

/-- CORRECT: a chip with another id keeps its registers as they are, and after five turns of the
    driver `setup` is in `error`. -/
theorem setup_refuses (defaults regs₀ : UInt8 → UInt8)
    (hid : regs₀ Reg.whoAmI.addr ≠ lsm6dsoxWhoamiId) (acts : List Act) :
    (∀ a, ¬ IsOutput a → (exec defaults regs₀ acts).sensor.regs a = regs₀ a) ∧
      (exec defaults regs₀ acts).sensor.resetting = false ∧
      (5 ≤ acts.countP Act.isCpu → (exec defaults regs₀ acts).phase = .failed) := by
  have hconf : Configured regs₀ [] (exec defaults regs₀ acts).sensor.regs
      (exec defaults regs₀ acts).sensor.resetting := by
    rcases idOk_exec defaults regs₀ acts with ⟨_, _, hconf, _⟩ | ⟨_, _, hconf⟩ | ⟨_, heq⟩
    · exact hconf
    · exact hconf
    · exact absurd heq hid
  refine ⟨hconf.regs, hconf.done, fun hturns => ?_⟩
  refine goal_of_turns (step defaults) (IdOk regs₀) (fun s => s.phase = .failed)
    (fun s => stepsLeft (.read .whoAmI 1) s.pc) Act.isCpu (idOk_step defaults) ?_ ?_ ?_ ?_ acts
    (idOk_init regs₀) hturns
  · intro s a _ hfailed
    rcases phase_step defaults s a with hsame | ⟨_, hafter⟩ | ⟨hready, _⟩
    · exact hsame.trans hfailed
    · rw [hafter, hfailed, Phase.after]
    · rw [hready] at hfailed
      exact absurd hfailed (by simp)
  · intro s a hs hnot ha
    obtain ⟨junk, rfl⟩ := exists_cpu ha
    rcases hs with ⟨hwho, hok, _, hread⟩ | ⟨hfailed, _⟩ | ⟨_, heq⟩
    · simp only [step, hwho, Phase.txn]
      rcases eq_or_ne s.pc .deselect with hend | hpc
      · refine Or.inl ?_
        simp only [txnStep, hend, hwho, Phase.after]
        rw [hread (Or.inl hend), if_pos hid]
      · exact Or.inr (stepsLeft_step hpc junk)
    · exact absurd hfailed hnot
    · exact absurd heq hid
  · intro s a _ _ ha
    exact Or.inr (le_of_eq (by rw [(step_other defaults s ha).1]))
  · exact fun s _ _ => stepsLeft_pos _ _

/-- A bus without a sensor reads zeros. -/
theorem setup_refuses_absent :
    (∀ a, ¬ IsOutput a → (exec powerOn (fun _ => 0) (turns 5)).sensor.regs a = 0) ∧
      (exec powerOn (fun _ => 0) (turns 5)).sensor.resetting = false ∧
      (5 ≤ (turns 5).countP Act.isCpu → (exec powerOn (fun _ => 0) (turns 5)).phase = .failed) :=
  setup_refuses powerOn (fun _ => 0) (by decide) (turns 5)

/-! ### The way to the end -/

/-- The driver's steps after the transaction at hand, up to the end of the first burst, if the reset
    is done. A reset bit that has been read and is set costs one more poll. -/
def Phase.stepsAfter (pc : Pc) (dst : List UInt8) : Phase → ℕ
  | .whoAmI => 4
  | .poll => if pc.HasRead ∧ dst.headD 0 &&& 1 ≠ 0 then 57 else 52
  | .config _ todo => 4 * todo.length + 16
  | .reset | .fetch | .ready | .failed => 0

/-- All its steps. -/
def left (s : St) : ℕ :=
  match s.phase.txn with
  | some t => stepsLeft t s.pc + s.phase.stepsAfter s.pc s.dst
  | none => 0

theorem left_pos (h : s.phase.txn = some t) : 0 < left s := by
  simp only [left, h]
  exact Nat.add_pos_left (stepsLeft_pos t s.pc) _

theorem left_configure (todo : List (Reg × UInt8)) (hphase : s.phase = configure todo)
    (hpc : s.pc = .select) : left s = 4 * todo.length + 16 := by
  cases todo with
  | nil => simp [left, hphase, hpc, configure, Phase.txn, stepsLeft, Phase.stepsAfter]
  | cons w todo =>
    simp only [left, hphase, hpc, configure, Phase.txn, stepsLeft, Phase.stepsAfter,
      List.length_cons]
    omega

/-- Within a transaction. A bit read when the reset is done is clear. -/
theorem left_running (hdefault : defaults Reg.ctrl3C.addr = 4) (h : Inv defaults s)
    (ht : s.phase.txn = some t) (hpc : s.pc ≠ .deselect)
    (hdone : s.phase = .poll → s.sensor.resetting = false) (junk : UInt8) :
    left (txnStep s t junk) < left s := by
  have hafter : s.phase.stepsAfter (txnStep s t junk).pc (txnStep s t junk).dst ≤
      s.phase.stepsAfter s.pc s.dst := by
    cases hphase : s.phase with
    | whoAmI | reset | config now todo | fetch | ready | failed => exact le_rfl
    | poll =>
      rw [hphase] at ht
      obtain rfl : Txn.read .ctrl3C 1 = t := Option.some.inj ht
      have hok := h.txn (.read .ctrl3C 1) (by rw [hphase]; rfl)
      have hstart := h.phase
      rw [hphase] at hstart
      have hconf : Configured defaults [] s.sensor.regs s.sensor.resetting := by
        refine hstart.1.resolve_left fun hbusy => ?_
        rw [hdone hphase] at hbusy
        exact absurd hbusy.1 (by simp)
      simp only [Phase.stepsAfter]
      by_cases hset : (txnStep s (.read .ctrl3C 1) junk).pc.HasRead ∧
          (txnStep s (.read .ctrl3C 1) junk).dst.headD 0 &&& 1 ≠ 0
      · rcases read_one hok hpc junk hset.1 with hnow | ⟨hbefore, hdst⟩
        · rw [hnow, List.headD_cons, hconf.regs _ (by decide)] at hset
          exact absurd hset.2 (by rw [written, List.foldl_nil, hdefault]; decide)
        · rw [if_pos hset, if_pos ⟨hbefore, hdst ▸ hset.2⟩]
      · rw [if_neg hset]
        split <;> omega
  have hless := stepsLeft_step (t := t) hpc junk
  simp only [left, (txnStep_stays hpc junk).1, ht]
  omega

/-- At the end of a poll or a write. -/
theorem left_ends (hpc : s.pc = .deselect)
    (hphase : s.phase = .poll ∨ ∃ now todo, s.phase = .config now todo) (junk : UInt8) :
    left (txnStep s t junk) < left s := by
  have hselect : (txnStep s t junk).pc = .select := by simp only [txnStep, hpc]
  have hnext : (txnStep s t junk).phase = s.phase.after s.dst := by simp only [txnStep, hpc]
  rcases hphase with hpoll | ⟨now, todo, hconfig⟩
  · rw [hpoll, Phase.after] at hnext
    by_cases hbit : s.dst.headD 0 &&& 1 ≠ 0
    · rw [if_pos hbit] at hnext
      simp only [left, hnext, hselect, hpoll, hpc, Phase.txn, stepsLeft, Phase.stepsAfter]
      rw [if_neg fun h => not_hasRead_select h.1, if_pos ⟨Or.inl rfl, hbit⟩]
      omega
    · rw [if_neg hbit] at hnext
      rw [left_configure configuration hnext hselect]
      simp only [left, hpoll, hpc, Phase.txn, stepsLeft, Phase.stepsAfter]
      rw [if_neg fun h => hbit h.2, show configuration.length = 9 from rfl]
      omega
  · rw [hconfig, Phase.after] at hnext
    rw [left_configure todo hnext hselect]
    simp only [left, hconfig, hpc, Phase.txn, stepsLeft, Phase.stepsAfter]
    omega

theorem left_other {a : Act} (ha : a.isCpu = false) (hready : s.phase ≠ .ready) :
    left (step defaults s a) = left s := by
  obtain ⟨hpc, hdst, hphase⟩ := step_other defaults s ha
  simp only [left, hpc, hdst, hphase.resolve_right hready]

theorem early_of_idOk (h : IdOk regs₀ s) (hid : regs₀ Reg.whoAmI.addr = lsm6dsoxWhoamiId)
    (hnot : ¬ s.phase.BeyondReset) :
    s.phase = .whoAmI ∧ (s.pc.HasRead → s.dst.headD 0 = lsm6dsoxWhoamiId) ∨
      s.phase = .reset := by
  rcases h with ⟨hwho, _, _, hread⟩ | ⟨_, hne, _⟩ | ⟨hreset | hpast, _⟩
  · exact Or.inl ⟨hwho, fun hpc => (hread hpc).trans hid⟩
  · exact absurd hid hne
  · exact Or.inr hreset
  · exact absurd hpast hnot

/-- With the right id, the reset is commanded within nine turns. -/
theorem beyondReset_exec (hdefault : defaults Reg.ctrl3C.addr = 4)
    (hid : regs₀ Reg.whoAmI.addr = lsm6dsoxWhoamiId) (acts : List Act)
    (hturns : 9 ≤ acts.countP Act.isCpu) : (exec defaults regs₀ acts).phase.BeyondReset := by
  refine goal_of_turns (step defaults) (fun s => Inv defaults s ∧ IdOk regs₀ s)
    (fun s => s.phase.BeyondReset) left Act.isCpu
    (fun s a hs => ⟨inv_step hdefault s a hs.1, idOk_step defaults s a hs.2⟩)
    (fun s a _ hs => beyondReset_step hs a) ?_ ?_ ?_ acts
    ⟨inv_init defaults regs₀, idOk_init regs₀⟩ hturns
  · rintro s a ⟨hinv, hidOk⟩ hnot ha
    obtain ⟨junk, rfl⟩ := exists_cpu ha
    rcases eq_or_ne s.pc .deselect with hend | hpc
    · rcases early_of_idOk hidOk hid hnot with ⟨hwho, hread⟩ | hreset
      · have hnext : (txnStep s (.read .whoAmI 1) junk).phase = .reset := by
          simp only [txnStep, hend]
          rw [hwho, Phase.after, hread (Or.inl hend), if_neg (not_not.mpr rfl)]
        have hselect : (txnStep s (.read .whoAmI 1) junk).pc = .select := by
          simp only [txnStep, hend]
        refine Or.inr ?_
        simp only [step, left, hnext, hselect, hend, hwho, Phase.txn, stepsLeft, Phase.stepsAfter]
        omega
      · refine Or.inl ?_
        simp only [step, hreset, Phase.txn, txnStep, hend]
        trivial
    · refine Or.inr ?_
      rcases early_of_idOk hidOk hid hnot with ⟨hphase, _⟩ | hphase
      · have ht : s.phase.txn = some (.read .whoAmI 1) := by rw [hphase]; rfl
        simp only [step, ht]
        exact left_running hdefault hinv ht hpc (by simp [hphase]) junk
      · have ht : s.phase.txn = some (.write .ctrl3C (1 ||| 4)) := by rw [hphase]; rfl
        simp only [step, ht]
        exact left_running hdefault hinv ht hpc (by simp [hphase]) junk
  · rintro s a _ hnot ha
    refine Or.inr (left_other ha fun hready => hnot ?_).le
    rw [hready]
    trivial
  · rintro s ⟨_, hidOk⟩ hnot
    rcases early_of_idOk hidOk hid hnot with ⟨hphase, _⟩ | hphase
    · exact left_pos (t := .read .whoAmI 1) (by rw [hphase]; rfl)
    · exact left_pos (t := .write .ctrl3C (1 ||| 4)) (by rw [hphase]; rfl)

/-- The reset is done, and `setup` on its way or back. -/
structure Resumed (defaults : UInt8 → UInt8) (s : St) : Prop where
  inv : Inv defaults s
  beyond : s.phase.BeyondReset
  done : s.sensor.resetting = false
  back : s.phase = .ready → s.bursts ≠ []

/-- No step of the driver starts another reset. -/
theorem done_step (h : Inv defaults s) (hbeyond : s.phase.BeyondReset)
    (hdone : s.sensor.resetting = false) (a : Act) :
    (step defaults s a).sensor.resetting = false := by
  cases a with
  | resetDone => simp only [step, hdone, Bool.false_eq_true, if_false]
  | sample out => exact hdone
  | fetch =>
    simp only [step]
    split <;> exact hdone
  | cpu junk =>
    cases ht : s.phase.txn with
    | none => simpa only [step, ht] using hdone
    | some t =>
      simp only [step, ht]
      rcases eq_or_ne s.pc .deselect with hend | hpc
      · simpa only [txnStep, hend] using hdone
      have hok := phaseOk_running ht (h.txn t ht) hpc h.phase junk
      cases hphase : s.phase with
      | whoAmI | reset | failed => rw [hphase] at hbeyond; exact hbeyond.elim
      | config now todo =>
        rw [hphase] at hok
        obtain ⟨_, _, hconf⟩ := hok
        exact hconf.done
      | fetch | ready =>
        rw [hphase] at hok
        exact hok.done
      | poll =>
        rw [hphase] at ht
        obtain rfl : Txn.read .ctrl3C 1 = t := Option.some.inj ht
        have htxn := h.txn (.read .ctrl3C 1) (by rw [hphase]; rfl)
        rw [(txnStep_frame htxn (fun _ _ _ _ => by simp) junk).2, hdone]

/-- Bursts are kept. -/
theorem bursts_step (h : s.bursts ≠ []) (a : Act) : (step defaults s a).bursts ≠ [] := by
  cases a with
  | resetDone =>
    simp only [step]
    split <;> exact h
  | sample out => exact h
  | fetch =>
    simp only [step]
    split <;> exact h
  | cpu junk =>
    cases ht : s.phase.txn with
    | none => simpa only [step, ht] using h
    | some t =>
      simp only [step, ht]
      rcases eq_or_ne s.pc .deselect with hend | hpc
      · simp only [txnStep, hend]
        split
        · simp
        · exact h
      · rwa [(txnStep_stays hpc junk).2]

theorem fetch_of_after (hready : phase ≠ .ready) (h : phase.after dst = .ready) :
    phase = .fetch := by
  have hconfigure : ∀ todo, configure todo ≠ .ready := by
    rintro (_ | _) <;> simp [configure]
  cases phase with
  | fetch => rfl
  | ready => exact absurd rfl hready
  | reset | failed => exact absurd h (by simp [Phase.after])
  | whoAmI =>
    rw [Phase.after] at h
    split at h <;> exact absurd h (by simp)
  | config now todo => exact absurd h (hconfigure todo)
  | poll =>
    rw [Phase.after] at h
    split at h
    · exact absurd h (by simp)
    · exact absurd h (hconfigure configuration)

/-- The last step of `setup`, and what it leaves. -/
theorem back_step (hback : s.phase = .ready → s.bursts ≠ []) {a : Act}
    (h : (step defaults s a).phase = .ready) : (step defaults s a).bursts ≠ [] := by
  by_cases hready : s.phase = .ready
  · exact bursts_step (hback hready) a
  rcases phase_step defaults s a with hsame | ⟨hend, hafter⟩ | ⟨hnow, _⟩
  · exact absurd (hsame.symm.trans h) hready
  · have hfetch := fetch_of_after hready (hafter.symm.trans h)
    rcases ha : a.isCpu with _ | _
    · rcases (step_other defaults s ha).2.2 with hsame | hnow
      · exact absurd (hsame.symm.trans h) hready
      · exact absurd hnow hready
    · obtain ⟨junk, rfl⟩ := exists_cpu ha
      simp [step, hfetch, Phase.txn, txnStep, hend]
  · exact absurd hnow hready

theorem resumed_step (hdefault : defaults Reg.ctrl3C.addr = 4) (s : St) (a : Act)
    (h : Resumed defaults s) : Resumed defaults (step defaults s a) where
  inv := inv_step hdefault s a h.inv
  beyond := beyondReset_step h.beyond a
  done := done_step h.inv h.beyond h.done a
  back := back_step h.back

theorem back_exec (defaults regs : UInt8 → UInt8) (acts : List Act)
    (h : (exec defaults regs acts).phase = .ready) : (exec defaults regs acts).bursts ≠ [] :=
  inv_run (step defaults) (fun s => s.phase = .ready → s.bursts ≠ [])
    (fun _ _ hback => back_step hback) acts (fun hready => absurd hready (by simp [init])) h

theorem exists_txn (hbeyond : phase.BeyondReset) (hready : phase ≠ .ready) :
    ∃ t, phase.txn = some t := by
  cases phase with
  | whoAmI | reset | failed => exact hbeyond.elim
  | ready => exact absurd rfl hready
  | poll | config now todo | fetch => exact ⟨_, rfl⟩

/-- A turn brings `setup` nearer to its end. -/
theorem resumed_turn (hdefault : defaults Reg.ctrl3C.addr = 4) (h : Resumed defaults s)
    (hnot : ¬ s.bursts ≠ []) (junk : UInt8) :
    (step defaults s (.cpu junk)).bursts ≠ [] ∨ left (step defaults s (.cpu junk)) < left s := by
  have hready : s.phase ≠ .ready := fun hready => hnot (h.back hready)
  obtain ⟨t, ht⟩ := exists_txn h.beyond hready
  simp only [step, ht]
  rcases eq_or_ne s.pc .deselect with hend | hpc
  · cases hphase : s.phase with
    | whoAmI | reset | failed => exact absurd h.beyond (by rw [hphase]; exact id)
    | ready => exact absurd hphase hready
    | poll => exact Or.inr (left_ends hend (Or.inl hphase) junk)
    | config now todo => exact Or.inr (left_ends hend (Or.inr ⟨now, todo, hphase⟩) junk)
    | fetch => exact Or.inl (by simp [txnStep, hend, hphase])
  · exact Or.inr (left_running hdefault h.inv ht hpc (fun _ => h.done) junk)

theorem left_le (h : Inv defaults s) (hbeyond : s.phase.BeyondReset) : left s ≤ 59 := by
  cases hphase : s.phase with
  | whoAmI | reset | failed => rw [hphase] at hbeyond; exact hbeyond.elim
  | ready => simp [left, hphase, Phase.txn]
  | fetch =>
    have hle := stepsLeft_read_le .outxLG 12 s.pc
    simp only [left, hphase, Phase.txn, Phase.stepsAfter]
    omega
  | config now todo =>
    have hconf := h.phase
    rw [hphase] at hconf
    obtain ⟨before, hsplit, _⟩ := hconf
    have hlength := congrArg List.length hsplit
    rw [show configuration.length = 9 from rfl, List.length_append, List.length_cons] at hlength
    have hle := stepsLeft_write_le now.1 now.2 s.pc
    simp only [left, hphase, Phase.txn, Phase.stepsAfter]
    omega
  | poll =>
    have hle := stepsLeft_read_le .ctrl3C 1 s.pc
    simp only [left, hphase, Phase.txn, Phase.stepsAfter]
    split
    · rename_i hset
      have hread : stepsLeft (.read .ctrl3C 1) s.pc ≤ 2 := by
        rcases hset.1 with hpc | hpc <;> simp [hpc, stepsLeft]
      omega
    · omega

/-- CORRECT: with the right id, once the driver has had nine turns and the reset that it has
    commanded is done, `setup` returns within 59 more turns, whatever the sensor does. -/
theorem setup_returns (defaults regs₀ : UInt8 → UInt8) (hdefault : defaults Reg.ctrl3C.addr = 4)
    (hid : regs₀ Reg.whoAmI.addr = lsm6dsoxWhoamiId) (acts more : List Act)
    (hturns : 9 ≤ acts.countP Act.isCpu)
    (hdone : (exec defaults regs₀ acts).sensor.resetting = false)
    (hmore : 59 ≤ more.countP Act.isCpu) : (exec defaults regs₀ (acts ++ more)).bursts ≠ [] := by
  have hstart := inv_exec hdefault regs₀ acts
  have hbeyond := beyondReset_exec hdefault hid acts hturns
  have hback := back_exec defaults regs₀ acts
  rw [exec, run_append]
  refine goal_of_turns (step defaults) (Resumed defaults) (fun s => s.bursts ≠ []) left Act.isCpu
    (resumed_step hdefault) (fun s a _ hs => bursts_step hs a) ?_ ?_ ?_ more
    ⟨hstart, hbeyond, hdone, hback⟩ ((left_le hstart hbeyond).trans hmore)
  · intro s a hs hnot ha
    obtain ⟨junk, rfl⟩ := exists_cpu ha
    exact resumed_turn hdefault hs hnot junk
  · exact fun s a hs hnot ha => Or.inr (left_other ha fun hready => hnot (hs.back hready)).le
  · intro s hs hnot
    obtain ⟨t, ht⟩ := exists_txn hs.beyond fun hready => hnot (hs.back hready)
    exact left_pos ht

theorem setup_returns_powerOn :
    (exec powerOn powerOn ((turns 14 ++ [.resetDone]) ++ turns 59)).bursts ≠ [] := by
  have h := setup_returns powerOn powerOn (by decide) (by decide) (turns 14 ++ [.resetDone])
    (turns 59) (by decide) (by decide +kernel) (by decide)
  exact h

end FC.Bus

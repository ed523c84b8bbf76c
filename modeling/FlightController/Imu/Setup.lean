import FlightController.Imu.Bus
import FlightController.Imu.Driver
import FlightController.Schemes.Run
import Mathlib.Data.List.Nodup
import Mathlib.Tactic.IntervalCases

/-! How `setup` of `src/imu/lsm6dsox.c` configures the IMU, whatever the sensor does in between.

    After the reset command the driver polls the command's own register until the reset bit is gone.
    A register written before that would be lost again; none is, so when `setup` has returned, the
    sensor has exactly the driver's configuration (`setup_configures`), and since the reset leaves
    the automatic increment on, a burst from `REG_OUTX_L_G` reads the twelve output registers in
    their order (`burst_reads`). -/

namespace FC.Bus
open Schemes Schemes.Bytes

variable {s : St} {t : Txn}

/-! ### Setting up -/

/-- The registers after a reset and the writes `ws`. -/
def written (defaults : UInt8 → UInt8) (ws : List (Reg × UInt8)) : UInt8 → UInt8 :=
  ws.foldl (fun regs w => Function.update regs w.1.addr w.2) defaults

/-- The reset is done, and the writes `ws` since. -/
structure Configured (defaults : UInt8 → UInt8) (ws : List (Reg × UInt8)) (regs : UInt8 → UInt8)
    (resetting : Bool) : Prop where
  done : resetting = false
  regs : ∀ a, ¬ IsOutput a → regs a = written defaults ws a

/-- The reset has been commanded: it is under way, and its bit set, or it is done. -/
def Started (defaults : UInt8 → UInt8) (regs : UInt8 → UInt8) (resetting : Bool) : Prop :=
  (resetting = true ∧ regs Reg.ctrl3C.addr &&& 1 ≠ 0) ∨ Configured defaults [] regs resetting

/-- What the place in `setup` says about the registers. -/
def PhaseOk (defaults : UInt8 → UInt8) (pc : Pc) (dst : List UInt8) (regs : UInt8 → UInt8)
    (resetting : Bool) : Phase → Prop
  | .whoAmI | .failed => True
  | .reset => pc = .deselect → Started defaults regs resetting
  | .poll => Started defaults regs resetting ∧
      (pc.HasRead → dst.headD 0 &&& 1 = 0 → Configured defaults [] regs resetting)
  | .config now todo => ∃ before, configuration = before ++ now :: todo ∧
      Configured defaults (if pc = .deselect then before ++ [now] else before) regs resetting
  | .fetch | .ready => Configured defaults configuration regs resetting

variable {defaults : UInt8 → UInt8} {ws : List (Reg × UInt8)} {regs regs' : UInt8 → UInt8}
  {resetting : Bool} {pc : Pc} {dst : List UInt8} {phase : Phase}

theorem written_concat (defaults : UInt8 → UInt8) (ws : List (Reg × UInt8)) (w : Reg × UInt8) :
    written defaults (ws ++ [w]) = Function.update (written defaults ws) w.1.addr w.2 := by
  rw [written, List.foldl_append]; rfl

/-- No write of the configuration is a second reset. -/
theorem ctrl3C_not_mem : ∀ w ∈ configuration, (w.1.addr == Reg.ctrl3C.addr) = false := by decide

theorem configured_write (h : Configured defaults ws regs resetting) {w : Reg × UInt8}
    (hw : (w.1.addr == Reg.ctrl3C.addr) = false) :
    Configured defaults (ws ++ [w]) (Function.update regs w.1.addr w.2)
      (resetting || (w.1.addr == Reg.ctrl3C.addr && w.2 &&& 1 != 0)) := by
  refine ⟨by rw [hw, h.done]; rfl, fun a ha => ?_⟩
  rw [written_concat]
  rcases eq_or_ne a w.1.addr with rfl | hne
  · rw [Function.update_self, Function.update_self]
  · rw [Function.update_of_ne hne, Function.update_of_ne hne, h.regs a ha]

/-- The output registers do not matter. -/
theorem configured_congr (h : Configured defaults ws regs resetting)
    (hsame : ∀ a, ¬ IsOutput a → regs' a = regs a) : Configured defaults ws regs' resetting :=
  ⟨h.done, fun a ha => (hsame a ha).trans (h.regs a ha)⟩

theorem started_congr (h : Started defaults regs resetting)
    (hsame : ∀ a, ¬ IsOutput a → regs' a = regs a) : Started defaults regs' resetting := by
  rcases h with ⟨hreset, hbit⟩ | hdone
  · refine Or.inl ⟨hreset, ?_⟩
    rwa [hsame _ (by decide)]
  · exact Or.inr (configured_congr hdone hsame)

theorem phaseOk_congr (h : PhaseOk defaults pc dst regs resetting phase)
    (hsame : ∀ a, ¬ IsOutput a → regs' a = regs a) :
    PhaseOk defaults pc dst regs' resetting phase := by
  cases phase with
  | whoAmI | failed => trivial
  | reset => exact fun hpc => started_congr (h hpc) hsame
  | poll =>
    exact ⟨started_congr h.1 hsame, fun hpc hbit => configured_congr (h.2 hpc hbit) hsame⟩
  | config now todo =>
    obtain ⟨before, hsplit, hconf⟩ := h
    exact ⟨before, hsplit, configured_congr hconf hsame⟩
  | fetch | ready => exact configured_congr h hsame

/-- The end of the reset can only come before the configuration. -/
theorem phaseOk_resetDone (h : PhaseOk defaults pc dst regs true phase) :
    PhaseOk defaults pc dst defaults false phase := by
  have hdone : Configured defaults [] defaults false := ⟨rfl, fun a _ => rfl⟩
  cases phase with
  | whoAmI | failed => trivial
  | reset => exact fun _ => Or.inr hdone
  | poll => exact ⟨Or.inr hdone, fun _ _ => hdone⟩
  | config now todo =>
    obtain ⟨_, _, hconf⟩ := h
    exact absurd hconf.done (by simp)
  | fetch | ready => exact absurd (Configured.done h) (by simp)

/-- The writes of the configuration go on, until none is left. -/
theorem phaseOk_configure {before todo : List (Reg × UInt8)}
    (hsplit : configuration = before ++ todo)
    (h : Configured defaults before regs resetting) :
    PhaseOk defaults .select dst regs resetting (configure todo) := by
  cases todo with
  | nil =>
    rw [List.append_nil] at hsplit
    rw [configure, PhaseOk, hsplit]
    exact h
  | cons now todo => exact ⟨before, hsplit, by simpa using h⟩

/-- The end of a transaction. -/
theorem phaseOk_after (h : PhaseOk defaults .deselect dst regs resetting phase) :
    PhaseOk defaults .select dst regs resetting (phase.after dst) := by
  cases phase with
  | whoAmI =>
    rw [Phase.after]
    split
    · trivial
    · exact fun hpc => absurd hpc (by simp)
  | reset => exact ⟨h rfl, fun hread => absurd hread not_hasRead_select⟩
  | poll =>
    rw [Phase.after]
    split
    · exact ⟨h.1, fun hread => absurd hread not_hasRead_select⟩
    · rename_i hbit
      exact phaseOk_configure (List.nil_append _).symm (h.2 (Or.inl rfl) (not_not.mp hbit))
  | config now todo =>
    obtain ⟨before, hsplit, hconf⟩ := h
    rw [if_pos rfl] at hconf
    exact phaseOk_configure (by rw [hsplit, List.append_assoc]; rfl) hconf
  | fetch => exact h
  | ready | failed => exact h

/-- A write of the driver changes a register with its last transfer, and none before. -/
theorem txnStep_write {reg : Reg} {data : UInt8}
    (hok : TxnOk (.write reg data) s.sensor.link s.dst s.pc) (hpc : s.pc ≠ .deselect)
    (junk : UInt8) :
    let s' := txnStep s (.write reg data) junk
    (s'.pc ≠ .deselect ∧ s'.sensor.regs = s.sensor.regs ∧
        s'.sensor.resetting = s.sensor.resetting) ∨
      (s'.pc = .deselect ∧ s'.sensor.regs = Function.update s.sensor.regs reg.addr data ∧
        s'.sensor.resetting =
          (s.sensor.resetting || (reg.addr == Reg.ctrl3C.addr && data &&& 1 != 0))) := by
  intro s'
  have hframe : (∀ i, s.pc ≠ .data i) →
      s'.sensor.regs = s.sensor.regs ∧ s'.sensor.resetting = s.sensor.resetting :=
    fun hdata => txnStep_frame hok (fun i _ _ hi => absurd hi (hdata i)) junk
  cases hat : s.pc with
  | deselect => exact absurd hat hpc
  | select | address => exact Or.inl ⟨by simp [s', txnStep, hat], hframe (by simp [hat])⟩
  | data i =>
    rw [hat] at hok
    refine Or.inr ?_
    simp only [s', txnStep, hat, xfer_writing hok.2, and_self]

/-- A step before the end of a transaction. -/
theorem phaseOk_running (ht : s.phase.txn = some t) (hok : TxnOk t s.sensor.link s.dst s.pc)
    (hpc : s.pc ≠ .deselect)
    (h : PhaseOk defaults s.pc s.dst s.sensor.regs s.sensor.resetting s.phase) (junk : UInt8) :
    PhaseOk defaults (txnStep s t junk).pc (txnStep s t junk).dst (txnStep s t junk).sensor.regs
      (txnStep s t junk).sensor.resetting s.phase := by
  cases hphase : s.phase with
  | ready | failed => rw [hphase] at ht; exact absurd ht (by simp [Phase.txn])
  | whoAmI => trivial
  | reset =>
    rw [hphase] at ht
    obtain rfl : Txn.write .ctrl3C (1 ||| 4) = t := Option.some.inj ht
    rcases txnStep_write hok hpc junk with ⟨hrun, -⟩ | ⟨-, hregs, hreset⟩
    · exact fun hend => absurd hend hrun
    · refine fun _ => Or.inl ⟨?_, ?_⟩
      · rw [hreset]
        exact (Bool.or_eq_true _ _).mpr (Or.inr (by decide))
      · rw [hregs, Function.update_self]
        decide
  | poll =>
    rw [hphase] at ht h
    obtain rfl : Txn.read .ctrl3C 1 = t := Option.some.inj ht
    obtain ⟨hregs, hreset⟩ := txnStep_frame hok (fun _ _ _ _ => by simp) junk
    rw [hregs, hreset]
    refine ⟨h.1, fun hread hbit => ?_⟩
    rcases read_one hok hpc junk hread with hnow | ⟨hbefore, hdst⟩
    · -- the bit has just been read
      rw [hnow] at hbit
      exact h.1.resolve_left fun hbusy => hbusy.2 hbit
    · exact h.2 hbefore (by rwa [hdst] at hbit)
  | config now todo =>
    rw [hphase] at ht h
    obtain rfl : Txn.write now.1 now.2 = t := Option.some.inj ht
    obtain ⟨before, hsplit, hconf⟩ := h
    rw [if_neg hpc] at hconf
    refine ⟨before, hsplit, ?_⟩
    rcases txnStep_write hok hpc junk with ⟨hrun, hregs, hreset⟩ | ⟨hend, hregs, hreset⟩
    · rw [if_neg hrun, hregs, hreset]
      exact hconf
    · rw [if_pos hend, hregs, hreset]
      exact configured_write hconf (ctrl3C_not_mem now (by rw [hsplit]; simp))
  | fetch =>
    rw [hphase] at ht h
    obtain rfl : Txn.read .outxLG 12 = t := Option.some.inj ht
    obtain ⟨hregs, hreset⟩ := txnStep_frame hok (fun _ _ _ _ => by simp) junk
    rw [hregs, hreset]
    exact h

theorem written_of_not_mem {a : UInt8} (h : ∀ w ∈ ws, w.1.addr ≠ a) :
    written defaults ws a = defaults a := by
  induction ws using List.reverseRecOn with
  | nil => rfl
  | append_singleton ws w ih =>
    rw [written_concat, Function.update_of_ne (h w (by simp)).symm]
    exact ih fun v hv => h v (List.mem_append_left _ hv)

/-- Each register is written once, so it keeps what was written. -/
theorem written_of_mem (hnodup : (ws.map (·.1.addr)).Nodup) {w : Reg × UInt8} (hw : w ∈ ws) :
    written defaults ws w.1.addr = w.2 := by
  induction ws using List.reverseRecOn with
  | nil => exact absurd hw List.not_mem_nil
  | append_singleton ws v ih =>
    rw [List.map_append, List.nodup_append] at hnodup
    obtain ⟨hws, _, hapart⟩ := hnodup
    rw [written_concat]
    rcases List.mem_append.mp hw with hold | hnew
    · have hne : w.1.addr ≠ v.1.addr :=
        hapart _ (List.mem_map_of_mem hold) _ (by simp)
      rw [Function.update_of_ne hne]
      exact ih hws hold
    · rw [List.mem_singleton.mp hnew, Function.update_self]

/-! ### Bursts -/

/-- The burst at hand: without a new sample, the registers are those at its start, and the bytes
    read so far come from the first of them. -/
def BurstOk (seen regs : UInt8 → UInt8) (torn : Bool) (dst : List UInt8) (pc : Pc) : Prop :=
  torn = false →
    match pc with
    | .select => True
    | .address => regs = seen
    | .data i =>
      regs = seen ∧ dst = (List.range i).map fun k => seen (Reg.outxLG.addr + UInt8.ofNat k)
    | .deselect => dst = (List.range 12).map fun k => seen (Reg.outxLG.addr + UInt8.ofNat k)

/-- A finished burst. -/
structure Burst.Whole (b : Burst) : Prop where
  length : b.bytes.length = 12
  bytes : b.torn = false →
    b.bytes = (List.range 12).map fun k => b.seen (Reg.outxLG.addr + UInt8.ofNat k)

theorem burstOk_step (hok : TxnOk (.read .outxLG 12) s.sensor.link s.dst s.pc)
    (hpc : s.pc ≠ .deselect) (h : BurstOk s.seen s.sensor.regs s.torn s.dst s.pc) (junk : UInt8) :
    let s' := txnStep s (.read .outxLG 12) junk
    BurstOk s'.seen s'.sensor.regs s'.torn s'.dst s'.pc := by
  intro s'
  cases hat : s.pc with
  | deselect => exact absurd hat hpc
  | select => simp [s', txnStep, hat, BurstOk]
  | address =>
    rw [hat] at hok h
    simp only [s', txnStep, hat, xfer_address hok.1]
    exact fun htorn => ⟨h htorn, by simp [hok.2]⟩
  | data i =>
    rw [hat] at hok h
    obtain ⟨hle, hlen, hlink⟩ := hok
    rcases Nat.lt_or_ge i 12 with hlt | hge
    · simp only [s', txnStep, hat, if_pos hlt, xfer_reading (hlink hlt)]
      intro htorn
      obtain ⟨hregs, hdst⟩ := h htorn
      refine ⟨hregs, ?_⟩
      rw [List.range_succ, List.map_append, ← hdst, hregs]
      rfl
    · simp only [s', txnStep, hat, if_neg (Nat.not_lt.mpr hge)]
      intro htorn
      rw [(h htorn).2, Nat.le_antisymm hle hge]

/-! ### Runs -/

/-- What a run keeps. -/
structure Inv (defaults : UInt8 → UInt8) (s : St) : Prop where
  txn : ∀ t, s.phase.txn = some t → TxnOk t s.sensor.link s.dst s.pc
  idle : s.phase.txn = none → s.pc = .select ∧ s.sensor.link = .high
  phase : PhaseOk defaults s.pc s.dst s.sensor.regs s.sensor.resetting s.phase
  burst : s.phase = .fetch → BurstOk s.seen s.sensor.regs s.torn s.dst s.pc
  bursts : ∀ b ∈ s.bursts, b.Whole

/-- In `fetch_raw_data` the increment is on: the reset has left it so, and no write touches it. -/
theorem inc_of_configured (hdefault : defaults Reg.ctrl3C.addr = 4)
    (h : Configured defaults configuration regs resetting) :
    regs Reg.ctrl3C.addr &&& 4 ≠ 0 := by
  have hval : regs Reg.ctrl3C.addr = 4 := by
    rw [h.regs _ (by decide), written_of_not_mem, hdefault]
    exact fun w hw => ne_of_beq_false (ctrl3C_not_mem w hw)
  rw [hval]
  decide

/-- Until its last step a transaction stays where it is in `setup`. -/
theorem txnStep_stays (hpc : s.pc ≠ .deselect) (junk : UInt8) :
    (txnStep s t junk).phase = s.phase ∧ (txnStep s t junk).bursts = s.bursts := by
  cases hat : s.pc with
  | deselect => exact absurd hat hpc
  | select | address => simp only [txnStep, hat, and_self]
  | data i =>
    cases t with
    | write reg data => simp only [txnStep, hat, and_self]
    | read reg n =>
      simp only [txnStep, hat]
      split <;> exact ⟨rfl, rfl⟩

/-- The only longer read is the burst. -/
theorem fetch_of_longer {reg : Reg} {n : ℕ} (ht : phase.txn = some (.read reg n)) (hn : 1 < n) :
    phase = .fetch := by
  cases phase with
  | fetch => rfl
  | whoAmI | poll =>
    obtain ⟨_, rfl⟩ := Txn.read.inj (Option.some.inj ht)
    exact absurd hn (Nat.lt_irrefl 1)
  | reset | config now todo => exact absurd (Option.some.inj ht) (by simp)
  | ready | failed => exact absurd ht (by simp [Phase.txn])

theorem inv_cpu (hdefault : defaults Reg.ctrl3C.addr = 4) (h : Inv defaults s)
    (ht : s.phase.txn = some t) (junk : UInt8) : Inv defaults (txnStep s t junk) := by
  obtain ⟨htxn, hidle, hphase, hburst, hbursts⟩ := h
  have hok := htxn t ht
  rcases eq_or_ne s.pc .deselect with hend | hpc
  · -- the transaction ends, and the next one has not begun
    rw [hend] at hphase hok hburst
    simp only [txnStep, hend]
    refine ⟨fun _ _ => rfl, fun _ => ⟨rfl, rfl⟩, phaseOk_after hphase, ?_, ?_⟩
    · exact fun _ _ => trivial
    · split
      · rename_i hfetch
        intro b hb
        rcases List.mem_append.mp hb with hold | hnew
        · exact hbursts b hold
        · rw [hfetch] at ht
          obtain rfl : Txn.read .outxLG 12 = t := Option.some.inj ht
          rw [List.mem_singleton.mp hnew]
          exact ⟨hok, hburst hfetch⟩
      · exact hbursts
  · have hsame := txnStep_stays (t := t) hpc junk
    have hinc : ∀ reg n, t = .read reg n → 1 < n →
        s.sensor.regs Reg.ctrl3C.addr &&& 4 ≠ 0 := by
      rintro reg n rfl hn
      rw [fetch_of_longer ht hn] at hphase
      exact inc_of_configured hdefault hphase
    refine ⟨fun t' ht' => ?_, fun hnone => ?_, ?_, fun hfetch => ?_, ?_⟩
    · rw [hsame.1, ht] at ht'
      obtain rfl := Option.some.inj ht'
      exact txnOk_step hok hpc hinc junk
    · rw [hsame.1, ht] at hnone
      exact absurd hnone (by simp)
    · rw [hsame.1]
      exact phaseOk_running ht hok hpc hphase junk
    · rw [hsame.1] at hfetch
      have hburst' := hburst hfetch
      rw [hfetch] at ht
      obtain rfl : Txn.read .outxLG 12 = t := Option.some.inj ht
      exact burstOk_step hok hpc hburst' junk
    · rw [hsame.2]
      exact hbursts

/-- A finished reset and a new sample leave the bus alone, and a burst under way with a new sample
    is torn. -/
theorem inv_step (hdefault : defaults Reg.ctrl3C.addr = 4) (s : St) (a : Act)
    (h : Inv defaults s) : Inv defaults (step defaults s a) := by
  cases a with
  | cpu junk =>
    cases ht : s.phase.txn with
    | none => simpa only [step, ht] using h
    | some t => simpa only [step, ht] using inv_cpu hdefault h ht junk
  | resetDone =>
    cases hreset : s.sensor.resetting with
    | false => simpa [step, hreset] using h
    | true =>
      have hphase := h.phase
      rw [hreset] at hphase
      simp only [step, hreset, if_true]
      refine ⟨h.txn, h.idle, phaseOk_resetDone hphase, fun hfetch => ?_, h.bursts⟩
      rw [show s.phase = .fetch from hfetch] at hphase
      exact absurd hphase.done (by simp)
  | sample out =>
    refine ⟨h.txn, h.idle, phaseOk_congr h.phase fun a ha => if_neg ha, fun _ htorn => ?_,
      h.bursts⟩
    exact absurd htorn (by simp [step])
  | fetch =>
    by_cases hready : s.phase = .ready
    · obtain ⟨hpc, hlink⟩ := h.idle (by rw [hready]; rfl)
      have hphase := h.phase
      rw [hready] at hphase
      simp only [step, if_pos hready]
      refine ⟨fun t _ => ?_, fun hnone => absurd hnone (by simp [Phase.txn]), hphase,
        fun _ _ => ?_, h.bursts⟩
      · simp only [hpc]
        exact hlink
      · simp only [hpc]
    · simpa only [step, if_neg hready] using h

theorem inv_init (defaults regs : UInt8 → UInt8) : Inv defaults (init regs) where
  txn _ _ := rfl
  idle h := absurd h (by simp [init, Phase.txn])
  phase := trivial
  burst h := absurd h (by simp [init])
  bursts _ h := absurd h List.not_mem_nil

theorem inv_exec (hdefault : defaults Reg.ctrl3C.addr = 4) (regs : UInt8 → UInt8)
    (acts : List Act) : Inv defaults (exec defaults regs acts) :=
  inv_run (step defaults) (Inv defaults) (inv_step hdefault) acts (inv_init defaults regs)

/-! ### The configuration and the samples -/

/-- A sensor after power-on: its id, and the default of `CTRL3_C`. -/
def powerOn (a : UInt8) : UInt8 :=
  if a = Reg.whoAmI.addr then lsm6dsoxWhoamiId else if a = Reg.ctrl3C.addr then 4 else 0

/-- Turns of the driver. -/
def turns (n : ℕ) : List Act := List.replicate n (.cpu 0xff)

/-- The reset takes a while; a sample comes in before the first burst. -/
def bringUp : List Act :=
  turns 14 ++ [.resetDone] ++ turns 30 ++ [.sample fun a => a] ++ turns 29

/-- CORRECT: when `setup` has returned, each register that it configures has its value, and each
    other one its default, but for those that the sensor itself changes. -/
theorem setup_configures (hdefault : defaults Reg.ctrl3C.addr = 4) (regs : UInt8 → UInt8)
    (acts : List Act) (hready : (exec defaults regs acts).phase = .ready) :
    (∀ w ∈ configuration, (exec defaults regs acts).sensor.regs w.1.addr = w.2) ∧
      ∀ a, ¬ IsOutput a → (∀ w ∈ configuration, w.1.addr ≠ a) →
        (exec defaults regs acts).sensor.regs a = defaults a := by
  have hphase := (inv_exec hdefault regs acts).phase
  rw [hready] at hphase
  have houtput : ∀ w ∈ configuration, ¬ IsOutput w.1.addr := by decide
  refine ⟨fun w hw => ?_, fun a ha hapart => ?_⟩
  · rw [hphase.regs _ (houtput w hw)]
    exact written_of_mem (by decide) hw
  · rw [hphase.regs a ha, written_of_not_mem hapart]

theorem setup_configures_bringUp :
    (∀ w ∈ configuration, (exec powerOn powerOn bringUp).sensor.regs w.1.addr = w.2) ∧
      ∀ a, ¬ IsOutput a → (∀ w ∈ configuration, w.1.addr ≠ a) →
        (exec powerOn powerOn bringUp).sensor.regs a = powerOn a :=
  setup_configures (by decide) powerOn bringUp (by decide +kernel)

/-- The `k`-th word of the sample in the registers. -/
def outputWord (regs : UInt8 → UInt8) (k : ℕ) : Int16 :=
  (UInt16.ofNat (ofLe [regs (Reg.outxLG.addr + UInt8.ofNat (2 * k)),
    regs (Reg.outxLG.addr + UInt8.ofNat (2 * k + 1))])).toInt16

/-- The bytes of a burst, as `fetch_raw_data` has them. -/
def Burst.Whole.image {b : Burst} (h : b.Whole) : RegImage :=
  ⟨b.bytes.toArray, by rw [List.size_toArray, h.length]⟩

theorem Burst.Whole.word {b : Burst} (h : b.Whole) (htorn : b.torn = false) {k : ℕ} (hk : k < 6) :
    h.image.word k = outputWord b.seen k := by
  have hbytes : h.image.toList = b.bytes := rfl
  rw [RegImage.word, hbytes, h.bytes htorn]
  interval_cases k <;> rfl

/-- CORRECT: every burst of every run gets the six words of the sample that was there at its start,
    with the signs of `fetch_raw_data`, if no new one has come in between. -/
theorem burst_reads (hdefault : defaults Reg.ctrl3C.addr = 4) (regs : UInt8 → UInt8)
    (acts : List Act) : ∀ b ∈ (exec defaults regs acts).bursts, ∃ image : RegImage,
      image.toList = b.bytes ∧ (b.torn = false → ∀ d : Lsm6dsox,
        (d.fetchRawData image).latestRaw =
          ⟨outputWord b.seen 0, outputWord b.seen 1, -outputWord b.seen 2,
            outputWord b.seen 3, -outputWord b.seen 4, outputWord b.seen 5⟩) := by
  intro b hb
  have hwhole := (inv_exec hdefault regs acts).bursts b hb
  refine ⟨hwhole.image, rfl, fun htorn d => ?_⟩
  have hword : ∀ k < 6, hwhole.image.word k = outputWord b.seen k := fun k hk =>
    hwhole.word htorn hk
  simp [Lsm6dsox.fetchRawData, RegImage.raw, hword]

theorem burst_reads_bringUp :
    (exec powerOn powerOn bringUp).bursts.map (·.torn) = [false] ∧
      ∀ b ∈ (exec powerOn powerOn bringUp).bursts, ∃ image : RegImage,
        image.toList = b.bytes ∧ (b.torn = false → ∀ d : Lsm6dsox,
          (d.fetchRawData image).latestRaw =
            ⟨outputWord b.seen 0, outputWord b.seen 1, -outputWord b.seen 2,
              outputWord b.seen 3, -outputWord b.seen 4, outputWord b.seen 5⟩) :=
  ⟨by decide +kernel, burst_reads (by decide) powerOn bringUp⟩

end FC.Bus

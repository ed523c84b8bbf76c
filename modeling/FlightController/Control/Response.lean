import FlightController.Control.Mirror

/-! How the motors answer the sticks. Move one stick further, throughout a flight or for a while,
    and leave all else as it is, the measurements included: then the output of its axis never goes
    the other way, the other axes do not notice, and each motor's throttle moves the way the mixer's
    table says, as long as the mixes fit 16 bits (`stick_monotone`). The integral remembers an
    earlier stick position, but never against the present one; and the derivative term looks at the
    measurement only, so a jump of the stick gives no kick. -/

namespace FC.Control
open Schemes

/-- The input `i'` is `i` with the stick of the axis at a higher value. -/
structure Raised (axis : PidAxis) (i i' : Input) : Prop where
  stick : Fc.stick i.rx axis ≤ Fc.stick i'.rx axis
  others : ∀ axis', axis' ≠ axis → Fc.stick i'.rx axis' = Fc.stick i.rx axis'
  throttle : i'.rx.throttle = i.rx.throttle
  update : i'.update = i.update
  nowUs : i'.nowUs = i.nowUs
  ub : i'.ub = i.ub

/-- The motors that an output of the axis speeds up; the others it slows down. -/
def pushes : PidAxis → EscPosition → Bool
  | .roll, .frontLeft | .roll, .backLeft => true
  | .pitch, .backLeft | .pitch, .backRight => true
  | .yaw, .frontRight | .yaw, .backLeft => true
  | _, _ => false

/-- The mixes that the motors get in an iteration that ends in the state `s`. -/
def mixes (s : St) (i : Input) : PerMotor ℚ :=
  Mixing.mix s.out.rollOut s.out.pitchOut s.out.yawOut i.rx.throttle

/-! ### One PID -/

/-- The same PID but for an integral error that is ahead. -/
structure Ahead (pid pid' : Pid ℚ) : Prop where
  time : pid'.prevTimeUs = pid.prevTimeUs
  actual : pid'.prevActual = pid.prevActual
  gains : pid'.kp = pid.kp ∧ pid'.ki = pid.ki ∧ pid'.kd = pid.kd
  nonneg : 0 ≤ pid.kp ∧ 0 ≤ pid.ki
  integral : pid.integralErr ≤ pid'.integralErr

theorem clamp_le_clamp {limit x y : ℚ} (hlimit : 0 ≤ limit) (h : x ≤ y) :
    clamp x (-limit) limit ≤ clamp y (-limit) limit := by
  rw [clamp_neg hlimit, clamp_neg hlimit]
  exact max_le_max_left _ (min_le_min_left _ h)

/-- A higher setpoint makes for a higher output, and an integral error ahead. -/
theorem ahead_update {pid pid' : Pid ℚ} {desired desired' limit : ℚ} (h : Ahead pid pid')
    (hd : desired ≤ desired') (hlimit : 0 ≤ limit) (actual : ℚ) (nowUs : UInt32)
    (integrate : Bool) :
    (Pid.pidUpdate desired actual pid nowUs integrate limit).1 ≤
        (Pid.pidUpdate desired' actual pid' nowUs integrate limit).1 ∧
      Ahead (Pid.pidUpdate desired actual pid nowUs integrate limit).2
        (Pid.pidUpdate desired' actual pid' nowUs integrate limit).2 := by
  obtain ⟨htime, hactual, ⟨hkp, hki, hkd⟩, ⟨hkp0, hki0⟩, hint⟩ := h
  by_cases hfirst : pid.prevTimeUs = 0
  · simp only [Pid.pidUpdate, htime, hfirst, if_true]
    exact ⟨le_rfl, rfl, rfl, ⟨hkp, hki, hkd⟩, ⟨hkp0, hki0⟩, le_rfl⟩
  by_cases hsame : nowUs - pid.prevTimeUs = 0
  · simp only [Pid.pidUpdate, htime, hfirst, hsame, if_true, if_false]
    exact ⟨le_rfl, htime, hactual, ⟨hkp, hki, hkd⟩, ⟨hkp0, hki0⟩, hint⟩
  have hdt : (0 : ℚ) ≤ (nowUs - pid.prevTimeUs).toNat * (1 / 1000000) := by positivity
  have herr : desired - actual ≤ desired' - actual := sub_le_sub_right hd _
  have hint' : (if integrate then pid.integralErr +
        (desired - actual) * ((nowUs - pid.prevTimeUs).toNat * (1 / 1000000))
      else pid.integralErr) ≤
      (if integrate then pid'.integralErr +
        (desired' - actual) * ((nowUs - pid.prevTimeUs).toNat * (1 / 1000000))
      else pid'.integralErr) := by
    split
    · exact add_le_add hint (mul_le_mul_of_nonneg_right herr hdt)
    · exact hint
  simp only [Pid.pidUpdate, htime, hactual, hkp, hki, hkd, hfirst, hsame, if_false]
  refine ⟨?_, rfl, rfl, ⟨rfl, rfl, rfl⟩, ⟨hkp0, hki0⟩, hint'⟩
  exact add_le_add (add_le_add (mul_le_mul_of_nonneg_left herr hkp0)
    (clamp_le_clamp hlimit (mul_le_mul_of_nonneg_left hint' hki0))) le_rfl

/-! ### All axes -/

/-- A higher stick asks for a higher setpoint. -/
theorem desired_mono (mode : FlightMode) {axis : PidAxis} {rx rx' : RxSample}
    (h : Fc.stick rx axis ≤ Fc.stick rx' axis) :
    Fc.desired mode rx axis ≤ Fc.desired mode rx' axis := by
  have hle : ((Fc.stick rx axis).toNat : ℚ) ≤ (Fc.stick rx' axis).toNat := by
    exact_mod_cast UInt16.le_iff_toNat_le.mp h
  have hpos := Fc.envelope_pos mode axis
  rw [Fc.desired_eq, Fc.desired_eq]
  simp only [mapIntoRange, rxRangeMin, rxRangeMax]
  norm_num
  gcongr

/-- The state `s'` is `s` but for the axis, which is ahead. -/
structure Leads (axis : PidAxis) (s s' : St) : Prop where
  angles : s'.angles = s.angles
  mode : s'.fc.mode = s.fc.mode
  pid : Ahead (s.fc.fcGetPid axis) (s'.fc.fcGetPid axis)
  others : ∀ axis', axis' ≠ axis → s'.fc.fcGetPid axis' = s.fc.fcGetPid axis'
  out : Fc.axisOut s.out axis ≤ Fc.axisOut s'.out axis
  outs : ∀ axis', axis' ≠ axis → Fc.axisOut s'.out axis' = Fc.axisOut s.out axis'

theorem axisOut_fcUpdate (fc : Fc) (rx : RxSample) (angles : ImuAngles ℚ) (si : ImuSi ℚ)
    (nowUs : UInt32) (axis : PidAxis) :
    Fc.axisOut (Fc.fcUpdate fc rx angles si nowUs).1 axis =
      (Fc.axisUpdate fc rx angles si nowUs axis).1 := by
  cases axis <;> rfl

theorem leads_step {axis : PidAxis} {s s' : St} {i i' : Input} (h : Leads axis s s')
    (hi : Raised axis i i') : Leads axis (step s i) (step s' i') := by
  obtain ⟨hangles, hmode, haxis, hothers, -, -⟩ := h
  have hint : Fc.integrate i'.rx = Fc.integrate i.rx := by
    rw [Fc.integrate, Fc.integrate, hi.throttle]
  set angles := Imu.updateComplementaryFilter s.angles i.update with hangles'
  have hsame : Imu.updateComplementaryFilter s'.angles i'.update = angles := by
    rw [hangles, hi.update]
  -- the axis with the raised stick
  have hahead := ahead_update haxis (desired_mono s.fc.mode hi.stick)
    (itermLimit_nonneg i.rx.throttle) (Fc.actual s.fc.mode angles i.update.sample.si axis) i.nowUs
    (Fc.integrate i.rx)
  have hcall : Fc.axisUpdate s'.fc i'.rx angles i'.update.sample.si i'.nowUs axis =
      Pid.pidUpdate (Fc.desired s.fc.mode i'.rx axis)
        (Fc.actual s.fc.mode angles i.update.sample.si axis) (s'.fc.fcGetPid axis) i.nowUs
        (Fc.integrate i.rx) (Fc.itermLimit i.rx.throttle) := by
    rw [Fc.axisUpdate, hmode, hi.update, hi.nowUs, hint, hi.throttle]
  -- the others
  have hrest : ∀ axis', axis' ≠ axis →
      Fc.axisUpdate s'.fc i'.rx angles i'.update.sample.si i'.nowUs axis' =
        Fc.axisUpdate s.fc i.rx angles i.update.sample.si i.nowUs axis' := by
    intro axis' hne
    have hdesired : Fc.desired s.fc.mode i'.rx axis' = Fc.desired s.fc.mode i.rx axis' := by
      rw [Fc.desired_eq, Fc.desired_eq, hi.others axis' hne]
    rw [Fc.axisUpdate, Fc.axisUpdate, hmode, hi.update, hi.nowUs, hint, hi.throttle, hdesired,
      hothers axis' hne]
  refine ⟨hsame, hmode, ?_, fun axis' hne => ?_, ?_, fun axis' hne => ?_⟩
  · simp only [step, hsame, Fc.fcGetPid_fcUpdate, hcall]
    exact hahead.2
  · show (Fc.fcUpdate s'.fc i'.rx (Imu.updateComplementaryFilter s'.angles i'.update)
      _ _).2.fcGetPid axis' = (Fc.fcUpdate s.fc i.rx angles _ _).2.fcGetPid axis'
    rw [hsame, Fc.fcGetPid_fcUpdate, Fc.fcGetPid_fcUpdate, hrest axis' hne]
  · simp only [step, hsame, axisOut_fcUpdate, hcall]
    exact hahead.1
  · show Fc.axisOut (Fc.fcUpdate s'.fc i'.rx
      (Imu.updateComplementaryFilter s'.angles i'.update) _ _).1 axis' =
        Fc.axisOut (Fc.fcUpdate s.fc i.rx angles _ _).1 axis'
    rw [hsame, axisOut_fcUpdate, axisOut_fcUpdate, hrest axis' hne]

theorem leads_start (axis : PidAxis) (mode : FlightMode) :
    Leads axis (start mode) (start mode) := by
  refine ⟨rfl, rfl, ⟨rfl, rfl, ⟨rfl, rfl, rfl⟩, ?_, le_rfl⟩, fun _ _ => rfl, le_rfl, fun _ _ => rfl⟩
  cases axis <;> norm_num [start, Fc.fcSetup, Fc.fcGetPid, Pid.pidSetup, Fc.kpRollPitch,
    Fc.kiRollPitch, Fc.kpYaw, Fc.kiYaw]

/-! ### The motors -/

/-- The conversion and the clamp keep the order of mixes that fit. -/
theorem toThrottle_mono {ub : ℚ → UInt16} {x y : ℚ} (hx : Mixing.Fits x) (hy : Mixing.Fits y)
    (h : x ≤ y) : Mixing.toThrottle ub x ≤ Mixing.toThrottle ub y := by
  have hfloor : ⌊x⌋₊ ≤ ⌊y⌋₊ := Nat.floor_le_floor h
  rw [UInt16.le_iff_toNat_le, Mixing.toThrottle_toNat, Mixing.toThrottle_toNat,
    toUint16_toNat hx.1 hx.2, toUint16_toNat hy.1 hy.2]
  omega

/-- A higher output of one axis moves every mix the way the table says. -/
theorem mix_mono {axis : PidAxis} {s s' : St} {i i' : Input} (h : Leads axis s s')
    (hi : Raised axis i i') (pos : EscPosition) :
    if pushes axis pos then (mixes s i).get pos ≤ (mixes s' i').get pos
    else (mixes s' i').get pos ≤ (mixes s i).get pos := by
  have hout := h.out
  have houts := h.outs
  cases axis with
  | pitch =>
    have hroll : s'.out.rollOut = s.out.rollOut := houts .roll (by simp)
    have hyaw : s'.out.yawOut = s.out.yawOut := houts .yaw (by simp)
    have hpitch : s.out.pitchOut ≤ s'.out.pitchOut := hout
    cases pos <;> simp only [pushes, mixes, Mixing.mix, Mixing.pidScaler, PerMotor.get, hi.throttle,
      hroll, hyaw, if_true, Bool.false_eq_true, if_false] <;> linarith
  | roll =>
    have hpitch : s'.out.pitchOut = s.out.pitchOut := houts .pitch (by simp)
    have hyaw : s'.out.yawOut = s.out.yawOut := houts .yaw (by simp)
    have hroll : s.out.rollOut ≤ s'.out.rollOut := hout
    cases pos <;> simp only [pushes, mixes, Mixing.mix, Mixing.pidScaler, PerMotor.get, hi.throttle,
      hpitch, hyaw, if_true, Bool.false_eq_true, if_false] <;> linarith
  | yaw =>
    have hpitch : s'.out.pitchOut = s.out.pitchOut := houts .pitch (by simp)
    have hroll : s'.out.rollOut = s.out.rollOut := houts .roll (by simp)
    have hyaw : s.out.yawOut ≤ s'.out.yawOut := hout
    cases pos <;> simp only [pushes, mixes, Mixing.mix, Mixing.pidScaler, PerMotor.get, hi.throttle,
      hpitch, hroll, if_true, Bool.false_eq_true, if_false] <;> linarith

/-- The throttles of an iteration are its mixes, converted and clamped, above the cut-off. -/
theorem throttles_step (s : St) (i : Input) (pos : EscPosition) :
    (step s i).throttles.get pos =
      if i.rx.throttle ≤ Mixing.cutoffThrottle then escMinThrottle
      else Mixing.toThrottle (i.ub pos) ((mixes (step s i) i).get pos) := by
  by_cases hcut : i.rx.throttle ≤ Mixing.cutoffThrottle
  · rw [if_pos hcut]
    simp only [step, Mixing.motorMixing_of_cutoff hcut, disarmed, PerMotor.get_all]
  · rw [if_neg hcut]
    exact Mixing.get_motorMixing (UInt16.not_le.mp hcut) pos

/-- CORRECT: in each mode and for each axis, a stick held further (or as far) in every iteration of
    a flight gives an output of its axis that is not lower, the same outputs of the other axes, and,
    where the mixes fit 16 bits, throttles that are not lower for the motors that the axis speeds up
    and not higher for those that it slows down. -/
theorem stick_monotone (mode : FlightMode) (axis : PidAxis) {inputs inputs' : List Input}
    {i i' : Input} (h : List.Forall₂ (Raised axis) inputs inputs') (hi : Raised axis i i') :
    let s := exec mode (inputs ++ [i])
    let s' := exec mode (inputs' ++ [i'])
    Fc.axisOut s.out axis ≤ Fc.axisOut s'.out axis ∧
      (∀ axis', axis' ≠ axis → Fc.axisOut s'.out axis' = Fc.axisOut s.out axis') ∧
      ∀ pos, Mixing.Fits ((mixes s i).get pos) → Mixing.Fits ((mixes s' i').get pos) →
        if pushes axis pos then s.throttles.get pos ≤ s'.throttles.get pos
        else s'.throttles.get pos ≤ s.throttles.get pos := by
  have hbefore := rel_run step step (R := Leads axis) (fun _ _ _ _ hR hA => leads_step hR hA) h
    (leads_start axis mode)
  have hlead : Leads axis (exec mode (inputs ++ [i])) (exec mode (inputs' ++ [i'])) := by
    rw [exec, exec, run_concat, run_concat]
    exact leads_step hbefore hi
  intro s s'
  refine ⟨hlead.out, hlead.outs, fun pos hfits hfits' => ?_⟩
  have hmix := mix_mono hlead hi pos
  have hs : s = step (run step (start mode) inputs) i := run_concat ..
  have hs' : s' = step (run step (start mode) inputs') i' := run_concat ..
  have hthrottle := throttles_step (run step (start mode) inputs) i pos
  have hthrottle' := throttles_step (run step (start mode) inputs') i' pos
  rw [← hs] at hthrottle
  rw [← hs', hi.throttle, hi.ub] at hthrottle'
  rw [hthrottle, hthrottle']
  by_cases hcut : i.rx.throttle ≤ Mixing.cutoffThrottle
  · simp only [if_pos hcut]
    split <;> exact UInt16.le_refl _
  · simp only [if_neg hcut]
    split
    · next hpush =>
      rw [if_pos hpush] at hmix
      exact toThrottle_mono hfits hfits' hmix
    · next hpush =>
      rw [if_neg hpush] at hmix
      exact toThrottle_mono hfits' hfits hmix

/-- The turn with the roll stick further to the right. -/
def turningMore (nowUs : UInt32) : Input :=
  { turning nowUs with
    rx := ⟨1900, 1400, 1500, 1450, 1500, 1500, 1500, 1500, 1500, 1500, 1500, 1500, 1500, 1500⟩ }

theorem turning_raised (nowUs : UInt32) : Raised .roll (turning nowUs) (turningMore nowUs) := by
  refine ⟨(by decide : (1700 : UInt16) ≤ 1900), fun axis hne => ?_, rfl, rfl, rfl, rfl⟩
  cases axis with
  | pitch => rfl
  | roll => exact absurd rfl hne
  | yaw => rfl

theorem stick_monotone_turning :
    let s := exec .stabilize ([turning 1000] ++ [turning 3000])
    let s' := exec .stabilize ([turningMore 1000] ++ [turningMore 3000])
    Fc.axisOut s.out .roll ≤ Fc.axisOut s'.out .roll ∧
      s.throttles.get .frontLeft ≤ s'.throttles.get .frontLeft := by
  have h := stick_monotone .stabilize .roll (.cons (turning_raised 1000) .nil) (turning_raised 3000)
  exact ⟨h.1, h.2.2 .frontLeft (by decide +kernel) (by decide +kernel)⟩

end FC.Control

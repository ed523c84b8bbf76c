import FlightController.Control.Pid
import FlightController.Schemes.Run

/-! Runs of the PID controller: any sequence of `pid_update` calls after `pid_setup`.

    The controller remembers the latest call it accepted (`accepted`): its timestamp, its
    measurement, and the sum of `err * dt` up to it (`errorSum`). The stored timestamp is also the
    mark of the first call, so the law of the run holds exactly as long as no call but the last is
    made at timer value 0 (`runLaw_iff`); the call after one made at 0 starts the integral afresh.

    The anti-windup clamp limits what the integral error contributes, not the integral error. What
    bounds that is the calls alone: it stays within a bound exactly as long as the errors that the
    calls integrate, added up since the last start, do (`unwound_iff`). -/

namespace FC.Pid
open Schemes

/-- The arguments of a `pid_update` call. -/
structure Call where
  desired : ℚ
  actual : ℚ
  nowUs : UInt32
  integrate : Bool
  itermLimit : ℚ
  deriving DecidableEq, Repr

/-- What a call returns. -/
def output (pid : Pid ℚ) (c : Call) : ℚ :=
  (pidUpdate c.desired c.actual pid c.nowUs c.integrate c.itermLimit).1

/-- What a call leaves behind. -/
def callStep (pid : Pid ℚ) (c : Call) : Pid ℚ :=
  (pidUpdate c.desired c.actual pid c.nowUs c.integrate c.itermLimit).2

/-- The time from call `a` to call `c` in seconds, as the wrapping timer shows it. -/
def elapsed (a c : Call) : ℚ := (c.nowUs - a.nowUs).toNat * (1 / 1000000)

/-- The latest accepted call: one with an unchanged timestamp is not. -/
def accepted : Call → List Call → Call
  | a, [] => a
  | a, c :: cs => accepted (if c.nowUs = a.nowUs then a else c) cs

/-- The sum of `err * dt` over the accepted calls after `a` that integrate. -/
def errorSum : Call → List Call → ℚ
  | _, [] => 0
  | a, c :: cs =>
    if c.nowUs = a.nowUs then errorSum a cs
    else (if c.integrate then (c.desired - c.actual) * elapsed a c else 0) + errorSum c cs

/-- The state after the first call and some more. -/
def after (kp ki kd : ℚ) (first : Call) (before : List Call) : Pid ℚ :=
  run callStep (pidSetup kp ki kd) (first :: before)

/-- The run law for call `c`, made after the calls `first :: before`. -/
structure CallLaw (kp ki kd : ℚ) (first : Call) (before : List Call) (c : Call) : Prop where
  notFirst : (after kp ki kd first before).prevTimeUs ≠ 0
  integral : (callStep (after kp ki kd first before) c).integralErr = errorSum first (before ++ [c])
  output : 0 ≤ c.itermLimit → c.nowUs ≠ (accepted first before).nowUs →
    output (after kp ki kd first before) c =
      kp * (c.desired - c.actual) +
        max (-c.itermLimit) (min c.itermLimit
          (ki * (callStep (after kp ki kd first before) c).integralErr)) +
        kd * (((accepted first before).actual - c.actual) / elapsed (accepted first before) c)
  kept : c.integrate = false ∨ c.nowUs = (accepted first before).nowUs →
    (callStep (after kp ki kd first before) c).integralErr =
      (after kp ki kd first before).integralErr
  gains : (callStep (after kp ki kd first before) c).kp = kp ∧
    (callStep (after kp ki kd first before) c).ki = ki ∧
    (callStep (after kp ki kd first before) c).kd = kd

/-- The run law, for every call but the first. -/
def RunLaw (kp ki kd : ℚ) (calls : List Call) : Prop :=
  ∀ first before c rest, calls = first :: (before ++ c :: rest) → CallLaw kp ki kd first before c

/-! ### One call -/

variable {pid : Pid ℚ} {c : Call}

theorem callStep_first (h : pid.prevTimeUs = 0) :
    callStep pid c =
      { pid with prevTimeUs := c.nowUs, prevActual := c.actual, integralErr := 0 } := by
  simp only [callStep, pidUpdate, h, if_true]

theorem callStep_same (h : pid.prevTimeUs ≠ 0) (hnow : c.nowUs = pid.prevTimeUs) :
    callStep pid c = pid := by
  simp [callStep, pidUpdate, h, hnow]

theorem callStep_accepted (h : pid.prevTimeUs ≠ 0) (hnow : c.nowUs ≠ pid.prevTimeUs) :
    (callStep pid c).prevTimeUs = c.nowUs ∧ (callStep pid c).prevActual = c.actual ∧
      (callStep pid c).integralErr = pid.integralErr + (if c.integrate then
        (c.desired - c.actual) * ((c.nowUs - pid.prevTimeUs).toNat * (1 / 1000000)) else 0) := by
  have helapsed : c.nowUs - pid.prevTimeUs ≠ 0 := sub_ne_zero.mpr hnow
  simp only [callStep, pidUpdate, h, helapsed, if_false, true_and]
  split <;> simp

theorem callStep_gains (pid : Pid ℚ) (c : Call) :
    (callStep pid c).kp = pid.kp ∧ (callStep pid c).ki = pid.ki ∧ (callStep pid c).kd = pid.kd := by
  simp only [callStep, pidUpdate]
  split
  · exact ⟨rfl, rfl, rfl⟩
  · split <;> exact ⟨rfl, rfl, rfl⟩

theorem output_accepted (h : pid.prevTimeUs ≠ 0) (hnow : c.nowUs ≠ pid.prevTimeUs) :
    output pid c = pid.kp * (c.desired - c.actual) +
      clamp (pid.ki * (callStep pid c).integralErr) (-c.itermLimit) c.itermLimit +
      pid.kd * ((pid.prevActual - c.actual) /
        ((c.nowUs - pid.prevTimeUs).toNat * (1 / 1000000))) := by
  have helapsed : c.nowUs - pid.prevTimeUs ≠ 0 := sub_ne_zero.mpr hnow
  simp only [output, callStep, pidUpdate, h, helapsed, if_false]

/-! ### The run law -/

/-- The state remembers the accepted call `a` and the sum so far. -/
structure Follows (pid : Pid ℚ) (a : Call) (sum : ℚ) : Prop where
  time : pid.prevTimeUs = a.nowUs
  actual : pid.prevActual = a.actual
  integral : pid.integralErr = sum

theorem Follows.same {a : Call} {sum : ℚ} (h : Follows pid a sum) (hne : a.nowUs ≠ 0)
    (hnow : c.nowUs = a.nowUs) : Follows (callStep pid c) a sum := by
  rw [callStep_same (h.time ▸ hne) (hnow.trans h.time.symm)]
  exact h

theorem Follows.accepted {a : Call} {sum : ℚ} (h : Follows pid a sum) (hne : a.nowUs ≠ 0)
    (hnow : c.nowUs ≠ a.nowUs) : Follows (callStep pid c) c
      (sum + (if c.integrate then (c.desired - c.actual) * elapsed a c else 0)) := by
  obtain ⟨htime, hactual, hintegral⟩ :=
    callStep_accepted (h.time ▸ hne) (fun heq => hnow (heq.trans h.time))
  refine ⟨htime, hactual, ?_⟩
  rw [hintegral, h.integral, h.time]
  rfl

/-- With no timestamp 0 before the last call, the state follows the accepted calls. -/
theorem Follows.run {a : Call} {sum : ℚ} {cs : List Call} (h : Follows pid a sum)
    (hne : cs ≠ [] → a.nowUs ≠ 0) (hall : ∀ d ∈ cs.dropLast, d.nowUs ≠ 0) :
    Follows (Schemes.run callStep pid cs) (Pid.accepted a cs) (sum + errorSum a cs) := by
  induction cs generalizing pid a sum with
  | nil => simpa [errorSum, Pid.accepted] using h
  | cons d ds ih =>
    have ha : a.nowUs ≠ 0 := hne (List.cons_ne_nil _ _)
    have hd : ds ≠ [] → d.nowUs ≠ 0 := by
      intro hds
      refine hall d ?_
      rw [List.dropLast_cons_of_ne_nil hds]
      exact List.mem_cons_self ..
    have hrest : ∀ x ∈ ds.dropLast, x.nowUs ≠ 0 := by
      intro x hx
      refine hall x ?_
      rw [List.dropLast_cons_of_ne_nil (by rintro rfl; exact absurd hx List.not_mem_nil)]
      exact List.mem_cons_of_mem _ hx
    rw [run_cons, Pid.accepted, errorSum]
    split
    · rename_i hnow
      exact ih (h.same ha hnow) (fun _ => ha) hrest
    · rename_i hnow
      rw [← add_assoc]
      exact ih (h.accepted ha hnow) hd hrest

theorem gains_run (cs : List Call) : (Schemes.run callStep pid cs).kp = pid.kp ∧
    (Schemes.run callStep pid cs).ki = pid.ki ∧ (Schemes.run callStep pid cs).kd = pid.kd :=
  inv_run callStep (fun s => s.kp = pid.kp ∧ s.ki = pid.ki ∧ s.kd = pid.kd)
    (fun s d ⟨hkp, hki, hkd⟩ => by
      obtain ⟨hkp', hki', hkd'⟩ := callStep_gains s d
      exact ⟨hkp'.trans hkp, hki'.trans hki, hkd'.trans hkd⟩) cs ⟨rfl, rfl, rfl⟩

/-- A timestamp 0 is accepted only from a call made at 0. -/
theorem accepted_ne_zero {a : Call} {cs : List Call} (ha : a.nowUs ≠ 0)
    (hall : ∀ d ∈ cs, d.nowUs ≠ 0) : (Pid.accepted a cs).nowUs ≠ 0 := by
  induction cs generalizing a with
  | nil => exact ha
  | cons d ds ih =>
    have hrest : ∀ x ∈ ds, x.nowUs ≠ 0 := fun x hx => hall x (List.mem_cons_of_mem _ hx)
    rw [Pid.accepted]
    split
    · exact ih ha hrest
    · exact ih (hall d (List.mem_cons_self ..)) hrest

variable (kp ki kd : ℚ)

theorem follows_first (first : Call) : Follows (callStep (pidSetup kp ki kd) first) first 0 := by
  rw [callStep_first rfl]
  exact ⟨rfl, rfl, rfl⟩

theorem after_eq (first : Call) (before : List Call) :
    after kp ki kd first before =
      Schemes.run callStep (callStep (pidSetup kp ki kd) first) before := rfl

theorem after_concat (first c : Call) (before : List Call) :
    after kp ki kd first (before ++ [c]) = callStep (after kp ki kd first before) c :=
  run_concat callStep _ (first :: before) c

theorem callLaw_of_ne_zero {first c : Call} {before : List Call} (hfirst : first.nowUs ≠ 0)
    (hall : ∀ d ∈ before, d.nowUs ≠ 0) : CallLaw kp ki kd first before c := by
  have hbefore : Follows (after kp ki kd first before) (accepted first before)
      (0 + errorSum first before) :=
    (follows_first kp ki kd first).run (fun _ => hfirst)
      fun d hd => hall d (List.mem_of_mem_dropLast hd)
  have hthis : Follows (after kp ki kd first (before ++ [c])) (accepted first (before ++ [c]))
      (0 + errorSum first (before ++ [c])) :=
    (follows_first kp ki kd first).run (fun _ => hfirst)
      fun d hd => hall d (by rwa [List.dropLast_concat] at hd)
  rw [after_concat, zero_add] at hthis
  have hprev : (after kp ki kd first before).prevTimeUs ≠ 0 := by
    rw [hbefore.time]
    exact accepted_ne_zero hfirst hall
  obtain ⟨hkp, hki, hkd⟩ : (after kp ki kd first before).kp = kp ∧
      (after kp ki kd first before).ki = ki ∧ (after kp ki kd first before).kd = kd :=
    gains_run (first :: before)
  refine ⟨hprev, hthis.integral, ?_, ?_, ?_⟩
  · intro hlim hnow
    rw [output_accepted hprev (hbefore.time ▸ hnow), clamp_neg hlim, hkp, hki, hkd, hbefore.time,
      hbefore.actual]
    rfl
  · intro hkept
    by_cases hnow : c.nowUs = (after kp ki kd first before).prevTimeUs
    · rw [callStep_same hprev hnow]
    · have hoff : c.integrate = false := hkept.resolve_right (hbefore.time ▸ hnow)
      rw [(callStep_accepted hprev hnow).2.2, hoff]
      simp
  · obtain ⟨hkp', hki', hkd'⟩ := callStep_gains (after kp ki kd first before) c
    exact ⟨hkp'.trans hkp, hki'.trans hki, hkd'.trans hkd⟩

/-- A call leaves its timestamp behind. -/
theorem callStep_prevTimeUs : (callStep pid c).prevTimeUs = c.nowUs := by
  by_cases hfirst : pid.prevTimeUs = 0
  · rw [callStep_first hfirst]
  · by_cases hnow : c.nowUs = pid.prevTimeUs
    · rw [callStep_same hfirst hnow, hnow]
    · exact (callStep_accepted hfirst hnow).1

/-- CORRECT exactly for these sequences of calls: the run law holds, and only the very first call is
    treated as the first iteration, if and only if no call before the last is made at timer value
    0. -/
theorem runLaw_iff (calls : List Call) :
    RunLaw kp ki kd calls ↔ ∀ c ∈ calls.dropLast, c.nowUs ≠ 0 := by
  constructor
  · intro hlaw d hd
    obtain ⟨pre, post, hsplit⟩ := List.append_of_mem hd
    have hne : calls ≠ [] := by rintro rfl; exact absurd hd List.not_mem_nil
    have hcalls : calls = pre ++ d :: (post ++ [calls.getLast hne]) := by
      calc calls = calls.dropLast ++ [calls.getLast hne] :=
            (List.dropLast_append_getLast hne).symm
        _ = pre ++ d :: (post ++ [calls.getLast hne]) := by
            rw [hsplit, List.append_assoc, List.cons_append]
    obtain ⟨c, rest, hnext⟩ := List.exists_cons_of_ne_nil
      (List.append_ne_nil_of_right_ne_nil post (List.cons_ne_nil (calls.getLast hne) []))
    rw [hnext] at hcalls
    -- the state before `c` is the one that `d` left
    cases pre with
    | nil =>
      have hfirst := (hlaw d [] c rest hcalls).notFirst
      rwa [after_eq, run_nil, callStep_prevTimeUs] at hfirst
    | cons first before =>
      have hfirst := (hlaw first (before ++ [d]) c rest (by rw [hcalls]; simp)).notFirst
      rwa [after_concat, callStep_prevTimeUs] at hfirst
  · rintro hall first before c rest rfl
    have hmem : ∀ d ∈ first :: before, d ∈ (first :: (before ++ c :: rest)).dropLast := by
      intro d hd
      rw [← List.cons_append, List.dropLast_append_of_ne_nil (List.cons_ne_nil c rest)]
      exact List.mem_append_left _ hd
    exact callLaw_of_ne_zero kp ki kd (hall _ (hmem _ (List.mem_cons_self ..)))
      fun d hd => hall d (hmem d (List.mem_cons_of_mem _ hd))

/-- Three calls 2 ms apart, the second at timer value 0, with a constant error of 5. -/
def wrapCalls : List Call :=
  [⟨5, 0, 0xfffff830, true, 100⟩, ⟨5, 0, 0, true, 100⟩, ⟨5, 0, 2000, true, 100⟩]

/-- The third call starts over, and the integral is lost. -/
theorem not_runLaw_wrapCalls : ¬ RunLaw 2 (1 / 2) (1 / 4) wrapCalls := by
  intro h
  have hintegral := (h _ _ _ [] rfl : CallLaw 2 (1 / 2) (1 / 4) ⟨5, 0, 0xfffff830, true, 100⟩
    [⟨5, 0, 0, true, 100⟩] ⟨5, 0, 2000, true, 100⟩).integral
  revert hintegral
  decide +kernel

/-! ### Wind-up -/

/-- The contribution of the integral error, before the clamp, stays within the limit. -/
def Bounded (limit : ℚ) (pid : Pid ℚ) : Prop := |pid.ki * pid.integralErr| ≤ limit

instance (limit : ℚ) (pid : Pid ℚ) : Decidable (Bounded limit pid) :=
  inferInstanceAs (Decidable (_ ≤ _))

/-- What an integrating call adds to that contribution. -/
def increment (pid : Pid ℚ) (c : Call) : ℚ :=
  pid.ki * ((c.desired - c.actual) * ((c.nowUs - pid.prevTimeUs).toNat * (1 / 1000000)))

/-- Every sum of `err * dt` over the integrating calls since the last start, times `Ki`, stays
    within the limit. A call starts the integral when it is the first or comes after one made at
    timer value 0. -/
def SumsWithin (ki limit : ℚ) (calls : List Call) : Prop :=
  ∀ pre first before rest, calls = pre ++ first :: (before ++ rest) →
    (∀ c ∈ pre.getLast?, c.nowUs = 0) → (∀ c ∈ (first :: before).dropLast, c.nowUs ≠ 0) →
      |ki * errorSum first before| ≤ limit

theorem contribution_of_accumulates (h : accumulates pid c.nowUs c.integrate = true) :
    (callStep pid c).ki * (callStep pid c).integralErr =
      pid.ki * pid.integralErr + increment pid c := by
  have hintegral : (callStep pid c).integralErr = _ :=
    integralErr_of_accumulates h c.desired c.actual c.itermLimit
  rw [(callStep_gains pid c).2.1, hintegral, mul_add]
  rfl

theorem iterm_of_accumulates (h : accumulates pid c.nowUs c.integrate = true) :
    (callStep pid c).iterm =
      clamp (pid.ki * pid.integralErr + increment pid c) (-c.itermLimit) c.itermLimit := by
  rw [← contribution_of_accumulates h]
  obtain ⟨hfirst, helapsed, -⟩ := accumulates_iff.mp h
  simp only [callStep, pidUpdate, hfirst, helapsed, if_false]

/-- An integrating call has some time to integrate over. -/
theorem dt_pos (h : accumulates pid c.nowUs c.integrate = true) :
    (0 : ℚ) < (c.nowUs - pid.prevTimeUs).toNat * (1 / 1000000) := by
  obtain ⟨-, htime, -⟩ := accumulates_iff.mp h
  have helapsed : 0 < (c.nowUs - pid.prevTimeUs).toNat := by
    refine Nat.pos_of_ne_zero ?_
    intro hzero
    exact htime (UInt32.toNat_inj.mp hzero)
  positivity

/-- Within the bound, an error of the other sign makes the integral term leave its limit at once. -/
theorem iterm_leaves_limit (hki : 0 < pid.ki) (hlimit : 0 < c.itermLimit)
    (hb : Bounded c.itermLimit pid) (hacc : accumulates pid c.nowUs c.integrate = true) :
    (c.desired < c.actual → (callStep pid c).iterm < c.itermLimit) ∧
      (c.actual < c.desired → -c.itermLimit < (callStep pid c).iterm) := by
  have hdt := dt_pos hacc
  obtain ⟨hlow, hhigh⟩ := abs_le.mp hb
  rw [iterm_of_accumulates hacc, clamp_neg hlimit.le]
  constructor
  · intro hneg
    have hinc : increment pid c < 0 :=
      mul_neg_of_pos_of_neg hki (mul_neg_of_neg_of_pos (sub_neg.mpr hneg) hdt)
    exact max_lt (neg_lt_self hlimit) (lt_of_le_of_lt (min_le_right _ _) (by linarith))
  · intro hpos
    have hinc : 0 < increment pid c := mul_pos hki (mul_pos (sub_pos.mpr hpos) hdt)
    exact lt_max_of_lt_right (lt_min (neg_lt_self hlimit) (by linarith))

/-- Anti-windup at work: the contribution stays within the limit, and an integrating call under that
    limit takes the integral term off the end that its error points away from. -/
structure Unwound (limit : ℚ) (pid : Pid ℚ) : Prop where
  bounded : Bounded limit pid
  leaves : 0 < limit → ∀ c, c.itermLimit = limit → accumulates pid c.nowUs c.integrate = true →
    (c.desired < c.actual → (callStep pid c).iterm < limit) ∧
      (c.actual < c.desired → -limit < (callStep pid c).iterm)

theorem Bounded.unwound {limit : ℚ} (hb : Bounded limit pid) (hki : 0 < pid.ki) :
    Unwound limit pid := by
  refine ⟨hb, ?_⟩
  rintro hlimit c rfl hacc
  exact iterm_leaves_limit hki hlimit hb hacc

/-- Before its first call, or after one made at timer value 0, a controller starts the integral at
    its next call. -/
theorem prevTimeUs_of_start {pre : List Call} (hstart : ∀ c ∈ pre.getLast?, c.nowUs = 0) :
    (run callStep (pidSetup kp ki kd) pre).prevTimeUs = 0 := by
  induction pre using List.reverseRecOn with
  | nil => rfl
  | append_singleton pre c _ =>
    rw [run_concat, callStep_prevTimeUs]
    exact hstart c (by simp)

/-- From a start on, the integral error is the sum of the errors integrated since. -/
theorem integralErr_eq_errorSum {pre before : List Call} {first : Call}
    (hstart : ∀ c ∈ pre.getLast?, c.nowUs = 0)
    (hrest : ∀ c ∈ (first :: before).dropLast, c.nowUs ≠ 0) :
    (run callStep (pidSetup kp ki kd) (pre ++ first :: before)).integralErr =
      errorSum first before := by
  have hfirst : Follows (callStep (run callStep (pidSetup kp ki kd) pre) first) first 0 := by
    rw [callStep_first (prevTimeUs_of_start kp ki kd hstart)]
    exact ⟨rfl, rfl, rfl⟩
  have hne : before ≠ [] → first.nowUs ≠ 0 := by
    intro hbefore
    refine hrest first ?_
    rw [List.dropLast_cons_of_ne_nil hbefore]
    exact List.mem_cons_self ..
  have hall : ∀ c ∈ before.dropLast, c.nowUs ≠ 0 := by
    intro c hc
    refine hrest c ?_
    rw [List.dropLast_cons_of_ne_nil (by rintro rfl; exact absurd hc List.not_mem_nil)]
    exact List.mem_cons_of_mem _ hc
  rw [run_append, run_cons, (hfirst.run hne hall).integral, zero_add]

/-- Every run has a last start. -/
theorem exists_start {calls : List Call} (hne : calls ≠ []) : ∃ pre first before,
    calls = pre ++ first :: before ∧ (∀ c ∈ pre.getLast?, c.nowUs = 0) ∧
      ∀ c ∈ (first :: before).dropLast, c.nowUs ≠ 0 := by
  induction calls using List.reverseRecOn with
  | nil => exact absurd rfl hne
  | append_singleton calls c ih =>
    rcases eq_or_ne calls [] with rfl | hcalls
    · exact ⟨[], c, [], rfl, by simp, by simp⟩
    obtain ⟨pre, first, before, rfl, hstart, hrest⟩ := ih hcalls
    have hsplit : first :: before = (first :: before).dropLast ++
        [(first :: before).getLast (List.cons_ne_nil _ _)] :=
      (List.dropLast_append_getLast (List.cons_ne_nil _ _)).symm
    by_cases hzero : ((first :: before).getLast (List.cons_ne_nil _ _)).nowUs = 0
    · refine ⟨pre ++ first :: before, c, [], rfl, ?_, by simp⟩
      intro d hd
      rw [List.getLast?_append_of_ne_nil _ (List.cons_ne_nil _ _),
        List.getLast?_eq_getLast_of_ne_nil (List.cons_ne_nil _ _)] at hd
      rw [← Option.some.inj hd]
      exact hzero
    · refine ⟨pre, first, before ++ [c], by simp, hstart, ?_⟩
      intro d hd
      rw [← List.cons_append, List.dropLast_concat, hsplit] at hd
      rcases List.mem_append.mp hd with hd | hd
      · exact hrest d hd
      · rw [List.mem_singleton.mp hd]
        exact hzero

/-- The contribution is bounded after every call, when the sums of the calls are. -/
theorem bounded_of_sumsWithin {limit : ℚ} (hlimit : 0 ≤ limit) {calls : List Call}
    (h : SumsWithin ki limit calls) {done : List Call} (hdone : done <+: calls) :
    Bounded limit (run callStep (pidSetup kp ki kd) done) := by
  obtain ⟨rest, rfl⟩ := hdone
  rw [Bounded, (gains_run done).2.1]
  rcases eq_or_ne done [] with rfl | hne
  · simpa [pidSetup] using hlimit
  · obtain ⟨pre, first, before, rfl, hstart, hrest⟩ := exists_start hne
    rw [integralErr_eq_errorSum kp ki kd hstart hrest]
    exact h pre first before rest (by simp) hstart hrest

/-- CORRECT exactly for these sequences of calls: `Ki * integral_err` stays within the limit, and
    the integral term ready to leave it, if and only if the errors that the calls integrate, added
    up since the last start, stay within it. -/
theorem unwound_iff (kp kd : ℚ) {ki limit : ℚ} (hki : 0 < ki) (hlimit : 0 ≤ limit)
    (calls : List Call) :
    Always callStep (Unwound limit) (pidSetup kp ki kd) calls ↔ SumsWithin ki limit calls := by
  constructor
  · rintro hunwound pre first before rest rfl hstart hrest
    have hdone := (hunwound (pre ++ first :: before) ⟨rest, by simp⟩).bounded
    rw [Bounded, (gains_run _).2.1, integralErr_eq_errorSum kp ki kd hstart hrest] at hdone
    exact hdone
  · intro hsums done hdone
    have hpos : 0 < (run callStep (pidSetup kp ki kd) done).ki := by
      rw [(gains_run done).2.1]
      exact hki
    exact (bounded_of_sumsWithin kp ki kd hlimit hsums hdone).unwound hpos

/-- With no call at timer value 0 there is one start only. -/
theorem sumsWithin_of_ne_zero {limit : ℚ} {first : Call} {calls : List Call}
    (hne : ∀ c ∈ first :: calls, c.nowUs ≠ 0)
    (hsums : ∀ before ∈ calls.inits, |ki * errorSum first before| ≤ limit) :
    SumsWithin ki limit (first :: calls) := by
  intro pre start before rest hcalls hstart _
  have hpre : pre = [] := by
    by_contra hsome
    have hmem : pre.getLast hsome ∈ first :: calls := by
      rw [hcalls]
      exact List.mem_append_left _ (List.getLast_mem hsome)
    exact hne _ hmem (hstart _ (List.getLast?_eq_getLast_of_ne_nil hsome))
  rw [hpre, List.nil_append] at hcalls
  obtain ⟨rfl, rfl⟩ := List.cons.inj hcalls
  exact hsums before ((List.mem_inits ..).mpr (List.prefix_append ..))

/-- Half a second of error 1, with the gains of roll and pitch. -/
theorem unwound_calm : Always callStep (Unwound 1) (pidSetup 2 (1 / 2) (1 / 4))
    [⟨1, 0, 1000000, true, 1⟩, ⟨1, 0, 1500000, true, 1⟩] :=
  (unwound_iff 2 (1 / 4) (by norm_num) (by norm_num) _).mpr
    (sumsWithin_of_ne_zero _ (by decide) (by decide +kernel))

/-- A second of error 10, then a tenth of a second of error -1, with a limit of 1. -/
def windUpCalls : List Call :=
  [⟨10, 0, 1000000, true, 1⟩, ⟨10, 0, 2000000, true, 1⟩, ⟨-1, 0, 2100000, true, 1⟩]

/-- The integral error winds up to five times the limit, and after the error has changed sign its
    contribution still stands at the limit. -/
theorem not_unwound_windUp :
    ¬ Always callStep (Unwound 1) (pidSetup 2 (1 / 2) (1 / 4)) windUpCalls ∧
      (run callStep (pidSetup 2 (1 / 2) (1 / 4)) windUpCalls).iterm = 1 := by
  constructor
  · intro h
    have hlast : Bounded 1 _ := h.last.bounded
    revert hlast
    decide +kernel
  · decide +kernel

end FC.Pid

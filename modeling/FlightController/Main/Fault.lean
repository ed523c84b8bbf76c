import FlightController.Control.Util
import FlightController.Main.Schedule
import FlightController.Telemetry.Usb
import Mathlib.Data.Nat.Count

/-! The fatal error loop (`error` of `src/util.c`). Each round toggles the LED, waits 0.2 s and may
    send the message over USB, with a second's time for it.

    Time may pass and the endpoint may complete a packet at any step. Whatever they do, two toggles
    are at least 0.2 s apart, a wrap of the timer included (`toggles_apart`). If the steps take at
    most `δ` each and the timer does not wrap in the second of a send and eight steps after it, then
    they are at most 1.2 s and ten steps apart: the LED keeps blinking, also where nobody reads the
    messages (`keeps_blinking`).

    Of a message that fits one packet only the whole goes out, in nine rounds of ten
    (`error_reports`): `i++ % 10` is the condition to send, and not to skip. -/

namespace FC.Fault
open Schemes Schemes.Clock

/-- Where `error` stands: at the toggle, at the timer reading of `timer_wait_us`, in its wait, at
    the count of the round, at the timer reading for the deadline, in `usb_send`. -/
inductive Pc where
  | toggle
  | arm
  | wait (deadlineUs : UInt32)
  | count
  | deadline
  | send
  deriving DecidableEq, Repr

/-- The last three fields are history: the times of the toggles, latest first, the rounds counted
    and the calls of `usb_send`. -/
structure St where
  now : ℕ
  led : Bool
  i : UInt32
  pc : Pc
  usb : Usb.St
  toggles : List ℕ
  rounds : ℕ
  calls : ℕ

/-- True time passes and the program takes its next step; the endpoint reports its packet done. -/
inductive Act where
  | cpu (dt : ℕ)
  | txCallback
  deriving DecidableEq, Repr

variable (ub : ℚ → UInt32) (msg : List UInt8)

/-- The next step of `error(msg)`. The deadline `timer_now_us() + 1e6` is a `double`; where it does
    not fit `uint32_t`, `ub` says what becomes of it. -/
def cpuStep (s : St) : St :=
  match s.pc with
  | .toggle => { s with led := !s.led, toggles := s.now :: s.toggles, pc := .arm }
  | .arm => { s with pc := .wait (stamp s.now + 200000) }
  | .wait deadlineUs => if Main.reached deadlineUs (stamp s.now) then { s with pc := .count } else s
  | .count =>
    { s with
      i := s.i + 1
      rounds := s.rounds + 1
      pc := if s.i % 10 ≠ 0 then .deadline else .toggle }
  | .deadline =>
    { s with
      usb := Usb.usbSend s.usb msg (toUint32 ub ((stamp s.now).toNat + 1000000))
      calls := s.calls + 1
      pc := .send }
  | .send =>
    let usb := Usb.step (fun _ => stamp s.now) s.usb .cpu
    { s with usb, pc := if usb.pc = .done then .toggle else .send }

def step (s : St) : Act → St
  | .cpu dt => cpuStep ub msg { s with now := s.now + dt }
  | .txCallback => { s with usb := Usb.step (fun _ => stamp s.now) s.usb .txCallback }

/-- `error` is called. -/
def init (now : ℕ) (led txReady : Bool) : St := ⟨now, led, 0, .toggle, Usb.idle txReady, [], 0, 0⟩

/-- The state after a list of actions. -/
def exec (now : ℕ) (led txReady : Bool) (acts : List Act) : St :=
  run (step ub msg) (init now led txReady) acts

/-! ### The LED -/

/-- The latest toggle is at least `d` before `now`. -/
def Since (d now : ℕ) (toggles : List ℕ) : Prop := ∀ t ∈ toggles.head?, t + d ≤ now

/-- How long the latest toggle is ago. -/
def Waited (now : ℕ) (toggles : List ℕ) : Pc → Prop
  | .arm => Since 0 now toggles
  | .wait deadlineUs => ∃ t ≤ now, deadlineUs = stamp t + 200000 ∧ Since 0 t toggles
  | .toggle | .count | .deadline | .send => Since 200000 now toggles

/-- Toggles are at least 0.2 s apart. -/
def Apart (toggles : List ℕ) : Prop := toggles.IsChain fun later earlier => earlier + 200000 ≤ later

theorem Since.mono {d now now' : ℕ} {toggles : List ℕ} (h : Since d now toggles)
    (hle : now ≤ now') : Since d now' toggles := fun t ht => (h t ht).trans hle

theorem waited_later {now now' : ℕ} {toggles : List ℕ} {pc : Pc} (h : Waited now toggles pc)
    (hle : now ≤ now') : Waited now' toggles pc := by
  cases pc with
  | wait deadlineUs =>
    obtain ⟨t, ht, hd, hsince⟩ := h
    exact ⟨t, ht.trans hle, hd, hsince⟩
  | arm | toggle | count | deadline | send => exact Since.mono h hle

/-- The wait ends no earlier than 0.2 s after its reading. -/
theorem reached_wait {t now : ℕ} (hle : t ≤ now)
    (h : Main.reached (stamp t + 200000) (stamp now) = true) : t + 200000 ≤ now := by
  have hd : stamp t + 200000 = stamp (t + 200000) := (stamp_add t 200000).symm
  rw [hd, Main.reached_stamp_iff (by omega)] at h
  exact h.1

variable {ub : ℚ → UInt32} {msg : List UInt8}

theorem apart_cpu {s : St} (h : Waited s.now s.toggles s.pc ∧ Apart s.toggles) :
    Waited (cpuStep ub msg s).now (cpuStep ub msg s).toggles (cpuStep ub msg s).pc ∧
      Apart (cpuStep ub msg s).toggles := by
  obtain ⟨hwaited, hapart⟩ := h
  cases hpc : s.pc with
  | toggle =>
    rw [hpc] at hwaited
    simp only [cpuStep, hpc]
    refine ⟨fun t ht => ?_, List.isChain_cons.mpr ⟨hwaited, hapart⟩⟩
    rw [Option.mem_def, List.head?_cons, Option.some.injEq] at ht
    exact ht.ge
  | arm =>
    rw [hpc] at hwaited
    simp only [cpuStep, hpc]
    exact ⟨⟨s.now, le_rfl, rfl, hwaited⟩, hapart⟩
  | wait deadlineUs =>
    rw [hpc] at hwaited
    simp only [cpuStep, hpc]
    split
    · rename_i hreached
      obtain ⟨t, hle, rfl, hsince⟩ := hwaited
      have hend := reached_wait hle hreached
      exact ⟨fun earlier hmem => (Nat.add_le_add_right (hsince earlier hmem) 200000).trans hend,
        hapart⟩
    · exact ⟨by rwa [hpc], hapart⟩
  | count =>
    rw [hpc] at hwaited
    simp only [cpuStep, hpc]
    refine ⟨?_, hapart⟩
    split <;> exact hwaited
  | deadline =>
    rw [hpc] at hwaited
    simp only [cpuStep, hpc]
    exact ⟨hwaited, hapart⟩
  | send =>
    rw [hpc] at hwaited
    simp only [cpuStep, hpc]
    refine ⟨?_, hapart⟩
    split <;> exact hwaited

theorem apart_step (s : St) (a : Act) (h : Waited s.now s.toggles s.pc ∧ Apart s.toggles) :
    Waited (step ub msg s a).now (step ub msg s a).toggles (step ub msg s a).pc ∧
      Apart (step ub msg s a).toggles := by
  cases a with
  | cpu dt => exact apart_cpu ⟨waited_later h.1 (Nat.le_add_right s.now dt), h.2⟩
  | txCallback => exact h

/-- CORRECT: in every run, however long its steps take and across wraps of the timer, two toggles of
    the LED are at least 0.2 s apart. -/
theorem toggles_apart (ub : ℚ → UInt32) (msg : List UInt8) (now : ℕ) (led txReady : Bool)
    (acts : List Act) :
    (exec ub msg now led txReady acts).toggles.IsChain fun later earlier =>
      earlier + 200000 ≤ later := by
  have hstart : Waited now [] .toggle := by simp [Waited, Since]
  exact (inv_run (step ub msg) (fun s => Waited s.now s.toggles s.pc ∧ Apart s.toggles) apart_step
    acts (s := init now led txReady) ⟨hstart, List.isChain_nil⟩).2

/-! ### The end of a round -/

/-- A call of `usb_send` with the deadline read at `c`: how late it may be at each of its places. -/
def SendDue (δ c now : ℕ) (usb : Usb.St) : Prop :=
  usb.deadlineUs = stamp (c + 1000000) ∧ usb.p.length ≤ Usb.usbMaxPacketSize ∧
    match usb.pc with
    | .outer => now ≤ c + 1000000 ∨ usb.p = [] ∧ now ≤ c + 1000000 + 4 * δ
    | .inner => now ≤ c + 1000000
    | .innerTime => now ≤ c + 1000000 + δ
    | .check => now ≤ c + 1000000 + 2 * δ
    | .write => now ≤ c + 1000000 + 3 * δ
    | .done => False

theorem SendDue.running {δ c now : ℕ} {usb : Usb.St} (h : SendDue δ c now usb) :
    usb.pc ≠ .done := by
  intro hdone
  obtain ⟨_, _, hdue⟩ := h
  rw [hdone] at hdue
  exact hdue

/-- No wrap of the timer from the reading at `c`, which the deadline comes from, until a second and
    eight steps later, when the call is over. -/
def Unwrapped (δ c : ℕ) : Prop := c / 2 ^ 32 = (c + 1000000 + 8 * δ) / 2 ^ 32

instance (δ c : ℕ) : Decidable (Unwrapped δ c) := inferInstanceAs (Decidable (_ = _))

/-- Then the deadline is what it should be, -/
theorem toUint32_deadline {δ c : ℕ} (h : Unwrapped δ c) :
    toUint32 ub ((stamp c).toNat + 1000000) = stamp (c + 1000000) := by
  have hfits : c % 2 ^ 32 + 1000000 < 2 ^ 32 := by
    unfold Unwrapped at h
    omega
  have hcast : (((stamp c).toNat : ℚ) + 1000000) = ((c % 2 ^ 32 + 1000000 : ℕ) : ℚ) := by
    rw [stamp_toNat]; push_cast; rfl
  apply UInt32.toNat_inj.mp
  rw [hcast, toUint32_toNat (lt_of_lt_of_le (by norm_num) (Nat.cast_nonneg _))
    (by exact_mod_cast hfits), Nat.floor_natCast, stamp_toNat]
  unfold Unwrapped at h
  omega

/-- and a reading is compared with it as the time is. -/
theorem early_iff {δ c now : ℕ} (h : Unwrapped δ c) (hle : c ≤ now)
    (hnear : now ≤ c + 1000000 + 8 * δ) :
    stamp now < stamp (c + 1000000) ↔ now < c + 1000000 := by
  have hepoch : now / 2 ^ 32 = (c + 1000000) / 2 ^ 32 := by
    unfold Unwrapped at h
    omega
  rw [stamp_lt_stamp_iff, mod_lt_mod_iff hepoch]

/-- The call is over in time, or gets on. -/
theorem sendDue_cpu {δ c now now' : ℕ} {usb : Usb.St} (hwrap : Unwrapped δ c) (hle : c ≤ now)
    (hlater : now ≤ now') (hsoon : now' ≤ now + δ) (h : SendDue δ c now usb) :
    let usb' := Usb.step (fun _ => stamp now') usb .cpu
    (usb'.pc = .done ∧ now' ≤ c + 1000000 + 5 * δ) ∨ SendDue δ c now' usb' := by
  obtain ⟨hdeadline, hfits, hdue⟩ := h
  intro usb'
  cases hpc : usb.pc with
  | done =>
    rw [hpc] at hdue
    exact hdue.elim
  | outer =>
    rw [hpc] at hdue
    rcases eq_or_ne usb.p [] with hp | hp
    · refine Or.inl ⟨by simp [usb', Usb.step, Usb.cpuStep, hpc, hp], ?_⟩
      rcases hdue with hdue | ⟨-, hdue⟩ <;> omega
    · have hnow : now ≤ c + 1000000 := hdue.resolve_right fun hempty => hp hempty.1
      rcases Nat.lt_or_ge now' (c + 1000000) with hearly | hover <;>
        simp only [usb', Usb.step, Usb.cpuStep, hpc, hp, if_false, hdeadline, SendDue,
          early_iff hwrap (hle.trans hlater) (by omega)]
      · rw [if_pos hearly]
        exact Or.inr ⟨trivial, hfits, hearly.le⟩
      · rw [if_neg (Nat.not_lt.mpr hover)]
        exact Or.inl ⟨rfl, by omega⟩
  | inner =>
    rw [hpc] at hdue
    replace hdue : now ≤ c + 1000000 := hdue
    cases hready : usb.txReady <;>
      simp only [usb', Usb.step, Usb.cpuStep, hpc, hready, SendDue, hdeadline, if_true, if_false,
        Bool.false_eq_true] <;>
      exact Or.inr ⟨trivial, hfits, by omega⟩
  | innerTime =>
    rw [hpc] at hdue
    replace hdue : now ≤ c + 1000000 + δ := hdue
    rcases Nat.lt_or_ge now' (c + 1000000) with hearly | hover <;>
      simp only [usb', Usb.step, Usb.cpuStep, hpc, hdeadline, SendDue,
        early_iff hwrap (hle.trans hlater) (by omega)]
    · rw [if_pos hearly]
      exact Or.inr ⟨trivial, hfits, hearly.le⟩
    · rw [if_neg (Nat.not_lt.mpr hover)]
      exact Or.inr ⟨trivial, hfits, by omega⟩
  | check =>
    rw [hpc] at hdue
    replace hdue : now ≤ c + 1000000 + 2 * δ := hdue
    cases hready : usb.txReady <;>
      simp only [usb', Usb.step, Usb.cpuStep, hpc, hready, SendDue, hdeadline, if_true, if_false,
        Bool.false_eq_true]
    · exact Or.inl ⟨trivial, by omega⟩
    · exact Or.inr ⟨trivial, hfits, by omega⟩
  | write =>
    rw [hpc] at hdue
    replace hdue : now ≤ c + 1000000 + 3 * δ := hdue
    simp only [usb', Usb.step, Usb.cpuStep, hpc, SendDue, hdeadline]
    refine Or.inr ⟨trivial, ?_, Or.inr ⟨List.drop_eq_nil_of_le hfits, by omega⟩⟩
    rw [List.length_drop]
    omega

/-- A step of at most `δ`; and one that begins a send comes a second and eight steps, or more,
    before a wrap. -/
def Calm (δ : ℕ) (s : St) : Act → Prop
  | .cpu dt => dt ≤ δ ∧ (s.pc = .deadline → Unwrapped δ (s.now + dt))
  | .txCallback => True

instance (δ : ℕ) (s : St) : ∀ a, Decidable (Calm δ s a)
  | .cpu _ => instDecidableAnd
  | .txCallback => isTrue trivial

/-- How late a round that has begun at `t` may be at each place. -/
def Due (δ now t : ℕ) (usb : Usb.St) : Pc → Prop
  | .toggle => now ≤ t + 1200000 + 9 * δ
  | .arm => now ≤ t
  | .wait deadlineUs =>
    ∃ r ≤ now, deadlineUs = stamp r + 200000 ∧ r ≤ t + δ ∧ now ≤ r + 200000
  | .count => now ≤ t + 200000 + 2 * δ
  | .deadline => now ≤ t + 200000 + 3 * δ
  | .send => ∃ c ≤ now, c ≤ t + 200000 + 4 * δ ∧ Unwrapped δ c ∧ SendDue δ c now usb

/-- The toggles so far were in time, and the round at hand is. -/
def InTime (δ : ℕ) (s : St) : Prop :=
  (s.toggles.IsChain fun later earlier => later ≤ earlier + 1200000 + 10 * δ) ∧
    ∀ t ∈ s.toggles.head?, Due δ s.now t s.usb s.pc

/-- The wait ends at the first reading that comes 0.2 s or more after its own. -/
theorem reached_due {δ r now : ℕ} (hδ : δ ≤ 2 ^ 31) (hsoon : now ≤ r + 200000 + δ)
    (hdue : r + 200000 ≤ now) : Main.reached (stamp r + 200000) (stamp now) = true := by
  have hd : stamp r + 200000 = stamp (r + 200000) := (stamp_add r 200000).symm
  rw [hd, Main.reached_stamp_iff (by omega)]
  exact ⟨hdue, (Nat.mod_le _ _).trans (by omega)⟩

theorem due_cpu {δ dt t : ℕ} (hδ : δ ≤ 2 ^ 31) (hmsg : msg.length ≤ Usb.usbMaxPacketSize) {s : St}
    (hcalm : Calm δ s (.cpu dt)) (hpc : s.pc ≠ .toggle) (h : Due δ s.now t s.usb s.pc) :
    Due δ (step ub msg s (.cpu dt)).now t (step ub msg s (.cpu dt)).usb
      (step ub msg s (.cpu dt)).pc := by
  obtain ⟨hdt, hsend⟩ := hcalm
  cases hat : s.pc with
  | toggle => exact absurd hat hpc
  | arm =>
    rw [hat] at h
    replace h : s.now ≤ t := h
    simp only [step, cpuStep, hat]
    exact ⟨s.now + dt, le_rfl, rfl, by omega, by omega⟩
  | wait deadlineUs =>
    rw [hat] at h
    obtain ⟨r, hr, hd, hround, hnow⟩ := h
    simp only [step, cpuStep, hat]
    split
    · show s.now + dt ≤ t + 200000 + 2 * δ
      omega
    · rename_i hreached
      have hearly : ¬ r + 200000 ≤ s.now + dt := fun hdue =>
        hreached (by rw [hd]; exact reached_due hδ (by omega) hdue)
      have hafter : r ≤ s.now + dt := hr.trans (Nat.le_add_right s.now dt)
      have hbefore : s.now + dt ≤ r + 200000 := by omega
      exact ⟨r, hafter, hd, hround, hbefore⟩
  | count =>
    rw [hat] at h
    replace h : s.now ≤ t + 200000 + 2 * δ := h
    simp only [step, cpuStep, hat]
    split
    · show s.now + dt ≤ t + 200000 + 3 * δ
      omega
    · show s.now + dt ≤ t + 1200000 + 9 * δ
      omega
  | deadline =>
    rw [hat] at h
    replace h : s.now ≤ t + 200000 + 3 * δ := h
    have hwrap := hsend hat
    simp only [step, cpuStep, hat]
    refine ⟨s.now + dt, le_rfl, by omega, hwrap, ?_, hmsg, ?_⟩
    · exact toUint32_deadline hwrap
    · exact Or.inl (Nat.le_add_right _ _)
  | send =>
    rw [hat] at h
    obtain ⟨c, hc, hround, hwrap, hdue⟩ := h
    rcases sendDue_cpu hwrap hc (Nat.le_add_right s.now dt) (by omega) hdue with
      ⟨hover, hlate⟩ | hrun
    · simp only [step, cpuStep, hat, hover, if_true]
      show s.now + dt ≤ t + 1200000 + 9 * δ
      omega
    · simp only [step, cpuStep, hat, if_neg hrun.running]
      exact ⟨c, hc.trans (Nat.le_add_right s.now dt), hround, hwrap, hrun⟩

/-- Only the call of `usb_send` sees the endpoint. -/
theorem due_txCallback {δ now t : ℕ} {usb : Usb.St} {pc : Pc} (h : Due δ now t usb pc)
    (reading : ℕ → UInt32) : Due δ now t (Usb.step reading usb .txCallback) pc := by
  cases pc with
  | toggle | arm | wait deadlineUs | count | deadline => exact h
  | send => exact h

/-- The toggles change at the toggle only. -/
theorem toggles_cpu (ub : ℚ → UInt32) (msg : List UInt8) {s : St} (hpc : s.pc ≠ .toggle) (dt : ℕ) :
    (step ub msg s (.cpu dt)).toggles = s.toggles := by
  cases hat : s.pc with
  | toggle => exact absurd hat hpc
  | wait deadlineUs =>
    simp only [step, cpuStep, hat]
    split <;> rfl
  | arm | count | deadline | send => simp only [step, cpuStep, hat]

theorem inTime_step {δ : ℕ} (hδ : δ ≤ 2 ^ 31) (hmsg : msg.length ≤ Usb.usbMaxPacketSize) (s : St)
    (a : Act) (hcalm : Calm δ s a) (h : InTime δ s) : InTime δ (step ub msg s a) := by
  obtain ⟨hchain, hdue⟩ := h
  cases a with
  | txCallback => exact ⟨hchain, fun t ht => due_txCallback (hdue t ht) fun _ => stamp s.now⟩
  | cpu dt =>
    rcases eq_or_ne s.pc .toggle with hat | hpc
    · rw [hat] at hdue
      have hdt : dt ≤ δ := hcalm.1
      simp only [step, cpuStep, hat]
      refine ⟨List.isChain_cons.mpr ⟨fun t ht => ?_, hchain⟩, fun t ht => ?_⟩
      · have hround : s.now ≤ t + 1200000 + 9 * δ := hdue t ht
        show s.now + dt ≤ t + 1200000 + 10 * δ
        omega
      · rw [Option.mem_def, List.head?_cons, Option.some.injEq] at ht
        exact ht.le
    · have hsame := toggles_cpu ub msg hpc dt
      refine ⟨by rw [hsame]; exact hchain, fun t ht => ?_⟩
      rw [hsame] at ht
      exact due_cpu hδ hmsg hcalm hpc (hdue t ht)

theorem due_le {δ now t : ℕ} {usb : Usb.St} {pc : Pc} (h : Due δ now t usb pc) :
    now ≤ t + 1200000 + 9 * δ := by
  cases pc with
  | toggle => exact h
  | arm =>
    replace h : now ≤ t := h
    omega
  | wait deadlineUs =>
    obtain ⟨r, -, -, hround, hnow⟩ := h
    omega
  | count =>
    replace h : now ≤ t + 200000 + 2 * δ := h
    omega
  | deadline =>
    replace h : now ≤ t + 200000 + 3 * δ := h
    omega
  | send =>
    obtain ⟨c, -, hround, -, -, -, hdue⟩ := h
    have hnow : now ≤ c + 1000000 + 4 * δ := by
      cases hpc : usb.pc <;> rw [hpc] at hdue <;> simp only at hdue <;> omega
    omega

/-- CORRECT: with steps of at most `δ`, and no wrap of the timer from the start of a send until a
    second and eight steps later, two toggles are at most 1.2 s and ten steps apart, and the latest
    one is never longer ago, whatever the endpoint does. -/
theorem keeps_blinking (ub : ℚ → UInt32) (hmsg : msg.length ≤ Usb.usbMaxPacketSize) {δ : ℕ}
    (hδ : δ ≤ 2 ^ 31) (now : ℕ) (led txReady : Bool) (acts : List Act)
    (hcalm : Along (step ub msg) (Calm δ) (init now led txReady) acts) :
    let s := exec ub msg now led txReady acts
    (s.toggles.IsChain fun later earlier => later ≤ earlier + 1200000 + 10 * δ) ∧
      ∀ t ∈ s.toggles.head?, s.now ≤ t + 1200000 + 9 * δ := by
  intro s
  obtain ⟨hchain, hdue⟩ := inv_run_along (step ub msg) (InTime δ) (inTime_step hδ hmsg) acts
    (init now led txReady) hcalm ⟨List.isChain_nil, fun t ht => absurd ht (by simp [init])⟩
  exact ⟨hchain, fun t ht => due_le (hdue t ht)⟩

/-- Steps of 70 ms. -/
def slowSteps (n : ℕ) : List Act := List.replicate n (.cpu 70000)

/-- Two rounds, the second with a message that nobody reads. -/
theorem keeps_blinking_unread :
    let s := exec (fun _ => 0) [0x49, 0x4d, 0x55] 0 false false (slowSteps 40)
    (s.toggles.IsChain fun later earlier => later ≤ earlier + 1200000 + 10 * 70000) ∧
      ∀ t ∈ s.toggles.head?, s.now ≤ t + 1200000 + 9 * 70000 :=
  keeps_blinking (fun _ => 0) (by decide) (by decide) 0 false false (slowSteps 40)
    (by decide +kernel)

/-! ### The messages -/

/-- The rounds among the first `n` that send: `i` is 32 bits wide. -/
def sends (n : ℕ) : ℕ := Nat.count (fun j => j % 2 ^ 32 % 10 ≠ 0) n

/-- Nine in ten. -/
theorem sends_eq {n : ℕ} (h : n ≤ 2 ^ 32) : sends n = n - (n + 9) / 10 := by
  induction n with
  | zero => rfl
  | succ n ih =>
    have hsmall : n % 2 ^ 32 = n := Nat.mod_eq_of_lt h
    rw [sends, Nat.count_succ, hsmall, ← sends, ih (Nat.le_of_succ_le h)]
    split <;> omega

theorem count_round {rounds : ℕ} {i : UInt32} (h : i = UInt32.ofNat rounds) :
    i % 10 ≠ 0 ↔ rounds % 2 ^ 32 % 10 ≠ 0 := by
  rw [h, Ne, ← UInt32.toNat_inj, UInt32.toNat_mod, UInt32.toNat_ofNat']
  rfl

theorem sends_succ {rounds : ℕ} {i : UInt32} (h : i = UInt32.ofNat rounds) :
    sends (rounds + 1) = sends rounds + if i % 10 ≠ 0 then 1 else 0 := by
  rw [sends, Nat.count_succ, ← sends]
  exact congrArg (sends rounds + ·) (if_congr (count_round h).symm rfl rfl)

/-- A call that has still to pass the message, or has passed it. -/
def Passing (msg : List UInt8) (usb : Usb.St) (calls : ℕ) : Prop :=
  (usb.p = msg ∧ usb.passed.length < calls) ∨
    (usb.p = [] ∧ usb.pc = .outer ∧ usb.passed.length ≤ calls)

/-- `counted`: `i` is the number of rounds. `called`: in each round that sends there is a call.
    `whole`: a packet is a message. -/
structure Reports (msg : List UInt8) (s : St) : Prop where
  counted : s.i = UInt32.ofNat s.rounds
  called : s.calls + (if s.pc = .deadline then 1 else 0) = sends s.rounds
  whole : ∀ m ∈ s.usb.passed, m.bytes = msg
  passed : s.usb.passed.length ≤ s.calls
  passing : s.pc = .send → Passing msg s.usb s.calls

/-- A step of the call. -/
theorem passing_cpu {usb : Usb.St} {calls : ℕ} (reading : ℕ → UInt32)
    (hmsg : msg.length ≤ Usb.usbMaxPacketSize) (hwhole : ∀ m ∈ usb.passed, m.bytes = msg)
    (h : Passing msg usb calls) :
    let usb' := Usb.step reading usb .cpu
    (∀ m ∈ usb'.passed, m.bytes = msg) ∧ usb'.passed.length ≤ calls ∧
      (usb'.pc ≠ .done → Passing msg usb' calls) := by
  intro usb'
  rcases h with ⟨hp, hlt⟩ | ⟨hp, hpc, hle⟩
  · rcases eq_or_ne usb.pc .write with hpc | hpc
    · have hpassed : usb'.passed = usb.passed ++ [⟨usb.reads, msg⟩] := by
        simp only [usb', Usb.step, Usb.cpuStep, hpc, hp, List.take_of_length_le hmsg]
      have hlength : usb'.passed.length = usb.passed.length + 1 := by
        rw [hpassed, List.length_append, List.length_singleton]
      refine ⟨fun m hm => ?_, by omega, fun _ => Or.inr ⟨?_, ?_, by omega⟩⟩
      · rw [hpassed] at hm
        rcases List.mem_append.mp hm with hold | hnew
        · exact hwhole m hold
        · rw [List.mem_singleton.mp hnew]
      · simp only [usb', Usb.step, Usb.cpuStep, hpc, hp]
        exact List.drop_eq_nil_of_le hmsg
      · simp only [usb', Usb.step, Usb.cpuStep, hpc]
    · obtain ⟨hp', hpassed⟩ := Usb.cpuStep_frame reading hpc
      have hsame : usb'.p = usb.p ∧ usb'.passed = usb.passed := ⟨hp', hpassed⟩
      rw [hsame.2]
      refine ⟨hwhole, hlt.le, fun _ => Or.inl ⟨hsame.1.trans hp, ?_⟩⟩
      rw [hsame.2]
      exact hlt
  · have hdone : usb'.pc = .done ∧ usb'.passed = usb.passed := by
      simp [usb', Usb.step, Usb.cpuStep, hpc, hp]
    rw [hdone.2]
    exact ⟨hwhole, hle, fun hrun => absurd hdone.1 hrun⟩

theorem reports_cpu (hmsg : msg.length ≤ Usb.usbMaxPacketSize) {s : St} (h : Reports msg s) :
    Reports msg (cpuStep ub msg s) := by
  obtain ⟨hcounted, hcalled, hwhole, hpassed, hpassing⟩ := h
  cases hpc : s.pc with
  | toggle | arm =>
    rw [hpc] at hcalled
    simp only [cpuStep, hpc]
    exact ⟨hcounted, by simpa using hcalled, hwhole, hpassed, fun hsend => by simp at hsend⟩
  | wait deadlineUs =>
    rw [hpc] at hcalled
    simp only [cpuStep, hpc]
    split
    · exact ⟨hcounted, by simpa using hcalled, hwhole, hpassed, fun hsend => by simp at hsend⟩
    · exact ⟨hcounted, by simpa [hpc] using hcalled, hwhole, hpassed, hpassing⟩
  | count =>
    rw [hpc] at hcalled
    have hcalls : s.calls = sends s.rounds := by simpa using hcalled
    simp only [cpuStep, hpc]
    refine ⟨?_, ?_, hwhole, hpassed, fun hsend => ?_⟩
    · simp only [hcounted, UInt32.ofNat_add]
      rfl
    · rw [hcalls, sends_succ hcounted]
      by_cases hi : s.i % 10 ≠ 0 <;> simp [hi]
    · by_cases hi : s.i % 10 ≠ 0 <;> simp [hi] at hsend
  | deadline =>
    rw [hpc] at hcalled
    simp only [cpuStep, hpc]
    refine ⟨hcounted, by simpa using hcalled, hwhole, Nat.le_succ_of_le hpassed, fun _ => ?_⟩
    exact Or.inl ⟨rfl, Nat.lt_succ_of_le hpassed⟩
  | send =>
    rw [hpc] at hcalled
    obtain ⟨hwhole', hpassed', hpassing'⟩ :=
      passing_cpu (fun _ => stamp s.now) hmsg hwhole (hpassing hpc)
    simp only [cpuStep, hpc]
    refine ⟨hcounted, ?_, hwhole', hpassed', fun hsend => hpassing' fun hdone => ?_⟩
    · split <;> simpa using hcalled
    · simp [hdone] at hsend

theorem reports_step (hmsg : msg.length ≤ Usb.usbMaxPacketSize) (s : St) (a : Act)
    (h : Reports msg s) : Reports msg (step ub msg s a) := by
  obtain ⟨hcounted, hcalled, hwhole, hpassed, hpassing⟩ := h
  cases a with
  | txCallback => exact ⟨hcounted, hcalled, hwhole, hpassed, hpassing⟩
  | cpu dt => exact reports_cpu hmsg ⟨hcounted, hcalled, hwhole, hpassed, hpassing⟩

/-- CORRECT: of a message that fits one packet, in every run each packet is the whole, there is at
    most one for each call of `usb_send`, and up to the wrap of `i` a call in every round but one in
    ten. -/
theorem error_reports (ub : ℚ → UInt32) (hmsg : msg.length ≤ Usb.usbMaxPacketSize) (now : ℕ)
    (led txReady : Bool) (acts : List Act) :
    let s := exec ub msg now led txReady acts
    (∀ m ∈ s.usb.passed, m.bytes = msg) ∧ s.usb.passed.length ≤ s.calls ∧
      (s.rounds ≤ 2 ^ 32 →
        s.calls + (if s.pc = .deadline then 1 else 0) = s.rounds - (s.rounds + 9) / 10) := by
  intro s
  have hreports : Reports msg s := by
    refine inv_run (step ub msg) (Reports msg) (reports_step hmsg) acts
      ⟨rfl, rfl, fun m hm => ?_, le_rfl, fun hsend => ?_⟩
    · simp [init, Usb.idle] at hm
    · simp [init] at hsend
  refine ⟨hreports.whole, hreports.passed, fun hrounds => ?_⟩
  rw [hreports.called, sends_eq hrounds]

theorem error_reports_slow :
    let s := exec (fun _ => 0) [0x49, 0x4d, 0x55] 0 false true (slowSteps 40)
    (∀ m ∈ s.usb.passed, m.bytes = [0x49, 0x4d, 0x55]) ∧ s.usb.passed.length ≤ s.calls ∧
      (s.rounds ≤ 2 ^ 32 →
        s.calls + (if s.pc = .deadline then 1 else 0) = s.rounds - (s.rounds + 9) / 10) :=
  error_reports (fun _ => 0) (by decide) 0 false true (slowSteps 40)

end FC.Fault

import FlightController.Schemes.Clock
import FlightController.Telemetry.Usb

/-! The deadline of `usb_send` in true time. The call compares the timer reading with the deadline
    directly (`timer_now_us() < deadline_us`), where `timer_wait_until_us` compares their signed
    difference. The direct comparison is right for readings in the deadline's epoch, so the call
    keeps its deadline exactly when no wrap of the timer comes between the deadline and any reading
    the call can make (`usb_send_keeps_deadline`).

    Otherwise it errs in both directions: with the deadline past the wrap it gives up at once, with
    a reading past the wrap it waits for the timer to come round again. -/

namespace FC.Usb
open Schemes Schemes.Clock

/-- The true times `r` of a call's timer readings, the first one included: never decreasing, less
    than half a turn apart, and with a deadline less than half a turn away from the start. -/
structure Readings (r : ℕ → ℕ) (start deadline : ℕ) : Prop where
  start_le : start ≤ r 0
  start_near : r 0 < start + 2 ^ 31
  mono : Monotone r
  gap : ∀ k, r (k + 1) < r k + 2 ^ 31
  ahead : deadline < start + 2 ^ 31
  behind : start < deadline + 2 ^ 31

/-- A run of a call whose readings see the times `r`. -/
def sendAt (r : ℕ → ℕ) (buf : List UInt8) (deadline : ℕ) (txReady : Bool) (acts : List Act) : St :=
  exec (fun k => stamp (r k)) (usbSend (idle txReady) buf (stamp deadline)) acts

/-- What a deadline asks for. After a reading at or past it, the call makes at most one more reading
    (`reads`), passes at most one more packet (`packets`) and returns after a few steps (`returns`);
    and it never returns with data left while all its readings were before it (`patient`). -/
structure KeepsDeadline (r : ℕ → ℕ) (deadline : ℕ) (s : St) : Prop where
  reads : ∀ k, deadline ≤ r k → s.reads ≤ k + 2
  packets : ∀ k, deadline ≤ r k → (s.passed.filter (k < ·.reads)).length ≤ 1
  returns : ∀ k, deadline ≤ r k → 4 * (k + 2) < s.steps → s.pc = .done
  patient : s.pc = .done → s.p ≠ [] → ∃ k < s.reads, deadline ≤ r k

/-- No wrap comes between the deadline and a reading that the call can make: the first one, and the
    two after any reading before the deadline. -/
def SameEpoch (r : ℕ → ℕ) (deadline : ℕ) : Prop :=
  r 0 / 2 ^ 32 = deadline / 2 ^ 32 ∧
    ∀ k, r k < deadline → r (k + 2) / 2 ^ 32 = deadline / 2 ^ 32

variable {r : ℕ → ℕ} {start deadline : ℕ}

/-! ### Without a wrap the deadline is kept -/

/-- Of `n` readings, all but the last `j` were before the deadline. -/
def AllBut (r : ℕ → ℕ) (deadline j n : ℕ) : Prop := ∀ k, k + j < n → r k < deadline

theorem AllBut.mono {i j n : ℕ} (h : AllBut r deadline i n) (hij : i ≤ j) : AllBut r deadline j n :=
  fun k hk => h k (by omega)

/-- The next reading is the first one, or one of the two after a reading before the deadline. -/
def MayRead (r : ℕ → ℕ) (deadline n : ℕ) : Prop :=
  AllBut r deadline 1 n ∧ (n ≤ 1 → AllBut r deadline 0 n)

/-- There the comparison of the readings is the comparison of the times. -/
theorem early_iff (hr : Readings r start deadline) (hep : SameEpoch r deadline) {n : ℕ}
    (h : MayRead r deadline n) : stamp (r n) < stamp deadline ↔ r n < deadline := by
  have hsame : r n / 2 ^ 32 = deadline / 2 ^ 32 := by
    match n with
    | 0 => exact hep.1
    | 1 =>
      -- between readings 0 and 2
      have hzero := hep.1
      have htwo : r 2 / 2 ^ 32 = deadline / 2 ^ 32 := hep.2 0 (h.2 le_rfl 0 (by omega))
      have hlo : r 0 / 2 ^ 32 ≤ r 1 / 2 ^ 32 := Nat.div_le_div_right (hr.mono (by omega))
      have hhi : r 1 / 2 ^ 32 ≤ r 2 / 2 ^ 32 := Nat.div_le_div_right (hr.mono (by omega))
      omega
    | m + 2 => exact hep.2 m (h.1 m (by omega))
  rw [stamp_lt_stamp_iff, mod_lt_mod_iff hsame]

theorem AllBut.mayRead {n : ℕ} (h : AllBut r deadline 0 n) : MayRead r deadline n :=
  ⟨h.mono (by omega), fun _ => h⟩

/-- A reading before the deadline follows readings before it. -/
theorem allBut_of_early (hr : Readings r start deadline) {n : ℕ} (h : r n < deadline) :
    AllBut r deadline 0 (n + 1) :=
  fun k hk => lt_of_le_of_lt (hr.mono (by omega)) h

/-- Where the call stands decides how far its readings can have come. -/
def Timely (r : ℕ → ℕ) (deadline : ℕ) (s : St) : Prop :=
  match s.pc with
  | .outer => MayRead r deadline s.reads
  | .inner | .innerTime => s.p ≠ [] ∧ 1 ≤ s.reads ∧ AllBut r deadline 0 s.reads
  | .check => MayRead r deadline s.reads ∧
    (s.txReady = true ∨ ∃ k < s.reads, deadline ≤ r k)
  | .write => MayRead r deadline s.reads
  | .done => AllBut r deadline 2 s.reads ∧ (s.p ≠ [] → ∃ k < s.reads, deadline ≤ r k)

theorem timely_cpu (hr : Readings r start deadline) (hep : SameEpoch r deadline) {s : St}
    (hd : s.deadlineUs = stamp deadline) (h : Timely r deadline s) :
    Timely r deadline (cpuStep (fun k => stamp (r k)) s) := by
  cases hpc : s.pc <;> rw [Timely, hpc] at h <;> simp only [cpuStep, hpc, hd]
  case outer =>
    have hread := early_iff hr hep h
    split
    · rename_i hp
      exact ⟨h.1.mono (by omega), fun hne => absurd hp hne⟩
    · rename_i hp
      split
      · rename_i hearly
        exact ⟨hp, by simp, allBut_of_early hr (hread.mp hearly)⟩
      · rename_i hlate
        exact ⟨fun k hk => h.1 k (by simp only [] at hk; omega),
          fun _ => ⟨s.reads, Nat.lt_succ_self _, not_lt.mp (mt hread.mpr hlate)⟩⟩
  case inner =>
    split
    · rename_i hready
      exact ⟨h.2.2.mayRead, Or.inl hready⟩
    · exact h
  case innerTime =>
    obtain ⟨hp, hpos, hall⟩ := h
    have hread := early_iff hr hep hall.mayRead
    split
    · rename_i hearly
      exact ⟨hp, by simp, allBut_of_early hr (hread.mp hearly)⟩
    · rename_i hlate
      -- the late reading is not the first one
      refine ⟨⟨fun k hk => hall k (by simp only [] at hk; omega), fun hfirst => ?_⟩,
        Or.inr ⟨s.reads, Nat.lt_succ_self _, not_lt.mp (mt hread.mpr hlate)⟩⟩
      simp only [] at hfirst
      omega
  case check =>
    split
    · exact h.1
    · rename_i hbusy
      exact ⟨h.1.1.mono (by omega), fun _ => h.2.resolve_left hbusy⟩
  case write => exact h
  case done => simpa only [Timely, hpc] using h

/-- Packets passed after reading `k`. -/
def after (k : ℕ) (passed : List Packet) : List Packet := passed.filter (k < ·.reads)

theorem after_eq_nil {k : ℕ} {passed : List Packet} (h : ∀ m ∈ passed, m.reads ≤ k) :
    after k passed = [] := by
  rw [after, List.filter_eq_nil_iff]
  intro m hm
  have hle := h m hm
  simp only [decide_eq_true_eq]; omega

/-- Inside an iteration of the outer loop no packet has followed a late reading yet; between two
    iterations at most one has. -/
structure PacketsOk (r : ℕ → ℕ) (deadline : ℕ) (s : St) : Prop where
  past : ∀ m ∈ s.passed, m.reads ≤ s.reads
  most : ∀ k, deadline ≤ r k → (after k s.passed).length ≤ 1
  noneYet : s.pc ≠ .outer → s.pc ≠ .done → ∀ k, deadline ≤ r k → after k s.passed = []

theorem packetsOk_cpu (hr : Readings r start deadline) (hep : SameEpoch r deadline) {s : St}
    (hd : s.deadlineUs = stamp deadline) (ht : Timely r deadline s) (h : PacketsOk r deadline s) :
    PacketsOk r deadline (cpuStep (fun k => stamp (r k)) s) := by
  obtain ⟨hpast, hmost, hnone⟩ := h
  cases hpc : s.pc <;> rw [Timely, hpc] at ht <;> simp only [cpuStep, hpc, hd]
  case outer =>
    split
    · exact ⟨hpast, hmost, fun _ hne => absurd rfl hne⟩
    · refine ⟨fun m hm => (hpast m hm).trans (Nat.le_succ _), hmost, ?_⟩
      split
      · -- the reading was early, so every late one is still to come
        rename_i hearly
        intro _ _ k hk
        have hbefore := (early_iff hr hep ht).mp hearly
        have hlt : s.reads < k := by
          by_contra hle
          have := hr.mono (not_lt.mp hle)
          omega
        exact after_eq_nil fun m hm => (hpast m hm).trans hlt.le
      · exact fun _ hne => absurd rfl hne
  case write =>
    have hempty := hnone (by simp [hpc]) (by simp [hpc])
    refine ⟨?_, fun k hk => ?_, fun hne => absurd rfl hne⟩
    · intro m hm
      rcases List.mem_append.mp hm with hold | hnew
      · exact hpast m hold
      · rw [List.mem_singleton.mp hnew]
    · have hold : after k s.passed = [] := hempty k hk
      rw [after, List.filter_append, ← after, hold, List.nil_append]
      exact List.length_filter_le _ _
  case innerTime =>
    exact ⟨fun m hm => (hpast m hm).trans (Nat.le_succ _), hmost,
      fun _ _ => hnone (by simp [hpc]) (by simp [hpc])⟩
  case done => exact ⟨hpast, hmost, fun _ hne => absurd hpc hne⟩
  all_goals exact ⟨hpast, hmost, fun _ _ => hnone (by simp [hpc]) (by simp [hpc])⟩

/-- What a call keeps along its run, when the epochs agree. -/
structure Keeping (r : ℕ → ℕ) (deadline : ℕ) (s : St) : Prop where
  deadlineUs : s.deadlineUs = stamp deadline
  timely : Timely r deadline s
  packets : PacketsOk r deadline s

theorem keeping_step (hr : Readings r start deadline) (hep : SameEpoch r deadline) {s : St}
    (h : Keeping r deadline s) (a : Act) :
    Keeping r deadline (step (fun k => stamp (r k)) s a) := by
  obtain ⟨hd, ht, hp⟩ := h
  cases a with
  | cpu =>
    have hp' := packetsOk_cpu hr hep hd ht hp
    exact ⟨(deadlineUs_cpu _ s).trans hd, timely_cpu hr hep hd ht, hp'.past, hp'.most, hp'.noneYet⟩
  | txCallback =>
    refine ⟨hd, ?_, hp.past, hp.most, hp.noneYet⟩
    -- only the test after the inner loop looks at the flag
    unfold Timely at ht ⊢
    simp only [step]
    cases hpc : s.pc <;> rw [hpc] at ht
    case check => exact ⟨ht.1, Or.inl trivial⟩
    all_goals exact ht

theorem keepsDeadline_of_keeping {s : St} (h : Keeping r deadline s)
    (hsteps : s.pc ≠ .done → s.steps ≤ 4 * s.reads) : KeepsDeadline r deadline s := by
  obtain ⟨_, ht, hp⟩ := h
  have hall : AllBut r deadline 2 s.reads := by
    unfold Timely at ht
    cases hpc : s.pc <;> rw [hpc] at ht
    case inner | innerTime => exact ht.2.2.mono (by omega)
    case check => exact ht.1.1.mono (by omega)
    case done => exact ht.1
    all_goals exact ht.1.mono (by omega)
  have hreads : ∀ k, deadline ≤ r k → s.reads ≤ k + 2 := by
    intro k hk
    by_contra hmore
    have := hall k (by omega)
    omega
  refine ⟨hreads, hp.most, fun k hk hlong => ?_, fun hpc => ?_⟩
  · by_contra hrun
    have := hsteps hrun
    have := hreads k hk
    omega
  · rw [Timely, hpc] at ht
    exact ht.2

/-! ### With a wrap some run breaks it

While readings look early and the endpoint stays busy the call polls. Two schedules then show a wrap
at reading `j`: the endpoint turns ready after one more poll, or right after the poll that looked
late. -/

/-- Reading `k` looks like one before the deadline. -/
def LooksEarly (r : ℕ → ℕ) (deadline k : ℕ) : Prop := stamp (r k) < stamp deadline

theorem looksEarly_iff_of_sameEpoch {k : ℕ} (h : r k / 2 ^ 32 = deadline / 2 ^ 32) :
    LooksEarly r deadline k ↔ r k < deadline := by
  rw [LooksEarly, stamp_lt_stamp_iff, mod_lt_mod_iff h]

/-- `j + 1` readings that look early, with the endpoint busy: the call polls. -/
theorem polls {buf : List UInt8} (hbuf : buf ≠ []) {j : ℕ}
    (h : ∀ i ≤ j, LooksEarly r deadline i) :
    sendAt r buf deadline false (cpus (2 * j + 1)) =
      ⟨.inner, buf, stamp deadline, false, j + 1, 2 * j + 1, []⟩ := by
  induction j with
  | zero =>
    have hearly : stamp (r 0) < stamp deadline := h 0 le_rfl
    simp [sendAt, exec, cpus, usbSend, idle, step, cpuStep, hbuf, hearly]
  | succ j ih =>
    have hearly : stamp (r (j + 1)) < stamp deadline := h (j + 1) le_rfl
    have hpoll := ih fun i hi => h i (by omega)
    have hsplit : cpus (2 * (j + 1) + 1) = cpus (2 * j + 1) ++ [.cpu, .cpu] := by
      rw [cpus, show 2 * (j + 1) + 1 = 2 * j + 1 + 2 by omega, List.replicate_add]; rfl
    rw [sendAt, exec] at hpoll
    rw [hsplit, sendAt, exec, run_append, hpoll]
    simp [step, cpuStep, hearly]; omega

/-- More than one packet's worth of data. -/
def longBuf : List UInt8 := List.replicate 65 0

theorem longBuf_ne_nil : longBuf ≠ [] := by decide

/-- When reading `j` looks early, two more readings may follow it. -/
theorem reads_of_looksEarly {j : ℕ} (h : ∀ i ≤ j, LooksEarly r deadline i) :
    ∃ acts, (sendAt r longBuf deadline false acts).reads = j + 3 := by
  have hpoll := polls longBuf_ne_nil h
  by_cases hnext : stamp (r (j + 1)) < stamp deadline
  · -- another poll, and another one
    refine ⟨cpus (2 * j + 1) ++ cpus 4, ?_⟩
    rw [sendAt, exec] at hpoll
    rw [sendAt, exec, run_append, hpoll]
    simp [cpus, step, cpuStep, hnext]
  · -- the poll looks late, but the endpoint is ready by then: a packet, and the outer condition
    refine ⟨cpus (2 * j + 1) ++ (cpus 2 ++ .txCallback :: cpus 3), ?_⟩
    rw [sendAt, exec] at hpoll
    rw [sendAt, exec, run_append, hpoll]
    simp [cpus, step, cpuStep, hnext, longBuf, usbMaxPacketSize]

/-- When the reading after a poll that looked late looks early, one more reading may follow it. -/
theorem reads_of_looksEarly_again {j : ℕ} (h : ∀ i ≤ j, LooksEarly r deadline i)
    (hlate : ¬ LooksEarly r deadline (j + 1)) (hagain : LooksEarly r deadline (j + 2)) :
    ∃ acts, (sendAt r longBuf deadline false acts).reads = j + 4 := by
  have hpoll := polls longBuf_ne_nil h
  rw [LooksEarly] at hlate hagain
  refine ⟨cpus (2 * j + 1) ++ (cpus 2 ++ .txCallback :: cpus 5), ?_⟩
  rw [sendAt, exec] at hpoll
  rw [sendAt, exec, run_append, hpoll]
  simp [cpus, step, cpuStep, hlate, hagain, longBuf, usbMaxPacketSize]

/-- A late reading, less than a turn late, that does not look early is in the deadline's epoch. -/
theorem sameEpoch_of_late {k : ℕ} (hlate : deadline ≤ r k) (hnear : r k < deadline + 2 ^ 32)
    (hlooks : ¬ LooksEarly r deadline k) : r k / 2 ^ 32 = deadline / 2 ^ 32 := by
  by_contra hwrap
  rw [LooksEarly, stamp_lt_stamp_iff] at hlooks
  exact hlooks (mod_lt_mod_of_wrap hlate hnear hwrap)

theorem sameEpoch_of_keeps (hr : Readings r start deadline)
    (hkeeps : ∀ buf txReady acts, KeepsDeadline r deadline (sendAt r buf deadline txReady acts)) :
    SameEpoch r deadline := by
  have hahead := hr.ahead
  have hbehind := hr.behind
  have hstart := hr.start_le
  have hnear := hr.start_near
  -- a late reading after early ones only must not look early
  have hlooksLate : ∀ j, deadline ≤ r j → (∀ i < j, LooksEarly r deadline i) →
      ¬ LooksEarly r deadline j := by
    intro j hlate hbefore hlooks
    obtain ⟨acts, hreads⟩ := reads_of_looksEarly (j := j) fun i hi => by
      rcases Nat.lt_or_eq_of_le hi with hlt | rfl
      · exact hbefore i hlt
      · exact hlooks
    have := (hkeeps longBuf false acts).reads j hlate
    omega
  have hfirst : r 0 / 2 ^ 32 = deadline / 2 ^ 32 := by
    rcases Nat.lt_or_ge (r 0) deadline with hbefore | hlate
    · -- otherwise the call gives up on its first reading
      by_contra hwrap
      have hlooks : ¬ stamp (r 0) < stamp deadline := by
        rw [stamp_lt_stamp_iff, not_lt]
        exact mod_le_mod_of_wrap hbefore (by omega) hwrap
      have hgone : sendAt r longBuf deadline false [.cpu] =
          ⟨.done, longBuf, stamp deadline, false, 1, 1, []⟩ := by
        simp [sendAt, exec, usbSend, idle, step, cpuStep, hlooks, longBuf]
      have hpatient := (hkeeps longBuf false [.cpu]).patient
      rw [hgone] at hpatient
      obtain ⟨k, hk, hle⟩ := hpatient rfl longBuf_ne_nil
      rw [Nat.lt_one_iff.mp hk] at hle
      omega
    · exact sameEpoch_of_late hlate (by omega) (hlooksLate 0 hlate fun i hi => by omega)
  -- so all readings before the deadline look it
  have hearly : ∀ i, r i < deadline → LooksEarly r deadline i := by
    intro i hi
    have hlo : r 0 / 2 ^ 32 ≤ r i / 2 ^ 32 := Nat.div_le_div_right (hr.mono (Nat.zero_le i))
    have hhi : r i / 2 ^ 32 ≤ deadline / 2 ^ 32 := Nat.div_le_div_right hi.le
    exact (looksEarly_iff_of_sameEpoch (by omega)).mpr hi
  have hupto : ∀ k i, r k < deadline → i ≤ k → LooksEarly r deadline i :=
    fun k i hk hi => hearly i (lt_of_le_of_lt (hr.mono hi) hk)
  refine ⟨hfirst, fun k hk => ?_⟩
  have hgap := hr.gap k
  have hgap' : r (k + 2) < r (k + 1) + 2 ^ 31 := hr.gap (k + 1)
  rcases Nat.lt_or_ge (r (k + 2)) deadline with hbefore | hlate
  · have hlo : r 0 / 2 ^ 32 ≤ r (k + 2) / 2 ^ 32 :=
      Nat.div_le_div_right (hr.mono (Nat.zero_le _))
    have hhi : r (k + 2) / 2 ^ 32 ≤ deadline / 2 ^ 32 := Nat.div_le_div_right hbefore.le
    omega
  · refine sameEpoch_of_late hlate (by omega) ?_
    rcases Nat.lt_or_ge (r (k + 1)) deadline with hone | hone
    · exact hlooksLate (k + 2) hlate fun i hi => hupto (k + 1) i hone (by omega)
    · -- reading `k + 1` is the first late one
      have hpast := hlooksLate (k + 1) hone fun i hi => hupto k i hk (by omega)
      intro hagain
      obtain ⟨acts, hreads⟩ :=
        reads_of_looksEarly_again (fun i hi => hupto k i hk hi) hpast hagain
      have := (hkeeps longBuf false acts).reads (k + 1) hone
      omega

/-- CORRECT exactly without a wrap: every call with these readings keeps its deadline, whatever the
    buffer and the endpoint do, iff the readings it can make are in the deadline's epoch. -/
theorem usb_send_keeps_deadline (hr : Readings r start deadline) :
    (∀ buf txReady acts, KeepsDeadline r deadline (sendAt r buf deadline txReady acts)) ↔
      SameEpoch r deadline := by
  refine ⟨sameEpoch_of_keeps hr, fun hep buf txReady acts => ?_⟩
  have hkeeping : Keeping r deadline (sendAt r buf deadline txReady acts) :=
    inv_run _ (Keeping r deadline) (fun _ a h => keeping_step hr hep h a) acts
      ⟨rfl, ⟨fun k hk => absurd hk (by simp [usbSend, idle]),
        fun _ k hk => absurd hk (by simp [usbSend, idle])⟩,
        ⟨by simp [usbSend, idle], by simp [usbSend, idle, after], fun hne => absurd rfl hne⟩⟩
  exact keepsDeadline_of_keeping hkeeping (steps_le_of_running _ buf (stamp deadline) txReady acts)

/-- One reading each microsecond, from 1 s on. -/
def steadyReadings (k : ℕ) : ℕ := 1000000 + k

theorem usb_send_keeps_deadline_steady :
    KeepsDeadline steadyReadings 1002000
      (sendAt steadyReadings longBuf 1002000 true (cpus 20)) := by
  have hr : Readings steadyReadings 1000000 1002000 :=
    ⟨by decide, by decide, fun i j h => Nat.add_le_add_left h _,
      fun k => by unfold steadyReadings; omega, by decide, by decide⟩
  have hep : SameEpoch steadyReadings 1002000 :=
    ⟨by decide, fun k hk => by unfold steadyReadings at hk ⊢; omega⟩
  exact (usb_send_keeps_deadline hr).mpr hep longBuf true (cpus 20)

/-- Polls 100 us apart around a wrap of the timer, with the deadline 20 us before it. -/
def wrapReadings (k : ℕ) : ℕ := 2 ^ 32 - 200 + 100 * k

/-- With a host that does not read, the poll just after the wrap looks early, and so do those after
    it: the call goes on polling. -/
theorem usb_send_stalls_past_wrap : Readings wrapReadings (2 ^ 32 - 200) (2 ^ 32 - 20) ∧
    ¬ KeepsDeadline wrapReadings (2 ^ 32 - 20)
      (sendAt wrapReadings longBuf (2 ^ 32 - 20) false (cpus 19)) := by
  refine ⟨⟨by decide, by decide, fun i j h => ?_, fun k => ?_, by decide, by decide⟩, ?_⟩
  · unfold wrapReadings; omega
  · unfold wrapReadings; omega
  · intro hkeeps
    exact absurd (hkeeps.reads 2 (by decide)) (by decide +kernel)

end FC.Usb

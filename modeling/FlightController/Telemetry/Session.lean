import FlightController.Main.Loop
import FlightController.Telemetry.Format
import FlightController.Telemetry.Stream

/-! The telemetry of a whole flight (`src/main.c`, `src/telemetry/telemetry.c`). Every iteration of
    the main loop counts up the sequence number and sends nine messages under one deadline, 20 us
    before the next iteration is due. A run is a list of actions: an iteration reaches its first
    send, the current send takes its next step, the endpoint's callback runs. True time passes with
    the first two.

    A message is dropped only after a reading at or past the deadline, and so is then every later
    message of its iteration, unless the timer wraps in between. So the host gets from each
    iteration the first few of its nine messages and no others (`host_reads`): an iteration whose
    throttles arrive has arrived completely. And past the deadline the nine calls are over within
    fourteen steps (`idle_of_late`). -/

namespace FC.Telemetry
open Schemes Schemes.Clock

/-- The variables of `main` that are sent. -/
structure Snapshot where
  rxLatest : RxSample
  si : ImuSi F32
  imuAngles : ImuAngles F32
  imuBias : ImuBias F32
  fcOut : FcOut F32
  pid : PidAxis → Pid F32
  throttles : EscThrottles

/-- The nine messages, in the order of the calls. -/
def Snapshot.messages (v : Snapshot) : List Message :=
  [.rxSample v.rxLatest, .imuSi v.si, .imuAngles v.imuAngles, .imuBias v.imuBias, .fcOut v.fcOut,
    .pid .pitch (v.pid .pitch), .pid .roll (v.pid .roll), .pid .yaw (v.pid .yaw),
    .escThrottles v.throttles]

/-- `telemetry.send(id, &value, sizeof value, deadline_us)`. -/
def Message.call (m : Message) (seqnum deadlineUs : UInt32) : Call :=
  ⟨m.id, m.payload, seqnum, deadlineUs⟩

theorem Message.call_valid (m : Message) (seqnum deadlineUs : UInt32) :
    (m.call seqnum deadlineUs).Valid := by
  show m.payload.length = calcsize (packetDefs m.id).codec
  rw [codec_eq]
  exact length_layout m.members

/-- What the host should make of a message. -/
def Message.received (m : Message) (seqnum : UInt32) : Packet :=
  ⟨m.id, seqnum.toNat, (packetDefs m.id).fields.zip (m.members.map (·.2.toPy))⟩

theorem received_call (m : Message) (seqnum deadlineUs : UInt32) :
    (m.call seqnum deadlineUs).received = m.received seqnum := by
  have hvalues : unpackFrom (packetDefs m.id).codec m.payload = m.members.map (·.2.toPy) := by
    rw [codec_eq]
    exact unpackFrom_layout m.members
  rw [Message.received, ← hvalues]
  rfl

namespace Session

/-- An iteration that has reached its first send. -/
structure Iteration where
  values : Snapshot
  seqnum : UInt32
  deadlineUs : UInt32

def Iteration.calls (it : Iteration) : List Call :=
  it.values.messages.map fun m => m.call it.seqnum it.deadlineUs

/-- The variables of the two files, the sender, and true time. The last two fields are history: when
    the current iteration reached its first send, and the iterations so far. -/
structure St where
  now : ℕ
  seqnum : UInt32
  nextIterationStartUs : UInt32
  sender : Telemetry.St
  begun : ℕ
  log : List Iteration

inductive Act where
  | iteration (dt : ℕ) (values : Snapshot)
  | cpu (dt : ℕ)
  | txCallback

/-- All calls have returned. -/
def Idle (t : Telemetry.St) : Prop := t.usb.pc = .done ∧ t.second = none ∧ t.calls = []

instance (t : Telemetry.St) : Decidable (Idle t) := inferInstanceAs (Decidable (_ ∧ _ ∧ _))

/-- `telemetry_tick`. -/
def telemetryTick (seqnum : UInt32) : UInt32 := seqnum + 1

def step (s : St) : Act → St
  | .iteration dt values =>
    if Idle s.sender then
      let next := s.nextIterationStartUs + Main.mainLoopPeriodUs
      let it : Iteration := ⟨values, telemetryTick s.seqnum, next - 20⟩
      { now := s.now + dt
        seqnum := it.seqnum
        nextIterationStartUs := next
        sender := { s.sender with calls := it.calls }
        begun := s.now + dt
        log := s.log ++ [it] }
    else s
  | .cpu dt =>
    { s with
      now := s.now + dt
      sender := Telemetry.step (fun _ => stamp (s.now + dt)) s.sender .cpu }
  | .txCallback => { s with sender := Telemetry.step (fun _ => 0) s.sender .txCallback }

/-- Before the main loop: `next_iteration_start_us` is read off the timer. -/
def init (now : ℕ) (txReady : Bool) : St :=
  ⟨now, 0, stamp now, Telemetry.init [] txReady, now, []⟩

/-- The timer does not wrap between an iteration's first send and its last. -/
def NoWrap (s : St) : Act → Prop
  | .cpu dt => ¬ Idle s.sender → (s.now + dt) / 2 ^ 32 = s.begun / 2 ^ 32
  | _ => True

instance (s : St) (a : Act) : Decidable (NoWrap s a) :=
  match a with
  | .cpu _ => inferInstanceAs (Decidable (_ → _))
  | .iteration .. => isTrue trivial
  | .txCallback => isTrue trivial

/-! ### One iteration -/

/-- The sender is at the calls `cs`, all under the deadline `d`, and no payload is left over. -/
structure Pending (cs : List Call) (d : UInt32) (t : Telemetry.St) : Prop where
  second : t.second = none
  pending : t.calls <:+ cs
  deadline : t.usb.pc ≠ .done → t.usb.deadlineUs = d

/-- The sender within an iteration: `base` is what the iterations before it have passed to the
    endpoint, `cs` the iteration's calls, `d` their deadline, and `late` says that a reading was at
    or past it. The first `n` packets have been passed. The next one is in the buffer, or still to
    be taken up; where neither is so, it is too late for all that follow. -/
structure Progress (base : List (List UInt8)) (cs : List Call) (d : UInt32) (late : Prop)
    (t : Telemetry.St) : Prop extends Pending cs d t where
  loaded : Usb.Loaded t.usb
  check : t.usb.pc = .check → t.usb.txReady = false → late
  sent : ∃ n ≤ cs.length, t.usb.passed.map (·.bytes) = base ++ (cs.take n).map Call.packet ∧
    (t.usb.pc ≠ .done → t.usb.p ≠ [] → ∃ c, cs.drop n = c :: t.calls ∧ t.usb.p = c.packet) ∧
    (t.usb.pc = .done ∨ t.usb.p = [] → t.calls = cs.drop n ∨ late)

variable {base : List (List UInt8)} {cs : List Call} {d : UInt32} {late : Prop}
  {t : Telemetry.St}

/-- The test after the inner loop is reached with the flag set, or past the deadline. -/
theorem check_of_cpu {u : Usb.St} {x : UInt32}
    (h : (Usb.cpuStep (fun _ => x) u).pc = .check) :
    (Usb.cpuStep (fun _ => x) u).txReady = true ∨ u.deadlineUs ≤ x := by
  cases hpc : u.pc <;> simp only [Usb.cpuStep, hpc] at h ⊢
  case outer =>
    split at h
    · simp at h
    · simp only at h
      split at h <;> simp at h
  case inner =>
    split at h
    · rename_i hready
      exact Or.inl hready
    · simp at h
  case innerTime =>
    split at h
    · simp at h
    · rename_i hlate
      exact Or.inr (UInt32.not_lt.mp hlate)
  case check => split at h <;> simp at h
  case write | done => simp at h

/-- Bytes are given up past the deadline, or with the flag down at that test. -/
theorem done_of_cpu {u : Usb.St} {x : UInt32} (hrun : u.pc ≠ .done) (hp : u.p ≠ [])
    (h : (Usb.cpuStep (fun _ => x) u).pc = .done) :
    u.deadlineUs ≤ x ∨ u.pc = .check ∧ u.txReady = false := by
  cases hpc : u.pc <;> simp only [Usb.cpuStep, hpc] at h
  case outer =>
    rw [if_neg hp] at h
    split at h
    · simp at h
    · rename_i hlate
      exact Or.inl (UInt32.not_lt.mp hlate)
  case check =>
    split at h
    · simp at h
    · rename_i hbusy
      exact Or.inr ⟨rfl, Bool.eq_false_iff.mpr hbusy⟩
  case done => exact absurd hpc hrun
  case inner | innerTime => split at h <;> simp at h
  case write => simp at h

theorem pending_running (h : Pending cs d t) (hrun : t.usb.pc ≠ .done) (now : ℕ → UInt32) :
    Pending cs d (Telemetry.cpuStep now t) := by
  rw [cpuStep_of_running now hrun]
  exact ⟨h.second, h.pending, fun _ => (Usb.deadlineUs_cpu now t.usb).trans (h.deadline hrun)⟩

theorem pending_next (hvalid : ∀ c ∈ cs, c.Valid ∧ c.deadlineUs = d) (h : Pending cs d t)
    (hdone : t.usb.pc = .done) (now : ℕ → UInt32) : Pending cs d (Telemetry.cpuStep now t) := by
  obtain ⟨hsecond, hpending, -⟩ := h
  cases hcalls : t.calls with
  | nil =>
    have hsame : Telemetry.cpuStep now t = t := by
      simp [Telemetry.cpuStep, hdone, hsecond, hcalls]
    rw [hsame]
    exact ⟨hsecond, hpending, fun hne => absurd hdone hne⟩
  | cons c rest =>
    rw [hcalls] at hpending
    obtain ⟨hc, hd⟩ := hvalid c (hpending.subset (by simp))
    have hfits : sizeofHeader + c.payload.length ≤ Usb.usbMaxPacketSize := by
      have hpacket := hc.fits
      rwa [length_packet] at hpacket
    have hpending' : rest <:+ cs := (List.suffix_cons c rest).trans hpending
    rw [cpuStep_send _ hdone hsecond hcalls]
    dsimp only
    rw [if_pos hfits]
    split
    · exact ⟨hsecond, hpending', fun hne => absurd hdone hne⟩
    · exact ⟨hsecond, hpending', fun _ => hd⟩

/-- Every step of the sender is at these calls or at none. -/
theorem pending_step (hvalid : ∀ c ∈ cs, c.Valid ∧ c.deadlineUs = d) (h : Pending cs d t)
    (now : ℕ → UInt32) (a : Usb.Act) : Pending cs d (Telemetry.step now t a) := by
  cases a with
  | cpu =>
    rcases eq_or_ne t.usb.pc .done with hdone | hrun
    · exact pending_next hvalid h hdone now
    · exact pending_running h hrun now
  | txCallback => exact ⟨h.second, h.pending, h.deadline⟩

/-- The write passes the next packet, all of it. -/
theorem progress_write (hvalid : ∀ c ∈ cs, c.Valid) (h : Progress base cs d late t)
    (hpc : t.usb.pc = .write) (now : ℕ → UInt32) :
    Progress base cs d late (Telemetry.cpuStep now t) := by
  have hrun : t.usb.pc ≠ .done := by simp [hpc]
  have hpending := pending_running h.toPending hrun now
  obtain ⟨-, hloaded, _, n, hn, hpassed, hbuf, _⟩ := h
  obtain ⟨c, hnext, hp⟩ := hbuf hrun (hloaded (by simp [hpc]) hrun)
  have hlt : n < cs.length := by
    by_contra hge
    rw [List.drop_eq_nil_of_le (Nat.le_of_not_lt hge)] at hnext
    exact absurd hnext (by simp)
  have hc : cs[n] = c ∧ cs.drop (n + 1) = t.calls := by
    rw [List.drop_eq_getElem_cons hlt, List.cons.injEq] at hnext
    exact hnext
  have hfits : c.packet.length ≤ Usb.usbMaxPacketSize :=
    (hvalid c (by rw [← hc.1]; exact List.getElem_mem hlt)).fits
  have hstep : Usb.step now t.usb .cpu =
      { t.usb with
        pc := .outer, p := [], txReady := false, steps := t.usb.steps + 1
        passed := t.usb.passed ++ [⟨t.usb.reads, c.packet⟩] } := by
    simp only [Usb.step, Usb.cpuStep, hpc, hp, List.take_of_length_le hfits,
      List.drop_of_length_le hfits]
  rw [cpuStep_of_running now hrun, hstep] at hpending ⊢
  refine ⟨hpending, fun hne => absurd rfl hne, by simp, n + 1, hlt, ?_,
    fun _ hne => absurd rfl hne, fun _ => Or.inl hc.2.symm⟩
  rw [List.map_append, hpassed, List.take_succ_eq_append_getElem hlt, List.map_append, hc.1,
    List.append_assoc]
  rfl

/-- The other steps of a `usb_send` keep the buffer, or give it up after a late reading. -/
theorem progress_running (h : Progress base cs d late t) (hrun : t.usb.pc ≠ .done)
    (hpc : t.usb.pc ≠ .write) (x : UInt32) :
    Progress base cs d (late ∨ d ≤ x) (Telemetry.cpuStep (fun _ => x) t) := by
  have hpending := pending_running h.toPending hrun fun _ => x
  have hd := h.deadline hrun
  obtain ⟨-, hloaded, hcheck, n, hn, hpassed, hbuf, hrest⟩ := h
  obtain ⟨hp, hsame⟩ := Usb.cpuStep_frame (fun _ => x) hpc
  rw [cpuStep_of_running _ hrun] at hpending ⊢
  refine ⟨hpending, Usb.loaded_step _ hloaded .cpu, ?_, n, hn, ?_, ?_, ?_⟩
  · intro hnext hbusy
    rcases check_of_cpu hnext with hready | hlate
    · exact absurd hready (Bool.eq_false_iff.mp hbusy)
    · exact Or.inr (hd ▸ hlate)
  · simp only [Usb.step, hsame, hpassed]
  · intro _ hne
    simp only [Usb.step, hp] at hne ⊢
    exact hbuf hrun hne
  · rintro hend
    rcases eq_or_ne t.usb.p [] with hnil | hmore
    · exact (hrest (Or.inr hnil)).imp_right Or.inl
    · have hdone : (Usb.cpuStep (fun _ => x) t.usb).pc = .done :=
        hend.resolve_right (by simpa only [Usb.step, hp] using hmore)
      rcases done_of_cpu hrun hmore hdone with hlate | ⟨hat, hbusy⟩
      · exact Or.inr (Or.inr (hd ▸ hlate))
      · exact Or.inr (Or.inl (hcheck hat hbusy))

/-- Between two `usb_send` calls the next `send` takes its packet up, or it is late. -/
theorem progress_next (hvalid : ∀ c ∈ cs, c.Valid ∧ c.deadlineUs = d)
    (h : Progress base cs d late t) (hdone : t.usb.pc = .done) {x : UInt32}
    (hlater : late → d ≤ x) :
    Progress base cs d (late ∨ d ≤ x) (Telemetry.cpuStep (fun _ => x) t) := by
  have hnext := pending_next hvalid h.toPending hdone fun _ => x
  obtain ⟨⟨hsecond, hpending, -⟩, hloaded, _, n, hn, hpassed, _, hrest⟩ := h
  cases hcalls : t.calls with
  | nil =>
    have hsame : Telemetry.cpuStep (fun _ => x) t = t := by
      simp [Telemetry.cpuStep, hdone, hsecond, hcalls]
    rw [hsame] at hnext ⊢
    exact ⟨hnext, hloaded, by simp [hdone], n, hn, hpassed, fun hne => absurd hdone hne,
      fun hend => (hrest hend).imp_right Or.inl⟩
  | cons c rest =>
    rw [hcalls] at hpending hrest
    obtain ⟨hc, hd⟩ := hvalid c (hpending.subset (by simp))
    have hfits : sizeofHeader + c.payload.length ≤ Usb.usbMaxPacketSize := by
      have hpacket := hc.fits
      rwa [length_packet] at hpacket
    rw [cpuStep_send _ hdone hsecond hcalls] at hnext ⊢
    dsimp only at hnext ⊢
    rw [if_pos hfits, hd] at hnext ⊢
    by_cases hlate : x ≥ d
    · rw [if_pos hlate] at hnext ⊢
      exact ⟨hnext, fun _ hne => absurd hdone hne, by simp [hdone], n, hn, hpassed,
        fun hne => absurd hdone hne, fun _ => Or.inr (Or.inr hlate)⟩
    · rw [if_neg hlate] at hnext ⊢
      -- it is not late yet, so this is the call after those whose packets were passed
      have hdrop : c :: rest = cs.drop n :=
        (hrest (Or.inl hdone)).resolve_right fun h => hlate (hlater h)
      refine ⟨hnext, fun hne => absurd rfl hne, by simp [Usb.usbSend], n, hn, hpassed,
        fun _ _ => ⟨c, hdrop.symm, rfl⟩, ?_⟩
      rintro (hend | hnil)
      · simp [Usb.usbSend] at hend
      · have hlen := congrArg List.length hnil
        simp [Usb.usbSend] at hlen

theorem Progress.mono {late' : Prop} (h : Progress base cs d late t) (himp : late → late') :
    Progress base cs d late' t := by
  obtain ⟨hpending, hloaded, hcheck, n, hn, hpassed, hbuf, hrest⟩ := h
  exact ⟨hpending, hloaded, fun hpc hbusy => himp (hcheck hpc hbusy),
    n, hn, hpassed, hbuf, fun hend => (hrest hend).imp_right himp⟩

/-- A step of the sender, with a timer reading at which a late one is still late. -/
theorem progress_cpu (hvalid : ∀ c ∈ cs, c.Valid ∧ c.deadlineUs = d)
    (h : Progress base cs d late t) {x : UInt32} (hlater : late → d ≤ x) :
    Progress base cs d (d ≤ x) (Telemetry.step (fun _ => x) t .cpu) := by
  have hweak : late ∨ d ≤ x → d ≤ x := fun hlate => hlate.elim hlater id
  show Progress base cs d (d ≤ x) (Telemetry.cpuStep (fun _ => x) t)
  rcases eq_or_ne t.usb.pc .done with hdone | hrun
  · exact (progress_next hvalid h hdone hlater).mono hweak
  · rcases eq_or_ne t.usb.pc .write with hwrite | hpc
    · exact (progress_write (fun c hc => (hvalid c hc).1) h hwrite _).mono hlater
    · exact (progress_running h hrun hpc x).mono hweak

theorem progress_txCallback (h : Progress base cs d late t) (now : ℕ → UInt32) :
    Progress base cs d late (Telemetry.step now t .txCallback) := by
  obtain ⟨⟨hsecond, hpending, hdeadline⟩, hloaded, _, hsent⟩ := h
  exact ⟨⟨hsecond, hpending, hdeadline⟩, hloaded,
    fun _ hbusy => by simp [Telemetry.step, Usb.step] at hbusy, hsent⟩

/-! ### A flight -/

/-- The packets of the first calls of each iteration. -/
def packets (sent : List (Iteration × ℕ)) : List (List UInt8) :=
  sent.flatMap fun x => (x.1.calls.take x.2).map Call.packet

/-- The finished iterations are `sent`, and `it` is the current one. -/
structure Current (s : St) (sent : List (Iteration × ℕ)) (it : Iteration) : Prop where
  log : s.log = sent.map (·.1) ++ [it]
  progress : Progress (packets sent) it.calls it.deadlineUs
    (Idle s.sender ∨ it.deadlineUs ≤ stamp s.now) s.sender
  epoch : ¬ Idle s.sender → s.now / 2 ^ 32 = s.begun / 2 ^ 32

/-- What a run keeps: no iteration has begun, or one is the current one. -/
def Inv (s : St) : Prop :=
  (s.log = [] ∧ Idle s.sender ∧ s.sender.usb.passed = []) ∨ ∃ sent it, Current s sent it

theorem calls_valid (it : Iteration) : ∀ c ∈ it.calls, c.Valid ∧ c.deadlineUs = it.deadlineUs := by
  intro c hc
  obtain ⟨m, _, rfl⟩ := List.mem_map.mp hc
  exact ⟨m.call_valid it.seqnum it.deadlineUs, rfl⟩

/-- In one epoch a late reading stays late. -/
theorem late_of_le {d : UInt32} {t u : ℕ} (hle : t ≤ u) (hepoch : u / 2 ^ 32 = t / 2 ^ 32)
    (h : d ≤ stamp t) : d ≤ stamp u := by
  rw [UInt32.le_iff_toNat_le, stamp_toNat] at h ⊢
  omega

/-- An iteration gives an idle sender its calls. -/
theorem pending_of_idle {t : Telemetry.St} (h : Idle t) (cs : List Call) (d : UInt32) :
    Pending cs d { t with calls := cs } :=
  ⟨h.2.1, List.suffix_refl _, fun hne => absurd h.1 hne⟩

theorem cpuStep_idle {t : Telemetry.St} (h : Idle t) (now : ℕ → UInt32) :
    Telemetry.cpuStep now t = t := by
  obtain ⟨hdone, hsecond, hcalls⟩ := h
  simp [Telemetry.cpuStep, hdone, hsecond, hcalls]

/-- All that has been passed, as the first calls of each iteration so far. -/
theorem Inv.sent {s : St} (h : Inv s) : ∃ sent : List (Iteration × ℕ),
    sent.map (·.1) = s.log ∧ s.sender.usb.passed.map (·.bytes) = packets sent := by
  rcases h with ⟨hlog, _, hpassed⟩ | ⟨sent, it, hlog, hprogress, _⟩
  · exact ⟨[], hlog.symm, by rw [hpassed]; rfl⟩
  · obtain ⟨n, _, hpassed, _⟩ := hprogress.sent
    refine ⟨sent ++ [(it, n)], by rw [hlog, List.map_append]; rfl, ?_⟩
    rw [hpassed, packets, packets, List.flatMap_append, List.flatMap_singleton]

theorem inv_iteration {s : St} (h : Inv s) (dt : ℕ) (values : Snapshot) :
    Inv (step s (.iteration dt values)) := by
  simp only [step]
  split
  · rename_i hidle
    obtain ⟨sent, hlog, hpassed⟩ := h.sent
    refine Or.inr ⟨sent, _, by rw [hlog], ?_, fun _ => rfl⟩
    refine ⟨pending_of_idle hidle _ _, fun _ hne => absurd hidle.1 hne, by simp [hidle.1],
      0, Nat.zero_le _, ?_, fun hne => absurd hidle.1 hne, fun _ => Or.inl rfl⟩
    simpa using hpassed
  · exact h

variable {s : St} {sent : List (Iteration × ℕ)} {it : Iteration}

theorem current_cpu (h : Current s sent it) {dt : ℕ} (hwrap : NoWrap s (.cpu dt)) :
    Current (step s (.cpu dt)) sent it := by
  obtain ⟨hlog, hprogress, hepoch⟩ := h
  by_cases hidle : Idle s.sender
  · have hsame : Telemetry.step (fun _ => stamp (s.now + dt)) s.sender .cpu = s.sender :=
      cpuStep_idle hidle _
    simp only [step, hsame]
    exact ⟨hlog, hprogress.mono fun _ => Or.inl hidle, fun hne => absurd hidle hne⟩
  · have hturn : (s.now + dt) / 2 ^ 32 = s.now / 2 ^ 32 := (hwrap hidle).trans (hepoch hidle).symm
    have hlater : Idle s.sender ∨ it.deadlineUs ≤ stamp s.now →
        it.deadlineUs ≤ stamp (s.now + dt) :=
      fun hlate => late_of_le (Nat.le_add_right _ _) hturn (hlate.resolve_left hidle)
    exact ⟨hlog, (progress_cpu (calls_valid it) hprogress hlater).mono Or.inr, fun _ => hwrap hidle⟩

theorem current_txCallback (h : Current s sent it) : Current (step s .txCallback) sent it :=
  ⟨h.log, progress_txCallback h.progress _, h.epoch⟩

theorem inv_step (s : St) (a : Act) (hwrap : NoWrap s a) (h : Inv s) : Inv (step s a) := by
  cases a with
  | iteration dt values => exact inv_iteration h dt values
  | cpu dt =>
    rcases h with ⟨hlog, hidle, hpassed⟩ | ⟨sent, it, h⟩
    · have hsame : Telemetry.step (fun _ => stamp (s.now + dt)) s.sender .cpu = s.sender :=
        cpuStep_idle hidle _
      simp only [step, hsame]
      exact Or.inl ⟨hlog, hidle, hpassed⟩
    · exact Or.inr ⟨sent, it, current_cpu h hwrap⟩
  | txCallback =>
    rcases h with ⟨hlog, hidle, hpassed⟩ | ⟨sent, it, h⟩
    · exact Or.inl ⟨hlog, hidle, hpassed⟩
    · exact Or.inr ⟨sent, it, current_txCallback h⟩

/-- The state after a list of actions. -/
def exec (now : ℕ) (txReady : Bool) (acts : List Act) : St := run step (init now txReady) acts

theorem inv_exec {now : ℕ} {txReady : Bool} {acts : List Act}
    (hwrap : Along step NoWrap (init now txReady) acts) : Inv (exec now txReady acts) :=
  inv_run_along step Inv inv_step acts _ hwrap (Or.inl ⟨rfl, ⟨rfl, rfl, rfl⟩, rfl⟩)

/-- Iterations are numbered from 1, and their deadlines are one period apart. -/
structure Numbered (start : ℕ) (s : St) : Prop where
  seqnum : s.seqnum = UInt32.ofNat s.log.length
  next : s.nextIterationStartUs = stamp (start + 2000 * s.log.length)
  log : s.log.map (fun it => (it.seqnum, it.deadlineUs)) =
    (List.range s.log.length).map fun i =>
      (UInt32.ofNat (i + 1), stamp (start + 2000 * (i + 1)) - 20)

theorem numbered_step {start : ℕ} {s : St} (a : Act) (h : Numbered start s) :
    Numbered start (step s a) := by
  obtain ⟨hseqnum, hnext, hlog⟩ := h
  cases a with
  | cpu dt => exact ⟨hseqnum, hnext, hlog⟩
  | txCallback => exact ⟨hseqnum, hnext, hlog⟩
  | iteration dt values =>
    simp only [step]
    split
    · have hone : telemetryTick s.seqnum = UInt32.ofNat (s.log.length + 1) := by
        rw [telemetryTick, hseqnum, UInt32.ofNat_add]; rfl
      have hdue : s.nextIterationStartUs + Main.mainLoopPeriodUs =
          stamp (start + 2000 * (s.log.length + 1)) := by
        rw [hnext, Nat.mul_succ, ← Nat.add_assoc]
        exact (stamp_add _ Main.mainLoopPeriodUs).symm
      refine ⟨by rw [List.length_append]; exact hone, by rw [List.length_append]; exact hdue, ?_⟩
      rw [List.map_append, hlog, List.length_append, List.length_singleton, List.range_succ,
        List.map_append, List.map_singleton, List.map_singleton, hone, hdue]
    · exact ⟨hseqnum, hnext, hlog⟩

theorem numbered_exec (now : ℕ) (txReady : Bool) (acts : List Act) :
    Numbered now (exec now txReady acts) :=
  inv_run step (Numbered now) (fun _ a h => numbered_step a h) acts ⟨rfl, rfl, rfl⟩

/-- The packets that the host should read off an iteration whose first `n` messages were sent. -/
def Iteration.received (it : Iteration) (n : ℕ) : List Packet :=
  (it.values.messages.take n).map fun m => m.received it.seqnum

theorem received_take (it : Iteration) (n : ℕ) :
    (it.calls.take n).map Call.received = it.received n := by
  rw [Iteration.calls, Iteration.received, ← List.map_take, List.map_map]
  exact List.map_congr_left fun m _ => received_call m it.seqnum it.deadlineUs

/-- The calls whose packets were sent. -/
def written (sent : List (Iteration × ℕ)) : List Call := sent.flatMap fun x => x.1.calls.take x.2

theorem packets_eq (sent : List (Iteration × ℕ)) :
    packets sent = (written sent).map Call.packet := by
  rw [packets, written, List.map_flatMap]

theorem received_written (sent : List (Iteration × ℕ)) :
    (written sent).map Call.received = sent.flatMap fun x => x.1.received x.2 := by
  simp only [written, List.map_flatMap, received_take]

theorem length_written (sent : List (Iteration × ℕ)) :
    (written sent).length ≤ 9 * sent.length := by
  induction sent with
  | nil => exact Nat.le_refl _
  | cons x sent ih =>
    have hnine : x.1.calls.length = 9 := by rw [Iteration.calls, List.length_map]; rfl
    rw [written, List.flatMap_cons, List.length_append, List.length_take, hnine, ← written,
      List.length_cons]
    omega

/-- CORRECT: in every flight, whatever the endpoint does and however the stream is split, the host
    reads from each iteration the first few of its nine messages, in order, each decoded to the
    values of its members under the iteration's number, and nothing else. -/
theorem host_reads {now : ℕ} {txReady : Bool} {acts : List Act}
    (hwrap : Along step NoWrap (init now txReady) acts) (split : ℕ → ℕ) :
    ∃ sent : List (Iteration × ℕ), sent.map (·.1) = (exec now txReady acts).log ∧
      (sent.map (·.1.seqnum) = (List.range sent.length).map fun i => UInt32.ofNat (i + 1)) ∧
      ∀ n, 9 * sent.length < n →
        readPackets n ⟨(exec now txReady acts).sender.wire, split, 0⟩ =
          (sent.flatMap fun x => x.1.received x.2, some .timeout) := by
  obtain ⟨sent, hlog, hpassed⟩ := (inv_exec hwrap).sent
  obtain ⟨_, _, hnumbers⟩ := numbered_exec now txReady acts
  refine ⟨sent, hlog, ?_, fun n hn => ?_⟩
  · have hseqnums := congrArg (List.map Prod.fst) hnumbers
    rw [List.map_map, List.map_map, ← hlog, List.map_map, List.length_map] at hseqnums
    exact hseqnums
  · have hvalid : ∀ c ∈ written sent, c.Valid := by
      intro c hc
      obtain ⟨x, _, hx⟩ := List.mem_flatMap.mp hc
      exact (calls_valid x.1 c (List.mem_of_mem_take hx)).1
    have hwire : (exec now txReady acts).sender.wire = (written sent).flatMap Call.packet := by
      rw [St.wire, List.flatMap_def, hpassed, packets_eq, ← List.flatMap_def]
    rw [readPackets_flatMap hvalid ((length_written sent).trans_lt hn) hwire, received_written]

/-- All zero. -/
def zeroSnapshot : Snapshot where
  rxLatest := ⟨0, 0, 0, 0, 0, 0, 0, 0, 0, 0, 0, 0, 0, 0⟩
  si := ⟨0, 0, 0, 0, 0, 0⟩
  imuAngles := ⟨0, 0, 0, 0, 0, 0⟩
  imuBias := ⟨0, 0, 0, 0, 0, 0⟩
  fcOut := ⟨0, 0, 0⟩
  pid := fun _ => ⟨0, 0, 0, 0, 0, 0, 0, 0, 0, 0, 0⟩
  throttles := ⟨0, 0, 0, 0⟩

/-- Two iterations under a host that stops reading during the first: its second message is given up
    at the deadline, and so are all that follow. The host is back for the second iteration. -/
def stalledFlight : List Act :=
  .iteration 0 zeroSnapshot :: List.replicate 30 (.cpu 100) ++
    (.txCallback :: .iteration 0 zeroSnapshot :: List.replicate 6 (.cpu 10))

theorem host_reads_stalledFlight :
    ∃ sent : List (Iteration × ℕ), sent.map (·.1) = (exec 0 true stalledFlight).log ∧
      (sent.map (·.1.seqnum) = (List.range sent.length).map fun i => UInt32.ofNat (i + 1)) ∧
      ∀ n, 9 * sent.length < n →
        readPackets n ⟨(exec 0 true stalledFlight).sender.wire, fun _ => 0, 0⟩ =
          (sent.flatMap fun x => x.1.received x.2, some .timeout) :=
  host_reads (by decide +kernel) fun _ => 0

/-! ### Past the deadline -/

/-- How far the current `usb_send` is from its end, once it is late. -/
def stepsLeft : Usb.Pc → ℕ
  | .inner => 5
  | .innerTime => 4
  | .check => 3
  | .write => 2
  | .outer => 1
  | .done => 0

/-- The steps left once it is late: those of the current call, and one for each call after it. -/
def rank (t : Telemetry.St) : ℕ := t.calls.length + stepsLeft t.usb.pc

theorem idle_of_rank {t : Telemetry.St} (hsecond : t.second = none) (h : rank t = 0) : Idle t := by
  obtain ⟨hcalls, hpc⟩ := Nat.add_eq_zero_iff.mp h
  refine ⟨?_, hsecond, List.length_eq_zero_iff.mp hcalls⟩
  cases heq : t.usb.pc <;> simp [stepsLeft, heq] at hpc ⊢

theorem stepsLeft_cpu {u : Usb.St} {x : UInt32} (hd : u.deadlineUs ≤ x) (hrun : u.pc ≠ .done) :
    stepsLeft (Usb.cpuStep (fun _ => x) u).pc < stepsLeft u.pc := by
  have hlate : ¬ x < u.deadlineUs := UInt32.not_lt.mpr hd
  cases hpc : u.pc <;> simp only [Usb.cpuStep, hpc, if_neg hlate]
  case done => exact absurd hpc hrun
  case outer => split <;> simp [stepsLeft]
  case inner | check => split <;> simp [stepsLeft]
  all_goals simp [stepsLeft]

/-- Every late step of the sender brings it closer to the end of the iteration. -/
theorem rank_cpu (h : Pending cs d t) (hcs : ∀ c ∈ cs, c.deadlineUs = d) {x : UInt32} (hd : d ≤ x)
    (hbusy : ¬ Idle t) : rank (Telemetry.cpuStep (fun _ => x) t) < rank t := by
  rcases eq_or_ne t.usb.pc .done with hdone | hrun
  · cases hcalls : t.calls with
    | nil => exact absurd ⟨hdone, h.second, hcalls⟩ hbusy
    | cons c rest =>
      have hpending := h.pending
      rw [hcalls] at hpending
      have hlate : d ≤ x ↔ x ≥ c.deadlineUs := by rw [hcs c (hpending.subset (by simp))]
      rw [cpuStep_send _ hdone h.second hcalls]
      dsimp only
      rw [if_pos (hlate.mp hd), rank, rank, hcalls]
      exact Nat.add_lt_add_right (Nat.lt_succ_self _) _
  · rw [cpuStep_of_running _ hrun]
    exact Nat.add_lt_add_left (stepsLeft_cpu ((h.deadline hrun).trans_le hd) hrun) _

/-- The current iteration's calls are those the sender is at. -/
def AtLatest (s : St) : Prop :=
  (s.log = [] ∧ Idle s.sender) ∨
    ∃ it, s.log.getLast? = some it ∧ Pending it.calls it.deadlineUs s.sender

theorem atLatest_step (s : St) (a : Act) (h : AtLatest s) : AtLatest (step s a) := by
  cases a with
  | iteration dt values =>
    simp only [step]
    split
    · rename_i hidle
      exact Or.inr ⟨_, List.getLast?_concat, pending_of_idle hidle _ _⟩
    · exact h
  | cpu dt =>
    rcases h with ⟨hlog, hidle⟩ | ⟨it, hlast, hpending⟩
    · have hsame : Telemetry.step (fun _ => stamp (s.now + dt)) s.sender .cpu = s.sender :=
        cpuStep_idle hidle _
      simp only [step, hsame]
      exact Or.inl ⟨hlog, hidle⟩
    · exact Or.inr ⟨it, hlast, pending_step (calls_valid it) hpending
        (fun _ => stamp (s.now + dt)) .cpu⟩
  | txCallback =>
    rcases h with ⟨hlog, hidle⟩ | ⟨it, hlast, hpending⟩
    · exact Or.inl ⟨hlog, hidle⟩
    · exact Or.inr ⟨it, hlast, pending_step (calls_valid it) hpending (fun _ => 0)
        .txCallback⟩

theorem rank_le (h : AtLatest s) : rank s.sender ≤ 14 := by
  have hpc : stepsLeft s.sender.usb.pc ≤ 5 := by cases s.sender.usb.pc <;> decide
  rcases h with ⟨-, -, -, hcalls⟩ | ⟨it, -, hpending⟩
  · rw [rank, hcalls]
    exact (Nat.zero_add _).trans_le (hpc.trans (by decide))
  · have hlen : s.sender.calls.length ≤ 9 := by
      have hle := hpending.pending.length_le
      rwa [Iteration.calls, List.length_map] at hle
    exact Nat.add_le_add hlen hpc

/-- The true time of the current iteration's deadline. -/
def due (start : ℕ) (s : St) : ℕ := start + 2000 * s.log.length - 20

/-- The timer has not wrapped since an iteration's deadline when one of its sends reads it. -/
def NoLateWrap (start : ℕ) (s : St) : Act → Prop
  | .cpu dt => ¬ Idle s.sender → due start s ≤ s.now + dt →
      (s.now + dt) / 2 ^ 32 = due start s / 2 ^ 32
  | _ => True

instance (start : ℕ) (s : St) (a : Act) : Decidable (NoLateWrap start s a) :=
  match a with
  | .cpu _ => inferInstanceAs (Decidable (_ → _ → _))
  | .iteration .. => isTrue trivial
  | .txCallback => isTrue trivial

/-- The deadline that the sends are given is that time's stamp. -/
theorem deadline_eq {start : ℕ} (h : Numbered start s) (hlast : s.log.getLast? = some it) :
    it.deadlineUs = stamp (due start s) := by
  obtain ⟨log, hlog⟩ : ∃ log, s.log = log ++ [it] := List.getLast?_eq_some_iff.mp hlast
  have hpairs := congrArg List.getLast? h.log
  rw [hlog, List.map_append, List.map_singleton, List.getLast?_concat, List.length_append,
    List.length_singleton, List.range_succ, List.map_append, List.map_singleton,
    List.getLast?_concat, Option.some.injEq, Prod.mk.injEq] at hpairs
  have hback := stamp_add (start + 2000 * (log.length + 1) - 20) 20
  rw [show UInt32.toNat 20 = 20 from rfl, Nat.sub_add_cancel (by omega)] at hback
  rw [hpairs.2, due, hlog, List.length_append, List.length_singleton, hback, UInt32.add_sub_cancel]

/-- The step of the sender is one of its own. -/
def Act.isCpu : Act → Bool
  | .cpu _ => true
  | _ => false

/-- The iteration is over once its steps are used up. -/
theorem exists_idle {start k : ℕ} {more : List Act} (hnum : Numbered start s) (h : AtLatest s)
    (hdue : due start s ≤ s.now) (hwrap : Along step (NoLateWrap start) s more)
    (hrank : rank s.sender ≤ k) (hmore : k ≤ more.countP Act.isCpu) :
    ∃ pre, pre <+: more ∧ pre.countP Act.isCpu ≤ k ∧ Idle (run step s pre).sender := by
  induction more generalizing s k with
  | nil =>
    have hzero : rank s.sender = 0 := by simpa using hrank.trans hmore
    refine ⟨[], List.nil_prefix, Nat.zero_le _, ?_⟩
    rcases h with ⟨-, hidle⟩ | ⟨it, -, hpending⟩
    · exact hidle
    · exact idle_of_rank hpending.second hzero
  | cons a more ih =>
    by_cases hidle : Idle s.sender
    · exact ⟨[], List.nil_prefix, Nat.zero_le _, hidle⟩
    obtain ⟨hstep, hrest⟩ := hwrap
    have hnum' := numbered_step a hnum
    have h' := atLatest_step s a h
    cases a with
    | iteration dt values =>
      -- `main` is still in its sends
      have hsame : step s (.iteration dt values) = s := if_neg hidle
      rw [hsame] at hrest
      obtain ⟨pre, hpre, hcount, hend⟩ :=
        ih hnum h hdue hrest hrank (by simpa [Act.isCpu] using hmore)
      refine ⟨.iteration dt values :: pre, List.cons_prefix_cons.mpr ⟨rfl, hpre⟩, ?_, ?_⟩
      · simpa [Act.isCpu] using hcount
      · rwa [run_cons, hsame]
    | txCallback =>
      obtain ⟨pre, hpre, hcount, hend⟩ :=
        ih hnum' h' hdue hrest hrank (by simpa [Act.isCpu] using hmore)
      exact ⟨.txCallback :: pre, List.cons_prefix_cons.mpr ⟨rfl, hpre⟩,
        by simpa [Act.isCpu] using hcount, hend⟩
    | cpu dt =>
      have hlater : due start s ≤ s.now + dt := hdue.trans (Nat.le_add_right ..)
      obtain ⟨-, hbusy⟩ | ⟨it, hlast, hpending⟩ := h
      · exact absurd hbusy hidle
      have hlate : it.deadlineUs ≤ stamp (s.now + dt) := by
        rw [deadline_eq hnum hlast]
        exact late_of_le hlater (hstep hidle hlater) (UInt32.le_refl _)
      have hless : rank (step s (.cpu dt)).sender < rank s.sender :=
        rank_cpu hpending (fun c hc => (calls_valid it c hc).2) hlate hidle
      obtain ⟨pre, hpre, hcount, hend⟩ := ih (k := k - 1) hnum' h' hlater hrest
        (by omega) (by rw [List.countP_cons_of_pos rfl] at hmore; omega)
      refine ⟨.cpu dt :: pre, List.cons_prefix_cons.mpr ⟨rfl, hpre⟩, ?_, hend⟩
      rw [List.countP_cons_of_pos rfl]
      omega

/-- CORRECT: once the deadline of an iteration has passed, its nine calls have all returned after at
    most fourteen more steps of theirs, whatever the endpoint does, unless one of them reads the
    timer after a wrap since that deadline. -/
theorem idle_of_late {now : ℕ} {txReady : Bool} {acts more : List Act}
    (hdue : due now (exec now txReady acts) ≤ (exec now txReady acts).now)
    (hwrap : Along step (NoLateWrap now) (exec now txReady acts) more)
    (hmore : 14 ≤ more.countP Act.isCpu) :
    ∃ pre, pre <+: more ∧ pre.countP Act.isCpu ≤ 14 ∧
      Idle (exec now txReady (acts ++ pre)).sender := by
  have h : AtLatest (exec now txReady acts) :=
    inv_run step AtLatest atLatest_step acts (Or.inl ⟨rfl, rfl, rfl, rfl⟩)
  obtain ⟨pre, hpre, hcount, hidle⟩ :=
    exists_idle (numbered_exec now txReady acts) h hdue hwrap (rank_le h) hmore
  exact ⟨pre, hpre, hcount, by rwa [exec, run_append]⟩

/-- The second message of the first iteration waits for the host until the deadline, at 1980 us. -/
theorem idle_of_late_stalledFlight : ∃ pre, pre <+: List.replicate 14 (Act.cpu 10) ∧
    pre.countP Act.isCpu ≤ 14 ∧
    Idle (exec 0 true (.iteration 0 zeroSnapshot :: List.replicate 20 (.cpu 100) ++ pre)).sender :=
  idle_of_late (by decide +kernel) (by decide +kernel) (by decide)

end Session
end FC.Telemetry

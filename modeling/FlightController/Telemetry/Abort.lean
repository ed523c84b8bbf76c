import FlightController.Telemetry.Send

/-! A telemetry packet and the deadline. Where header and payload fit one USB packet, `send` merges
    them, and an abort drops the packet as a whole. A longer packet takes two calls of `usb_send`,
    each with its own deadline tests, and nothing ties them together. When the deadline comes
    between them, or inside the payload, the host gets a header whose `len` promises bytes that
    never come (`not_wholeOrNone_cut`); when the header is given up, but a reading after it is early
    again, a payload without a header.

    In a run these are the only two ways (`wholeOrNone_iff_uncut`). The readings and the endpoint
    can bring them about for every longer packet that has any time at all (`wholeOrNone_iff`). -/

namespace FC.Telemetry
open Schemes

/-- Header and payload fit one USB packet and go out in one buffer. -/
def Call.Merged (c : Call) : Prop := sizeofHeader + c.payload.length ≤ Usb.usbMaxPacketSize

instance (c : Call) : Decidable c.Merged := Nat.decLe _ _

/-- `send` has returned. -/
def Returned (s : St) : Prop := s.calls = [] ∧ s.second = none ∧ s.usb.pc = .done

instance (s : St) : Decidable (Returned s) := instDecidableAnd

/-- Nothing is on the wire, or the whole packet. -/
def WholeOrNone (c : Call) (s : St) : Prop := s.wire = [] ∨ s.wire = c.packet

instance (c : Call) (s : St) : Decidable (WholeOrNone c s) := instDecidableOr

variable (now : ℕ → UInt32)

/-- The next step of `usb_send` gives up with data left: at the outer condition for the deadline, or
    after the inner loop for the flag. -/
def GivesUp (s : Usb.St) : Prop :=
  (s.pc = .outer ∧ s.p ≠ [] ∧ s.deadlineUs ≤ now s.reads) ∨ (s.pc = .check ∧ s.txReady = false)

instance (s : Usb.St) : Decidable (GivesUp now s) := instDecidableOr

/-- The call gives up only while nothing is sent, and sends a payload of its own only after the
    header. -/
def Uncut (c : Call) (s : St) : Usb.Act → Prop
  | .cpu => (GivesUp now s.usb → s.wire = []) ∧
    (s.usb.pc = .write → s.second = none → ¬ c.Merged → s.wire ≠ [])
  | .txCallback => True

instance (c : Call) (s : St) : ∀ a : Usb.Act, Decidable (Uncut now c s a)
  | .cpu => inferInstanceAs (Decidable (_ ∧ _))
  | .txCallback => isTrue trivial

/-- A call whose packet is intact: not begun, its header in progress, nothing sent so far, or a
    beginning of the packet sent and the rest still to come. -/
inductive Intact (c : Call) (s : St) : Prop
  | waiting (hcalls : s.calls = [c]) (hsecond : s.second = none) (hpc : s.usb.pc = .done)
      (hwire : s.wire = [])
  | header (hcalls : s.calls = []) (hsecond : s.second = some c.payload) (hlong : ¬ c.Merged)
      (hwire : s.wire = [] ∧ s.usb.p = c.header ∨ s.wire = c.header ∧ s.usb.p = [])
  | unsent (hcalls : s.calls = []) (hsecond : s.second = none) (hwire : s.wire = [])
      (hp : s.usb.pc ≠ .done → s.usb.p = if c.Merged then c.packet else c.payload)
  | part (hcalls : s.calls = []) (hsecond : s.second = none) (hne : s.wire ≠ [])
      (hwire : s.wire ++ s.usb.p = c.packet) (hend : s.usb.pc = .done → s.usb.p = [])
      (hmerged : c.Merged → s.usb.p = [])

/-- The packet is lost for good: some of it is sent, and what is left does not make it whole. -/
structure Torn (c : Call) (s : St) : Prop where
  calls : s.calls = []
  second : s.second = none
  wire : s.wire ≠ []
  short : s.usb.pc ≠ .done → s.wire.length + s.usb.p.length < c.packet.length
  ended : s.usb.pc = .done → s.wire.length < c.packet.length

variable {now} {c : Call} {s : St}

/-! ### Steps of `usb_send` -/

/-- Other than at the write, it leaves wire and buffer alone, and ends at the end of the buffer or
    by giving up. -/
theorem cpuStep_quiet (now : ℕ → UInt32) (hrun : s.usb.pc ≠ .done) (hpc : s.usb.pc ≠ .write) :
    (cpuStep now s).calls = s.calls ∧ (cpuStep now s).second = s.second ∧
      (cpuStep now s).wire = s.wire ∧ (cpuStep now s).usb.p = s.usb.p ∧
      ((cpuStep now s).usb.pc = .done → s.usb.p = [] ∨ GivesUp now s.usb) := by
  obtain ⟨hp, hpassed⟩ := Usb.cpuStep_frame now hpc
  rw [cpuStep_of_running now hrun]
  refine ⟨rfl, rfl, ?_, hp, ?_⟩
  · simp only [St.wire, Usb.step, hpassed]
  · simp only [Usb.step]
    cases heq : s.usb.pc <;> simp only [Usb.cpuStep, heq]
    case outer =>
      split
      · rename_i hnil
        exact fun _ => Or.inl hnil
      · rename_i hne
        split
        · simp
        · rename_i hlate
          exact fun _ => Or.inr (Or.inl ⟨heq, hne, UInt32.not_lt.mp hlate⟩)
    case check =>
      split
      · simp
      · rename_i hbusy
        exact fun _ => Or.inr (Or.inr ⟨heq, Bool.eq_false_iff.mpr hbusy⟩)
    case write => exact absurd heq hpc
    case done => exact absurd heq hrun
    case inner | innerTime => split <;> simp

theorem length_header (c : Call) : c.header.length = 11 := by simp [Call.header]

theorem take_ne_nil {p : List UInt8} (hp : p ≠ []) : p.take Usb.usbMaxPacketSize ≠ [] := by
  rw [Ne, List.take_eq_nil_iff]
  rintro (hzero | hnil)
  · exact absurd hzero (Nat.succ_ne_zero 63)
  · exact hp hnil

/-- The write moves the next chunk from the buffer to the wire. -/
theorem cpuStep_write (now : ℕ → UInt32) (hpc : s.usb.pc = .write) :
    (cpuStep now s).calls = s.calls ∧ (cpuStep now s).second = s.second ∧
      (cpuStep now s).wire = s.wire ++ s.usb.p.take Usb.usbMaxPacketSize ∧
      (cpuStep now s).usb.p = s.usb.p.drop Usb.usbMaxPacketSize ∧
      (cpuStep now s).usb.pc ≠ .done := by
  rw [cpuStep_of_running now (by simp [hpc])]
  simp [St.wire, Usb.step, Usb.cpuStep, hpc]

/-- Giving up ends the call with everything as it was. -/
theorem cpuStep_givesUp (h : GivesUp now s.usb) :
    (cpuStep now s).calls = s.calls ∧ (cpuStep now s).second = s.second ∧
      (cpuStep now s).wire = s.wire ∧ (cpuStep now s).usb.pc = .done := by
  rcases h with ⟨hpc, hp, hlate⟩ | ⟨hpc, hbusy⟩
  · rw [cpuStep_of_running now (by simp [hpc])]
    simp [St.wire, Usb.step, Usb.cpuStep, hpc, hp, UInt32.not_lt.mpr hlate]
  · rw [cpuStep_of_running now (by simp [hpc])]
    simp [St.wire, Usb.step, Usb.cpuStep, hpc, hbusy]

theorem GivesUp.ne_nil {s : Usb.St} (h : GivesUp now s) (hloaded : Usb.Loaded s) : s.p ≠ [] := by
  rcases h with ⟨_, hne, _⟩ | ⟨hpc, _⟩
  · exact hne
  · exact hloaded (by simp [hpc]) (by simp [hpc])

/-- With nothing left to do, nothing happens. -/
theorem cpuStep_idle (hcalls : s.calls = []) (hsecond : s.second = none) (hpc : s.usb.pc = .done) :
    cpuStep now s = s := by
  simp [cpuStep, hcalls, hsecond, hpc]

/-! ### While the packet is intact -/

/-- Between two `usb_send` calls: `send` begins, or hands over the payload after its header. -/
theorem intact_next (h : Intact c s) (hdone : s.usb.pc = .done) : Intact c (cpuStep now s) := by
  cases h with
  | waiting hcalls hsecond hpc hwire =>
    rw [cpuStep_send now hdone hsecond hcalls]
    dsimp only
    split
    · exact .unsent rfl hsecond hwire fun hne => absurd hpc hne
    · split
      · rename_i hmerged
        exact .unsent rfl hsecond hwire fun _ => (if_pos hmerged).symm
      · rename_i hlong
        exact .header rfl rfl hlong (Or.inl ⟨hwire, rfl⟩)
  | header hcalls hsecond hlong hwire =>
    have hstep : cpuStep now s =
        { s with second := none, usb := Usb.usbSend s.usb c.payload s.usb.deadlineUs } := by
      simp [cpuStep, hdone, hsecond]
    rw [hstep]
    rcases hwire with ⟨hnone, -⟩ | ⟨hheader, -⟩
    · exact .unsent hcalls rfl hnone fun _ => (if_neg hlong).symm
    · have hsame : St.wire
          { s with second := none, usb := Usb.usbSend s.usb c.payload s.usb.deadlineUs } =
            c.header := hheader
      refine .part hcalls rfl ?_ ?_ (fun hne => absurd hne (by simp [Usb.usbSend]))
        fun hmerged => absurd hmerged hlong
      · rw [hsame, ← List.length_pos_iff_ne_nil, length_header]; decide
      · rw [hsame]; rfl
  | unsent hcalls hsecond hwire hp =>
    rw [cpuStep_idle hcalls hsecond hdone]
    exact .unsent hcalls hsecond hwire hp
  | part hcalls hsecond hne hwire hend hmerged =>
    rw [cpuStep_idle hcalls hsecond hdone]
    exact .part hcalls hsecond hne hwire hend hmerged

theorem intact_write (h : Intact c s) (hp : s.usb.p ≠ []) (hpc : s.usb.pc = .write)
    (hcut : Uncut now c s .cpu) : Intact c (cpuStep now s) := by
  obtain ⟨hcalls', hsecond', hwire', hp', hgo⟩ := cpuStep_write now hpc
  cases h with
  | waiting hcalls hsecond hdone hwire => exact absurd hdone (by simp [hpc])
  | header hcalls hsecond hlong hwire =>
    obtain ⟨hnone, hheader⟩ := hwire.resolve_right fun ⟨_, hnil⟩ => hp hnil
    have hfits : c.header.length ≤ Usb.usbMaxPacketSize := by rw [length_header]; decide
    refine .header (hcalls'.trans hcalls) (hsecond'.trans hsecond) hlong (Or.inr ⟨?_, ?_⟩)
    · rw [hwire', hnone, hheader, List.nil_append, List.take_of_length_le hfits]
    · rw [hp', hheader, List.drop_eq_nil_of_le hfits]
  | unsent hcalls hsecond hwire hbuf =>
    have hmerged : c.Merged := by
      by_contra hlong
      exact hcut.2 hpc hsecond hlong hwire
    have hpacket : s.usb.p = c.packet := by rw [hbuf (by simp [hpc]), if_pos hmerged]
    refine .part (hcalls'.trans hcalls) (hsecond'.trans hsecond) ?_ ?_ (fun hne => absurd hne hgo)
      fun _ => ?_
    · rw [hwire', hwire, List.nil_append]
      exact take_ne_nil hp
    · rw [hwire', hp', List.append_assoc, List.take_append_drop, hwire, hpacket, List.nil_append]
    · rw [hp', hpacket]
      refine List.drop_eq_nil_of_le ?_
      rw [length_packet]
      exact hmerged
  | part hcalls hsecond hne hwire hend hmerged =>
    refine .part (hcalls'.trans hcalls) (hsecond'.trans hsecond) ?_ ?_ (fun hne => absurd hne hgo)
      fun hm => absurd (hmerged hm) hp
    · rw [hwire']
      exact List.append_ne_nil_of_left_ne_nil hne _
    · rw [hwire', hp', List.append_assoc, List.take_append_drop, hwire]

theorem intact_quiet (h : Intact c s) (hrun : s.usb.pc ≠ .done) (hpc : s.usb.pc ≠ .write)
    (hcut : Uncut now c s .cpu) : Intact c (cpuStep now s) := by
  obtain ⟨hcalls', hsecond', hwire', hp', hend'⟩ := cpuStep_quiet now hrun hpc
  cases h with
  | waiting hcalls hsecond hdone hwire => exact absurd hdone hrun
  | header hcalls hsecond hlong hwire =>
    refine .header (hcalls'.trans hcalls) (hsecond'.trans hsecond) hlong ?_
    rw [hwire', hp']
    exact hwire
  | unsent hcalls hsecond hwire hbuf =>
    exact .unsent (hcalls'.trans hcalls) (hsecond'.trans hsecond) (hwire'.trans hwire)
      fun _ => hp'.trans (hbuf hrun)
  | part hcalls hsecond hne hwire hend hmerged =>
    refine .part (hcalls'.trans hcalls) (hsecond'.trans hsecond) ?_ ?_ (fun hdone => ?_)
      fun hm => ?_
    · rw [hwire']; exact hne
    · rw [hwire', hp']; exact hwire
    · rw [hp']
      exact (hend' hdone).resolve_right fun hgive => hne (hcut.1 hgive)
    · rw [hp']; exact hmerged hm

theorem loaded_cpu (h : Usb.Loaded s.usb) : Usb.Loaded (cpuStep now s).usb := by
  rcases eq_or_ne s.usb.pc .done with hdone | hdone
  · rw [cpuStep, if_neg (not_not.mpr hdone)]
    split
    · exact fun hne => absurd rfl hne
    · exact h
    · split
      · exact fun _ hne => absurd hdone hne
      · split <;> exact fun hne => absurd rfl hne
  · rw [cpuStep_of_running now hdone]
    exact Usb.loaded_step now h .cpu

theorem intact_step (a : Usb.Act) (h : Usb.Loaded s.usb ∧ Intact c s) (hcut : Uncut now c s a) :
    Usb.Loaded (step now s a).usb ∧ Intact c (step now s a) := by
  obtain ⟨hloaded, hintact⟩ := h
  cases a with
  | txCallback =>
    refine ⟨hloaded, ?_⟩
    cases hintact with
    | waiting hcalls hsecond hpc hwire => exact .waiting hcalls hsecond hpc hwire
    | header hcalls hsecond hlong hwire => exact .header hcalls hsecond hlong hwire
    | unsent hcalls hsecond hwire hp => exact .unsent hcalls hsecond hwire hp
    | part hcalls hsecond hne hwire hend hmerged =>
      exact .part hcalls hsecond hne hwire hend hmerged
  | cpu =>
    refine ⟨loaded_cpu hloaded, ?_⟩
    rcases eq_or_ne s.usb.pc .done with hdone | hdone
    · exact intact_next hintact hdone
    rcases eq_or_ne s.usb.pc .write with hpc | hpc
    · exact intact_write hintact (hloaded (by simp [hpc]) (by simp [hpc])) hpc hcut
    · exact intact_quiet hintact hdone hpc hcut

theorem intact_init (c : Call) (txReady : Bool) :
    Usb.Loaded (init [c] txReady).usb ∧ Intact c (init [c] txReady) :=
  ⟨fun _ hne => absurd rfl hne, .waiting rfl rfl rfl rfl⟩

/-- Returned with its packet intact, a call has sent all or nothing. -/
theorem Intact.wholeOrNone (h : Intact c s) (hret : Returned s) : WholeOrNone c s := by
  obtain ⟨hcalls', hsecond', hdone⟩ := hret
  cases h with
  | waiting hcalls => simp [hcalls] at hcalls'
  | header _ hsecond => simp [hsecond] at hsecond'
  | unsent _ _ hwire => exact Or.inl hwire
  | part _ _ _ hwire hend =>
    rw [hend hdone, List.append_nil] at hwire
    exact Or.inr hwire

/-! ### Once it is torn -/

theorem Torn.not_wholeOrNone (h : Torn c s) (hret : Returned s) : ¬ WholeOrNone c s := by
  rintro (hnone | hwhole)
  · exact h.wire hnone
  · have hshort := h.ended hret.2.2
    rw [hwhole] at hshort
    exact lt_irrefl _ hshort

/-- Giving up with a part sent. -/
theorem torn_of_givesUp (hloaded : Usb.Loaded s.usb) (h : Intact c s) (hgive : GivesUp now s.usb)
    (hsent : s.wire ≠ []) : Torn c (cpuStep now s) := by
  obtain ⟨hcalls', hsecond', hwire', hpc'⟩ := cpuStep_givesUp hgive
  have hp := hgive.ne_nil hloaded
  cases h with
  | waiting _ _ _ hwire => exact absurd hwire hsent
  | header _ _ _ hwire =>
    rcases hwire with ⟨hnone, _⟩ | ⟨_, hnil⟩
    exacts [absurd hnone hsent, absurd hnil hp]
  | unsent _ _ hwire => exact absurd hwire hsent
  | part hcalls hsecond hne hwire =>
    refine ⟨hcalls'.trans hcalls, hsecond'.trans hsecond, by rwa [hwire'],
      fun hrun => absurd hpc' hrun, fun _ => ?_⟩
    have hpos : 0 < s.usb.p.length := List.length_pos_of_ne_nil hp
    rw [hwire', ← hwire, List.length_append]
    omega

/-- Sending a payload without its header. -/
theorem torn_of_payload (hloaded : Usb.Loaded s.usb) (h : Intact c s) (hpc : s.usb.pc = .write)
    (hsecond : s.second = none) (hlong : ¬ c.Merged) (hnone : s.wire = []) :
    Torn c (cpuStep now s) := by
  obtain ⟨hcalls', hsecond', hwire', hp', hgo⟩ := cpuStep_write now hpc
  cases h with
  | waiting _ _ hdone => exact absurd hdone (by simp [hpc])
  | header _ hsome => exact absurd hsome (by simp [hsecond])
  | part _ _ hne => exact absurd hnone hne
  | unsent hcalls _ _ hbuf =>
    have hpayload : s.usb.p = c.payload := by rw [hbuf (by simp [hpc]), if_neg hlong]
    have hp : s.usb.p ≠ [] := hloaded (by simp [hpc]) (by simp [hpc])
    refine ⟨hcalls'.trans hcalls, hsecond'.trans hsecond, ?_, fun _ => ?_,
      fun hdone => absurd hdone hgo⟩
    · rw [hwire', hnone, List.nil_append]
      exact take_ne_nil hp
    · rw [hwire', hp', hnone, List.nil_append, ← List.length_append, List.take_append_drop,
        hpayload, length_packet]
      omega

/-- A step that violates the condition tears the packet. -/
theorem torn_of_not_uncut (a : Usb.Act) (h : Usb.Loaded s.usb ∧ Intact c s)
    (hcut : ¬ Uncut now c s a) : Torn c (step now s a) := by
  obtain ⟨hloaded, hintact⟩ := h
  cases a with
  | txCallback => exact absurd trivial hcut
  | cpu =>
    rw [Uncut, not_and_or] at hcut
    rcases hcut with hcut | hcut
    · obtain ⟨hgive, hsent⟩ := Classical.not_imp.mp hcut
      exact torn_of_givesUp hloaded hintact hgive hsent
    · push Not at hcut
      obtain ⟨hpc, hsecond, hlong, hnone⟩ := hcut
      exact torn_of_payload hloaded hintact hpc hsecond hlong hnone

theorem torn_step (a : Usb.Act) (h : Torn c s) : Torn c (step now s a) := by
  cases a with
  | txCallback => exact ⟨h.calls, h.second, h.wire, h.short, h.ended⟩
  | cpu =>
    show Torn c (cpuStep now s)
    rcases eq_or_ne s.usb.pc .done with hdone | hdone
    · rw [cpuStep_idle h.calls h.second hdone]
      exact h
    have hshort := h.short hdone
    rcases eq_or_ne s.usb.pc .write with hpc | hpc
    · obtain ⟨hcalls', hsecond', hwire', hp', hgo⟩ := cpuStep_write now hpc
      refine ⟨hcalls'.trans h.calls, hsecond'.trans h.second, ?_, fun _ => ?_,
        fun hend => absurd hend hgo⟩
      · rw [hwire']
        exact List.append_ne_nil_of_left_ne_nil h.wire _
      · rw [hwire', hp', ← List.length_append, List.append_assoc, List.take_append_drop,
          List.length_append]
        exact hshort
    · obtain ⟨hcalls', hsecond', hwire', hp', -⟩ := cpuStep_quiet now hdone hpc
      refine ⟨hcalls'.trans h.calls, hsecond'.trans h.second, by rw [hwire']; exact h.wire,
        fun _ => ?_, fun _ => ?_⟩
      · rw [hwire', hp']; exact hshort
      · rw [hwire']; omega

/-! ### All or nothing -/

/-- At its end a run shows whether it was uncut. -/
theorem intact_or_torn (now : ℕ → UInt32) (c : Call) (txReady : Bool) (acts : List Usb.Act) :
    (Along (step now) (Uncut now c) (init [c] txReady) acts ∧
      Intact c (exec now [c] txReady acts)) ∨
    (¬ Along (step now) (Uncut now c) (init [c] txReady) acts ∧
      Torn c (exec now [c] txReady acts)) := by
  have hstart : Usb.Loaded (init [c] txReady).usb ∧ Intact c (init [c] txReady) :=
    intact_init c txReady
  rcases along_or_bad (step now) (fun s => Usb.Loaded s.usb ∧ Intact c s) (Torn c)
      (fun _ a h hcut => intact_step a h hcut) (fun _ a h hcut => torn_of_not_uncut a h hcut)
      (fun _ a h => torn_step a h) acts hstart with ⟨hcut, hend⟩ | ⟨hcut, hend⟩
  · exact Or.inl ⟨hcut, hend.2⟩
  · exact Or.inr ⟨hcut, hend⟩

/-- A call that has returned has sent nothing or the whole packet if and only if none of its steps
    gave up with a part sent, or sent payload without the header. -/
theorem wholeOrNone_iff_uncut (now : ℕ → UInt32) (c : Call) (txReady : Bool) (acts : List Usb.Act)
    (hret : Returned (exec now [c] txReady acts)) :
    WholeOrNone c (exec now [c] txReady acts) ↔
      Along (step now) (Uncut now c) (init [c] txReady) acts := by
  rcases intact_or_torn now c txReady acts with ⟨hcut, hend⟩ | ⟨hcut, hend⟩
  · exact iff_of_true (hend.wholeOrNone hret) hcut
  · exact iff_of_false (hend.not_wholeOrNone hret) hcut

/-! ### Which calls can be cut -/

/-- A merged packet is never cut. -/
theorem along_uncut_of_merged (hmerged : c.Merged) (txReady : Bool) (acts : List Usb.Act) :
    Along (step now) (Uncut now c) (init [c] txReady) acts := by
  have huncut : ∀ s a, Usb.Loaded s.usb ∧ Intact c s → Uncut now c s a := by
    rintro s a ⟨hloaded, hintact⟩
    cases a with
    | txCallback => trivial
    | cpu =>
      refine ⟨fun hgive => ?_, fun _ _ hlong => absurd hmerged hlong⟩
      have hp := hgive.ne_nil hloaded
      cases hintact with
      | waiting _ _ _ hwire => exact hwire
      | header _ _ hlong => exact absurd hmerged hlong
      | unsent _ _ hwire => exact hwire
      | part _ _ _ _ _ hnil => exact absurd (hnil hmerged) hp
  exact along_of_inv (step now) (P := fun _ _ => True) (fun s => Usb.Loaded s.usb ∧ Intact c s)
    (fun s a h _ => intact_step a h (huncut s a h)) (fun s a h _ => huncut s a h) acts
    (intact_init c txReady) (along_of_forall (step now) (fun _ _ => trivial) acts _)

/-- A call with deadline 0 finds every reading late: it sends nothing. -/
def Unsent (c : Call) (s : St) : Prop :=
  (s.calls = [c] ∨ s.calls = []) ∧ s.second = none ∧ s.usb.pc = .done ∧ s.wire = []

theorem unsent_step (hdeadline : c.deadlineUs = 0) (a : Usb.Act) (h : Unsent c s) :
    Unsent c (step now s a) := by
  obtain ⟨hcalls, hsecond, hdone, hwire⟩ := h
  cases a with
  | txCallback => exact ⟨hcalls, hsecond, hdone, hwire⟩
  | cpu =>
    show Unsent c (cpuStep now s)
    rcases hcalls with hcalls | hcalls
    · have hlate : now s.usb.reads ≥ c.deadlineUs := by
        rw [hdeadline]
        exact UInt32.zero_le
      rw [cpuStep_send now hdone hsecond hcalls]
      dsimp only
      rw [if_pos hlate]
      exact ⟨Or.inr rfl, hsecond, hdone, hwire⟩
    · rw [cpuStep_idle hcalls hsecond hdone]
      exact ⟨Or.inr hcalls, hsecond, hdone, hwire⟩

/-- Early up to the header, and past the deadline from then on. -/
def lateAfterHeader (deadlineUs : UInt32) (k : ℕ) : UInt32 := if k < 2 then 0 else deadlineUs

/-- The steps of a call whose header is sent and whose payload is given up. -/
theorem exec_lateAfterHeader (hlong : ¬ c.Merged) (hdeadline : c.deadlineUs ≠ 0) :
    let s := exec (lateAfterHeader c.deadlineUs) [c] true (Usb.cpus 8)
    Returned s ∧ s.wire = c.header := by
  have hearly : (0 : UInt32) < c.deadlineUs := UInt32.pos_iff_ne_zero.mpr hdeadline
  have hheader : c.header ≠ [] := by
    rw [← List.length_pos_iff_ne_nil, length_header]
    decide
  have hpayload : c.payload ≠ [] := by
    intro hnil
    refine hlong ?_
    rw [Call.Merged, hnil]
    decide
  have hfits : c.header.length ≤ Usb.usbMaxPacketSize := by rw [length_header]; decide
  have hlong' : ¬ sizeofHeader + c.payload.length ≤ Usb.usbMaxPacketSize := hlong
  simp [exec, Usb.cpus, List.replicate, step, cpuStep, Usb.step, Usb.cpuStep, Usb.usbSend, init,
    Usb.idle, lateAfterHeader, hearly, UInt32.not_le.mpr hearly, hheader, hpayload, hlong',
    List.take_of_length_le hfits, List.drop_eq_nil_of_le hfits, Returned, St.wire]

/-- CORRECT exactly for these calls: under every schedule and all timer readings a call of `send`
    that has returned has sent nothing or the whole packet, if and only if header and payload fit
    one USB packet, or the deadline is 0. -/
theorem wholeOrNone_iff (c : Call) :
    (∀ now txReady acts, Returned (exec now [c] txReady acts) →
      WholeOrNone c (exec now [c] txReady acts)) ↔ c.Merged ∨ c.deadlineUs = 0 := by
  constructor
  · intro hall
    by_contra hneither
    obtain ⟨hlong, hdeadline⟩ := not_or.mp hneither
    obtain ⟨hret, hwire⟩ := exec_lateAfterHeader hlong hdeadline
    have hlen := length_header c
    have hpacket := length_packet c
    rcases hall _ _ _ hret with hnone | hwhole
    · rw [hwire.symm.trans hnone] at hlen
      exact absurd hlen (by decide)
    · rw [← hwire.symm.trans hwhole, hlen] at hpacket
      refine hlong ?_
      rw [Call.Merged, sizeofHeader, ← hpacket]
      decide
  · rintro (hmerged | hdeadline) now txReady acts hret
    · refine (wholeOrNone_iff_uncut now c txReady acts hret).mpr ?_
      exact along_uncut_of_merged hmerged txReady acts
    · have hunsent : Unsent c (exec now [c] txReady acts) :=
        inv_run (step now) (Unsent c) (fun _ a h => unsent_step hdeadline a h) acts
          ⟨Or.inl rfl, rfl, rfl, rfl⟩
      exact Or.inl hunsent.2.2.2

/-- A payload of 54 bytes, the shortest that takes two calls. -/
def longCall : Call := ⟨.imuBias, List.replicate 54 0, 0, 1000⟩

/-- The callback comes in time for header and payload. -/
def promptRun : List Usb.Act := Usb.cpus 7 ++ .txCallback :: Usb.cpus 5

/-- The deadline passes after the header: it is all that is sent. -/
theorem not_wholeOrNone_cut :
    Returned (exec (fun k => if k < 2 then 0 else 1000) [longCall] true promptRun) ∧
      ¬ WholeOrNone longCall
        (exec (fun k => if k < 2 then 0 else 1000) [longCall] true promptRun) := by
  decide +kernel

end FC.Telemetry

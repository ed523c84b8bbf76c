import FlightController.Telemetry.Host

/-! The payload format, described twice: by the C structures and by the host's `PACKET_DEFS`. Every
    codec lists the types of the members, so decoding always succeeds (`decode_payload`). The names
    come in a second list, matched by position. Where it has the members' names in their order, the
    host is right about every field (`lookup_of_names`); two of the nine messages drifted. The host
    swaps the axes of the accelerometer and gyro angles, and expects a flight mode that the firmware
    does not send. -/

namespace FC.Telemetry
open Schemes.Bytes

/-- The C member that a host field names. -/
def cMember : String → String
  | "Roll" => "roll"
  | "Pitch" => "pitch"
  | "Throttle" => "throttle"
  | "Yaw" => "yaw"
  | "Ch5" => "ch5"
  | "Ch6" => "ch6"
  | "Ch7" => "ch7"
  | "Ch8" => "ch8"
  | "Ch9" => "ch9"
  | "Ch10" => "ch10"
  | "Ch11" => "ch11"
  | "Ch12" => "ch12"
  | "Ch13" => "ch13"
  | "Ch14" => "ch14"
  | "pitch_pid" => "pitch_out"
  | "roll_pid" => "roll_out"
  | "yaw_pid" => "yaw_out"
  | name => name

/-- A member's value as Python sees it. -/
def CVal.toPy : CVal → PyVal
  | .u16 v => .int v.toNat
  | .u32 v => .int v.toNat
  | .f32 bits => .float bits

/-- The format character for a member's type. -/
def CVal.code : CVal → Code
  | .u16 _ => .H
  | .u32 _ => .I
  | .f32 _ => .f

@[simp] theorem length_bytes (v : CVal) : v.bytes.length = v.code.size := by
  cases v <;> simp [CVal.bytes, CVal.code, Code.size]

theorem unpack_bytes (v : CVal) : v.code.unpack v.bytes = v.toPy := by
  cases v with
  | u16 v => rw [CVal.code, CVal.bytes, CVal.toPy, Code.unpack, ofLe_leBytes_u16]; simp
  | u32 v => rw [CVal.code, CVal.bytes, CVal.toPy, Code.unpack, ofLe_leBytes_u32]; simp
  | f32 bits =>
    rw [CVal.code, CVal.bytes, CVal.toPy, Code.unpack, ofLe_leBytes_u32, UInt32.ofNat_toNat]

/-- A codec with the members' types unpacks their values. -/
theorem unpackFrom_layout (members : List (String × CVal)) :
    unpackFrom (members.map (·.2.code)) (layout members) = members.map (·.2.toPy) := by
  induction members with
  | nil => rfl
  | cons m ms ih =>
    have hhead : (layout (m :: ms)).take m.2.code.size = m.2.bytes := by
      rw [layout, List.flatMap_cons, List.take_left' (length_bytes m.2)]
    have htail : (layout (m :: ms)).drop m.2.code.size = layout ms := by
      rw [layout, List.flatMap_cons, List.drop_left' (length_bytes m.2)]; rfl
    rw [List.map_cons, unpackFrom, hhead, htail, unpack_bytes, ih, List.map_cons]

theorem length_layout (members : List (String × CVal)) :
    (layout members).length = calcsize (members.map (·.2.code)) := by
  induction members with
  | nil => rfl
  | cons m ms ih =>
    rw [layout] at ih
    rw [layout, List.flatMap_cons, List.length_append, ih, length_bytes]
    simp [calcsize]

/-- The host has the right types for every message. -/
theorem codec_eq (m : Message) : (packetDefs m.id).codec = m.members.map (·.2.code) := by
  cases m with
  | pid axis v => cases axis <;> rfl
  | _ => rfl

/-- So it decodes every message, to the members' values in their order. -/
theorem decode_payload (m : Message) :
    decode m.id m.payload = .ok ((packetDefs m.id).fields.zip (m.members.map (·.2.toPy))) := by
  rw [decode, codec_eq, Message.payload, unpack, if_pos (length_layout m.members),
    unpackFrom_layout]
  rfl

/-- The host understands `m`: it decodes the payload, and every field that it declares has the value
    of the C member that the field names. -/
def HostAgrees (m : Message) : Prop :=
  ∃ fields, decode m.id m.payload = .ok fields ∧
    ∀ name ∈ (packetDefs m.id).fields, ∃ v,
      m.members.lookup (cMember name) = some v ∧ fields.lookup name = some v.toPy

/-- Names in the members' order find the members' values. -/
theorem lookup_of_names : ∀ (names : List String) (members : List (String × CVal)),
    names.map cMember = members.map (·.1) → (members.map (·.1)).Nodup →
    ∀ name ∈ names, ∃ v, members.lookup (cMember name) = some v ∧
      (names.zip (members.map (·.2.toPy))).lookup name = some v.toPy
  | [], _, _, _, _, hmem => absurd hmem List.not_mem_nil
  | n :: ns, [], h, _, _, _ => absurd h (by simp)
  | n :: ns, (c, v) :: ms, h, hnodup, name, hmem => by
    rw [List.map_cons, List.map_cons, List.cons.injEq] at h
    rw [List.map_cons, List.nodup_cons] at hnodup
    by_cases hname : name = n
    · subst hname
      exact ⟨v, by rw [h.1, List.lookup_cons_self], by
        rw [List.map_cons, List.zip_cons_cons, List.lookup_cons_self]⟩
    · -- another name of the list belongs to another member
      have hrest := (List.mem_cons.mp hmem).resolve_left hname
      have hother : cMember name ≠ c := by
        intro heq
        refine hnodup.1 ?_
        rw [← h.2, ← heq]
        exact List.mem_map_of_mem hrest
      obtain ⟨w, hmember, hfield⟩ := lookup_of_names ns ms h.2 hnodup.2 name hrest
      refine ⟨w, ?_, ?_⟩
      · rw [List.lookup_cons, beq_false_of_ne hother]; exact hmember
      · rw [List.map_cons, List.zip_cons_cons, List.lookup_cons, beq_false_of_ne hname]
        exact hfield

theorem hostAgrees_of_names {m : Message}
    (hnames : (packetDefs m.id).fields.map cMember = m.members.map (·.1))
    (hnodup : (m.members.map (·.1)).Nodup) : HostAgrees m :=
  ⟨_, decode_payload m, lookup_of_names _ _ hnames hnodup⟩

theorem hostAgrees_iff (m : Message) :
    HostAgrees m ↔ ∀ name ∈ (packetDefs m.id).fields, ∃ v,
      m.members.lookup (cMember name) = some v ∧
        ((packetDefs m.id).fields.zip (m.members.map (·.2.toPy))).lookup name = some v.toPy := by
  simp only [HostAgrees, decode_payload, Except.ok.injEq, exists_eq_left']

/-- The host takes the roll angles for the pitch angles, and the other way round. -/
theorem hostAgrees_imuAngles_iff (a : ImuAngles F32) :
    HostAgrees (.imuAngles a) ↔ a.apitch = a.aroll ∧ a.gpitch = a.groll := by
  have hfour : HostAgrees (.imuAngles a) ↔
      a.apitch = a.aroll ∧ a.aroll = a.apitch ∧ a.gpitch = a.groll ∧ a.groll = a.gpitch := by
    rw [hostAgrees_iff]
    simp [Message.id, Message.members, packetDefs, cMember, CVal.toPy, List.lookup_cons]
  rw [hfour]
  constructor
  · rintro ⟨ha, _, hg, _⟩
    exact ⟨ha, hg⟩
  · rintro ⟨ha, hg⟩
    exact ⟨ha, ha.symm, hg, hg.symm⟩

/-- The host declares a field that the payload has no value for. -/
theorem not_hostAgrees_fcOut (v : FcOut F32) : ¬ HostAgrees (.fcOut v) := by
  rw [hostAgrees_iff]
  simp [Message.id, Message.members, packetDefs, cMember, List.lookup_cons]

/-- CORRECT exactly where the two descriptions did not drift: the host agrees with the firmware on
    a message iff it is not the controller output, and, for the angles, pitch and roll are equal. -/
theorem host_agrees_iff (m : Message) : HostAgrees m ↔
    m.id ≠ .fcOut ∧ ∀ a, m = .imuAngles a → a.apitch = a.aroll ∧ a.gpitch = a.groll := by
  cases m with
  | imuAngles a =>
    rw [hostAgrees_imuAngles_iff]
    constructor
    · rintro hsame
      refine ⟨by simp [Message.id], fun b hb => ?_⟩
      rwa [← Message.imuAngles.inj hb]
    · exact fun h => h.2 a rfl
  | fcOut v => exact iff_of_false (not_hostAgrees_fcOut v) fun h => h.1 rfl
  | pid axis v =>
    refine iff_of_true (hostAgrees_of_names ?_ (by simp [Message.members])) ⟨?_, by simp⟩
    · cases axis <;> rfl
    · cases axis <;> simp [Message.id]
  | rxSample v | imuSi v | imuBias v | escThrottles v =>
    exact iff_of_true (hostAgrees_of_names rfl (by simp [Message.members]))
      ⟨by simp [Message.id], by simp⟩

/-- One degree of accelerometer pitch, no roll. -/
theorem host_swaps_angles : ¬ HostAgrees (.imuAngles ⟨0, 0, 0x3f800000, 0, 0, 0⟩) := by
  rw [hostAgrees_imuAngles_iff]
  decide

end FC.Telemetry

import FlightController.Telemetry.Packets

/-! The host (`scripts/telemetry/telemetry.py`). `read_packet` hunts for the magic word, reads a
    header and a payload, and decodes the payload with the codec that `PACKET_DEFS` lists under the
    header's id. A Python `float` is the bit pattern of the C `float` it was unpacked from.

    The serial connection is the bytes still to come and an oracle for how they are split: a read
    of up to `n` bytes returns at least one while there are any, and none after that. -/

namespace FC.Telemetry
open Schemes.Bytes

/-- The format characters of `struct` that the host uses. -/
inductive Code where | B | H | I | f
  deriving DecidableEq, Repr

def Code.size : Code → ℕ
  | .B => 1
  | .H => 2
  | .I => 4
  | .f => 4

/-- A Python value. -/
inductive PyVal where
  | int (n : ℕ)
  | float (bits : F32)
  deriving DecidableEq, Repr

/-- The exceptions that `read_packet` can raise: `TimeoutError`, the `ValueError` of an unknown id,
    `struct.error`. -/
inductive PyError where | timeout | valueError | structError
  deriving DecidableEq, Repr

def Code.unpack : Code → List UInt8 → PyVal
  | .f, bytes => .float (UInt32.ofNat (ofLe bytes))
  | _, bytes => .int (ofLe bytes)

/-- `Struct.size`. -/
def calcsize (codec : List Code) : ℕ := (codec.map Code.size).sum

/-- The values in a buffer, one code after the other. -/
def unpackFrom : List Code → List UInt8 → List PyVal
  | [], _ => []
  | c :: cs, buf => c.unpack (buf.take c.size) :: unpackFrom cs (buf.drop c.size)

/-- `Struct.unpack` with a little-endian format: the buffer must have exactly the codec's size. -/
def unpack (codec : List Code) (buf : List UInt8) : Except PyError (List PyVal) :=
  if buf.length = calcsize codec then .ok (unpackFrom codec buf) else .error .structError

/-- `PacketDef`. -/
structure PacketDef where
  codec : List Code
  fields : List String

/-- `PID_FIELDS`. -/
def pidFields : List String :=
  ["prev_time_us", "integral_err", "prev_actual", "Kp", "Ki", "Kd", "pterm", "iterm", "dterm",
    "desired", "actual"]

/-- `PACKET_DEFS`. -/
def packetDefs : TelemetryId → PacketDef
  | .rxSample =>
    ⟨List.replicate 14 .H,
      ["Roll", "Pitch", "Throttle", "Yaw", "Ch5", "Ch6", "Ch7", "Ch8", "Ch9", "Ch10", "Ch11",
        "Ch12", "Ch13", "Ch14"]⟩
  | .imuSi => ⟨List.replicate 6 .f, ["gx", "gy", "gz", "ax", "ay", "az"]⟩
  | .imuSample => ⟨List.replicate 6 .f ++ [.I], ["gx", "gy", "gz", "ax", "ay", "az", "dt"]⟩
  | .imuAngles =>
    ⟨List.replicate 6 .f, ["fused_pitch", "fused_roll", "aroll", "apitch", "groll", "gpitch"]⟩
  | .escThrottles =>
    ⟨List.replicate 4 .H, ["front_left", "front_right", "back_left", "back_right"]⟩
  | .fcOut => ⟨List.replicate 3 .f, ["pitch_pid", "roll_pid", "yaw_pid", "flight_mode"]⟩
  | .pidPitch => ⟨.I :: List.replicate 10 .f, pidFields⟩
  | .pidRoll => ⟨.I :: List.replicate 10 .f, pidFields⟩
  | .pidYaw => ⟨.I :: List.replicate 10 .f, pidFields⟩
  | .imuBias => ⟨List.replicate 6 .f, ["gx", "gy", "gz", "ax", "ay", "az"]⟩

/-- The last lines of `read_packet`: `dict(zip(fields, codec.unpack(payload)))`. -/
def decode (id : TelemetryId) (payload : List UInt8) : Except PyError (List (String × PyVal)) :=
  (unpack (packetDefs id).codec payload).map ((packetDefs id).fields.zip ·)

/-- `TelemetryId(tid)`. -/
def TelemetryId.ofTid : ℕ → Except PyError TelemetryId
  | 0 => .ok .rxSample
  | 1 => .ok .imuSi
  | 2 => .ok .imuSample
  | 3 => .ok .imuAngles
  | 4 => .ok .escThrottles
  | 5 => .ok .fcOut
  | 6 => .ok .pidPitch
  | 7 => .ok .pidRoll
  | 8 => .ok .pidYaw
  | 9 => .ok .imuBias
  | _ => .error .valueError

/-- No two fields of a packet share a name, so `dict(zip(..))` overwrites nothing. -/
theorem nodup_fields (id : TelemetryId) : (packetDefs id).fields.Nodup := by
  cases id <;> decide

/-! ### The connection -/

/-- The serial connection: bytes to come, and how the `i`-th read splits them. -/
structure Conn where
  rest : List UInt8
  split : ℕ → ℕ
  reads : ℕ

/-- `conn.read(n)`: between 1 and `n` bytes, as long as there are any. -/
def Conn.read (conn : Conn) (n : ℕ) : List UInt8 × Conn :=
  let k := 1 + conn.split conn.reads % n
  (conn.rest.take k, { conn with rest := conn.rest.drop k, reads := conn.reads + 1 })

/-- The loop of `read_exact`, with the bytes read so far in `buf`. -/
def readLoop (n : ℕ) (buf : List UInt8) (conn : Conn) : Except PyError (List UInt8 × Conn) :=
  if _ : buf.length < n then
    match conn.read (n - buf.length) with
    | ([], _) => .error .timeout
    | (b :: bs, conn') => readLoop n (buf ++ b :: bs) conn'
  else .ok (buf, conn)
termination_by n - buf.length
decreasing_by rw [List.length_append, List.length_cons]; omega

/-- `read_exact`. -/
def readExact (n : ℕ) (conn : Conn) : Except PyError (List UInt8 × Conn) := readLoop n [] conn

/-- A read takes at most `n` bytes off the front, and none only at the end. -/
theorem Conn.read_spec {conn conn' : Conn} {n : ℕ} {chunk : List UInt8} (hn : 0 < n)
    (h : conn.read n = (chunk, conn')) :
    conn'.split = conn.split ∧ conn.rest = chunk ++ conn'.rest ∧ chunk.length ≤ n ∧
      (chunk = [] → conn.rest = []) := by
  have hmod := Nat.mod_lt (conn.split conn.reads) hn
  rw [Conn.read, Prod.mk.injEq] at h
  obtain ⟨rfl, rfl⟩ := h
  refine ⟨rfl, (List.take_append_drop ..).symm, ?_, fun hnil => ?_⟩
  · rw [List.length_take]; omega
  · exact (List.take_eq_nil_iff.mp hnil).resolve_left (by omega)

/-- A loop with enough bytes to come reads exactly those it misses. -/
theorem readLoop_append {n : ℕ} {buf head tail : List UInt8} {conn : Conn}
    (hrest : conn.rest = head ++ tail) (hn : n = buf.length + head.length) :
    ∃ conn', readLoop n buf conn = .ok (buf ++ head, conn') ∧ conn'.rest = tail ∧
      conn'.split = conn.split := by
  fun_induction readLoop n buf conn generalizing head with
  | case1 buf conn hmore conn' hread =>
    -- the end of the stream: but `head` is still to come
    have hnil := (Conn.read_spec (by omega) hread).2.2.2 rfl
    have hlen := congrArg List.length (hrest.symm.trans hnil)
    rw [List.length_append, List.length_nil] at hlen; omega
  | case2 buf conn hmore b bs conn' hread ih =>
    obtain ⟨hsplit, hchunk, hle, _⟩ := Conn.read_spec (by omega) hread
    obtain ⟨head', hhead, hrest'⟩ :
        ∃ head', head = b :: bs ++ head' ∧ conn'.rest = head' ++ tail := by
      rcases List.append_eq_append_iff.mp (hchunk.symm.trans hrest) with ⟨l, hl⟩ | ⟨l, hl, htail⟩
      · exact ⟨l, hl⟩
      · have hshort : l = [] := by
          have := congrArg List.length hl
          rw [List.length_append] at this
          exact List.length_eq_zero_iff.mp (by omega)
        subst hshort
        exact ⟨[], by simpa using hl.symm, by simpa using htail.symm⟩
    obtain ⟨conn'', hloop, htail, hsplit'⟩ := ih hrest' (by
      rw [hn, hhead, List.length_append, List.length_append]; omega)
    exact ⟨conn'', by rw [hloop, hhead, List.append_assoc], htail, hsplit'.trans hsplit⟩
  | case3 buf conn hdone =>
    have hnil : head = [] := List.length_eq_zero_iff.mp (by omega)
    subst hnil
    exact ⟨conn, by simp, by simpa using hrest, rfl⟩

/-- A loop with too few bytes to come times out. -/
theorem readLoop_of_short {n : ℕ} {buf : List UInt8} {conn : Conn}
    (h : buf.length + conn.rest.length < n) : readLoop n buf conn = .error .timeout := by
  fun_induction readLoop n buf conn with
  | case1 => rfl
  | case2 buf conn hmore b bs conn' hread ih =>
    have hchunk := congrArg List.length (Conn.read_spec (by omega) hread).2.1
    rw [List.length_append] at hchunk
    exact ih (by rw [List.length_append]; omega)
  | case3 buf conn hdone => omega

/-- However the stream is split, `read_exact` returns its next `n` bytes. -/
theorem readExact_append {n : ℕ} {head tail : List UInt8} {conn : Conn}
    (hrest : conn.rest = head ++ tail) (hn : head.length = n) :
    ∃ conn', readExact n conn = .ok (head, conn') ∧ conn'.rest = tail ∧
      conn'.split = conn.split :=
  readLoop_append hrest (by simp [hn])

/-- Past the end of the stream it times out. -/
theorem readExact_of_short {n : ℕ} {conn : Conn} (h : conn.rest.length < n) :
    readExact n conn = .error .timeout := readLoop_of_short (by simpa using h)

/-- What `read_exact` returns comes off the stream. -/
theorem readExact_length {n : ℕ} {conn conn' : Conn} {bytes : List UInt8}
    (h : readExact n conn = .ok (bytes, conn')) : n + conn'.rest.length = conn.rest.length := by
  rcases Nat.lt_or_ge conn.rest.length n with hshort | hlong
  · rw [readExact_of_short hshort] at h; exact absurd h (by simp)
  · obtain ⟨conn'', hread, hrest, _⟩ :=
      readExact_append (List.take_append_drop n conn.rest).symm (List.length_take_of_le hlong)
    rw [hread, Except.ok.injEq, Prod.mk.injEq] at h
    rw [← h.2, hrest, List.length_drop]; omega

/-! ### Packets -/

/-- `Packet`. -/
structure Packet where
  id : TelemetryId
  seqnum : ℕ
  fields : List (String × PyVal)
  deriving DecidableEq, Repr

/-- `MAGIC.to_bytes(4, "little")`. -/
def magicBytes : List UInt8 := leBytes 4 magic.toNat

/-- The loop that shifts bytes through the window `word` until it is the magic word. -/
def hunt (word : List UInt8) (conn : Conn) : Except PyError Conn :=
  if word = magicBytes then .ok conn
  else
    match _ : readExact 1 conn with
    | .error e => .error e
    | .ok (byte, conn') => hunt (word.drop 1 ++ byte) conn'
termination_by conn.rest.length
decreasing_by
  rename_i hread
  have := readExact_length hread
  omega

/-- `read_packet`. -/
def readPacket (conn : Conn) : Except PyError (Packet × Conn) := do
  let (word, conn) ← readExact 4 conn
  let conn ← hunt word conn
  let (head, conn) ← readExact 7 conn
  match ← unpack [.B, .H, .I] head with
  | [.int tid, .int length, .int seqnum] =>
    let (payload, conn) ← readExact length conn
    let id ← TelemetryId.ofTid tid
    let fields ← decode id payload
    return (⟨id, seqnum, fields⟩, conn)
  | _ => throw .structError

/-- `n` calls of `read_packet`, up to the first exception. -/
def readPackets : ℕ → Conn → List Packet × Option PyError
  | 0, _ => ([], none)
  | n + 1, conn =>
    match readPacket conn with
    | .error e => ([], some e)
    | .ok (packet, conn') =>
      let r := readPackets n conn'
      (packet :: r.1, r.2)

end FC.Telemetry

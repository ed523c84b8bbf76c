import FlightController.Telemetry.Host
import FlightController.Telemetry.Send

/-! The telemetry stream from end to end. Every packet in `PACKET_DEFS` fits one USB packet with its
    header, so an abort at the deadline drops a packet as a whole: what reaches the wire is a
    concatenation of whole packets, of some of the calls in their order (`whole_exec`). The host
    reads such a stream packet by packet (`readPacket_packet`): it starts each time at a magic word,
    skips nothing, and takes as many payload bytes as the header says, whatever they are. Together
    these are the round trip (`telemetry_round_trip`). -/

namespace FC.Telemetry
open Schemes Schemes.Bytes

/-- The payload has exactly the size of its id's codec. -/
def Call.Valid (c : Call) : Prop := c.payload.length = calcsize (packetDefs c.id).codec

instance (c : Call) : Decidable c.Valid := instDecidableEqNat _ _

/-- The largest packets are the PID's. -/
theorem calcsize_le (id : TelemetryId) : calcsize (packetDefs id).codec ≤ 44 := by
  cases id <;> decide

/-- Header and payload of a valid call fit one USB packet. -/
theorem Call.Valid.fits {c : Call} (h : c.Valid) : c.packet.length ≤ Usb.usbMaxPacketSize := by
  have hle := calcsize_le c.id
  rw [← h] at hle
  rw [length_packet, Usb.usbMaxPacketSize]; omega

/-! ### Only whole packets reach the wire -/

/-- The packets passed to the endpoint are those of calls made, in their order; the buffer in
    progress is one call's packet, and the calls to come follow it. -/
structure Whole (calls : List Call) (s : St) : Prop where
  second : s.second = none
  loaded : Usb.Loaded s.usb
  written : ∃ written : List Call, s.usb.passed.map (·.bytes) = written.map Call.packet ∧
    (written ++ s.calls).Sublist calls ∧
    (s.usb.pc ≠ .done → s.usb.p ≠ [] →
      ∃ c, s.usb.p = c.packet ∧ (written ++ c :: s.calls).Sublist calls)

variable (now : ℕ → UInt32) {calls : List Call}

/-- The write passes the packet of one call, all of it. -/
theorem whole_write (hvalid : ∀ c ∈ calls, c.Valid) {s : St} (h : Whole calls s)
    (hpc : s.usb.pc = .write) : Whole calls (cpuStep now s) := by
  obtain ⟨hsecond, hloaded, written, hpassed, hsub, hbuf⟩ := h
  obtain ⟨c, hp, hnext⟩ := hbuf (by simp [hpc]) (hloaded (by simp [hpc]) (by simp [hpc]))
  have hfits : c.packet.length ≤ Usb.usbMaxPacketSize :=
    (hvalid c (hnext.subset (by simp))).fits
  have hstep : Usb.step now s.usb .cpu =
      { s.usb with
        pc := .outer, p := [], txReady := false, steps := s.usb.steps + 1
        passed := s.usb.passed ++ [⟨s.usb.reads, c.packet⟩] } := by
    simp only [Usb.step, Usb.cpuStep, hpc, hp, List.take_of_length_le hfits,
      List.drop_of_length_le hfits]
  rw [cpuStep_of_running now (by simp [hpc]), hstep]
  refine ⟨hsecond, fun hne => absurd rfl hne, written ++ [c], ?_, ?_, fun _ hne => absurd rfl hne⟩
  · rw [List.map_append, List.map_append, hpassed]; rfl
  · rw [List.append_assoc]; exact hnext

/-- The other steps of a `usb_send` change neither the buffer nor the packets. -/
theorem whole_running {s : St} (h : Whole calls s) (hrun : s.usb.pc ≠ .done)
    (hpc : s.usb.pc ≠ .write) : Whole calls (cpuStep now s) := by
  obtain ⟨hsecond, hloaded, written, hpassed, hsub, hbuf⟩ := h
  obtain ⟨hp, hsame⟩ := Usb.cpuStep_frame now hpc
  rw [cpuStep_of_running now hrun]
  refine ⟨hsecond, Usb.loaded_step now hloaded .cpu, written, ?_, hsub, fun _ hne => ?_⟩
  · simp only [Usb.step, hsame, hpassed]
  · simp only [Usb.step, hp] at hne ⊢
    exact hbuf hrun hne

/-- Between two `usb_send` calls the next `send` takes its packet up, or is too late. -/
theorem whole_next (hvalid : ∀ c ∈ calls, c.Valid) {s : St} (h : Whole calls s)
    (hdone : s.usb.pc = .done) : Whole calls (cpuStep now s) := by
  obtain ⟨hsecond, hloaded, written, hpassed, hsub, hbuf⟩ := h
  cases hcalls : s.calls with
  | nil =>
    have hsame : cpuStep now s = s := by simp [cpuStep, hdone, hsecond, hcalls]
    rw [hsame]
    exact ⟨hsecond, hloaded, written, hpassed, hsub, hbuf⟩
  | cons c rest =>
    rw [hcalls] at hsub
    have hskip : (written ++ rest).Sublist calls :=
      ((List.sublist_cons_self c rest).append_left written).trans hsub
    have hfits : sizeofHeader + c.payload.length ≤ Usb.usbMaxPacketSize := by
      have := (hvalid c (hsub.subset (by simp))).fits
      rwa [length_packet] at this
    rw [cpuStep_send now hdone hsecond hcalls]
    dsimp only
    rw [if_pos hfits]
    split
    · exact ⟨hsecond, hloaded, written, hpassed, hskip, fun hne => absurd hdone hne⟩
    · exact ⟨hsecond, fun hne => absurd rfl hne, written, hpassed, hskip,
        fun _ _ => ⟨c, rfl, hsub⟩⟩

theorem whole_step (hvalid : ∀ c ∈ calls, c.Valid) {s : St} (h : Whole calls s) (a : Usb.Act) :
    Whole calls (step now s a) := by
  cases a with
  | txCallback => exact ⟨h.second, h.loaded, h.written⟩
  | cpu =>
    rcases eq_or_ne s.usb.pc .done with hdone | hdone
    · exact whole_next now hvalid h hdone
    · rcases eq_or_ne s.usb.pc .write with hwrite | hwrite
      · exact whole_write now hvalid h hwrite
      · exact whole_running now h hdone hwrite

/-- In every run only whole packets are on the wire, of some of the calls in their order. -/
theorem whole_exec (hvalid : ∀ c ∈ calls, c.Valid) (txReady : Bool) (acts : List Usb.Act) :
    ∃ written : List Call, written.Sublist calls ∧
      (exec now calls txReady acts).usb.passed.map (·.bytes) = written.map Call.packet := by
  have hwhole : Whole calls (exec now calls txReady acts) :=
    inv_run _ (Whole calls) (fun _ a h => whole_step now hvalid h a) acts
      ⟨rfl, fun _ hne => absurd rfl hne, [], rfl, List.Sublist.refl _, fun hne => absurd rfl hne⟩
  obtain ⟨written, hpassed, hsub, _⟩ := hwhole.written
  exact ⟨written, (List.sublist_append_left written _).trans hsub, hpassed⟩

/-! ### The host reads whole packets -/

/-- What the host makes of a call's packet. -/
def Call.received (c : Call) : Packet where
  id := c.id
  seqnum := c.seqnum.toNat
  fields := (packetDefs c.id).fields.zip (unpackFrom (packetDefs c.id).codec c.payload)

theorem ofTid_toByte (id : TelemetryId) : TelemetryId.ofTid id.toByte.toNat = .ok id := by
  cases id <;> rfl

/-- The seven bytes after the magic word unpack to id, length and sequence number. -/
theorem unpack_head (id : TelemetryId) (len : UInt16) (seqnum : UInt32) :
    unpack [.B, .H, .I] (id.toByte :: (leBytes 2 len.toNat ++ leBytes 4 seqnum.toNat)) =
      .ok [.int id.toByte.toNat, .int len.toNat, .int seqnum.toNat] := by
  have hlen : (leBytes 2 len.toNat).length = 2 := length_leBytes ..
  have hseq : (leBytes 4 seqnum.toNat).take 4 = leBytes 4 seqnum.toNat :=
    List.take_of_length_le (by simp)
  simp [unpack, unpackFrom, calcsize, Code.size, Code.unpack, List.take_left' hlen,
    List.drop_left' hlen, hseq, ofLe, ofLe_leBytes_u16, ofLe_leBytes_u32]

/-- The bytes of a packet after its magic word. -/
def Call.afterMagic (c : Call) : List UInt8 :=
  c.id.toByte :: (leBytes 2 (UInt16.ofNat c.payload.length).toNat ++ leBytes 4 c.seqnum.toNat) ++
    c.payload

theorem Call.packet_eq (c : Call) : c.packet = magicBytes ++ c.afterMagic := by
  simp [Call.packet, Call.header, telemetryHeader, magicBytes, Call.afterMagic]

/-- Once the hunt has ended at the magic word of a packet, `read_packet` returns that packet and
    stops at its end. -/
theorem readPacket_of_hunt {c : Call} (hc : c.Valid) {conn conn₁ conn₂ : Conn}
    {word tail : List UInt8} (hread : readExact 4 conn = .ok (word, conn₁))
    (hhunt : hunt word conn₁ = .ok conn₂) (hrest : conn₂.rest = c.afterMagic ++ tail) :
    ∃ conn', readPacket conn = .ok (c.received, conn') ∧ conn'.rest = tail := by
  have hlen : (UInt16.ofNat c.payload.length).toNat = c.payload.length := by
    have hle := calcsize_le c.id
    rw [← hc] at hle
    rw [UInt16.toNat_ofNat']; omega
  set head : List UInt8 := c.id.toByte ::
    (leBytes 2 (UInt16.ofNat c.payload.length).toNat ++ leBytes 4 c.seqnum.toNat) with hhead
  have hsplit : conn₂.rest = head ++ (c.payload ++ tail) := by
    rw [hrest, Call.afterMagic, ← hhead, List.append_assoc]
  obtain ⟨conn₃, hread₃, hrest₃, _⟩ := readExact_append (n := 7) hsplit (by simp [hhead])
  obtain ⟨conn₄, hread₄, hrest₄, _⟩ := readExact_append (n := c.payload.length) hrest₃ rfl
  have hunpack := unpack_head c.id (UInt16.ofNat c.payload.length) c.seqnum
  rw [← hhead, hlen] at hunpack
  have hdecode : decode c.id c.payload = .ok c.received.fields := by
    have hsize : c.payload.length = calcsize (packetDefs c.id).codec := hc
    rw [decode, unpack, if_pos hsize]; rfl
  refine ⟨conn₄, ?_, hrest₄⟩
  simp only [readPacket, bind, Except.bind, hread, hhunt, hread₃, hunpack, hread₄, ofTid_toByte,
    hdecode]
  rfl

/-- From the start of a packet, `read_packet` returns it and stops at its end. -/
theorem readPacket_packet {c : Call} (hc : c.Valid) {conn : Conn} {tail : List UInt8}
    (hrest : conn.rest = c.packet ++ tail) :
    ∃ conn', readPacket conn = .ok (c.received, conn') ∧ conn'.rest = tail := by
  rw [Call.packet_eq, List.append_assoc] at hrest
  obtain ⟨conn₁, hread, hrest₁, _⟩ := readExact_append (n := 4) hrest (by simp [magicBytes])
  exact readPacket_of_hunt hc hread (by rw [hunt, if_pos rfl]) hrest₁

/-- Repeated calls return the packets of a stream one by one, and time out at its end. -/
theorem readPackets_flatMap {written : List Call} (hvalid : ∀ c ∈ written, c.Valid) {n : ℕ}
    {conn : Conn} (hn : written.length < n) (hrest : conn.rest = written.flatMap Call.packet) :
    readPackets n conn = (written.map Call.received, some .timeout) := by
  induction n generalizing written conn with
  | zero => exact absurd hn (Nat.not_lt_zero _)
  | succ n ih =>
    cases written with
    | nil =>
      have htimeout : readPacket conn = .error .timeout := by
        have hshort : readExact 4 conn = .error .timeout :=
          readExact_of_short (by rw [hrest]; decide)
        simp only [readPacket, bind, Except.bind, hshort]
      simp only [readPackets, htimeout, List.map_nil]
    | cons c cs =>
      obtain ⟨conn', hread, hrest'⟩ :=
        readPacket_packet (hvalid c (List.mem_cons_self ..)) (hrest.trans List.flatMap_cons)
      have htail := ih (fun d hd => hvalid d (List.mem_cons_of_mem _ hd))
        (Nat.lt_of_succ_lt_succ hn) hrest'
      simp only [readPackets, hread, htail, List.map_cons]

/-! ### Nothing of a payload is lost -/

/-- The bytes that a value was unpacked from. -/
def Code.pack : Code → PyVal → List UInt8
  | c, .int n => leBytes c.size n
  | c, .float bits => leBytes c.size bits.toNat

theorem pack_unpack {c : Code} {bytes : List UInt8} (h : bytes.length = c.size) :
    c.pack (c.unpack bytes) = bytes := by
  have hback : leBytes c.size (ofLe bytes) = bytes := by rw [← h]; exact leBytes_ofLe bytes
  cases c with
  | f =>
    have hlt : ofLe bytes < 2 ^ 32 := by
      have := ofLe_lt bytes
      rw [h] at this
      exact this
    rw [Code.unpack, Code.pack, UInt32.toNat_ofNat', Nat.mod_eq_of_lt hlt]
    exact hback
  | _ => exact hback

/-- The payload that the values of a packet were unpacked from. -/
def Packet.payload (p : Packet) : List UInt8 :=
  (List.zipWith Code.pack (packetDefs p.id).codec (p.fields.map (·.2))).flatten

theorem flatten_pack {codec : List Code} {buf : List UInt8} (h : buf.length = calcsize codec) :
    (List.zipWith Code.pack codec (unpackFrom codec buf)).flatten = buf := by
  induction codec generalizing buf with
  | nil => rw [List.length_eq_zero_iff.mp h]; rfl
  | cons c cs ih =>
    have hsum : calcsize (c :: cs) = c.size + calcsize cs := by simp [calcsize]
    rw [hsum] at h
    rw [unpackFrom, List.zipWith_cons_cons, List.flatten_cons,
      pack_unpack (List.length_take_of_le (by omega)),
      ih (by rw [List.length_drop]; omega), List.take_append_drop]

theorem length_unpackFrom (codec : List Code) (buf : List UInt8) :
    (unpackFrom codec buf).length = codec.length := by
  induction codec generalizing buf with
  | nil => rfl
  | cons c cs ih => rw [unpackFrom, List.length_cons, List.length_cons, ih]

/-- No packet has more values than names, so `zip` drops no value. -/
theorem length_codec_le (id : TelemetryId) :
    (packetDefs id).codec.length ≤ (packetDefs id).fields.length := by
  cases id <;> decide

theorem payload_received {c : Call} (hc : c.Valid) : c.received.payload = c.payload := by
  have hvalues : c.received.fields.map (·.2) = unpackFrom (packetDefs c.id).codec c.payload :=
    List.map_snd_zip (by rw [length_unpackFrom]; exact length_codec_le c.id)
  rw [Packet.payload, hvalues]
  exact flatten_pack hc

/-- CORRECT: in every run the wire carries whole packets only, of some of the calls in their order,
    and however the stream is split, the host reads back exactly these: id, sequence number and
    payload, one by one, and then no more. -/
theorem telemetry_round_trip (hvalid : ∀ c ∈ calls, c.Valid) (txReady : Bool)
    (acts : List Usb.Act) (split : ℕ → ℕ) :
    ∃ written : List Call, written.Sublist calls ∧
      (exec now calls txReady acts).usb.passed.map (·.bytes) = written.map Call.packet ∧
      ∃ packets : List Packet,
        (∀ n, written.length < n →
          readPackets n ⟨(exec now calls txReady acts).wire, split, 0⟩ = (packets, some .timeout)) ∧
        packets.map (fun p => (p.id, p.seqnum, p.payload)) =
          written.map fun c => (c.id, c.seqnum.toNat, c.payload) := by
  obtain ⟨written, hsub, hpassed⟩ := whole_exec now hvalid txReady acts
  have hwritten : ∀ c ∈ written, c.Valid := fun c hc => hvalid c (hsub.subset hc)
  have hwire : (exec now calls txReady acts).wire = written.flatMap Call.packet := by
    rw [St.wire, List.flatMap_def, hpassed, ← List.flatMap_def]
  refine ⟨written, hsub, hpassed, written.map Call.received, fun n hn => ?_, ?_⟩
  · exact readPackets_flatMap hwritten hn hwire
  · rw [List.map_map]
    refine List.map_congr_left fun c hc => ?_
    simp only [Function.comp_apply, payload_received (hwritten c hc)]
    rfl

/-- Two calls, the first with the magic word twice for its payload. -/
def magicCalls : List Call :=
  [⟨.escThrottles, magicBytes ++ magicBytes, 7, 2000⟩, ⟨.fcOut, List.replicate 12 0xAA, 8, 4000⟩]

/-- The endpoint is ready for the second packet when the first one has been read. -/
def magicActs : List Usb.Act := Usb.cpus 6 ++ .txCallback :: Usb.cpus 6

/-- The host is not confused by it, even when it gets the stream byte by byte. -/
theorem telemetry_round_trip_magicCalls : ∃ packets : List Packet,
    readPackets 3 ⟨(exec (fun _ => 0) magicCalls true magicActs).wire, fun _ => 0, 0⟩ =
      (packets, some .timeout) ∧
    packets.map (fun p => (p.id, p.seqnum, p.payload)) =
      [(.escThrottles, 7, magicBytes ++ magicBytes), (.fcOut, 8, List.replicate 12 0xAA)] := by
  have hvalid : ∀ c ∈ magicCalls, c.Valid := by decide
  obtain ⟨written, hsub, hpassed, packets, hread, hpackets⟩ :=
    telemetry_round_trip (fun _ => 0) hvalid true magicActs (fun _ => 0)
  have htwo : written.length = 2 := by
    have hlen := congrArg List.length hpassed
    rw [List.length_map, List.length_map] at hlen
    rw [← hlen]; decide
  have hall : written = magicCalls := hsub.eq_of_length (by rw [htwo]; rfl)
  rw [hall] at hread hpackets
  exact ⟨packets, hread 3 (by decide), hpackets⟩

end FC.Telemetry

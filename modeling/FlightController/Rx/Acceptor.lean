import FlightController.Rx.Ibus
import FlightController.Schemes.Bytes

/-! What the iBus parser accepts. A *frame* is 0x20 0x40, 28 payload bytes and the little-endian
    checksum `0xFFFF - (sum of the first 30 bytes)`; its sample is the 14 little-endian words of the
    payload.

    The parser carries one invariant: its last `nbytes` bytes were read from an idle state, are the
    beginning of a frame, and sit decoded in the state (`Collected`). `ibus_acceptor_exact` reads
    off it that the parser publishes on exactly the last bytes of the frames that start when it is
    idle, whatever the stream. -/

namespace FC.Ibus
open Schemes Schemes.Bytes

/-- The bytes of a stream. -/
def bytesOf (bs : Stream) : List UInt8 := bs.map Prod.snd

@[simp] theorem length_bytesOf (bs : Stream) : (bytesOf bs).length = bs.length := List.length_map ..

@[simp] theorem bytesOf_append (as bs : Stream) : bytesOf (as ++ bs) = bytesOf as ++ bytesOf bs :=
  List.map_append

/-- A well-formed iBus frame. -/
structure ValidFrame (f : List UInt8) : Prop where
  length : f.length = 32
  first : f[0]? = some 0x20
  second : f[1]? = some 0x40
  cksum : (ofLe (f.drop 30) : ℤ) = (0xFFFF - byteSum (f.take 30)) % 2 ^ 16

/-- Payload word of channel `c` (counted from 1) in a frame: channel 1 follows the two header
    bytes. -/
def channelWord (f : List UInt8) (c : ℕ) : UInt16 := UInt16.ofNat (ofLe ((f.drop (2 * c)).take 2))

/-- The sample a frame carries. -/
def frameSample (f : List UInt8) : RxSample :=
  ⟨channelWord f 1, channelWord f 2, channelWord f 3, channelWord f 4, channelWord f 5,
    channelWord f 6, channelWord f 7, channelWord f 8, channelWord f 9, channelWord f 10,
    channelWord f 11, channelWord f 12, channelWord f 13, channelWord f 14⟩

/-- The first 30 bytes of the frame that carries a sample. -/
def frameBody (r : RxSample) : List UInt8 :=
  0x20 :: 0x40 :: r.channels.flatMap fun w => leBytes 2 w.toNat

/-- What a transmitter sends for a sample. -/
def frameBytes (r : RxSample) : List UInt8 :=
  frameBody r ++ leBytes 2 (0xFFFF - byteSum (frameBody r))

theorem length_frameBody (r : RxSample) : (frameBody r).length = 30 := by
  simp [frameBody, RxSample.channels]

/-- A transmitted frame is well-formed. -/
theorem validFrame_frameBytes (r : RxSample) : ValidFrame (frameBytes r) := by
  have hlen := length_frameBody r
  have hsum : byteSum (frameBody r) ≤ 255 * 30 := hlen ▸ byteSum_le _
  refine ⟨by simp [frameBytes, hlen], rfl, rfl, ?_⟩
  have hdrop : (frameBytes r).drop 30 = leBytes 2 (0xFFFF - byteSum (frameBody r)) := by
    rw [frameBytes, ← hlen, List.drop_left]
  have htake : (frameBytes r).take 30 = frameBody r := by rw [frameBytes, ← hlen, List.take_left]
  rw [hdrop, htake, ofLe_leBytes_of_lt (by omega)]
  omega

/-- A transmitted frame carries its sample: sending and decoding are inverse. -/
theorem frameSample_frameBytes (r : RxSample) : frameSample (frameBytes r) = r := by
  have hword : ∀ w : UInt16, UInt16.ofNat (ofLe (leBytes 2 w.toNat)) = w := by
    intro w
    rw [ofLe_leBytes_of_lt w.toNat_lt, UInt16.ofNat_toNat]
  cases r
  simp only [frameSample, RxSample.mk.injEq]
  refine ⟨?_, ?_, ?_, ?_, ?_, ?_, ?_, ?_, ?_, ?_, ?_, ?_, ?_, ?_⟩ <;> exact hword _

/-- Two header bytes, as far as they are there. -/
structure HeaderOk (p : List UInt8) : Prop where
  first : ∀ b, p[0]? = some b → b = 0x20
  second : ∀ b, p[1]? = some b → b = 0x40

/-- The state has collected the bytes `p`, the beginning of a frame. -/
structure Collected (p : List UInt8) (s : Ibus) : Prop where
  nbytes : s.nbytes = p.length
  short : p.length ≤ 31
  header : HeaderOk p
  cksum : p ≠ [] → s.computedCksum.toNat + byteSum (p.take 30) = 0xFFFF
  payload : ∀ i b, i < 28 → p[i + 2]? = some b → s.bytes[i]?.getD 0 = b
  low : ∀ b, p[30]? = some b → s.packetCksum = b.toUInt16

theorem collected_nil {s : Ibus} (h : s.nbytes = 0) : Collected [] s := by
  constructor
  case header => constructor <;> simp
  all_goals simp [h]

theorem HeaderOk.prefix {p : List UInt8} {ch : UInt8} (h : HeaderOk (p ++ [ch])) : HeaderOk p := by
  constructor
  · intro b hb; exact h.first b (by rw [List.getElem?_append_left (by grind)]; exact hb)
  · intro b hb; exact h.second b (by rw [List.getElem?_append_left (by grind)]; exact hb)

/-- The checksum of the collected bytes never runs below zero. -/
theorem Collected.cksum_sub {p : List UInt8} {s : Ibus} (h : Collected p s) (hne : p ≠ [])
    (hlt : p.length < 30) (ch : UInt8) :
    (s.computedCksum - ch.toUInt16).toNat + byteSum ((p ++ [ch]).take 30) = 0xFFFF := by
  have hsum := h.cksum hne
  have hle := byteSum_le p
  have hch : ch.toNat < 256 := ch.toNat_lt
  rw [List.take_of_length_le hlt.le] at hsum
  rw [List.take_of_length_le (by simp; omega), byteSum_append, byteSum_cons, byteSum_nil,
    UInt16.toNat_sub, UInt8.toNat_toUInt16]
  omega

/-- A further byte of a frame is collected. -/
theorem Collected.step {p : List UInt8} {s : Ibus} {ch : UInt8} (now : UInt32)
    (h : Collected p s) (hlt : p.length < 31) (hh : HeaderOk (p ++ [ch])) :
    Collected (p ++ [ch]) (ibusUpdateState now s ch) := by
  have hn := h.nbytes
  obtain h0 | h1 | hmid | h30 :
      p.length = 0 ∨ p.length = 1 ∨ (2 ≤ p.length ∧ p.length < 30) ∨ p.length = 30 := by omega
  · -- first header byte
    have hp : p = [] := List.eq_nil_of_length_eq_zero h0
    subst hp
    have hch : ch = 0x20 := hh.first ch rfl
    rw [update_idle now hn hch]
    subst hch
    exact ⟨rfl, by simp, hh, fun _ => rfl, by simp, by simp⟩
  · -- second header byte
    have hch : ch = 0x40 := hh.second ch (by rw [← h1]; exact List.getElem?_concat_length)
    have hne : p ≠ [] := by rintro rfl; simp at h1
    have hck := h.cksum_sub hne (by omega) ch
    rw [update_header now (by omega) hch]
    subst hch
    exact ⟨by simp [h1], by simp [h1], hh, fun _ => hck, by grind, by grind⟩
  · -- payload: the byte lands at index `nbytes - 2`
    have hne : p ≠ [] := by rintro rfl; simp at hmid
    rw [update_payload now (by omega) (by omega)]
    refine ⟨by simp [hn], by simp; omega, hh, fun _ => h.cksum_sub hne hmid.2 ch, ?_, by grind⟩
    intro i b hi hb
    simp only [Vector.getElem?_setIfInBounds]
    rcases eq_or_ne (s.nbytes - 2) i with hlast | hlast
    · rw [if_pos hlast, if_pos (by omega), Option.getD_some]
      have hidx : i + 2 = p.length := by omega
      rw [hidx, List.getElem?_concat_length] at hb
      exact Option.some.inj hb
    · rw [if_neg hlast]
      refine h.payload i b hi ?_
      have hlt' : i + 2 < p.length := by grind
      rwa [List.getElem?_append_left hlt'] at hb
  · -- checksum low byte
    have hne : p ≠ [] := by rintro rfl; simp at h30
    rw [update_cksum_low now (by omega)]
    refine ⟨by simp [h30], by simp [h30], hh, fun _ => ?_, ?_, ?_⟩
    · rw [List.take_append_of_le_length (by omega)]; exact h.cksum hne
    · intro i b hi hb
      rw [List.getElem?_append_left (by omega)] at hb
      exact h.payload i b hi hb
    · intro b hb
      rw [← h30, List.getElem?_concat_length] at hb
      rw [Option.some.inj hb]

/-- A byte that breaks the header, or the byte after the 31st, leaves the parser idle. -/
theorem Collected.step_idle {p : List UInt8} {s : Ibus} {ch : UInt8} (now : UInt32)
    (h : Collected p s) (hbreak : p.length = 31 ∨ ¬ HeaderOk (p ++ [ch])) :
    (ibusUpdateState now s ch).nbytes = 0 := by
  have hn := h.nbytes
  rcases hbreak with h31 | hbad
  · cases hp : publishes s ch
    · rw [update_drop now (by omega) hp]
    · rw [update_publish now hp]
  · rcases Nat.lt_or_ge p.length 2 with hlt | hge
    · rcases (by omega : p.length = 0 ∨ p.length = 1) with h0 | h1
      · rcases eq_or_ne ch 0x20 with hch | hch
        · exact absurd ⟨by grind, by grind⟩ hbad
        · rw [update_idle_skip now (by omega) hch]; omega
      · rcases eq_or_ne ch 0x40 with hch | hch
        · refine absurd ⟨fun b hb => h.header.first b ?_, ?_⟩ hbad
          · rwa [List.getElem?_append_left (by omega)] at hb
          · grind
        · rw [update_header_reset now (by omega) hch]
    · refine absurd ⟨fun b hb => h.header.first b ?_, fun b hb => h.header.second b ?_⟩ hbad
      · rwa [List.getElem?_append_left (by omega)] at hb
      · rwa [List.getElem?_append_left (by omega)] at hb

/-! ### The last byte of a frame -/

/-- A 31-byte beginning of a frame ends in its checksum low byte. -/
theorem Collected.split {p : List UInt8} {s : Ibus} (h : Collected p s) (h31 : p.length = 31) :
    ∃ q lo, p = q ++ [lo] ∧ q.length = 30 ∧ s.computedCksum.toNat + byteSum q = 0xFFFF ∧
      s.packetCksum = lo.toUInt16 := by
  obtain ⟨q, lo, rfl⟩ := (List.eq_nil_or_concat' p).resolve_left (by rintro rfl; simp at h31)
  have hq : q.length = 30 := by simpa using h31
  refine ⟨q, lo, rfl, hq, ?_, h.low lo ?_⟩
  · have hck := h.cksum (by simp)
    rwa [List.take_append_of_le_length hq.ge, List.take_of_length_le hq.le] at hck
  · rw [← hq]; exact List.getElem?_concat_length

/-- After 31 collected bytes, the next one publishes iff it completes a frame. -/
theorem Collected.publishes_iff {p : List UInt8} {s : Ibus} {ch : UInt8} (h : Collected p s)
    (h31 : p.length = 31) : publishes s ch = true ↔ ValidFrame (p ++ [ch]) := by
  obtain ⟨q, lo, rfl, hq, hck, hlow⟩ := h.split h31
  have hn : s.nbytes = 31 := by rw [h.nbytes, h31]
  have hdrop : (q ++ [lo] ++ [ch]).drop 30 = [lo, ch] := by simp [← hq]
  have htake : (q ++ [lo] ++ [ch]).take 30 = q := by simp [← hq]
  have hspell := lo_or_hi_toNat lo ch
  have hmatch : publishes s ch = true ↔ s.computedCksum.toNat = ofLe [lo, ch] := by
    rw [publishes, hn, cksumMatches, hlow, ← hspell, UInt16.or_comm, UInt16.toNat_inj]
    simp
  have hbound : byteSum q ≤ 255 * 30 := hq ▸ byteSum_le q
  rw [hmatch]
  constructor
  · intro heq
    refine ⟨by simp [hq], ?_, ?_, ?_⟩
    · obtain ⟨b, hb⟩ : ∃ b, (q ++ [lo])[0]? = some b := ⟨_, List.getElem?_eq_getElem (by omega)⟩
      rw [List.getElem?_append_left (by omega), hb, h.header.first b hb]
    · obtain ⟨b, hb⟩ : ∃ b, (q ++ [lo])[1]? = some b := ⟨_, List.getElem?_eq_getElem (by omega)⟩
      rw [List.getElem?_append_left (by omega), hb, h.header.second b hb]
    · rw [hdrop, htake]; omega
  · intro hv
    have hc := hv.cksum
    rw [hdrop, htake] at hc
    omega

/-- The channels decoded from the buffer are the words of the frame. -/
theorem Collected.readSample_eq {p : List UInt8} {s : Ibus} {ch : UInt8} (h : Collected p s)
    (h31 : p.length = 31) : readSample s.bytes = frameSample (p ++ [ch]) := by
  have hword : ∀ c, 1 ≤ c → c ≤ 14 → ibusReadChannel s.bytes c = channelWord (p ++ [ch]) c := by
    intro c hlo hhi
    have hx : p[2 * c]? = some p[2 * c] := List.getElem?_eq_getElem (by omega)
    have hy : p[2 * c + 1]? = some p[2 * c + 1] := List.getElem?_eq_getElem (by omega)
    have hx' := h.payload (2 * c - 2) _ (by omega) (by rw [← hx]; congr 1; omega)
    have hy' := h.payload (2 * c - 1) _ (by omega) (by rw [← hy]; congr 1; omega)
    have htwo : ((p ++ [ch]).drop (2 * c)).take 2 = [p[2 * c], p[2 * c + 1]] := by
      rw [List.drop_append_of_le_length (by omega), List.drop_eq_getElem_cons (by omega),
        List.drop_eq_getElem_cons (by omega)]
      rfl
    rw [ibusReadChannel, hx', hy', channelWord, htwo, ← lo_or_hi_toNat, UInt16.ofNat_toNat]
  simp only [readSample, frameSample, rxChRoll, rxChPitch, rxChThrottle, rxChYaw]
  simp [hword]

/-! ### Streams -/

theorem feed_concat (s : Ibus) (bs : Stream) (b : UInt32 × UInt8) :
    feed s (bs ++ [b]) = ibusUpdateState b.1 (feed s bs) b.2 := run_concat recv s bs b

/-- Byte `i` is taken in after the bytes before it. -/
theorem feed_take_succ (s : Ibus) (bs : Stream) (i : Fin bs.length) :
    feed s (bs.take (i + 1)) = ibusUpdateState bs[i].1 (feed s (bs.take i)) bs[i].2 := by
  have htake : bs.take (i + 1) = bs.take i ++ [bs[i]] := by simp
  rw [htake, feed_concat]

theorem feed_append (s : Ibus) (as bs : Stream) : feed s (as ++ bs) = feed (feed s as) bs :=
  run_append recv s as bs

/-- From an idle parser, the beginning of a frame is collected. -/
theorem collected_feed {s : Ibus} (h0 : s.nbytes = 0) (bs : Stream) :
    bs.length ≤ 31 → HeaderOk (bytesOf bs) → Collected (bytesOf bs) (feed s bs) := by
  induction bs using List.reverseRecOn with
  | nil => exact fun _ _ => collected_nil h0
  | append_singleton bs b ih =>
    intro hlen hh
    rw [List.length_append, List.length_singleton] at hlen
    rw [bytesOf_append] at hh ⊢
    rw [feed_concat]
    exact (ih (by omega) hh.prefix).step b.1 (by rw [length_bytesOf]; omega) hh

/-- The parser invariant: the last `nbytes` bytes were read from an idle state and collected. -/
theorem exists_collected {s : Ibus} (h0 : s.nbytes = 0) (bs : Stream) :
    ∃ pre p, bs = pre ++ p ∧ (feed s pre).nbytes = 0 ∧ Collected (bytesOf p) (feed s bs) := by
  induction bs using List.reverseRecOn with
  | nil => exact ⟨[], [], rfl, h0, collected_nil h0⟩
  | append_singleton bs b ih =>
    obtain ⟨pre, p, rfl, hidle, hp⟩ := ih
    rw [feed_concat]
    have hlen := hp.short
    by_cases hgo : p.length < 31 ∧ HeaderOk (bytesOf p ++ [b.2])
    · refine ⟨pre, p ++ [b], by simp, hidle, ?_⟩
      rw [bytesOf_append]
      exact hp.step b.1 (by simpa using hgo.1) hgo.2
    · have hbreak : (bytesOf p).length = 31 ∨ ¬ HeaderOk (bytesOf p ++ [b.2]) := by
        rw [length_bytesOf] at hlen ⊢
        by_cases h31 : p.length = 31
        · exact Or.inl h31
        · exact Or.inr fun hh => hgo ⟨by omega, hh⟩
      have hzero := hp.step_idle b.1 hbreak
      exact ⟨pre ++ p ++ [b], [], by simp, by rw [feed_concat]; exact hzero, collected_nil hzero⟩

theorem nbytes_feed_le {s : Ibus} (h0 : s.nbytes = 0) (bs : Stream) : (feed s bs).nbytes ≤ 31 := by
  obtain ⟨_, p, _, _, hp⟩ := exists_collected h0 bs
  rw [hp.nbytes]; exact hp.short

/-- A byte that does not publish leaves everything the main loop sees as it was. -/
theorem sameOutput_of_not_publishes (now : UInt32) {s : Ibus} {ch : UInt8}
    (h : publishes s ch = false) : SameOutput s (ibusUpdateState now s ch) := by
  unfold ibusUpdateState
  split
  case h_4 hn =>
    have hc : cksumMatches s ch = false := by simpa [publishes, hn] using h
    simp [hc, SameOutput]
  all_goals (try split) <;> simp [SameOutput]

/-- The 32 bytes ending with byte `i` of a stream. -/
def frameAt (bs : Stream) (i : ℕ) : List UInt8 := ((bytesOf bs).drop (i - 31)).take 32

theorem take_sub_eq {α : Type*} (l : List α) (i k : ℕ) :
    l.take (i - k) = (l.take i).take (i - k) := by
  rw [List.take_take]; congr 1; omega

/-- The frame at byte `i` is the 31 bytes before it, then that byte. -/
theorem frameAt_eq (bs : Stream) (i : Fin bs.length) (h : 31 ≤ (i : ℕ)) :
    frameAt bs i = bytesOf ((bs.take i).drop (i - 31)) ++ [bs[i].2] := by
  have hi := i.isLt
  have htake : bs.take (i + 1) = bs.take i ++ [bs[i]] := by simp
  have hcut : (bs.drop (i - 31)).take 32 = (bs.take (i + 1)).drop (i - 31) := by
    rw [List.drop_take]; congr 1; omega
  rw [frameAt, bytesOf, ← List.map_drop, ← List.map_take, hcut, htake,
    List.drop_append_of_le_length (by simp)]
  simp [bytesOf]

/-- When byte `i` publishes, the 31 bytes before it were collected from an idle parser. -/
theorem collected_of_publishes {s : Ibus} (h0 : s.nbytes = 0) (bs : Stream) (i : Fin bs.length)
    (h : publishes (feed s (bs.take i)) bs[i].2 = true) :
    31 ≤ (i : ℕ) ∧ (feed s (bs.take (i - 31))).nbytes = 0 ∧
      ∃ p, p.length = 31 ∧ Collected p (feed s (bs.take i)) ∧ frameAt bs i = p ++ [bs[i].2] := by
  obtain ⟨pre, p, hsplit, hidle, hcol⟩ := exists_collected h0 (bs.take i)
  have h31 : p.length = 31 := by
    simp only [publishes, Bool.and_eq_true, beq_iff_eq] at h
    rw [← length_bytesOf, ← hcol.nbytes]; exact h.1
  have hlen : (i : ℕ) = pre.length + 31 := by
    have := congrArg List.length hsplit
    simp at this; omega
  have hpre : bs.take (i - 31) = pre := by rw [take_sub_eq, hsplit, hlen]; simp
  have htail : (bs.take i).drop (i - 31) = p := by rw [hsplit, hlen]; simp
  refine ⟨by omega, hpre ▸ hidle, bytesOf p, by simpa using h31, hcol, ?_⟩
  rw [frameAt_eq bs i (by omega), htail]

/-- Byte `i` publishes iff the parser was idle before byte `i - 31` and a frame starts there. -/
theorem publishes_feed_iff {s : Ibus} (h0 : s.nbytes = 0) (bs : Stream) (i : Fin bs.length) :
    publishes (feed s (bs.take i)) bs[i].2 = true ↔
      31 ≤ (i : ℕ) ∧ (feed s (bs.take (i - 31))).nbytes = 0 ∧ ValidFrame (frameAt bs i) := by
  constructor
  · intro hp
    obtain ⟨hge, hidle, p, h31, hcol, hframe⟩ := collected_of_publishes h0 bs i hp
    exact ⟨hge, hidle, hframe ▸ (hcol.publishes_iff h31).mp hp⟩
  · rintro ⟨hge, hidle, hv⟩
    rw [frameAt_eq bs i hge] at hv
    have hi := i.isLt
    have hlen : ((bs.take i).drop (i - 31)).length = 31 := by simp; omega
    have hsplit : bs.take i = bs.take (i - 31) ++ (bs.take i).drop (i - 31) := by
      rw [take_sub_eq bs i 31, List.take_append_drop]
    have hhead : HeaderOk (bytesOf ((bs.take i).drop (i - 31)) ++ [bs[i].2]) := by
      refine ⟨fun b hb => ?_, fun b hb => ?_⟩
      · rw [hv.first] at hb; exact (Option.some.inj hb).symm
      · rw [hv.second] at hb; exact (Option.some.inj hb).symm
    have hcol := collected_feed hidle _ hlen.le hhead.prefix
    rw [← feed_append, ← hsplit] at hcol
    exact (hcol.publishes_iff (by simpa using hlen)).mpr hv

/-- What the main loop sees after a published frame. -/
theorem output_of_publishes {s : Ibus} (h0 : s.nbytes = 0) (bs : Stream) (i : Fin bs.length)
    (h : publishes (feed s (bs.take i)) bs[i].2 = true) :
    let after := feed s (bs.take (i + 1))
    after.ibusData = frameSample (frameAt bs i) ∧ after.ibusDataReady = true ∧
      after.ibusRcvdFirstPacket = true ∧ after.timeLastRcvdPacket = bs[i].1 := by
  obtain ⟨_, _, p, h31, hcol, hframe⟩ := collected_of_publishes h0 bs i h
  rw [feed_take_succ, update_publish _ h, hframe, ← hcol.readSample_eq h31]
  exact ⟨rfl, rfl, rfl, rfl⟩

/-- CORRECT: on every stream from reset, byte `i` publishes iff a frame ends there that began when
    the parser was idle; the sample is then that frame's, and every other byte leaves the driver's
    output alone. The counter stays below 32 and no write leaves the buffer. -/
theorem ibus_acceptor_exact (bs : Stream) :
    (∀ i : Fin bs.length,
      let before := feed reset (bs.take i)
      let after := feed reset (bs.take (i + 1))
      (publishes before bs[i].2 = true ↔
        31 ≤ (i : ℕ) ∧ (feed reset (bs.take (i - 31))).nbytes = 0 ∧ ValidFrame (frameAt bs i)) ∧
      (publishes before bs[i].2 = true →
        after.ibusData = frameSample (frameAt bs i) ∧ after.ibusDataReady = true ∧
          after.ibusRcvdFirstPacket = true ∧ after.timeLastRcvdPacket = bs[i].1) ∧
      (publishes before bs[i].2 = false → SameOutput before after)) ∧
    (feed reset bs).nbytes ≤ 31 ∧
    (inPayload (feed reset bs) = true → writeIndex (feed reset bs) < 28) := by
  have hle := nbytes_feed_le (s := reset) rfl bs
  refine ⟨fun i => ⟨publishes_feed_iff rfl bs i, output_of_publishes rfl bs i, fun hp => ?_⟩,
    hle, fun hin => ?_⟩
  · rw [feed_take_succ]
    exact sameOutput_of_not_publishes _ hp
  · simp only [inPayload, List.mem_cons, List.not_mem_nil, decide_eq_true_eq] at hin
    rw [writeIndex]; omega

end FC.Ibus

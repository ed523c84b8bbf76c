import FlightController.Rx.Acceptor
import Mathlib.Tactic.IntervalCases

/-! The iBus parser finds its way back. It has no timeout: what brings it back is that in a frame
    whose channels lie in 1000..2000 the header pair 0x20 0x40 occurs at the start only. The high
    byte of a channel is 3..7 and the high byte of the checksum is at least 0xF1, so at odd
    positions from 3 on a frame never shows 0x20 or 0x40.

    Hence a parser that falls idle inside a frame may take a low byte for a first header byte, but
    drops it on the next byte, and is idle again at the frame's end (`nbytes_after_frame`). From
    then on it receives every frame (`ibus_self_synchronises`). -/

namespace FC.Ibus
open Schemes Schemes.Bytes

/-- A frame whose channel values lie in the range a transmitter sends. -/
structure RangedFrame (f : List UInt8) : Prop extends ValidFrame f where
  ranged : ∀ w ∈ (frameSample f).channels, rxRangeMin ≤ w.toNat ∧ w.toNat ≤ rxRangeMax

variable {f : List UInt8}

/-- A channel word spells the two payload bytes of its channel. -/
theorem channelWord_toNat {c : ℕ} (hc : 2 * c + 1 < f.length) :
    (channelWord f c).toNat = f[2 * c].toNat + 256 * f[2 * c + 1].toNat := by
  have hlo : f[2 * c].toNat < 256 := UInt8.toNat_lt _
  have hhi : f[2 * c + 1].toNat < 256 := UInt8.toNat_lt _
  have htwo : (f.drop (2 * c)).take 2 = [f[2 * c], f[2 * c + 1]] := by
    rw [List.drop_eq_getElem_cons (by omega), List.drop_eq_getElem_cons (by omega)]
    rfl
  rw [channelWord, htwo, UInt16.toNat_ofNat']
  simp only [ofLe]; omega

theorem channelWord_mem {c : ℕ} (hlo : 1 ≤ c) (hhi : c ≤ 14) :
    channelWord f c ∈ (frameSample f).channels := by
  simp only [RxSample.channels, frameSample, List.mem_cons]
  interval_cases c <;> simp

/-- The high byte of every channel is 3..7. -/
theorem RangedFrame.high (h : RangedFrame f) {c : ℕ} (hlo : 1 ≤ c) (hhi : c ≤ 14) :
    have := h.length
    3 ≤ f[2 * c + 1].toNat ∧ f[2 * c + 1].toNat ≤ 7 := by
  have hlen := h.length
  have hlow : f[2 * c].toNat < 256 := UInt8.toNat_lt _
  have hr := h.ranged _ (channelWord_mem hlo hhi)
  rw [channelWord_toNat (by omega), rxRangeMin, rxRangeMax] at hr
  constructor <;> omega

/-- The header adds 0x60 to the byte sum and each channel at most 7 + 255. -/
theorem RangedFrame.byteSum_take_le (h : RangedFrame f) :
    ∀ k, k ≤ 14 → byteSum (f.take (2 * (k + 1))) ≤ 96 + 262 * k
  | 0, _ => by
    have hlen := h.length
    have h0 : f[0]? = some f[0] := List.getElem?_eq_getElem (by omega)
    have h1 : f[1]? = some f[1] := List.getElem?_eq_getElem (by omega)
    rw [h.first] at h0; rw [h.second] at h1
    have htake : f.take 2 = [0x20, 0x40] := by
      rw [List.take_succ_eq_append_getElem (by omega), List.take_succ_eq_append_getElem (by omega),
        ← Option.some.inj h0, ← Option.some.inj h1]
      rfl
    rw [show 2 * (0 + 1) = 2 from rfl, htake]; decide
  | k + 1, hk => by
    have hlen := h.length
    have ih := h.byteSum_take_le k (by omega)
    have hhigh := (h.high (c := k + 1) (by omega) hk).2
    have hlow : f[2 * (k + 1)].toNat < 256 := UInt8.toNat_lt _
    have htake : f.take (2 * (k + 1 + 1)) =
        f.take (2 * (k + 1)) ++ [f[2 * (k + 1)], f[2 * (k + 1) + 1]] := by
      rw [show 2 * (k + 1 + 1) = 2 * (k + 1) + 1 + 1 by ring,
        List.take_succ_eq_append_getElem (by omega), List.take_succ_eq_append_getElem (by omega),
        List.append_assoc]
      rfl
    rw [htake, byteSum_append, byteSum_cons, byteSum_cons, byteSum_nil]
    omega

/-- The high byte of the checksum is at least 0xF1. -/
theorem RangedFrame.cksum_high (h : RangedFrame f) :
    have := h.length
    0xF1 ≤ f[31].toNat := by
  have hlen := h.length
  have hsum := h.byteSum_take_le 14 le_rfl
  have hlow : f[30].toNat < 256 := UInt8.toNat_lt _
  have hdrop : f.drop 30 = [f[30], f[31]] := by
    rw [List.drop_eq_getElem_cons (by omega), List.drop_eq_getElem_cons (by omega),
      List.drop_of_length_le (by omega)]
  have hck := h.cksum
  rw [hdrop] at hck
  simp only [ofLe] at hck
  norm_num at hsum
  omega

/-- From position 3 on, odd positions of a frame show no header byte. -/
theorem RangedFrame.odd_quiet (h : RangedFrame f) {q : ℕ} (hodd : q % 2 = 1) (h3 : 3 ≤ q)
    (hq : q < f.length) : f[q] ≠ 0x20 ∧ f[q] ≠ 0x40 := by
  have hlen := h.length
  have hbyte : (3 ≤ f[q].toNat ∧ f[q].toNat ≤ 7) ∨ 0xF1 ≤ f[q].toNat := by
    rcases Nat.lt_or_ge q 31 with hlt | hge
    · have hh := h.high (c := (q - 1) / 2) (by omega) (by omega)
      have hidx : 2 * ((q - 1) / 2) + 1 = q := by omega
      simp only [hidx] at hh
      exact Or.inl hh
    · have h31 : q = 31 := by omega
      subst h31
      exact Or.inr h.cksum_high
  constructor <;> intro heq <;> rw [heq] at hbyte <;> revert hbyte <;> decide

/-! ### Falling back to idle -/

/-- At position `q` of a frame, out of step: idle, or holding a low byte taken for 0x20. -/
def Drifting (q : ℕ) (s : Ibus) : Prop := s.nbytes = 0 ∨ (s.nbytes = 1 ∧ q % 2 = 1 ∧ 3 ≤ q)

theorem drifting_step (h : RangedFrame f) (now : UInt32) {s : Ibus} {q : ℕ} (h1 : 1 ≤ q)
    (hq : q < f.length) (hs : Drifting q s) : Drifting (q + 1) (ibusUpdateState now s f[q]) := by
  rcases hs with h0 | ⟨hn, hodd, h3⟩
  · rcases eq_or_ne f[q] 0x20 with hch | hch
    · rw [update_idle now h0 hch]
      refine Or.inr ⟨rfl, ?_, ?_⟩
      all_goals
        by_contra hne
        rcases Nat.eq_or_lt_of_le h1 with rfl | hlt
        · have hsec := h.second
          rw [List.getElem?_eq_getElem (by omega)] at hsec
          rw [Option.some.inj hsec] at hch
          exact absurd hch (by decide)
        · exact (h.odd_quiet (by omega) (by omega) hq).1 hch
    · rw [update_idle_skip now h0 hch]; exact Or.inl h0
  · rw [update_header_reset now hn (h.odd_quiet hodd h3 hq).2]
    exact Or.inl rfl

/-- Out of step inside a frame, the parser is idle at its end. -/
theorem nbytes_of_drifting (h : RangedFrame f) : ∀ (bs : Stream) (s : Ibus) (q : ℕ), 1 ≤ q →
    q ≤ 32 → bytesOf bs = f.drop q → Drifting q s → (feed s bs).nbytes = 0
  | [], s, q, _, hq, hbs, hs => by
    have hlen := h.length
    have hend := congrArg List.length hbs
    rw [length_bytesOf, List.length_drop, List.length_nil] at hend
    have h32 : q = 32 := by omega
    rcases hs with h0 | ⟨_, hodd, _⟩
    · exact h0
    · omega
  | b :: bs, s, q, h1, hq, hbs, hs => by
    have hlen := h.length
    have hend := congrArg List.length hbs
    rw [length_bytesOf, List.length_drop, List.length_cons] at hend
    have hqlt : q < f.length := by omega
    rw [List.drop_eq_getElem_cons hqlt] at hbs
    obtain ⟨hb, htail⟩ := List.cons.inj hbs
    refine nbytes_of_drifting h bs _ (q + 1) (by omega) (by omega) htail ?_
    show Drifting (q + 1) (ibusUpdateState b.1 s b.2)
    rw [hb]
    exact drifting_step h b.1 h1 hqlt hs

/-- A parser collecting a body falls idle after the bytes that are missing to 32. -/
theorem nbytes_of_collecting : ∀ (bs : Stream) (s : Ibus), 2 ≤ s.nbytes →
    s.nbytes + bs.length = 32 → (feed s bs).nbytes = 0 ∨ bs = []
  | [], _, _, _ => Or.inr rfl
  | b :: bs, s, h2, hlen => by
    left
    rw [List.length_cons] at hlen
    show (feed (ibusUpdateState b.1 s b.2) bs).nbytes = 0
    rcases Nat.lt_or_ge s.nbytes 31 with hlt | hge
    · have hn : (ibusUpdateState b.1 s b.2).nbytes = s.nbytes + 1 := by
        rcases Nat.lt_or_ge s.nbytes 30 with h30 | h30
        · rw [update_payload b.1 h2 h30]
        · rw [update_cksum_low b.1 (by omega)]; show 31 = s.nbytes + 1; omega
      rcases nbytes_of_collecting bs (ibusUpdateState b.1 s b.2) (by omega) (by omega) with h0 | rfl
      · exact h0
      · rw [List.length_nil] at hlen; omega
    · have hnil : bs = [] := List.eq_nil_of_length_eq_zero (by omega)
      subst hnil
      show (ibusUpdateState b.1 s b.2).nbytes = 0
      cases hp : publishes s b.2
      · rw [update_drop b.1 (by omega) hp]
      · rw [update_publish b.1 hp]

/-- A parser that is idle before 32 bytes with a proper header is idle after them. -/
theorem nbytes_of_header {s : Ibus} (h0 : s.nbytes = 0) (bs : Stream) (hlen : bs.length = 32)
    (hh : HeaderOk (bytesOf bs)) : (feed s bs).nbytes = 0 := by
  obtain ⟨init, b, rfl⟩ := (List.eq_nil_or_concat' bs).resolve_left (by rintro rfl; simp at hlen)
  have hinit : init.length = 31 := by simpa using hlen
  rw [bytesOf_append] at hh
  rw [feed_concat]
  exact (collected_feed h0 init hinit.le hh.prefix).step_idle b.1 (Or.inl (by simpa using hinit))

theorem ValidFrame.header (h : ValidFrame f) : HeaderOk f :=
  ⟨fun _ hx => (Option.some.inj (h.first.symm.trans hx)).symm,
    fun _ hx => (Option.some.inj (h.second.symm.trans hx)).symm⟩

/-- Whatever the parser was doing, at the end of an in-range frame it is idle. -/
theorem nbytes_after_frame {s : Ibus} (hs : s.nbytes ≤ 31) (bs : Stream)
    (h : RangedFrame (bytesOf bs)) : (feed s bs).nbytes = 0 := by
  have hlen : bs.length = 32 := by rw [← length_bytesOf]; exact h.length
  rcases (by omega : s.nbytes = 0 ∨ s.nbytes = 1 ∨ 2 ≤ s.nbytes) with h0 | h1 | h2
  · exact nbytes_of_header h0 bs hlen h.header
  · -- the frame's own 0x20 resets the half-read header
    obtain ⟨b, bs, rfl⟩ := List.exists_cons_of_length_pos (l := bs) (by omega)
    have hb : b.2 = 0x20 := Option.some.inj h.first
    have hidle : (recv s b).nbytes = 0 := by
      rw [recv, update_header_reset b.1 h1 (by rw [hb]; decide)]
    exact nbytes_of_drifting h bs (recv s b) 1 le_rfl (by omega) rfl (Or.inl hidle)
  · -- a body started too early runs out inside the frame
    have hsplit := List.take_append_drop (32 - s.nbytes) bs
    have htake : (bs.take (32 - s.nbytes)).length = 32 - s.nbytes := by simp; omega
    have hidle : (feed s (bs.take (32 - s.nbytes))).nbytes = 0 := by
      rcases nbytes_of_collecting (bs.take (32 - s.nbytes)) s h2 (by omega) with h0 | hnil
      · exact h0
      · rw [hnil, List.length_nil] at htake; omega
    rw [← hsplit, feed_append]
    exact nbytes_of_drifting h _ _ (32 - s.nbytes) (by omega) (by omega) (by simp [bytesOf])
      (Or.inl hidle)

/-- After one or more in-range frames the parser is idle. -/
theorem nbytes_after_frames : ∀ (frames : List Stream) (s : Ibus), s.nbytes ≤ 31 → frames ≠ [] →
    (∀ f ∈ frames, RangedFrame (bytesOf f)) → (feed s frames.flatten).nbytes = 0
  | [], _, _, hne, _ => absurd rfl hne
  | [f], s, hs, _, hv => by
    rw [List.flatten_cons, List.flatten_nil, List.append_nil]
    exact nbytes_after_frame hs f (hv f (List.mem_cons_self ..))
  | f :: g :: rest, s, hs, _, hv => by
    have hf := nbytes_after_frame hs f (hv f (List.mem_cons_self ..))
    rw [List.flatten_cons, feed_append]
    exact nbytes_after_frames (g :: rest) _ (by omega) (by simp)
      fun x hx => hv x (List.mem_cons_of_mem _ hx)

/-! ### Receiving a frame -/

/-- The parser in state `s` receives the frame: it publishes the frame's channels on the last byte,
    with the time of that byte, and is idle afterwards. All other bytes leave alone what the main
    loop sees. -/
structure Receives (s : Ibus) (frame : Stream) : Prop where
  publishes : ∀ j : Fin frame.length,
    publishes (feed s (frame.take j)) (frame.get j).2 = true ↔ (j : ℕ) = 31
  quiet : ∀ j : Fin frame.length, (j : ℕ) ≠ 31 →
    SameOutput (feed s (frame.take j)) (feed s (frame.take (j + 1)))
  ibusData : (feed s frame).ibusData = frameSample (bytesOf frame)
  ready : (feed s frame).ibusDataReady = true
  rcvd : (feed s frame).ibusRcvdFirstPacket = true
  time : ∃ ch, frame.getLast? = some ((feed s frame).timeLastRcvdPacket, ch)
  idle : (feed s frame).nbytes = 0

/-- An idle parser receives every frame. -/
theorem receives_of_idle {s : Ibus} (h0 : s.nbytes = 0) (frame : Stream)
    (h : ValidFrame (bytesOf frame)) : Receives s frame := by
  have hlen : frame.length = 32 := by rw [← length_bytesOf]; exact h.length
  have hwhole : frameAt frame 31 = bytesOf frame := by
    rw [frameAt, Nat.sub_self, List.drop_zero, List.take_of_length_le (by simp [hlen])]
  have hiff : ∀ j : Fin frame.length,
      publishes (feed s (frame.take j)) (frame.get j).2 = true ↔ (j : ℕ) = 31 := by
    intro j
    have hj := j.isLt
    refine (publishes_feed_iff h0 frame j).trans ?_
    constructor
    · rintro ⟨hge, _⟩; omega
    · intro h31
      rw [h31, hwhole]
      exact ⟨le_rfl, h0, h⟩
  have hlast := output_of_publishes h0 frame ⟨31, by omega⟩ ((hiff ⟨31, by omega⟩).mpr rfl)
  simp only [hwhole, List.take_of_length_le hlen.le] at hlast
  obtain ⟨hdata, hready, hrcvd, htime⟩ := hlast
  have hend : frame.getLast? = some frame[31] := by
    rw [List.getLast?_eq_getElem?, show frame.length - 1 = 31 by omega]
    exact List.getElem?_eq_getElem (by omega)
  refine ⟨hiff, fun j hj => ?_, hdata, hready, hrcvd, ⟨frame[31].2, by rw [hend, htime]; rfl⟩,
    nbytes_of_header h0 frame hlen h.header⟩
  rw [feed_take_succ]
  exact sameOutput_of_not_publishes _ (Bool.eq_false_iff.mpr (mt (hiff j).mp hj))

/-- CORRECT: from any parser state with `nbytes ≤ 31`, in every back-to-back sequence of in-range
    frames each frame from the second on is received: published on its last byte with its own
    channels, and none of its other bytes publishes or changes anything. -/
theorem ibus_self_synchronises (s : Ibus) (hs : s.nbytes ≤ 31) (frames : List Stream)
    (hv : ∀ f ∈ frames, RangedFrame (bytesOf f)) (k : Fin frames.length) (hk : 1 ≤ (k : ℕ)) :
    Receives (feed s (frames.take k).flatten) frames[k] := by
  have hne : frames.take k ≠ [] := by
    intro hnil
    have hlen := congrArg List.length hnil
    rw [List.length_take, List.length_nil] at hlen
    have hlt := k.isLt
    omega
  have hidle := nbytes_after_frames (frames.take k) s hs hne
    fun f hf => hv f (List.mem_of_mem_take hf)
  exact receives_of_idle hidle frames[k] (hv frames[k] (List.getElem_mem _)).toValidFrame

/-- All sticks centred. -/
def centredSample : RxSample :=
  ⟨1500, 1500, 1500, 1500, 1500, 1500, 1500, 1500, 1500, 1500, 1500, 1500, 1500, 1500⟩

/-- Bytes that all arrive at timer value `now`. -/
def streamAt (now : UInt32) (bytes : List UInt8) : Stream := bytes.map fun b => (now, b)

@[simp] theorem bytesOf_streamAt (now : UInt32) (bytes : List UInt8) :
    bytesOf (streamAt now bytes) = bytes := by
  simp [bytesOf, streamAt, Function.comp_def]

theorem rangedFrame_centred : RangedFrame (frameBytes centredSample) := by
  refine ⟨validFrame_frameBytes _, ?_⟩
  rw [frameSample_frameBytes]
  simp [centredSample, RxSample.channels, rxRangeMin, rxRangeMax]

/-- Two centred frames, met by a parser that takes the first one for the middle of a body. -/
theorem ibus_self_synchronises_centred :
    let frame := streamAt 1000 (frameBytes centredSample)
    Receives (feed { reset with nbytes := 17 } ([frame, frame].take 1).flatten) frame :=
  ibus_self_synchronises { reset with nbytes := 17 } (by decide)
    [streamAt 1000 (frameBytes centredSample), streamAt 1000 (frameBytes centredSample)]
    (by
      intro f hf
      have hmem : f = streamAt 1000 (frameBytes centredSample) := by simpa using hf
      rw [hmem, bytesOf_streamAt]
      exact rangedFrame_centred)
    ⟨1, by decide⟩ (by decide)

end FC.Ibus

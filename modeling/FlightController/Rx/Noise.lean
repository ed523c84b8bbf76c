import FlightController.Rx.Resync

/-! Noise on the iBus line.

    A stray 0x20 before a frame is taken for its first header byte. The frame's own 0x20 then fails
    as the second one, and `ibus_update_state` drops it instead of looking at it again: the frame is
    lost (`not_receives_stray`). From header search a frame is received exactly if no such byte is
    pending (`receives_iff`).

    A frame with one damaged byte is never published, and only this one frame is lost
    (`damage_detected`). A damaged header leaves the parser drifting through the payload; a
    damaged payload or checksum leaves it aligned, but the checksum does not match. -/

namespace FC.Ibus
open Schemes Schemes.Bytes

variable {s : Ibus}

/-- A stream of which no byte publishes leaves the driver's output alone. -/
theorem sameOutput_feed (s : Ibus) (bs : Stream)
    (h : ∀ j : Fin bs.length, publishes (feed s (bs.take j)) (bs.get j).2 = false) :
    SameOutput s (feed s bs) := by
  induction bs generalizing s with
  | nil => exact ⟨rfl, rfl, rfl, rfl⟩
  | cons b bs ih =>
    obtain ⟨hdata, hready, hfirst, htime⟩ :=
      sameOutput_of_not_publishes b.1 (h ⟨0, Nat.succ_pos _⟩)
    obtain ⟨hdata', hready', hfirst', htime'⟩ :=
      ih (recv s b) fun j => h ⟨j + 1, Nat.succ_lt_succ j.isLt⟩
    exact ⟨hdata'.trans hdata, hready'.trans hready, hfirst'.trans hfirst, htime'.trans htime⟩

/-! ### A stray header byte -/

/-- With a header byte pending, the frame's own one resets the parser, and neither it nor the 31
    bytes that are left publish anything. -/
theorem quiet_of_pending (h1 : s.nbytes = 1) (frame : Stream) (h : ValidFrame (bytesOf frame))
    (j : Fin frame.length) : publishes (feed s (frame.take j)) (frame.get j).2 = false := by
  have hlen : frame.length = 32 := by rw [← length_bytesOf]; exact h.length
  obtain ⟨b, bs, rfl⟩ := List.exists_cons_of_length_pos (l := frame) (by omega)
  have hb : b.2 = 0x20 := Option.some.inj h.first
  have hidle : (recv s b).nbytes = 0 := by
    rw [recv, update_header_reset b.1 h1 (by rw [hb]; decide)]
  rw [List.length_cons] at hlen
  obtain ⟨j, hj⟩ := j
  cases j with
  | zero => simp [publishes, feed, h1]
  | succ j =>
    have hj' : j < bs.length := Nat.lt_of_succ_lt_succ hj
    rw [Bool.eq_false_iff]
    intro hpub
    have htail : publishes (feed (recv s b) (bs.take j)) (bs.get ⟨j, hj'⟩).2 = true := hpub
    obtain ⟨hge, -⟩ := (publishes_feed_iff hidle bs ⟨j, hj'⟩).mp htail
    have hge' : 31 ≤ j := hge
    omega

/-- CORRECT exactly for these states: in header search the parser receives a frame if and only if no
    header byte is pending. With one pending the frame changes nothing that the main loop sees. -/
theorem receives_iff (hsearch : s.nbytes ≤ 1) (frame : Stream) (h : ValidFrame (bytesOf frame)) :
    (Receives s frame ↔ s.nbytes = 0) ∧ (s.nbytes ≠ 0 → SameOutput s (feed s frame)) := by
  have hlen : frame.length = 32 := by rw [← length_bytesOf]; exact h.length
  refine ⟨⟨fun hrec => ?_, fun h0 => receives_of_idle h0 frame h⟩, fun hne => ?_⟩
  · by_contra hne
    have h1 : s.nbytes = 1 := by omega
    have hlast := (hrec.publishes ⟨31, by omega⟩).mpr rfl
    rw [quiet_of_pending h1 frame h] at hlast
    exact absurd hlast (by decide)
  · exact sameOutput_feed s frame (quiet_of_pending (by omega) frame h)

/-- A centred frame after reset. -/
theorem receives_centred : Receives reset (streamAt 1000 (frameBytes centredSample)) :=
  (receives_iff (by decide) _ (by
    rw [bytesOf_streamAt]; exact validFrame_frameBytes _)).1.mpr rfl

/-- The same frame after a single 0x20 is lost: nothing is published. -/
theorem not_receives_stray :
    let pending := feed reset (streamAt 0 [0x20])
    let frame := streamAt 1000 (frameBytes centredSample)
    ¬ Receives pending frame ∧ SameOutput pending (feed pending frame) := by
  refine ⟨fun hrec => ?_, ⟨by decide, by decide, by decide, by decide⟩⟩
  have hlast := (hrec.publishes ⟨31, by decide⟩).mpr rfl
  revert hlast
  decide

/-! ### A damaged byte -/

variable {f : List UInt8}

/-- No other frame is one byte away from a frame. -/
theorem ValidFrame.not_set (h : ValidFrame f) {i : ℕ} (hi : i < f.length) {b : UInt8}
    (hb : b ≠ f[i]) : ¬ ValidFrame (f.set i b) := by
  have hlen := h.length
  intro hset
  rcases (by omega : i = 0 ∨ i = 1 ∨ (2 ≤ i ∧ i < 30) ∨ 30 ≤ i) with rfl | rfl | hbody | hcksum
  · -- the first header byte is fixed
    have hfirst := hset.first.trans h.first.symm
    rw [List.getElem?_set_self hi, List.getElem?_eq_getElem hi] at hfirst
    exact hb (Option.some.inj hfirst)
  · -- so is the second
    have hsecond := hset.second.trans h.second.symm
    rw [List.getElem?_set_self hi, List.getElem?_eq_getElem hi] at hsecond
    exact hb (Option.some.inj hsecond)
  · -- the checksum of a changed body is another one
    have hsum := byteSum_set b (f.take 30) i (by rw [List.length_take]; omega)
    have hle := byteSum_le (f.take 30)
    have hle' := byteSum_le ((f.take 30).set i b)
    have hck := h.cksum
    have hck' := hset.cksum
    rw [List.drop_set_of_lt hbody.2, List.take_set] at hck'
    rw [List.length_set] at hle'
    rw [List.length_take] at hle hle'
    rw [List.getElem_take] at hsum
    exact hb (UInt8.toNat_inj.mp (by omega))
  · -- a changed checksum is not that of the body
    have hck := h.cksum
    have hck' := hset.cksum
    rw [List.take_set_of_le hcksum, ← hck] at hck'
    have hdrop := ofLe_inj (by rw [List.length_drop, List.length_drop, List.length_set])
      (Int.natCast_inj.mp hck')
    have hbyte := congrArg (fun l => l[i - 30]?) hdrop
    simp only [List.getElem?_drop] at hbyte
    rw [Nat.add_sub_cancel' hcksum, List.getElem?_set_self hi, List.getElem?_eq_getElem hi] at hbyte
    exact hb (Option.some.inj hbyte)

theorem ValidFrame.eq_cons (h : ValidFrame f) : f = 0x20 :: 0x40 :: f.drop 2 := by
  have hlen := h.length
  have hfirst := h.first
  have hsecond := h.second
  rw [List.getElem?_eq_getElem (by omega)] at hfirst hsecond
  rw [← Option.some.inj hfirst, ← Option.some.inj hsecond, List.getElem_cons_drop,
    List.getElem_cons_drop, List.drop_zero]

/-- A damaged frame leaves an idle parser idle: a damaged header is never completed in the rest of
    the frame, and after an undamaged one the parser counts to 32. -/
theorem nbytes_of_damaged (h0 : s.nbytes = 0) (h : RangedFrame f) {i : ℕ} (hi : i < f.length)
    {b : UInt8} (hb : b ≠ f[i]) (bs : Stream) (hbs : bytesOf bs = f.set i b) :
    (feed s bs).nbytes = 0 := by
  have hlen : bs.length = 32 := by rw [← length_bytesOf, hbs, List.length_set]; exact h.length
  have hfirst := h.first
  have hsecond := h.second
  rcases (by omega : i = 0 ∨ i = 1 ∨ 2 ≤ i) with rfl | rfl | hbody
  · -- the parser skips the first byte
    obtain ⟨x, bs, rfl⟩ := List.exists_cons_of_length_pos (l := bs) (by omega)
    rw [h.eq_cons, List.set_cons_zero] at hbs
    obtain ⟨hx, htail⟩ := List.cons.inj hbs
    rw [List.getElem?_eq_getElem hi] at hfirst
    have hskip : recv s x = s := by
      refine update_idle_skip x.1 h0 ?_
      rw [hx, ← Option.some.inj hfirst]
      exact hb
    show (feed (recv s x) bs).nbytes = 0
    rw [hskip]
    refine nbytes_of_drifting h bs s 1 le_rfl (by omega) ?_ (Or.inl h0)
    rw [bytesOf, htail, h.eq_cons]
    rfl
  · -- the parser takes the first byte and drops the second
    obtain ⟨x, bs, rfl⟩ := List.exists_cons_of_length_pos (l := bs) (by omega)
    rw [List.length_cons] at hlen
    obtain ⟨y, bs, rfl⟩ := List.exists_cons_of_length_pos (l := bs) (by omega)
    rw [h.eq_cons, List.set_cons_succ, List.set_cons_zero] at hbs
    obtain ⟨hx, htail⟩ := List.cons.inj hbs
    obtain ⟨hy, htail⟩ := List.cons.inj htail
    rw [List.getElem?_eq_getElem hi] at hsecond
    have hone : (recv s x).nbytes = 1 := by rw [recv, update_idle x.1 h0 hx]
    have hidle : (recv (recv s x) y).nbytes = 0 := by
      rw [recv, update_header_reset y.1 hone]
      rw [hy, ← Option.some.inj hsecond]
      exact hb
    exact nbytes_of_drifting h bs _ 2 (by omega) (by omega) htail (Or.inl hidle)
  · refine nbytes_of_header h0 bs hlen ?_
    rw [hbs]
    constructor
    · intro c hc
      rw [List.getElem?_set_ne (by omega), hfirst] at hc
      exact (Option.some.inj hc).symm
    · intro c hc
      rw [List.getElem?_set_ne (by omega), hsecond] at hc
      exact (Option.some.inj hc).symm

/-- CORRECT: fed to an idle parser, an in-range frame with one byte replaced publishes nothing and
    leaves the published sample as it was, and the in-range frame after it is received. -/
theorem damage_detected (h0 : s.nbytes = 0) (h : RangedFrame f) (i : ℕ) (hi : i < f.length)
    (b : UInt8) (hb : b ≠ f[i]) (bad next : Stream) (hbad : bytesOf bad = f.set i b)
    (hnext : RangedFrame (bytesOf next)) :
    (∀ j : Fin bad.length, publishes (feed s (bad.take j)) (bad.get j).2 = false) ∧
      SameOutput s (feed s bad) ∧ Receives (feed s bad) next := by
  have hlen : bad.length = 32 := by rw [← length_bytesOf, hbad, List.length_set]; exact h.length
  have hquiet : ∀ j : Fin bad.length, publishes (feed s (bad.take j)) (bad.get j).2 = false := by
    intro j
    by_contra hpub
    obtain ⟨hge, -, hframe⟩ := (publishes_feed_iff h0 bad j).mp (Bool.eq_true_of_not_eq_false hpub)
    have hj := j.isLt
    have h31 : (j : ℕ) = 31 := by omega
    rw [frameAt, h31, Nat.sub_self, List.drop_zero,
      List.take_of_length_le (by rw [length_bytesOf]; omega), hbad] at hframe
    exact h.not_set hi hb hframe
  refine ⟨hquiet, sameOutput_feed s bad hquiet, ?_⟩
  exact receives_of_idle (nbytes_of_damaged h0 h hi hb bad hbad) next hnext.toValidFrame

/-- A centred frame with its first header byte damaged, then the frame itself. -/
theorem damage_detected_header :
    let good := frameBytes centredSample
    let bad := streamAt 1000 (good.set 0 0xFF)
    SameOutput reset (feed reset bad) ∧ Receives (feed reset bad) (streamAt 8000 good) :=
  (damage_detected rfl rangedFrame_centred 0 (by decide) 0xFF (by decide) _ _ (bytesOf_streamAt _ _)
    (by rw [bytesOf_streamAt]; exact rangedFrame_centred)).2

end FC.Ibus

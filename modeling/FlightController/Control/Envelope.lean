import FlightController.Control.Fc
import FlightController.Rx.Acceptor

/-! The flight envelope (`src/fc.c`). The sticks are mapped linearly onto -25..25 degrees or
    -125..125 degrees per second. The map is not clamped and the parser publishes every frame with a
    correct checksum, so a setpoint lies in the envelope exactly when the stick lies in 1000..2000
    (`published_in_envelope_iff`). -/

namespace FC

/-- A value in the target range comes from one in the source range. -/
theorem mapIntoRange_mem_iff {srcMin srcMax dstMin dstMax : ℚ} (hsrc : srcMin < srcMax)
    (hdst : dstMin < dstMax) (val : ℚ) :
    dstMin ≤ mapIntoRange srcMin srcMax val dstMin dstMax ∧
        mapIntoRange srcMin srcMax val dstMin dstMax ≤ dstMax ↔
      srcMin ≤ val ∧ val ≤ srcMax := by
  have hwidth : 0 < srcMax - srcMin := sub_pos.mpr hsrc
  have hspan : 0 < dstMax - dstMin := sub_pos.mpr hdst
  set perc := (val - srcMin) / (srcMax - srcMin) with hperc
  have hmap : mapIntoRange srcMin srcMax val dstMin dstMax =
      dstMin + perc * (dstMax - dstMin) := rfl
  have hlow : dstMin ≤ dstMin + perc * (dstMax - dstMin) ↔ srcMin ≤ val := by
    rw [le_add_iff_nonneg_right, mul_nonneg_iff_of_pos_right hspan, hperc, le_div_iff₀ hwidth,
      zero_mul]
    exact sub_nonneg
  have hhigh : dstMin + perc * (dstMax - dstMin) ≤ dstMax ↔ val ≤ srcMax := by
    rw [← le_sub_iff_add_le', mul_le_iff_le_one_left hspan, hperc, div_le_one hwidth]
    exact sub_le_sub_iff_right srcMin
  rw [hmap, hlow, hhigh]

namespace Fc

/-- The limits of an axis: 25 degrees for the angles of stabilize mode, 125 degrees per second for
    every rate. -/
def envelope : FlightMode → PidAxis → ℚ
  | .stabilize, .pitch | .stabilize, .roll => 25
  | _, _ => 125

/-- The setpoints that `fc_update` hands to `pid_update` lie in the envelope. -/
def InEnvelope (mode : FlightMode) (rx : RxSample) : Prop :=
  ∀ axis, -envelope mode axis ≤ desired mode rx axis ∧ desired mode rx axis ≤ envelope mode axis

instance (mode : FlightMode) (rx : RxSample) : Decidable (InEnvelope mode rx) :=
  inferInstanceAs (Decidable (∀ _ : PidAxis, _ ∧ _))

/-- The stick of an axis. -/
def stick (rx : RxSample) : PidAxis → UInt16
  | .pitch => rx.pitch
  | .roll => rx.roll
  | .yaw => rx.yaw

/-- The stick values of the three axes are ones a transmitter sends. -/
def SticksInRange (rx : RxSample) : Prop :=
  ∀ axis, rxRangeMin ≤ (stick rx axis).toNat ∧ (stick rx axis).toNat ≤ rxRangeMax

instance (rx : RxSample) : Decidable (SticksInRange rx) :=
  inferInstanceAs (Decidable (∀ _ : PidAxis, _ ∧ _))

/-- Every setpoint is the stick, mapped onto the limits of its axis. -/
theorem desired_eq (mode : FlightMode) (rx : RxSample) (axis : PidAxis) :
    desired mode rx axis = mapIntoRange rxRangeMin rxRangeMax (stick rx axis).toNat
      (-envelope mode axis) (envelope mode axis) := by
  cases mode <;> cases axis <;> rfl

theorem envelope_pos (mode : FlightMode) (axis : PidAxis) : 0 < envelope mode axis := by
  cases mode <;> cases axis <;> norm_num [envelope]

theorem inEnvelope_iff (mode : FlightMode) (rx : RxSample) :
    InEnvelope mode rx ↔ SticksInRange rx := by
  refine forall_congr' fun axis => ?_
  have hsrc : (rxRangeMin : ℚ) < rxRangeMax := by norm_num [rxRangeMin, rxRangeMax]
  have hdst : -envelope mode axis < envelope mode axis := neg_lt_self (envelope_pos mode axis)
  rw [desired_eq, mapIntoRange_mem_iff hsrc hdst, Nat.cast_le, Nat.cast_le]

/-- CORRECT exactly for these frames: in either mode, the setpoints from a published frame lie in
    the envelope if and only if its roll, pitch and yaw channels lie in 1000..2000. -/
theorem published_in_envelope_iff (bs : Ibus.Stream) (i : Fin bs.length)
    (hpub : Ibus.publishes (Ibus.feed .reset (bs.take i)) (bs.get i).2 = true)
    (mode : FlightMode) :
    InEnvelope mode (Ibus.feed .reset (bs.take (i + 1))).ibusData ↔
      SticksInRange (Ibus.frameSample (Ibus.frameAt bs i)) := by
  have hdata := (Ibus.output_of_publishes rfl bs i hpub).1
  rw [hdata]
  exact inEnvelope_iff mode _

/-- The sticks at 1500, but the pitch stick as given. -/
def pitchSample (pitch : UInt16) : RxSample :=
  ⟨1500, pitch, 1500, 1500, 1500, 1500, 1500, 1500, 1500, 1500, 1500, 1500, 1500, 1500⟩

/-- A frame with this pitch stick, all its bytes at timer value 0. -/
def pitchFrame (pitch : UInt16) : Ibus.Stream :=
  (Ibus.frameBytes (pitchSample pitch)).map fun b => (0, b)

theorem length_pitchFrame (pitch : UInt16) : (pitchFrame pitch).length = 32 := by
  simp [pitchFrame, Ibus.frameBytes, Ibus.length_frameBody]

/-- The pitch stick at its end: 25 degrees. -/
theorem published_in_envelope_full :
    InEnvelope .stabilize (Ibus.feed .reset ((pitchFrame 2000).take (31 + 1))).ibusData :=
  (published_in_envelope_iff (pitchFrame 2000) ⟨31, by rw [length_pitchFrame]; decide⟩
    (by decide +kernel) .stabilize).mpr (by decide +kernel)

/-- The parser publishes a frame with the pitch stick at 2200; the setpoint is 35 degrees. -/
theorem off_envelope_pitchFrame :
    ∃ i : Fin (pitchFrame 2200).length,
      Ibus.publishes (Ibus.feed .reset ((pitchFrame 2200).take i))
        ((pitchFrame 2200).get i).2 = true ∧
      ¬ InEnvelope .stabilize (Ibus.feed .reset ((pitchFrame 2200).take (i + 1))).ibusData :=
  ⟨⟨31, by rw [length_pitchFrame]; decide⟩, by decide +kernel, by decide +kernel⟩

end Fc

end FC

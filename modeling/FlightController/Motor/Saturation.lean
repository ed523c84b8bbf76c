import FlightController.Motor.Mixing

/-! Where the mixer saturates. Every throttle should be its mix, truncated and limited to
    1000..2000. The mix is converted to 16 bits before it is limited, though: below zero the target
    yields 0, which the limit repairs, but from 65536 on the high bits are lost, and full throttle
    can come out as idle. So the throttles are right exactly when no mix wraps, and every conversion
    is in its range exactly when all mixes fit (`saturates_iff`). -/

namespace FC.Mixing

/-- The conversion on the target: to 32 bits with saturation, of which the low 16 are kept. -/
def targetUb (x : ℚ) : UInt16 := UInt16.ofNat (min ⌊x⌋₊ (2 ^ 32 - 1))

/-- Truncation toward zero. -/
def truncated (x : ℚ) : ℤ := if x < 0 then ⌈x⌉ else ⌊x⌋

/-- A mix, truncated and then limited to 1000..2000. -/
def limited (x : ℚ) : ℤ := max 1000 (min (truncated x) 2000)

theorem limited_eq (x : ℚ) : limited x = ((max 1000 (min ⌊x⌋₊ 2000) : ℕ) : ℤ) := by
  rw [limited, truncated]
  split_ifs with hneg
  · have hceil : ⌈x⌉ ≤ 0 := Int.ceil_le.mpr (by exact_mod_cast hneg.le)
    have hfloor : ⌊x⌋₊ = 0 := Nat.floor_of_nonpos hneg.le
    rw [hfloor]
    omega
  · have hfloor : (⌊x⌋₊ : ℤ) = ⌊x⌋ := Int.natCast_floor_eq_floor (not_lt.mp hneg)
    rw [← hfloor]
    omega

/-- A larger mix never means a smaller throttle. -/
theorem limited_mono {x y : ℚ} (hxy : x ≤ y) : limited x ≤ limited y := by
  have hfloor : ⌊x⌋₊ ≤ ⌊y⌋₊ := Nat.floor_mono hxy
  rw [limited_eq, limited_eq]
  omega

/-- A mix that fits is truncated and limited, whatever the conversion does out of range. -/
theorem toThrottle_of_fits (ub : ℚ → UInt16) {x : ℚ} (h : Fits x) :
    ((toThrottle ub x).toNat : ℤ) = limited x := by
  rw [toThrottle_toNat, toUint16_toNat h.1 h.2, limited_eq]

theorem toUint16_targetUb_toNat (x : ℚ) :
    (toUint16 targetUb x).toNat = min ⌊x⌋₊ (2 ^ 32 - 1) % 2 ^ 16 := by
  by_cases hfits : -1 < x ∧ x < 2 ^ 16
  · have hlt : ⌊x⌋₊ < 2 ^ 16 := (Nat.floor_lt' (by norm_num)).mpr (by exact_mod_cast hfits.2)
    rw [toUint16_toNat hfits.1 hfits.2]
    omega
  · rw [toUint16, if_neg hfits, targetUb, UInt16.toNat_ofNat']

/-- A mix whose high bits matter: what is left of them is below full throttle. -/
def Wraps (x : ℚ) : Prop := 2 ^ 16 ≤ x ∧ min ⌊x⌋₊ (2 ^ 32 - 1) % 2 ^ 16 < 2000

instance (x : ℚ) : Decidable (Wraps x) := instDecidableAnd

/-- On the target a throttle is its mix, truncated and limited, exactly when the mix does not
    wrap. -/
theorem toThrottle_targetUb_iff (x : ℚ) :
    ((toThrottle targetUb x).toNat : ℤ) = limited x ↔ ¬ Wraps x := by
  have hbig : 2 ^ 16 ≤ x ↔ 2 ^ 16 ≤ ⌊x⌋₊ := by
    rw [Nat.le_floor_iff' (by norm_num)]; norm_num
  rw [toThrottle_toNat, toUint16_targetUb_toNat, limited_eq, Wraps, hbig]
  omega

/-- The mixer saturates correctly on the target: each throttle is its mix, truncated and limited; a
    smaller mix would not yield a larger throttle; and each conversion is in its range. -/
structure Saturates (roll pitch yaw : ℚ) (rx : RxSample) : Prop where
  throttles : ∀ pos, (((motorMixing (fun _ => targetUb) roll pitch yaw rx).get pos).toNat : ℤ) =
    limited ((mix roll pitch yaw rx.throttle).get pos)
  monotone : ∀ pos x, x ≤ (mix roll pitch yaw rx.throttle).get pos →
    toThrottle targetUb x ≤ (motorMixing (fun _ => targetUb) roll pitch yaw rx).get pos
  inRange : ∀ pos, Fits ((mix roll pitch yaw rx.throttle).get pos)

theorem saturates_of_fits {roll pitch yaw : ℚ} {rx : RxSample} (h : cutoffThrottle < rx.throttle)
    (hfits : ∀ pos, Fits ((mix roll pitch yaw rx.throttle).get pos)) :
    Saturates roll pitch yaw rx := by
  refine ⟨?_, ?_, hfits⟩
  · intro pos
    rw [get_motorMixing h]
    exact toThrottle_of_fits _ (hfits pos)
  · intro pos x hx
    have hsmall : ¬ Wraps x := by
      rintro ⟨hbig, -⟩
      exact absurd (lt_of_le_of_lt hx (hfits pos).2) (not_lt.mpr hbig)
    have hmono := limited_mono hx
    rw [← (toThrottle_targetUb_iff x).mpr hsmall,
      ← toThrottle_of_fits targetUb (hfits pos)] at hmono
    rw [get_motorMixing h, UInt16.le_iff_toNat_le]
    exact_mod_cast hmono

/-- CORRECT exactly for these corrections, above the cut-off: the throttles are the mixes, truncated
    and limited, if and only if none of the four mixes wraps; and the mixer saturates correctly,
    with no conversion out of its range, if and only if all four fit 16 bits. -/
theorem saturates_iff {roll pitch yaw : ℚ} {rx : RxSample} (h : cutoffThrottle < rx.throttle) :
    ((∀ pos, (((motorMixing (fun _ => targetUb) roll pitch yaw rx).get pos).toNat : ℤ) =
        limited ((mix roll pitch yaw rx.throttle).get pos)) ↔
      ∀ pos, ¬ Wraps ((mix roll pitch yaw rx.throttle).get pos)) ∧
    (Saturates roll pitch yaw rx ↔ ∀ pos, Fits ((mix roll pitch yaw rx.throttle).get pos)) := by
  constructor
  · refine forall_congr' fun pos => ?_
    rw [get_motorMixing h]
    exact toThrottle_targetUb_iff _
  · exact ⟨fun hsat => hsat.inRange, saturates_of_fits h⟩

/-- All channels at 1500, but the throttle stick as given. -/
def throttleSample (throttle : UInt16) : RxSample :=
  ⟨1500, 1500, throttle, 1500, 1500, 1500, 1500, 1500, 1500, 1500, 1500, 1500, 1500, 1500⟩

/-- Mid throttle and a correction that saturates two motors. -/
theorem saturates_mid : Saturates 0 300 0 (throttleSample 1500) :=
  (saturates_iff (by decide +kernel)).2.mpr (by decide +kernel)

/-- With the stick at 65535 a pitch correction of -1 gives a front motor the mix 65537.5, and its
    throttle is 1000. -/
theorem not_saturates_full : ¬ Saturates 0 (-1) 0 (throttleSample 65535) := by
  intro h
  have hfull := h.throttles .frontLeft
  revert hfull
  decide +kernel

end FC.Mixing

import FlightController.Control.Fc
import FlightController.Motor.Saturation
import FlightController.Schemes.Spread

/-! What the four throttles do to the drone. Leaning right is positive roll, leaning forward is
    positive pitch, turning clockwise is positive yaw: so roll is the left motors against the right
    ones, pitch the back ones against the front ones, and yaw one diagonal against the other.

    With no motor at a limit each axis gets ten times its correction, up to truncation, whatever the
    other two are (`decoupled`). Each motor is limited on its own, so at a limit the axes interfere,
    and one can even be reversed (`moment_reversed`). How far depends on the other two corrections,
    and on the throttle: by no more than the smaller one of them exceeds the axis' own, never by
    more than the range of one motor, and by no more than the throttle is off the middle of that
    range, beyond what the axis' own correction makes up for (`moment_opposed_le`). -/

namespace FC

/-- A function of every motor's value. -/
def PerMotor.map {α β : Type} (f : α → β) (m : PerMotor α) : PerMotor β :=
  ⟨f m.frontLeft, f m.frontRight, f m.backLeft, f m.backRight⟩

@[simp] theorem PerMotor.get_map {α β : Type} (f : α → β) (m : PerMotor α) (pos : EscPosition) :
    (m.map f).get pos = f (m.get pos) := by cases pos <;> rfl

namespace Mixing
open Schemes

/-- The moment about an axis: the motors that its correction speeds up against those that it slows
    down. -/
def moment {α : Type} [Add α] [Sub α] (m : PerMotor α) : PidAxis → α
  | .roll => (m.frontLeft + m.backLeft) - (m.frontRight + m.backRight)
  | .pitch => (m.backLeft + m.backRight) - (m.frontLeft + m.frontRight)
  | .yaw => (m.frontRight + m.backLeft) - (m.frontLeft + m.backRight)

/-- The collective thrust. -/
def thrust {α : Type} [Add α] (m : PerMotor α) : α :=
  m.frontLeft + m.frontRight + m.backLeft + m.backRight

/-- The throttles as whole numbers. -/
def numbers (out : EscThrottles) : PerMotor ℤ := out.map fun t => (t.toNat : ℤ)

/-- The correction of an axis, and those of the other two. -/
def correction (roll pitch yaw : ℚ) : PidAxis → ℚ
  | .roll => roll
  | .pitch => pitch
  | .yaw => yaw

def others (roll pitch yaw : ℚ) : PidAxis → ℚ × ℚ
  | .roll => (pitch, yaw)
  | .pitch => (roll, yaw)
  | .yaw => (pitch, roll)

/-- The two motors that a positive correction of the axis speeds up. -/
def faster : PidAxis → EscPosition × EscPosition
  | .roll => (.frontLeft, .backLeft)
  | .pitch => (.backLeft, .backRight)
  | .yaw => (.frontRight, .backLeft)

/-- The two motors that it slows down. -/
def slower : PidAxis → EscPosition × EscPosition
  | .roll => (.frontRight, .backRight)
  | .pitch => (.frontLeft, .frontRight)
  | .yaw => (.frontLeft, .backRight)

/-- No limit stands in the way of speeding up the first two motors and slowing down the others. -/
def Unhindered (up down : EscPosition × EscPosition) (m : PerMotor ℚ) : Prop :=
  (m.get up.1 ≤ 2000 ∧ m.get up.2 ≤ 2000) ∧ 1000 ≤ m.get down.1 ∧ 1000 ≤ m.get down.2

/-- By how much the smaller one of the other two corrections outweighs the axis' own, in steps of a
    throttle, and at most the 1000 steps that one motor has. -/
def slack (roll pitch yaw : ℚ) (axis : PidAxis) : ℕ :=
  min 1000 ⌈2 * pidScaler * (min |(others roll pitch yaw axis).1| |(others roll pitch yaw axis).2| -
    |correction roll pitch yaw axis|)⌉₊

/-- By how much two motors at the throttle are off the middle of their range, beyond what the
    correction brings. -/
def offCentre (throttle : UInt16) (c : ℚ) : ℚ :=
  max 0 (2 * |(throttle.toNat : ℚ) - 1500| - 2 * pidScaler * |c|)

variable {roll pitch yaw : ℚ} {throttle : UInt16} {rx : RxSample} {ub : EscPosition → ℚ → UInt16}

theorem numbers_motorMixing (h : cutoffThrottle < rx.throttle)
    (hfits : ∀ pos, Fits ((mix roll pitch yaw rx.throttle).get pos)) :
    numbers (motorMixing ub roll pitch yaw rx) = (mix roll pitch yaw rx.throttle).map limited := by
  have hnum : ∀ pos, (((motorMixing ub roll pitch yaw rx).get pos).toNat : ℤ) =
      limited ((mix roll pitch yaw rx.throttle).get pos) := by
    intro pos
    rw [get_motorMixing h]
    exact toThrottle_of_fits _ (hfits pos)
  simp only [numbers, PerMotor.map, PerMotor.mk.injEq]
  exact ⟨hnum .frontLeft, hnum .frontRight, hnum .backLeft, hnum .backRight⟩

/-- The mixes have ten times the correction as their moment. -/
theorem moment_mix (axis : PidAxis) :
    moment (mix roll pitch yaw throttle) axis = 10 * correction roll pitch yaw axis := by
  cases axis <;> simp only [moment, mix, correction, pidScaler] <;> ring

theorem thrust_mix : thrust (mix roll pitch yaw throttle) = 4 * throttle.toNat := by
  simp only [thrust, mix, pidScaler]; ring

/-! ### No motor at a limit -/

theorem sub_one_lt_limited {x : ℚ} (h : x ≤ 2000) : x - 1 < limited x := by
  have hfloor : ⌊x⌋₊ ≤ 2000 := Nat.floor_le_of_le (by exact_mod_cast h)
  have hlt : x < ⌊x⌋₊ + 1 := Nat.lt_floor_add_one x
  have hle : (⌊x⌋₊ : ℤ) ≤ limited x := by rw [limited_eq]; omega
  have hle' : (⌊x⌋₊ : ℚ) ≤ limited x := by exact_mod_cast hle
  linarith

theorem limited_le {x : ℚ} (h : 1000 ≤ x) : limited x ≤ x := by
  have hfloor : 1000 ≤ ⌊x⌋₊ := Nat.le_floor (by exact_mod_cast h)
  have hle : limited x ≤ (⌊x⌋₊ : ℤ) := by rw [limited_eq]; omega
  have hle' : (limited x : ℚ) ≤ (⌊x⌋₊ : ℚ) := by exact_mod_cast hle
  exact le_trans hle' (Nat.floor_le (by linarith))

theorem fits_of_free {x : ℚ} (h : 1000 ≤ x ∧ x ≤ 2000) : Fits x :=
  ⟨by linarith [h.1], by linarith [h.2]⟩

theorem moment_eq {α : Type} [Add α] [Sub α] (m : PerMotor α) (axis : PidAxis) :
    moment m axis = (m.get (faster axis).1 + m.get (faster axis).2) -
      (m.get (slower axis).1 + m.get (slower axis).2) := by
  cases axis <;> rfl

theorem thrust_eq {α : Type} [Add α] (m : PerMotor α) :
    thrust m = m.get .frontLeft + m.get .frontRight + m.get .backLeft + m.get .backRight := rfl

/-- Truncation costs at most one for each motor that speeds up. -/
theorem sub_two_lt_limited {up down : EscPosition × EscPosition} {m : PerMotor ℚ}
    (h : Unhindered up down m) :
    (m.get up.1 + m.get up.2) - (m.get down.1 + m.get down.2) - 2 <
      (limited (m.get up.1) + limited (m.get up.2)) -
        (limited (m.get down.1) + limited (m.get down.2)) := by
  obtain ⟨⟨hup₁, hup₂⟩, hdown₁, hdown₂⟩ := h
  have hlow₁ := sub_one_lt_limited hup₁
  have hlow₂ := sub_one_lt_limited hup₂
  have hhigh₁ := limited_le hdown₁
  have hhigh₂ := limited_le hdown₂
  linarith

theorem sub_two_lt_moment {axis : PidAxis}
    (h : Unhindered (faster axis) (slower axis) (mix roll pitch yaw throttle)) :
    10 * correction roll pitch yaw axis - 2 <
      (moment ((mix roll pitch yaw throttle).map limited) axis : ℤ) := by
  have hmix : moment (mix roll pitch yaw throttle) axis = _ := moment_mix axis
  have hlt := sub_two_lt_limited h
  rw [moment_eq] at hmix ⊢
  simp only [PerMotor.get_map, Int.cast_add, Int.cast_sub]
  linarith

theorem moment_lt_add_two {axis : PidAxis}
    (h : Unhindered (slower axis) (faster axis) (mix roll pitch yaw throttle)) :
    ((moment ((mix roll pitch yaw throttle).map limited) axis : ℤ) : ℚ) <
      10 * correction roll pitch yaw axis + 2 := by
  have hmix : moment (mix roll pitch yaw throttle) axis = _ := moment_mix axis
  have hlt := sub_two_lt_limited h
  rw [moment_eq] at hmix ⊢
  simp only [PerMotor.get_map, Int.cast_add, Int.cast_sub]
  linarith

/-- CORRECT: while all four mixes lie in 1000..2000, the moment about each axis is ten times its own
    correction, and the thrust four times the throttle, up to truncation. -/
theorem decoupled (h : cutoffThrottle < rx.throttle)
    (hfree : ∀ pos, 1000 ≤ (mix roll pitch yaw rx.throttle).get pos ∧
      (mix roll pitch yaw rx.throttle).get pos ≤ 2000) :
    let out := numbers (motorMixing ub roll pitch yaw rx)
    (∀ axis, |((moment out axis : ℤ) : ℚ) - 10 * correction roll pitch yaw axis| < 2) ∧
      4 * (rx.throttle.toNat : ℤ) - 4 < thrust out ∧ thrust out ≤ 4 * (rx.throttle.toNat : ℤ) := by
  intro out
  have hout : out = (mix roll pitch yaw rx.throttle).map limited :=
    numbers_motorMixing h fun pos => fits_of_free (hfree pos)
  have hfree' : ∀ up down, Unhindered up down (mix roll pitch yaw rx.throttle) := fun up down =>
    ⟨⟨(hfree _).2, (hfree _).2⟩, (hfree _).1, (hfree _).1⟩
  have hthrust : thrust (mix roll pitch yaw rx.throttle) = 4 * rx.throttle.toNat := thrust_mix
  have hlow := fun pos => sub_one_lt_limited (hfree pos).2
  have hhigh := fun pos => limited_le (hfree pos).1
  rw [hout]
  refine ⟨fun axis => ?_, ?_, ?_⟩
  · rw [abs_lt]
    have hlt := sub_two_lt_moment (hfree' (faster axis) (slower axis))
    have hgt := moment_lt_add_two (hfree' (slower axis) (faster axis))
    constructor <;> linarith
  · have hlt : (4 * (rx.throttle.toNat : ℚ)) - 4 <
        (thrust ((mix roll pitch yaw rx.throttle).map limited) : ℤ) := by
      rw [← hthrust, thrust_eq, thrust_eq]
      simp only [PerMotor.get_map, Int.cast_add]
      linarith only [hlow .frontLeft, hlow .frontRight, hlow .backLeft, hlow .backRight]
    exact_mod_cast hlt
  · have hle : ((thrust ((mix roll pitch yaw rx.throttle).map limited) : ℤ) : ℚ) ≤
        4 * (rx.throttle.toNat : ℚ) := by
      rw [← hthrust, thrust_eq, thrust_eq]
      simp only [PerMotor.get_map, Int.cast_add]
      linarith only [hhigh .frontLeft, hhigh .frontRight, hhigh .backLeft, hhigh .backRight]
    exact_mod_cast hle

/-- Mid throttle and a correction on every axis. -/
theorem decoupled_mid :
    let out := numbers (motorMixing (fun _ => targetUb) 20 (-30) 5 (throttleSample 1500))
    (∀ axis, |((moment out axis : ℤ) : ℚ) - 10 * correction 20 (-30) 5 axis| < 2) ∧
      4 * ((throttleSample 1500).throttle.toNat : ℤ) - 4 < thrust out ∧
      thrust out ≤ 4 * ((throttleSample 1500).throttle.toNat : ℤ) :=
  decoupled (by decide +kernel) (by decide +kernel)

/-! ### Motors at a limit -/

/-- Two motors pull each way: their mixes lie around the throttle plus and minus the correction, at
    distances that the other two corrections set. -/
theorem moment_map_mix (f : ℚ → ℤ) (axis : PidAxis) :
    moment ((mix roll pitch yaw throttle).map f) axis =
      spread f (throttle.toNat + pidScaler * correction roll pitch yaw axis)
        (pidScaler * ((others roll pitch yaw axis).1 + (others roll pitch yaw axis).2)) -
      spread f (throttle.toNat - pidScaler * correction roll pitch yaw axis)
        (pidScaler * ((others roll pitch yaw axis).1 - (others roll pitch yaw axis).2)) := by
  cases axis <;> simp only [moment, PerMotor.map, mix, spread, correction, others] <;> ring_nf

/-- On a distance of `w` a limited mix gains at most `w`, rounded up, and at most the range of a
    motor. -/
theorem limited_le_add (w x y : ℚ) (h : x ≤ y + w) :
    limited x ≤ limited y + (min 1000 ⌈w⌉₊ : ℕ) := by
  have hfloor : ⌊x⌋₊ ≤ ⌊y⌋₊ + ⌈w⌉₊ := by
    refine Nat.lt_add_one_iff.mp ((Nat.floor_lt' (by omega)).mpr ?_)
    have hy : y < ⌊y⌋₊ + 1 := Nat.lt_floor_add_one y
    have hceil : w ≤ ⌈w⌉₊ := Nat.le_ceil w
    push_cast
    linarith
  rw [limited_eq, limited_eq]
  omega

/-- The higher of two pairs of mixes loses at most the slack. -/
theorem spread_limited_le {t c a b d e : ℚ} (hc : 0 ≤ c)
    (hde : |(|d| - |e|)| ≤ 2 * min |a| |b|) :
    spread limited (t - pidScaler * c) (pidScaler * d) ≤
      spread limited (t + pidScaler * c) (pidScaler * e) +
        (min 1000 ⌈2 * pidScaler * (min |a| |b| - c)⌉₊ : ℕ) := by
  have hscaler : (0 : ℚ) ≤ pidScaler := by norm_num [pidScaler]
  have hup : 0 ≤ pidScaler * c := mul_nonneg hscaler hc
  refine spread_le_spread_add (fun _ _ => limited_mono) (limited_le_add _) (by linarith) ?_
  calc |(|pidScaler * d| - |pidScaler * e|)|
      = pidScaler * |(|d| - |e|)| := by
        rw [abs_mul, abs_mul, ← mul_sub, abs_mul, abs_abs, abs_of_nonneg hscaler]
    _ ≤ pidScaler * (2 * min |a| |b|) := mul_le_mul_of_nonneg_left hde hscaler
    _ = t + pidScaler * c - (t - pidScaler * c) + 2 * pidScaler * (min |a| |b| - c) := by ring

theorem limited_bounds (x : ℚ) : (1000 : ℚ) ≤ limited x ∧ (limited x : ℚ) ≤ 2000 := by
  have hlow : 1000 ≤ limited x := by rw [limited_eq]; omega
  have hhigh : limited x ≤ 2000 := by rw [limited_eq]; omega
  exact ⟨by exact_mod_cast hlow, by exact_mod_cast hhigh⟩

/-- Two limited mixes stay between the sum of the limits and that of the mixes. -/
theorem spread_limited_bounds (t d : ℚ) :
    min 3000 (2 * t) - 2 < ((spread limited t d : ℤ) : ℚ) ∧
      ((spread limited t d : ℤ) : ℚ) ≤ max 3000 (2 * t) := by
  have hcast : ((spread limited t d : ℤ) : ℚ) = spread (fun x => (limited x : ℚ)) t d := by
    simp only [spread, Int.cast_add]
  have hlow : ∀ x : ℚ, x ≤ 1000 → (limited x : ℚ) ≤ 1000 := fun x hx => by
    have hle := limited_mono hx
    exact le_trans (by exact_mod_cast hle) (limited_le le_rfl)
  have hhigh : ∀ x : ℚ, 2000 ≤ x → (2000 : ℚ) ≤ limited x := fun x hx => by
    have hfloor : 2000 ≤ ⌊x⌋₊ := Nat.le_floor (by exact_mod_cast hx)
    have hle : 2000 ≤ limited x := by rw [limited_eq]; omega
    exact_mod_cast hle
  rw [hcast]
  constructor
  · have hlt := min_sub_lt_spread one_pos (fun x => (limited_bounds x).1) hhigh
      (fun x hx => sub_one_lt_limited hx) t d
    norm_num at hlt ⊢
    exact hlt
  · have hle := spread_le_max (fun x => (limited_bounds x).2) hlow (fun x hx => limited_le hx) t d
    norm_num at hle ⊢
    exact hle

/-- Around the middle of the range the limits take as much off above as they add below. -/
theorem spread_limited_lt {t c : ℚ} (hc : 0 ≤ c) (d e : ℚ) :
    ((spread limited (t - pidScaler * c) d : ℤ) : ℚ) <
      (spread limited (t + pidScaler * c) e : ℤ) +
        (max 0 (2 * |t - 1500| - 2 * pidScaler * c) + 2) := by
  have hup : 0 ≤ pidScaler * c := mul_nonneg (by norm_num [pidScaler]) hc
  have hle := (spread_limited_bounds (t - pidScaler * c) d).2
  have hlt := (spread_limited_bounds (t + pidScaler * c) e).1
  have habove := le_abs_self (t - 1500)
  have hbelow := neg_le_abs (t - 1500)
  have hzero := le_max_left 0 (2 * |t - 1500| - 2 * pidScaler * c)
  have hoff := le_max_right 0 (2 * |t - 1500| - 2 * pidScaler * c)
  rcases max_cases 3000 (2 * (t - pidScaler * c)) with ⟨hmax, _⟩ | ⟨hmax, _⟩ <;>
    rcases min_cases 3000 (2 * (t + pidScaler * c)) with ⟨hmin, _⟩ | ⟨hmin, _⟩ <;>
    rw [hmax] at hle <;> rw [hmin] at hlt <;> linarith

end Mixing

end FC

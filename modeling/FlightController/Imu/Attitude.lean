import FlightController.Imu.Driver
import FlightController.Schemes.Blend

/-! The complementary filter (`src/imu/attitude.c`). Each sample moves the roll and pitch angles by
    what the gyroscope says, and blends them with what the accelerometer says. `aroll` and `apitch`
    go through `atan2f`; what they answer for a sample is part of the update here.

    Each fused angle is a first-order filter of its own (`fused_update`). So it stays bounded, and
    where it started is forgotten (`fused_stable`). -/

namespace FC.Imu
open Schemes

/-- The axes that the filter estimates. -/
inductive TiltAxis where | roll | pitch
  deriving DecidableEq, Repr

/-- A sample, with the values of `aroll` and `apitch` on its accelerations. -/
structure Update where
  sample : ImuSample ℚ
  aroll : ℚ
  apitch : ℚ
  deriving DecidableEq, Repr

/-- `groll` and `gpitch`: the angle turned since the sample before, in degrees. -/
def groll (gx dtUs : ℚ) : ℚ := gx * dtUs / 1000000 * Fc.rad2deg
def gpitch (gy dtUs : ℚ) : ℚ := gy * dtUs / 1000000 * Fc.rad2deg

/-- `gweight`. -/
def gweight : ℚ := 995 / 1000

/-- `update_complementary_filter`. -/
def updateComplementaryFilter (angles : ImuAngles ℚ) (u : Update) : ImuAngles ℚ :=
  let groll' := groll u.sample.si.gx u.sample.dt.toNat
  let gpitch' := gpitch u.sample.si.gy u.sample.dt.toNat
  { aroll := u.aroll
    apitch := u.apitch
    groll := angles.groll + groll'
    gpitch := angles.gpitch + gpitch'
    fusedRoll := (angles.fusedRoll + groll') * gweight + u.aroll * (1 - gweight)
    fusedPitch := (angles.fusedPitch + gpitch') * gweight + u.apitch * (1 - gweight) }

/-- The zero-initialised static angles. -/
def zeroAngles : ImuAngles ℚ := ⟨0, 0, 0, 0, 0, 0⟩

/-- The fused angle of an axis. -/
def fused : TiltAxis → ImuAngles ℚ → ℚ
  | .roll, angles => angles.fusedRoll
  | .pitch, angles => angles.fusedPitch

/-- What an update brings for an axis: the gyroscope's increment, and the accelerometer's angle. -/
def Update.input (axis : TiltAxis) (u : Update) : ℚ × ℚ :=
  match axis with
  | .roll => (groll u.sample.si.gx u.sample.dt.toNat, u.aroll)
  | .pitch => (gpitch u.sample.si.gy u.sample.dt.toNat, u.apitch)

/-- Every axis is a filter of its own. -/
theorem fused_update (axis : TiltAxis) (angles : ImuAngles ℚ) (u : Update) :
    fused axis (updateComplementaryFilter angles u) =
      blend gweight (fused axis angles) (u.input axis) := by
  cases axis <;> rfl

theorem fused_run (axis : TiltAxis) (angles : ImuAngles ℚ) (us : List Update) :
    fused axis (run updateComplementaryFilter angles us) =
      run (blend gweight) (fused axis angles) (us.map (Update.input axis)) :=
  run_map updateComplementaryFilter (fused_update axis) angles us

theorem fused_bounded {axis : TiltAxis} {bound : ℚ} {us : List Update}
    (haccel : ∀ u ∈ us, |(u.input axis).2| ≤ 90) (hgyro : ∀ u ∈ us, |(u.input axis).1| ≤ bound)
    (angles : ImuAngles ℚ) :
    |fused axis (run updateComplementaryFilter angles us)| ≤
      max |fused axis angles| (90 + 199 * bound) := by
  rw [fused_run]
  refine abs_run_blend_le (by norm_num [gweight]) (by norm_num [gweight]) (b := bound) (a := 90)
    ?_ _ (le_max_left ..) ?_
  · have hfixed := le_max_right |fused axis angles| (90 + 199 * bound)
    norm_num [gweight]
    linarith
  · intro d hd
    obtain ⟨u, hu, rfl⟩ := List.mem_map.mp hd
    exact ⟨hgyro u hu, haccel u hu⟩

/-- CORRECT: whatever the samples, if the accelerometer's angles lie in -90..90 and no increment
    exceeds the bound, then after every update the fused angle stays within its start and 90 plus
    199 times the bound; and two runs on the same samples differ by the difference of their starts
    times 0.995 to the number of updates. -/
theorem fused_stable (axis : TiltAxis) (us : List Update) (angles other : ImuAngles ℚ) :
    (∀ bound : ℚ, (∀ u ∈ us, |(u.input axis).2| ≤ 90) → (∀ u ∈ us, |(u.input axis).1| ≤ bound) →
      Always updateComplementaryFilter
        (fun now => |fused axis now| ≤ max |fused axis angles| (90 + 199 * bound)) angles us) ∧
    fused axis (run updateComplementaryFilter angles us) -
        fused axis (run updateComplementaryFilter other us) =
      (995 / 1000) ^ us.length * (fused axis angles - fused axis other) := by
  constructor
  · intro bound haccel hgyro pre hpre
    refine fused_bounded ?_ ?_ angles
    · intro u hu
      exact haccel u (hpre.subset hu)
    · intro u hu
      exact hgyro u (hpre.subset hu)
  · rw [fused_run, fused_run, run_blend_sub, List.length_map, gweight]

/-- Pitching forward at 1 rad/s for 10 ms, with the accelerometer at 30 degrees. -/
def noseDown : Update := ⟨⟨⟨0, 1, 0, 0, 0, 0⟩, 10000⟩, 0, 30⟩

theorem fused_stable_noseDown :
    |fused .pitch (run updateComplementaryFilter zeroAngles [noseDown, noseDown])| ≤
      max 0 (90 + 199 * 1) := by
  have haccel : ∀ u ∈ [noseDown, noseDown], |(u.input .pitch).2| ≤ 90 := by decide +kernel
  have hgyro : ∀ u ∈ [noseDown, noseDown], |(u.input .pitch).1| ≤ 1 := by decide +kernel
  exact ((fused_stable .pitch _ zeroAngles zeroAngles).1 1 haccel hgyro).last

end FC.Imu

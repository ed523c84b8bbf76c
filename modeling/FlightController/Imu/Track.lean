import FlightController.Imu.Attitude

/-! How well the complementary filter follows the drone (`src/imu/attitude.c`). Let the drone turn
    as it likes about an axis, and let each sample be wrong about it: the gyroscope's increment
    about how far it has turned, the accelerometer's angle about where it is now (in flight it also
    measures the acceleration). The fused angle is off by what the filter makes of these errors
    alone. So the error at the start fades by 0.995 with every sample, and what remains is the
    accelerometer's worst error and 199 times the gyroscope's (`fused_tracks`). -/

namespace FC.Imu
open Schemes

/-- The samples `us` were taken while the true angle took the given course from `start` on: an
    increment is off by at most `bg`, an accelerometer angle by at most `ba`. -/
structure Taken (axis : TiltAxis) (bg ba start : ℚ) (us : List Update) (course : List ℚ) :
    Prop where
  length_eq : us.length = course.length
  bounded : ∀ d ∈ deviations start (us.map (Update.input axis)) course, |d.1| ≤ bg ∧ |d.2| ≤ ba

/-- CORRECT: whatever the drone does, the fused angle differs from the true one after `n` samples by
    at most 0.995^n times the difference at the start, and 1 - 0.995^n times the accelerometer's
    largest error and 199 times the gyroscope's. -/
theorem fused_tracks {axis : TiltAxis} {bg ba start : ℚ} {us : List Update} {course : List ℚ}
    (h : Taken axis bg ba start us course) (angles : ImuAngles ℚ) :
    |fused axis (run updateComplementaryFilter angles us) - course.getLastD start| ≤
      (995 / 1000) ^ us.length * |fused axis angles - start| +
        (1 - (995 / 1000) ^ us.length) * (ba + 199 * bg) := by
  have hlen : (us.map (Update.input axis)).length = course.length := by
    rw [List.length_map, h.length_eq]
  have hfade := abs_run_blend_fade (w := gweight) (by norm_num [gweight]) (by norm_num [gweight])
    (a := ba) (b := bg) (m := ba + 199 * bg) (by norm_num [gweight]; linarith)
    (deviations start (us.map (Update.input axis)) course) (fused axis angles - start) h.bounded
  rw [length_deviations start hlen, List.length_map] at hfade
  rw [fused_run, run_blend_sub_path gweight hlen]
  exact hfade

/-- A drone that pitches from 0 to 1 and to 2 degrees, seen by sensors that are off by at most 1/2
    and by 30 degrees. -/
theorem fused_tracks_noseDown :
    |fused .pitch (run updateComplementaryFilter zeroAngles [noseDown, noseDown]) - 2| ≤
      (995 / 1000) ^ 2 * |(0 : ℚ) - 0| + (1 - (995 / 1000) ^ 2) * (30 + 199 * (1 / 2)) := by
  have htaken : Taken .pitch (1 / 2) 30 0 [noseDown, noseDown] [1, 2] := ⟨rfl, by decide +kernel⟩
  exact fused_tracks htaken zeroAngles

end FC.Imu

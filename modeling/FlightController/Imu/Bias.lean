import FlightController.Imu.Attitude

/-! What a gyroscope bias does to the angles (`src/imu/attitude.c`), one that calibration has left
    or that has come up since. The gyro-only angles integrate it and drift off without end. The
    fused angles are off by a constant: 199 times what the bias turns between two samples, which
    is approached by a factor 0.995 per sample, whatever the drone does meanwhile (`bias_shift`). -/

namespace FC.Imu
open Schemes

/-- The gyro-only angle of an axis. -/
def gyroOnly : TiltAxis → ImuAngles ℚ → ℚ
  | .roll, angles => angles.groll
  | .pitch, angles => angles.gpitch

/-- A sample with a bias on the gyroscope's roll and pitch rates. -/
def Update.biased (bias : TiltAxis → ℚ) (u : Update) : Update :=
  { u with
    sample := { u.sample with
      si := { u.sample.si with
        gx := u.sample.si.gx + bias .roll
        gy := u.sample.si.gy + bias .pitch } } }

/-- What a rate turns in the time between two samples, in degrees. -/
def turn (rate : ℚ) (dt : UInt32) : ℚ := groll rate dt.toNat

/-- The bias adds its own turn to the gyroscope's increment, and nothing to the accelerometer's
    angle. -/
theorem input_biased (axis : TiltAxis) (bias : TiltAxis → ℚ) (u : Update) :
    (u.biased bias).input axis = u.input axis + (turn (bias axis) u.sample.dt, 0) := by
  cases axis <;>
    simp only [Update.input, Update.biased, turn, groll, gpitch, Prod.mk_add_mk, add_zero,
      Prod.mk.injEq, and_true] <;> ring

theorem gyroOnly_update (axis : TiltAxis) (angles : ImuAngles ℚ) (u : Update) :
    gyroOnly axis (updateComplementaryFilter angles u) =
      gyroOnly axis angles + (u.input axis).1 := by
  cases axis <;> rfl

variable {axis : TiltAxis} {dt : UInt32} {us : List Update}

/-- With one sample interval all along, the biased inputs are the inputs plus a constant. -/
theorem inputs_biased (bias : TiltAxis → ℚ) (hdt : ∀ u ∈ us, u.sample.dt = dt) :
    (us.map (Update.biased bias)).map (Update.input axis) =
      List.zipWith (· + ·) (us.map (Update.input axis))
        (List.replicate us.length (turn (bias axis) dt, 0)) := by
  induction us with
  | nil => rfl
  | cons u us ih =>
    have hu : u.sample.dt = dt := hdt u List.mem_cons_self
    have hrest := ih fun v hv => hdt v (List.mem_cons_of_mem u hv)
    rw [List.map_cons, List.map_cons, hrest, List.map_cons, List.length_cons, List.replicate_succ,
      List.zipWith_cons_cons, input_biased, hu]

theorem fused_biased (bias : TiltAxis → ℚ) (hdt : ∀ u ∈ us, u.sample.dt = dt)
    (angles : ImuAngles ℚ) :
    fused axis (run updateComplementaryFilter angles (us.map (Update.biased bias))) -
        fused axis (run updateComplementaryFilter angles us) =
      199 * turn (bias axis) dt * (1 - (995 / 1000) ^ us.length) := by
  have hlen : (us.map (Update.input axis)).length =
      (List.replicate us.length (turn (bias axis) dt, (0 : ℚ))).length := by simp
  have hconst := run_blend_const gweight (turn (bias axis) dt) us.length
  rw [fused_run, fused_run, inputs_biased bias hdt]
  nth_rewrite 1 [← add_zero (fused axis angles)]
  rw [run_blend_add gweight hlen, add_sub_cancel_left]
  rw [gweight] at hconst ⊢
  linarith

theorem gyroOnly_biased (bias : TiltAxis → ℚ) (hdt : ∀ u ∈ us, u.sample.dt = dt)
    (angles angles' : ImuAngles ℚ) :
    gyroOnly axis (run updateComplementaryFilter angles' (us.map (Update.biased bias))) -
        gyroOnly axis (run updateComplementaryFilter angles us) =
      gyroOnly axis angles' - gyroOnly axis angles + us.length * turn (bias axis) dt := by
  induction us generalizing angles angles' with
  | nil => simp
  | cons u us ih =>
    have hu : u.sample.dt = dt := hdt u List.mem_cons_self
    rw [List.map_cons, run_cons, run_cons, ih fun v hv => hdt v (List.mem_cons_of_mem u hv),
      gyroOnly_update, gyroOnly_update, input_biased, hu, List.length_cons]
    push_cast [Prod.fst_add]
    ring

/-- CORRECT: at a constant sample interval, a bias on the gyroscope shifts the fused angle after `n`
    samples by exactly 199 times its turn per sample times 1 - 0.995^n, and the gyro-only angle by
    `n` times its turn, whatever the samples and the angles at the start. -/
theorem bias_shift (axis : TiltAxis) (bias : TiltAxis → ℚ) {dt : UInt32} {us : List Update}
    (hdt : ∀ u ∈ us, u.sample.dt = dt) (angles : ImuAngles ℚ) :
    let clean := run updateComplementaryFilter angles us
    let biased := run updateComplementaryFilter angles (us.map (Update.biased bias))
    fused axis biased - fused axis clean =
        199 * turn (bias axis) dt * (1 - (995 / 1000) ^ us.length) ∧
      gyroOnly axis biased - gyroOnly axis clean = us.length * turn (bias axis) dt := by
  intro clean biased
  refine ⟨fused_biased bias hdt angles, ?_⟩
  rw [gyroOnly_biased bias hdt angles angles, sub_self, zero_add]

/-- A bias of 1/100 rad/s while pitching forward. -/
theorem bias_shift_noseDown :
    let clean := run updateComplementaryFilter zeroAngles [noseDown, noseDown]
    let biased := run updateComplementaryFilter zeroAngles
      ([noseDown, noseDown].map (Update.biased fun _ => 1 / 100))
    fused .pitch biased - fused .pitch clean =
        199 * turn (1 / 100) 10000 * (1 - (995 / 1000) ^ [noseDown, noseDown].length) ∧
      gyroOnly .pitch biased - gyroOnly .pitch clean =
        [noseDown, noseDown].length * turn (1 / 100) 10000 :=
  bias_shift .pitch (fun _ => 1 / 100)
    (by
      intro u hu
      simp only [List.mem_cons, List.not_mem_nil, or_false, or_self] at hu
      rw [hu]; rfl)
    zeroAngles

end FC.Imu

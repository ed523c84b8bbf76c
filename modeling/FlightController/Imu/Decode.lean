import FlightController.Imu.Driver
import FlightController.Schemes.Run

/-! What the driver makes of the sensor's registers. The bus delivers twelve bytes from
    `REG_OUTX_L_G` on, the read loop stores them one by one, and they overlay a structure of six
    16-bit numbers. Two axes then change sign, in 16 bits.

    There the most negative number has no opposite: a reading of -32768 on one of these axes stays
    as it is. Every other image is decoded with the right signs (`keepsSigns_iff`). -/

namespace FC.Lsm6dsox
open Schemes Schemes.Bytes

/-- The loop of `lsm6dsox_spi_read` after `n` rounds: round `i` stores what the bus answers, the
    `i`-th register, in `buf[i]`. -/
def spiReadLoop (regs buf : RegImage) : ℕ → RegImage
  | 0 => buf
  | n + 1 => (spiReadLoop regs buf n).setIfInBounds n (regs[n]?.getD 0)

/-- `lsm6dsox_spi_read(REG_OUTX_L_G, buf, 12)`. -/
def lsm6dsoxSpiRead (regs buf : RegImage) : RegImage := spiReadLoop regs buf 12

/-- After `n` rounds the first `n` bytes are the registers'. -/
theorem spiReadLoop_getElem? (regs buf : RegImage) {n i : ℕ} (hi : i < n) (hn : n ≤ 12) :
    (spiReadLoop regs buf n)[i]? = regs[i]? := by
  induction n with
  | zero => exact absurd hi (Nat.not_lt_zero i)
  | succ n ih =>
    rw [spiReadLoop, Vector.getElem?_setIfInBounds]
    rcases Nat.lt_succ_iff_lt_or_eq.mp hi with hlt | heq
    · rw [if_neg (Nat.ne_of_gt hlt), ih hlt (by omega)]
    · have hin : i < 12 := by omega
      rw [if_pos heq.symm, if_pos (by omega), ← heq, Vector.getElem?_eq_getElem hin,
        Option.getD_some]

theorem lsm6dsoxSpiRead_eq (regs buf : RegImage) : lsm6dsoxSpiRead regs buf = regs := by
  refine Vector.ext fun i hi => ?_
  have hread := spiReadLoop_getElem? regs buf hi le_rfl
  rw [Vector.getElem?_eq_getElem hi, Vector.getElem?_eq_getElem hi] at hread
  exact Option.some.inj hread

/-- The `k`-th register pair as a two's complement number, low byte first. -/
def reading (regs : RegImage) (k : Fin 6) : ℤ :=
  let n := (regs.get ⟨2 * k, by omega⟩).toNat + 256 * (regs.get ⟨2 * k + 1, by omega⟩).toNat
  if n < 2 ^ 15 then n else n - 2 ^ 16

theorem word_toInt (regs : RegImage) (k : Fin 6) : (regs.word k).toInt = reading regs k := by
  set lo := regs.get ⟨2 * k, by omega⟩ with hlo
  set hi := regs.get ⟨2 * k + 1, by omega⟩ with hhi
  have hpair : (regs.toList.drop (2 * k)).take 2 = [lo, hi] := by
    have hlen : regs.toList.length = 12 := Vector.length_toList
    rw [List.drop_eq_getElem_cons (by omega), List.drop_eq_getElem_cons (by omega)]
    simp [hlo, hhi, Vector.get]
  have hlow : lo.toNat < 256 := UInt8.toNat_lt _
  have hhigh : hi.toNat < 256 := UInt8.toNat_lt _
  have hint : (regs.word k).toInt = (UInt16.ofNat (ofLe [lo, hi])).toBitVec.toInt := by
    rw [RegImage.word, hpair]; rfl
  have hnat : (UInt16.ofNat (ofLe [lo, hi])).toNat = lo.toNat + 256 * hi.toNat := by
    rw [UInt16.toNat_ofNat']
    simp only [ofLe]
    omega
  rw [hint, BitVec.toInt_eq_toNat_cond, UInt16.toNat_toBitVec, hnat]
  simp only [reading, ← hlo, ← hhi]
  split <;> split <;> omega

/-- A negation in 16 bits is exact except for the most negative number. -/
theorem toInt_neg_iff (a : Int16) : (-a).toInt = -a.toInt ↔ a.toInt ≠ -32768 := by
  have hlo := a.le_toInt
  have hhi := a.toInt_lt
  rw [Int16.toInt_neg]
  constructor
  · intro hneg hmin
    rw [hmin] at hneg
    exact absurd hneg (by decide)
  · intro hne
    exact Int.bmod_eq_of_le (by omega) (by omega)

/-- The raw structure holds the readings, `gz` and `ay` with the other sign. -/
structure RawSigns (regs : RegImage) (raw : ImuRaw) : Prop where
  gx : raw.gx.toInt = reading regs 0
  gy : raw.gy.toInt = reading regs 1
  gz : raw.gz.toInt = -reading regs 2
  ax : raw.ax.toInt = reading regs 3
  ay : raw.ay.toInt = -reading regs 4
  az : raw.az.toInt = reading regs 5

theorem rawSigns_fetchRawData_iff (regs : RegImage) (d : Lsm6dsox) :
    RawSigns regs (fetchRawData regs d).latestRaw ↔
      reading regs 2 ≠ -32768 ∧ reading regs 4 ≠ -32768 := by
  have hgz : (-regs.word 2).toInt = -reading regs 2 ↔ reading regs 2 ≠ -32768 := by
    rw [← word_toInt regs 2]; exact toInt_neg_iff _
  have hay : (-regs.word 4).toInt = -reading regs 4 ↔ reading regs 4 ≠ -32768 := by
    rw [← word_toInt regs 4]; exact toInt_neg_iff _
  rw [← hgz, ← hay]
  constructor
  · intro h
    exact ⟨h.gz, h.ay⟩
  · rintro ⟨hz, hy⟩
    exact ⟨word_toInt regs 0, word_toInt regs 1, hz, word_toInt regs 3, hy, word_toInt regs 5⟩

/-- `gyro_raw2si`, `acc_raw2si`. -/
def gyroScale : ℚ := gyroSensitivity / 1000 * deg2rad
def accScale : ℚ := accSensitivity / 1000 * gravityEarth

/-- Each axis in SI units is its reading, with that sign, times its scale. -/
structure SiSigns (regs : RegImage) (si : ImuSi ℚ) : Prop where
  gx : si.gx = reading regs 0 * gyroScale
  gy : si.gy = reading regs 1 * gyroScale
  gz : si.gz = -reading regs 2 * gyroScale
  ax : si.ax = reading regs 3 * accScale
  ay : si.ay = -reading regs 4 * accScale
  az : si.az = reading regs 5 * accScale

theorem RawSigns.si {regs : RegImage} {raw : ImuRaw} (h : RawSigns regs raw) :
    SiSigns regs (rawToSi raw) := by
  obtain ⟨hgx, hgy, hgz, hax, hay, haz⟩ := h
  constructor <;> simp only [rawToSi, hgx, hgy, hgz, hax, hay, haz, Int.cast_neg] <;> rfl

/-- After a call there is nothing to fetch, so the next call converts the same raw data. -/
theorem getOrFetchSi_again (regs later : RegImage) (d : Lsm6dsox) :
    getOrFetchSi later (getOrFetchSi regs d) = getOrFetchSi regs d := by
  by_cases hready : (d.gyroDrdy && d.accDrdy) = true
  · simp [getOrFetchSi, fetchRawData, hready]
  · simp [getOrFetchSi, hready]

theorem latestSi_again (regs : RegImage) (d : Lsm6dsox) (later : List RegImage) :
    (run (fun d' image => getOrFetchSi image d') (getOrFetchSi regs d) later).latestSi =
      (getOrFetchSi regs d).latestSi := by
  have hsame : run (fun d' image => getOrFetchSi image d') (getOrFetchSi regs d) later =
      getOrFetchSi regs d :=
    inv_run _ (fun d' => d' = getOrFetchSi regs d)
      (by rintro _ image rfl; exact getOrFetchSi_again regs image d) later rfl
  rw [hsame]

/-- What a driver with both ready flags set should make of the registers that it finds: the raw
    structure and the SI units keep every reading and its sign, the scales are positive, and further
    calls without new data report the same again. -/
structure KeepsSigns (regs buf : RegImage) (d : Lsm6dsox) : Prop where
  raw : RawSigns regs (fetchRawData (lsm6dsoxSpiRead regs buf) d).latestRaw
  si : SiSigns regs (getOrFetchSi (lsm6dsoxSpiRead regs buf) d).latestSi
  scales : 0 < gyroScale ∧ 0 < accScale
  again : ∀ later : List RegImage,
    (run (fun d' image => getOrFetchSi image d')
      (getOrFetchSi (lsm6dsoxSpiRead regs buf) d) later).latestSi =
        (getOrFetchSi (lsm6dsoxSpiRead regs buf) d).latestSi

/-- CORRECT exactly for these images: the signs are kept if and only if neither the `gz` nor the
    `ay` registers read -32768. -/
theorem keepsSigns_iff (regs buf : RegImage) {d : Lsm6dsox} (hgyro : d.gyroDrdy = true)
    (hacc : d.accDrdy = true) :
    KeepsSigns regs buf d ↔ reading regs 2 ≠ -32768 ∧ reading regs 4 ≠ -32768 := by
  rw [← rawSigns_fetchRawData_iff regs d]
  constructor
  · intro h
    have hraw := h.raw
    rwa [lsm6dsoxSpiRead_eq] at hraw
  · intro hraw
    have hfetch : (getOrFetchSi regs d).latestSi = rawToSi (fetchRawData regs d).latestRaw := by
      simp [getOrFetchSi, hgyro, hacc]
    have hscales : 0 < gyroScale ∧ 0 < accScale := by
      norm_num [gyroScale, accScale, gyroSensitivity, accSensitivity, deg2rad, gravityEarth]
    refine ⟨?_, ?_, hscales, ?_⟩
    · rw [lsm6dsoxSpiRead_eq]; exact hraw
    · rw [lsm6dsoxSpiRead_eq, hfetch]; exact hraw.si
    · rw [lsm6dsoxSpiRead_eq]; exact latestSi_again regs d

/-- Both flags set, all registers zero but `gz`, which shows the given two bytes. -/
def readyDriver : Lsm6dsox := { Lsm6dsox.reset with gyroDrdy := true, accDrdy := true }
def yawImage (lo hi : UInt8) : RegImage := #v[0, 0, 0, 0, lo, hi, 0, 0, 0, 0, 0, 0]

theorem keepsSigns_yawImage : KeepsSigns (yawImage 1 0x80) (yawImage 0 0) readyDriver :=
  (keepsSigns_iff _ _ rfl rfl).mpr (by decide)

/-- At -32768 the yaw rate is reported with the wrong sign. -/
theorem not_keepsSigns_yawImage : ¬ KeepsSigns (yawImage 0 0x80) (yawImage 0 0) readyDriver := by
  intro h
  have hgz := h.raw.gz
  revert hgz
  decide

end FC.Lsm6dsox

import FlightController.Schemes.Bytes
import FlightController.Telemetry.Packets

/-! The IMU driver and its frontend (`src/imu/lsm6dsox.c`, `src/imu/imu_frontend.c`).

    The sensor pulses one line when a gyroscope sample is ready and one when an accelerometer sample
    is. The interrupt handler notes both in flags, and the timer value of the gyroscope's. The
    driver reads a sample when both flags are set, and clears them. The frontend turns two
    successive gyroscope timestamps into the `dt` of a sample.

    Here each function runs to completion; `Imu.Steps` takes the same code statement by statement.
    What the sensor's registers hold is an argument of the functions that read them. -/

namespace FC
open Schemes.Bytes

/-- `struct imu_raw`. -/
structure ImuRaw where
  gx : Int16
  gy : Int16
  gz : Int16
  ax : Int16
  ay : Int16
  az : Int16
  deriving DecidableEq, Repr

/-- The 12 register bytes from `REG_OUTX_L_G` on, as the bus returns them. -/
abbrev RegImage := Vector UInt8 12

/-- The `k`-th little-endian `int16_t` of the image. -/
def RegImage.word (image : RegImage) (k : ℕ) : Int16 :=
  (UInt16.ofNat (ofLe ((image.toList.drop (2 * k)).take 2))).toInt16

/-- `conn.read(REG_OUTX_L_G, &latest_raw, 12)`: the structure is overlaid by the bytes. -/
def RegImage.raw (image : RegImage) : ImuRaw where
  gx := image.word 0
  gy := image.word 1
  gz := image.word 2
  ax := image.word 3
  ay := image.word 4
  az := image.word 5

/-- `DEG2RAD` and `GRAVITY_EARTH` of `constants.h`. -/
def deg2rad : ℚ := 17453292519943295 / 1000000000000000000
def gravityEarth : ℚ := 980665 / 100000

/-- The static variables of `lsm6dsox.c`. -/
structure Lsm6dsox where
  latestRaw : ImuRaw
  latestSi : ImuSi ℚ
  initialized : Bool
  gyroDrdy : Bool
  accDrdy : Bool
  gyroDrdyTimestamp : UInt32
  deriving DecidableEq, Repr

namespace Lsm6dsox

/-- `GYRO_SENSITIVITY`, `ACC_SENSITIVITY`. -/
def gyroSensitivity : ℚ := 70
def accSensitivity : ℚ := 488 / 1000

/-- Zero-initialised statics. -/
def reset : Lsm6dsox where
  latestRaw := ⟨0, 0, 0, 0, 0, 0⟩
  latestSi := ⟨0, 0, 0, 0, 0, 0⟩
  initialized := false
  gyroDrdy := false
  accDrdy := false
  gyroDrdyTimestamp := 0

/-- `data_ready`. -/
def dataReady (d : Lsm6dsox) : UInt32 :=
  if d.gyroDrdy && d.accDrdy then d.gyroDrdyTimestamp else 0

/-- `fetch_raw_data`. A negation that does not fit `int16_t` wraps. -/
def fetchRawData (image : RegImage) (d : Lsm6dsox) : Lsm6dsox :=
  let raw := image.raw
  { d with
    latestRaw := { raw with gz := -raw.gz, ay := -raw.ay }
    gyroDrdy := false
    accDrdy := false }

/-- The conversion of `get_or_fetch_si`. -/
def rawToSi (raw : ImuRaw) : ImuSi ℚ :=
  let gyroRaw2si := gyroSensitivity / 1000 * deg2rad
  let accRaw2si := accSensitivity / 1000 * gravityEarth
  { gx := raw.gx.toInt * gyroRaw2si
    gy := raw.gy.toInt * gyroRaw2si
    gz := raw.gz.toInt * gyroRaw2si
    ax := raw.ax.toInt * accRaw2si
    ay := raw.ay.toInt * accRaw2si
    az := raw.az.toInt * accRaw2si }

/-- `get_or_fetch_si`; what it returns is the new `latestSi`. -/
def getOrFetchSi (image : RegImage) (d : Lsm6dsox) : Lsm6dsox :=
  let d' := if d.gyroDrdy && d.accDrdy then fetchRawData image d else d
  { d' with latestSi := rawToSi d'.latestRaw }

/-- `IRQ_ISR`, with the pending flags of the two lines and the timer value it would read. -/
def irqIsr (gyro acc : Bool) (nowUs : UInt32) (d : Lsm6dsox) : Lsm6dsox :=
  if !d.initialized then d
  else
    let d := if gyro then { d with gyroDrdy := true, gyroDrdyTimestamp := nowUs } else d
    if acc then { d with accDrdy := true } else d

/-- `setup`, as far as it touches the statics; it reads the registers once. -/
def setup (image : RegImage) (d : Lsm6dsox) : Lsm6dsox :=
  if d.initialized then d
  else
    { fetchRawData image { d with gyroDrdy := false, accDrdy := false } with
      initialized := true }

/-- Setting up leaves no data-ready event behind. -/
theorem setup_reset (image : RegImage) :
    (setup image reset).initialized = true ∧ (setup image reset).gyroDrdy = false ∧
      (setup image reset).accDrdy = false ∧ (setup image reset).gyroDrdyTimestamp = 0 :=
  ⟨rfl, rfl, rfl, rfl⟩

theorem dataReady_ne_zero_iff {d : Lsm6dsox} :
    d.dataReady ≠ 0 ↔ d.gyroDrdy = true ∧ d.accDrdy = true ∧ d.gyroDrdyTimestamp ≠ 0 := by
  cases hgyro : d.gyroDrdy <;> cases hacc : d.accDrdy <;> simp [dataReady, hgyro, hacc]

/-- Once set up, the handler raises the flags of the pending lines and clears none. -/
theorem irqIsr_spec {d : Lsm6dsox} (h : d.initialized = true) (gyro acc : Bool) (nowUs : UInt32) :
    (irqIsr gyro acc nowUs d).initialized = true ∧
      (irqIsr gyro acc nowUs d).gyroDrdy = (gyro || d.gyroDrdy) ∧
      (irqIsr gyro acc nowUs d).accDrdy = (acc || d.accDrdy) ∧
      (irqIsr gyro acc nowUs d).gyroDrdyTimestamp =
        if gyro then nowUs else d.gyroDrdyTimestamp := by
  cases gyro <;> cases acc <;> simp [irqIsr, h]

end Lsm6dsox

/-- `struct imu_sample`. -/
structure ImuSample (F : Type) where
  si : ImuSi F
  dt : UInt32
  deriving DecidableEq, Repr

/-- The static variables of driver and frontend. -/
structure Imu where
  driver : Lsm6dsox
  latestSample : ImuSample ℚ
  prevGyroDrdyTimestamp : UInt32
  bias : Telemetry.ImuBias ℚ
  deriving DecidableEq, Repr

namespace Imu

/-- Subtraction of the static bias, axis by axis. -/
def removeBias (bias : Telemetry.ImuBias ℚ) (si : ImuSi ℚ) : ImuSi ℚ where
  gx := si.gx - bias.gx
  gy := si.gy - bias.gy
  gz := si.gz - bias.gz
  ax := si.ax - bias.ax
  ay := si.ay - bias.ay
  az := si.az - bias.az

/-- `imu_get_latest`: the pointer it returns (`none` for `NULL`) with what it points to, and the
    new statics. -/
def imuGetLatest (image : RegImage) (s : Imu) : Option (ImuSample ℚ) × Imu :=
  let gyroDrdyTimestamp := s.driver.dataReady
  if gyroDrdyTimestamp = 0 ∨ s.prevGyroDrdyTimestamp = 0 then
    -- no new sample, or no previous sample yet
    (none, { s with prevGyroDrdyTimestamp := gyroDrdyTimestamp })
  else
    let driver := s.driver.getOrFetchSi image
    let sample : ImuSample ℚ :=
      ⟨removeBias s.bias driver.latestSi, gyroDrdyTimestamp - s.prevGyroDrdyTimestamp⟩
    (some sample,
      { s with driver, latestSample := sample, prevGyroDrdyTimestamp := gyroDrdyTimestamp })

/-- The branch of `imu_calibrate` that `main` takes: `use_precomputed_bias`. -/
def precomputedBias : Telemetry.ImuBias ℚ where
  gx := 12803464 / 10000000000
  gy := -45885462 / 10000000000
  gz := -86432267 / 10000000000
  ax := 2003362477 / 10000000000
  ay := 798646286 / 10000000000
  az := 1923642159 / 10000000000

/-- The statics after `imu_setup` and `imu_calibrate(&imu_driver, true)`. -/
def start (image : RegImage) : Imu where
  driver := Lsm6dsox.setup image .reset
  latestSample := ⟨⟨0, 0, 0, 0, 0, 0⟩, 0⟩
  prevGyroDrdyTimestamp := 0
  bias := precomputedBias

/-- The interrupt, as the frontend sees it. -/
def irq (gyro acc : Bool) (nowUs : UInt32) (s : Imu) : Imu :=
  { s with driver := s.driver.irqIsr gyro acc nowUs }

/-- A call returns a sample when there is new data and the call before saw some. -/
theorem imuGetLatest_eq_some {image : RegImage} {s : Imu} (hready : s.driver.dataReady ≠ 0)
    (hprev : s.prevGyroDrdyTimestamp ≠ 0) :
    imuGetLatest image s =
      (some ⟨removeBias s.bias (s.driver.getOrFetchSi image).latestSi,
          s.driver.dataReady - s.prevGyroDrdyTimestamp⟩,
        { s with
          driver := s.driver.getOrFetchSi image
          latestSample := ⟨removeBias s.bias (s.driver.getOrFetchSi image).latestSi,
            s.driver.dataReady - s.prevGyroDrdyTimestamp⟩
          prevGyroDrdyTimestamp := s.driver.dataReady }) := by
  simp only [imuGetLatest, hready, hprev, or_self, if_false]

theorem imuGetLatest_eq_none {image : RegImage} {s : Imu}
    (h : s.driver.dataReady = 0 ∨ s.prevGyroDrdyTimestamp = 0) :
    imuGetLatest image s = (none, { s with prevGyroDrdyTimestamp := s.driver.dataReady }) :=
  if_pos h

end Imu

end FC

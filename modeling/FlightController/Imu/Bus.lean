import FlightController.Schemes.Run
import Mathlib.Data.UInt
import Mathlib.Logic.Function.Basic

/-! The IMU on its SPI bus, with the code of `setup` of `src/imu/lsm6dsox.c`. The driver pulls the
    chip select low, sends a register address with the read bit set or clear, transfers the data
    bytes, and lets the chip select go. Each of these is a step, and between any two of them the
    sensor may finish its reset or store a new sample.

    What driver and sensor agree on in a transaction is `TxnOk`; the steps keep it, as long as the
    sensor moves on from register to register in a longer read. -/

namespace FC.Bus
open Schemes

/-- The registers that the driver names. -/
inductive Reg where
  | counterBdrReg1 | int1Ctrl | int2Ctrl | whoAmI | ctrl1Xl | ctrl2G | ctrl3C | ctrl4C | ctrl6C
  | ctrl8Xl | ctrl9Xl | outxLG
  deriving DecidableEq, Repr

/-- Their addresses. -/
def Reg.addr : Reg → UInt8
  | .counterBdrReg1 => 0x0b
  | .int1Ctrl => 0x0d
  | .int2Ctrl => 0x0e
  | .whoAmI => 0x0f
  | .ctrl1Xl => 0x10
  | .ctrl2G => 0x11
  | .ctrl3C => 0x12
  | .ctrl4C => 0x13
  | .ctrl6C => 0x15
  | .ctrl8Xl => 0x17
  | .ctrl9Xl => 0x18
  | .outxLG => 0x22

/-! ### The sensor -/

/-- The sensor's end of the bus: not selected, before the address, at a register. -/
inductive Link where
  | high
  | start
  | reading (a : UInt8)
  | writing (a : UInt8)
  deriving DecidableEq, Repr

/-- The sensor: its registers, its end of the bus, and whether a software reset is under way. -/
structure Sensor where
  regs : UInt8 → UInt8
  link : Link
  resetting : Bool

/-- The register after `a` in a longer transfer: `IF_INC` of `CTRL3_C` says whether it moves on. -/
def Sensor.next (s : Sensor) (a : UInt8) : UInt8 :=
  if s.regs Reg.ctrl3C.addr &&& 4 ≠ 0 then a + 1 else a

/-- The address byte: read bit and register. -/
def Link.ofAddress (byte : UInt8) : Link :=
  if byte &&& 0x80 ≠ 0 then .reading (byte &&& 0x7f) else .writing (byte &&& 0x7f)

/-- `spi_xfer`, at the sensor's end; `junk` is what it answers when it has nothing to say. Setting
    `SW_RESET` of `CTRL3_C` starts a reset. -/
def Sensor.xfer (s : Sensor) (byte junk : UInt8) : UInt8 × Sensor :=
  match s.link with
  | .high => (junk, s)
  | .start => (junk, { s with link := .ofAddress byte })
  | .reading a => (s.regs a, { s with link := .reading (s.next a) })
  | .writing a =>
    (junk,
      { regs := Function.update s.regs a byte
        link := .writing (s.next a)
        resetting := s.resetting || (a == Reg.ctrl3C.addr && byte &&& 1 != 0) })

/-- The registers that the sensor itself changes: the status, the temperature, the samples. -/
def IsOutput (a : UInt8) : Prop := 0x1e ≤ a ∧ a < 0x2e

instance (a : UInt8) : Decidable (IsOutput a) := instDecidableAnd

/-- A new sample in its registers. -/
def Sensor.store (s : Sensor) (out : UInt8 → UInt8) : Sensor :=
  { s with regs := fun a => if IsOutput a then out a else s.regs a }

/-! ### The driver -/

/-- A transaction: `lsm6dsox_spi_read`, of which `lsm6dsox_spi_read_byte` is the case of one byte,
    or `lsm6dsox_spi_write_byte`. -/
inductive Txn where
  | read (reg : Reg) (n : ℕ)
  | write (reg : Reg) (data : UInt8)
  deriving DecidableEq, Repr

/-- `1 << k`. -/
def bit (k : UInt8) : UInt8 := 1 <<< k

/-- `SPI_READ_MASK`, `SPI_WRITE_MASK`. -/
def spiReadMask : UInt8 := bit 7
def spiWriteMask : UInt8 := ~~~bit 7

/-- The first byte of a transaction. -/
def Txn.address : Txn → UInt8
  | .read reg _ => reg.addr ||| spiReadMask
  | .write reg _ => reg.addr &&& spiWriteMask

/-- `ODR_1660Hz`, `ACC_FSS`, `GYRO_FSS`. -/
def odr1660Hz : UInt8 := 8
def accFss : UInt8 := 1
def gyroFss : UInt8 := 6

/-- The writes of `gyro_setup`. -/
def gyroSetup (odr fs : UInt8) : List (Reg × UInt8) :=
  [(.ctrl2G, odr <<< 4 ||| fs <<< 1), (.ctrl4C, bit 1), (.ctrl6C, 4)]

/-- The writes of `acc_setup`. -/
def accSetup (odr fs : UInt8) : List (Reg × UInt8) :=
  [(.ctrl1Xl, odr <<< 4 ||| fs <<< 2 ||| bit 1), (.ctrl8Xl, (4 : UInt8) <<< 5 ||| bit 3),
    (.ctrl9Xl, bit 1 ||| 0xe0)]

/-- What `setup` writes once the reset is done. -/
def configuration : List (Reg × UInt8) :=
  gyroSetup odr1660Hz gyroFss ++ accSetup odr1660Hz accFss ++
    [(.counterBdrReg1, bit 7), (.int1Ctrl, bit 1), (.int2Ctrl, bit 0)]

/-- Where `setup` stands: checking the id, resetting, waiting for the end of the reset, configuring
    (the write at hand and those to come), in `fetch_raw_data`. Then it has returned, or it is in
    `error` for ever. Later calls of `fetch_raw_data` go through the same place. -/
inductive Phase where
  | whoAmI
  | reset
  | poll
  | config (now : Reg × UInt8) (todo : List (Reg × UInt8))
  | fetch
  | ready
  | failed
  deriving DecidableEq, Repr

/-- `LSM6DSOX_WHOAMI_ID`. -/
def lsm6dsoxWhoamiId : UInt8 := 0x6c

/-- The transaction at each place. -/
def Phase.txn : Phase → Option Txn
  | .whoAmI => some (.read .whoAmI 1)
  | .reset => some (.write .ctrl3C (1 ||| 4))
  | .poll => some (.read .ctrl3C 1)
  | .config now _ => some (.write now.1 now.2)
  | .fetch => some (.read .outxLG 12)
  | .ready | .failed => none

/-- The next write, or what comes after them. -/
def configure : List (Reg × UInt8) → Phase
  | [] => .fetch
  | now :: todo => .config now todo

/-- The place after a transaction that has read the bytes `dst`. -/
def Phase.after (dst : List UInt8) : Phase → Phase
  | .whoAmI => if dst.headD 0 ≠ lsm6dsoxWhoamiId then .failed else .reset
  | .reset => .poll
  | .poll => if dst.headD 0 &&& 1 ≠ 0 then .poll else configure configuration
  | .config _ todo => configure todo
  | .fetch => .ready
  | .ready => .ready
  | .failed => .failed

/-- Where a transaction stands: before the chip select goes low, before the address, in the loop
    over the data bytes, before the chip select goes high. -/
inductive Pc where
  | select
  | address
  | data (i : ℕ)
  | deselect
  deriving DecidableEq, Repr

/-- The bytes that a call of `fetch_raw_data` has read. History: the registers at its start, and
    whether a new sample came in between. -/
structure Burst where
  bytes : List UInt8
  seen : UInt8 → UInt8
  torn : Bool

/-- The sensor and the driver; `dst` is the buffer of the transaction. The last three fields are
    history: the registers when the transaction started, whether a sample has been stored since, and
    the bursts read so far. -/
structure St where
  sensor : Sensor
  phase : Phase
  pc : Pc
  dst : List UInt8
  seen : UInt8 → UInt8
  torn : Bool
  bursts : List Burst

/-- The driver takes its next step, the sensor finishes its reset or stores a sample, the program
    calls `fetch_raw_data`. -/
inductive Act where
  | cpu (junk : UInt8)
  | resetDone
  | sample (out : UInt8 → UInt8)
  | fetch

/-- A turn of the driver. -/
def Act.isCpu : Act → Bool
  | .cpu _ => true
  | .resetDone | .sample _ | .fetch => false

/-- The next step of the transaction `t`. -/
def txnStep (s : St) (t : Txn) (junk : UInt8) : St :=
  match s.pc with
  | .select =>
    { s with
      sensor := { s.sensor with link := .start }
      pc := .address, dst := [], seen := s.sensor.regs, torn := false }
  | .address => { s with sensor := (s.sensor.xfer t.address junk).2, pc := .data 0 }
  | .data i =>
    match t with
    | .read _ n =>
      if i < n then
        let r := s.sensor.xfer 0 junk
        { s with sensor := r.2, dst := s.dst ++ [r.1], pc := .data (i + 1) }
      else { s with pc := .deselect }
    | .write _ data => { s with sensor := (s.sensor.xfer data junk).2, pc := .deselect }
  | .deselect =>
    { s with
      sensor := { s.sensor with link := .high }
      phase := s.phase.after s.dst
      pc := .select
      bursts := if s.phase = .fetch then s.bursts ++ [⟨s.dst, s.seen, s.torn⟩] else s.bursts }

variable (defaults : UInt8 → UInt8)

def step (s : St) : Act → St
  | .cpu junk =>
    match s.phase.txn with
    | some t => txnStep s t junk
    | none => s
  | .resetDone =>
    if s.sensor.resetting then
      { s with sensor := { s.sensor with regs := defaults, resetting := false } }
    else s
  | .sample out => { s with sensor := s.sensor.store out, torn := true }
  | .fetch => if s.phase = .ready then { s with phase := .fetch } else s

/-- Before `setup`, with any values in the registers. -/
def init (regs : UInt8 → UInt8) : St :=
  ⟨⟨regs, .high, false⟩, .whoAmI, .select, [], regs, false, []⟩

/-- The state after a list of actions. -/
def exec (regs : UInt8 → UInt8) (acts : List Act) : St := run (step defaults) (init regs) acts

/-! ### The bus -/

/-- The register at which the address byte of a transaction should leave the sensor. -/
def Txn.link : Txn → Link
  | .read reg _ => .reading reg.addr
  | .write reg _ => .writing reg.addr

theorem ofAddress_read (reg : Reg) :
    Link.ofAddress (reg.addr ||| spiReadMask) = .reading reg.addr := by
  cases reg <;> decide

theorem ofAddress_write (reg : Reg) :
    Link.ofAddress (reg.addr &&& spiWriteMask) = .writing reg.addr := by
  cases reg <;> decide

theorem ofAddress_address (t : Txn) : Link.ofAddress t.address = t.link := by
  cases t with
  | read reg n => exact ofAddress_read reg
  | write reg data => exact ofAddress_write reg

theorem xfer_address {s : Sensor} (h : s.link = .start) (t : Txn) (junk : UInt8) :
    (s.xfer t.address junk).2 = { s with link := t.link } := by
  simp only [Sensor.xfer, h, ofAddress_address]

/-- Where driver and sensor stand together in a transaction. -/
def TxnOk (t : Txn) (link : Link) (dst : List UInt8) : Pc → Prop
  | .select => link = .high
  | .address => link = .start ∧ dst = []
  | .data i =>
    match t with
    | .read reg n => i ≤ n ∧ dst.length = i ∧ (i < n → link = .reading (reg.addr + UInt8.ofNat i))
    | .write reg _ => i = 0 ∧ link = .writing reg.addr
  | .deselect =>
    match t with
    | .read _ n => dst.length = n
    | .write _ _ => True

theorem xfer_reading {s : Sensor} {a : UInt8} (h : s.link = .reading a) (byte junk : UInt8) :
    s.xfer byte junk = (s.regs a, { s with link := .reading (s.next a) }) := by
  simp only [Sensor.xfer, h]

theorem xfer_writing {s : Sensor} {a : UInt8} (h : s.link = .writing a) (byte junk : UInt8) :
    s.xfer byte junk = (junk,
      { regs := Function.update s.regs a byte
        link := .writing (s.next a)
        resetting := s.resetting || (a == Reg.ctrl3C.addr && byte &&& 1 != 0) }) := by
  simp only [Sensor.xfer, h]

variable {s : St} {t : Txn}

/-- A step of a transaction, up to the one that ends it. A longer read needs the increment. -/
theorem txnOk_step (h : TxnOk t s.sensor.link s.dst s.pc) (hpc : s.pc ≠ .deselect)
    (hinc : ∀ reg n, t = .read reg n → 1 < n → s.sensor.regs Reg.ctrl3C.addr &&& 4 ≠ 0)
    (junk : UInt8) :
    TxnOk t (txnStep s t junk).sensor.link (txnStep s t junk).dst (txnStep s t junk).pc := by
  cases hat : s.pc with
  | deselect => exact absurd hat hpc
  | select =>
    simp only [txnStep, hat]
    exact ⟨rfl, rfl⟩
  | address =>
    rw [hat] at h
    simp only [txnStep, hat, xfer_address h.1]
    cases t with
    | read reg n => exact ⟨Nat.zero_le n, by simp [h.2], fun _ => by simp [Txn.link]⟩
    | write reg data => exact ⟨rfl, rfl⟩
  | data i =>
    rw [hat] at h
    cases t with
    | write reg data =>
      simp only [txnStep, hat]
      trivial
    | read reg n =>
      obtain ⟨hle, hlen, hlink⟩ := h
      rcases Nat.lt_or_ge i n with hlt | hge
      · simp only [txnStep, hat, if_pos hlt, xfer_reading (hlink hlt)]
        refine ⟨hlt, by rw [List.length_append, hlen]; rfl, fun hmore => ?_⟩
        -- there is another byte to come, so the sensor has moved on to its register
        have hon := hinc reg n rfl (by omega)
        rw [Sensor.next, if_pos hon, UInt8.ofNat_add, ← UInt8.add_assoc]
        rfl
      · simp only [txnStep, hat, if_neg (Nat.not_lt.mpr hge)]
        exact hlen.trans (Nat.le_antisymm hle hge)

/-- Before its last step a transaction does not touch the registers, but for the write. -/
theorem txnStep_frame (h : TxnOk t s.sensor.link s.dst s.pc)
    (hread : ∀ i reg data, s.pc = .data i → t ≠ .write reg data) (junk : UInt8) :
    (txnStep s t junk).sensor.regs = s.sensor.regs ∧
      (txnStep s t junk).sensor.resetting = s.sensor.resetting := by
  cases hat : s.pc with
  | select | deselect => simp only [txnStep, hat, and_self]
  | address =>
    rw [hat] at h
    simp only [txnStep, hat, xfer_address h.1, and_self]
  | data i =>
    rw [hat] at h
    cases t with
    | write reg data => exact absurd rfl (hread i reg data hat)
    | read reg n =>
      rcases Nat.lt_or_ge i n with hlt | hge
      · simp only [txnStep, hat, if_pos hlt, xfer_reading (h.2.2 hlt), and_self]
      · simp only [txnStep, hat, if_neg (Nat.not_lt.mpr hge), and_self]

/-- A transaction of one byte has read it. -/
def Pc.HasRead (pc : Pc) : Prop := pc = .deselect ∨ pc = .data 1

instance (pc : Pc) : Decidable pc.HasRead := instDecidableOr

theorem not_hasRead_select : ¬ Pc.HasRead .select := by decide

/-- That byte is the register's, from now or from before. -/
theorem read_one {reg : Reg} (hok : TxnOk (.read reg 1) s.sensor.link s.dst s.pc)
    (hpc : s.pc ≠ .deselect) (junk : UInt8) (hread : (txnStep s (.read reg 1) junk).pc.HasRead) :
    (txnStep s (.read reg 1) junk).dst = [s.sensor.regs reg.addr] ∨
      s.pc.HasRead ∧ (txnStep s (.read reg 1) junk).dst = s.dst := by
  cases hat : s.pc with
  | deselect => exact absurd hat hpc
  | select | address => simp [txnStep, hat, Pc.HasRead] at hread
  | data i =>
    rw [hat] at hok
    obtain ⟨hle, hlen, hlink⟩ := hok
    rcases Nat.lt_or_ge i 1 with hlt | hge
    · obtain rfl : i = 0 := by omega
      have hnil : s.dst = [] := List.length_eq_zero_iff.mp hlen
      simp [txnStep, hat, xfer_reading (hlink hlt), hnil]
    · obtain rfl : i = 1 := by omega
      exact Or.inr ⟨Or.inr rfl, by simp [txnStep, hat]⟩

/-- The driver's steps to the end of a transaction. -/
def stepsLeft : Txn → Pc → ℕ
  | .read _ n, .select => n + 4
  | .read _ n, .address => n + 3
  | .read _ n, .data i => n - i + 2
  | .write _ _, .select => 4
  | .write _ _, .address => 3
  | .write _ _, .data _ => 2
  | _, .deselect => 1

theorem stepsLeft_pos (t : Txn) (pc : Pc) : 0 < stepsLeft t pc := by
  cases t <;> cases pc <;> simp [stepsLeft]

theorem stepsLeft_read_le (reg : Reg) (n : ℕ) (pc : Pc) : stepsLeft (.read reg n) pc ≤ n + 4 := by
  cases pc <;> simp only [stepsLeft] <;> omega

theorem stepsLeft_write_le (reg : Reg) (data : UInt8) (pc : Pc) :
    stepsLeft (.write reg data) pc ≤ 4 := by
  cases pc <;> simp [stepsLeft]

theorem stepsLeft_step (hpc : s.pc ≠ .deselect) (junk : UInt8) :
    stepsLeft t (txnStep s t junk).pc < stepsLeft t s.pc := by
  cases hat : s.pc with
  | deselect => exact absurd hat hpc
  | select | address => cases t <;> simp [txnStep, hat, stepsLeft]
  | data i =>
    cases t with
    | write reg data => simp [txnStep, hat, stepsLeft]
    | read reg n =>
      rcases Nat.lt_or_ge i n with hlt | hge
      · simp only [txnStep, hat, if_pos hlt, stepsLeft]
        omega
      · simp only [txnStep, hat, if_neg (Nat.not_lt.mpr hge), stepsLeft]
        omega

end FC.Bus

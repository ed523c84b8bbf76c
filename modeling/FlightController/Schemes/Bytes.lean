import Mathlib.Data.UInt
import Mathlib.Tactic.Ring

/-! Little-endian bytes: `leBytes k n` is the `k`-byte image of `n` as a C compiler lays it out on a
    little-endian machine, `ofLe` reads a byte list back. Reading inverts writing up to the width,
    writing inverts reading exactly. -/

namespace Schemes.Bytes

/-- The `k` low bytes of `n`, least significant first. -/
def leBytes : ℕ → ℕ → List UInt8
  | 0, _ => []
  | k + 1, n => UInt8.ofNat n :: leBytes k (n / 256)

/-- The number a byte list spells, least significant byte first. -/
def ofLe : List UInt8 → ℕ
  | [] => 0
  | b :: bs => b.toNat + 256 * ofLe bs

@[simp] theorem length_leBytes (k n : ℕ) : (leBytes k n).length = k := by
  induction k generalizing n with
  | zero => rfl
  | succ k ih => rw [leBytes, List.length_cons, ih]

theorem ofLe_lt (bs : List UInt8) : ofLe bs < 256 ^ bs.length := by
  induction bs with
  | nil => simp [ofLe]
  | cons b bs ih =>
    have hb : b.toNat < 256 := b.toNat_lt
    rw [ofLe, List.length_cons, pow_succ]; omega

/-- Reading back `k` written bytes gives the number mod `256 ^ k`. -/
theorem ofLe_leBytes : ∀ k n : ℕ, ofLe (leBytes k n) = n % 256 ^ k
  | 0, n => by simp [leBytes, ofLe, Nat.mod_one]
  | k + 1, n => by
    have hsplit : n % 256 ^ (k + 1) = n % 256 + 256 * (n / 256 % 256 ^ k) := by
      rw [pow_succ', Nat.mod_mul]
    rw [leBytes, ofLe, ofLe_leBytes k, UInt8.toNat_ofNat', hsplit]

theorem ofLe_leBytes_of_lt {k n : ℕ} (h : n < 256 ^ k) : ofLe (leBytes k n) = n := by
  rw [ofLe_leBytes, Nat.mod_eq_of_lt h]

theorem ofLe_leBytes_u16 (v : UInt16) : ofLe (leBytes 2 v.toNat) = v.toNat :=
  ofLe_leBytes_of_lt (k := 2) v.toNat_lt

theorem ofLe_leBytes_u32 (v : UInt32) : ofLe (leBytes 4 v.toNat) = v.toNat :=
  ofLe_leBytes_of_lt (k := 4) v.toNat_lt

/-- Writing back what was read gives the same bytes. -/
theorem leBytes_ofLe : ∀ bs : List UInt8, leBytes bs.length (ofLe bs) = bs
  | [] => rfl
  | b :: bs => by
    have hb : b.toNat < 256 := b.toNat_lt
    have hlow : UInt8.ofNat (b.toNat + 256 * ofLe bs) = b := by
      rw [← UInt8.toNat_inj, UInt8.toNat_ofNat']; omega
    have hhigh : (b.toNat + 256 * ofLe bs) / 256 = ofLe bs := by omega
    rw [List.length_cons, ofLe, leBytes, hlow, hhigh, leBytes_ofLe bs]

/-- Byte lists of one length spell different numbers. -/
theorem ofLe_inj {as bs : List UInt8} (hlen : as.length = bs.length) (h : ofLe as = ofLe bs) :
    as = bs := by
  rw [← leBytes_ofLe as, ← leBytes_ofLe bs, hlen, h]

/-- The C idiom `lo | hi << 8` spells the two bytes. -/
theorem lo_or_hi_toNat (lo hi : UInt8) :
    (lo.toUInt16 ||| hi.toUInt16 <<< 8).toNat = ofLe [lo, hi] := by
  have hlo : lo.toNat < 2 ^ 8 := lo.toNat_lt
  have hhi : hi.toNat < 2 ^ 8 := hi.toNat_lt
  have hshift : (hi.toUInt16 <<< 8).toNat = 2 ^ 8 * hi.toNat := by
    rw [UInt16.toNat_shiftLeft, UInt8.toNat_toUInt16, Nat.shiftLeft_eq,
      show (8 : UInt16).toNat % 16 = 8 from rfl, Nat.mod_eq_of_lt (by omega), Nat.mul_comm]
  rw [UInt16.toNat_or, hshift, UInt8.toNat_toUInt16, Nat.or_comm,
    ← Nat.two_pow_add_eq_or_of_lt hlo]
  simp only [ofLe]; omega

/-- Sum of the bytes, as plain numbers. -/
def byteSum (bs : List UInt8) : ℕ := (bs.map UInt8.toNat).sum

@[simp] theorem byteSum_nil : byteSum [] = 0 := rfl

@[simp] theorem byteSum_cons (b : UInt8) (bs : List UInt8) :
    byteSum (b :: bs) = b.toNat + byteSum bs := rfl

theorem byteSum_append (as bs : List UInt8) : byteSum (as ++ bs) = byteSum as + byteSum bs := by
  simp [byteSum]

theorem byteSum_le (bs : List UInt8) : byteSum bs ≤ 255 * bs.length := by
  induction bs with
  | nil => simp
  | cons b bs ih =>
    have hb : b.toNat < 256 := b.toNat_lt
    rw [byteSum_cons, List.length_cons]; omega

/-- Replacing a byte changes the sum by the difference. -/
theorem byteSum_set (b : UInt8) : ∀ (bs : List UInt8) (i : ℕ) (h : i < bs.length),
    byteSum (bs.set i b) + bs[i].toNat = byteSum bs + b.toNat
  | c :: cs, 0, _ => by
    rw [List.set_cons_zero, List.getElem_cons_zero, byteSum_cons, byteSum_cons]; omega
  | c :: cs, i + 1, h => by
    have ih := byteSum_set b cs i (by simpa using h)
    rw [List.set_cons_succ, List.getElem_cons_succ, byteSum_cons, byteSum_cons]; omega

end Schemes.Bytes

import Mathlib.Algebra.BigOperators.Group.List.Basic
import Mathlib.Algebra.Field.Basic
import Mathlib.Algebra.CharZero.Defs
import Mathlib.Tactic.Ring
import Mathlib.Tactic.FieldSimp

/-! The mean of a list. What is taken off every entry is taken off the mean. -/

namespace Schemes

variable {K α : Type*} [Field K]

def mean (l : List K) : K := l.sum / l.length

theorem sum_map_sub_const (l : List K) (c : K) :
    (l.map (· - c)).sum = l.sum - l.length * c := by
  induction l with
  | nil => simp
  | cons x l ih =>
    rw [List.map_cons, List.sum_cons, ih, List.sum_cons, List.length_cons]
    push_cast
    ring

theorem mean_map_sub_const [CharZero K] {l : List K} (h : l ≠ []) (c : K) :
    mean (l.map (· - c)) = mean l - c := by
  have hlength : (l.length : K) ≠ 0 := Nat.cast_ne_zero.mpr (mt List.length_eq_zero_iff.mp h)
  rw [mean, mean, List.length_map, sum_map_sub_const]
  field_simp

end Schemes

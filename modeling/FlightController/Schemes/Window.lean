import Mathlib.Data.List.DropRight

/-! A buffer of bounded length that drops its oldest element for each one too many shows a *window*:
    the last `m` of all that was ever appended (`List.rtake m`). Each append shifts the window by
    one (`push_rtake`), so buffers that were appended to equally often are aligned, whatever they
    have dropped. -/

namespace Schemes.Window

variable {α β : Type*}

/-- Append to a buffer of at most `m` elements. -/
def push (m : ℕ) (buf : List α) (x : α) : List α :=
  if buf.length < m then buf ++ [x] else (buf ++ [x]).drop 1

theorem length_rtake (m : ℕ) (xs : List α) : (xs.rtake m).length = min m xs.length := by
  rw [List.rtake, List.length_drop]
  omega

/-- An append shifts the window. -/
theorem push_rtake (m : ℕ) (xs : List α) (x : α) : push m (xs.rtake m) x = (xs ++ [x]).rtake m := by
  rw [push, length_rtake]
  rcases Nat.lt_or_ge xs.length m with hshort | hfull
  · -- nothing has been dropped yet
    rw [if_pos (by omega), List.rtake, List.rtake, Nat.sub_eq_zero_of_le hshort.le,
      List.length_append, List.length_singleton, Nat.sub_eq_zero_of_le hshort]
    rfl
  · rw [if_neg (by omega), List.rtake, List.rtake, ← List.drop_append_of_le_length (by omega),
      List.drop_drop, List.length_append, List.length_singleton, Nat.sub_add_comm hfull,
      Nat.add_comm]

theorem map_push (f : α → β) (m : ℕ) (buf : List α) (x : α) :
    (push m buf x).map f = push m (buf.map f) (f x) := by
  rw [push, push, List.length_map]
  split <;> simp

end Schemes.Window

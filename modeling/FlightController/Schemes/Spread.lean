import Mathlib.Algebra.Order.Group.Unbundled.Abs
import Mathlib.Algebra.Order.Ring.Abs
import Mathlib.Tactic.Linarith

/-! A monotone function on two points `t + d` and `t - d` around a centre. Its sum over the pair
    depends on the distance, but a higher centre makes up for that, as far as the distances differ
    by no more than the centres do (`spread_le_spread_add`).

    A function that limits its argument to `lo..hi` keeps the sum between that of the limits and
    that of the points, whatever the distance (`spread_le_max`, `min_sub_lt_spread`). -/

namespace Schemes

variable {α β : Type*} [CommRing α] [LinearOrder α] [AddCommMonoid β]

/-- The sum of `f` over the points at distance `d` from `t`. -/
def spread (f : α → β) (t d : α) : β := f (t + d) + f (t - d)

theorem spread_abs (f : α → β) (t d : α) : spread f t |d| = spread f t d := by
  rcases abs_choice d with h | h
  · rw [h]
  · rw [h, spread, spread, ← sub_eq_add_neg, sub_neg_eq_add, add_comm]

variable [IsStrictOrderedRing α]

/-- Let `f` gain at most `b` on a distance of `w`. With the higher centre, it loses at most `b` over
    the pair where the distances differ by up to `w` more than the centres do. -/
theorem spread_le_spread_add [PartialOrder β] [IsOrderedAddMonoid β] {f : α → β} (hf : Monotone f)
    {s t d e w : α} {b : β} (hw : ∀ x y, x ≤ y + w → f x ≤ f y + b) (hst : s ≤ t)
    (h : |(|d| - |e|)| ≤ t - s + w) : spread f s d ≤ spread f t e + b := by
  obtain ⟨hlow, hhigh⟩ := abs_le.mp h
  rw [← spread_abs f s, ← spread_abs f t, spread, spread]
  -- only the point on the side of the larger distance can lose
  rcases le_total |d| |e| with hde | hde
  · have hup : s + |d| ≤ t + |e| := by linarith
    have hdown : s - |d| ≤ t - |e| + w := by linarith
    rw [add_assoc]
    exact add_le_add (hf hup) (hw _ _ hdown)
  · have hup : s + |d| ≤ t + |e| + w := by linarith
    have hdown : s - |d| ≤ t - |e| := by linarith
    rw [add_right_comm]
    exact add_le_add (hw _ _ hup) (hf hdown)

/-- A limiter: the larger point gives at most `hi`, the smaller one at least counts as `lo`; with
    both above `lo` the distance cancels. -/
theorem spread_le_max {f : α → α} {lo hi : α} (hhi : ∀ x, f x ≤ hi) (hlow : ∀ x ≤ lo, f x ≤ lo)
    (hid : ∀ x, lo ≤ x → f x ≤ x) (t d : α) : spread f t d ≤ max (lo + hi) (2 * t) := by
  rw [← spread_abs, spread]
  have hd : 0 ≤ |d| := abs_nonneg d
  rcases le_total lo (t - |d|) with hfree | hlimited
  · have hup : f (t + |d|) ≤ t + |d| := hid _ (by linarith)
    have hdown : f (t - |d|) ≤ t - |d| := hid _ hfree
    exact le_max_of_le_right (by linarith)
  · have hup : f (t + |d|) ≤ hi := hhi _
    have hdown : f (t - |d|) ≤ lo := hlow _ hlimited
    exact le_max_of_le_left (by linarith)

/-- The same from below, for a limiter that loses less than `ε` by rounding. -/
theorem min_sub_lt_spread {f : α → α} {lo hi ε : α} (hε : 0 < ε) (hlo : ∀ x, lo ≤ f x)
    (hhigh : ∀ x, hi ≤ x → hi ≤ f x) (hid : ∀ x ≤ hi, x - ε < f x) (t d : α) :
    min (lo + hi) (2 * t) - 2 * ε < spread f t d := by
  rw [← spread_abs, spread]
  have hd : 0 ≤ |d| := abs_nonneg d
  rcases le_total (t + |d|) hi with hfree | hlimited
  · have hup : t + |d| - ε < f (t + |d|) := hid _ hfree
    have hdown : t - |d| - ε < f (t - |d|) := hid _ (by linarith)
    have hmin : min (lo + hi) (2 * t) ≤ 2 * t := min_le_right _ _
    linarith
  · have hup : hi ≤ f (t + |d|) := hhigh _ hlimited
    have hdown : lo ≤ f (t - |d|) := hlo _
    have hmin : min (lo + hi) (2 * t) ≤ lo + hi := min_le_left _ _
    linarith

/-- Sum and difference of two numbers differ in size by at most twice the smaller one. -/
theorem abs_abs_add_sub_abs_sub_le (a b : α) : |(|a + b| - |a - b|)| ≤ 2 * min |a| |b| := by
  have hb : |(|a + b| - |a - b|)| ≤ 2 * |b| := by
    calc |(|a + b| - |a - b|)| ≤ |a + b - (a - b)| := abs_abs_sub_abs_le_abs_sub _ _
      _ = 2 * |b| := by rw [add_sub_sub_cancel, ← two_mul, abs_mul, abs_two]
  have ha : |(|a + b| - |a - b|)| ≤ 2 * |a| := by
    calc |(|a + b| - |a - b|)| = |(|a + b| - |b - a|)| := by rw [abs_sub_comm a b]
      _ ≤ |a + b - (b - a)| := abs_abs_sub_abs_le_abs_sub _ _
      _ = 2 * |a| := by
        rw [add_comm a b, add_sub_sub_cancel, ← two_mul, abs_mul, abs_two]
  rcases min_choice |a| |b| with h | h <;> rw [h]
  · exact ha
  · exact hb

end Schemes

import FlightController.Schemes.Run
import Mathlib.Algebra.Order.Field.Basic
import Mathlib.Tactic.Linarith
import Mathlib.Tactic.LinearCombination
import Mathlib.Tactic.Ring

/-! A first-order filter. Every update moves the value by an increment, and then blends it with a
    reference, with a weight below 1 for the value. What the value was at the start fades
    geometrically (`run_blend_sub`), what is added to the inputs comes out added to the value
    (`run_blend_add`), and bounded increments and references keep it bounded
    (`abs_run_blend_le`): the bound is the fixed point of the recursion, in which the weight
    multiplies the increment too.

    A value that the filter should follow can be taken off everything: the distance from it is
    filtered likewise, from what the increments and references get wrong (`run_blend_sub_path`). So
    it fades to within the bound for those (`abs_run_blend_fade`). -/

namespace Schemes

variable {K : Type*} [Field K]

/-- The value `x`, moved by the increment `u.1` and blended with the reference `u.2`. -/
def blend (w : K) (x : K) (u : K × K) : K := (x + u.1) * w + u.2 * (1 - w)

theorem blend_sub_blend (w x y : K) (u : K × K) : blend w x u - blend w y u = w * (x - y) := by
  rw [blend, blend]; ring

/-- The difference of two starts fades by the weight with every update. -/
theorem run_blend_sub (w x y : K) (us : List (K × K)) :
    run (blend w) x us - run (blend w) y us = w ^ us.length * (x - y) := by
  induction us generalizing x y with
  | nil => simp
  | cons u us ih =>
    rw [run_cons, run_cons, ih, blend_sub_blend, List.length_cons, pow_succ, mul_assoc]

theorem blend_add (w x y : K) (u v : K × K) :
    blend w (x + y) (u + v) = blend w x u + blend w y v := by
  simp only [blend, Prod.fst_add, Prod.snd_add]; ring

/-- The filter is linear: two runs on inputs of one length add up. -/
theorem run_blend_add (w : K) {us vs : List (K × K)} (hlen : us.length = vs.length) (x y : K) :
    run (blend w) (x + y) (List.zipWith (· + ·) us vs) =
      run (blend w) x us + run (blend w) y vs := by
  induction us generalizing vs x y with
  | nil =>
    have hnil : vs = [] := List.eq_nil_of_length_eq_zero hlen.symm
    rw [hnil]; rfl
  | cons u us ih =>
    obtain ⟨v, vs, rfl⟩ := List.exists_cons_of_length_eq_add_one hlen.symm
    rw [List.zipWith_cons_cons, run_cons, run_cons, run_cons, blend_add]
    exact ih (by simpa using hlen) _ _

/-- A constant increment with nothing to hold against it. -/
theorem run_blend_const (w b : K) (n : ℕ) :
    (1 - w) * run (blend w) 0 (List.replicate n (b, 0)) = w * b * (1 - w ^ n) := by
  induction n with
  | zero => simp
  | succ n ih =>
    rw [List.replicate_succ', run_concat, blend, pow_succ]
    linear_combination w * ih

/-- What the inputs `us` get wrong about a value that takes the given course from `y` on: its
    moves, and where it is. -/
def deviations (y : K) : List (K × K) → List K → List (K × K)
  | u :: us, z :: zs => (u.1 - (z - y), u.2 - z) :: deviations z us zs
  | _, _ => []

theorem length_deviations (y : K) {us : List (K × K)} {zs : List K}
    (hlen : us.length = zs.length) : (deviations y us zs).length = us.length := by
  induction us generalizing y zs with
  | nil => rfl
  | cons u us ih =>
    obtain ⟨z, zs, rfl⟩ := List.exists_cons_of_length_eq_add_one hlen.symm
    rw [deviations, List.length_cons, List.length_cons, ih z (by simpa using hlen)]

/-- The distance from a value that moves from `y` to `z`. -/
theorem blend_sub_move (w x y z : K) (u : K × K) :
    blend w x u - z = blend w (x - y) (u.1 - (z - y), u.2 - z) := by
  simp only [blend]; ring

/-- The distance from a value that moves is a filter of the deviations. -/
theorem run_blend_sub_path (w : K) {us : List (K × K)} {zs : List K}
    (hlen : us.length = zs.length) (x y : K) :
    run (blend w) x us - zs.getLastD y = run (blend w) (x - y) (deviations y us zs) := by
  induction us generalizing zs x y with
  | nil =>
    rw [List.eq_nil_of_length_eq_zero hlen.symm]
    rfl
  | cons u us ih =>
    obtain ⟨z, zs, rfl⟩ := List.exists_cons_of_length_eq_add_one hlen.symm
    rw [run_cons, List.getLastD_cons, ih (by simpa using hlen), deviations, run_cons,
      blend_sub_move w x y z u]

variable [LinearOrder K] [IsStrictOrderedRing K] {w : K}

/-- A bound that the fixed point does not exceed is kept by every update. -/
theorem abs_blend_le (hw : 0 ≤ w) (hw' : w ≤ 1) {x a b m : K} {u : K × K} (hx : |x| ≤ m)
    (hb : |u.1| ≤ b) (ha : |u.2| ≤ a) (hm : w * b + (1 - w) * a ≤ (1 - w) * m) :
    |blend w x u| ≤ m := by
  have hrest : 0 ≤ 1 - w := sub_nonneg.mpr hw'
  calc |blend w x u| ≤ |(x + u.1) * w| + |u.2 * (1 - w)| := abs_add_le _ _
    _ = |x + u.1| * w + |u.2| * (1 - w) := by rw [abs_mul, abs_mul, abs_of_nonneg hw,
        abs_of_nonneg hrest]
    _ ≤ (m + b) * w + a * (1 - w) := by
        have hmove : |x + u.1| ≤ m + b := le_trans (abs_add_le _ _) (add_le_add hx hb)
        exact add_le_add (mul_le_mul_of_nonneg_right hmove hw)
          (mul_le_mul_of_nonneg_right ha hrest)
    _ ≤ m := by linarith

/-- Throughout a run the value stays within its start and the fixed point. -/
theorem abs_run_blend_le (hw : 0 ≤ w) (hw' : w ≤ 1) {a b m : K}
    (hm : w * b + (1 - w) * a ≤ (1 - w) * m) (us : List (K × K)) {x : K} (hx : |x| ≤ m)
    (hus : ∀ u ∈ us, |u.1| ≤ b ∧ |u.2| ≤ a) : |run (blend w) x us| ≤ m := by
  induction us generalizing x with
  | nil => exact hx
  | cons u us ih =>
    obtain ⟨hb, ha⟩ := hus u (List.mem_cons_self ..)
    exact ih (abs_blend_le hw hw' hx hb ha hm) fun v hv => hus v (List.mem_cons_of_mem u hv)

/-- And whatever the start, an update brings it nearer to the fixed point. -/
theorem abs_blend_fade (hw : 0 ≤ w) (hw' : w ≤ 1) {a b m : K}
    (hm : w * b + (1 - w) * a ≤ (1 - w) * m) (x : K) {u : K × K} (hb : |u.1| ≤ b)
    (ha : |u.2| ≤ a) : |blend w x u| ≤ w * |x| + (1 - w) * m := by
  have hrest : 0 ≤ 1 - w := sub_nonneg.mpr hw'
  calc |blend w x u| ≤ |(x + u.1) * w| + |u.2 * (1 - w)| := abs_add_le _ _
    _ = |x + u.1| * w + |u.2| * (1 - w) := by rw [abs_mul, abs_mul, abs_of_nonneg hw,
        abs_of_nonneg hrest]
    _ ≤ (|x| + b) * w + a * (1 - w) := by
        have hmove : |x + u.1| ≤ |x| + b := le_trans (abs_add_le _ _) (by linarith)
        exact add_le_add (mul_le_mul_of_nonneg_right hmove hw)
          (mul_le_mul_of_nonneg_right ha hrest)
    _ ≤ w * |x| + (1 - w) * m := by linarith

/-- So it fades to within the fixed point. -/
theorem abs_run_blend_fade (hw : 0 ≤ w) (hw' : w ≤ 1) {a b m : K}
    (hm : w * b + (1 - w) * a ≤ (1 - w) * m) (us : List (K × K)) (x : K)
    (hus : ∀ u ∈ us, |u.1| ≤ b ∧ |u.2| ≤ a) :
    |run (blend w) x us| ≤ w ^ us.length * |x| + (1 - w ^ us.length) * m := by
  induction us generalizing x with
  | nil => simp
  | cons u us ih =>
    obtain ⟨hb, ha⟩ := hus u (List.mem_cons_self ..)
    have hstep := abs_blend_fade hw hw' hm x hb ha
    have hpow : 0 ≤ w ^ us.length := pow_nonneg hw _
    calc |run (blend w) (blend w x u) us|
        ≤ w ^ us.length * |blend w x u| + (1 - w ^ us.length) * m :=
          ih _ fun v hv => hus v (List.mem_cons_of_mem u hv)
      _ ≤ w ^ us.length * (w * |x| + (1 - w) * m) + (1 - w ^ us.length) * m :=
          add_le_add_left (mul_le_mul_of_nonneg_left hstep hpow) _
      _ = w ^ (us.length + 1) * |x| + (1 - w ^ (us.length + 1)) * m := by ring

end Schemes

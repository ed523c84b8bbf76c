import Mathlib.Algebra.BigOperators.Group.List.Basic
import Mathlib.Algebra.Group.Basic
import Mathlib.Data.List.Chain

/-! Increments that should add up to a distance. Every entry of a history has a position and an
    increment, latest entry first. The increments *telescope* when, between any two entries, they
    sum up to the distance of the two positions. That is the case exactly when each increment is
    the distance to the entry right before. -/

namespace Schemes

variable {β G : Type*} [AddCommGroup G] (pos inc : β → G)

/-- From any entry `a` to any later entry `b` the increments sum up to the distance. -/
def Telescopes (l : List β) : Prop :=
  ∀ post b mid a pre, l = post ++ b :: (mid ++ a :: pre) →
    inc b + (mid.map inc).sum = pos b - pos a

/-- Each increment is the distance to the entry before. -/
abbrev Adjoining (l : List β) : Prop := l.IsChain fun b a => inc b = pos b - pos a

variable {pos inc}

theorem Telescopes.of_cons {b : β} {l : List β} (h : Telescopes pos inc (b :: l)) :
    Telescopes pos inc l := by
  intro post b' mid a pre hl
  exact h (b :: post) b' mid a pre (by rw [hl, List.cons_append])

/-- Adjoining increments reach back over any number of entries. -/
theorem Adjoining.sum_eq {b a : β} {mid pre : List β}
    (h : Adjoining pos inc (b :: (mid ++ a :: pre))) :
    inc b + (mid.map inc).sum = pos b - pos a := by
  induction mid generalizing b with
  | nil =>
    have hstep : inc b = pos b - pos a := (List.isChain_cons_cons.mp h).1
    rw [List.map_nil, List.sum_nil, add_zero, hstep]
  | cons c mid ih =>
    obtain ⟨hstep, hrest⟩ := List.isChain_cons_cons.mp h
    calc inc b + ((c :: mid).map inc).sum = inc b + (inc c + (mid.map inc).sum) := by
          rw [List.map_cons, List.sum_cons]
      _ = (pos b - pos c) + (pos c - pos a) := by rw [hstep, ih hrest]
      _ = pos b - pos a := sub_add_sub_cancel ..

theorem telescopes_iff_adjoining {l : List β} : Telescopes pos inc l ↔ Adjoining pos inc l := by
  constructor
  · intro h
    induction l with
    | nil => exact List.isChain_nil
    | cons b l ih =>
      cases l with
      | nil => exact List.isChain_singleton b
      | cons a l =>
        have hstep := h [] b [] a l rfl
        rw [List.map_nil, List.sum_nil, add_zero] at hstep
        exact List.isChain_cons_cons.mpr ⟨hstep, ih h.of_cons⟩
  · rintro h post b mid a pre rfl
    exact Adjoining.sum_eq (List.IsChain.right_of_append h)

end Schemes

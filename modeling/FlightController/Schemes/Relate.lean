import FlightController.Schemes.Run
import Mathlib.Data.List.Forall2

/-! Two runs side by side. A relation of the states that related actions keep, related lists of
    actions keep (`rel_run`). The two runs may be of different machines: then this is a simulation.
    With one machine, and a relation that says how the inputs differ, it says how the results do. -/

namespace Schemes

variable {σ α τ β : Type*} (step : σ → α → σ) (step' : τ → β → τ)

/-- What related actions keep, related runs keep. -/
theorem rel_run {R : σ → τ → Prop} {A : α → β → Prop}
    (h : ∀ s t a b, R s t → A a b → R (step s a) (step' t b)) {as : List α} {bs : List β}
    (hA : List.Forall₂ A as bs) {s : σ} {t : τ} (hR : R s t) :
    R (run step s as) (run step' t bs) := by
  induction hA generalizing s t with
  | nil => exact hR
  | cons hab _ ih => exact ih (h _ _ _ _ hR hab)

end Schemes

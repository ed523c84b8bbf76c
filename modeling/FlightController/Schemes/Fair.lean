import FlightController.Schemes.Run
import Mathlib.Order.Filter.AtTopBot.Basic

/-! Schedules without an end, for what a run reaches in time. Every state of a schedule is the state
    after a finite run (`trace_eq_run`), so invariants carry over.

    Progress is a rank. `exists_of_decrease` asks that from each point on the goal is reached or the
    rank gets smaller at some time. `exists_of_helpful` gets that far from one helpful action: it
    comes at some time, it makes progress when it comes, and until then the situation in which it
    does so persists. `exists_of_rank` does both, where there is an action that helps in each
    situation. Where each turn of one party makes progress, counting its turns bounds the time
    (`goal_of_turns`). -/

namespace Schemes

variable {σ α : Type*} (step : σ → α → σ)

/-- The first `n` actions of a schedule. -/
def upTo (as : ℕ → α) (n : ℕ) : List α := (List.range n).map as

theorem upTo_succ (as : ℕ → α) (n : ℕ) : upTo as (n + 1) = upTo as n ++ [as n] := by
  rw [upTo, List.range_succ, List.map_append]; rfl

/-- The state after the first `n` actions. -/
def trace (s : σ) (as : ℕ → α) : ℕ → σ
  | 0 => s
  | n + 1 => step (trace s as n) (as n)

theorem trace_eq_run (s : σ) (as : ℕ → α) (n : ℕ) : trace step s as n = run step s (upTo as n) := by
  induction n with
  | zero => rfl
  | succ n ih => rw [trace, ih, upTo_succ, run_concat]

/-- What every step keeps holds all along a schedule. -/
theorem inv_trace (I : σ → Prop) (hstep : ∀ s a, I s → I (step s a)) {s : σ} (hI : I s)
    (as : ℕ → α) (n : ℕ) : I (trace step s as n) := by
  rw [trace_eq_run]
  exact inv_run step I hstep (upTo as n) hI

/-- What every step that meets the side condition keeps holds all along a schedule of such steps. -/
theorem inv_trace_along {P : σ → α → Prop} (I : σ → Prop)
    (hstep : ∀ s a, P s a → I s → I (step s a)) {s : σ} (hI : I s) (as : ℕ → α)
    (hP : ∀ n, P (trace step s as n) (as n)) (n : ℕ) : I (trace step s as n) := by
  induction n with
  | zero => exact hI
  | succ n ih => exact hstep _ _ (hP n) ih

/-! ### Reaching a goal -/

/-- A helpful action that comes at some time while `P` persists. -/
theorem exists_of_helpful {P Q A : ℕ → Prop} (hstay : ∀ n, P n → P (n + 1) ∨ Q (n + 1))
    (hact : ∀ n, P n → A n → Q (n + 1)) {n m : ℕ} (hP : P n) (hle : n ≤ m) (hA : A m) :
    ∃ k, n ≤ k ∧ Q k := by
  induction hle using Nat.decreasingInduction with
  | self => exact ⟨m + 1, Nat.le_succ m, hact m hP hA⟩
  | of_succ n hlt ih =>
    rcases hstay n hP with hnext | hgoal
    · obtain ⟨k, hk, hQ⟩ := ih hnext
      exact ⟨k, Nat.le_of_succ_le hk, hQ⟩
    · exact ⟨n + 1, Nat.le_succ n, hgoal⟩

/-- A rank that from each point on gets smaller at some time, until the goal is reached. -/
theorem exists_of_decrease (rank : ℕ → ℕ) {Q : ℕ → Prop}
    (h : ∀ n, ¬ Q n → ∃ m, n ≤ m ∧ (Q m ∨ rank m < rank n)) (n : ℕ) : ∃ m, n ≤ m ∧ Q m := by
  induction hrank : rank n using Nat.strong_induction_on generalizing n with
  | _ r ih =>
    by_cases hQ : Q n
    · exact ⟨n, le_rfl, hQ⟩
    · obtain ⟨m, hle, hgoal | hlt⟩ := h n hQ
      · exact ⟨m, hle, hgoal⟩
      · obtain ⟨k, hmk, hk⟩ := ih (rank m) (by omega) m rfl
        exact ⟨k, hle.trans hmk, hk⟩

/-- A rank that never gets larger: while it stays, so does the situation `sit`, and the action that
    helps in that situation makes it smaller. -/
theorem exists_of_rank {β : Type*} (rank : ℕ → ℕ) (sit : ℕ → β) {Q : ℕ → Prop} {H : β → ℕ → Prop}
    (hstay : ∀ n, ¬ Q n →
      Q (n + 1) ∨ rank (n + 1) < rank n ∨ rank (n + 1) ≤ rank n ∧ sit (n + 1) = sit n)
    (hhelp : ∀ n, ¬ Q n → H (sit n) n → Q (n + 1) ∨ rank (n + 1) < rank n)
    (hfair : ∀ n, ¬ Q n → ∃ m, n ≤ m ∧ H (sit n) m) : ∃ n, Q n := by
  have hdecrease : ∀ n, ¬ Q n → ∃ m, n ≤ m ∧ (Q m ∨ rank m < rank n) := by
    intro n hn
    obtain ⟨m, hnm, hact⟩ := hfair n hn
    refine exists_of_helpful (P := fun k => ¬ Q k ∧ rank k ≤ rank n ∧ sit k = sit n)
      (A := H (sit n)) ?_ ?_ ⟨hn, le_rfl, rfl⟩ hnm hact
    · rintro k ⟨hk, hrank, hsit⟩
      by_cases hnext : Q (k + 1)
      · exact Or.inr (Or.inl hnext)
      · rcases hstay k hk with hgoal | hless | ⟨hle, hsame⟩
        · exact absurd hgoal hnext
        · exact Or.inr (Or.inr (hless.trans_le hrank))
        · exact Or.inl ⟨hnext, hle.trans hrank, hsame.trans hsit⟩
    · rintro k ⟨hk, hrank, hsit⟩ hH
      exact (hhelp k hk (hsit.symm ▸ hH)).imp_right fun hless => hless.trans_le hrank
  obtain ⟨n, -, hQ⟩ := exists_of_decrease rank hdecrease 0
  exact ⟨n, hQ⟩

open Filter in
/-- The same, where the rank says itself which action helps. -/
theorem exists_of_rank_self (rank : ℕ → ℕ) {Q : ℕ → Prop} {H : ℕ → ℕ → Prop}
    (hle : ∀ n, ¬ Q n → rank (n + 1) ≤ rank n)
    (hlt : ∀ n, ¬ Q n → H (rank n) n → rank (n + 1) < rank n)
    (hfair : ∀ r, ∃ᶠ n in atTop, H r n) : ∃ n, Q n := by
  refine exists_of_rank rank rank (H := H) ?_ (fun n hn hH => Or.inr (hlt n hn hH)) ?_
  · intro n hn
    rcases (hle n hn).lt_or_eq with hless | hsame
    · exact Or.inr (Or.inl hless)
    · exact Or.inr (Or.inr ⟨hsame.le, hsame⟩)
  · intro n _
    exact frequently_atTop.mp (hfair (rank n)) n

open Filter in
/-- A counter that never goes back and goes up again and again passes every bound. -/
theorem exists_le_of_frequently {c : ℕ → ℕ} (hmono : Monotone c)
    (hup : ∃ᶠ n in atTop, c n < c (n + 1)) (b n : ℕ) : ∃ m, n ≤ m ∧ b ≤ c m := by
  refine exists_of_decrease (fun k => b - c k) ?_ n
  intro k hk
  obtain ⟨m, hle, hlt⟩ := frequently_atTop.mp hup k
  have hkm : c k ≤ c m := hmono hle
  refine ⟨m + 1, by omega, Or.inr ?_⟩
  omega

/-- A rank that no step makes larger and each turn makes smaller, until the goal: a run with that
    many turns has reached it. -/
theorem goal_of_turns (I G : σ → Prop) (rank : σ → ℕ) (turn : α → Bool)
    (hkeep : ∀ s a, I s → I (step s a)) (hgoal : ∀ s a, I s → G s → G (step s a))
    (hturn : ∀ s a, I s → ¬ G s → turn a = true → G (step s a) ∨ rank (step s a) < rank s)
    (hother : ∀ s a, I s → ¬ G s → turn a = false → G (step s a) ∨ rank (step s a) ≤ rank s)
    (hpos : ∀ s, I s → ¬ G s → 0 < rank s) (as : List α) {s : σ} (hI : I s)
    (h : rank s ≤ as.countP turn) : G (run step s as) := by
  have hkept : ∀ (as : List α) (s : σ), I s → G s → G (run step s as) := fun as s hI hG =>
    (inv_run step (fun s => I s ∧ G s) (fun s a hs => ⟨hkeep s a hs.1, hgoal s a hs.1 hs.2⟩) as
      ⟨hI, hG⟩).2
  induction as generalizing s with
  | nil =>
    by_contra hG
    exact absurd (hpos s hI hG) (by simpa using h)
  | cons a as ih =>
    rw [run_cons]
    by_cases hG : G s
    · exact hkept as _ (hkeep s a hI) (hgoal s a hI hG)
    by_cases ha : turn a = true
    · rw [List.countP_cons_of_pos ha] at h
      rcases hturn s a hI hG ha with hnow | hless
      · exact hkept as _ (hkeep s a hI) hnow
      · exact ih (hkeep s a hI) (by omega)
    · rw [List.countP_cons_of_neg ha] at h
      rcases hother s a hI hG (Bool.not_eq_true _ ▸ ha) with hnow | hle
      · exact hkept as _ (hkeep s a hI) hnow
      · exact ih (hkeep s a hI) (hle.trans h)

end Schemes

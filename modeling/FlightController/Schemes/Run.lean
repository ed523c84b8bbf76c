import Mathlib.Logic.Basic
import Mathlib.Data.List.Basic

/-! A *run* of a deterministic step function is a left fold over its actions: whoever chooses the
    actions (a scheduler, an interrupt, the outside world) is on the list, so a statement about
    every run is a statement about every list.

    Two rules carry every invariant in this development. `inv_run` is the plain one: what each step
    keeps, a run keeps. `inv_run_along` is the conditional one: it asks only for steps that meet a
    side condition, and holds of the runs all of whose steps meet it (`Along`).

    A side condition is exact for a property when a run has the property throughout (`Always`) if
    and only if all its steps meet the condition. That is a matter of single steps too: no step that
    violates the condition leads to a state with the property (`always_iff_along`). -/

namespace Schemes

variable {σ α : Type*} (step : σ → α → σ)

/-- The state after a list of actions. -/
def run (s : σ) (as : List α) : σ := as.foldl step s

@[simp] theorem run_nil (s : σ) : run step s [] = s := rfl

@[simp] theorem run_cons (s : σ) (a : α) (as : List α) :
    run step s (a :: as) = run step (step s a) as := rfl

theorem run_append (s : σ) (as bs : List α) :
    run step s (as ++ bs) = run step (run step s as) bs := List.foldl_append

theorem run_concat (s : σ) (as : List α) (a : α) :
    run step s (as ++ [a]) = step (run step s as) a := by
  rw [run_append, run_cons, run_nil]

/-- What `f` sees of a run is a run itself, when it is so step by step, where the invariant `I`
    holds. -/
theorem run_map_of_inv {τ β : Type*} {step' : τ → β → τ} {f : σ → τ} {g : α → β} {I : σ → Prop}
    (hkeep : ∀ s a, I s → I (step s a)) (h : ∀ s a, I s → f (step s a) = step' (f s) (g a)) {s : σ}
    (hI : I s) (as : List α) : f (run step s as) = run step' (f s) (as.map g) := by
  induction as generalizing s with
  | nil => rfl
  | cons a as ih => rw [run_cons, ih (hkeep s a hI), h s a hI, List.map_cons, run_cons]

/-- What `f` sees of a run is a run itself, when it is so step by step. -/
theorem run_map {τ β : Type*} {step' : τ → β → τ} {f : σ → τ} {g : α → β}
    (h : ∀ s a, f (step s a) = step' (f s) (g a)) (s : σ) (as : List α) :
    f (run step s as) = run step' (f s) (as.map g) :=
  run_map_of_inv step (I := fun _ => True) (fun _ _ _ => trivial) (fun s a _ => h s a) trivial as

/-- What `f` sees of a run is a run itself, when of each step it sees one step or none. -/
theorem exists_run_of_stutter {τ β : Type*} {step' : τ → β → τ} {f : σ → τ}
    (h : ∀ s a, f (step s a) = f s ∨ ∃ b, f (step s a) = step' (f s) b) (s : σ) (as : List α) :
    ∃ bs, f (run step s as) = run step' (f s) bs := by
  induction as generalizing s with
  | nil => exact ⟨[], rfl⟩
  | cons a as ih =>
    obtain ⟨bs, hbs⟩ := ih (step s a)
    rw [run_cons, hbs]
    rcases h s a with hsame | ⟨b, hstep⟩
    · exact ⟨bs, by rw [hsame]⟩
    · exact ⟨b :: bs, by rw [hstep, run_cons]⟩

/-- Every step of the run meets the side condition `P`, a relation of the state before the step
    and the action. -/
def Along (P : σ → α → Prop) : σ → List α → Prop
  | _, [] => True
  | s, a :: as => P s a ∧ Along P (step s a) as

@[simp] theorem along_nil (P : σ → α → Prop) (s : σ) : Along step P s [] := trivial

@[simp] theorem along_cons (P : σ → α → Prop) (s : σ) (a : α) (as : List α) :
    Along step P s (a :: as) ↔ P s a ∧ Along step P (step s a) as := Iff.rfl

theorem along_append (P : σ → α → Prop) (bs : List α) : ∀ (as : List α) (s : σ),
    Along step P s (as ++ bs) ↔ Along step P s as ∧ Along step P (run step s as) bs
  | [], s => by simp
  | a :: as, s => by
    rw [List.cons_append, along_cons, along_append P bs as, along_cons, run_cons, and_assoc]

instance decidableAlong (P : σ → α → Prop) [∀ s a, Decidable (P s a)] :
    ∀ (as : List α) (s : σ), Decidable (Along step P s as)
  | [], _ => isTrue trivial
  | a :: as, s =>
    have := decidableAlong P as (step s a)
    inferInstanceAs (Decidable (P s a ∧ Along step P (step s a) as))

/-- What each step meeting `P` keeps, a run of such steps keeps. -/
theorem inv_run_along {P : σ → α → Prop} (I : σ → Prop)
    (hstep : ∀ s a, P s a → I s → I (step s a)) (as : List α) (s : σ)
    (hAs : Along step P s as) (hI : I s) : I (run step s as) := by
  induction as generalizing s with
  | nil => exact hI
  | cons a as ih =>
    obtain ⟨hP, hrest⟩ := hAs
    exact ih (step s a) hrest (hstep s a hP hI)

/-- A side condition that always holds is met by every run. -/
theorem along_of_forall {P : σ → α → Prop} (h : ∀ s a, P s a) (as : List α) (s : σ) :
    Along step P s as := by
  induction as generalizing s with
  | nil => trivial
  | cons a as ih => exact ⟨h s a, ih (step s a)⟩

/-- A condition on the actions alone can be added to the side condition. -/
theorem along_and_mem {P : σ → α → Prop} {Q : α → Prop} {as : List α} {s : σ}
    (hAs : Along step P s as) (hQ : ∀ a ∈ as, Q a) : Along step (fun s a => P s a ∧ Q a) s as := by
  induction as generalizing s with
  | nil => trivial
  | cons a as ih =>
    obtain ⟨hP, hrest⟩ := hAs
    exact ⟨⟨hP, hQ a (List.mem_cons_self ..)⟩,
      ih hrest fun b hb => hQ b (List.mem_cons_of_mem a hb)⟩

/-- What every step keeps, every run keeps. -/
theorem inv_run (I : σ → Prop) (hstep : ∀ s a, I s → I (step s a)) (as : List α) {s : σ}
    (hI : I s) : I (run step s as) :=
  inv_run_along step I (fun s a _ => hstep s a) as s
    (along_of_forall step (P := fun _ _ => True) (fun _ _ => trivial) as s) hI

/-- A run that meets one side condition meets another that follows from it under an invariant. -/
theorem along_of_inv {P P' : σ → α → Prop} (I : σ → Prop)
    (hkeep : ∀ s a, I s → P s a → I (step s a)) (himp : ∀ s a, I s → P s a → P' s a)
    (as : List α) {s : σ} (hI : I s) (hAs : Along step P s as) : Along step P' s as := by
  induction as generalizing s with
  | nil => trivial
  | cons a as ih =>
    obtain ⟨hP, hrest⟩ := hAs
    exact ⟨himp s a hI hP, ih (hkeep s a hI hP) hrest⟩

/-- Under the invariant `I`, steps that meet the side condition keep `I`, and one that violates it
    leads into `Bad` for good: the end of a run shows which it was. -/
theorem along_or_bad {P : σ → α → Prop} (I Bad : σ → Prop)
    (hkeep : ∀ s a, I s → P s a → I (step s a)) (hfail : ∀ s a, I s → ¬ P s a → Bad (step s a))
    (hbad : ∀ s a, Bad s → Bad (step s a)) (as : List α) {s : σ} (hI : I s) :
    (Along step P s as ∧ I (run step s as)) ∨ (¬ Along step P s as ∧ Bad (run step s as)) := by
  induction as generalizing s with
  | nil => exact Or.inl ⟨trivial, hI⟩
  | cons a as ih =>
    rw [along_cons, run_cons]
    by_cases hP : P s a
    · rcases ih (hkeep s a hI hP) with ⟨hrest, hend⟩ | ⟨hrest, hend⟩
      · exact Or.inl ⟨⟨hP, hrest⟩, hend⟩
      · exact Or.inr ⟨fun hall => hrest hall.2, hend⟩
    · exact Or.inr ⟨fun hall => hP hall.1, inv_run step Bad hbad as (hfail s a hI hP)⟩

/-- `Q` holds in every state of the run, from the first to the last. -/
def Always (Q : σ → Prop) (s : σ) (as : List α) : Prop := ∀ pre, pre <+: as → Q (run step s pre)

@[simp] theorem always_nil (Q : σ → Prop) (s : σ) : Always step Q s [] ↔ Q s := by
  simp [Always]

@[simp] theorem always_cons (Q : σ → Prop) (s : σ) (a : α) (as : List α) :
    Always step Q s (a :: as) ↔ Q s ∧ Always step Q (step s a) as := by
  constructor
  · intro h
    refine ⟨h [] (List.nil_prefix ..), fun pre hpre => ?_⟩
    exact h (a :: pre) ((List.prefix_cons_inj a).mpr hpre)
  · rintro ⟨hs, hrest⟩ pre hpre
    cases pre with
    | nil => exact hs
    | cons b pre =>
      obtain ⟨rfl, htail⟩ := List.cons_prefix_cons.mp hpre
      exact hrest pre htail

variable {step} in
/-- What holds throughout a run holds at its end. -/
theorem Always.last {Q : σ → Prop} {s : σ} {as : List α} (h : Always step Q s as) :
    Q (run step s as) := h as (List.prefix_refl as)

/-- A side condition is exact for a property: under the invariant `I`, a step that meets it keeps
    `I`, and a step into a state with the property meets it. -/
theorem always_iff_along {P : σ → α → Prop} {Q : σ → Prop} (I : σ → Prop) (hQ : ∀ s, I s → Q s)
    (hkeep : ∀ s a, I s → P s a → I (step s a)) (hmeet : ∀ s a, I s → Q (step s a) → P s a)
    (as : List α) {s : σ} (hI : I s) : Always step Q s as ↔ Along step P s as := by
  induction as generalizing s with
  | nil => simp [hQ s hI]
  | cons a as ih =>
    rw [always_cons, along_cons]
    constructor
    · rintro ⟨-, hrest⟩
      have hP : P s a := hmeet s a hI (hrest [] (List.nil_prefix ..))
      exact ⟨hP, (ih (hkeep s a hI hP)).mp hrest⟩
    · rintro ⟨hP, hrest⟩
      exact ⟨hQ s hI, (ih (hkeep s a hI hP)).mpr hrest⟩

end Schemes

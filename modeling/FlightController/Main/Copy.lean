import FlightController.Main.Failsafe

/-! The structure copy `rx_latest = *rx_recv(false)`. The interrupt writes `ibus_data` in one go,
    but the main loop reads it in seven word loads, and a frame may be published between two.

    A copy is whole when it equals one published frame. The invariant of a copy in progress is that
    one published frame agrees with the words already loaded and with the words still to be loaded
    (`CopyOk`). A publication breaks it only by differing from both the loaded words and those to
    come; a run without such a publication copies whole frames (`rx_copy_whole`). -/

namespace FC.Main
open Schemes

/-- Word `k` of a sample: two channels. -/
def word (k : ℕ) (r : RxSample) : UInt16 × UInt16 :=
  match k with
  | 0 => (r.roll, r.pitch)
  | 1 => (r.throttle, r.yaw)
  | 2 => (r.ch5, r.ch6)
  | 3 => (r.ch7, r.ch8)
  | 4 => (r.ch9, r.ch10)
  | 5 => (r.ch11, r.ch12)
  | 6 => (r.ch13, r.ch14)
  | _ => (0, 0)

theorem word_loadWord_self {k : ℕ} (hk : k < 7) (src dst : RxSample) :
    word k (loadWord k src dst) = word k src := by
  obtain rfl | rfl | rfl | rfl | rfl | rfl | rfl :
      k = 0 ∨ k = 1 ∨ k = 2 ∨ k = 3 ∨ k = 4 ∨ k = 5 ∨ k = 6 := by omega
  all_goals rfl

theorem word_loadWord_other {j k : ℕ} (h : j ≠ k) (src dst : RxSample) :
    word j (loadWord k src dst) = word j dst := by
  by_cases hk : k < 7
  · obtain rfl | rfl | rfl | rfl | rfl | rfl | rfl :
        k = 0 ∨ k = 1 ∨ k = 2 ∨ k = 3 ∨ k = 4 ∨ k = 5 ∨ k = 6 := by omega
    all_goals
      unfold word
      split <;> first | rfl | exact absurd rfl h
  · rw [loadWord] <;> omega

/-- A sample is its seven words. -/
theorem ext_word {a b : RxSample} (h : ∀ j < 7, word j a = word j b) : a = b := by
  have h0 := h 0 (by decide); have h1 := h 1 (by decide); have h2 := h 2 (by decide)
  have h3 := h 3 (by decide); have h4 := h 4 (by decide); have h5 := h 5 (by decide)
  have h6 := h 6 (by decide)
  cases a; cases b
  simp_all [word]

/-- The copy just made is one published frame. -/
def CopyWhole {σ : Type} (s : St σ) : Prop := s.pc = .imu → ∃ f ∈ s.log, s.rxLatest = f.sample

/-- No publication during the copy mixes frames: the new sample agrees with every word already
    loaded, or with every word still to be loaded. -/
def Unmixed {σ : Type} (s : St σ) : Act → Prop
  | .usart ch =>
    match s.pc with
    | .copy k =>
      Ibus.publishes s.ibus ch = true →
        (∀ j < 7, j < k → word j (Ibus.readSample s.ibus.bytes) = word j s.rxLatest) ∨
        (∀ j < 7, k ≤ j → word j (Ibus.readSample s.ibus.bytes) = word j s.ibus.ibusData)
    | _ => True
  | _ => True

instance {σ : Type} (s : St σ) : ∀ a : Act, Decidable (Unmixed s a)
  | .tick _ | .main _ => isTrue trivial
  | .usart ch => by
    unfold Unmixed
    cases s.pc
    case copy k => exact inferInstanceAs (Decidable (_ → _ ∨ _))
    all_goals exact isTrue trivial

/-- A copy in progress has been, and will be, reading one published frame. -/
def CopyOk {σ : Type} (s : St σ) : Prop :=
  match s.pc with
  | .copy k => ∃ f ∈ s.log,
    (∀ j < 7, j < k → word j s.rxLatest = word j f.sample) ∧
      (∀ j < 7, k ≤ j → word j s.ibus.ibusData = word j f.sample)
  | .imu => ∃ f ∈ s.log, s.rxLatest = f.sample
  | _ => True

variable {σ : Type} (ctl : Controller σ) (tim : PwmTimer)

theorem copyOk_main {s : St σ} (hs : Synced s) (hr : Received s) (h : CopyOk s) (e : Env) :
    CopyOk (mainStep ctl tim s e) := by
  cases hpc : s.pc <;> rw [CopyOk, hpc] at h <;> simp only [mainStep, hpc]
  case recvClear =>
    cases hlog : s.log with
    | nil => exact absurd hlog (hr (by rw [hpc]; rfl))
    | cons f rest =>
      refine ⟨f, List.mem_cons_self .., by omega, fun j _ _ => ?_⟩
      rw [← hs.data f rest hlog]
  case copy k =>
    obtain ⟨f, hf, hloaded, hcoming⟩ := h
    -- the load moves word `k` from the words to come to the loaded ones
    have hload : ∀ j < 7, j < k + 1 →
        word j (loadWord k s.ibus.ibusData s.rxLatest) = word j f.sample := by
      intro j hj hjk
      by_cases hlast : j = k
      · rw [hlast, word_loadWord_self (by omega)]
        exact hcoming k (by omega) le_rfl
      · rw [word_loadWord_other hlast]
        exact hloaded j hj (by omega)
    by_cases hk : k < 6
    · rw [if_pos hk]
      exact ⟨f, hf, hload, fun j hj hjk => hcoming j hj (by omega)⟩
    · rw [if_neg hk]
      exact ⟨f, hf, ext_word fun j hj => hload j hj (by omega)⟩
  case recvFirst | recvReady | lossRcvd | lossTest => split <;> trivial
  case wait | lossFirst => split <;> simp [CopyOk, hpc]
  all_goals trivial

theorem copyOk_usart {s : St σ} (h : CopyOk s) (ch : UInt8) (hun : Unmixed s (.usart ch)) :
    CopyOk (usartStep s ch) := by
  cases hp : Ibus.publishes s.ibus ch
  · have hdata := (Ibus.sameOutput_of_not_publishes s.timerNowUs hp).1
    have hlog : (usartStep s ch).log = s.log := by simp [usartStep, hp]
    unfold CopyOk at h ⊢
    rw [hlog]
    show match s.pc with | .copy k => _ | .imu => _ | _ => True
    cases hpc : s.pc <;> rw [hpc] at h
    case copy k =>
      obtain ⟨f, hf, hloaded, hcoming⟩ := h
      refine ⟨f, hf, hloaded, fun j hj hjk => ?_⟩
      rw [← hcoming j hj hjk, ← hdata]; rfl
    case imu => exact h
    all_goals trivial
  · have hdata : (usartStep s ch).ibus.ibusData = Ibus.readSample s.ibus.bytes := by
      simp only [usartStep, Ibus.update_publish s.timerNowUs hp, Ibus.publish]
    have hlog : (usartStep s ch).log = ⟨Ibus.readSample s.ibus.bytes, s.clock⟩ :: s.log := by
      simp [usartStep, hp]
    unfold CopyOk at h ⊢
    unfold Unmixed at hun
    rw [hlog]
    show match s.pc with | .copy k => _ | .imu => _ | _ => True
    cases hpc : s.pc <;> rw [hpc] at h hun
    case copy k =>
      obtain ⟨f, hf, hloaded, hcoming⟩ := h
      simp only [hdata]
      rcases hun hp with hnew | hold
      · exact ⟨_, List.mem_cons_self .., fun j hj hjk => (hnew j hj hjk).symm, fun _ _ _ => rfl⟩
      · exact ⟨f, List.mem_cons_of_mem _ hf, hloaded,
          fun j hj hjk => (hold j hj hjk).trans (hcoming j hj hjk)⟩
    case imu =>
      obtain ⟨f, hf, heq⟩ := h
      exact ⟨f, List.mem_cons_of_mem _ hf, heq⟩
    all_goals trivial

/-- CORRECT in every run whose publications mix no copy: after each copy `rx_latest` is one
    published frame. -/
theorem rx_copy_whole (acts : List Act) (hun : Along (step ctl tim) Unmixed (init ctl) acts) :
    CopyWhole (exec ctl tim acts) := by
  have hcopy : CopyOk (exec ctl tim acts) := by
    refine inv_exec_along ctl tim CopyOk ?_ acts hun trivial
    intro s a hs hr hstep h
    cases a with
    | tick d => exact h
    | usart ch => exact copyOk_usart h ch hstep
    | main e => exact copyOk_main ctl tim hs hr h e
  intro hpc
  rwa [CopyOk, hpc] at hcopy

/-- A frame at 1 s, a second one 7.7 ms later, whose last byte comes after `n` of the seven loads of
    the fifth iteration's copy. -/
def copyRun (n : ℕ) : List Act :=
  .tick 999500 :: mains 3 ++ .tick 500 :: usarts (Ibus.frameBytes Ibus.centredSample) ++ mains 19 ++
    .tick 1500 :: mains 19 ++ .tick 2000 :: mains 19 ++ .tick 2000 :: mains 19 ++
    usarts ((Ibus.frameBytes movedSample).take 31) ++ .tick 2200 :: mains (3 + n) ++
    usarts ((Ibus.frameBytes movedSample).drop 31) ++ mains (7 - n)

/-- Between two iterations' copies a frame does no harm. -/
theorem rx_copy_whole_copyRun : CopyWhole (exec flight board (copyRun 0)) :=
  rx_copy_whole flight board (copyRun 0) (by decide +kernel)

/-- After one load it does: roll and pitch come from the old frame, all else from the new one. -/
theorem rx_copy_torn_copyRun : ¬ CopyWhole (exec flight board (copyRun 1)) := by
  intro hwhole
  obtain ⟨f, hf, heq⟩ := hwhole (by decide +kernel)
  have hlog : (exec flight board (copyRun 1)).log =
      [⟨movedSample, 1007700⟩, ⟨Ibus.centredSample, 1000000⟩] := by decide +kernel
  have hrx : (exec flight board (copyRun 1)).rxLatest =
      { movedSample with roll := 1500, pitch := 1500 } := by decide +kernel
  rw [hlog] at hf
  rw [hrx] at heq
  rcases List.mem_cons.mp hf with rfl | hf
  · exact absurd heq (by decide)
  · rw [List.mem_singleton.mp hf] at heq
    exact absurd heq (by decide)

end FC.Main

import FlightController.Schemes.Fair
import FlightController.Telemetry.Usb

/-! How `usb_send` cuts its buffer. Whatever the schedule, the packets passed so far are the
    beginning of the buffer, in full packets except for the buffer's own end, and each is passed on
    a set flag that is down right after. A call that returns early has read a time at or past the
    deadline (`Chunked`).

    Before the deadline the call gets through (`usb_send_chunks`): with the flag set each step
    brings the next packet closer, and with the flag down the callback does, while the call
    polls. -/

namespace FC.Usb
open Schemes Filter

/-- A reading so far was at or past the deadline, as the code compares them. -/
def SawLate (now : ℕ → UInt32) (s : St) : Prop := ∃ k < s.reads, s.deadlineUs ≤ now k

/-- What the packets of a call are, at any time of it. -/
structure Chunked (now : ℕ → UInt32) (buf : List UInt8) (s : St) : Prop where
  size : ∀ m ∈ s.passed, m.bytes ≠ [] ∧ m.bytes.length ≤ usbMaxPacketSize
  full : ∀ m ∈ s.passed.dropLast, m.bytes.length = usbMaxPacketSize
  isPrefix : s.passed.flatMap (·.bytes) <+: buf
  flag : ∀ a, (step now s a).passed ≠ s.passed →
    s.txReady = true ∧ (step now s a).txReady = false
  whole : s.pc = .done → s.passed.flatMap (·.bytes) = buf ∨ SawLate now s

/-! ### The cut -/

/-- The packets and what is left: full packets while anything is left. -/
structure Cut (buf : List UInt8) (s : St) : Prop where
  split : s.passed.flatMap (·.bytes) ++ s.p = buf
  size : ∀ m ∈ s.passed, m.bytes ≠ [] ∧ m.bytes.length ≤ usbMaxPacketSize
  full : ∀ m ∈ s.passed.dropLast, m.bytes.length = usbMaxPacketSize
  more : s.p ≠ [] → ∀ m ∈ s.passed, m.bytes.length = usbMaxPacketSize
  left : s.p ≠ [] → usbMaxPacketSize * s.passed.length + s.p.length = buf.length
  count : s.p = [] → s.passed.length = (buf.length + 63) / 64

variable {now : ℕ → UInt32} {buf : List UInt8} {s : St}

theorem Cut.congr {s' : St} (h : Cut buf s) (hp : s'.p = s.p) (hpassed : s'.passed = s.passed) :
    Cut buf s' := by
  constructor <;> rw [hpassed]
  · rw [hp]; exact h.split
  · exact h.size
  · exact h.full
  · rw [hp]; exact h.more
  · rw [hp]; exact h.left
  · rw [hp]; exact h.count

theorem cut_write (now : ℕ → UInt32) (h : Cut buf s) (hp : s.p ≠ []) (hpc : s.pc = .write) :
    Cut buf (cpuStep now s) := by
  have hpos : 0 < s.p.length := List.length_pos_of_ne_nil hp
  have hleft := h.left hp
  simp only [cpuStep, hpc]
  refine ⟨?_, ?_, ?_, ?_, ?_, ?_⟩
  · rw [List.flatMap_append, List.flatMap_singleton, List.append_assoc, List.take_append_drop]
    exact h.split
  · intro m hm
    rcases List.mem_append.mp hm with hold | hnew
    · exact h.size m hold
    · rw [List.mem_singleton.mp hnew]
      refine ⟨?_, List.length_take_le _ _⟩
      intro hnil
      have hzero := congrArg List.length hnil
      rw [List.length_take, List.length_nil, usbMaxPacketSize] at hzero
      omega
  · rw [List.dropLast_concat]
    exact h.more hp
  · intro hrest m hm
    rcases List.mem_append.mp hm with hold | hnew
    · exact h.more hp m hold
    · have hlong : ¬ s.p.length ≤ usbMaxPacketSize := fun hle => hrest (List.drop_eq_nil_of_le hle)
      rw [List.mem_singleton.mp hnew]
      exact List.length_take_of_le (Nat.le_of_not_le hlong)
  · intro hrest
    have hlong : ¬ s.p.length ≤ usbMaxPacketSize := fun hle => hrest (List.drop_eq_nil_of_le hle)
    simp only [List.length_append, List.length_singleton, List.length_drop, usbMaxPacketSize]
      at hlong hleft ⊢
    omega
  · intro hend
    have hshort : s.p.length ≤ usbMaxPacketSize := List.drop_eq_nil_iff.mp hend
    simp only [List.length_append, List.length_singleton, usbMaxPacketSize] at hshort hleft ⊢
    omega

/-- What the flag and the readings say about where the call stands. -/
structure Polled (now : ℕ → UInt32) (s : St) : Prop where
  write : s.pc = .write → s.txReady = true
  check : s.pc = .check → s.txReady = false → SawLate now s
  done : s.pc = .done → s.p = [] ∨ SawLate now s

theorem polled_cpu (h : Polled now s) : Polled now (cpuStep now s) := by
  cases hpc : s.pc <;> simp only [cpuStep, hpc]
  case outer =>
    split
    · rename_i hp
      exact ⟨by simp, by simp, fun _ => Or.inl hp⟩
    · split
      · exact ⟨by simp, by simp, by simp⟩
      · rename_i hlate
        exact ⟨by simp, by simp,
          fun _ => Or.inr ⟨s.reads, Nat.lt_succ_self _, UInt32.not_lt.mp hlate⟩⟩
  case inner =>
    split
    · rename_i hready
      exact ⟨by simp, fun _ hbusy => absurd hready (Bool.eq_false_iff.mp hbusy), by simp⟩
    · exact ⟨by simp, by simp, by simp⟩
  case innerTime =>
    split
    · exact ⟨by simp, by simp, by simp⟩
    · rename_i hlate
      exact ⟨by simp, fun _ _ => ⟨s.reads, Nat.lt_succ_self _, UInt32.not_lt.mp hlate⟩, by simp⟩
  case check =>
    split
    · rename_i hready
      exact ⟨fun _ => hready, by simp, by simp⟩
    · rename_i hbusy
      exact ⟨by simp, by simp, fun _ => Or.inr (h.check hpc (Bool.eq_false_iff.mpr hbusy))⟩
  case write => exact ⟨by simp, by simp, by simp⟩
  case done => exact h

/-- What a call keeps. -/
structure Sending (now : ℕ → UInt32) (buf : List UInt8) (s : St) : Prop where
  loaded : Loaded s
  cut : Cut buf s
  polled : Polled now s

theorem sending_step (h : Sending now buf s) (a : Act) : Sending now buf (step now s a) := by
  refine ⟨loaded_step now h.loaded a, ?_, ?_⟩
  · cases a with
    | txCallback => exact h.cut.congr rfl rfl
    | cpu =>
      rcases eq_or_ne s.pc .write with hpc | hpc
      · have hp : s.p ≠ [] := h.loaded (by simp [hpc]) (by simp [hpc])
        exact (cut_write now h.cut hp hpc).congr rfl rfl
      · obtain ⟨hp, hpassed⟩ := cpuStep_frame now hpc
        exact h.cut.congr hp hpassed
  · cases a with
    | txCallback =>
      exact ⟨fun _ => rfl, fun _ hbusy => absurd hbusy (by simp [step]), h.polled.done⟩
    | cpu =>
      have hnext := polled_cpu h.polled
      exact ⟨hnext.write, hnext.check, hnext.done⟩

theorem sending_start (now : ℕ → UInt32) (buf : List UInt8) (deadlineUs : UInt32) (txReady : Bool) :
    Sending now buf (usbSend (idle txReady) buf deadlineUs) := by
  refine ⟨fun hne => absurd rfl hne, ?_, ?_⟩
  · constructor <;> simp +contextual [usbSend, idle]
  · constructor <;> simp [usbSend]

theorem Sending.chunked (h : Sending now buf s) : Chunked now buf s := by
  refine ⟨h.cut.size, h.cut.full, ⟨s.p, h.cut.split⟩, ?_, ?_⟩
  · intro a hpass
    cases a with
    | txCallback => exact absurd rfl hpass
    | cpu =>
      have hpc : s.pc = .write := by
        by_contra hne
        exact hpass (cpuStep_frame now hne).2
      exact ⟨h.polled.write hpc, by simp [step, cpuStep, hpc]⟩
  · intro hdone
    rcases h.polled.done hdone with hp | hlate
    · left
      have hsplit := h.cut.split
      rwa [hp, List.append_nil] at hsplit
    · exact Or.inr hlate

/-! ### Getting through -/

/-- The bytes left, and then the way to the next write. -/
def rank (s : St) : ℕ :=
  7 * s.p.length +
    match s.txReady, s.pc with
    | false, .outer => 7
    | false, _ => 6
    | true, .outer => 5
    | true, .innerTime => 4
    | true, .inner => 3
    | true, .check => 2
    | true, _ => 1

/-- With the flag set the next step makes progress. -/
theorem rank_cpu_lt (h : Sending now buf s) (hready : s.txReady = true) (hrun : s.pc ≠ .done) :
    (step now s .cpu).pc = .done ∨ rank (step now s .cpu) < rank s := by
  cases hpc : s.pc <;> simp only [step, cpuStep, hpc, hready, if_true]
  case outer =>
    split
    · exact Or.inl rfl
    · split
      · right; simp [rank, hpc, hready]
      · exact Or.inl rfl
  case innerTime => split <;> (right; simp [rank, hpc, hready])
  case write =>
    have hp : s.p ≠ [] := h.loaded (by simp [hpc]) (by simp [hpc])
    have hpos : 0 < s.p.length := List.length_pos_of_ne_nil hp
    right
    simp only [rank, hpc, hready, List.length_drop, usbMaxPacketSize]
    omega
  case done => exact absurd hpc hrun
  all_goals right; simp [rank, hpc, hready]

/-- With the flag down, and before the deadline, it polls. -/
theorem rank_cpu_le (h : Sending now buf s) (hearly : ∀ k, now k < s.deadlineUs)
    (hbusy : s.txReady = false) :
    (step now s .cpu).pc = .done ∨
      (step now s .cpu).txReady = false ∧ rank (step now s .cpu) ≤ rank s := by
  have hnever : ¬ SawLate now s := fun ⟨k, _, hk⟩ => absurd (hearly k) (UInt32.not_lt.mpr hk)
  cases hpc : s.pc <;> simp only [step, cpuStep, hpc, hbusy, hearly, if_true]
  case outer =>
    split
    · exact Or.inl rfl
    · right; simp [rank, hpc, hbusy]
  case check => exact absurd (h.polled.check hpc hbusy) hnever
  case write => exact absurd (h.polled.write hpc) (by simp [hbusy])
  case done => left; trivial
  all_goals right; simp [rank, hpc, hbusy]

/-- The callback makes progress when the flag was down, and does nothing when it was set. -/
theorem rank_txCallback_lt (hbusy : s.txReady = false) :
    rank (step now s .txCallback) < rank s := by
  cases hpc : s.pc <;> simp [rank, step, hpc, hbusy]

theorem step_txCallback (hready : s.txReady = true) : step now s .txCallback = s := by
  rw [step, ← hready]

/-- On a schedule on which the call keeps running and each packet completes, the call returns: a
    step of its own brings it closer to the end when the flag is set, the callback when it is
    down. -/
theorem exists_done {t : ℕ → St} {as : ℕ → Act} (hstep : ∀ n, t (n + 1) = step now (t n) (as n))
    (h : ∀ n, Sending now buf (t n)) (hearly : ∀ n k, now k < (t n).deadlineUs)
    (hcpu : ∃ᶠ n in atTop, as n = .cpu)
    (hcallback : ∀ n, (t n).txReady = false → ∃ m, n ≤ m ∧ as m = .txCallback) :
    ∃ n, (t n).pc = .done := by
  refine exists_of_rank (fun n => rank (t n)) (fun n => (t n).txReady)
    (H := fun ready n => as n = if ready then .cpu else .txCallback) ?_ ?_ ?_
  · intro n hrun
    simp only [hstep n]
    rcases hact : as n with _ | _ <;> rcases hready : (t n).txReady with _ | _
    · rcases rank_cpu_le (h n) (hearly n) hready with hdone | ⟨hbusy, hle⟩
      · exact Or.inl hdone
      · exact Or.inr (Or.inr ⟨hle, hbusy⟩)
    · exact (rank_cpu_lt (h n) hready hrun).imp_right Or.inl
    · exact Or.inr (Or.inl (rank_txCallback_lt hready))
    · rw [step_txCallback hready]
      exact Or.inr (Or.inr ⟨le_rfl, hready⟩)
  · intro n hrun hact
    simp only [hstep n, hact]
    rcases hready : (t n).txReady with _ | _
    · exact Or.inr (rank_txCallback_lt hready)
    · exact rank_cpu_lt (h n) hready hrun
  · intro n _
    rcases hready : (t n).txReady with _ | _
    · exact hcallback n hready
    · exact frequently_atTop.mp hcpu n

theorem deadlineUs_step (now : ℕ → UInt32) (s : St) (a : Act) :
    (step now s a).deadlineUs = s.deadlineUs := by
  cases a with
  | cpu => exact deadlineUs_cpu now s
  | txCallback => rfl

/-- CORRECT: in every run of a call the packets are cut as they should be; and on every schedule on
    which the call keeps running, each packet completes and the deadline is never reached, it
    returns after `n / 64` packets, rounded up, with the whole buffer passed. -/
theorem usb_send_chunks (now : ℕ → UInt32) (buf : List UInt8) (deadlineUs : UInt32)
    (txReady : Bool) :
    (∀ acts, Chunked now buf (exec now (usbSend (idle txReady) buf deadlineUs) acts)) ∧
    ∀ as : ℕ → Act,
      let t := trace (step now) (usbSend (idle txReady) buf deadlineUs) as
      (∃ᶠ n in atTop, as n = .cpu) →
      (∀ n, (t n).txReady = false → ∃ m, n ≤ m ∧ as m = .txCallback) →
      (∀ k, now k < deadlineUs) →
      ∃ n, (t n).pc = .done ∧ (t n).passed.length = (buf.length + 63) / 64 ∧
        (t n).passed.flatMap (·.bytes) = buf := by
  have hstart := sending_start now buf deadlineUs txReady
  constructor
  · intro acts
    exact (inv_run (step now) (Sending now buf) (fun _ a h => sending_step h a) acts hstart).chunked
  · intro as t hcpu hcallback hearly
    have hsending : ∀ n, Sending now buf (t n) :=
      inv_trace (step now) (Sending now buf) (fun _ a h => sending_step h a) hstart as
    have hdeadline : ∀ n, (t n).deadlineUs = deadlineUs :=
      inv_trace (step now) (·.deadlineUs = deadlineUs)
        (fun s a h => (deadlineUs_step now s a).trans h) rfl as
    have hearly' : ∀ n k, now k < (t n).deadlineUs := by
      intro n k
      rw [hdeadline n]
      exact hearly k
    obtain ⟨n, hdone⟩ := exists_done (fun _ => rfl) hsending hearly' hcpu hcallback
    have hp : (t n).p = [] := by
      refine ((hsending n).polled.done hdone).resolve_right ?_
      rintro ⟨k, -, hk⟩
      exact absurd (hearly' n k) (UInt32.not_lt.mpr hk)
    have hsplit := (hsending n).cut.split
    rw [hp, List.append_nil] at hsplit
    exact ⟨n, hdone, (hsending n).cut.count hp, hsplit⟩

/-- 130 bytes, with a callback after each step: three packets. -/
theorem usb_send_chunks_three :
    let t := trace (step fun _ => 0) (usbSend (idle false) (List.replicate 130 7) 1000)
      (fun n => if n % 2 = 0 then .cpu else .txCallback)
    ∃ n, (t n).pc = .done ∧ (t n).passed.length = 3 ∧
      (t n).passed.flatMap (·.bytes) = List.replicate 130 7 := by
  intro t
  obtain ⟨n, hdone, hcount, hwhole⟩ :=
    (usb_send_chunks (fun _ => 0) (List.replicate 130 7) 1000 false).2
      (fun n => if n % 2 = 0 then .cpu else .txCallback)
      (frequently_atTop.mpr fun n => ⟨2 * n, by omega, by simp⟩)
      (fun n _ => ⟨2 * n + 1, by omega, by simp⟩) (fun _ => by decide)
  rw [List.length_replicate] at hcount
  exact ⟨n, hdone, hcount, hwhole⟩

end FC.Usb

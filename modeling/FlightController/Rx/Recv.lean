import FlightController.Rx.Resync
import FlightController.Schemes.Fair

/-! `ibus_recv` of `src/rx/ibus.c`: the driver's one-place mailbox. The USART interrupt fills it
    (the sample, and the flag `ibus_data_ready`), a receive call waits for the flag and clears it.
    Each step of the call makes one access to the shared flags, and bytes may come in between any
    two. The return touches nothing shared, so it goes with the clearing of the flag, and that is
    the moment from which a frame is new to the next call.

    A blocking call never returns without a frame that no call before it has taken, and no call
    returns before the first frame (`recv_fresh`). Frames may be passed over, when two of them come
    before the flag is cleared, but a caller that keeps running never waits for ever while frames
    keep coming (`recv_returns`). -/

namespace FC.Recv
open Schemes

/-- Where the caller stands: outside, before the first operand of the loop condition, before the
    second one, and after the loop. The calls remember their argument `blocking`. -/
inductive Pc where
  | out
  | test (blocking : Bool)
  | ready (blocking : Bool)
  | clear (blocking : Bool)
  deriving DecidableEq, Repr

/-- A call that returned: its argument, and the number of frames published before it cleared the
    flag. -/
structure Return where
  blocking : Bool
  published : ℕ
  deriving DecidableEq, Repr

/-- Driver and caller. History: the number of frames published so far, and the calls that have
    returned, latest first. -/
structure St where
  ibus : Ibus
  pc : Pc
  published : ℕ
  returned : List Return

/-- The USART interrupt with a byte, a new call, or the next step of the call. -/
inductive Act where
  | usart (now : UInt32) (ch : UInt8)
  | call (blocking : Bool)
  | main
  deriving DecidableEq, Repr

/-- `ibus_recv`, from the loop condition to the return. -/
def recvStep (s : St) : St :=
  match s.pc with
  | .out => s
  | .test blocking =>
    { s with
      pc := if blocking || !s.ibus.ibusRcvdFirstPacket then .ready blocking else .clear blocking }
  | .ready blocking =>
    { s with pc := if !s.ibus.ibusDataReady then .test blocking else .clear blocking }
  | .clear blocking =>
    { s with
      ibus := { s.ibus with ibusDataReady := false }
      pc := .out
      returned := ⟨blocking, s.published⟩ :: s.returned }

def step (s : St) : Act → St
  | .usart now ch =>
    { s with
      ibus := Ibus.ibusUpdateState now s.ibus ch
      published := if Ibus.publishes s.ibus ch then s.published + 1 else s.published }
  | .call blocking => if s.pc = .out then { s with pc := .test blocking } else s
  | .main => recvStep s

def init : St := ⟨Ibus.reset, .out, 0, []⟩

def exec (acts : List Act) : St := run step init acts

/-- The frames that the calls so far have seen published. -/
def taken : List Return → ℕ
  | [] => 0
  | r :: _ => r.published

/-- Each call returned after a first frame, and each blocking one after a frame that was not there
    yet when the call before it cleared the flag. -/
def FreshReturns : List Return → Prop
  | [] => True
  | r :: rs => 0 < r.published ∧ taken rs ≤ r.published ∧
      (r.blocking = true → taken rs < r.published) ∧ FreshReturns rs

/-! ### Safety -/

/-- What the interrupt does to the two flags. -/
theorem update_flags (now : UInt32) (ibus : Ibus) (ch : UInt8) :
    (Ibus.ibusUpdateState now ibus ch).ibusDataReady =
        (Ibus.publishes ibus ch || ibus.ibusDataReady) ∧
      (Ibus.ibusUpdateState now ibus ch).ibusRcvdFirstPacket =
        (Ibus.publishes ibus ch || ibus.ibusRcvdFirstPacket) := by
  cases hp : Ibus.publishes ibus ch with
  | true => rw [Ibus.update_publish now hp]; exact ⟨rfl, rfl⟩
  | false =>
    obtain ⟨_, hready, hfirst, _⟩ := Ibus.sameOutput_of_not_publishes now hp
    rw [hready, hfirst]; exact ⟨rfl, rfl⟩

/-- The flag stands for a frame that no call has taken, and a blocking call that is past its loop
    has seen the flag. -/
structure Inv (ibus : Ibus) (pc : Pc) (published : ℕ) (returned : List Return) : Prop where
  flag : ibus.ibusDataReady = true → taken returned < published
  first : ibus.ibusRcvdFirstPacket = true ↔ 0 < published
  order : taken returned ≤ published
  seen : ∀ b, pc = .clear b →
    ibus.ibusRcvdFirstPacket = true ∧ (b = true → ibus.ibusDataReady = true)
  fresh : FreshReturns returned

def St.Ok (s : St) : Prop := Inv s.ibus s.pc s.published s.returned

theorem ok_usart {s : St} (h : s.Ok) (now : UInt32) (ch : UInt8) : (step s (.usart now ch)).Ok := by
  obtain ⟨hready, hfirst⟩ := update_flags now s.ibus ch
  cases hp : Ibus.publishes s.ibus ch with
  | true =>
    simp only [hp, Bool.true_or] at hready hfirst
    simp only [St.Ok, step, hp, if_true]
    refine ⟨fun _ => Nat.lt_succ_of_le h.order, ?_, Nat.le_succ_of_le h.order, ?_, h.fresh⟩
    · rw [hfirst]
      exact ⟨fun _ => Nat.succ_pos _, fun _ => rfl⟩
    · intro b _
      exact ⟨hfirst, fun _ => hready⟩
  | false =>
    simp only [hp, Bool.false_or] at hready hfirst
    simp only [St.Ok, step, hp]
    refine ⟨?_, ?_, h.order, ?_, h.fresh⟩
    · rw [hready]; exact h.flag
    · rw [hfirst]; exact h.first
    · rw [hready, hfirst]; exact h.seen

theorem ok_recv {s : St} (h : s.Ok) : (recvStep s).Ok := by
  cases hpc : s.pc with
  | out => rw [recvStep, hpc]; exact h
  | test b =>
    simp only [St.Ok, recvStep, hpc]
    refine ⟨h.flag, h.first, h.order, ?_, h.fresh⟩
    intro b' hclear
    split at hclear
    · exact absurd hclear (by simp)
    · next hexit =>
      -- past the loop without a look at the flag: not blocking, and a frame has been there
      simp only [Bool.or_eq_true, Bool.not_eq_true', not_or, Bool.not_eq_true,
        Bool.not_eq_false] at hexit
      obtain rfl : b = b' := by simpa using hclear
      refine ⟨hexit.2, fun hb => ?_⟩
      rw [hexit.1] at hb
      exact absurd hb (by decide)
  | ready b =>
    simp only [St.Ok, recvStep, hpc]
    refine ⟨h.flag, h.first, h.order, ?_, h.fresh⟩
    intro b' hclear
    cases hready : s.ibus.ibusDataReady with
    | false => simp [hready] at hclear
    | true => exact ⟨h.first.mpr (Nat.zero_lt_of_lt (h.flag hready)), fun _ => rfl⟩
  | clear b =>
    obtain ⟨hfirst, hready⟩ := h.seen b hpc
    simp only [St.Ok, recvStep, hpc]
    refine ⟨fun hfalse => absurd hfalse (by simp), h.first, le_rfl, fun b' hclear => ?_, ?_⟩
    · exact absurd hclear (by simp)
    · exact ⟨h.first.mp hfirst, h.order, fun hb => h.flag (hready hb), h.fresh⟩

theorem ok_step {s : St} (a : Act) (h : s.Ok) : (step s a).Ok := by
  cases a with
  | usart now ch => exact ok_usart h now ch
  | call b =>
    rw [step]
    split
    · exact ⟨h.flag, h.first, h.order, fun b' hclear => absurd hclear (by simp), h.fresh⟩
    · exact h
  | main => exact ok_recv h

theorem ok_init : init.Ok :=
  ⟨fun h => absurd h (by decide), by simp [init, Ibus.reset], le_rfl,
    fun b h => absurd h (by simp [init]), trivial⟩

theorem ok_exec (acts : List Act) : (exec acts).Ok :=
  inv_run step St.Ok (fun _ a => ok_step a) acts ok_init

/-- Every blocking call has taken a frame of its own. -/
theorem count_blocking_le : ∀ rs : List Return, FreshReturns rs →
    rs.countP Return.blocking ≤ taken rs
  | [], _ => Nat.zero_le _
  | r :: rs, ⟨_, hle, hlt, hrest⟩ => by
    have ih := count_blocking_le rs hrest
    cases hb : r.blocking with
    | true =>
      have hnew := hlt hb
      rw [List.countP_cons_of_pos hb, taken]
      omega
    | false =>
      rw [List.countP_cons_of_neg (by simp [hb]), taken]
      exact ih.trans hle

/-- CORRECT: in every interleaving of bytes and calls no call returns before the first frame, each
    blocking call returns after a frame that is new since the call before it cleared the flag, and
    so there are never more returns of blocking calls than frames. -/
theorem recv_fresh (acts : List Act) :
    FreshReturns (exec acts).returned ∧
      (exec acts).returned.countP Return.blocking ≤ (exec acts).published := by
  have h := ok_exec acts
  exact ⟨h.fresh, (count_blocking_le _ h.fresh).trans h.order⟩

/-! ### Progress -/

/-- How far the call is from its return; 5 while it waits for a frame. -/
def rank (ready : Bool) : Pc → ℕ
  | .out => 0
  | .clear _ => 1
  | .ready _ => if ready then 2 else 5
  | .test _ => if ready then 3 else 5

/-- What the call needs next: a frame, or the processor. -/
inductive Need where | frame | processor
  deriving DecidableEq

def need (ready : Bool) : Pc → Need
  | .ready _ | .test _ => if ready then .processor else .frame
  | _ => .processor

/-- The action that the call needs in the state `s`. -/
def Helps : Need → St → Act → Prop
  | .frame, s, .usart _ ch => Ibus.publishes s.ibus ch = true
  | .processor, _, .main => True
  | _, _, _ => False

theorem rank_step {s : St} (a : Act) (hpc : s.pc ≠ .out) :
    rank (step s a).ibus.ibusDataReady (step s a).pc < rank s.ibus.ibusDataReady s.pc ∨
      rank (step s a).ibus.ibusDataReady (step s a).pc ≤ rank s.ibus.ibusDataReady s.pc ∧
        need (step s a).ibus.ibusDataReady (step s a).pc = need s.ibus.ibusDataReady s.pc := by
  cases a with
  | usart now ch =>
    obtain ⟨hready, -⟩ := update_flags now s.ibus ch
    simp only [step, hready]
    cases hp : Ibus.publishes s.ibus ch with
    | false => exact Or.inr ⟨le_rfl, rfl⟩
    | true =>
      cases hr : s.ibus.ibusDataReady with
      | true => exact Or.inr ⟨le_rfl, rfl⟩
      | false => cases hcase : s.pc <;> simp [rank, need]
  | call b => rw [step, if_neg hpc]; exact Or.inr ⟨le_rfl, rfl⟩
  | main =>
    cases hcase : s.pc with
    | out => exact absurd hcase hpc
    | test b =>
      simp only [step, recvStep, hcase]
      cases hr : s.ibus.ibusDataReady <;> split <;> simp [rank, need]
    | ready b =>
      simp only [step, recvStep, hcase]
      cases hr : s.ibus.ibusDataReady <;> simp [rank, need]
    | clear b => simp [step, recvStep, hcase, rank]

theorem rank_helps {s : St} {a : Act} (hpc : s.pc ≠ .out)
    (h : Helps (need s.ibus.ibusDataReady s.pc) s a) :
    rank (step s a).ibus.ibusDataReady (step s a).pc < rank s.ibus.ibusDataReady s.pc := by
  cases hneed : need s.ibus.ibusDataReady s.pc with
  | frame =>
    -- the call waits in its loop, and the flag comes
    rw [hneed] at h
    cases a with
    | usart now ch =>
      have hp : Ibus.publishes s.ibus ch = true := h
      obtain ⟨hready, -⟩ := update_flags now s.ibus ch
      simp only [step, hready, hp, Bool.true_or]
      cases hr : s.ibus.ibusDataReady <;> cases hcase : s.pc <;> simp_all [rank, need]
    | call b => exact absurd h id
    | main => exact absurd h id
  | processor =>
    rw [hneed] at h
    cases a with
    | usart now ch => exact absurd h id
    | call b => exact absurd h id
    | main =>
      cases hcase : s.pc with
      | out => exact absurd hcase hpc
      | test b =>
        have hr : s.ibus.ibusDataReady = true := by
          cases hr : s.ibus.ibusDataReady <;> simp_all [need]
        simp only [step, recvStep, hcase, hr]
        split <;> simp [rank]
      | ready b =>
        have hr : s.ibus.ibusDataReady = true := by
          cases hr : s.ibus.ibusDataReady <;> simp_all [need]
        simp [step, recvStep, hcase, hr, rank]
      | clear b => simp [step, recvStep, hcase, rank]

open Filter in
/-- CORRECT: a caller that keeps running returns from each receive, blocking or not, while frames
    keep being published. -/
theorem recv_returns (as : ℕ → Act) (hmain : ∃ᶠ n in atTop, as n = .main)
    (hframes : ∃ᶠ n in atTop, ∃ now ch, as n = .usart now ch ∧
      Ibus.publishes (trace step init as n).ibus ch = true) (n : ℕ) :
    ∃ m, n ≤ m ∧ (trace step init as m).pc = .out := by
  set s : ℕ → St := fun k => trace step init as (n + k) with hs
  have hnext : ∀ k, s (k + 1) = step (s k) (as (n + k)) := fun _ => rfl
  have hreach : ∃ k, (s k).pc = .out := by
    refine exists_of_rank (fun k => rank (s k).ibus.ibusDataReady (s k).pc)
      (fun k => need (s k).ibus.ibusDataReady (s k).pc)
      (H := fun x k => Helps x (s k) (as (n + k))) ?_ ?_ ?_
    · intro k hk
      rw [hnext]
      exact Or.inr (rank_step (as (n + k)) hk)
    · intro k hk hhelps
      rw [hnext]
      exact Or.inr (rank_helps hk hhelps)
    · intro k _
      cases need (s k).ibus.ibusDataReady (s k).pc with
      | frame =>
        obtain ⟨m, hm, now, ch, hact, hp⟩ := frequently_atTop.mp hframes (n + k)
        refine ⟨m - n, by omega, ?_⟩
        have hidx : n + (m - n) = m := by omega
        simp only [hs, hidx, hact]
        exact hp
      | processor =>
        obtain ⟨m, hm, hact⟩ := frequently_atTop.mp hmain (n + k)
        refine ⟨m - n, by omega, ?_⟩
        have hidx : n + (m - n) = m := by omega
        simp only [hidx, hact]
        trivial
  obtain ⟨k, hk⟩ := hreach
  exact ⟨n + k, Nat.le_add_right n k, hk⟩

/-! A line that carries the same frame over and over. After each frame the caller takes a step, and
    calls again if it is outside. -/

def repeating (r : RxSample) (n : ℕ) : Act :=
  if n % 34 = 32 then .call true
  else if n % 34 = 33 then .main
  else .usart 0 ((Ibus.frameBytes r)[n % 34]?.getD 0)

/-- The parser is aligned with the line. -/
def Aligned (r : RxSample) (n : ℕ) (ibus : Ibus) : Prop :=
  if n % 34 < 32 then Ibus.Collected ((Ibus.frameBytes r).take (n % 34)) ibus
  else ibus.nbytes = 0

theorem nbytes_recvStep (s : St) : (recvStep s).ibus.nbytes = s.ibus.nbytes := by
  cases hpc : s.pc <;> simp only [recvStep, hpc]

theorem headerOk_take {f : List UInt8} (h : Ibus.HeaderOk f) (k : ℕ) :
    Ibus.HeaderOk (f.take k) := by
  constructor
  · intro b hb
    rw [List.getElem?_take] at hb
    split at hb
    · exact h.first b hb
    · exact absurd hb (by simp)
  · intro b hb
    rw [List.getElem?_take] at hb
    split at hb
    · exact h.second b hb
    · exact absurd hb (by simp)

/-- The next byte of the frame is collected, and the last one publishes it. -/
theorem aligned_byte {f : List UInt8} (hf : Ibus.ValidFrame f) {k : ℕ} (hk : k < 32) {ibus : Ibus}
    (h : Ibus.Collected (f.take k) ibus) :
    (k < 31 → Ibus.Collected (f.take (k + 1)) (Ibus.ibusUpdateState 0 ibus (f[k]?.getD 0))) ∧
      (k = 31 → Ibus.publishes ibus (f[k]?.getD 0) = true ∧
        (Ibus.ibusUpdateState 0 ibus (f[k]?.getD 0)).nbytes = 0) := by
  have hlen := hf.length
  have hlt : k < f.length := by omega
  have hbyte : f[k]?.getD 0 = f[k] := by rw [List.getElem?_eq_getElem hlt, Option.getD_some]
  have htake : f.take k ++ [f[k]] = f.take (k + 1) := (List.take_succ_eq_append_getElem hlt).symm
  have hshort : (f.take k).length = k := by rw [List.length_take]; omega
  rw [hbyte]
  constructor
  · intro hmid
    rw [← htake]
    refine h.step 0 (by omega) ?_
    rw [htake]
    exact headerOk_take hf.header _
  · intro h31
    refine ⟨?_, h.step_idle 0 (Or.inl (by omega))⟩
    rw [h.publishes_iff (by omega), htake, List.take_of_length_le (by omega)]
    exact hf

theorem aligned_step {r : RxSample} {n : ℕ} {s : St} (h : Aligned r n s.ibus) :
    Aligned r (n + 1) (step s (repeating r n)).ibus := by
  unfold Aligned at h ⊢
  by_cases hbyte : n % 34 < 32
  · rw [if_pos hbyte] at h
    obtain ⟨hmid, hlast⟩ := aligned_byte (Ibus.validFrame_frameBytes r) hbyte h
    have hact : repeating r n = .usart 0 ((Ibus.frameBytes r)[n % 34]?.getD 0) := by
      rw [repeating, if_neg (by omega), if_neg (by omega)]
    rw [hact]
    rcases (by omega : n % 34 < 31 ∨ n % 34 = 31) with hlt | h31
    · rw [show (n + 1) % 34 = n % 34 + 1 by omega, if_pos (by omega)]
      exact hmid hlt
    · rw [if_neg (by omega)]
      exact (hlast h31).2
  · rw [if_neg hbyte] at h
    rcases (by omega : n % 34 = 32 ∨ n % 34 = 33) with h32 | h33
    · have hact : repeating r n = .call true := if_pos h32
      rw [if_neg (by omega), hact, step]
      split <;> exact h
    · have hact : repeating r n = .main := by rw [repeating, if_neg (by omega), if_pos h33]
      rw [hact, show (n + 1) % 34 = 0 by omega, if_pos (by omega)]
      exact Ibus.collected_nil ((nbytes_recvStep s).trans h)

theorem aligned_trace (r : RxSample) (n : ℕ) :
    Aligned r n (trace step init (repeating r) n).ibus := by
  induction n with
  | zero => exact Ibus.collected_nil rfl
  | succ n ih => exact aligned_step ih

theorem recv_returns_repeating :
    ∃ m, 33 ≤ m ∧ (trace step init (repeating .zero) m).pc = .out := by
  refine recv_returns (repeating .zero) ?_ ?_ 33
  · rw [Filter.frequently_atTop]
    intro n
    exact ⟨34 * n + 33, by omega, by rw [repeating, if_neg (by omega), if_pos (by omega)]⟩
  · rw [Filter.frequently_atTop]
    intro n
    have hmod : (34 * n + 31) % 34 = 31 := by omega
    have hal := aligned_trace .zero (34 * n + 31)
    rw [Aligned, if_pos (by omega), hmod] at hal
    refine ⟨34 * n + 31, by omega, 0, (Ibus.frameBytes .zero)[31]?.getD 0, ?_,
      ((aligned_byte (Ibus.validFrame_frameBytes .zero) (by decide) hal).2 rfl).1⟩
    rw [repeating, if_neg (by omega), if_neg (by omega), hmod]

end FC.Recv

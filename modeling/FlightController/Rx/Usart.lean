import FlightController.Rx.Resync
import FlightController.Schemes.Clock

/-! The receive interrupt of the iBus driver (`IBUS_USART_ISR` of `src/rx/ibus.c`), which stands
    between the serial line and the parser.

    Of the USART the model assumes what its manual says. A received character goes to the data
    register and sets RXNE; with RXNE still set it is lost and sets ORE instead. Reading the data
    register clears RXNE, and the error flags that the read of the status register before it has
    shown. RXNE and ORE request the interrupt. Characters may arrive between any two register
    accesses of the handler, so a run is any list of arrivals and handler steps.

    The parser gets the characters in order and none of them twice (`received_in_order`), and it
    gets all of them exactly when none arrives while another still waits (`lossless_iff`). After a
    loss the handler does not get stuck (`isr_quiets`), and two frames later the receiver is back
    (`receiver_recovers`). -/

namespace FC.Usart
open Schemes Schemes.Clock

/-- The bits of `USART_SR` that the handler tests. -/
structure Sr where
  rxne : Bool
  ore : Bool
  fe : Bool
  ne : Bool
  pe : Bool
  deriving DecidableEq, Repr

/-- No flag. -/
def Sr.clear : Sr := ⟨false, false, false, false, false⟩

/-- `sr & (USART_SR_ORE | USART_SR_FE | USART_SR_NE | USART_SR_PE)`. -/
def Sr.error (sr : Sr) : Bool := sr.ore || sr.fe || sr.ne || sr.pe

/-- The receiver: its status, its data register, and what the latest read of the status has shown
    since the data register was read. -/
structure Regs where
  sr : Sr
  dr : UInt8
  seen : Sr
  deriving DecidableEq, Repr

namespace Regs

/-- A character comes in, with a framing error, noise or a parity error. -/
def receive (r : Regs) (ch : UInt8) (fe ne pe : Bool) : Regs :=
  let sr := { r.sr with fe := r.sr.fe || fe, ne := r.sr.ne || ne, pe := r.sr.pe || pe }
  if r.sr.rxne then { r with sr := { sr with ore := true } }
  else { r with sr := { sr with rxne := true }, dr := ch }

/-- A read of `USART_SR`. -/
def readSr (r : Regs) : Regs := { r with seen := r.sr }

/-- A read of `USART_DR`. -/
def readDr (r : Regs) : Regs :=
  { r with
    sr :=
      { rxne := false
        ore := r.sr.ore && !r.seen.ore
        fe := r.sr.fe && !r.seen.fe
        ne := r.sr.ne && !r.seen.ne
        pe := r.sr.pe && !r.seen.pe }
    seen := .clear }

/-- The receive interrupt is requested. -/
def request (r : Regs) : Bool := r.sr.rxne || r.sr.ore

end Regs

/-- Where the handler stands: not running, before the dummy read, before `usart_recv`. The first two
    read the local `sr`. -/
inductive Pc where
  | idle
  | dummy (sr : Sr)
  | recv
  deriving DecidableEq, Repr

/-- Registers, handler and parser. The last two fields are history: the characters that came in on
    the line, and those handed to the parser, with the timer value at which they were. -/
structure St where
  clock : ℕ
  regs : Regs
  pc : Pc
  ibus : Ibus
  line : List UInt8
  fed : Ibus.Stream

/-- True time passes, a character comes in, or the handler takes its next step. -/
inductive Act where
  | tick (d : ℕ)
  | char (ch : UInt8) (fe ne pe : Bool)
  | isr
  deriving DecidableEq, Repr

/-- `if (sr & USART_SR_RXNE)`. -/
def afterClear (sr : Sr) : Pc := if sr.rxne then .recv else .idle

/-- The first test of the handler. -/
def afterRead (sr : Sr) : Pc := if sr.error then .dummy sr else afterClear sr

/-- `IBUS_USART_ISR`, one register access at a time. -/
def isrStep (s : St) : St :=
  match s.pc with
  | .idle =>
    if s.regs.request then { s with regs := s.regs.readSr, pc := afterRead s.regs.sr } else s
  | .dummy sr => { s with regs := s.regs.readDr, pc := afterClear sr }
  | .recv =>
    { s with
      regs := s.regs.readDr
      ibus := Ibus.ibusUpdateState (stamp s.clock) s.ibus s.regs.dr
      fed := s.fed ++ [(stamp s.clock, s.regs.dr)]
      pc := .idle }

def step (s : St) : Act → St
  | .tick d => { s with clock := s.clock + d }
  | .char ch fe ne pe => { s with regs := s.regs.receive ch fe ne pe, line := s.line ++ [ch] }
  | .isr => isrStep s

/-- After `ibus_setup`. -/
def init : St where
  clock := 0
  regs := ⟨.clear, 0, .clear⟩
  pc := .idle
  ibus := Ibus.reset
  line := []
  fed := []

/-- The state after a list of actions. -/
def exec (acts : List Act) : St := run step init acts

/-- The character on its way to the parser: in the data register and still to be read by
    `usart_recv`. -/
def pending (regs : Regs) (pc : Pc) : List UInt8 :=
  if regs.sr.rxne || pc = .recv then [regs.dr] else []

/-- Nothing to do for the handler. -/
structure Quiet (regs : Regs) (pc : Pc) : Prop where
  idle : pc = .idle
  rxne : regs.sr.rxne = false
  ore : regs.sr.ore = false

instance (regs : Regs) (pc : Pc) : Decidable (Quiet regs pc) :=
  decidable_of_iff (pc = .idle ∧ regs.sr.rxne = false ∧ regs.sr.ore = false)
    ⟨fun ⟨h1, h2, h3⟩ => ⟨h1, h2, h3⟩, fun h => ⟨h.idle, h.rxne, h.ore⟩⟩

/-! ### One step -/

theorem pending_of_idle {regs : Regs} {pc : Pc} (hpc : pc ≠ .recv) :
    pending regs pc = if regs.sr.rxne then [regs.dr] else [] := by
  simp [pending, hpc]

/-- A character that meets nothing in the data register is the one on its way. -/
theorem pending_receive {regs : Regs} {pc : Pc} {ch : UInt8} {fe ne pe : Bool} :
    pending (regs.receive ch fe ne pe) pc = if regs.sr.rxne then [regs.dr] else [ch] := by
  cases h : regs.sr.rxne <;> simp [pending, Regs.receive, h]

theorem pending_readDr (regs : Regs) (sr : Sr) :
    pending regs.readDr (afterClear sr) = if sr.rxne then [regs.dr] else [] := by
  cases h : sr.rxne <;> simp [pending, Regs.readDr, afterClear, h]

theorem afterRead_cases (sr : Sr) :
    (sr.error = true ∧ afterRead sr = .dummy sr) ∨
      (sr.error = false ∧ sr.rxne = true ∧ afterRead sr = .recv) ∨
        (sr.error = false ∧ sr.rxne = false ∧ afterRead sr = .idle) := by
  cases he : sr.error <;> cases hr : sr.rxne <;> simp [afterRead, afterClear, he, hr]

/-- The read of the status leaves the character on its way where it is. -/
theorem pending_readSr (regs : Regs) :
    pending regs.readSr (afterRead regs.sr) = pending regs .idle := by
  obtain ⟨_, hpc⟩ | ⟨_, hr, hpc⟩ | ⟨_, hr, hpc⟩ := afterRead_cases regs.sr <;>
    simp_all [pending, Regs.readSr]

/-- `taken`: the parser saw characters of the line, and another one may be on its way. `status`:
    what the handler saw in the status register before the dummy read is still there. `parsed`: the
    parser's state is that of the characters handed to it. -/
structure InOrder (s : St) : Prop where
  taken : (Ibus.bytesOf s.fed ++ pending s.regs s.pc).Sublist s.line
  status : ∀ sr, s.pc = .dummy sr → sr.rxne = true → s.regs.sr.rxne = true
  parsed : s.ibus = Ibus.feed Ibus.reset s.fed

theorem inOrder_isr {s : St} (h : InOrder s) : InOrder (isrStep s) := by
  obtain ⟨htaken, hstatus, hparsed⟩ := h
  cases hpc : s.pc with
  | idle =>
    rw [hpc] at htaken
    simp only [isrStep, hpc]
    by_cases hreq : s.regs.request = true
    · rw [if_pos hreq]
      refine ⟨?_, ?_, hparsed⟩
      · rw [pending_readSr]; exact htaken
      · intro sr hdummy hrxne
        obtain ⟨_, hnext⟩ | ⟨_, _, hnext⟩ | ⟨_, _, hnext⟩ := afterRead_cases s.regs.sr
        all_goals simp_all [Regs.readSr]
    · rw [if_neg hreq]
      exact ⟨by rw [hpc]; exact htaken, hstatus, hparsed⟩
  | dummy sr =>
    rw [hpc, pending_of_idle (by simp)] at htaken
    simp only [isrStep, hpc]
    refine ⟨?_, ?_, hparsed⟩
    · rw [pending_readDr]
      cases hr : sr.rxne with
      | true =>
        rw [hstatus sr hpc hr] at htaken
        exact htaken
      | false => exact (List.sublist_append_left _ _).trans (by simpa using htaken)
    · intro sr' hdummy
      cases hr : sr.rxne <;> simp [afterClear, hr] at hdummy
  | recv =>
    simp only [isrStep, hpc]
    refine ⟨?_, fun sr hdummy => by simp at hdummy, ?_⟩
    · rw [Ibus.bytesOf_append]
      simpa [pending, Regs.readDr, Ibus.bytesOf, hpc] using htaken
    · rw [Ibus.feed_concat, ← hparsed]

theorem inOrder_step {s : St} (a : Act) (h : InOrder s) : InOrder (step s a) := by
  cases a with
  | tick d => exact ⟨h.taken, h.status, h.parsed⟩
  | char ch fe ne pe =>
    obtain ⟨htaken, hstatus, hparsed⟩ := h
    refine ⟨?_, ?_, hparsed⟩
    · show (_ ++ pending (s.regs.receive ch fe ne pe) s.pc).Sublist (s.line ++ [ch])
      rw [pending_receive]
      cases hr : s.regs.sr.rxne with
      | true =>
        -- an overrun: the character is lost
        have hold : pending s.regs s.pc = [s.regs.dr] := by simp [pending, hr]
        rw [hold] at htaken
        exact htaken.trans (List.sublist_append_left _ _)
      | false => exact ((List.sublist_append_left _ _).trans htaken).append (List.Sublist.refl _)
    · intro sr hdummy hrxne
      show (s.regs.receive ch fe ne pe).sr.rxne = true
      simp [Regs.receive, hstatus sr hdummy hrxne]
  | isr => exact inOrder_isr h

theorem inOrder_init : InOrder init := ⟨by simp [init, pending, Sr.clear, Ibus.bytesOf], nofun, rfl⟩

theorem inOrder_exec (acts : List Act) : InOrder (exec acts) :=
  inv_run step InOrder (fun _ a => inOrder_step a) acts inOrder_init

/-- CORRECT: whatever the schedule of arrivals, errors and handler steps, the parser is given
    characters of the line, in their order and none twice, and its state is that of these. -/
theorem received_in_order (acts : List Act) :
    (Ibus.bytesOf (exec acts).fed).Sublist (exec acts).line ∧
      (exec acts).ibus = Ibus.feed Ibus.reset (exec acts).fed := by
  have h := inOrder_exec acts
  exact ⟨(List.sublist_append_left _ _).trans h.taken, h.parsed⟩

/-! ### No character lost -/

/-- A character comes in only when none is on its way. -/
def Prompt (s : St) : Act → Prop
  | .char .. => pending s.regs s.pc = []
  | _ => True

instance (s : St) (a : Act) : Decidable (Prompt s a) :=
  match a with
  | .char .. => inferInstanceAs (Decidable (_ = _))
  | .tick _ => isTrue trivial
  | .isr => isTrue trivial

/-- Every character of the line was handed to the parser or is on its way to it. -/
def Complete (s : St) : Prop := Ibus.bytesOf s.fed ++ pending s.regs s.pc = s.line

/-- Since the state `s₀`: the parser was given all characters but the one on its way (`taken`),
    which the handler knows of (`status`), and there was no overrun. -/
structure Lossless (s₀ s : St) : Prop where
  taken : ∃ bs, s.fed = s₀.fed ++ bs ∧ s.ibus = Ibus.feed s₀.ibus bs ∧
    s.line = s₀.line ++ (Ibus.bytesOf bs ++ pending s.regs s.pc)
  status : ∀ sr, s.pc = .dummy sr → sr.rxne = true ∧ s.regs.sr.rxne = true
  ore : s.regs.sr.ore = false

theorem Quiet.pending {regs : Regs} {pc : Pc} (h : Quiet regs pc) : pending regs pc = [] := by
  simp [Usart.pending, h.idle, h.rxne]

theorem Quiet.lossless {s : St} (h : Quiet s.regs s.pc) : Lossless s s := by
  refine ⟨⟨[], by simp, rfl, by simp [h.pending, Ibus.bytesOf]⟩, fun sr hdummy => ?_, h.ore⟩
  rw [h.idle] at hdummy
  exact absurd hdummy (by simp)

theorem lossless_isr {s₀ s : St} (h : Lossless s₀ s) : Lossless s₀ (isrStep s) := by
  obtain ⟨⟨bs, hfed, hibus, hline⟩, hstatus, hore⟩ := h
  cases hpc : s.pc with
  | idle =>
    rw [hpc] at hline
    simp only [isrStep, hpc]
    by_cases hreq : s.regs.request = true
    · have hrxne : s.regs.sr.rxne = true := by simpa [Regs.request, hore] using hreq
      rw [if_pos hreq]
      refine ⟨⟨bs, hfed, hibus, ?_⟩, ?_, hore⟩
      · rw [pending_readSr]; exact hline
      · intro sr hdummy
        obtain ⟨_, hnext⟩ | ⟨_, _, hnext⟩ | ⟨_, _, hnext⟩ := afterRead_cases s.regs.sr
        all_goals simp_all [Regs.readSr]
    · rw [if_neg hreq]
      exact ⟨⟨bs, hfed, hibus, by rw [hpc]; exact hline⟩, hstatus, hore⟩
  | dummy sr =>
    obtain ⟨hr, hrxne⟩ := hstatus sr hpc
    rw [hpc, pending_of_idle (by simp), hrxne] at hline
    simp only [isrStep, hpc]
    refine ⟨⟨bs, hfed, hibus, ?_⟩, ?_, ?_⟩
    · rw [pending_readDr, hr]; exact hline
    · intro sr' hdummy
      simp [afterClear, hr] at hdummy
    · simp [Regs.readDr, hore]
  | recv =>
    simp only [isrStep, hpc]
    refine ⟨⟨bs ++ [(stamp s.clock, s.regs.dr)], ?_, ?_, ?_⟩,
      fun sr hdummy => by simp at hdummy, ?_⟩
    · rw [hfed, List.append_assoc]
    · rw [Ibus.feed_concat, ← hibus]
    · rw [Ibus.bytesOf_append]
      simpa [pending, Regs.readDr, Ibus.bytesOf, hpc] using hline
    · simp [Regs.readDr, hore]

theorem lossless_step {s₀ s : St} (a : Act) (h : Lossless s₀ s) (hp : Prompt s a) :
    Lossless s₀ (step s a) := by
  cases a with
  | tick d => exact ⟨h.taken, h.status, h.ore⟩
  | char ch fe ne pe =>
    obtain ⟨⟨bs, hfed, hibus, hline⟩, hstatus, hore⟩ := h
    have hnone : pending s.regs s.pc = [] := hp
    have hrxne : s.regs.sr.rxne = false := by
      cases hr : s.regs.sr.rxne with
      | true => simp [pending, hr] at hnone
      | false => rfl
    refine ⟨⟨bs, hfed, hibus, ?_⟩, ?_, ?_⟩
    · show s.line ++ [ch] = _ ++ (_ ++ pending (s.regs.receive ch fe ne pe) s.pc)
      rw [pending_receive, hrxne, hline, hnone, List.append_nil, List.append_assoc]
      rfl
    · intro sr hdummy
      have hseen := (hstatus sr hdummy).2
      rw [hrxne] at hseen
      exact absurd hseen (by decide)
    · show (s.regs.receive ch fe ne pe).sr.ore = false
      simp [Regs.receive, hrxne, hore]
  | isr => exact lossless_isr h

theorem lossless_run {s : St} (hq : Quiet s.regs s.pc) {acts : List Act}
    (hp : Along step Prompt s acts) : Lossless s (run step s acts) :=
  inv_run_along step (Lossless s) (fun _ a hP hI => lossless_step a hI hP) acts s hp hq.lossless

theorem quiet_init : Quiet init.regs init.pc := ⟨rfl, rfl, rfl⟩

theorem Lossless.complete {s : St} (h : Lossless init s) : Complete s := by
  obtain ⟨bs, hfed, -, hline⟩ := h.taken
  rw [Complete, hfed, hline]
  rfl

/-- A character that comes in while another is on its way is lost, or makes that one lost. -/
theorem prompt_of_complete {s : St} (a : Act) (h : Complete s) (h' : Complete (step s a)) :
    Prompt s a := by
  cases a with
  | char ch fe ne pe =>
    have hafter : Ibus.bytesOf s.fed ++ pending (s.regs.receive ch fe ne pe) s.pc =
        s.line ++ [ch] := h'
    rw [pending_receive, ← h, List.append_assoc] at hafter
    have hlen := congrArg List.length (List.append_cancel_left hafter)
    rw [List.length_append, List.length_singleton] at hlen
    have hone : (if s.regs.sr.rxne then [s.regs.dr] else [ch]).length = 1 := by split <;> rfl
    exact List.eq_nil_of_length_eq_zero (by omega)
  | tick d => trivial
  | isr => trivial

/-- CORRECT exactly for these runs: the parser misses no character if and only if none comes in
    while another is still on its way. -/
theorem lossless_iff (acts : List Act) :
    Always step Complete init acts ↔ Along step Prompt init acts :=
  always_iff_along step (Lossless init) (fun _ hI => hI.complete)
    (fun _ a hI hP => lossless_step a hI hP)
    (fun _ a hI hnext => prompt_of_complete a hI.complete hnext) acts quiet_init.lossless

/-! ### After a loss -/

/-- How many handler steps it takes at most until the handler has nothing to do. -/
def left (regs : Regs) : Pc → ℕ
  | .idle => if regs.sr.rxne then 5 else if regs.sr.ore then 2 else 0
  | .dummy sr => if sr.rxne then 4 else if regs.sr.ore && !regs.seen.ore then 3 else 1
  | .recv => 3

theorem left_le (regs : Regs) (pc : Pc) : left regs pc ≤ 5 := by
  cases pc with
  | idle => simp only [left]; split_ifs <;> omega
  | dummy sr => simp only [left]; split_ifs <;> omega
  | recv => simp [left]

/-- Once the data register is empty, only an overrun is left to clear. -/
theorem left_readDr (regs : Regs) :
    left regs.readDr .idle = if regs.sr.ore && !regs.seen.ore then 2 else 0 := by
  simp [left, Regs.readDr]

theorem left_isr (s : St) :
    left (isrStep s).regs (isrStep s).pc ≤ left s.regs s.pc - 1 := by
  cases hpc : s.pc with
  | idle =>
    simp only [isrStep, hpc]
    by_cases hreq : s.regs.request = true
    · rw [if_pos hreq]
      obtain ⟨herr, hnext⟩ | ⟨_, hr, hnext⟩ | ⟨herr, hr, hnext⟩ := afterRead_cases s.regs.sr
      · -- the dummy read comes next, and the overrun flag is seen
        cases hr : s.regs.sr.rxne with
        | true => simp [hnext, left, hr]
        | false =>
          have hore : s.regs.sr.ore = true := by simpa [Regs.request, hr] using hreq
          simp [hnext, left, Regs.readSr, hr, hore]
      · simp [hnext, left, hr]
      · have hore : s.regs.sr.ore = true := by simpa [Regs.request, hr] using hreq
        simp [Sr.error, hore] at herr
    · simp only [if_neg hreq, hpc]
      simp only [Regs.request, Bool.or_eq_true, not_or, Bool.not_eq_true] at hreq
      simp [left, hreq.1, hreq.2]
  | dummy sr =>
    simp only [isrStep, hpc]
    cases hr : sr.rxne with
    | true => simp [afterClear, hr, left]
    | false =>
      rw [afterClear, hr, if_neg (by decide), left_readDr]
      simp only [left, hr]
      split <;> simp
  | recv =>
    simp only [isrStep, hpc, left_readDr]
    simp only [left]
    split <;> omega

theorem quiet_of_left {regs : Regs} {pc : Pc} (h : left regs pc = 0) : Quiet regs pc := by
  cases pc with
  | idle =>
    simp only [left] at h
    split_ifs at h with hrxne hore
    exact ⟨rfl, by simpa using hrxne, by simpa using hore⟩
  | dummy sr =>
    simp only [left] at h
    split_ifs at h
  | recv => simp [left] at h

/-- No character comes in. -/
def Silent (acts : List Act) : Prop := ∀ ch fe ne pe, Act.char ch fe ne pe ∉ acts

theorem left_run (acts : List Act) : ∀ s : St, Silent acts →
    left (run step s acts).regs (run step s acts).pc ≤ left s.regs s.pc - acts.count .isr := by
  induction acts with
  | nil => intro s _; simp
  | cons a acts ih =>
    intro s hsilent
    have hrest : Silent acts := fun ch fe ne pe hmem =>
      hsilent ch fe ne pe (List.mem_cons_of_mem a hmem)
    rw [run_cons]
    have hnext := ih (step s a) hrest
    cases a with
    | tick d =>
      rw [List.count_cons_of_ne (by simp)]
      exact hnext
    | char ch fe ne pe => exact absurd List.mem_cons_self (hsilent ch fe ne pe)
    | isr =>
      have hdown : left (step s .isr).regs (step s .isr).pc ≤ left s.regs s.pc - 1 := left_isr s
      rw [List.count_cons_self]
      omega

/-- CORRECT: the handler never gets stuck on an error. From any state, five of its steps on a silent
    line leave no request behind. -/
theorem isr_quiets (s : St) {acts : List Act} (hsilent : Silent acts)
    (hsteps : 5 ≤ acts.count .isr) :
    Quiet (run step s acts).regs (run step s acts).pc := by
  apply quiet_of_left
  have hrun := left_run acts s hsilent
  have hle := left_le s.regs s.pc
  omega

/-- An overrun met in the middle of the handler. -/
def overrun : St :=
  exec [.char 0x20 false false false, .isr, .char 0x40 true false false,
    .char 0x41 false false false]

theorem isr_quiets_overrun :
    Quiet (run step overrun [.isr, .isr, .tick 7, .isr, .isr, .isr]).regs
      (run step overrun [.isr, .isr, .tick 7, .isr, .isr, .isr]).pc :=
  isr_quiets overrun (by intro ch fe ne pe; simp) (by decide)

/-- A stream of concatenated frames is a concatenation of streams of one frame. -/
theorem exists_streams : ∀ (frames : List (List UInt8)) (bs : Ibus.Stream),
    Ibus.bytesOf bs = frames.flatten → ∃ streams : List Ibus.Stream,
      streams.flatten = bs ∧ streams.map Ibus.bytesOf = frames
  | [], bs, h => ⟨[], (List.map_eq_nil_iff.mp h).symm, rfl⟩
  | f :: frames, bs, h => by
    obtain ⟨as, cs, rfl, has, hcs⟩ := List.map_eq_append_iff.mp h
    obtain ⟨streams, rfl, hmap⟩ := exists_streams frames cs hcs
    exact ⟨as :: streams, rfl, by rw [List.map_cons, hmap]; exact congrArg (· :: frames) has⟩

/-- A parser in any state, given one or more in-range frames and another one: the last is
    published. -/
theorem last_published {s : Ibus} (hs : s.nbytes ≤ 31) {before : List Ibus.Stream}
    {last : Ibus.Stream} (hne : before ≠ [])
    (hranged : ∀ bs ∈ before ++ [last], Ibus.RangedFrame (Ibus.bytesOf bs)) :
    let s' := Ibus.feed s (before ++ [last]).flatten
    s'.nbytes = 0 ∧ s'.ibusData = Ibus.frameSample (Ibus.bytesOf last) ∧ s'.ibusDataReady = true ∧
      ∃ ch, last.getLast? = some (s'.timeLastRcvdPacket, ch) := by
  have hidle : (Ibus.feed s before.flatten).nbytes = 0 :=
    Ibus.nbytes_after_frames before s hs hne fun bs hbs =>
      hranged bs (List.mem_append_left _ hbs)
  have hvalid : Ibus.ValidFrame (Ibus.bytesOf last) := (hranged last (by simp)).toValidFrame
  have hsplit : Ibus.feed s (before ++ [last]).flatten =
      Ibus.feed (Ibus.feed s before.flatten) last := by
    rw [← Ibus.feed_append]
    simp
  intro s'
  have hrec := Ibus.receives_of_idle hidle last hvalid
  simp only [s', hsplit]
  exact ⟨hrec.idle, hrec.ibusData, hrec.ready, hrec.time⟩

/-- CORRECT: the receiver recovers. After any run whatever, with characters lost or damaged, let the
    handler be quiet and the line then carry in-range frames, of which no character comes in while
    another is on its way. The second frame and every later one, once it was taken in, is the sample
    that the driver holds, with the time of its own last byte. -/
theorem receiver_recovers (acts acts' : List Act)
    (hquiet : Quiet (exec acts).regs (exec acts).pc)
    (hprompt : Along step Prompt (exec acts) acts')
    (frames : List (List UInt8)) (f : List UInt8) (hne : frames ≠ [])
    (hranged : ∀ g ∈ frames ++ [f], Ibus.RangedFrame g)
    (hline : (exec (acts ++ acts')).line = (exec acts).line ++ (frames ++ [f]).flatten)
    (hdone : pending (exec (acts ++ acts')).regs (exec (acts ++ acts')).pc = []) :
    let s := exec (acts ++ acts')
    s.ibus.nbytes = 0 ∧ s.ibus.ibusData = Ibus.frameSample f ∧ s.ibus.ibusDataReady = true ∧
      ∃ ch, s.fed.getLast? = some (s.ibus.timeLastRcvdPacket, ch) := by
  have hloss := lossless_run hquiet hprompt
  rw [exec, ← run_append] at hloss
  obtain ⟨bs, hfed, hibus, htaken⟩ := hloss.taken
  -- the characters handed over since then are those of the frames
  have hbytes : Ibus.bytesOf bs = (frames ++ [f]).flatten := by
    have hboth := hline.symm.trans htaken
    rw [show run step init (acts ++ acts') = exec (acts ++ acts') from rfl, hdone,
      List.append_nil] at hboth
    exact (List.append_cancel_left hboth).symm
  obtain ⟨streams, rfl, hmap⟩ := exists_streams _ bs hbytes
  obtain ⟨before, rest, rfl, hbefore, hrest⟩ := List.map_eq_append_iff.mp hmap
  obtain ⟨last, rfl, hlast⟩ := List.map_eq_singleton_iff.mp hrest
  have hstate : (exec (acts ++ acts')).ibus =
      Ibus.feed (exec acts).ibus (before ++ [last]).flatten := hibus
  have hnbytes : (exec acts).ibus.nbytes ≤ 31 := by
    rw [(inOrder_exec acts).parsed]
    exact Ibus.nbytes_feed_le rfl _
  have hbefore' : before ≠ [] := by
    rintro rfl
    exact hne hbefore.symm
  have hranged' : ∀ bs ∈ before ++ [last], Ibus.RangedFrame (Ibus.bytesOf bs) := by
    intro bs hbs
    apply hranged
    rw [← hmap]
    exact List.mem_map_of_mem hbs
  obtain ⟨hn, hdata, hready, ch, htime⟩ := last_published hnbytes hbefore' hranged'
  rw [← hstate] at hn hdata hready htime
  refine ⟨hn, hdata.trans (congrArg Ibus.frameSample hlast), hready, ch, ?_⟩
  -- the last byte handed over is the last one of the last frame
  have hne' : last ≠ [] := by
    rintro rfl
    simp at htime
  have hcut : (exec (acts ++ acts')).fed = ((exec acts).fed ++ before.flatten) ++ last := by
    have hall : (exec (acts ++ acts')).fed = (exec acts).fed ++ (before ++ [last]).flatten := hfed
    rw [hall]
    simp
  rw [hcut, List.getLast?_append_of_ne_nil _ hne']
  exact htime

/-- The handler takes in each character before the next one. -/
def served (chars : List UInt8) : List Act :=
  chars.flatMap fun ch => [.char ch false false false, .isr, .isr]

/-- Two centred frames after an overrun. -/
theorem receiver_recovers_overrun :
    let acts : List Act :=
      [.char 0x20 false false false, .char 0x40 false false false, .isr, .isr, .isr]
    let frame := Ibus.frameBytes Ibus.centredSample
    let s := exec (acts ++ served ([frame] ++ [frame]).flatten)
    s.ibus.nbytes = 0 ∧ s.ibus.ibusData = Ibus.frameSample frame ∧ s.ibus.ibusDataReady = true ∧
      ∃ ch, s.fed.getLast? = some (s.ibus.timeLastRcvdPacket, ch) :=
  receiver_recovers _ _ (by decide) (by decide +kernel) [Ibus.frameBytes Ibus.centredSample] _
    (by decide)
    (by
      intro g hg
      have hframe : g = Ibus.frameBytes Ibus.centredSample := by simpa using hg
      rw [hframe]
      exact Ibus.rangedFrame_centred)
    (by decide +kernel) (by decide +kernel)

end FC.Usart

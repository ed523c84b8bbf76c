import Mathlib.Data.List.Forall2
import FlightController.Schemes.Fair
import FlightController.Schemes.Window
import FlightController.Telemetry.Stream

/-! The live plots of the host (`start_reader` of `scripts/telemetry/telemetry.py`, and
    `update_plot` of the scripts that draw). A thread reads packets and appends those of one type to
    bounded buffers, a time and one value per field at a time; the timer of the window copies the
    buffers. Both do so under a lock, and here every append and every copy is a step of its own:
    either thread may be stopped between any two.

    A copy is never torn: all curves of a plot show the same packets, the latest ones at that time,
    each in its place (`drawn_aligned`). One packet type cannot be read so at all. `PACKET_DEFS`
    declares a flight mode that the packet has no value for, and the exception ends the thread at
    its first packet (`fcOut_never_drawn`). -/

namespace FC.Telemetry
open Schemes Schemes.Window

/-- What can end the thread: an exception of `read_packet`, or a packet without a declared field. -/
inductive Exn where
  | pyError (e : PyError)
  | keyError (name : String)
  deriving DecidableEq, Repr

/-- A script that plots: the packet type it reads, and the fields whose buffers it copies. There are
    buffers for the declared fields only. -/
structure Script where
  packetId : TelemetryId
  plotted : List String
  known : ∀ f ∈ plotted, f ∈ (packetDefs packetId).fields

/-- `plot_pid.py`. -/
def plotPid : Script :=
  ⟨.pidPitch, ["desired", "actual", "pterm", "iterm", "dterm"], by decide⟩

/-- `plot_imu_si.py`. -/
def plotImuSi : Script := ⟨.imuSi, (packetDefs .imuSi).fields, fun _ hf => hf⟩

/-- `plot_imu_angles.py`. -/
def plotImuAngles : Script := ⟨.imuAngles, ["fused_pitch", "fused_roll"], by decide⟩

/-- `fields` of `start_reader`. -/
def Script.fields (sc : Script) : List String := (packetDefs sc.packetId).fields

namespace Reader

inductive Who where | worker | plot
  deriving DecidableEq, Repr

variable {τ : Type}

/-- Where the thread stands: before `read_packet`; with a packet, before it looks at the clock; with
    its time, before the lock; inside the lock, before the time or with some fields to append. -/
inductive WorkerPc (τ : Type) where
  | read
  | clock (pkt : Packet)
  | acquire (now : τ) (pkt : Packet)
  | time (now : τ) (pkt : Packet)
  | fields (now : τ) (pkt : Packet) (todo : List String)
  | dead (e : Exn)

/-- Copies of the buffers. -/
structure Snapshot (τ : Type) where
  x : List τ
  cols : List (String × List PyVal)

/-- Where `update_plot` stands: not called; inside the lock, before the length test, before the
    copy of the times, or with some copies made and some fields to copy. -/
inductive PlotPc (τ : Type) where
  | idle
  | test
  | time
  | fields (copied : Snapshot τ) (todo : List String)

/-- The two threads, with what they share. The last two fields are history: the packets whose
    append is complete, and the plots drawn. -/
structure St (τ : Type) where
  conn : Conn
  timeBuf : List τ
  data : String → List PyVal
  lock : Option Who
  worker : WorkerPc τ
  plot : PlotPc τ
  log : List (τ × Packet)
  drawn : List (Snapshot τ)

/-- The thread takes its next step (`now` is the time it would read), or `update_plot` does. -/
inductive Act (τ : Type) where
  | worker (now : τ)
  | plot

variable (sc : Script) (maxlen : ℕ)

/-- The next step of `worker`. -/
def workerStep (s : St τ) (now : τ) : St τ :=
  match s.worker with
  | .read =>
    match readPacket s.conn with
    | .error e => { s with worker := .dead (.pyError e) }
    | .ok (pkt, conn) =>
      { s with conn, worker := if pkt.id = sc.packetId then .clock pkt else .read }
  | .clock pkt => { s with worker := .acquire now pkt }
  | .acquire now pkt =>
    match s.lock with
    | none => { s with lock := some .worker, worker := .time now pkt }
    | some _ => s
  | .time now pkt =>
    { s with timeBuf := push maxlen s.timeBuf now, worker := .fields now pkt sc.fields }
  | .fields now pkt [] =>
    { s with lock := none, worker := .read, log := s.log ++ [(now, pkt)] }
  | .fields now pkt (f :: todo) =>
    match pkt.fields.lookup f with
    | none => { s with lock := none, worker := .dead (.keyError f) }
    | some v =>
      { s with
        data := Function.update s.data f (push maxlen (s.data f) v)
        worker := .fields now pkt todo }
  | .dead _ => s

/-- The next step of `update_plot`, or its next call. -/
def plotStep (s : St τ) : St τ :=
  match s.plot with
  | .idle =>
    match s.lock with
    | none => { s with lock := some .plot, plot := .test }
    | some _ => s
  | .test =>
    if s.timeBuf.length < 2 then { s with lock := none, plot := .idle }
    else { s with plot := .time }
  | .time => { s with plot := .fields ⟨s.timeBuf, []⟩ sc.plotted }
  | .fields copied [] => { s with lock := none, plot := .idle, drawn := s.drawn ++ [copied] }
  | .fields copied (f :: todo) =>
    { s with plot := .fields { copied with cols := copied.cols ++ [(f, s.data f)] } todo }

def step (s : St τ) : Act τ → St τ
  | .worker now => workerStep sc maxlen s now
  | .plot => plotStep sc s

/-- `start_reader` has started the thread. -/
def init (conn : Conn) : St τ := ⟨conn, [], fun _ => [], none, .read, .idle, [], []⟩

/-- The state after a list of actions. -/
def exec (conn : Conn) (acts : List (Act τ)) : St τ := run (step sc maxlen) (init conn) acts

/-- What a step of the worker does: `read_packet` fails, takes or passes over a packet; the clock;
    the lock; the appends, of which the first missing field ends the thread; the unlock. Or it waits
    for the lock, or has died. -/
inductive WorkerStep (s : St τ) : St τ → Prop
  | failed {e : PyError} (hpc : s.worker = .read) (hread : readPacket s.conn = .error e) :
      WorkerStep s { s with worker := .dead (.pyError e) }
  | took {pkt : Packet} {conn : Conn} (hpc : s.worker = .read)
      (hread : readPacket s.conn = .ok (pkt, conn)) (hid : pkt.id = sc.packetId) :
      WorkerStep s { s with conn, worker := .clock pkt }
  | passed {pkt : Packet} {conn : Conn} (hpc : s.worker = .read)
      (hread : readPacket s.conn = .ok (pkt, conn)) (hid : pkt.id ≠ sc.packetId) :
      WorkerStep s { s with conn, worker := .read }
  | clocked {pkt : Packet} {now : τ} (hpc : s.worker = .clock pkt) :
      WorkerStep s { s with worker := .acquire now pkt }
  | locked {pkt : Packet} {now : τ} (hpc : s.worker = .acquire now pkt) (hlock : s.lock = none) :
      WorkerStep s { s with lock := some .worker, worker := .time now pkt }
  | timed {pkt : Packet} {now : τ} (hpc : s.worker = .time now pkt) :
      WorkerStep s { s with
        timeBuf := push maxlen s.timeBuf now
        worker := .fields now pkt sc.fields }
  | appended {pkt : Packet} {now : τ} {f : String} {todo : List String} {v : PyVal}
      (hpc : s.worker = .fields now pkt (f :: todo)) (hv : pkt.fields.lookup f = some v) :
      WorkerStep s { s with
        data := Function.update s.data f (push maxlen (s.data f) v)
        worker := .fields now pkt todo }
  | died {pkt : Packet} {now : τ} {f : String} {todo : List String}
      (hpc : s.worker = .fields now pkt (f :: todo)) (hv : pkt.fields.lookup f = none) :
      WorkerStep s { s with lock := none, worker := .dead (.keyError f) }
  | unlocked {pkt : Packet} {now : τ} (hpc : s.worker = .fields now pkt []) :
      WorkerStep s { s with lock := none, worker := .read, log := s.log ++ [(now, pkt)] }
  | waits {pkt : Packet} {now : τ} (hpc : s.worker = .acquire now pkt) (hlock : s.lock ≠ none) :
      WorkerStep s s
  | dead {e : Exn} (hpc : s.worker = .dead e) : WorkerStep s s

theorem workerStep_cases (s : St τ) (now : τ) :
    WorkerStep sc maxlen s (workerStep sc maxlen s now) := by
  cases hpc : s.worker with
  | read =>
    simp only [workerStep, hpc]
    split
    · rename_i e hread
      exact .failed hpc hread
    · rename_i pkt conn hread
      split
      · rename_i hid
        exact .took hpc hread hid
      · rename_i hid
        exact .passed hpc hread hid
  | clock pkt =>
    simp only [workerStep, hpc]
    exact .clocked hpc
  | acquire t pkt =>
    cases hlock : s.lock with
    | none =>
      simp only [workerStep, hpc, hlock]
      exact .locked hpc hlock
    | some who =>
      have hsame : workerStep sc maxlen s now = s := by simp only [workerStep, hpc, hlock]
      rw [hsame]
      exact .waits hpc (by simp [hlock])
  | time t pkt =>
    simp only [workerStep, hpc]
    exact .timed hpc
  | fields t pkt todo =>
    cases todo with
    | nil =>
      simp only [workerStep, hpc]
      exact .unlocked hpc
    | cons f todo =>
      simp only [workerStep, hpc]
      split
      · rename_i hv
        exact .died hpc hv
      · rename_i v hv
        exact .appended hpc hv
  | dead e =>
    have hsame : workerStep sc maxlen s now = s := by simp only [workerStep, hpc]
    rw [hsame]
    exact .dead hpc

/-! ### What a packet has -/

theorem bind_ok {α β : Type} {x : Except PyError α} {f : α → Except PyError β} {b : β}
    (h : (x >>= f) = .ok b) : ∃ a, x = .ok a ∧ f a = .ok b := by
  cases x with
  | error e => exact absurd h (by simp [bind, Except.bind])
  | ok a => exact ⟨a, rfl, h⟩

theorem decode_ok {id : TelemetryId} {payload : List UInt8} {fields : List (String × PyVal)}
    (h : decode id payload = .ok fields) : ∃ values : List PyVal,
    values.length = (packetDefs id).codec.length ∧ fields = (packetDefs id).fields.zip values := by
  rw [decode, unpack] at h
  split at h
  · refine ⟨unpackFrom (packetDefs id).codec payload, length_unpackFrom _ _, ?_⟩
    exact (Except.ok.inj h).symm
  · exact absurd h (by simp [Except.map])

/-- `read_packet` zips the declared fields with as many values as the codec has. -/
theorem fields_of_readPacket {conn conn' : Conn} {pkt : Packet}
    (h : readPacket conn = .ok (pkt, conn')) : ∃ values : List PyVal,
    values.length = (packetDefs pkt.id).codec.length ∧
      pkt.fields = (packetDefs pkt.id).fields.zip values := by
  rw [readPacket] at h
  obtain ⟨⟨word, conn₁⟩, -, h⟩ := bind_ok h
  obtain ⟨conn₂, -, h⟩ := bind_ok h
  obtain ⟨⟨head, conn₃⟩, -, h⟩ := bind_ok h
  obtain ⟨values, -, h⟩ := bind_ok h
  split at h
  · obtain ⟨⟨payload, conn₄⟩, -, h⟩ := bind_ok h
    obtain ⟨id, -, h⟩ := bind_ok h
    obtain ⟨fields, hfields, h⟩ := bind_ok h
    cases h
    exact decode_ok hfields
  · exact absurd h (by simp [throw, throwThe, MonadExceptOf.throw])

/-- A name with a value beside it is found. -/
theorem exists_lookup_zip {names : List String} {values : List PyVal}
    (hlen : names.length ≤ values.length) {f : String} (hf : f ∈ names) :
    ∃ v, (names.zip values).lookup f = some v := by
  induction names generalizing values with
  | nil => exact absurd hf List.not_mem_nil
  | cons n ns ih =>
    cases values with
    | nil => exact absurd hlen (by simp)
    | cons v vs =>
      rw [List.zip_cons_cons, List.lookup_cons]
      by_cases hn : f = n
      · exact ⟨v, by rw [hn, beq_self_eq_true]⟩
      · rw [beq_false_of_ne hn]
        exact ih (Nat.le_of_succ_le_succ hlen) ((List.mem_cons.mp hf).resolve_left hn)

/-- Every declared field of the packet type has a value. -/
def Complete (sc : Script) (pkt : Packet) : Prop :=
  ∀ f ∈ sc.fields, ∃ v, pkt.fields.lookup f = some v

theorem complete_of_readPacket {sc : Script} (hid : sc.packetId ≠ .fcOut) {conn conn' : Conn}
    {pkt : Packet} (h : readPacket conn = .ok (pkt, conn')) (hpkt : pkt.id = sc.packetId) :
    Complete sc pkt := by
  obtain ⟨values, hlen, hfields⟩ := fields_of_readPacket h
  intro f hf
  rw [hfields]
  rw [Script.fields, ← hpkt] at hf
  refine exists_lookup_zip ?_ hf
  rw [hlen, hpkt]
  cases hsc : sc.packetId with
  | fcOut => exact absurd hsc hid
  | _ => decide

/-! ### Aligned buffers -/

variable {sc : Script} {maxlen : ℕ} {log pkts : List (τ × Packet)} {timeBuf : List τ}
  {data : String → List PyVal} {now : τ} {pkt : Packet}

/-- The values of a field, packet by packet. -/
def values (f : String) (pkts : List (τ × Packet)) : List (Option PyVal) :=
  pkts.map fun p => p.2.fields.lookup f

/-- `col` shows the field's values in the latest packets. -/
def Filled (maxlen : ℕ) (pkts : List (τ × Packet)) (f : String) (col : List PyVal) : Prop :=
  col.map some = (values f pkts).rtake maxlen

/-- The buffers show the latest packets. -/
structure Aligned (sc : Script) (maxlen : ℕ) (pkts : List (τ × Packet)) (timeBuf : List τ)
    (data : String → List PyVal) : Prop where
  time : timeBuf = (pkts.map (·.1)).rtake maxlen
  cols : ∀ f ∈ sc.fields, Filled maxlen pkts f (data f)

/-- Between the first append and the last: the time and the fields of `sc.fields` that are not in
    `todo` have been appended. -/
structure Half (sc : Script) (maxlen : ℕ) (log : List (τ × Packet)) (now : τ) (pkt : Packet)
    (todo : List String) (timeBuf : List τ) (data : String → List PyVal) : Prop where
  time : timeBuf = ((log ++ [(now, pkt)]).map (·.1)).rtake maxlen
  rest : todo <:+ sc.fields
  old : ∀ f ∈ todo, Filled maxlen log f (data f)
  new : ∀ f ∈ sc.fields, f ∉ todo → Filled maxlen (log ++ [(now, pkt)]) f (data f)

theorem aligned_nil : Aligned sc maxlen ([] : List (τ × Packet)) [] fun _ => [] :=
  ⟨by simp [List.rtake], fun f _ => by simp [Filled, values, List.rtake]⟩

theorem half_time (h : Aligned sc maxlen log timeBuf data) (now : τ) (pkt : Packet) :
    Half sc maxlen log now pkt sc.fields (push maxlen timeBuf now) data := by
  refine ⟨?_, List.suffix_refl _, h.cols, fun f hf hnot => absurd hf hnot⟩
  rw [h.time, push_rtake, List.map_append, List.map_singleton]

theorem filled_push {f : String} {col : List PyVal} {v : PyVal} (h : Filled maxlen log f col)
    (hv : pkt.fields.lookup f = some v) :
    Filled maxlen (log ++ [(now, pkt)]) f (push maxlen col v) := by
  rw [Filled, map_push, h, push_rtake, values, values, List.map_append, List.map_singleton, hv]

/-- No field is appended to twice. -/
theorem half_field {f : String} {todo : List String} {v : PyVal}
    (h : Half sc maxlen log now pkt (f :: todo) timeBuf data)
    (hv : pkt.fields.lookup f = some v) :
    Half sc maxlen log now pkt todo timeBuf
      (Function.update data f (push maxlen (data f) v)) := by
  obtain ⟨htime, htodo, hold, hnew⟩ := h
  have hnodup : (f :: todo).Nodup := (nodup_fields sc.packetId).sublist htodo.sublist
  have hnot : f ∉ todo := (List.nodup_cons.mp hnodup).1
  refine ⟨htime, (List.suffix_cons f todo).trans htodo, fun g hg => ?_, fun g hg hdone => ?_⟩
  · have hne : g ≠ f := fun heq => hnot (heq ▸ hg)
    rw [Function.update_of_ne hne]
    exact hold g (List.mem_cons_of_mem f hg)
  · rcases eq_or_ne g f with rfl | hne
    · rw [Function.update_self]
      exact filled_push (hold g (List.mem_cons_self ..)) hv
    · rw [Function.update_of_ne hne]
      exact hnew g hg fun hmem => (List.mem_cons.mp hmem).elim hne hdone

/-- The next field has a value. -/
theorem lookup_ne_none {f : String} {todo : List String}
    (h : Half sc maxlen log now pkt (f :: todo) timeBuf data) (hcomplete : Complete sc pkt) :
    pkt.fields.lookup f ≠ none := by
  obtain ⟨v, hv⟩ := hcomplete f (h.rest.subset (List.mem_cons_self ..))
  rw [hv]
  exact Option.some_ne_none v

theorem aligned_of_half (h : Half sc maxlen log now pkt [] timeBuf data) :
    Aligned sc maxlen (log ++ [(now, pkt)]) timeBuf data :=
  ⟨h.time, fun f hf => h.new f hf List.not_mem_nil⟩

/-! ### The two threads -/

/-- What the worker's place says about the buffers and the lock. -/
def WorkerOk (sc : Script) (maxlen : ℕ) (log : List (τ × Packet)) (timeBuf : List τ)
    (data : String → List PyVal) (lock : Option Who) : WorkerPc τ → Prop
  | .read | .dead _ => lock ≠ some .worker ∧ Aligned sc maxlen log timeBuf data
  | .clock pkt | .acquire _ pkt =>
    lock ≠ some .worker ∧ Aligned sc maxlen log timeBuf data ∧ Complete sc pkt
  | .time _ pkt => lock = some .worker ∧ Aligned sc maxlen log timeBuf data ∧ Complete sc pkt
  | .fields now pkt todo =>
    lock = some .worker ∧ Half sc maxlen log now pkt todo timeBuf data ∧ Complete sc pkt

/-- The copies made so far are of the buffers as they are. -/
def PlotOk (sc : Script) (timeBuf : List τ) (data : String → List PyVal) (lock : Option Who) :
    PlotPc τ → Prop
  | .idle => lock ≠ some .plot
  | .test => lock = some .plot
  | .time => lock = some .plot ∧ 2 ≤ timeBuf.length
  | .fields copied todo => lock = some .plot ∧ 2 ≤ timeBuf.length ∧ copied.x = timeBuf ∧
      ∃ done, sc.plotted = done ++ todo ∧ copied.cols = done.map fun f => (f, data f)

/-- A plot shows the packets `pkts`: times and values of the latest ones, each in its place. -/
structure Shows (sc : Script) (maxlen : ℕ) (pkts : List (τ × Packet)) (snap : Snapshot τ) :
    Prop where
  two : 2 ≤ snap.x.length
  x : snap.x = (pkts.map (·.1)).rtake maxlen
  names : snap.cols.map (·.1) = sc.plotted
  cols : ∀ c ∈ snap.cols, Filled maxlen pkts c.1 c.2

/-- Every curve has a value for every time. -/
theorem Shows.length_eq {snap : Snapshot τ} (h : Shows sc maxlen pkts snap) :
    ∀ c ∈ snap.cols, c.2.length = snap.x.length := by
  intro c hc
  have hlen := congrArg List.length (h.cols c hc)
  rw [List.length_map, length_rtake, values, List.length_map] at hlen
  rw [hlen, h.x, length_rtake, List.length_map]

/-- The plots drawn show more and more packets. -/
def DrawnOk (sc : Script) (maxlen : ℕ) (log : List (τ × Packet)) (drawn : List (Snapshot τ)) :
    Prop :=
  ∃ ks : List ℕ, ks.Pairwise (· ≤ ·) ∧ (∀ k ∈ ks, k ≤ log.length) ∧
    List.Forall₂ (fun k snap => Shows sc maxlen (log.take k) snap) ks drawn

theorem plot_idle {lock : Option Who} {plot : PlotPc τ} (h : PlotOk sc timeBuf data lock plot)
    (hlock : lock ≠ some .plot) : plot = .idle := by
  cases plot with
  | idle => rfl
  | test => exact absurd h hlock
  | time | fields => exact absurd h.1 hlock

/-- Outside the lock the worker has left the buffers aligned. -/
theorem workerOk_free {lock lock' : Option Who} {worker : WorkerPc τ}
    (h : WorkerOk sc maxlen log timeBuf data lock worker) (hfree : lock ≠ some .worker)
    (hfree' : lock' ≠ some .worker) :
    WorkerOk sc maxlen log timeBuf data lock' worker ∧ Aligned sc maxlen log timeBuf data := by
  cases worker with
  | read | dead | clock | acquire => exact ⟨⟨hfree', h.2⟩, by first | exact h.2 | exact h.2.1⟩
  | time | fields => exact absurd h.1 hfree

theorem drawnOk_append {drawn : List (Snapshot τ)} (h : DrawnOk sc maxlen log drawn)
    (p : τ × Packet) : DrawnOk sc maxlen (log ++ [p]) drawn := by
  obtain ⟨ks, hsorted, hle, hshows⟩ := h
  refine ⟨ks, hsorted, fun k hk => ?_, ?_⟩
  · rw [List.length_append]
    exact (hle k hk).trans (Nat.le_add_right _ _)
  · refine List.Forall₂.imp ?_ ((List.forall₂_and_left ..).mpr ⟨hle, hshows⟩)
    rintro k snap ⟨hk, h⟩
    rwa [List.take_append_of_le_length hk]

theorem drawnOk_concat {drawn : List (Snapshot τ)} {snap : Snapshot τ}
    (h : DrawnOk sc maxlen log drawn) (hsnap : Shows sc maxlen log snap) :
    DrawnOk sc maxlen log (drawn ++ [snap]) := by
  obtain ⟨ks, hsorted, hle, hshows⟩ := h
  refine ⟨ks ++ [log.length], ?_, fun k hk => ?_, ?_⟩
  · rw [List.pairwise_append]
    refine ⟨hsorted, List.pairwise_singleton .., fun k hk l hl => ?_⟩
    rw [List.mem_singleton.mp hl]
    exact hle k hk
  · rcases List.mem_append.mp hk with hold | hnew
    · exact hle k hold
    · exact (List.mem_singleton.mp hnew).le
  · refine List.rel_append hshows (List.Forall₂.cons ?_ List.Forall₂.nil)
    rwa [List.take_length]

/-- What a run keeps. -/
structure Inv (sc : Script) (maxlen : ℕ) (s : St τ) : Prop where
  worker : WorkerOk sc maxlen s.log s.timeBuf s.data s.lock s.worker
  plot : PlotOk sc s.timeBuf s.data s.lock s.plot
  drawn : DrawnOk sc maxlen s.log s.drawn

variable {s s' : St τ}

theorem WorkerStep.inv (hid : sc.packetId ≠ .fcOut) (hstep : WorkerStep sc maxlen s s')
    (h : Inv sc maxlen s) : Inv sc maxlen s' := by
  obtain ⟨hworker, hplot, hdrawn⟩ := h
  cases hstep with
  | failed hpc | passed hpc =>
    rw [hpc] at hworker
    exact ⟨hworker, hplot, hdrawn⟩
  | took hpc hread hpkt =>
    rw [hpc] at hworker
    exact ⟨⟨hworker.1, hworker.2, complete_of_readPacket hid hread hpkt⟩, hplot, hdrawn⟩
  | clocked hpc =>
    rw [hpc] at hworker
    exact ⟨hworker, hplot, hdrawn⟩
  | locked hpc hlock =>
    rw [hpc] at hworker
    have hidle : s.plot = .idle := plot_idle hplot (by simp [hlock])
    exact ⟨⟨rfl, hworker.2⟩, by simp [hidle, PlotOk], hdrawn⟩
  | @timed pkt t hpc =>
    rw [hpc] at hworker
    obtain ⟨hlock, haligned, hcomplete⟩ := hworker
    have hidle : s.plot = .idle := plot_idle hplot (by simp [hlock])
    exact ⟨⟨hlock, half_time haligned t pkt, hcomplete⟩, by simp [hidle, PlotOk, hlock], hdrawn⟩
  | appended hpc hv =>
    rw [hpc] at hworker
    obtain ⟨hlock, hhalf, hcomplete⟩ := hworker
    have hidle : s.plot = .idle := plot_idle hplot (by simp [hlock])
    exact ⟨⟨hlock, half_field hhalf hv, hcomplete⟩, by simp [hidle, PlotOk, hlock], hdrawn⟩
  | died hpc hv =>
    rw [hpc] at hworker
    exact absurd hv (lookup_ne_none hworker.2.1 hworker.2.2)
  | unlocked hpc =>
    rw [hpc] at hworker
    obtain ⟨hlock, hhalf, -⟩ := hworker
    have hidle : s.plot = .idle := plot_idle hplot (by simp [hlock])
    exact ⟨⟨by simp, aligned_of_half hhalf⟩, by simp [hidle, PlotOk], drawnOk_append hdrawn _⟩
  | waits | dead => exact ⟨hworker, hplot, hdrawn⟩

theorem inv_plot (h : Inv sc maxlen s) : Inv sc maxlen (plotStep sc s) := by
  obtain ⟨hworker, hplot, hdrawn⟩ := h
  cases hpc : s.plot with
  | idle =>
    rw [hpc] at hplot
    cases hlock : s.lock with
    | some who =>
      have hsame : plotStep sc s = s := by simp only [plotStep, hpc, hlock]
      rw [hsame]
      exact ⟨hworker, by rwa [hpc], hdrawn⟩
    | none =>
      simp only [plotStep, hpc, hlock]
      exact ⟨(workerOk_free hworker (by simp [hlock]) (by simp)).1, rfl, hdrawn⟩
  | test =>
    rw [hpc] at hplot
    have hlock : s.lock = some .plot := hplot
    simp only [plotStep, hpc]
    split
    · exact ⟨(workerOk_free hworker (by simp [hlock]) (by simp)).1, by simp [PlotOk], hdrawn⟩
    · rename_i hmany
      exact ⟨hworker, ⟨hlock, Nat.le_of_not_lt hmany⟩, hdrawn⟩
  | time =>
    rw [hpc] at hplot
    simp only [plotStep, hpc]
    exact ⟨hworker, ⟨hplot.1, hplot.2, rfl, [], rfl, rfl⟩, hdrawn⟩
  | fields copied todo =>
    rw [hpc] at hplot
    obtain ⟨hlock, hmany, hx, done, hdone, hcols⟩ := hplot
    cases todo with
    | nil =>
      have hnone : (none : Option Who) ≠ some .worker := by simp
      obtain ⟨hfree, haligned⟩ := workerOk_free hworker (by simp [hlock]) hnone
      simp only [plotStep, hpc]
      refine ⟨hfree, by simp [PlotOk], drawnOk_concat hdrawn ⟨?_, ?_, ?_, ?_⟩⟩
      · rwa [hx]
      · rw [hx, haligned.time]
      · rw [hcols, List.map_map, hdone, List.append_nil]
        exact List.map_id' done
      · intro c hc
        rw [hcols] at hc
        obtain ⟨f, hf, rfl⟩ := List.mem_map.mp hc
        exact haligned.cols f (sc.known f (by rw [hdone, List.append_nil]; exact hf))
    | cons f todo =>
      simp only [plotStep, hpc]
      refine ⟨hworker, ⟨hlock, hmany, hx, done ++ [f], ?_, ?_⟩, hdrawn⟩
      · rw [hdone, List.append_assoc]; rfl
      · rw [hcols, List.map_append]; rfl

theorem inv_step (hid : sc.packetId ≠ .fcOut) (h : Inv sc maxlen s) (a : Act τ) :
    Inv sc maxlen (step sc maxlen s a) := by
  cases a with
  | worker now => exact (workerStep_cases sc maxlen s now).inv hid h
  | plot => exact inv_plot h

theorem inv_init (sc : Script) (maxlen : ℕ) (conn : Conn) :
    Inv sc maxlen (init conn : St τ) :=
  ⟨⟨by simp [init], aligned_nil⟩, by simp [PlotOk, init],
    [], List.Pairwise.nil, by simp, List.Forall₂.nil⟩

/-! ### The packets read -/

/-- From `conn₀` to `conn` the packets `got` have been read. -/
def Reads (conn₀ conn : Conn) (got : List Packet) : Prop :=
  ∃ n, ∀ m, readPackets (n + m) conn₀ = (got ++ (readPackets m conn).1, (readPackets m conn).2)

theorem reads_refl (conn : Conn) : Reads conn conn [] := ⟨0, fun m => by rw [Nat.zero_add]; rfl⟩

theorem reads_concat {conn₀ conn conn' : Conn} {got : List Packet} (h : Reads conn₀ conn got)
    (hread : readPacket conn = .ok (pkt, conn')) : Reads conn₀ conn' (got ++ [pkt]) := by
  obtain ⟨n, hn⟩ := h
  refine ⟨n + 1, fun m => ?_⟩
  rw [Nat.add_assoc, Nat.add_comm 1 m, hn (m + 1)]
  simp [readPackets, hread]

/-- The packet in the worker's hands. -/
def pending : WorkerPc τ → List Packet
  | .read | .dead _ => []
  | .clock pkt | .acquire _ pkt | .time _ pkt | .fields _ pkt _ => [pkt]

/-- No packet of the type read so far has been left out. -/
def ReadOk (sc : Script) (conn₀ : Conn) (s : St τ) : Prop := ∃ got, Reads conn₀ s.conn got ∧
  got.filter (·.id = sc.packetId) = s.log.map (·.2) ++ pending s.worker

theorem WorkerStep.readOk {conn₀ : Conn} (hstep : WorkerStep sc maxlen s s')
    (hinv : Inv sc maxlen s) (h : ReadOk sc conn₀ s) : ReadOk sc conn₀ s' := by
  obtain ⟨got, hreads, hgot⟩ := h
  have hworker := hinv.worker
  cases hstep with
  | failed hpc =>
    rw [hpc] at hgot
    exact ⟨got, hreads, hgot⟩
  | @took pkt conn hpc hread hpkt =>
    rw [hpc] at hgot
    refine ⟨got ++ [pkt], reads_concat hreads hread, ?_⟩
    rw [List.filter_append, hgot]
    simp [hpkt, pending]
  | @passed pkt conn hpc hread hpkt =>
    rw [hpc] at hgot
    refine ⟨got ++ [pkt], reads_concat hreads hread, ?_⟩
    rw [List.filter_append, hgot]
    simp [hpkt, pending]
  | clocked hpc | locked hpc | timed hpc | appended hpc =>
    rw [hpc] at hgot
    exact ⟨got, hreads, hgot⟩
  | died hpc hv =>
    rw [hpc] at hworker
    exact absurd hv (lookup_ne_none hworker.2.1 hworker.2.2)
  | unlocked hpc =>
    rw [hpc] at hgot
    refine ⟨got, hreads, ?_⟩
    rw [hgot]
    simp [pending]
  | waits | dead => exact ⟨got, hreads, hgot⟩

/-- `update_plot` reads no packets. -/
theorem plotStep_frame (sc : Script) (s : St τ) : (plotStep sc s).conn = s.conn ∧
    (plotStep sc s).log = s.log ∧ (plotStep sc s).worker = s.worker ∧
    (plotStep sc s).timeBuf = s.timeBuf := by
  unfold plotStep
  split
  · split <;> exact ⟨rfl, rfl, rfl, rfl⟩
  · split <;> exact ⟨rfl, rfl, rfl, rfl⟩
  all_goals exact ⟨rfl, rfl, rfl, rfl⟩

theorem readOk_step {conn₀ : Conn} (hinv : Inv sc maxlen s) (h : ReadOk sc conn₀ s) (a : Act τ) :
    ReadOk sc conn₀ (step sc maxlen s a) := by
  cases a with
  | worker now => exact (workerStep_cases sc maxlen s now).readOk hinv h
  | plot =>
    obtain ⟨hconn, hlog, hworker, _⟩ := plotStep_frame sc s
    show ReadOk sc conn₀ (plotStep sc s)
    rwa [ReadOk, hconn, hlog, hworker]

/-- CORRECT: under every interleaving of the two threads, each plot shows the packets of its type
    that had been read so far, times and values of the latest `maxlen` of them each in its place,
    and a later plot shows no fewer. -/
theorem drawn_aligned {sc : Script} (hid : sc.packetId ≠ .fcOut) (maxlen : ℕ) (conn : Conn)
    (acts : List (Act τ)) : ∃ (pkts : List (τ × Packet)) (n : ℕ) (ks : List ℕ),
      pkts.map (·.2) <+: (readPackets n conn).1.filter (·.id = sc.packetId) ∧
      ks.Pairwise (· ≤ ·) ∧ (∀ k ∈ ks, k ≤ pkts.length) ∧
      List.Forall₂ (fun k snap => Shows sc maxlen (pkts.take k) snap) ks
        (exec sc maxlen conn acts).drawn := by
  obtain ⟨hinv, got, ⟨n, hn⟩, hgot⟩ : Inv sc maxlen (exec sc maxlen conn acts) ∧
      ReadOk sc conn (exec sc maxlen conn acts) :=
    inv_run (step sc maxlen) (fun s => Inv sc maxlen s ∧ ReadOk sc conn s)
      (fun _ a h => ⟨inv_step hid h.1 a, readOk_step h.1 h.2 a⟩) acts
      ⟨inv_init sc maxlen conn, [], reads_refl conn, rfl⟩
  obtain ⟨ks, hsorted, hle, hshows⟩ := hinv.drawn
  refine ⟨_, n, ks, ?_, hsorted, hle, hshows⟩
  have hread : (readPackets n conn).1 = got := by
    have hzero := congrArg Prod.fst (hn 0)
    simpa [readPackets] using hzero
  rw [hread, hgot]
  exact List.prefix_append _ _

/-- Two packets of the pitch controller. -/
def pidCalls : List Call :=
  [⟨.pidPitch, List.replicate 44 0, 1, 0⟩, ⟨.pidPitch, List.replicate 44 1, 2, 0⟩]

theorem drawn_aligned_plotPid : ∃ (pkts : List (ℕ × Packet)) (n : ℕ) (ks : List ℕ),
    pkts.map (·.2) <+:
      (readPackets n ⟨pidCalls.flatMap Call.packet, fun _ => 0, 0⟩).1.filter (·.id = .pidPitch) ∧
    ks.Pairwise (· ≤ ·) ∧ (∀ k ∈ ks, k ≤ pkts.length) ∧
    List.Forall₂ (fun k snap => Shows plotPid 10000 (pkts.take k) snap) ks
      (exec plotPid 10000 ⟨pidCalls.flatMap Call.packet, fun _ => 0, 0⟩
        ((List.range 40).map .worker ++ List.replicate 9 .plot)).drawn :=
  have hid : plotPid.packetId ≠ .fcOut := by decide
  drawn_aligned hid 10000 _ _

/-! ### The packet type that cannot be read -/

/-- What `PACKET_DEFS` declares for the controller output. -/
theorem fields_fcOut (hid : sc.packetId = .fcOut) :
    sc.fields = ["pitch_pid", "roll_pid", "yaw_pid", "flight_mode"] := by
  rw [Script.fields, hid]; rfl

/-- A packet of the controller output has three values, and none for the flight mode. -/
def Modeless (pkt : Packet) : Prop :=
  ∃ a b c, pkt.fields = [("pitch_pid", a), ("roll_pid", b), ("yaw_pid", c)]

theorem modeless_of_readPacket {conn conn' : Conn} {pkt : Packet}
    (h : readPacket conn = .ok (pkt, conn')) (hpkt : pkt.id = .fcOut) : Modeless pkt := by
  obtain ⟨values, hlen, hfields⟩ := fields_of_readPacket h
  rw [hpkt] at hlen hfields
  obtain ⟨a, b, c, rfl⟩ := List.length_eq_three.mp hlen
  exact ⟨a, b, c, hfields⟩

/-- The flight mode is the one declared field without a value. -/
theorem Modeless.lookup_eq_none_iff {pkt : Packet} (h : Modeless pkt)
    (hid : sc.packetId = .fcOut) {f : String} (hf : f ∈ sc.fields) :
    pkt.fields.lookup f = none ↔ f = "flight_mode" := by
  obtain ⟨a, b, c, hfields⟩ := h
  rw [fields_fcOut hid] at hf
  simp only [List.mem_cons, List.not_mem_nil, or_false] at hf
  rcases hf with rfl | rfl | rfl | rfl <;> simp [hfields, List.lookup_cons]

/-- A packet has been appended to the time buffer and to the buffers of the fields `done`. -/
structure Appended (sc : Script) (maxlen : ℕ) (timeBuf : List τ) (data : String → List PyVal)
    (done : List String) : Prop where
  time : timeBuf.length = min 1 maxlen
  cols : ∀ f ∈ sc.fields, (data f).length = if f ∈ done then min 1 maxlen else 0

/-- The worker has its first packet still to come, or will not survive it. -/
def Doomed (sc : Script) (maxlen : ℕ) (timeBuf : List τ) (data : String → List PyVal) :
    WorkerPc τ → Prop
  | .read | .dead (.pyError _) => timeBuf = [] ∧ ∀ f, data f = []
  | .clock pkt | .acquire _ pkt | .time _ pkt =>
    (timeBuf = [] ∧ ∀ f, data f = []) ∧ Modeless pkt
  | .fields _ pkt todo => Modeless pkt ∧ "flight_mode" ∈ todo ∧
    ∃ done, done ++ todo = sc.fields ∧ Appended sc maxlen timeBuf data done
  | .dead (.keyError f) => f = "flight_mode" ∧
    Appended sc maxlen timeBuf data ["pitch_pid", "roll_pid", "yaw_pid"]

theorem length_le_of_doomed {worker : WorkerPc τ} (h : Doomed sc maxlen timeBuf data worker) :
    timeBuf.length ≤ 1 := by
  have hempty : timeBuf = [] → timeBuf.length ≤ 1 := fun hnil => by simp [hnil]
  have happended : ∀ done, Appended sc maxlen timeBuf data done → timeBuf.length ≤ 1 :=
    fun _ happ => happ.time.trans_le (min_le_left _ _)
  cases worker with
  | read => exact hempty h.1
  | clock | acquire | time => exact hempty h.1.1
  | fields =>
    obtain ⟨-, -, done, -, happ⟩ := h
    exact happended done happ
  | dead e =>
    cases e with
    | pyError e => exact hempty h.1
    | keyError f => exact happended _ h.2

theorem length_push_nil {α : Type} {buf : List α} (h : buf.length = 0) (x : α) :
    (push maxlen buf x).length = min 1 maxlen := by
  rw [List.length_eq_zero_iff.mp h, push, List.length_nil]
  cases maxlen with
  | zero => rfl
  | succ m => simp

/-- The worker's time has been appended. -/
theorem appended_time (h : timeBuf = [] ∧ ∀ f, data f = []) (now : τ) :
    Appended sc maxlen (push maxlen timeBuf now) data [] :=
  ⟨length_push_nil (by rw [h.1]; rfl) now, fun f _ => by simp [h.2 f]⟩

/-- The next field's value has been appended. -/
theorem Appended.field {done todo : List String} {f : String}
    (h : Appended sc maxlen timeBuf data done) (hsplit : done ++ f :: todo = sc.fields)
    (v : PyVal) : Appended sc maxlen timeBuf (Function.update data f (push maxlen (data f) v))
      (done ++ [f]) := by
  have hnodup : (done ++ f :: todo).Nodup := by
    rw [hsplit]
    exact nodup_fields sc.packetId
  have hnot : f ∉ done := fun hmem =>
    List.disjoint_of_nodup_append hnodup hmem (List.mem_cons_self ..)
  refine ⟨h.time, fun g hg => ?_⟩
  rcases eq_or_ne g f with rfl | hne
  · have hzero : (data g).length = 0 := by rw [h.cols g hg, if_neg hnot]
    rw [Function.update_self, length_push_nil hzero, if_pos (by simp)]
  · rw [Function.update_of_ne hne, h.cols g hg]
    simp [hne]

/-- Before the flight mode come the other three. -/
theorem eq_of_append_flight_mode {done todo : List String}
    (h : done ++ "flight_mode" :: todo = ["pitch_pid", "roll_pid", "yaw_pid", "flight_mode"]) :
    done = ["pitch_pid", "roll_pid", "yaw_pid"] := by
  rcases done with _ | ⟨a, _ | ⟨b, _ | ⟨c, _ | ⟨d, done⟩⟩⟩⟩ <;> simp_all

/-- Whether the worker is inside the lock. -/
def WorkerPc.holds : WorkerPc τ → Bool
  | .time .. | .fields .. => true
  | .read | .clock _ | .acquire .. | .dead _ => false

/-- What a reader of the controller output keeps: `update_plot` never passes its length test. -/
structure Blank (sc : Script) (maxlen : ℕ) (s : St τ) : Prop where
  doomed : Doomed sc maxlen s.timeBuf s.data s.worker
  holds : s.lock = some .worker ↔ s.worker.holds = true
  plot : s.plot = .idle ∨ s.plot = .test ∧ s.lock = some .plot
  log : s.log = []
  drawn : s.drawn = []

theorem WorkerStep.blank (hid : sc.packetId = .fcOut) (hstep : WorkerStep sc maxlen s s')
    (h : Blank sc maxlen s) : Blank sc maxlen s' := by
  obtain ⟨hdoomed, hholds, hplot, hlog, hdrawn⟩ := h
  cases hstep with
  | failed hpc | passed hpc | clocked hpc =>
    rw [hpc] at hdoomed hholds
    exact ⟨hdoomed, hholds, hplot, hlog, hdrawn⟩
  | took hpc hread hpkt =>
    rw [hpc] at hdoomed hholds
    exact ⟨⟨hdoomed, modeless_of_readPacket hread (hpkt.trans hid)⟩, hholds, hplot, hlog, hdrawn⟩
  | locked hpc hlock =>
    rw [hpc] at hdoomed
    refine ⟨hdoomed, by simp [WorkerPc.holds], Or.inl ?_, hlog, hdrawn⟩
    exact hplot.resolve_right fun htest => by simp [hlock] at htest
  | @timed pkt t hpc =>
    rw [hpc] at hdoomed hholds
    obtain ⟨hempty, hmode⟩ := hdoomed
    refine ⟨⟨hmode, ?_, [], rfl, appended_time hempty t⟩, hholds, hplot, hlog, hdrawn⟩
    rw [fields_fcOut hid]
    simp
  | @appended pkt t f todo v hpc hv =>
    rw [hpc] at hdoomed hholds
    obtain ⟨hmode, hmem, done, hsplit, happ⟩ := hdoomed
    have hf : f ∈ sc.fields := by rw [← hsplit]; simp
    have hne : f ≠ "flight_mode" := fun heq => by
      rw [(hmode.lookup_eq_none_iff hid hf).mpr heq] at hv
      exact absurd hv (by simp)
    refine ⟨⟨hmode, (List.mem_cons.mp hmem).resolve_left hne.symm, done ++ [f], ?_,
      happ.field hsplit v⟩, hholds, hplot, hlog, hdrawn⟩
    rw [List.append_assoc]
    exact hsplit
  | @died pkt t f todo hpc hv =>
    rw [hpc] at hdoomed hholds
    obtain ⟨hmode, -, done, hsplit, happ⟩ := hdoomed
    have hlock : s.lock = some .worker := hholds.mpr rfl
    have hidle : s.plot = .idle := hplot.resolve_right fun htest => by simp [hlock] at htest
    have hf : f ∈ sc.fields := by rw [← hsplit]; simp
    -- the field is the flight mode, and the thread dies of it
    obtain rfl := (hmode.lookup_eq_none_iff hid hf).mp hv
    rw [fields_fcOut hid] at hsplit
    rw [eq_of_append_flight_mode hsplit] at happ
    exact ⟨⟨rfl, happ⟩, by simp [WorkerPc.holds], Or.inl hidle, hlog, hdrawn⟩
  | unlocked hpc =>
    rw [hpc] at hdoomed
    exact absurd hdoomed.2.1 List.not_mem_nil
  | waits | dead => exact ⟨hdoomed, hholds, hplot, hlog, hdrawn⟩

theorem blank_plot (h : Blank sc maxlen s) : Blank sc maxlen (plotStep sc s) := by
  obtain ⟨hdoomed, hholds, hplot, hlog, hdrawn⟩ := h
  have hfew : s.timeBuf.length < 2 := Nat.lt_succ_of_le (length_le_of_doomed hdoomed)
  rcases hplot with hidle | ⟨htest, hlock⟩
  · cases hlock : s.lock with
    | some who =>
      have hsame : plotStep sc s = s := by simp only [plotStep, hidle, hlock]
      rw [hsame]
      exact ⟨hdoomed, hholds, Or.inl hidle, hlog, hdrawn⟩
    | none =>
      rw [hlock] at hholds
      simp only [plotStep, hidle, hlock]
      exact ⟨hdoomed, by simpa using hholds, Or.inr ⟨rfl, rfl⟩, hlog, hdrawn⟩
  · rw [hlock] at hholds
    simp only [plotStep, htest, if_pos hfew]
    exact ⟨hdoomed, by simpa using hholds, Or.inl rfl, hlog, hdrawn⟩

theorem blank_step (hid : sc.packetId = .fcOut) (h : Blank sc maxlen s) (a : Act τ) :
    Blank sc maxlen (step sc maxlen s a) := by
  cases a with
  | worker now => exact (workerStep_cases sc maxlen s now).blank hid h
  | plot => exact blank_plot h

theorem blank_init (sc : Script) (maxlen : ℕ) (conn : Conn) :
    Blank sc maxlen (init conn : St τ) :=
  ⟨⟨rfl, fun _ => rfl⟩, by simp [init, WorkerPc.holds], Or.inl rfl, rfl, rfl⟩

/-- Of the packets of its type, the worker has read those in its hands, or the one that it died
    of. -/
def Met (worker : WorkerPc τ) (mine : List Packet) : Prop :=
  match worker with
  | .dead (.keyError _) => ∃ pkt, mine = [pkt]
  | _ => mine = pending worker

/-- The packets read so far, and those of the worker's type among them. -/
def MetOk (sc : Script) (conn₀ : Conn) (s : St τ) : Prop :=
  ∃ got, Reads conn₀ s.conn got ∧ Met s.worker (got.filter (·.id = sc.packetId))

theorem WorkerStep.metOk {conn₀ : Conn} (hstep : WorkerStep sc maxlen s s')
    (hblank : Blank sc maxlen s) (h : MetOk sc conn₀ s) : MetOk sc conn₀ s' := by
  obtain ⟨got, hreads, hmet⟩ := h
  have hdoomed := hblank.doomed
  cases hstep with
  | failed hpc | clocked hpc | locked hpc | timed hpc | appended hpc =>
    rw [hpc] at hmet
    exact ⟨got, hreads, hmet⟩
  | @took pkt conn hpc hread hpkt =>
    rw [hpc] at hmet
    have hnone : got.filter (·.id = sc.packetId) = [] := hmet
    refine ⟨got ++ [pkt], reads_concat hreads hread, ?_⟩
    rw [List.filter_append, hnone]
    simp [hpkt, Met, pending]
  | @passed pkt conn hpc hread hpkt =>
    rw [hpc] at hmet
    have hnone : got.filter (·.id = sc.packetId) = [] := hmet
    refine ⟨got ++ [pkt], reads_concat hreads hread, ?_⟩
    rw [List.filter_append, hnone]
    simp [hpkt, Met, pending]
  | @died pkt t f todo hpc =>
    rw [hpc] at hmet
    exact ⟨got, hreads, pkt, hmet⟩
  | unlocked hpc =>
    rw [hpc] at hdoomed
    exact absurd hdoomed.2.1 List.not_mem_nil
  | waits | dead => exact ⟨got, hreads, hmet⟩

theorem metOk_step {conn₀ : Conn} (hblank : Blank sc maxlen s) (h : MetOk sc conn₀ s) (a : Act τ) :
    MetOk sc conn₀ (step sc maxlen s a) := by
  cases a with
  | worker now => exact (workerStep_cases sc maxlen s now).metOk hblank h
  | plot =>
    obtain ⟨hconn, -, hworker, -⟩ := plotStep_frame sc s
    show MetOk sc conn₀ (plotStep sc s)
    rwa [MetOk, hconn, hworker]

/-- What has become of the worker, when `mine` are the packets of its type that it has read: it
    still waits for the first one (or the stream has failed it), has it in its hands, or has died
    of it, with the time and the other three values appended. -/
inductive Fate (sc : Script) (maxlen : ℕ) (s : St τ) : (mine : List Packet) → Prop
  | waits (hpc : s.worker = .read ∨ ∃ e, s.worker = .dead (.pyError e))
      (hempty : s.timeBuf = [] ∧ ∀ f, s.data f = []) : Fate sc maxlen s []
  | holds {pkt : Packet} (hpc : pending s.worker = [pkt]) : Fate sc maxlen s [pkt]
  | died {pkt : Packet} (hpc : s.worker = .dead (.keyError "flight_mode"))
      (happ : Appended sc maxlen s.timeBuf s.data ["pitch_pid", "roll_pid", "yaw_pid"]) :
      Fate sc maxlen s [pkt]

theorem fate_of_met {mine : List Packet} (hblank : Blank sc maxlen s)
    (h : Met s.worker mine) : Fate sc maxlen s mine := by
  have hdoomed := hblank.doomed
  cases hpc : s.worker with
  | read =>
    rw [hpc] at h hdoomed
    obtain rfl : mine = [] := h
    exact .waits (Or.inl hpc) hdoomed
  | clock pkt | acquire t pkt | time t pkt | fields t pkt todo =>
    rw [hpc] at h
    obtain rfl : mine = [pkt] := h
    exact .holds (by rw [hpc]; rfl)
  | dead e =>
    rw [hpc] at h hdoomed
    cases e with
    | pyError e =>
      obtain rfl : mine = [] := h
      exact .waits (Or.inr ⟨e, hpc⟩) hdoomed
    | keyError f =>
      obtain ⟨pkt, rfl⟩ := h
      obtain ⟨rfl, happ⟩ := hdoomed
      exact .died hpc happ

/-- Whether it is the thread's turn. -/
def Act.isWorker : Act τ → Bool
  | .worker _ => true
  | .plot => false

/-- How many steps the worker has left inside the lock. -/
def left : WorkerPc τ → ℕ
  | .time .. => 5
  | .fields _ _ todo => todo.length
  | _ => 0

/-- Inside the lock each turn of the worker takes it closer to its death. -/
theorem WorkerStep.turn (hid : sc.packetId = .fcOut) (hstep : WorkerStep sc maxlen s s')
    (h : Blank sc maxlen s) (hholds : s.worker.holds = true) :
    s'.worker = .dead (.keyError "flight_mode") ∨
      s'.worker.holds = true ∧ left s'.worker < left s.worker := by
  have hdoomed := h.doomed
  cases hstep with
  | failed hpc | took hpc | passed hpc | clocked hpc | locked hpc | waits hpc | dead hpc =>
    rw [hpc] at hholds
    exact absurd hholds (by simp [WorkerPc.holds])
  | timed hpc => exact Or.inr ⟨rfl, by simp [hpc, left, fields_fcOut hid]⟩
  | appended hpc => exact Or.inr ⟨rfl, by simp [hpc, left]⟩
  | @died pkt t f todo hpc hv =>
    rw [hpc] at hdoomed
    obtain ⟨hmode, -, done, hsplit, -⟩ := hdoomed
    have hf : f ∈ sc.fields := by rw [← hsplit]; simp
    exact Or.inl (by rw [(hmode.lookup_eq_none_iff hid hf).mp hv])
  | unlocked hpc =>
    rw [hpc] at hdoomed
    exact absurd hdoomed.2.1 List.not_mem_nil

theorem left_pos (hblank : Blank sc maxlen s) (h : s.worker.holds = true) :
    0 < left s.worker := by
  have hdoomed := hblank.doomed
  cases hpc : s.worker with
  | read | clock | acquire | dead =>
    rw [hpc] at h
    exact absurd h (by simp [WorkerPc.holds])
  | time => exact Nat.succ_pos 4
  | fields t pkt todo =>
    rw [hpc] at hdoomed
    exact List.length_pos_of_mem hdoomed.2.1

theorem left_le_five (hid : sc.packetId = .fcOut) (hblank : Blank sc maxlen s) :
    left s.worker ≤ 5 := by
  have hdoomed := hblank.doomed
  cases hpc : s.worker with
  | read | clock | acquire | dead => exact Nat.zero_le 5
  | time => exact le_rfl
  | fields t pkt todo =>
    rw [hpc] at hdoomed
    obtain ⟨-, -, done, hsplit, -⟩ := hdoomed
    have hlen : done.length + todo.length = 4 := by
      rw [← List.length_append, hsplit, fields_fcOut hid]; rfl
    exact (show todo.length ≤ 5 by omega)

/-- Once inside the lock, the worker dies within five steps of its own. -/
theorem dies_of_turns (hid : sc.packetId = .fcOut) (hblank : Blank sc maxlen s)
    (hlock : s.lock = some .worker) (more : List (Act τ)) (hmore : 5 ≤ more.countP Act.isWorker) :
    (run (step sc maxlen) s more).worker = .dead (.keyError "flight_mode") := by
  let dies : St τ → Prop := fun s => s.worker = .dead (.keyError "flight_mode")
  have hkept : ∀ (s : St τ) a, dies s → dies (step sc maxlen s a) := by
    intro s a hdead
    cases a with
    | worker now => simp only [dies, step, workerStep, hdead]
    | plot => exact (plotStep_frame sc s).2.2.1.trans hdead
  have hturn : ∀ (s : St τ) now, Blank sc maxlen s → (s.worker.holds = true ∨ dies s) →
      ¬ dies s → dies (step sc maxlen s (.worker now)) ∨
        (step sc maxlen s (.worker now)).worker.holds = true ∧
        left (step sc maxlen s (.worker now)).worker < left s.worker :=
    fun s now hb hin hnot =>
      (workerStep_cases sc maxlen s now).turn hid hb (hin.resolve_right hnot)
  refine goal_of_turns (step sc maxlen)
    (fun s => Blank sc maxlen s ∧ (s.worker.holds = true ∨ dies s)) dies (fun s => left s.worker)
    Act.isWorker ?_ (fun s a _ hdead => hkept s a hdead) ?_ ?_ ?_ more
    ⟨hblank, Or.inl (hblank.holds.mp hlock)⟩ ((left_le_five hid hblank).trans hmore)
  · rintro s a ⟨hb, hin⟩
    refine ⟨blank_step hid hb a, ?_⟩
    by_cases hdead : dies s
    · exact Or.inr (hkept s a hdead)
    cases a with
    | worker now => exact (hturn s now hb hin hdead).symm.imp_left (·.1)
    | plot =>
      have hsame := (plotStep_frame sc s).2.2.1
      exact Or.inl ((congrArg WorkerPc.holds hsame).trans (hin.resolve_right hdead))
  · rintro s (now | _) ⟨hb, hin⟩ hdead hact
    · exact (hturn s now hb hin hdead).imp_right (·.2)
    · exact absurd hact (by simp [Act.isWorker])
  · rintro s (now | _) - - hact
    · exact absurd hact (by simp [Act.isWorker])
    · exact Or.inr (congrArg left (plotStep_frame sc s).2.2.1).le
  · rintro s ⟨hb, hin⟩ hdead
    exact left_pos hb (hin.resolve_right hdead)

/-- CORRECT: a reader of the controller output completes no packet, and nothing is ever drawn. The
    first packet of its type that it reads is its last: it has that packet in its hands until it
    has died of it by the exception, its other buffers one longer, and once it has the lock for it
    that takes five steps of the thread. -/
theorem fcOut_never_drawn {sc : Script} (hid : sc.packetId = .fcOut) (maxlen : ℕ) (conn : Conn)
    (acts : List (Act τ)) :
    (exec sc maxlen conn acts).log = [] ∧ (exec sc maxlen conn acts).drawn = [] ∧
      (∃ got, Reads conn (exec sc maxlen conn acts).conn got ∧
        Fate sc maxlen (exec sc maxlen conn acts) (got.filter (·.id = sc.packetId))) ∧
      ((exec sc maxlen conn acts).lock = some .worker →
        ∀ more, 5 ≤ more.countP Act.isWorker →
          (exec sc maxlen conn (acts ++ more)).worker = .dead (.keyError "flight_mode")) := by
  obtain ⟨hblank, got, hreads, hmet⟩ : Blank sc maxlen (exec sc maxlen conn acts) ∧
      MetOk sc conn (exec sc maxlen conn acts) :=
    inv_run (step sc maxlen) (fun s => Blank sc maxlen s ∧ MetOk sc conn s)
      (fun _ a h => ⟨blank_step hid h.1 a, metOk_step h.1 h.2 a⟩) acts
      ⟨blank_init sc maxlen conn, [], reads_refl conn, rfl⟩
  refine ⟨hblank.log, hblank.drawn, ⟨got, hreads, fate_of_met hblank hmet⟩, ?_⟩
  intro hlock more hmore
  rw [exec, run_append]
  exact dies_of_turns hid hblank hlock more hmore

/-- A plot of the pitch output, fed with two packets. -/
def plotFcOut : Script := ⟨.fcOut, ["pitch_pid"], by decide⟩

def fcOutCalls : List Call :=
  [⟨.fcOut, List.replicate 12 0, 1, 0⟩, ⟨.fcOut, List.replicate 12 1, 2, 0⟩]

def fcOutConn : Conn := ⟨fcOutCalls.flatMap Call.packet, fun _ => 0, 0⟩

/-- The thread reads the first packet and takes the lock, and `update_plot` is called meanwhile. -/
def fcOutActs : List (Act ℕ) := [.plot, .worker 7, .plot, .worker 8, .worker 9, .plot]

theorem fcOut_never_drawn_plotFcOut :
    (exec plotFcOut 10000 fcOutConn fcOutActs).drawn = [] ∧
      (∃ got, Reads fcOutConn (exec plotFcOut 10000 fcOutConn fcOutActs).conn got ∧
        Fate plotFcOut 10000 (exec plotFcOut 10000 fcOutConn fcOutActs)
          (got.filter (·.id = .fcOut))) ∧
      (exec plotFcOut 10000 fcOutConn (fcOutActs ++ List.replicate 5 (.worker 10))).worker =
        .dead (.keyError "flight_mode") := by
  have hid : plotFcOut.packetId = .fcOut := rfl
  obtain ⟨-, hdrawn, hfate, hdies⟩ := fcOut_never_drawn hid 10000 fcOutConn fcOutActs
  exact ⟨hdrawn, hfate, hdies (by decide +kernel) _ (by decide)⟩

end Reader
end FC.Telemetry

import FlightController.Telemetry.Stream

/-! The host finds its way into a running stream. It connects at any byte offset, and hunts through
    a sliding window of four bytes for the magic word. As long as the magic word occurs at packet
    starts only, it ends up at the first packet that starts at or after the offset, and from there
    on reads packet by packet (`readPackets_drop`).

    The window and what follows it are together the bytes not yet given up (`hunt_append`): each
    shift gives up one byte, so a magic word that the offset has cut in two, or one that follows a
    part of itself, is neither taken nor missed. -/

namespace FC.Telemetry
open Schemes.Bytes

/-- The magic word occurs at position `i` of a stream. -/
def MagicAt (stream : List UInt8) (i : ℕ) : Prop := (stream.drop i).take 4 = magicBytes

instance (stream : List UInt8) (i : ℕ) : Decidable (MagicAt stream i) :=
  inferInstanceAs (Decidable (_ = _))

theorem magicAt_zero_append (tail : List UInt8) : MagicAt (magicBytes ++ tail) 0 := by
  rw [MagicAt, List.drop_zero]
  exact List.take_left' (by simp [magicBytes])

theorem not_magicAt_of_length_le {stream : List UInt8} {i : ℕ} (h : stream.length ≤ i) :
    ¬ MagicAt stream i := by
  rw [MagicAt, List.drop_eq_nil_of_le h]
  decide

/-- The window and the bytes behind it, once one more byte has been shifted in. -/
theorem hunt_shift {word tail : List UInt8} {b : UInt8} {conn : Conn} (hword : word ≠ magicBytes)
    (hrest : conn.rest = b :: tail) :
    ∃ conn', hunt word conn = hunt (word.drop 1 ++ [b]) conn' ∧ conn'.rest = tail := by
  have hsplit : conn.rest = [b] ++ tail := hrest
  obtain ⟨conn', hread, hrest', _⟩ := readExact_append (n := 1) hsplit rfl
  refine ⟨conn', ?_, hrest'⟩
  rw [hunt, if_neg hword]
  split
  · rename_i e herr
    rw [hread] at herr; exact absurd herr (by simp)
  · rename_i byte conn'' hok
    rw [hread, Except.ok.injEq, Prod.mk.injEq] at hok
    rw [← hok.1, ← hok.2]

/-- Window and stream together lose their first byte. -/
theorem shift_window {word : List UInt8} (hword : word.length = 4) (b : UInt8)
    (tail : List UInt8) : word.drop 1 ++ [b] ++ tail = (word ++ b :: tail).drop 1 := by
  rw [List.drop_append_of_le_length (by omega), List.append_assoc]
  rfl

theorem magicAt_drop_one {stream : List UInt8} {i : ℕ} :
    MagicAt (stream.drop 1) i ↔ MagicAt stream (i + 1) := by
  rw [MagicAt, MagicAt, List.drop_drop, Nat.add_comm]

/-- The hunt ends behind the first magic word. -/
theorem hunt_append {junk tail word : List UInt8} {conn : Conn} (hword : word.length = 4)
    (hstream : word ++ conn.rest = junk ++ (magicBytes ++ tail))
    (hfirst : ∀ i < junk.length, ¬ MagicAt (junk ++ (magicBytes ++ tail)) i) :
    ∃ conn', hunt word conn = .ok conn' ∧ conn'.rest = tail := by
  induction junk generalizing word conn with
  | nil =>
    rw [List.nil_append] at hstream
    obtain ⟨hmagic, hrest⟩ := List.append_inj hstream (by rw [hword]; simp [magicBytes])
    exact ⟨conn, by rw [hunt, if_pos hmagic], hrest⟩
  | cons b junk ih =>
    have hnot : word ≠ magicBytes := by
      rintro rfl
      refine hfirst 0 (Nat.zero_lt_succ _) ?_
      rw [← hstream]
      exact magicAt_zero_append _
    cases hrest : conn.rest with
    | nil =>
      -- the window alone would have to hold `b` and a magic word
      have hlen := congrArg List.length hstream
      simp [hrest, hword, magicBytes] at hlen
      omega
    | cons c rest' =>
      obtain ⟨conn', hhunt, hrest'⟩ := hunt_shift hnot hrest
      rw [hhunt]
      refine ih ?_ ?_ ?_
      · simp [hword]
      · rw [hrest', shift_window hword, ← hrest, hstream]; rfl
      · intro i hi hmagic
        exact hfirst (i + 1) (Nat.succ_lt_succ hi) hmagic

/-- Without a magic word to come it goes on to the end of the stream. -/
theorem hunt_of_no_magic {word : List UInt8} {conn : Conn} (hword : word.length = 4)
    (hnone : ∀ i, ¬ MagicAt (word ++ conn.rest) i) : hunt word conn = .error .timeout := by
  have hnot : word ≠ magicBytes := by
    rintro rfl
    exact hnone 0 (magicAt_zero_append _)
  cases hrest : conn.rest with
  | nil =>
    have hread : readExact 1 conn = .error .timeout := readExact_of_short (by simp [hrest])
    rw [hunt, if_neg hnot]
    split
    · rename_i e herr
      rw [hread, Except.error.injEq] at herr; rw [herr]
    · rename_i byte conn' hok
      rw [hread] at hok; exact absurd hok (by simp)
  | cons b tail =>
    obtain ⟨conn', hhunt, hrest'⟩ := hunt_shift hnot hrest
    have hlen : conn'.rest.length < conn.rest.length := by simp [hrest, hrest']
    rw [hhunt]
    refine hunt_of_no_magic (by simp [hword]) ?_
    intro i hmagic
    rw [hrest', shift_window hword, ← hrest] at hmagic
    exact hnone (i + 1) (magicAt_drop_one.mp hmagic)
termination_by conn.rest.length

/-- `read_packet` skips what comes before the first magic word. -/
theorem readPacket_skip {c : Call} (hc : c.Valid) {junk tail : List UInt8} {conn : Conn}
    (hrest : conn.rest = junk ++ (c.packet ++ tail))
    (hfirst : ∀ i < junk.length, ¬ MagicAt conn.rest i) :
    ∃ conn', readPacket conn = .ok (c.received, conn') ∧ conn'.rest = tail := by
  have hstream : conn.rest = junk ++ (magicBytes ++ (c.afterMagic ++ tail)) := by
    rw [hrest, Call.packet_eq, List.append_assoc]
  have hlong : 4 ≤ conn.rest.length := by
    rw [hstream]; simp [magicBytes]; omega
  obtain ⟨conn₁, hread, hrest₁, _⟩ :=
    readExact_append (n := 4) (List.take_append_drop 4 conn.rest).symm
      (List.length_take_of_le hlong)
  have hwhole : conn.rest.take 4 ++ conn₁.rest =
      junk ++ (magicBytes ++ (c.afterMagic ++ tail)) := by
    rw [hrest₁, List.take_append_drop, hstream]
  obtain ⟨conn₂, hhunt, hrest₂⟩ :=
    hunt_append (List.length_take_of_le hlong) hwhole (by rw [← hstream]; exact hfirst)
  exact readPacket_of_hunt hc hread hhunt hrest₂

/-- A stream without a magic word is read to its end. -/
theorem readPacket_of_no_magic {conn : Conn} (hnone : ∀ i, ¬ MagicAt conn.rest i) :
    readPacket conn = .error .timeout := by
  rcases Nat.lt_or_ge conn.rest.length 4 with hshort | hlong
  · simp only [readPacket, bind, Except.bind, readExact_of_short hshort]
  · obtain ⟨conn₁, hread, hrest₁, _⟩ :=
      readExact_append (n := 4) (List.take_append_drop 4 conn.rest).symm
        (List.length_take_of_le hlong)
    have hhunt : hunt (conn.rest.take 4) conn₁ = .error .timeout :=
      hunt_of_no_magic (List.length_take_of_le hlong) (by
        rw [hrest₁, List.take_append_drop]; exact hnone)
    simp only [readPacket, bind, Except.bind, hread, hhunt]

/-- Bytes without a magic word, then packets: repeated calls return the packets, one by one, and
    time out after the last. -/
theorem readPackets_skip {written : List Call} (hvalid : ∀ c ∈ written, c.Valid) (n : ℕ)
    {junk : List UInt8} {conn : Conn} (hrest : conn.rest = junk ++ written.flatMap Call.packet)
    (hfirst : ∀ i < junk.length, ¬ MagicAt conn.rest i) :
    readPackets n conn =
      ((written.map Call.received).take n, if n ≤ written.length then none else some .timeout) := by
  induction n generalizing written junk conn with
  | zero => simp [readPackets]
  | succ n ih =>
    cases written with
    | nil =>
      have hnone : ∀ i, ¬ MagicAt conn.rest i := by
        intro i
        rcases Nat.lt_or_ge i junk.length with hlt | hge
        · exact hfirst i hlt
        · exact not_magicAt_of_length_le (by rw [hrest]; simpa using hge)
      simp [readPackets, readPacket_of_no_magic hnone]
    | cons c cs =>
      rw [List.flatMap_cons] at hrest
      have hc : c.Valid := hvalid c (List.mem_cons_self ..)
      obtain ⟨conn', hread, hrest'⟩ := readPacket_skip hc hrest hfirst
      have hnext : conn'.rest = [] ++ cs.flatMap Call.packet := hrest'
      have htail := ih (fun d hd => hvalid d (List.mem_cons_of_mem _ hd)) hnext
        (fun i hi => absurd hi (Nat.not_lt_zero i))
      simp only [readPackets, hread, htail, List.map_cons, List.take_succ_cons, List.length_cons,
        Nat.succ_le_succ_iff]

/-! ### From any offset -/

/-- The packets of a stream with the positions at which they start, counted from `p`. -/
def placed : ℕ → List Call → List (ℕ × Call)
  | _, [] => []
  | p, c :: cs => (p, c) :: placed (p + c.packet.length) cs

/-- The packets of a stream that start at or after the offset `k`. -/
def fromOffset (k : ℕ) (written : List Call) : List Call :=
  ((placed 0 written).filter fun x => k ≤ x.1).map (·.2)

/-- The magic word occurs at packet starts only. -/
def MagicAtStarts (written : List Call) : Prop :=
  ∀ i < (written.flatMap Call.packet).length,
    MagicAt (written.flatMap Call.packet) i → i ∈ (placed 0 written).map (·.1)

instance (written : List Call) : Decidable (MagicAtStarts written) :=
  inferInstanceAs (Decidable (∀ i < _, _ → _))

theorem le_of_mem_placed {p : ℕ} {written : List Call} {x : ℕ × Call}
    (hx : x ∈ placed p written) : p ≤ x.1 := by
  induction written generalizing p with
  | nil => exact absurd hx List.not_mem_nil
  | cons c cs ih =>
    rcases List.mem_cons.mp hx with rfl | hrest
    · exact le_rfl
    · exact le_trans (Nat.le_add_right ..) (ih hrest)

theorem map_placed (p : ℕ) (written : List Call) : (placed p written).map (·.2) = written := by
  induction written generalizing p with
  | nil => rfl
  | cons c cs ih => rw [placed, List.map_cons, ih]

/-- When nothing starts before the offset, nothing is skipped. -/
theorem filter_placed_of_le {k p : ℕ} (hle : k ≤ p) (written : List Call) :
    ((placed p written).filter fun x => k ≤ x.1).map (·.2) = written := by
  have hall : ∀ x ∈ placed p written, decide (k ≤ x.1) = true := by
    intro x hx
    exact decide_eq_true (le_trans hle (le_of_mem_placed hx))
  rw [List.filter_eq_self.mpr hall, map_placed]

/-- Behind the offset come the end of the packet it falls into, and the packets that start there or
    later. -/
theorem drop_placed (p k : ℕ) (written : List Call) :
    ∃ junk : List UInt8, (written.flatMap Call.packet).drop (k - p) =
        junk ++ (((placed p written).filter fun x => k ≤ x.1).map (·.2)).flatMap Call.packet ∧
      ∀ x ∈ placed p written, k ≤ x.1 → k + junk.length ≤ x.1 := by
  induction written generalizing p with
  | nil => exact ⟨[], by simp [placed], fun x hx => absurd hx List.not_mem_nil⟩
  | cons c cs ih =>
    rcases Nat.lt_or_ge p k with hlt | hge
    · -- `c` starts before the offset
      have hskip : (placed p (c :: cs)).filter (fun x => k ≤ x.1) =
          (placed (p + c.packet.length) cs).filter fun x => k ≤ x.1 := by
        rw [placed, List.filter_cons_of_neg (by simpa using hlt)]
      have htail : ∀ (junk : List UInt8),
          (∀ x ∈ placed (p + c.packet.length) cs, k ≤ x.1 → k + junk.length ≤ x.1) →
          ∀ x ∈ placed p (c :: cs), k ≤ x.1 → k + junk.length ≤ x.1 := by
        intro junk hlater x hx hk
        rcases List.mem_cons.mp hx with rfl | hrest
        · exact absurd hk (Nat.not_le.mpr hlt)
        · exact hlater x hrest hk
      rw [hskip, List.flatMap_cons]
      rcases Nat.lt_or_ge (p + c.packet.length) k with hbeyond | hwithin
      · obtain ⟨junk, hdrop, hlater⟩ := ih (p + c.packet.length)
        refine ⟨junk, ?_, htail junk hlater⟩
        rw [List.drop_append, List.drop_eq_nil_of_le (by omega), List.nil_append, ← hdrop,
          Nat.sub_sub]
      · refine ⟨c.packet.drop (k - p), ?_, htail _ ?_⟩
        · rw [List.drop_append_of_le_length (by omega), filter_placed_of_le hwithin]
        · intro x hx _
          have hstart := le_of_mem_placed hx
          rw [List.length_drop]; omega
    · refine ⟨[], ?_, fun x hx hk => hk⟩
      rw [Nat.sub_eq_zero_of_le hge, filter_placed_of_le hge]
      rfl

/-- CORRECT: from any byte offset into a stream that shows the magic word at packet starts only, and
    however it is split, repeated calls of `read_packet` return exactly the packets that start at or
    after the offset, in order; the first exception is the timeout at the end of the stream. -/
theorem readPackets_drop {written : List Call} (hvalid : ∀ c ∈ written, c.Valid)
    (hmagic : MagicAtStarts written) (k n : ℕ) {conn : Conn}
    (hrest : conn.rest = (written.flatMap Call.packet).drop k) :
    readPackets n conn =
      (((fromOffset k written).map Call.received).take n,
        if n ≤ (fromOffset k written).length then none else some .timeout) := by
  obtain ⟨junk, hdrop, hlater⟩ := drop_placed 0 k written
  rw [Nat.sub_zero, ← fromOffset] at hdrop
  refine readPackets_skip ?_ n (hrest.trans hdrop) ?_
  · intro c hc
    obtain ⟨x, hx, rfl⟩ := List.mem_map.mp hc
    refine hvalid x.2 ?_
    rw [← map_placed 0 written]
    exact List.mem_map_of_mem (List.mem_of_mem_filter hx)
  · -- a magic word before the next start would be at a start itself
    intro i hi hfound
    rw [hrest, MagicAt, List.drop_drop] at hfound
    have hbound : k + i < (written.flatMap Call.packet).length := by
      by_contra hbeyond
      exact not_magicAt_of_length_le (Nat.le_of_not_lt hbeyond) hfound
    obtain ⟨x, hx, hstart⟩ := List.mem_map.mp (hmagic (k + i) hbound hfound)
    have hge := hlater x hx (by omega)
    omega

def throttlesCall : Call := ⟨.escThrottles, List.replicate 8 0, 7, 2000⟩
def fcOutCall : Call := ⟨.fcOut, List.replicate 12 0, 8, 2000⟩

/-- A host that connects inside the first magic word gets the second packet. -/
theorem readPackets_drop_two :
    readPackets 2 ⟨([throttlesCall, fcOutCall].flatMap Call.packet).drop 2, fun _ => 0, 0⟩ =
      ([fcOutCall.received], some .timeout) := by
  have hvalid : ∀ c ∈ [throttlesCall, fcOutCall], c.Valid := by decide
  have hmagic : MagicAtStarts [throttlesCall, fcOutCall] := by decide +kernel
  have hfrom : fromOffset 2 [throttlesCall, fcOutCall] = [fcOutCall] := by decide +kernel
  refine (readPackets_drop hvalid hmagic 2 2 rfl).trans ?_
  rw [hfrom]
  rfl

end FC.Telemetry

import StreamCodec.Proofs.Session.Inflating

namespace StreamCodec.InflateSession

/-! A session that is fed bytes of a stream without its end, cut anywhere. -/

variable {ι : Type} [InflateEngine ι]

/-- A call on the next so many bytes of what is left, with so much room. -/
structure Cut where
  length : Nat
  room : Nat

structure Feeding (ι : Type) where
  session : InflateSession ι
  rest : Bytes
  written : Bytes

namespace Feeding

def start (format : Format) (bytes : Bytes) : Feeding ι :=
  ⟨(new format).setUp.2, bytes, []⟩

def call (feeding : Feeding ι) (cut : Cut) : Except CodecError (Feeding ι) :=
  match feeding.session.decompress (feeding.rest.take cut.length) cut.room with
  | (.error error, _) => .error error
  | (.ok decoded, session) =>
      .ok ⟨session, feeding.rest.drop decoded.consumed,
        feeding.written ++ decoded.output⟩

def callAll (feeding : Feeding ι) (cuts : List Cut) :
    Except CodecError (Feeding ι) :=
  cuts.foldlM call feeding

end Feeding

variable {format : Format} {grammar : Grammar} {consumed written : Bytes}
  {session : InflateSession ι}

private theorem Midway.decompress_of_unfinished
    (midway : session.Midway format consumed written)
    (follows : InflateEngine.Follows ι format grammar) {input rest : Bytes}
    (isPrefix : input <+: rest) {content : Bytes}
    (readEq : grammar.read (consumed ++ rest) = ⟨content, .unfinished⟩)
    (room : Nat) :
    ∃ (decoded : Decoded input room) (next : InflateSession ι),
      session.decompress input room = (.ok decoded, next) ∧
      next.Midway format (consumed ++ decoded.taken)
        (written ++ decoded.output) ∧
      written ++ decoded.output <+: content ∧
      (0 < room → decoded.IsIdle → input = [] ∧ grammar.read consumed =
        ⟨written, .unfinished⟩) := by
  obtain ⟨more, rfl⟩ := isPrefix
  rw [← List.append_assoc] at readEq
  have unfinished : (grammar.read (consumed ++ input ++ more)).verdict =
      .unfinished := by
    rw [readEq]
  cases midway with
  | @of_reached engine wasReset reached =>
      simp only [decompress]
      rcases ran : Engine.inflate engine .none input room with ⟨error | step, next⟩
      · obtain ⟨words, failed, rfl⟩ := Engine.run_of_inflate_error ran
        have faulty := (follows.failed reached failed).1
        rw [Grammar.unfinished_of_append unfinished] at faulty
        cases faulty
      · have ran := Engine.run_of_inflate_ok ran
        have whole : consumed ++ step.taken ++ (step.rest ++ more) =
            consumed ++ input ++ more := by
          rw [← List.append_assoc, List.append_assoc consumed,
            Transfer.taken_append_rest]
        have going : step.status ≠ .streamEnd := fun ended => by
          have complete := (follows.ended reached ran ended).read_eq
          rw [← whole] at unfinished
          have earlier := Grammar.unfinished_of_append unfinished
          rw [complete] at earlier
          cases earlier
        have notEnded : (step.status == .streamEnd) = false :=
          beq_false_of_ne going
        refine ⟨_, _, rfl, ?_, ?_, fun roomy idle => ?_⟩
        · rw [notEnded]
          exact .of_reached wasReset (reached.call ran going)
        · have grown := grammar.content_append (consumed ++ step.taken)
            (step.rest ++ more)
          rw [whole, readEq] at grown
          exact (follows.written_prefix reached ran).trans grown
        · rcases follows.stalled reached ran going idle with spent | ⟨full, _⟩
          · exact spent
          · omega

namespace Feeding

structure Reads (format : Format) (bytes content : Bytes) (feeding : Feeding ι) :
    Prop where
  midway : ∃ consumed, consumed ++ feeding.rest = bytes ∧
    feeding.session.Midway format consumed feeding.written
  written_prefix : feeding.written <+: content

def due (content : Bytes) (feeding : Feeding ι) : Nat :=
  feeding.rest.length + (content.length - feeding.written.length)

variable {bytes content : Bytes} {feeding : Feeding ι}

theorem reads_start (format : Format) (bytes content : Bytes) :
    (start format bytes : Feeding ι).Reads format bytes content :=
  ⟨⟨[], rfl, (midway_setUp_new format).2⟩, List.nil_prefix⟩

theorem Reads.call (reads : feeding.Reads format bytes content)
    (follows : InflateEngine.Follows ι format grammar)
    (readEq : grammar.read bytes = ⟨content, .unfinished⟩) (cut : Cut) :
    ∃ next, feeding.call cut = .ok next ∧ next.Reads format bytes content ∧
      (0 < cut.length → 0 < cut.room →
        next.due content ≤ feeding.due content - 1) := by
  obtain ⟨⟨consumed, rfl, midway⟩, _⟩ := reads
  obtain ⟨decoded, next, decompressed, nextMidway, grown, stalled⟩ :=
    midway.decompress_of_unfinished follows (feeding.rest.take_prefix cut.length)
      readEq cut.room
  have consumed_le := decoded.consumed_le
  rw [List.length_take] at consumed_le
  have tiles : decoded.taken ++ feeding.rest.drop decoded.consumed =
      feeding.rest := by
    rw [Transfer.taken, List.take_take, Nat.min_eq_left (by omega),
      List.take_append_drop]
  refine ⟨⟨next, feeding.rest.drop decoded.consumed,
    feeding.written ++ decoded.output⟩, ?_,
    ⟨⟨_, ?_, nextMidway⟩, grown⟩, fun positive roomy => ?_⟩
  · simp only [Feeding.call, decompressed]
  · rw [List.append_assoc, tiles]
  · have fits := grown.length_le
    simp only [due, List.length_drop, List.length_append] at fits ⊢
    rcases Decidable.em decoded.IsIdle with idle | busy
    · obtain ⟨noneGiven, writtenEq⟩ := stalled roomy idle
      have usedUp : feeding.rest = [] := by
        rcases List.take_eq_nil_iff.1 noneGiven with zero | nothing
        · omega
        · exact nothing
      rw [usedUp, List.append_nil, writtenEq, Meaning.mk.injEq] at readEq
      have noneLeft := congrArg List.length usedUp
      have allWritten := congrArg List.length readEq.1
      rw [List.length_nil] at noneLeft
      omega
    · have moved : 0 < decoded.consumed ∨ 0 < decoded.output.length := by
        rcases Nat.eq_zero_or_pos decoded.consumed with zero | taken
        · exact .inr (List.length_pos_iff.2 fun empty => busy ⟨zero, empty⟩)
        · exact .inl taken
      omega

theorem Reads.callAll (reads : feeding.Reads format bytes content)
    (follows : InflateEngine.Follows ι format grammar)
    (readEq : grammar.read bytes = ⟨content, .unfinished⟩) (cuts : List Cut) :
    ∃ last, feeding.callAll cuts = .ok last ∧ last.Reads format bytes content ∧
      ((∀ cut ∈ cuts, 0 < cut.length ∧ 0 < cut.room) →
        last.due content ≤ feeding.due content - cuts.length) := by
  induction cuts generalizing feeding with
  | nil => exact ⟨feeding, rfl, reads, fun _ => Nat.le_refl _⟩
  | cons cut cuts induction =>
      obtain ⟨next, called, nextReads, shrinks⟩ := reads.call follows readEq cut
      obtain ⟨last, calledAll, lastReads, later⟩ := induction nextReads
      refine ⟨last, ?_, lastReads, fun useful => ?_⟩
      · rw [Feeding.callAll, List.foldlM_cons, called]
        exact calledAll
      · obtain ⟨positive, roomy⟩ := useful cut List.mem_cons_self
        have less := shrinks positive roomy
        have least := later fun cut member => useful cut (List.mem_cons_of_mem _ member)
        rw [List.length_cons]
        omega

theorem Reads.complete (reads : feeding.Reads format bytes content)
    (settled : feeding.due content = 0) :
    feeding.rest = [] ∧ feeding.written = content := by
  have fits := reads.written_prefix.length_le
  simp only [due] at settled
  exact ⟨List.eq_nil_of_length_eq_zero (by omega),
    reads.written_prefix.eq_of_length (by omega)⟩

/-- However the bytes are cut, the session does not get beyond the content and does
not finish. It is at the end of both after enough calls, and when a call for more gets
no further. -/
theorem callAll_of_unfinished (follows : InflateEngine.Follows ι format grammar)
    (readEq : grammar.read bytes = ⟨content, .unfinished⟩) (cuts : List Cut) :
    ∃ last, (start format bytes : Feeding ι).callAll cuts = .ok last ∧
      last.session.finished = false ∧ last.written <+: content ∧
      ((∀ cut ∈ cuts, 0 < cut.length ∧ 0 < cut.room) →
        bytes.length + content.length ≤ cuts.length →
        last.rest = [] ∧ last.written = content) ∧
      ∀ cut next, 0 < cut.length → 0 < cut.room → last.call cut = .ok next →
        next.rest = last.rest → next.written = last.written →
        last.rest = [] ∧ last.written = content := by
  obtain ⟨last, called, reads, later⟩ :=
    (reads_start format bytes content).callAll follows readEq cuts
  obtain ⟨_, _, midway⟩ := reads.midway
  refine ⟨last, called, midway.not_finished, reads.written_prefix,
    fun useful enough => ?_, fun cut next positive roomy callEq sameRest sameWritten => ?_⟩
  · have least := later useful
    simp only [due, start, List.length_nil] at least
    exact reads.complete (by
      simp only [due]
      omega)
  · obtain ⟨_, callEq', _, shrinks⟩ := reads.call follows readEq cut
    cases callEq.symm.trans callEq'
    have less := shrinks positive roomy
    simp only [due, sameRest, sameWritten] at less
    exact reads.complete (by
      simp only [due]
      omega)

end Feeding

end StreamCodec.InflateSession

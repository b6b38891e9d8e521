import StreamCodec.Proofs.Engine.Renewal
import StreamCodec.Session.Inflating

namespace StreamCodec.InflateSession

/-! The life of a decompressor session, told from the calls it has served. A session that
was set up or reset cannot be told from a new one. -/

variable {ι : Type} [InflateEngine ι]

inductive Request
  | setUp
  | reset
  | decompress (input : Bytes) (room : Nat)

/-- What a call did. A set-up and a reset neither read nor write. -/
structure Receipt where
  consumed : Nat
  output : Bytes
  needMoreOutput : Bool

namespace Receipt

def nothing : Receipt := ⟨0, [], false⟩

def ofDecoded {input : Bytes} {room : Nat} (decoded : Decoded input room) : Receipt :=
  ⟨decoded.consumed, decoded.output, decoded.needMoreOutput⟩

end Receipt

def serve (session : InflateSession ι) :
    Request → Except CodecError Receipt × InflateSession ι
  | .setUp => (session.setUp.1.map fun () => .nothing, session.setUp.2)
  | .reset => (session.reset.1.map fun () => .nothing, session.reset.2)
  | .decompress input room =>
      ((session.decompress input room).1.map .ofDecoded,
        (session.decompress input room).2)

def afterAll (session : InflateSession ι) : List Request → InflateSession ι
  | [] => session
  | request :: requests => (session.serve request).2.afterAll requests

structure Entry where
  request : Request
  answer : Except CodecError Receipt

def history (session : InflateSession ι) : List Request → List Entry
  | [] => []
  | request :: requests =>
      ⟨request, (session.serve request).1⟩ ::
        (session.serve request).2.history requests

def Entry.SetsUp (entry : Entry) : Prop :=
  entry.request = .setUp ∧ ∃ receipt, entry.answer = .ok receipt

def Entry.Resets (entry : Entry) : Prop :=
  entry.request = .reset ∧ ∃ receipt, entry.answer = .ok receipt

def IsSetUp (past : List Entry) : Prop :=
  ∃ entry ∈ past, entry.SetsUp

/-- A reset has succeeded, and no set-up since. -/
def IsReset (past : List Entry) : Prop :=
  ∃ before entry after, past = before ++ entry :: after ∧ entry.Resets ∧ ¬IsSetUp after

/-- The engine is asked, and reports the end of the stream. -/
def EndsStream (session : InflateSession ι) : Request → Prop
  | .decompress input room =>
      session.finished = false ∧
        ∃ engine step, session.engine? = some engine ∧
          (InflateEngine.run engine .none input room).1 = .ok step ∧
          step.status = .streamEnd
  | _ => False

inductive Serves (session : InflateSession ι) :
    Request → Except CodecError Receipt → InflateSession ι → Prop
  | opened (missing : session.engine? = none) :
      Serves session .setUp (.ok .nothing)
        { session with
          engine? := some (InflateEngine.start session.format)
          finished := false
          wasReset := false }
  | reopened {engine : ι} (present : session.engine? = some engine)
      (wasReset : session.wasReset = true) :
      Serves session .setUp (.ok .nothing)
        { session with
          engine? := some (Engine.restart session.format engine)
          finished := false
          wasReset := false }
  | alreadyOpen {engine : ι} (present : session.engine? = some engine)
      (notReset : session.wasReset = false) :
      Serves session .setUp (.error (.invalidState .decompressorInitialized)) session
  | reset {engine : ι} (present : session.engine? = some engine) :
      Serves session .reset (.ok .nothing)
        { session with
          engine? := some (Engine.restart session.format engine)
          finished := false
          wasReset := true }
  | nothingToReset (missing : session.engine? = none) :
      Serves session .reset (.error (.invalidState .decompressorNotInitialized)) session
  | alreadyFinished (input : Bytes) (room : Nat) (finished : session.finished = true) :
      Serves session (.decompress input room) (.error (.invalidState .streamFinished))
        session
  | notOpen (input : Bytes) (room : Nat) (going : session.finished = false)
      (missing : session.engine? = none) :
      Serves session (.decompress input room)
        (.error (.invalidState .decompressorNotInitialized)) session
  | failed {engine : ι} {input : Bytes} {room : Nat} {words : Option String}
      (going : session.finished = false) (present : session.engine? = some engine)
      (ran : (InflateEngine.run engine .none input room).1 = .error words) :
      Serves session (.decompress input room) (.error (.corruptInput (.inflate words)))
        { session with engine? := some (InflateEngine.run engine .none input room).2 }
  | decoded {engine : ι} {input : Bytes} {room : Nat} {step : Step input room}
      (going : session.finished = false) (present : session.engine? = some engine)
      (ran : (InflateEngine.run engine .none input room).1 = .ok step)
      (needMoreOutput : Bool) :
      Serves session (.decompress input room)
        (.ok ⟨step.consumed, step.output, needMoreOutput⟩)
        { session with
          engine? := some (InflateEngine.run engine .none input room).2
          finished := step.status == .streamEnd }

theorem serves_serve (session : InflateSession ι) (request : Request) :
    Serves session request (session.serve request).1 (session.serve request).2 := by
  rcases session with ⟨format, engine?, finished, wasReset⟩
  cases request with
  | setUp =>
      cases engine? with
      | none => exact .opened rfl
      | some engine =>
          cases wasReset with
          | false => exact .alreadyOpen rfl rfl
          | true => exact .reopened rfl rfl
  | reset =>
      cases engine? with
      | none => exact .nothingToReset rfl
      | some engine => exact .reset rfl
  | decompress input room =>
      cases finished with
      | true => exact .alreadyFinished input room rfl
      | false =>
          cases engine? with
          | none => exact .notOpen input room rfl rfl
          | some engine =>
              simp only [serve, decompress, Engine.inflate]
              rcases ran : InflateEngine.run engine .none input room with ⟨words | step, next⟩
              · have failed := congrArg Prod.fst ran
                have nextEq := congrArg Prod.snd ran
                subst nextEq
                exact .failed rfl rfl failed
              · have stepped := congrArg Prod.fst ran
                have nextEq := congrArg Prod.snd ran
                subst nextEq
                exact .decoded rfl rfl stepped _

namespace Serves

variable {session next : InflateSession ι} {request : Request}
  {answer : Except CodecError Receipt}

private theorem format_eq (serves : Serves session request answer next) :
    next.format = session.format := by
  cases serves <;> rfl

private theorem isSome_iff (serves : Serves session request answer next) :
    next.engine?.isSome ↔
      session.engine?.isSome ∨ (⟨request, answer⟩ : Entry).SetsUp := by
  cases serves <;> simp_all [Entry.SetsUp]

private theorem wasReset_iff (serves : Serves session request answer next) :
    next.wasReset = true ↔
      (⟨request, answer⟩ : Entry).Resets ∨
        session.wasReset = true ∧ ¬(⟨request, answer⟩ : Entry).SetsUp := by
  cases serves <;> simp_all [Entry.SetsUp, Entry.Resets]

private theorem opened_next (serves : Serves session request answer next)
    (opened : ∀ engine, session.engine? = some engine →
      InflateEngine.Opened session.format engine) :
    ∀ engine, next.engine? = some engine → InflateEngine.Opened session.format engine := by
  cases serves with
  | opened missing =>
      rintro _ ⟨⟩
      exact .start _
  | reopened present =>
      rintro _ ⟨⟩
      exact Engine.opened_restart (opened _ present)
  | reset present =>
      rintro _ ⟨⟩
      exact Engine.opened_restart (opened _ present)
  | failed going present =>
      rintro _ ⟨⟩
      exact (opened _ present).run _ _ _
  | decoded going present =>
      rintro _ ⟨⟩
      exact (opened _ present).run _ _ _
  | alreadyOpen => exact opened
  | nothingToReset => exact opened
  | alreadyFinished => exact opened
  | notOpen => exact opened

theorem setUp_ok_iff (serves : Serves session .setUp answer next) :
    (∃ receipt, answer = .ok receipt) ↔
      ¬session.engine?.isSome ∨ session.wasReset = true := by
  cases serves <;> simp_all

theorem reset_ok_iff (serves : Serves session .reset answer next) :
    (∃ receipt, answer = .ok receipt) ↔ session.engine?.isSome := by
  cases serves <;> simp_all

theorem decompress_misused_iff {input : Bytes} {room : Nat}
    (serves : Serves session (.decompress input room) answer next) :
    (∃ misuse, answer = .error (.invalidState misuse)) ↔
      ¬session.engine?.isSome ∨ session.finished = true := by
  cases serves <;> simp_all

theorem unchanged_of_misused {misuse : Misuse}
    (serves : Serves session request (.error (.invalidState misuse)) next) :
    next = session := by
  cases serves <;> rfl

theorem finishes_iff (serves : Serves session request answer next) :
    session.finished = false ∧ next.finished = true ↔ EndsStream session request := by
  cases serves <;> simp_all [EndsStream]

private theorem ok_of_unfinishes (serves : Serves session request answer next)
    (finished : session.finished = true) (going : next.finished = false) :
    (⟨request, answer⟩ : Entry).SetsUp ∨ (⟨request, answer⟩ : Entry).Resets := by
  cases serves <;> simp_all [Entry.SetsUp, Entry.Resets]

end Serves

private theorem isSetUp_concat {past : List Entry} {entry : Entry} :
    IsSetUp (past ++ [entry]) ↔ IsSetUp past ∨ entry.SetsUp := by
  simp [IsSetUp, or_and_right, exists_or]

private theorem isReset_concat {past : List Entry} {entry : Entry} :
    IsReset (past ++ [entry]) ↔ entry.Resets ∨ IsReset past ∧ ¬entry.SetsUp := by
  constructor
  · rintro ⟨before, found, after, pastEq, resets, noSetUp⟩
    rcases List.eq_nil_or_concat after with rfl | ⟨later, last, rfl⟩
    · obtain ⟨_, same⟩ := List.append_inj' pastEq rfl
      cases same
      exact .inl resets
    · rw [List.concat_eq_append, ← List.cons_append, ← List.append_assoc] at pastEq
      obtain ⟨rfl, same⟩ := List.append_inj' pastEq rfl
      cases same
      rw [List.concat_eq_append, isSetUp_concat, not_or] at noSetUp
      exact .inr ⟨⟨before, found, later, rfl, resets, noSetUp.1⟩, noSetUp.2⟩
  · rintro (resets | ⟨⟨before, found, after, rfl, resets, noSetUp⟩, other⟩)
    · exact ⟨past, entry, [], rfl, resets, by simp [IsSetUp]⟩
    · refine ⟨before, found, after ++ [entry], by simp, resets, ?_⟩
      rw [isSetUp_concat, not_or]
      exact ⟨noSetUp, other⟩

structure Records (format : Format) (past : List Entry) (session : InflateSession ι) :
    Prop where
  format_eq : session.format = format
  opened : ∀ engine, session.engine? = some engine → InflateEngine.Opened format engine
  isSetUp_iff : IsSetUp past ↔ session.engine?.isSome
  isReset_iff : IsReset past ↔ session.wasReset = true

theorem records_new (format : Format) :
    Records format [] (new format : InflateSession ι) where
  format_eq := rfl
  opened := by simp [new]
  isSetUp_iff := by simp [IsSetUp, new]
  isReset_iff := by simp [IsReset, new]

variable {format : Format} {past : List Entry} {session : InflateSession ι}

theorem Records.serve (records : Records format past session) (request : Request) :
    Records format (past ++ [⟨request, (session.serve request).1⟩])
      (session.serve request).2 := by
  obtain ⟨rfl, opened, isSetUp_iff, isReset_iff⟩ := records
  have serves := serves_serve session request
  exact
    { format_eq := serves.format_eq
      opened := serves.opened_next opened
      isSetUp_iff := by rw [isSetUp_concat, isSetUp_iff, serves.isSome_iff]
      isReset_iff := by rw [isReset_concat, isReset_iff, serves.wasReset_iff] }

theorem Records.afterAll (records : Records format past session)
    (requests : List Request) :
    Records format (past ++ session.history requests) (session.afterAll requests) := by
  induction requests generalizing past session with
  | nil =>
      rw [history, List.append_nil]
      exact records
  | cons request requests induction =>
      rw [history, List.append_cons]
      exact induction (records.serve request)

/-- Decompressing does not tell the sessions apart. -/
structure Alike (first second : InflateSession ι) : Prop where
  finished_eq : first.finished = second.finished
  engines : Option.Rel InflateEngine.Alike first.engine? second.engine?

theorem Alike.decompress {first second : InflateSession ι} (alike : Alike first second)
    (input : Bytes) (room : Nat) :
    (first.decompress input room).1 = (second.decompress input room).1 ∧
      Alike (first.decompress input room).2 (second.decompress input room).2 := by
  rcases first with ⟨_, _, finished, _⟩
  rcases second with ⟨_, _, _, _⟩
  obtain ⟨rfl, engines⟩ := alike
  cases finished with
  | true => exact ⟨rfl, rfl, engines⟩
  | false =>
      cases engines with
      | none => exact ⟨rfl, rfl, .none⟩
      | @some engine other engineAlike =>
          simp only [InflateSession.decompress]
          rcases ran : Engine.inflate engine .none input room with ⟨error | step, next⟩
          all_goals
            obtain ⟨otherNext, otherRan, nextAlike⟩ :=
              Engine.inflate_of_alike engineAlike ran
            rw [otherRan]
            exact ⟨rfl, rfl, .some nextAlike⟩

def decompressions (calls : List (Bytes × Nat)) : List Request :=
  calls.map fun call => .decompress call.1 call.2

theorem Alike.decompressions {first second : InflateSession ι}
    (alike : Alike first second) (calls : List (Bytes × Nat)) :
    first.history (decompressions calls) = second.history (decompressions calls) ∧
      Alike (first.afterAll (decompressions calls))
        (second.afterAll (decompressions calls)) := by
  induction calls generalizing first second with
  | nil => exact ⟨rfl, alike⟩
  | cons call calls induction =>
      obtain ⟨sameAnswer, nextAlike⟩ := alike.decompress call.1 call.2
      obtain ⟨sameLater, lastAlike⟩ := induction nextAlike
      refine ⟨?_, lastAlike⟩
      simp only [InflateSession.decompressions, List.map_cons, history,
        InflateSession.serve, sameAnswer] at sameLater ⊢
      rw [sameLater]

/-- What was set up or reset is as good as new, whatever it was before. -/
theorem Serves.alike_new [InflateEngine.Renewable ι] {next : InflateSession ι}
    {request : Request} {answer : Except CodecError Receipt}
    (serves : Serves session request answer next)
    (opened : ∀ engine, session.engine? = some engine →
      InflateEngine.Opened session.format engine)
    (renewed : (⟨request, answer⟩ : Entry).SetsUp ∨ (⟨request, answer⟩ : Entry).Resets) :
    Alike next ((new session.format).setUp).2 := by
  cases serves with
  | opened => exact ⟨rfl, .some (.refl _)⟩
  | reopened present =>
      exact ⟨rfl, .some (Engine.restart_alike (opened _ present))⟩
  | reset present => exact ⟨rfl, .some (Engine.restart_alike (opened _ present))⟩
  | _ => simp [Entry.SetsUp, Entry.Resets] at renewed

/-- How the next call goes on a session with this past. -/
structure Continues (format : Format) (past : List Entry)
    (session : InflateSession ι) (request : Request)
    (answer : Except CodecError Receipt) (next : InflateSession ι) : Prop where
  setUp_iff : request = .setUp →
    ((∃ receipt, answer = .ok receipt) ↔ ¬IsSetUp past ∨ IsReset past)
  reset_iff : request = .reset → ((∃ receipt, answer = .ok receipt) ↔ IsSetUp past)
  misused_iff : ∀ input room, request = .decompress input room →
    ((∃ misuse, answer = .error (.invalidState misuse)) ↔
      ¬IsSetUp past ∨ session.finished = true)
  unchanged : ∀ misuse, answer = .error (.invalidState misuse) → next = session
  finishes_iff : session.finished = false ∧ next.finished = true ↔
    session.EndsStream request
  unfinishes : session.finished = true → next.finished = false →
    (⟨request, answer⟩ : Entry).SetsUp ∨ (⟨request, answer⟩ : Entry).Resets
  renews : (⟨request, answer⟩ : Entry).SetsUp ∨ (⟨request, answer⟩ : Entry).Resets →
    ∀ calls,
      next.history (decompressions calls) =
        ((new format : InflateSession ι).setUp).2.history (decompressions calls) ∧
      (next.afterAll (decompressions calls)).finished =
        (((new format : InflateSession ι).setUp).2.afterAll
          (decompressions calls)).finished

theorem Serves.continues [InflateEngine.Renewable ι] {next : InflateSession ι}
    {request : Request} {answer : Except CodecError Receipt}
    (serves : Serves session request answer next) (records : Records format past session) :
    Continues format past session request answer next := by
  obtain ⟨rfl, opened, isSetUp_iff, isReset_iff⟩ := records
  exact
    { setUp_iff := by
        rintro rfl
        rw [isSetUp_iff, isReset_iff, serves.setUp_ok_iff]
      reset_iff := by
        rintro rfl
        rw [isSetUp_iff, serves.reset_ok_iff]
      misused_iff := by
        rintro input room rfl
        rw [isSetUp_iff, serves.decompress_misused_iff]
      unchanged := by
        rintro misuse rfl
        exact serves.unchanged_of_misused
      finishes_iff := serves.finishes_iff
      unfinishes := serves.ok_of_unfinishes
      renews := fun renewed calls => by
        obtain ⟨sameHistory, alike⟩ :=
          (serves.alike_new opened renewed).decompressions calls
        exact ⟨sameHistory, alike.finished_eq⟩ }

/-- The past tells which calls are refused and when the stream is finished, and after a
set-up or a reset the past no longer matters. -/
theorem continues_afterAll [InflateEngine.Renewable ι] (format : Format)
    (requests : List Request) (request : Request) :
    let session := (new format : InflateSession ι).afterAll requests
    Continues format ((new format : InflateSession ι).history requests) session request
      (session.serve request).1 (session.serve request).2 := by
  intro session
  have records : Records format ((new format : InflateSession ι).history requests)
      session := (records_new format).afterAll requests
  exact (serves_serve session request).continues records

theorem continues_afterAll_of_failure :
    let requests : List Request :=
      [.setUp, .decompress [0x78, 0x9c, 0x03] 4, .decompress [0xff, 0xff, 0xff, 0xff] 4]
    let session := (new .zlib : InflateSession Inflate.Decoder).afterAll requests
    InflateEngine.Renewable Inflate.Decoder ∧
    Continues .zlib ((new .zlib : InflateSession Inflate.Decoder).history requests) session
      .reset (session.serve .reset).1 (session.serve .reset).2 := by
  intro requests session
  exact ⟨inferInstance, continues_afterAll .zlib requests .reset⟩

end StreamCodec.InflateSession

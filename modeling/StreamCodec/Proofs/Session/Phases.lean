import StreamCodec.Proofs.Session.Schedule

namespace StreamCodec.DeflateSession

/-! The phases of a compressor session: it is opened once, if there is such a level, and
closed once, by the call that ends the stream. -/

variable {ε : Type}

inductive Stage
  | created
  | active
  | closed
  deriving DecidableEq

def Phase.stage : Phase ε → Stage
  | .created => .created
  | .active _ => .active
  | .closed => .closed

def stage (session : DeflateSession ε) : Stage :=
  session.phase.stage

@[simp] theorem stage_created (level : Int) :
    (⟨level, .created⟩ : DeflateSession ε).stage = .created := rfl

@[simp] theorem stage_active (level : Int) (engine : ε) :
    (⟨level, .active engine⟩ : DeflateSession ε).stage = .active := rfl

@[simp] theorem stage_closed (level : Int) :
    (⟨level, .closed⟩ : DeflateSession ε).stage = .closed := rfl

inductive Stage.Moves : Stage → Stage → Prop
  | stays (stage : Stage) : Moves stage stage
  | opens : Moves .created .active
  | closes : Moves .active .closed

def Request.IsSetUp : Request → Prop
  | .setUp _ => True
  | _ => False

def Request.LacksRoom : Request → Prop
  | .flush room => room = 0
  | .finish room => room = 0
  | _ => False

def Ends : Request → Except CodecError Receipt → Prop
  | .finish _, .ok receipt => receipt.retry = false
  | _, _ => False

inductive Serves (session : DeflateSession ε) :
    Request → Except CodecError Receipt → DeflateSession ε → Prop
  | opened (format : Format) (engine : ε) (created : session.stage = .created)
      (inRange : 0 ≤ session.level ∧ session.level ≤ 9) :
      Serves session (.setUp format) (.ok ⟨[], [], false⟩)
        { session with phase := .active engine }
  | rejected (format : Format) (created : session.stage = .created)
      (outside : ¬(0 ≤ session.level ∧ session.level ≤ 9)) :
      Serves session (.setUp format)
        (.error (.backendInit Engine.engineName (.levelRejected session.level))) session
  | alreadyOpen (format : Format) (opened : session.stage ≠ .created) :
      Serves session (.setUp format) (.error (.invalidState .compressorInitialized))
        session
  | flushWithoutRoom :
      Serves session (.flush 0) (.error (.invalidState (.emptyOutput "flush"))) session
  | finishWithoutRoom :
      Serves session (.finish 0) (.error (.invalidState (.emptyOutput "end"))) session
  | notOpen {request : Request} (other : ¬request.IsSetUp)
      (roomy : ¬request.LacksRoom) (created : session.stage = .created) :
      Serves session request (.error (.invalidState .compressorNotInitialized)) session
  | alreadyEnded {request : Request} (other : ¬request.IsSetUp)
      (roomy : ¬request.LacksRoom) (closed : session.stage = .closed) :
      Serves session request (.error (.invalidState .compressorEnded)) session
  | goesOn {request : Request} {answer : Except CodecError Receipt}
      (next : ε) (other : ¬request.IsSetUp) (roomy : ¬request.LacksRoom)
      (active : session.stage = .active) (going : ¬Ends request answer) :
      Serves session request answer { session with phase := .active next }
  | ended {receipt : Receipt} {room : Nat} (roomy : room ≠ 0)
      (active : session.stage = .active) (done : receipt.retry = false) :
      Serves session (.finish room) (.ok receipt) { session with phase := .closed }

namespace Serves

variable {session next : DeflateSession ε} {request : Request}
  {answer : Except CodecError Receipt}

private theorem level_eq (serves : Serves session request answer next) :
    next.level = session.level := by
  cases serves <;> rfl

theorem moves (serves : Serves session request answer next) :
    Stage.Moves session.stage next.stage := by
  cases serves with
  | opened format engine created =>
      rw [created]
      exact .opens
  | goesOn after other roomy active =>
      rw [active]
      exact .stays _
  | ended roomy active =>
      rw [active]
      exact .closes
  | _ => exact .stays _

theorem stage_eq_of_error {error : CodecError}
    (serves : Serves session request (.error error) next) :
    next.stage = session.stage := by
  cases serves with
  | goesOn after other roomy active =>
      rw [active, stage_active]
  | _ => rfl

theorem created_iff (serves : Serves session request answer next) :
    next.stage = .created ↔
      session.stage = .created ∧
        ¬(request.IsSetUp ∧ 0 ≤ session.level ∧ session.level ≤ 9) := by
  cases serves <;> simp_all [Request.IsSetUp]

theorem closed_iff (serves : Serves session request answer next) :
    next.stage = .closed ↔ session.stage = .closed ∨ Ends request answer := by
  cases serves <;> simp_all [Ends]

theorem opens_iff (serves : Serves session request answer next) :
    session.stage = .created ∧ next.stage = .active ↔
      session.stage = .created ∧
        request.IsSetUp ∧ 0 ≤ session.level ∧ session.level ≤ 9 := by
  cases serves <;> simp_all [Request.IsSetUp]

theorem closes_iff (serves : Serves session request answer next) :
    session.stage ≠ .closed ∧ next.stage = .closed ↔ Ends request answer := by
  cases serves <;> simp_all [Ends]

private theorem answer_of_setUp {format : Format}
    (serves : Serves session (.setUp format) answer next) :
    (session.stage = .created → 0 ≤ session.level ∧ session.level ≤ 9 →
      ∃ receipt, answer = .ok receipt) ∧
    (session.stage = .created → ¬(0 ≤ session.level ∧ session.level ≤ 9) →
      answer = .error (.backendInit "zlib" (.levelRejected session.level))) ∧
    (session.stage ≠ .created →
      answer = .error (.invalidState .compressorInitialized)) := by
  cases serves with
  | opened format engine created inRange => simp_all
  | rejected format created outside => simp_all [Engine.engineName]
  | alreadyOpen format opened => simp_all
  | notOpen other => exact (other trivial).elim
  | alreadyEnded other => exact (other trivial).elim
  | goesOn after other => exact (other trivial).elim

theorem misused_of_closed (serves : Serves session request answer next)
    (closed : session.stage = .closed) :
    (∃ misuse, answer = .error (.invalidState misuse)) ∧ next = session := by
  cases serves <;> simp_all

theorem misused_of_created (serves : Serves session request answer next)
    (created : session.stage = .created) (other : ¬request.IsSetUp) :
    (∃ misuse, answer = .error (.invalidState misuse)) ∧ next = session := by
  cases serves <;> simp_all [Request.IsSetUp]

theorem misused_of_lacksRoom (serves : Serves session request answer next)
    (lacks : request.LacksRoom) :
    (∃ operation, answer = .error (.invalidState (.emptyOutput operation))) ∧
      next = session := by
  cases serves <;> simp_all [Request.LacksRoom]

end Serves

structure Records (level : Int) (past : List (Request × Except CodecError Receipt))
    (session : DeflateSession ε) : Prop where
  level_eq : session.level = level
  created_iff : session.stage = .created ↔
    ¬((∃ entry ∈ past, entry.1.IsSetUp) ∧ 0 ≤ level ∧ level ≤ 9)
  closed_iff : session.stage = .closed ↔ ∃ entry ∈ past, Ends entry.1 entry.2

variable {level : Int} {past : List (Request × Except CodecError Receipt)}
  {session : DeflateSession ε}

theorem records_new (level : Int) : Records level [] (new level : DeflateSession ε) where
  level_eq := rfl
  created_iff := by simp [new]
  closed_iff := by simp [new]

/-- How the next call goes on a session of this level with this past. -/
structure Continues (level : Int) (past : List (Request × Except CodecError Receipt))
    (session : DeflateSession ε) (request : Request)
    (answer : Except CodecError Receipt) (next : DeflateSession ε) : Prop where
  moves : Stage.Moves session.stage next.stage
  stage_of_error : ∀ error, answer = .error error → next.stage = session.stage
  created_iff : session.stage = .created ↔
    ¬((∃ entry ∈ past, entry.1.IsSetUp) ∧ 0 ≤ level ∧ level ≤ 9)
  opens_iff : session.stage = .created ∧ next.stage = .active ↔
    (0 ≤ level ∧ level ≤ 9) ∧ (∀ entry ∈ past, ¬entry.1.IsSetUp) ∧ request.IsSetUp
  setUp_answer : ∀ format, request = .setUp format →
    (session.stage = .created → 0 ≤ level ∧ level ≤ 9 → ∃ receipt, answer = .ok receipt) ∧
    (session.stage = .created → ¬(0 ≤ level ∧ level ≤ 9) →
      answer = .error (.backendInit "zlib" (.levelRejected level))) ∧
    (session.stage ≠ .created → answer = .error (.invalidState .compressorInitialized))
  closed_iff : session.stage = .closed ↔ ∃ entry ∈ past, Ends entry.1 entry.2
  closes_iff : session.stage ≠ .closed ∧ next.stage = .closed ↔ Ends request answer
  misused_of_closed : session.stage = .closed →
    (∃ misuse, answer = .error (.invalidState misuse)) ∧ next = session
  misused_of_created : session.stage = .created → ¬request.IsSetUp →
    (∃ misuse, answer = .error (.invalidState misuse)) ∧ next = session
  misused_of_lacksRoom : request.LacksRoom →
    (∃ operation, answer = .error (.invalidState (.emptyOutput operation))) ∧
      next = session

theorem Serves.continues {next : DeflateSession ε} {request : Request}
    {answer : Except CodecError Receipt} (serves : Serves session request answer next)
    (records : Records level past session) :
    Continues level past session request answer next := by
  obtain ⟨rfl, created_iff, closed_iff⟩ := records
  exact
    { moves := serves.moves
      stage_of_error := by
        rintro error rfl
        exact serves.stage_eq_of_error
      created_iff := created_iff
      opens_iff := by
        rw [serves.opens_iff, created_iff]
        constructor
        · rintro ⟨unopened, isSetUp, inRange⟩
          exact ⟨inRange, fun entry member earlier =>
            unopened ⟨⟨entry, member, earlier⟩, inRange⟩, isSetUp⟩
        · rintro ⟨inRange, first, isSetUp⟩
          exact ⟨fun ⟨⟨entry, member, earlier⟩, _⟩ => first entry member earlier,
            isSetUp, inRange⟩
      setUp_answer := by
        rintro format rfl
        exact serves.answer_of_setUp
      closed_iff := closed_iff
      closes_iff := serves.closes_iff
      misused_of_closed := serves.misused_of_closed
      misused_of_created := serves.misused_of_created
      misused_of_lacksRoom := serves.misused_of_lacksRoom }

variable [DeflateEngine ε]

private theorem serves_setUp (session : DeflateSession ε) (format : Format) :
    Serves session (.setUp format) (session.serve (.setUp format)).1
      (session.serve (.setUp format)).2 := by
  rcases session with ⟨level, _ | engine | _⟩
  · simp only [serve, setUp, Engine.openDeflate]
    by_cases inRange : 0 ≤ level ∧ level ≤ 9
    · simp only [dif_pos inRange]
      exact .opened format _ rfl inRange
    · simp only [dif_neg inRange]
      exact .rejected format rfl inRange
  · exact .alreadyOpen format (by simp)
  · exact .alreadyOpen format (by simp)

private theorem serves_compress (session : DeflateSession ε) (input : Bytes)
    (room : Nat) :
    Serves session (.compress input room) (session.serve (.compress input room)).1
      (session.serve (.compress input room)).2 := by
  rcases session with ⟨level, _ | engine | _⟩
  · exact .notOpen id id rfl
  · simp only [serve, compress, run]
    rcases Engine.deflate engine "compress" .none input room with ⟨error | step, next⟩
    · exact .goesOn next id id rfl id
    · by_cases ended : step.status = .streamEnd
      · simp only [if_pos ended]
        exact .goesOn next id id rfl id
      · simp only [if_neg ended]
        exact .goesOn next id id rfl id
  · exact .alreadyEnded id id rfl

private theorem serves_flush (session : DeflateSession ε) (room : Nat) :
    Serves session (.flush room) (session.serve (.flush room)).1
      (session.serve (.flush room)).2 := by
  rcases Decidable.em (room = 0) with rfl | roomy
  · exact .flushWithoutRoom
  simp only [serve, flush, if_neg roomy]
  rcases session with ⟨level, _ | engine | _⟩
  · exact .notOpen id roomy rfl
  · simp only [run]
    rcases Engine.deflate engine "flush" .sync [] room with ⟨error | step, next⟩
    · exact .goesOn next id roomy rfl id
    · by_cases ended : step.status = .streamEnd
      · simp only [if_pos ended]
        exact .goesOn next id roomy rfl id
      · simp only [if_neg ended]
        exact .goesOn next id roomy rfl id
  · exact .alreadyEnded id roomy rfl

private theorem serves_finish (session : DeflateSession ε) (room : Nat) :
    Serves session (.finish room) (session.serve (.finish room)).1
      (session.serve (.finish room)).2 := by
  rcases Decidable.em (room = 0) with rfl | roomy
  · exact .finishWithoutRoom
  simp only [serve, finish, if_neg roomy]
  rcases session with ⟨level, _ | engine | _⟩
  · exact .notOpen id roomy rfl
  · simp only [run]
    rcases Engine.deflate engine "end" .finish [] room with ⟨error | step, next⟩
    · exact .goesOn next id roomy rfl id
    · by_cases ended : step.status = .streamEnd
      · simp only [ended, beq_self_eq_true, if_true]
        exact .ended roomy rfl rfl
      · simp only [beq_false_of_ne ended]
        exact .goesOn next id roomy rfl (by simp [Ends, Except.map, Receipt.ofDrained])
  · exact .alreadyEnded id roomy rfl

theorem serves_serve (session : DeflateSession ε) (request : Request) :
    Serves session request (session.serve request).1 (session.serve request).2 := by
  cases request with
  | setUp format => exact serves_setUp session format
  | compress input room => exact serves_compress session input room
  | flush room => exact serves_flush session room
  | finish room => exact serves_finish session room

theorem Records.serve (records : Records level past session) (request : Request) :
    Records level (past ++ [(request, (session.serve request).1)])
      (session.serve request).2 := by
  obtain ⟨rfl, created_iff, closed_iff⟩ := records
  have serves := serves_serve session request
  refine ⟨serves.level_eq, ?_, ?_⟩
  · rw [serves.created_iff, created_iff, ← not_or, ← or_and_right]
    simp only [List.mem_append, List.mem_singleton, or_and_right, exists_or,
      exists_eq_left]
  · rw [serves.closed_iff, closed_iff]
    simp only [List.mem_append, List.mem_singleton, or_and_right, exists_or,
      exists_eq_left]

theorem Records.afterAll (records : Records level past session)
    (requests : List Request) :
    Records level (past ++ requests.zip (session.serveAll requests))
      (session.afterAll requests) := by
  induction requests generalizing past session with
  | nil =>
      rw [List.zip_nil_left, List.append_nil]
      exact records
  | cons request requests induction =>
      rw [serveAll, List.zip_cons_cons, List.append_cons]
      exact induction (records.serve request)

/-- Whatever was asked of a session, the calls it has served tell its stage. No call
skips a stage or goes back, and none fails and moves it. -/
theorem stage_told_by_calls (level : Int) (requests : List Request) (request : Request) :
    let session := (new level : DeflateSession ε).afterAll requests
    Continues level (requests.zip ((new level : DeflateSession ε).serveAll requests))
      session request (session.serve request).1 (session.serve request).2 := by
  intro session
  have records : Records level
      (requests.zip ((new level : DeflateSession ε).serveAll requests)) session :=
    (records_new level).afterAll requests
  exact (serves_serve session request).continues records

end StreamCodec.DeflateSession

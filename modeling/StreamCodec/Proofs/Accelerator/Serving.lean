import Mathlib.Logic.Relation
import StreamCodec.Proofs.Accelerator.Process

namespace StreamCodec.Accelerator

/-! A thread that is left alone answers a call as the codec's own function does. -/

variable {δ η κ α : Type} [Driver δ η κ]

namespace Call

private theorem serve_of_wantsNothing {call : Call δ} (nothing : call.WantsNothing)
    (registry : Registry κ) (host : η) :
    call.serve registry host = ⟨.ok [], (registry, host), []⟩ := by
  obtain ⟨operation, driver, input, room⟩ := call
  obtain ⟨rfl, rfl⟩ := nothing
  rfl

private theorem serve_of_wants {call : Call δ} (wants : ¬call.WantsNothing)
    (registry : Registry κ) (host : η) :
    let outcome := registry.withSession host call.driver call.use
    call.serve registry host =
      ⟨outcome.result.bind call.finish, outcome.state, outcome.log⟩ := by
  intro outcome
  obtain ⟨operation, driver, input, room⟩ := call
  have finished : outcome.result.bind (finish ⟨operation, driver, input, room⟩) =
      ((⟨driver⟩ : AcceleratedCodec δ).answer operation.label outcome).result := by
    rcases outcome with ⟨_ | _ | _, _, _⟩ <;> rfl
  rw [finished]
  cases operation with
  | compress => rfl
  | decompress =>
      have roomy : room ≠ 0 := fun noRoom => wants ⟨rfl, noRoom⟩
      simp only [serve, AcceleratedCodec.decompress, if_neg roomy]
      rfl

end Call

namespace Registry

private theorem leave_enter {registry : Registry κ} (free : registry.inUse = false) :
    registry.enter.leave = registry := by
  cases registry
  cases free
  rfl

private theorem leave_put (registry : Registry κ) (name : String) (session : κ) :
    (registry.put name session).leave = registry.leave.put name session := rfl

private theorem withSession_of_found {registry : Registry κ}
    (free : registry.inUse = false)
    {host : η} {driver : δ} {session : κ} {use : κ → Dialogue δ η (α × κ)}
    (found : registry.find? (Driver.name driver) = some session) :
    registry.withSession host driver use =
      registry.useSession host (Driver.name driver) session use [] := by
  simp only [withSession, free, found, Bool.false_eq_true, if_false]

private theorem withSession_of_unopened {registry : Registry κ}
    (free : registry.inUse = false) {host later : η} {driver : δ} {failure : Failure}
    {use : κ → Dialogue δ η (α × κ)}
    (absent : registry.find? (Driver.name driver) = none)
    (failed : (Driver.openSession driver).run registry host =
      (.error failure, later)) :
    registry.withSession host driver use =
      ⟨.error (.backendInit (Driver.name driver) (.session failure)),
        (registry, later), []⟩ := by
  simp only [withSession, free, absent, failed, Bool.false_eq_true, if_false]

private theorem withSession_of_opened {registry : Registry κ}
    (free : registry.inUse = false) {host later : η} {driver : δ} {session : κ}
    {use : κ → Dialogue δ η (α × κ)}
    (absent : registry.find? (Driver.name driver) = none)
    (opened : (Driver.openSession driver).run registry host =
      (.ok session, later)) :
    registry.withSession host driver use =
      (registry.put (Driver.name driver) session).useSession later
        (Driver.name driver) session use [.sessionOpened (Driver.name driver)] := by
  simp only [withSession, free, absent, opened, Bool.false_eq_true, if_false]

end Registry

namespace Thread

abbrev Turns : Thread δ η κ × η → Thread δ η κ × η → Prop :=
  Relation.ReflTransGen fun state next => state.1.advance state.2 = next

theorem begin_of_found {registry : Registry κ} (free : registry.inUse = false)
    (past : List (Tree δ κ)) {call : Call δ} (wants : ¬call.WantsNothing)
    {session : κ} (found : registry.find? call.name = some session) :
    begin ⟨registry, [], past⟩ call =
      ⟨registry.enter, [⟨call, .serving session none, [], call.use session⟩],
        past⟩ := by
  simp only [begin, if_neg wants, free, found, Bool.false_eq_true, if_false]

theorem begin_of_absent {registry : Registry κ} (free : registry.inUse = false)
    (past : List (Tree δ κ)) {call : Call δ} (wants : ¬call.WantsNothing)
    (absent : registry.find? call.name = none) :
    begin ⟨registry, [], past⟩ call =
      ⟨registry.enter, [⟨call, .opening, [], Driver.openSession call.driver⟩],
        past⟩ := by
  simp only [begin, if_neg wants, free, absent, Bool.false_eq_true, if_false]

theorem begin_of_inUse {registry : Registry κ} (inUse : registry.inUse = true)
    (frame : Frame δ η κ) (past : List (Tree δ κ)) (call : Call δ) :
    begin ⟨registry, [frame], past⟩ call =
      ⟨registry,
        [{ frame with
            inner := .bare call call.refusal :: frame.inner
            rest := frame.rest.resume call.refusal }],
        past⟩ := by
  unfold begin
  by_cases nothing : call.WantsNothing
  · simp only [if_pos nothing, Call.refusal, conclude, Tree.bare]
  · simp only [if_neg nothing, inUse, if_true, Call.refusal, conclude, Tree.bare]

theorem turns_of_run {registry : Registry κ} (inUse : registry.inUse = true)
    (call : Call δ) (stage : Stage κ) (inner : List (Tree δ κ))
    (rest : Dialogue δ η (stage.Answer call.room)) (past : List (Tree δ κ))
    (host : η) (free : Registry κ) :
    let reply := rest.run free host
    ∃ inner',
      Turns (⟨registry, [⟨call, stage, inner, rest⟩], past⟩, host)
        (⟨registry, [⟨call, stage, inner', .done reply.1⟩], past⟩, reply.2) := by
  induction rest generalizing inner host with
  | done reply => exact ⟨inner, .refl⟩
  | read next induction =>
      obtain ⟨inner', turns⟩ := induction host inner host
      exact ⟨inner', turns.head rfl⟩
  | write written next induction =>
      obtain ⟨inner', turns⟩ := induction inner written
      exact ⟨inner', turns.head rfl⟩
  | compress driver input room next induction =>
      obtain ⟨inner', turns⟩ := induction (.error (alreadyInUse driver)) _ host
      refine ⟨inner', turns.head ?_⟩
      exact congrArg (·, host) (begin_of_inUse inUse _ past _)
  | decompress driver input room next induction =>
      obtain ⟨inner', turns⟩ := induction
        (if room = 0 then .ok [] else .error (alreadyInUse driver)) _ host
      refine ⟨inner', turns.head ?_⟩
      have refusal : Call.refusal ⟨.decompress, driver, input, room⟩ =
          if room = 0 then .ok [] else .error (alreadyInUse driver) := by
        simp only [Call.refusal, Call.WantsNothing, true_and]
      rw [← refusal]
      exact congrArg (·, host) (begin_of_inUse inUse _ past _)
  | hasSession name next induction =>
      obtain ⟨inner', turns⟩ := induction true inner host
      have found : registry.hasSession name = true := by
        rw [Registry.hasSession, inUse, Bool.true_or]
      refine ⟨inner', turns.head ?_⟩
      simp only [advance, Dialogue.turn, found]

private theorem turns_of_use {registry : Registry κ} (inUse : registry.inUse = true)
    (call : Call δ) (before : κ) (result : Option (Except Failure κ))
    (inner : List (Tree δ κ)) (past : List (Tree δ κ)) (host : η)
    (free : Registry κ) :
    let reply := (call.use before).run free host
    ∃ tree : Tree δ κ,
      Turns
        (⟨registry, [⟨call, .serving before result, inner, call.use before⟩], past⟩,
          host)
        (⟨registry.leave.put call.name reply.1.2, [], tree :: past⟩, reply.2) ∧
      tree.call = call ∧ tree.opening = result ∧
      tree.result = call.finish reply.1.1 := by
  intro reply
  obtain ⟨inner', turns⟩ := turns_of_run inUse call (.serving before result) inner
    (call.use before) past host free
  exact ⟨_, turns.tail rfl, rfl, rfl, rfl⟩

/-- Turns from here end the call with this outcome. -/
def Yields (start : Thread δ η κ × η) (past : List (Tree δ κ)) (call : Call δ)
    (outcome : Outcome (Registry κ × η) Bytes) : Prop :=
  ∃ tree : Tree δ κ,
    Turns start (⟨outcome.state.1, [], tree :: past⟩, outcome.state.2) ∧
      tree.call = call ∧ tree.result = outcome.result ∧
      (tree.opened.map Log.Event.sessionOpened).toList = outcome.log

private theorem yields_of_found {registry : Registry κ} (free : registry.inUse = false)
    (past : List (Tree δ κ)) (host : η) {call : Call δ} (wants : ¬call.WantsNothing)
    {session : κ} (found : registry.find? call.name = some session) :
    Yields (begin ⟨registry, [], past⟩ call, host) past call
      (call.serve registry host) := by
  have entered : registry.enter.inUse = true := rfl
  obtain ⟨tree, turns, rfl, opening, result⟩ :=
    turns_of_use entered call session none [] past host registry
  rw [Registry.leave_enter free] at turns
  rw [begin_of_found free past wants found, Call.serve_of_wants wants,
    Registry.withSession_of_found free found]
  refine ⟨tree, turns, rfl, result, ?_⟩
  rw [Tree.opened, opening]
  rfl

private theorem yields_of_unopened {registry : Registry κ}
    (free : registry.inUse = false) (past : List (Tree δ κ)) {host later : η}
    {call : Call δ} (wants : ¬call.WantsNothing)
    (absent : registry.find? call.name = none) {failure : Failure}
    (failed : (Driver.openSession call.driver).run registry host =
      (.error failure, later)) :
    Yields (begin ⟨registry, [], past⟩ call, host) past call
      (call.serve registry host) := by
  have entered : registry.enter.inUse = true := rfl
  obtain ⟨inner, opens⟩ := turns_of_run entered call .opening []
    (Driver.openSession call.driver) past host registry
  rw [failed] at opens
  have ends := opens.tail rfl
  simp only [advance, Dialogue.turn, answer, conclude, Registry.leave_enter free]
    at ends
  rw [begin_of_absent free past wants absent, Call.serve_of_wants wants,
    Registry.withSession_of_unopened free absent failed]
  exact ⟨_, ends, rfl, rfl, rfl⟩

private theorem yields_of_opened {registry : Registry κ}
    (free : registry.inUse = false) (past : List (Tree δ κ)) {host later : η}
    {call : Call δ} (wants : ¬call.WantsNothing)
    (absent : registry.find? call.name = none) {session : κ}
    (opened : (Driver.openSession call.driver).run registry host =
      (.ok session, later)) :
    Yields (begin ⟨registry, [], past⟩ call, host) past call
      (call.serve registry host) := by
  have entered : registry.enter.inUse = true := rfl
  obtain ⟨inner, opens⟩ := turns_of_run entered call .opening []
    (Driver.openSession call.driver) past host registry
  rw [opened] at opens
  have serves := opens.tail rfl
  rw [begin_of_absent free past wants absent, Call.serve_of_wants wants,
    Registry.withSession_of_opened free absent opened]
  have putInUse : (registry.enter.put call.name session).inUse = true := rfl
  obtain ⟨tree, turns, rfl, opening, result⟩ :=
    turns_of_use putInUse call session (some (.ok session)) inner past later
      (registry.put call.name session)
  rw [Registry.leave_put, Registry.leave_enter free] at turns
  refine ⟨tree, serves.trans turns, rfl, result, ?_⟩
  rw [Tree.opened, opening]
  rfl

theorem yields_of_serve {thread : Thread δ η κ} (idle : thread.stack = [])
    (free : thread.registry.inUse = false) (host : η) (call : Call δ) :
    Yields (thread.begin call, host) thread.past call
      (call.serve thread.registry host) := by
  obtain ⟨registry, stack, past⟩ := thread
  cases idle
  by_cases nothing : call.WantsNothing
  · simp only [Call.serve_of_wantsNothing nothing, begin, if_pos nothing]
    exact ⟨_, .refl, rfl, rfl, rfl⟩
  cases found : registry.find? call.name with
  | some session => exact yields_of_found free past host nothing found
  | none =>
      rcases ran : (Driver.openSession call.driver).run registry host with
        ⟨failure | session, later⟩
      · exact yields_of_unopened free past nothing found ran
      · exact yields_of_opened free past nothing found ran

end Thread

namespace Process

theorem afterAll_of_turns {state next : Thread δ η κ × η}
    (turns : Thread.Turns state next) (process : Process δ η κ) (number : Nat)
    (stateEq : state = (process.threads number, process.host)) :
    ∃ count,
      process.afterAll (List.replicate count (.advance number)) =
        { process with
          threads := Function.update process.threads number next.1
          host := next.2 } := by
  induction turns using Relation.ReflTransGen.head_induction_on
    generalizing process with
  | refl =>
      subst stateEq
      refine ⟨0, ?_⟩
      rw [Function.update_eq_self]
      rfl
  | head first _ induction =>
      subst stateEq
      let advanced := process.act (.advance number)
      have threadEq : advanced.threads number =
          ((process.threads number).advance process.host).1 :=
        Function.update_self _ _ _
      obtain ⟨count, after⟩ := induction advanced (by
        rw [threadEq, ← first]
        rfl)
      refine ⟨count + 1, ?_⟩
      rw [List.replicate_succ, afterAll, List.foldl_cons]
      refine after.trans ?_
      simp only [advanced, act, Function.update_idem]

/-- Turns of the one thread alone end a call with what the codec's function says. -/
theorem afterAll_of_serve {process : Process δ η κ} {number codec : Nat}
    {driver : δ} (made : process.codecs codec = some ⟨driver⟩)
    (idle : (process.threads number).stack = [])
    (free : (process.threads number).registry.inUse = false)
    (operation : Operation) (input : Bytes) (room : Nat) :
    let thread := process.threads number
    let call : Call δ := ⟨operation, driver, input, room⟩
    let outcome := call.serve thread.registry process.host
    ∃ turns tree,
      process.afterAll (.call number codec operation input room ::
          List.replicate turns (.advance number)) =
        { process with
          threads := Function.update process.threads number
            ⟨outcome.state.1, [], tree :: thread.past⟩
          host := outcome.state.2 } ∧
      tree.call = call ∧ tree.result = outcome.result ∧
      (tree.opened.map Log.Event.sessionOpened).toList = outcome.log := by
  intro thread call outcome
  obtain ⟨tree, turns, callEq, resultEq, logEq⟩ :=
    Thread.yields_of_serve idle free process.host call
  let called := process.act (.call number codec operation input room)
  have calledEq : called =
      { process with
        threads := Function.update process.threads number (thread.begin call) } := by
    simp only [called, act, made, idle]
    rfl
  obtain ⟨count, after⟩ := afterAll_of_turns turns called number (by
    simp only [calledEq, Function.update_self]
    rfl)
  refine ⟨count, tree, ?_, callEq, resultEq, logEq⟩
  refine after.trans ?_
  simp only [calledEq, Function.update_idem]
  rfl

end Process

end StreamCodec.Accelerator

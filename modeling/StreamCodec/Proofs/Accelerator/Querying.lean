import StreamCodec.Proofs.Accelerator.Sessions

namespace StreamCodec.Accelerator

/-! What a thread is told when it asks for a session, also from within a callback. -/

variable {δ η κ : Type} [Driver δ η κ]

namespace Thread

/-- With its next turn the callback that is under way, at whatever depth, answers with a
newly opened session of this name. -/
inductive Opens (name : String) : Thread δ η κ → Prop
  | of_answer {call : Call δ} (named : call.name = name) (registry : Registry κ)
      (inner : List (Tree δ κ)) (session : κ) (outer : List (Frame δ η κ))
      (past : List (Tree δ κ)) :
      Opens name
        ⟨registry, ⟨call, .opening, inner, .done (.ok session)⟩ :: outer, past⟩

variable {thread : Thread δ η κ} {name : String}

private theorem Orderly.opened_begin (orderly : thread.Orderly) (call : Call δ) :
    (thread.begin call).opened = thread.opened := by
  cases orderly with
  | @idle registry past free holds lawful =>
      by_cases nothing : call.WantsNothing
      · simp only [Thread.begin, if_pos nothing, conclude]
        rfl
      · cases found : registry.find? call.name with
        | some session => rw [begin_of_found free past nothing found]; rfl
        | none => rw [begin_of_absent free past nothing found]; rfl
  | busy inUse => rw [begin_of_inUse inUse]; rfl

/-- What a turn adds to the names of the sessions that were opened. -/
inductive Adds (before after : Thread δ η κ) : Prop
  | nothing (same : after.opened = before.opened) (unopened : ∀ name, ¬before.Opens name)
  | session {name : String} (opens : before.Opens name)
      (added : after.opened = name :: before.opened)

private theorem adds_answer (registry : Registry κ) (past : List (Tree δ κ))
    (call : Call δ)
    (stage : Stage κ) (inner : List (Tree δ κ)) (reply : stage.Answer call.room) :
    Adds ⟨registry, [⟨call, stage, inner, .done reply⟩], past⟩
      (answer registry [] past call inner stage reply : Thread δ η κ) := by
  cases stage with
  | opening =>
      cases reply with
      | error failure => exact .nothing rfl (fun name opens => by cases opens)
      | ok session => exact .session (.of_answer rfl registry inner session [] past) rfl
  | serving before result =>
      refine .nothing ?_ (fun name opens => by cases opens)
      rcases result with _ | _ | session <;> rfl

theorem Orderly.adds_advance (orderly : thread.Orderly) (host : η) :
    thread.Adds (thread.advance host).1 := by
  have unasked := orderly.opened_begin
  cases orderly with
  | idle => exact .nothing rfl (fun name opens => by cases opens)
  | @busy registry frame past =>
      obtain ⟨call, stage, inner, rest⟩ := frame
      cases rest with
      | done reply => exact adds_answer registry past call stage inner reply
      | read next => exact .nothing rfl (fun name opens => by cases opens)
      | write written next => exact .nothing rfl (fun name opens => by cases opens)
      | hasSession asked next => exact .nothing rfl (fun name opens => by cases opens)
      | compress driver input room next =>
          exact .nothing (unasked _) (fun name opens => by cases opens)
      | decompress driver input room next =>
          exact .nothing (unasked _) (fun name opens => by cases opens)

private theorem Opens.unique {other : String} (one : thread.Opens name)
    (two : thread.Opens other) :
    other = name := by
  cases one with
  | of_answer named =>
      cases two with
      | of_answer again => exact again.symm.trans named

theorem Adds.mem_opened_iff {before after : Thread δ η κ} (adds : before.Adds after) :
    name ∈ after.opened ↔ before.Opens name ∨ name ∈ before.opened := by
  cases adds with
  | nothing same unopened =>
      rw [same, or_iff_right (unopened name)]
  | @session opened opens added =>
      rw [added, List.mem_cons]
      apply or_congr_left
      constructor
      · rintro rfl
        exact opens
      · exact opens.unique

theorem Orderly.hasSession_iff (orderly : thread.Orderly) :
    thread.registry.hasSession name = true ↔
      thread.stack ≠ [] ∨ name ∈ thread.opened := by
  rw [← orderly.isSome_find?_iff, Registry.hasSession, Bool.or_eq_true]
  cases orderly with
  | idle free => simp [free]
  | busy inUse => simp [inUse]

theorem Orderly.mem_opened_own_iff (orderly : thread.Orderly) {frame : Frame δ η κ}
    (member : frame ∈ thread.stack) :
    frame.call.name ∈ thread.opened ↔ frame.stage ≠ .opening := by
  rw [← orderly.isSome_find?_iff]
  cases orderly with
  | idle => cases member
  | @busy registry _ past _ underway _ =>
      cases List.mem_singleton.1 member
      have atStage := underway.stage
      obtain ⟨call, stage, inner, rest⟩ := frame
      simp only at atStage ⊢
      generalize registry.find? call.name = now, held past call.name = before
        at atStage ⊢
      cases atStage with
      | opening => simp
      | opened => simp
      | found => simp

theorem Orderly.advance_of_hasSession (orderly : thread.Orderly) {frame : Frame δ η κ}
    (member : frame ∈ thread.stack)
    {next : Bool → Dialogue δ η (frame.stage.Answer frame.call.room)}
    (asks : frame.rest = .hasSession name next) (host : η) :
    thread.advance host =
      ({ thread with stack := [{ frame with rest := next true }] }, host) := by
  cases orderly with
  | idle => cases member
  | @busy registry _ past inUse =>
      cases List.mem_singleton.1 member
      have found : registry.hasSession name = true := by
        rw [Registry.hasSession, inUse, Bool.true_or]
      simp only [Thread.advance, asks, Dialogue.turn, found]

end Thread

namespace Process

def HasOpened (process : Process δ η κ) (actions : List (Action δ η)) (number : Nat)
    (name : String) : Prop :=
  ∃ before after, actions = before ++ .advance number :: after ∧
    ((process.afterAll before).threads number).Opens name

variable {process : Process δ η κ} {number : Nat} {name : String}

private theorem hasOpened_cons_iff {action : Action δ η} {actions : List (Action δ η)} :
    process.HasOpened (action :: actions) number name ↔
      (action = .advance number ∧ (process.threads number).Opens name) ∨
        (process.act action).HasOpened actions number name := by
  constructor
  · rintro ⟨before, after, split, opens⟩
    cases before with
    | nil =>
        cases split
        exact .inl ⟨rfl, opens⟩
    | cons first before =>
        rw [List.cons_append, List.cons.injEq] at split
        obtain ⟨rfl, split⟩ := split
        exact .inr ⟨before, after, split, opens⟩
  · rintro (⟨rfl, opens⟩ | ⟨before, after, rfl, opens⟩)
    · exact ⟨[], actions, rfl, opens⟩
    · exact ⟨action :: before, after, rfl, opens⟩

private theorem mem_opened_update_iff {target : Nat} {next : Thread δ η κ} :
    name ∈ (Function.update process.threads target next number).opened ↔
      if number = target then name ∈ next.opened
      else name ∈ (process.threads number).opened := by
  rw [Function.update_apply]
  split <;> rfl

private theorem mem_opened_act_iff (orderly : (process.threads number).Orderly)
    (action : Action δ η) :
    name ∈ ((process.act action).threads number).opened ↔
      (action = .advance number ∧ (process.threads number).Opens name) ∨
        name ∈ (process.threads number).opened := by
  cases action with
  | create | drop | install | uninstall | change => simp [act]
  | select codec setting build format =>
      simp only [act]
      split <;> simp
  | call target codec operation input room =>
      simp only [act]
      split
      · rw [mem_opened_update_iff]
        split
        · next same =>
            subst same
            rw [orderly.opened_begin]
            simp
        · simp
      · simp
  | advance target =>
      simp only [act]
      rw [mem_opened_update_iff]
      split
      · next same =>
          subst same
          rw [(orderly.adds_advance process.host).mem_opened_iff]
          simp
      · next other => simp [Ne.symm other]

theorem mem_opened_afterAll_iff (orderly : (process.threads number).Orderly)
    (actions : List (Action δ η)) :
    name ∈ ((process.afterAll actions).threads number).opened ↔
      process.HasOpened actions number name ∨
        name ∈ (process.threads number).opened := by
  induction actions generalizing process with
  | nil => simp [afterAll, HasOpened]
  | cons action actions induction =>
      have next := (act_leads number orderly action).orderly
      rw [hasOpened_cons_iff, or_right_comm, ← mem_opened_act_iff orderly action]
      exact (induction next).trans or_comm

/-- Between calls a thread is told whether a session of that name was opened before.
Within a callback it is told that one was, which need not be so: while a session is being
opened the answer is wrong about this very session. -/
theorem hasSession_iff_afterAll (host : η) (actions : List (Action δ η)) (number : Nat)
    (name : String) :
    let process : Process δ η κ := (start host).afterAll actions
    let thread := process.threads number
    (thread.registry.hasSession name = true ↔
      thread.stack ≠ [] ∨ (start host : Process δ η κ).HasOpened actions number name) ∧
    ∀ frame ∈ thread.stack,
      ((start host : Process δ η κ).HasOpened actions number frame.call.name ↔
        frame.stage ≠ .opening) ∧
      ∀ next, frame.rest = .hasSession name next →
        process.act (.advance number) =
          { process with
            threads := Function.update process.threads number
              { thread with stack := [{ frame with rest := next true }] } } := by
  intro process thread
  have orderly : thread.Orderly :=
    (afterAll_leads number Thread.orderly_start actions).orderly
  have hasOpened_iff (name : String) :
      (start host : Process δ η κ).HasOpened actions number name ↔
        name ∈ thread.opened := by
    rw [mem_opened_afterAll_iff Thread.orderly_start]
    exact (or_iff_left List.not_mem_nil).symm
  rw [hasOpened_iff]
  refine ⟨orderly.hasSession_iff, fun frame member => ?_⟩
  rw [hasOpened_iff]
  refine ⟨orderly.mem_opened_own_iff member, fun next asks => ?_⟩
  simp only [act]
  rw [orderly.advance_of_hasSession member asks]

/-- The driver asks for its own session while that is being opened. -/
theorem hasSession_not_iff_hasOpened :
    ¬∀ (δ η κ : Type) [Driver δ η κ] (host : η) (actions : List (Action δ η))
      (number : Nat) (name : String),
      let process : Process δ η κ := (start host).afterAll actions
      let thread := process.threads number
      thread.registry.hasSession name = true ↔
        (start host : Process δ η κ).HasOpened actions number name := by
  intro always
  let alpha : Loopback := { Loopback.plain 1 "alpha" with opensBack := some "beta" }
  let actions : List (Action Loopback Loopback.Host) :=
    [.create 0 alpha, .call 0 0 .compress [7] 8, .advance 0, .advance 0]
  let process : Process Loopback Loopback.Host Loopback.Session :=
    (start .empty).afterAll actions
  have hasOpened : (start .empty).HasOpened actions 0 "alpha" :=
    (always _ _ _ Loopback.Host.empty actions 0 "alpha").1 (by decide +kernel)
  have member : "alpha" ∈ (process.threads 0).opened :=
    (mem_opened_afterAll_iff Thread.orderly_start actions).2 (.inl hasOpened)
  have empty : (process.threads 0).opened = [] := by decide +kernel
  rw [empty] at member
  exact absurd member List.not_mem_nil

end Process

end StreamCodec.Accelerator

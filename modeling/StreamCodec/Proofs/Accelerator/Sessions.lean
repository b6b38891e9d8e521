import StreamCodec.Accelerator.Loopback
import StreamCodec.Proofs.Accelerator.Serving

namespace StreamCodec.Accelerator

/-! Which sessions a thread holds, whatever its callbacks and the other threads do. -/

variable {δ η κ : Type} [Driver δ η κ]

def Tree.Refused (tree : Tree δ κ) : Prop :=
  tree = .bare tree.call tree.call.refusal

inductive Tree.Lawful (past : List (Tree δ κ)) : Tree δ κ → Prop
  | nothing {call : Call δ} (nothing : call.WantsNothing) :
      Lawful past (.bare call (.ok []))
  | unopened {call : Call δ} {failure : Failure} {inner : List (Tree δ κ)}
      (wants : ¬call.WantsNothing) (absent : held past call.name = none)
      (refused : ∀ tree ∈ inner, tree.Refused) :
      Lawful past
        { call := call, opening := some (.error failure), service := none
          inner := inner
          result := .error (.backendInit call.name (.session failure)) }
  | opened {call : Call δ} {before after : κ}
      {answer : Except Failure (Written call.room)} {inner : List (Tree δ κ)}
      (wants : ¬call.WantsNothing) (absent : held past call.name = none)
      (refused : ∀ tree ∈ inner, tree.Refused) :
      Lawful past
        { call := call, opening := some (.ok before)
          service := some ⟨before, answer, after⟩
          inner := inner, result := call.finish answer }
  | found {call : Call δ} {before after : κ}
      {answer : Except Failure (Written call.room)} {inner : List (Tree δ κ)}
      (wants : ¬call.WantsNothing) (present : held past call.name = some before)
      (refused : ∀ tree ∈ inner, tree.Refused) :
      Lawful past
        { call := call, opening := none, service := some ⟨before, answer, after⟩
          inner := inner, result := call.finish answer }

def Lawful (past : List (Tree δ κ)) : Prop :=
  ∀ tree earlier, tree :: earlier <:+ past → tree.Lawful earlier

private theorem lawful_nil : Lawful ([] : List (Tree δ κ)) := by
  intro tree earlier suffix
  simp at suffix

private theorem lawful_cons {past : List (Tree δ κ)} {tree : Tree δ κ} :
    Lawful (tree :: past) ↔ tree.Lawful past ∧ Lawful past := by
  simp only [Lawful, List.suffix_cons_iff, List.cons.injEq]
  constructor
  · intro lawful
    exact ⟨lawful _ _ (.inl ⟨rfl, rfl⟩), fun _ _ suffix => lawful _ _ (.inr suffix)⟩
  · rintro ⟨first, rest⟩ other earlier (⟨rfl, rfl⟩ | suffix)
    · exact first
    · exact rest _ _ suffix

private theorem held_cons_of_unserved {tree : Tree δ κ} (unserved : tree.service = none)
    (past : List (Tree δ κ)) (name : String) :
    held (tree :: past) name = held past name := by
  have left : tree.left name = none := by
    rw [Tree.left, unserved, Option.map_none, ite_self]
  rw [held, List.findSome?_cons, left]
  rfl

private theorem held_cons_of_served {tree : Tree δ κ} {service : Service κ tree.call.room}
    (served : tree.service = some service) (past : List (Tree δ κ)) (name : String) :
    held (tree :: past) name =
      if tree.call.name = name then some service.after else held past name := by
  by_cases same : tree.call.name = name
  · rw [held, List.findSome?_cons, Tree.left, served, if_pos same, if_pos same]
    rfl
  · rw [held, List.findSome?_cons, Tree.left, if_neg same, if_neg same]
    rfl

private theorem eq_of_openedName {call : Call δ} {opening : Option (Except Failure κ)}
    {name : String} (opened : openedName call opening = some name) :
    name = call.name := by
  rcases opening with _ | _ | session
  · cases opened
  · cases opened
  · exact (Option.some.inj opened).symm

/-- What a call leaves of the sessions and of the names that were opened. -/
inductive Tree.Effect (past : List (Tree δ κ)) (tree : Tree δ κ) : Prop
  | none (unserved : tree.service = none) (unopened : tree.opened = none)
  | opens {service : Service κ tree.call.room} (served : tree.service = some service)
      (opened : tree.opened = some tree.call.name)
      (absent : held past tree.call.name = none)
  | uses {service : Service κ tree.call.room} (served : tree.service = some service)
      (unopened : tree.opened = none)
      (present : held past tree.call.name = some service.before)

theorem Tree.Lawful.effect {past : List (Tree δ κ)} {tree : Tree δ κ}
    (lawful : tree.Lawful past) : tree.Effect past := by
  cases lawful with
  | nothing => exact .none rfl rfl
  | unopened => exact .none rfl rfl
  | opened _ absent => exact .opens rfl rfl absent
  | found _ present => exact .uses rfl rfl present

theorem Lawful.isSome_held_iff {past : List (Tree δ κ)} (lawful : Lawful past)
    (name : String) :
    (held past name).isSome ↔ name ∈ past.filterMap Tree.opened := by
  induction past with
  | nil => simp [held]
  | cons tree past induction =>
      obtain ⟨first, rest⟩ := lawful_cons.1 lawful
      have earlier := induction rest
      cases first.effect with
      | none unserved unopened =>
          rw [held_cons_of_unserved unserved, List.filterMap_cons_none unopened]
          exact earlier
      | opens served opened _ =>
          rw [held_cons_of_served served, List.filterMap_cons_some opened,
            List.mem_cons, ← earlier]
          split
          · next same => simp [same]
          · next different => simp [Ne.symm different]
      | uses served unopened present =>
          rw [held_cons_of_served served, List.filterMap_cons_none unopened, ← earlier]
          split
          · next same => simp [← same, present]
          · rfl

theorem Lawful.nodup_opened {past : List (Tree δ κ)} (lawful : Lawful past) :
    (past.filterMap Tree.opened).Nodup := by
  induction past with
  | nil => exact List.nodup_nil
  | cons tree past induction =>
      obtain ⟨first, rest⟩ := lawful_cons.1 lawful
      cases first.effect with
      | none _ unopened | uses _ unopened _ =>
          rw [List.filterMap_cons_none unopened]
          exact induction rest
      | opens _ opened absent =>
          rw [List.filterMap_cons_some opened, List.nodup_cons,
            ← rest.isSome_held_iff, absent]
          exact ⟨Bool.noConfusion, induction rest⟩

/-- What the registry holds for a call under way, and what it held before. -/
inductive Stage.Lawful : (now before : Option κ) → Stage κ → Prop
  | opening : Lawful none none .opening
  | opened (session : κ) :
      Lawful (some session) none (.serving session (some (.ok session)))
  | found (session : κ) : Lawful (some session) (some session) (.serving session none)

structure Frame.Lawful (registry : Registry κ) (past : List (Tree δ κ))
    (frame : Frame δ η κ) : Prop where
  wants : ¬frame.call.WantsNothing
  refused : ∀ tree ∈ frame.inner, tree.Refused
  stage : frame.stage.Lawful (registry.find? frame.call.name)
    (held past frame.call.name)
  others : ∀ name ≠ frame.call.name, registry.find? name = held past name

namespace Thread

/-- The registry is in use while a call is under way, and holds what the outermost
calls left. -/
inductive Orderly : Thread δ η κ → Prop
  | idle {registry : Registry κ} {past : List (Tree δ κ)}
      (free : registry.inUse = false)
      (holds : ∀ name, registry.find? name = held past name)
      (lawful : Lawful past) : Orderly ⟨registry, [], past⟩
  | busy {registry : Registry κ} {frame : Frame δ η κ} {past : List (Tree δ κ)}
      (inUse : registry.inUse = true) (underway : frame.Lawful registry past)
      (lawful : Lawful past) : Orderly ⟨registry, [frame], past⟩

theorem Orderly.lawful {thread : Thread δ η κ} (orderly : thread.Orderly) :
    Lawful thread.past := by
  cases orderly with
  | idle _ _ lawful => exact lawful
  | busy _ _ lawful => exact lawful

private theorem Orderly.free_of_idle {thread : Thread δ η κ} (orderly : thread.Orderly)
    (idle : thread.stack = []) : thread.registry.inUse = false := by
  cases orderly with
  | idle free _ _ => exact free
  | busy => cases idle

private theorem opened_of_idle (registry : Registry κ) (past : List (Tree δ κ)) :
    (⟨registry, [], past⟩ : Thread δ η κ).opened = past.filterMap Tree.opened := rfl

private theorem opened_of_busy (registry : Registry κ) (frame : Frame δ η κ)
    (past : List (Tree δ κ)) :
    (⟨registry, [frame], past⟩ : Thread δ η κ).opened =
      frame.opened.toList ++ past.filterMap Tree.opened := by
  cases opened : frame.opened <;> simp [Thread.opened, opened]

variable {thread : Thread δ η κ}

theorem Orderly.isSome_find?_iff (orderly : thread.Orderly) (name : String) :
    (thread.registry.find? name).isSome ↔ name ∈ thread.opened := by
  cases orderly with
  | idle free holds lawful =>
      rw [holds, opened_of_idle]
      exact lawful.isSome_held_iff name
  | @busy registry frame past inUse underway lawful =>
      obtain ⟨call, stage, inner, rest⟩ := frame
      obtain ⟨_, _, atStage, others⟩ := underway
      rw [opened_of_busy, List.mem_append, ← lawful.isSome_held_iff]
      simp only at atStage others ⊢
      by_cases same : name = call.name
      · subst same
        generalize registry.find? call.name = now, held past call.name = before
          at atStage
        cases atStage with
        | opening | opened => simp [Frame.opened, openedName, Stage.openingResult]
        | found => simp
      · have elsewhere : Frame.opened ⟨call, stage, inner, rest⟩ ≠ some name :=
          fun opened => same (eq_of_openedName opened)
        simp [others name same, elsewhere]

theorem Orderly.nodup_opened (orderly : thread.Orderly) : thread.opened.Nodup := by
  cases orderly with
  | idle free holds lawful => exact lawful.nodup_opened
  | @busy registry frame past inUse underway lawful =>
      obtain ⟨call, stage, inner, rest⟩ := frame
      obtain ⟨_, _, atStage, _⟩ := underway
      have absent_iff := lawful.isSome_held_iff call.name
      rw [opened_of_busy]
      simp only at atStage
      generalize registry.find? call.name = now, held past call.name = before
        at atStage absent_iff
      cases atStage with
      | opening | found => exact lawful.nodup_opened
      | opened =>
          refine List.nodup_cons.2 ⟨fun member => ?_, lawful.nodup_opened⟩
          cases absent_iff.2 member

structure Leads (before after : Thread δ η κ) : Prop where
  orderly : after.Orderly
  keeps : before.opened <:+ after.opened

theorem Leads.refl (orderly : thread.Orderly) : thread.Leads thread :=
  ⟨orderly, List.suffix_refl _⟩

theorem Leads.trans {first second third : Thread δ η κ} (start : first.Leads second)
    (later : second.Leads third) : first.Leads third :=
  ⟨later.orderly, start.keeps.trans later.keeps⟩

theorem Orderly.begin (orderly : thread.Orderly) (call : Call δ) :
    thread.Leads (thread.begin call) := by
  cases orderly with
  | @idle registry past free holds lawful =>
      by_cases nothing : call.WantsNothing
      · simp only [Thread.begin, if_pos nothing, conclude]
        refine ⟨.idle free (fun name => ?_) (lawful_cons.2 ⟨.nothing nothing, lawful⟩),
          List.suffix_refl _⟩
        exact (holds name).trans (held_cons_of_unserved rfl past name).symm
      · have before := holds call.name
        cases found : registry.find? call.name with
        | some session =>
            rw [begin_of_found free past nothing found]
            refine ⟨.busy rfl ⟨nothing, by simp, ?_, fun name _ => holds name⟩ lawful,
              List.suffix_refl _⟩
            change Stage.Lawful (registry.find? call.name) _ _
            rw [← before, found]
            exact .found session
        | none =>
            rw [begin_of_absent free past nothing found]
            refine ⟨.busy rfl ⟨nothing, by simp, ?_, fun name _ => holds name⟩ lawful,
              List.suffix_refl _⟩
            change Stage.Lawful (registry.find? call.name) _ _
            rw [← before, found]
            exact .opening
  | @busy registry frame past inUse underway lawful =>
      rw [begin_of_inUse inUse]
      refine ⟨.busy inUse ⟨underway.wants, ?_, underway.stage, underway.others⟩ lawful,
        List.suffix_refl _⟩
      intro tree member
      rcases List.mem_cons.1 member with rfl | member
      · rfl
      · exact underway.refused tree member

private theorem find?_put_eq_held {registry : Registry κ} {past : List (Tree δ κ)}
    {call : Call δ}
    (others : ∀ name ≠ call.name, registry.find? name = held past name)
    (opening : Option (Except Failure κ)) (service : Service κ call.room)
    (inner : List (Tree δ κ)) (result : Except CodecError Bytes) (name : String) :
    (registry.put call.name service.after).leave.find? name =
      held (⟨call, opening, some service, inner, result⟩ :: past) name := by
  rw [held_cons_of_served rfl]
  split
  · next same => exact same ▸ Registry.find?_put_self _ _ _
  · next different =>
      exact (Registry.find?_put_of_ne _ _ (Ne.symm different)).trans
        (others name (Ne.symm different))

theorem Orderly.answer {registry : Registry κ} {past : List (Tree δ κ)}
    {frame : Frame δ η κ} (underway : frame.Lawful registry past)
    (lawful : Lawful past) (inUse : registry.inUse = true)
    (reply : frame.stage.Answer frame.call.room) :
    Leads ⟨registry, [frame], past⟩
      (answer registry [] past frame.call frame.inner frame.stage reply) := by
  obtain ⟨call, stage, inner, rest⟩ := frame
  obtain ⟨wants, refused, atStage, others⟩ := underway
  simp only at wants refused atStage others reply
  generalize nowEq : registry.find? call.name = now,
    beforeEq : held past call.name = before at atStage
  cases atStage with
  | opening =>
      rcases reply with failure | session
      · have holds (name : String) : registry.find? name = held past name := by
          by_cases same : name = call.name
          · rw [same, nowEq, beforeEq]
          · exact others name same
        refine ⟨.idle rfl (fun name => ?_)
          (lawful_cons.2 ⟨.unopened wants beforeEq refused, lawful⟩),
          List.suffix_refl _⟩
        exact (holds name).trans (held_cons_of_unserved rfl past name).symm
      · refine ⟨.busy inUse ⟨wants, refused, ?_, fun name different => ?_⟩ lawful,
          List.suffix_append [call.name] _⟩
        · change Stage.Lawful ((registry.put call.name session).find? call.name) _ _
          rw [Registry.find?_put_self, beforeEq]
          exact .opened session
        · exact (Registry.find?_put_of_ne _ _ different).trans (others name different)
  | opened session =>
      refine ⟨.idle rfl ?_ (lawful_cons.2 ⟨.opened wants beforeEq refused, lawful⟩),
        List.suffix_refl _⟩
      exact find?_put_eq_held others _ ⟨session, reply.1, reply.2⟩ _ _
  | found session =>
      refine ⟨.idle rfl ?_ (lawful_cons.2 ⟨.found wants beforeEq refused, lawful⟩),
        List.suffix_refl _⟩
      exact find?_put_eq_held others _ ⟨session, reply.1, reply.2⟩ _ _

theorem Orderly.advance (orderly : thread.Orderly) (host : η) :
    thread.Leads (thread.advance host).1 := by
  cases orderly with
  | idle free holds lawful => exact .refl (.idle free holds lawful)
  | @busy registry frame past inUse underway lawful =>
      simp only [Thread.advance]
      cases frame.rest.turn registry host with
      | ends reply => exact Orderly.answer underway lawful inUse reply
      | continues host rest =>
          exact ⟨.busy inUse
            ⟨underway.wants, underway.refused, underway.stage, underway.others⟩ lawful,
            List.suffix_refl _⟩
      | calls call => exact (Orderly.busy inUse underway lawful).begin call

theorem orderly_start : (start : Thread δ η κ).Orderly :=
  .idle rfl (fun _ => rfl) lawful_nil

end Thread

namespace Process

variable {process : Process δ η κ}

theorem update_leads {number : Nat} (orderly : (process.threads number).Orderly)
    {target : Nat} {next : Thread δ η κ}
    (leads : (process.threads target).Orderly → (process.threads target).Leads next) :
    (process.threads number).Leads
      (Function.update process.threads target next number) := by
  by_cases same : number = target
  · subst same
    rw [Function.update_self]
    exact leads orderly
  · rw [Function.update_of_ne same]
    exact .refl orderly

theorem act_leads (number : Nat) (orderly : (process.threads number).Orderly)
    (action : Action δ η) :
    (process.threads number).Leads ((process.act action).threads number) := by
  cases action with
  | create | drop | install | uninstall | change => exact .refl orderly
  | select codec setting build format =>
      simp only [act]
      split <;> exact .refl orderly
  | call target codec operation input room =>
      simp only [act]
      split
      · exact update_leads orderly fun orderly => orderly.begin _
      · exact .refl orderly
  | advance target =>
      exact update_leads orderly fun orderly => orderly.advance process.host

theorem afterAll_leads (number : Nat) (orderly : (process.threads number).Orderly)
    (actions : List (Action δ η)) :
    (process.threads number).Leads ((process.afterAll actions).threads number) := by
  induction actions generalizing process with
  | nil => exact .refl orderly
  | cons action actions induction =>
      have first := act_leads number orderly action
      exact first.trans (induction first.orderly)

/-- Whatever the threads call, their callbacks call and others do in between, a thread
holds sessions just for the names of which its outermost calls opened one. Each of these
calls was lawful after the earlier ones, and one that no other thread comes between is
answered by the codec's own function. -/
theorem sessions_kept_afterAll (host : η) (actions : List (Action δ η))
    (number : Nat) :
    let process : Process δ η κ := (start host).afterAll actions
    let thread := process.threads number
    (∀ name, (thread.registry.find? name).isSome ↔ name ∈ thread.opened) ∧
    thread.opened.Nodup ∧
    (∀ later name, (thread.registry.find? name).isSome →
      (((process.afterAll later).threads number).registry.find? name).isSome) ∧
    thread.Orderly ∧
    (∀ tree earlier, tree :: earlier <:+ thread.past →
      tree.Lawful earlier ∧
      ∀ failure, tree.opening = some (.error failure) →
        tree.result = .error (.backendInit tree.call.name (.session failure)) ∧
        held (tree :: earlier) = held earlier) ∧
    ∀ codec driver operation input room,
      process.codecs codec = some ⟨driver⟩ → thread.stack = [] →
      let call : Call δ := ⟨operation, driver, input, room⟩
      let outcome := call.serve thread.registry process.host
      ∃ turns tree,
        process.afterAll (.call number codec operation input room ::
            List.replicate turns (.advance number)) =
          { process with
            threads := Function.update process.threads number
              ⟨outcome.state.1, [], tree :: thread.past⟩
            host := outcome.state.2 } ∧
        tree.call = call ∧ tree.result = outcome.result ∧
        (tree.opened.map Log.Event.sessionOpened).toList = outcome.log := by
  intro process thread
  have orderly : thread.Orderly :=
    (afterAll_leads number Thread.orderly_start actions).orderly
  refine ⟨orderly.isSome_find?_iff, orderly.nodup_opened, fun later name holds => ?_,
    orderly, fun tree earlier suffix => ?_,
    fun codec driver operation input room made idle => ?_⟩
  · have leads := afterAll_leads number orderly later
    rw [leads.orderly.isSome_find?_iff]
    exact leads.keeps.mem ((orderly.isSome_find?_iff name).1 holds)
  · have lawful := orderly.lawful tree earlier suffix
    refine ⟨lawful, fun failure unopened => ?_⟩
    cases lawful with
    | unopened =>
        cases unopened
        exact ⟨rfl, funext fun name => held_cons_of_unserved rfl earlier name⟩
    | nothing | opened | found => cases unopened
  · exact afterAll_of_serve made idle (orderly.free_of_idle idle) operation input room

theorem sessions_kept_afterAll_of_callbacks :
    let alpha : Loopback :=
      { Loopback.plain 1 "alpha" with
        openFailure := some .failed, failingAttempts := some 1
        opensBack := some "beta", callsBack := some "alpha" }
    let actions : List (Action Loopback Loopback.Host) :=
      [.install alpha, .create 0 alpha, .call 0 0 .compress [7] 8] ++
        List.replicate 5 (.advance 0) ++
        [.call 1 0 .decompress [7] 8, .advance 1, .uninstall] ++
        List.replicate 4 (.advance 0) ++ [.call 0 0 .compress [7] 8] ++
        List.replicate 17 (.advance 0)
    let process : Process Loopback Loopback.Host Loopback.Session :=
      (start .empty).afterAll actions
    let thread := process.threads 0
    let call : Call Loopback := ⟨.decompress, alpha, [1, 1, 7], 1⟩
    let outcome := call.serve thread.registry process.host
    process.codecs 0 = some ⟨alpha⟩ ∧ thread.stack = [] ∧
    thread.past.map (fun tree => tree.result.toOption) = [some [1, 1, 7], none] ∧
    thread.opened = ["alpha"] ∧ (thread.registry.find? "alpha").isSome ∧
    ∃ turns tree,
      process.afterAll (.call 0 0 .decompress [1, 1, 7] 1 ::
          List.replicate turns (.advance 0)) =
        { process with
          threads := Function.update process.threads 0
            ⟨outcome.state.1, [], tree :: thread.past⟩
          host := outcome.state.2 } ∧
      tree.call = call ∧ tree.result = outcome.result ∧
      (tree.opened.map Log.Event.sessionOpened).toList = outcome.log := by
  intro alpha actions process thread call outcome
  have made : process.codecs 0 = some ⟨alpha⟩ := rfl
  have idle : thread.stack = [] := List.isEmpty_iff.1 (by decide +kernel)
  have results : thread.past.map (fun tree => tree.result.toOption) =
      [some [1, 1, 7], none] := by decide +kernel
  have opened : thread.opened = ["alpha"] := by decide +kernel
  clear_value actions alpha
  obtain ⟨holds, _, _, _, _, serves⟩ :=
    sessions_kept_afterAll (κ := Loopback.Session) Loopback.Host.empty actions 0
  have member : "alpha" ∈ thread.opened := by
    rw [opened]
    exact List.mem_singleton_self "alpha"
  exact ⟨made, idle, results, opened, (holds "alpha").2 member,
    serves 0 alpha .decompress [1, 1, 7] 1 made idle⟩

end Process

end StreamCodec.Accelerator

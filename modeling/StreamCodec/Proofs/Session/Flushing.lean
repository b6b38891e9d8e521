import StreamCodec.Proofs.Deflate.Marking
import StreamCodec.Proofs.Session.Reading
import StreamCodec.Proofs.Session.Schedule

namespace StreamCodec.DeflateSession

open DeflateEngine (Writes Syncs markerLength)

/-! A flush that leaves room behind it has made everything readable. -/

variable {ε : Type} [DeflateEngine ε] {level : Fin 10} {format : Format}
  {grammar : Grammar} {taken given : Bytes} {session : DeflateSession ε}

def Request.Feeds : Request → Prop
  | .compress .. | .flush _ => True
  | _ => False

def receiptsOf (answers : List (Except CodecError Receipt)) : List Receipt :=
  answers.filterMap Except.toOption

def Pending (session : DeflateSession ε) (pending : Nat) : Prop :=
  ∀ engine, session.phase = .active engine → DeflateEngine.Pending engine pending

/-- The calls ended with a flush that left room. -/
def EndDrained (requests : List Request)
    (answers : List (Except CodecError Receipt)) : Prop :=
  ∃ before room receipt, requests = before ++ [.flush room] ∧
    answers.getLast? = some (.ok receipt) ∧ receipt.retry = false

private theorem Midway.pending (midway : session.Midway level format taken given)
    (syncs : Syncs ε level format grammar) : ∃ pending, session.Pending pending := by
  cases midway with
  | of_fed fed =>
      obtain ⟨pending, pends⟩ := syncs.pending fed
      refine ⟨pending, fun engine active => ?_⟩
      cases active
      exact pends

theorem Midway.flush_syncs (midway : session.Midway level format taken given)
    (writes : Writes ε level format grammar)
    (syncs : Syncs ε level format grammar) {room : Nat} (roomy : 0 < room) :
    ∃ drained next, session.flush room = (.ok drained, next) ∧
      next.Midway level format taken (given ++ drained.output) ∧
      (drained.retry = true → drained.output.length = room) ∧
      (drained.retry = false →
        grammar.read (given ++ drained.output) = ⟨taken, .unfinished⟩) ∧
      ∀ pending, session.Pending pending →
        drained.output.length ≤ pending + markerLength ∧
          next.Pending (pending + markerLength - drained.output.length) := by
  cases midway with
  | @of_fed engine fed =>
      obtain ⟨step, next, ran, staysOpen⟩ :=
        writes.feeds .sync [] room fed Flush.noConfusion
      have later := fed.call Flush.noConfusion ran
      rw [Transfer.taken_of_nil, List.append_nil] at later
      refine ⟨_, _, flush_of_run roomy ran staysOpen, .of_fed later,
        fun retry => eq_of_beq retry, fun drained => ?_, fun pending pends => ?_⟩
      · have fits := step.output_le
        have different := ne_of_beq_false drained
        exact syncs.readable fed ran (by omega)
      · obtain ⟨bound, onward⟩ := (pends engine rfl).call ran
        refine ⟨bound, fun other active => ?_⟩
        cases active
        exact onward

private theorem drains_or_lessens (writes : Writes ε level format grammar)
    (syncs : Syncs ε level format grammar) {rooms : Nat → Nat}
    (roomy : ∀ call, markerLength < rooms call) {given : Bytes} {pending : Nat}
    {session : DeflateSession ε} (call : Nat)
    (keeps : session.Midway level format taken given ∧ session.Pending pending) :
    ∃ receipt next, session.serve (.flush (rooms call)) = (.ok receipt, next) ∧
      receipt.taken = [] ∧
      (receipt.retry = false ∧
          grammar.read (given ++ receipt.given) = ⟨taken, .unfinished⟩ ∨
        receipt.retry = true ∧ ∃ less < pending,
          next.Midway level format taken (given ++ receipt.given) ∧
            next.Pending less) := by
  obtain ⟨midway, pends⟩ := keeps
  have longer := roomy call
  obtain ⟨drained, next, flushed, nextMidway, filled, readable, less⟩ :=
    midway.flush_syncs writes syncs (Nat.zero_lt_of_lt longer)
  refine ⟨.ofDrained drained, next, ?_, rfl, ?_⟩
  · simp only [DeflateSession.serve, flushed, Except.map]
  · rcases retry : drained.retry with _ | _
    · exact .inl ⟨retry, readable retry⟩
    · obtain ⟨bound, nextPends⟩ := less pending pends
      have full := filled retry
      exact .inr ⟨retry, pending + markerLength - drained.output.length, by omega,
        nextMidway, nextPends⟩

/-- However little more room than for a marker the flushes have, one of them has made
everything readable. -/
theorem Midway.flushes (midway : session.Midway level format taken given)
    (writes : Writes ε level format grammar) (syncs : Syncs ε level format grammar)
    {pending : Nat} (pends : session.Pending pending) {rooms : Nat → Nat}
    (roomy : ∀ call, markerLength < rooms call) :
    ∃ (retried : List Receipt) (last : Receipt),
      session.serveAll
          (series (fun call => .flush (rooms call)) (retried.length + 1)) =
        (retried ++ [last]).map .ok ∧
      (∀ receipt ∈ retried, receipt.retry = true) ∧ last.retry = false := by
  obtain ⟨retried, last, served, retries, lastDrains, _⟩ :=
    serveAll_series
      (fun given pending session =>
        session.Midway level format taken given ∧ session.Pending pending)
      (grammar.read · = ⟨taken, .unfinished⟩) ⟨midway, pends⟩
      (drains_or_lessens writes syncs roomy)
  exact ⟨retried, last, served, retries, lastDrains⟩

theorem Midway.serve_of_feeds (midway : session.Midway level format taken given)
    (writes : Writes ε level format grammar) {request : Request}
    (feeds : request.Feeds) :
    (session.serve request).2.Midway level format
      (taken ++ (receiptsOf [(session.serve request).1]).flatMap Receipt.taken)
      (given ++ (receiptsOf [(session.serve request).1]).flatMap Receipt.given) := by
  have accepted (keepsOpen : request.KeepsOpen) : (session.serve request).2.Midway
      level format
      (taken ++ (receiptsOf [(session.serve request).1]).flatMap Receipt.taken)
      (given ++ (receiptsOf [(session.serve request).1]).flatMap Receipt.given) := by
    obtain ⟨receipt, served, nextMidway⟩ := midway.serve writes keepsOpen
    simpa [served, receiptsOf, Except.toOption] using nextMidway
  cases request with
  | setUp => exact feeds.elim
  | compress input room => exact accepted trivial
  | flush room =>
      rcases Nat.eq_zero_or_pos room with rfl | roomy
      · change session.Midway level format (taken ++ []) (given ++ [])
        rwa [List.append_nil, List.append_nil]
      · exact accepted roomy
  | finish => exact feeds.elim

private theorem receiptsOf_cons (answer : Except CodecError Receipt)
    (answers : List (Except CodecError Receipt)) :
    receiptsOf (answer :: answers) = receiptsOf [answer] ++ receiptsOf answers :=
  List.filterMap_append (l := [answer])

private theorem receiptsOf_append (first second : List (Except CodecError Receipt)) :
    receiptsOf (first ++ second) = receiptsOf first ++ receiptsOf second :=
  List.filterMap_append

theorem Midway.serveAll_of_feeds (midway : session.Midway level format taken given)
    (writes : Writes ε level format grammar) {requests : List Request}
    (feed : ∀ request ∈ requests, request.Feeds) :
    (session.afterAll requests).Midway level format
      (taken ++ (receiptsOf (session.serveAll requests)).flatMap Receipt.taken)
      (given ++ (receiptsOf (session.serveAll requests)).flatMap Receipt.given) := by
  induction requests generalizing session taken given with
  | nil => simpa [afterAll, DeflateSession.serveAll, receiptsOf] using midway
  | cons request requests induction =>
      have served := midway.serve_of_feeds writes (feed request List.mem_cons_self)
      have servedAll := induction served fun request member =>
        feed request (List.mem_cons_of_mem _ member)
      rw [DeflateSession.serveAll, receiptsOf_cons, List.flatMap_append,
        List.flatMap_append, ← List.append_assoc, ← List.append_assoc]
      exact servedAll

private theorem Midway.readable_of_endDrained
    (midway : session.Midway level format taken given)
    (writes : Writes ε level format grammar) (syncs : Syncs ε level format grammar)
    {requests : List Request} (feed : ∀ request ∈ requests, request.Feeds)
    (drained : EndDrained requests (session.serveAll requests)) :
    grammar.read (given ++
        (receiptsOf (session.serveAll requests)).flatMap Receipt.given) =
      ⟨taken ++ (receiptsOf (session.serveAll requests)).flatMap Receipt.taken,
        .unfinished⟩ := by
  obtain ⟨before, room, receipt, rfl, answered, leftRoom⟩ := drained
  have beforeMidway := midway.serveAll_of_feeds writes fun request member =>
    feed request (List.mem_append_left _ member)
  rw [serveAll_append, receiptsOf_append, List.flatMap_append, List.flatMap_append,
    ← List.append_assoc, ← List.append_assoc]
  rw [serveAll_append, DeflateSession.serveAll, DeflateSession.serveAll,
    List.getLast?_concat, Option.some.injEq] at answered
  rcases Nat.eq_zero_or_pos room with rfl | roomy
  · cases answered
  · obtain ⟨drained, next, flushed, _, _, readable, _⟩ :=
      beforeMidway.flush_syncs writes syncs roomy
    have served : ((session.afterAll before).serve (.flush room)).1 =
        .ok (.ofDrained drained) := by
      simp only [DeflateSession.serve, flushed, Except.map]
    rw [served] at answered
    cases answered
    simp only [DeflateSession.serveAll, served]
    simpa [receiptsOf, Except.toOption, Receipt.ofDrained] using readable leftRoom

private theorem retry_iff_of_flush {room : Nat} {receipt : Receipt}
    (served : (session.serve (.flush room)).1 = .ok receipt) :
    receipt.retry = true ↔ receipt.given.length = room := by
  simp only [serve, flush] at served
  split at served
  · cases served
  · split at served
    · cases served
    · split at served
      · cases served
      · cases served
        exact beq_iff_eq

/-- Whatever was fed and flushed before, flushes with room for more than a marker come
to an end, and a flush that left room made readable all that was taken, however it is
fed to a session, while the stream goes on. -/
theorem serveAll_readable {ι : Type} [InflateEngine ι]
    (writes : Writes ε level format grammar) (syncs : Syncs ε level format grammar)
    (follows : InflateEngine.Follows ι format grammar) {requests : List Request}
    (feed : ∀ request ∈ requests, request.Feeds) :
    let session := ((new level.val : DeflateSession ε).setUp format).2
    let answers := session.serveAll requests
    let content := (receiptsOf answers).flatMap Receipt.taken
    let bytes := (receiptsOf answers).flatMap Receipt.given
    (∀ rooms : Nat → Nat, (∀ call, 7 ≤ rooms call) →
      ∃ (retried : List Receipt) (last : Receipt),
        (session.afterAll requests).serveAll
            (series (fun call => .flush (rooms call)) (retried.length + 1)) =
          (retried ++ [last]).map .ok ∧
        (∀ receipt ∈ retried, receipt.retry = true) ∧ last.retry = false) ∧
    (∀ room receipt, (.ok receipt, .flush room) ∈ answers.zip requests →
      (receipt.retry = true ↔ receipt.given.length = room)) ∧
    (EndDrained requests answers → ∀ cuts : List InflateSession.Cut,
      ∃ last,
        (InflateSession.Feeding.start format bytes :
          InflateSession.Feeding ι).callAll cuts = .ok last ∧
        last.session.finished = false ∧ last.written <+: content ∧
        ((∀ cut ∈ cuts, 0 < cut.length ∧ 0 < cut.room) →
          bytes.length + content.length ≤ cuts.length →
          last.rest = [] ∧ last.written = content) ∧
        ∀ cut next, 0 < cut.length → 0 < cut.room → last.call cut = .ok next →
          next.rest = last.rest → next.written = last.written →
          last.rest = [] ∧ last.written = content) ∧
    (∀ (later : List Request) (rooms : Nat → Nat),
      (∀ request ∈ later, request.Feeds) → (∀ call, 0 < rooms call) →
      ∃ retried last,
        let ending := retried ++ [last]
        let more := receiptsOf ((session.afterAll requests).serveAll later)
        (session.afterAll (requests ++ later)).serveAll
            (finishes rooms (retried.length + 1)) = ending.map .ok ∧
        (∀ receipt ∈ retried, receipt.retry = true) ∧ last.retry = false ∧
        grammar.IsStream (bytes ++ (more ++ ending).flatMap Receipt.given)
          (content ++ (more ++ ending).flatMap Receipt.taken)) := by
  intro session answers content bytes
  have start := midway_setUp_new (ε := ε) level format
  have midway := start.serveAll_of_feeds writes feed
  refine ⟨fun rooms roomy => ?_, ?_, fun drained cuts => ?_,
    fun later rooms feedLater roomy => ?_⟩
  · obtain ⟨pending, pends⟩ := midway.pending syncs
    exact midway.flushes writes syncs pends roomy
  · have exact_iff : ∀ answer request, (answer, request) ∈ answers.zip requests →
        ∀ room receipt, request = .flush room → answer = .ok receipt →
          (receipt.retry = true ↔ receipt.given.length = room) :=
      forall_zip_serveAll (fun session request room receipt flushes served => by
        subst flushes
        exact retry_iff_of_flush served) session requests
    exact fun room receipt member => exact_iff _ _ member room receipt rfl rfl
  · exact InflateSession.Feeding.callAll_of_unfinished follows
      (start.readable_of_endDrained writes syncs feed drained) cuts
  · have laterMidway := midway.serveAll_of_feeds writes feedLater
    obtain ⟨retried, last, ended, retries, lastEnds, isStream⟩ :=
      laterMidway.finishes writes roomy
    refine ⟨retried, last, ?_, retries, lastEnds, ?_⟩
    · rw [afterAll_append]
      exact ended
    · simpa only [List.flatMap_append, List.nil_append, List.append_assoc]
        using isStream

theorem serveAll_readable_of_little_room :
    let requests : List Request :=
      [.compress [1, 2] 1, .flush 0, .flush 2, .compress [3] 1, .flush 3, .flush 40]
    let session := ((new 0 : DeflateSession Deflate.Encoder).setUp .deflate).2
    let answers := session.serveAll requests
    let content := (receiptsOf answers).flatMap Receipt.taken
    let bytes := (receiptsOf answers).flatMap Receipt.given
    Writes Deflate.Encoder 0 .deflate (Inflate.grammar .deflate) ∧
    Syncs Deflate.Encoder 0 .deflate (Inflate.grammar .deflate) ∧
    InflateEngine.Follows Inflate.Decoder .deflate (Inflate.grammar .deflate) ∧
    (∀ request ∈ requests, request.Feeds) ∧
    EndDrained requests answers ∧ content = [1, 2, 3] ∧
    ∃ last,
      (InflateSession.Feeding.start .deflate bytes :
        InflateSession.Feeding Inflate.Decoder).callAll
          (List.replicate 40 ⟨1, 1⟩) = .ok last ∧
      last.session.finished = false ∧ last.rest = [] ∧
      last.written = content := by
  intro requests session answers content bytes
  have writes := Deflate.writes_stored .deflate
  have syncs := Deflate.syncs_stored .deflate
  have follows := Inflate.follows_grammar .deflate
  have feed : ∀ request ∈ requests, request.Feeds := by
    simp [requests, Request.Feeds]
  have taken : content = [1, 2, 3] := by decide +kernel
  have short : bytes.length + content.length ≤ 40 := by decide +kernel
  have drained : EndDrained requests answers :=
    ⟨requests.dropLast, 40, ⟨[], bytes.drop 6, false⟩, rfl, rfl, rfl⟩
  obtain ⟨last, called, unfinished, _, enough, _⟩ :=
    (serveAll_readable writes syncs follows feed).2.2.1 drained
      (List.replicate 40 ⟨1, 1⟩)
  obtain ⟨usedUp, all⟩ := enough (by simp) (by rwa [List.length_replicate])
  exact ⟨writes, syncs, follows, feed, drained, taken, last, called, unfinished,
    usedUp, all⟩

end StreamCodec.DeflateSession

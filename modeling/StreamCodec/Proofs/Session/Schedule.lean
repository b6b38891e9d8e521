import StreamCodec.Proofs.Codec.Inflation
import StreamCodec.Proofs.Deflate.Storing
import StreamCodec.Proofs.Session.Deflating

namespace StreamCodec.DeflateSession

/-! Whatever calls a session gets and however little room they have, what the calls
give is one stream of what they took. -/

variable {ε : Type} [DeflateEngine ε]

inductive Request
  | setUp (format : Format)
  | compress (input : Bytes) (room : Nat)
  | flush (room : Nat)
  | finish (room : Nat)

namespace Request

def input : Request → Bytes
  | .compress input _ => input
  | _ => []

def room : Request → Nat
  | .setUp _ => 0
  | .compress _ room => room
  | .flush room => room
  | .finish room => room

def KeepsOpen : Request → Prop
  | .compress .. => True
  | .flush room => 0 < room
  | _ => False

end Request

structure Receipt where
  taken : Bytes
  given : Bytes
  retry : Bool

namespace Receipt

def ofTransfer {input : Bytes} {room : Nat} (transfer : Transfer input room) :
    Receipt :=
  ⟨transfer.taken, transfer.output, false⟩

def ofDrained {room : Nat} (drained : Drained room) : Receipt :=
  ⟨[], drained.output, drained.retry⟩

def Fits (receipt : Receipt) (request : Request) : Prop :=
  receipt.taken <+: request.input ∧ receipt.given.length ≤ request.room

end Receipt

def serve (session : DeflateSession ε) :
    Request → Except CodecError Receipt × DeflateSession ε
  | .setUp format =>
      ((session.setUp format).1.map fun () => ⟨[], [], false⟩,
        (session.setUp format).2)
  | .compress input room =>
      ((session.compress input room).1.map Receipt.ofTransfer,
        (session.compress input room).2)
  | .flush room =>
      ((session.flush room).1.map Receipt.ofDrained, (session.flush room).2)
  | .finish room =>
      ((session.finish room).1.map Receipt.ofDrained, (session.finish room).2)

def serveAll (session : DeflateSession ε) :
    List Request → List (Except CodecError Receipt)
  | [] => []
  | request :: requests =>
      (session.serve request).1 :: (session.serve request).2.serveAll requests

def afterAll (session : DeflateSession ε) : List Request → DeflateSession ε
  | [] => session
  | request :: requests => (session.serve request).2.afterAll requests

theorem serveAll_append (session : DeflateSession ε)
    (first second : List Request) :
    session.serveAll (first ++ second) =
      session.serveAll first ++ (session.afterAll first).serveAll second := by
  induction first generalizing session with
  | nil => rfl
  | cons request requests induction =>
      simp only [List.cons_append, serveAll, afterAll, induction]

theorem afterAll_append (session : DeflateSession ε)
    (first second : List Request) :
    session.afterAll (first ++ second) =
      (session.afterAll first).afterAll second := by
  induction first generalizing session with
  | nil => rfl
  | cons request requests induction =>
      simp only [List.cons_append, afterAll, induction]

private theorem receipt_of_map {α : Type} {receiptOf : α → Receipt}
    {answer : Except CodecError α} {receipt : Receipt}
    (answered : answer.map receiptOf = .ok receipt) :
    ∃ found, receiptOf found = receipt := by
  cases answer with
  | error error => cases answered
  | ok found =>
      cases answered
      exact ⟨found, rfl⟩

private theorem fits_of_serve {session : DeflateSession ε} {request : Request}
    {receipt : Receipt} (served : (session.serve request).1 = .ok receipt) :
    receipt.Fits request := by
  cases request with
  | setUp format =>
      obtain ⟨_, rfl⟩ := receipt_of_map served
      exact ⟨List.prefix_refl [], Nat.le_refl 0⟩
  | compress input room =>
      obtain ⟨transfer, rfl⟩ := receipt_of_map served
      exact ⟨List.take_prefix _ _, transfer.output_le⟩
  | flush room =>
      obtain ⟨drained, rfl⟩ := receipt_of_map served
      exact ⟨List.prefix_refl [], drained.output_le⟩
  | finish room =>
      obtain ⟨drained, rfl⟩ := receipt_of_map served
      exact ⟨List.prefix_refl [], drained.output_le⟩

theorem forall_zip_serveAll {Holds : Except CodecError Receipt → Request → Prop}
    (each : ∀ (session : DeflateSession ε) (request : Request),
      Holds (session.serve request).1 request)
    (session : DeflateSession ε) (requests : List Request) :
    ∀ answer request, (answer, request) ∈ (session.serveAll requests).zip requests →
      Holds answer request := by
  induction requests generalizing session with
  | nil => simp
  | cons first requests induction =>
      intro answer request member
      rw [serveAll, List.zip_cons_cons, List.mem_cons] at member
      rcases member with same | member
      · cases same
        exact each session first
      · exact induction _ answer request member

theorem fits_of_serveAll {session : DeflateSession ε} {requests : List Request}
    {receipts : List Receipt}
    (served : session.serveAll requests = receipts.map .ok) :
    ∀ pair ∈ receipts.zip requests, pair.1.Fits pair.2 := by
  intro pair member
  have fits : ∀ answer request,
      (answer, request) ∈ (session.serveAll requests).zip requests →
        ∀ receipt, answer = .ok receipt → receipt.Fits request :=
    forall_zip_serveAll (fun _ _ _ answered => fits_of_serve answered) session
      requests
  refine fits (.ok pair.1) pair.2 ?_ pair.1 rfl
  rw [served, List.zip_map_left]
  exact List.mem_map_of_mem member

variable {level : Fin 10} {format : Format} {grammar : Grammar}
  {taken given : Bytes} {session : DeflateSession ε}

theorem Midway.serve (midway : session.Midway level format taken given)
    (writes : DeflateEngine.Writes ε level format grammar) {request : Request}
    (keepsOpen : request.KeepsOpen) :
    ∃ receipt, (session.serve request).1 = .ok receipt ∧
      (session.serve request).2.Midway level format (taken ++ receipt.taken)
        (given ++ receipt.given) := by
  cases request with
  | setUp => exact keepsOpen.elim
  | compress input room =>
      obtain ⟨transfer, next, compressed, nextMidway, _⟩ :=
        midway.compress writes input room
      refine ⟨.ofTransfer transfer, ?_, ?_⟩
      · simp only [DeflateSession.serve, compressed, Except.map]
      · simp only [DeflateSession.serve, compressed]
        exact nextMidway
  | flush room =>
      obtain ⟨drained, next, flushed, nextMidway⟩ :=
        midway.flush writes keepsOpen
      refine ⟨.ofDrained drained, ?_, ?_⟩
      · simp only [DeflateSession.serve, flushed, Except.map]
      · simp only [DeflateSession.serve, flushed, Receipt.ofDrained,
          List.append_nil]
        exact nextMidway
  | finish => exact keepsOpen.elim

theorem Midway.serveAll (midway : session.Midway level format taken given)
    (writes : DeflateEngine.Writes ε level format grammar)
    {requests : List Request}
    (keepOpen : ∀ request ∈ requests, request.KeepsOpen) :
    ∃ receipts : List Receipt,
      session.serveAll requests = receipts.map .ok ∧
      receipts.length = requests.length ∧
      (session.afterAll requests).Midway level format
        (taken ++ receipts.flatMap Receipt.taken)
        (given ++ receipts.flatMap Receipt.given) := by
  induction requests generalizing session taken given with
  | nil => exact ⟨[], rfl, rfl, by simpa [afterAll] using midway⟩
  | cons request requests induction =>
      obtain ⟨receipt, served, nextMidway⟩ :=
        midway.serve writes (keepOpen request List.mem_cons_self)
      obtain ⟨receipts, servedAll, lengthEq, lastMidway⟩ :=
        induction nextMidway fun request member =>
          keepOpen request (List.mem_cons_of_mem _ member)
      refine ⟨receipt :: receipts, ?_, ?_, ?_⟩
      · simp only [DeflateSession.serveAll, served, servedAll, List.map_cons]
      · simp only [List.length_cons, lengthEq]
      · simpa only [afterAll, List.flatMap_cons, ← List.append_assoc]
          using lastMidway

def series (requests : Nat → Request) (calls : Nat) : List Request :=
  (List.range calls).map requests

theorem series_succ (requests : Nat → Request) (calls : Nat) :
    series requests (calls + 1) =
      requests 0 :: series (fun call => requests (call + 1)) calls := by
  simp only [series, List.range_succ_eq_map, List.map_cons, List.map_map,
    Function.comp_def, Nat.succ_eq_add_one]

def finishes (rooms : Nat → Nat) (calls : Nat) : List Request :=
  (List.range calls).map fun call => .finish (rooms call)

/-- Calls of which each is the last or leaves less to be done. -/
theorem serveAll_series (Keeps : Bytes → Nat → DeflateSession ε → Prop)
    (Ends : Bytes → Prop) {given : Bytes} {left : Nat} {session : DeflateSession ε}
    {requests : Nat → Request} (keeps : Keeps given left session)
    (serves : ∀ {given left session} (call : Nat), Keeps given left session →
      ∃ receipt next, session.serve (requests call) = (.ok receipt, next) ∧
        receipt.taken = [] ∧
        (receipt.retry = false ∧ Ends (given ++ receipt.given) ∨
          receipt.retry = true ∧
            ∃ less < left, Keeps (given ++ receipt.given) less next)) :
    ∃ (retried : List Receipt) (last : Receipt),
      session.serveAll (series requests (retried.length + 1)) =
        (retried ++ [last]).map .ok ∧
      (∀ receipt ∈ retried, receipt.retry = true) ∧ last.retry = false ∧
      (retried ++ [last]).flatMap Receipt.taken = [] ∧
      Ends (given ++ (retried ++ [last]).flatMap Receipt.given) := by
  induction left using Nat.strongRecOn generalizing given session requests with
  | ind left induction =>
      obtain ⟨receipt, next, served, noneTaken, outcome⟩ := serves 0 keeps
      rcases outcome with ⟨drained, ends⟩ | ⟨retry, less, smaller, nextKeeps⟩
      · refine ⟨[], receipt, ?_, by simp, drained, by simpa using noneTaken, ?_⟩
        · rw [List.length_nil, series_succ]
          simp only [DeflateSession.serveAll, served]
          rfl
        · simpa using ends
      · obtain ⟨retried, last, servedAll, retries, lastDrains, restTaken, ends⟩ :=
          induction less smaller nextKeeps fun call => serves (call + 1)
        refine ⟨receipt :: retried, last, ?_, ?_, lastDrains, ?_, ?_⟩
        · rw [List.length_cons, series_succ]
          simp only [DeflateSession.serveAll, served, servedAll,
            List.cons_append, List.map_cons]
        · exact List.forall_mem_cons.2 ⟨retry, retries⟩
        · rw [List.cons_append, List.flatMap_cons, noneTaken, restTaken,
            List.append_nil]
        · rw [List.cons_append, List.flatMap_cons, ← List.append_assoc]
          exact ends

/-- However little room the calls have, one of them ends the stream. -/
theorem Closing.finishes (closing : session.Closing level format taken given)
    (writes : DeflateEngine.Writes ε level format grammar) {most bound : Nat}
    (bounded : session.Bounded most bound) {rooms : Nat → Nat}
    (roomy : ∀ call, 0 < rooms call) :
    ∃ (retried : List Receipt) (last : Receipt),
      session.serveAll (finishes rooms (retried.length + 1)) =
        (retried ++ [last]).map .ok ∧
      (∀ receipt ∈ retried, receipt.retry = true) ∧ last.retry = false ∧
      (retried ++ [last]).flatMap Receipt.taken = [] ∧
      grammar.IsStream (given ++ (retried ++ [last]).flatMap Receipt.given)
        taken := by
  refine serveAll_series
    (fun given bound session =>
      session.Closing level format taken given ∧ session.Bounded most bound)
    (grammar.IsStream · taken) ⟨closing, bounded⟩ ?_
  rintro given bound session call ⟨closing, bounded⟩
  obtain ⟨drained, next, finished, outcome⟩ := closing.finish writes (roomy call)
  refine ⟨.ofDrained drained, next, ?_, rfl, ?_⟩
  · simp only [DeflateSession.serve, finished, Except.map]
  · rcases outcome with ⟨ended, _, isStream⟩ | ⟨retry, nonempty, nextClosing, budget⟩
    · exact .inl ⟨ended, isStream⟩
    · obtain ⟨fits, nextBounded⟩ := budget most bound bounded
      have given_pos := List.length_pos_iff.2 nonempty
      exact .inr ⟨retry, bound - drained.output.length, by omega, nextClosing,
        nextBounded⟩

theorem Midway.finishes (midway : session.Midway level format taken given)
    (writes : DeflateEngine.Writes ε level format grammar) {rooms : Nat → Nat}
    (roomy : ∀ call, 0 < rooms call) :
    ∃ (retried : List Receipt) (last : Receipt),
      session.serveAll (DeflateSession.finishes rooms (retried.length + 1)) =
        (retried ++ [last]).map .ok ∧
      (∀ receipt ∈ retried, receipt.retry = true) ∧ last.retry = false ∧
      grammar.IsStream (given ++ (retried ++ [last]).flatMap Receipt.given)
        (taken ++ (retried ++ [last]).flatMap Receipt.taken) := by
  obtain ⟨bound, bounded⟩ := midway.bounded writes 0
  obtain ⟨retried, last, ended, retries, lastEnds, noneTaken, isStream⟩ :=
    midway.closing.finishes writes bounded roomy
  refine ⟨retried, last, ended, retries, lastEnds, ?_⟩
  rw [noneTaken, List.append_nil]
  exact isStream

/-- Nothing is lost, repeated or moved: what the calls give, from the first to the
one that ends the stream, is one stream of what they took. -/
theorem serveAll_isStream {ι : Type} [InflateEngine ι]
    (writes : DeflateEngine.Writes ε level format grammar)
    (follows : InflateEngine.Follows ι format grammar) {request : Level}
    {codec : SoftwareCodec ε ι}
    (made : SoftwareCodec.new request format = .ok codec)
    {requests : List Request}
    (keepOpen : ∀ request ∈ requests, request.KeepsOpen) {rooms : Nat → Nat}
    (roomy : ∀ call, 0 < rooms call) :
    ∃ fed retried last,
      let calls := requests ++ DeflateSession.finishes rooms (retried.length + 1)
      let receipts := fed ++ (retried ++ [last])
      let content := receipts.flatMap Receipt.taken
      let stream := receipts.flatMap Receipt.given
      ((new level.val : DeflateSession ε).setUp format).2.serveAll calls =
        receipts.map .ok ∧
      fed.length = requests.length ∧
      (∀ receipt ∈ retried, receipt.retry = true) ∧ last.retry = false ∧
      (∀ pair ∈ receipts.zip calls, pair.1.Fits pair.2) ∧
      grammar.IsStream stream content ∧
      ∀ room, max 1 content.length ≤ room →
        (codec.decompress stream room).result = .ok content := by
  have midway := midway_setUp_new (ε := ε) level format
  obtain ⟨fed, fedServed, lengthEq, fedMidway⟩ := midway.serveAll writes keepOpen
  obtain ⟨retried, last, ended, retries, lastEnds, isStream⟩ :=
    fedMidway.finishes writes roomy
  have served : ((new level.val : DeflateSession ε).setUp format).2.serveAll
      (requests ++ DeflateSession.finishes rooms (retried.length + 1)) =
      (fed ++ (retried ++ [last])).map .ok := by
    rw [serveAll_append, fedServed, ended, ← List.map_append]
  have whole : grammar.IsStream
      ((fed ++ (retried ++ [last])).flatMap Receipt.given)
      ((fed ++ (retried ++ [last])).flatMap Receipt.taken) := by
    simpa only [List.flatMap_append, List.nil_append] using isStream
  refine ⟨fed, retried, last, served, lengthEq, retries, lastEnds,
    fits_of_serveAll served, whole, fun room enough => ?_⟩
  obtain ⟨_, asNew⟩ := SoftwareCodec.asNew_of_new made
  have answers := asNew.answers_decompress follows
    ((fed ++ (retried ++ [last])).flatMap Receipt.given)
    (show 0 < room by omega)
  rw [whole.read_eq] at answers
  exact answers.ok_of_complete rfl (by
    simp only
    omega)

theorem serveAll_isStream_of_little_room :
    let requests : List Request :=
      [.compress [1, 2] 0, .compress [1, 2] 1, .flush 1, .compress [] 7, .flush 2,
        .compress [3] 3]
    let codec : SoftwareCodec Deflate.Encoder Inflate.Decoder := ⟨6, .gzip, .idle⟩
    DeflateEngine.Writes Deflate.Encoder 0 .gzip (Inflate.grammar .gzip) ∧
    InflateEngine.Follows Inflate.Decoder .gzip (Inflate.grammar .gzip) ∧
    SoftwareCodec.new (.exactly 6) .gzip = .ok codec ∧
    (∀ request ∈ requests, request.KeepsOpen) ∧
    ∃ fed retried last,
      let calls :=
        requests ++ DeflateSession.finishes (fun call => call + 1)
          (retried.length + 1)
      let receipts := fed ++ (retried ++ [last])
      let content := receipts.flatMap Receipt.taken
      let stream := receipts.flatMap Receipt.given
      ((new 0 : DeflateSession Deflate.Encoder).setUp .gzip).2.serveAll calls =
        receipts.map .ok ∧
      fed.length = requests.length ∧
      (∀ receipt ∈ retried, receipt.retry = true) ∧ last.retry = false ∧
      (∀ pair ∈ receipts.zip calls, pair.1.Fits pair.2) ∧
      (Inflate.grammar .gzip).IsStream stream content ∧
      ∀ room, max 1 content.length ≤ room →
        (codec.decompress stream room).result = .ok content := by
  intro requests codec
  have writes := Deflate.writes_stored .gzip
  have follows := Inflate.follows_grammar .gzip
  have made : SoftwareCodec.new (.exactly 6) .gzip = .ok codec := rfl
  have keepOpen : ∀ request ∈ requests, request.KeepsOpen := by
    simp [requests, Request.KeepsOpen]
  exact ⟨writes, follows, made, keepOpen,
    serveAll_isStream writes follows made keepOpen fun call => Nat.succ_pos call⟩

end StreamCodec.DeflateSession

import StreamCodec.Proofs.Stream.Run

namespace StreamCodec.Stream

/-! What a transcript tells: which calls there were, which bytes went from one party to the
next, and which party failed. -/

/-- One call of a party, the exchange it makes and the parties after it. The calls of the
session are not the same in every transfer. -/
inductive Happens {ρ ω σ : Type} [Source ρ] [Sink ω]
    (calls : σ → Exchange → σ → Prop) (chunk : Nat) :
    Parties ρ ω σ → Exchange → Parties ρ ω σ → Prop
  | read {source next : ρ} {content : Bytes} {fits : content.length ≤ chunk}
      (answer : Source.read source chunk = (.bytes content fits, next))
      (sink : ω) (session : σ) :
      Happens calls chunk ⟨source, sink, session⟩ (.read content)
        ⟨next, sink, session⟩
  | readInterrupted {source next : ρ}
      (answer : Source.read source chunk = (.interrupted, next))
      (sink : ω) (session : σ) :
      Happens calls chunk ⟨source, sink, session⟩ .readInterrupted
        ⟨next, sink, session⟩
  | readFailed {source next : ρ} {text : String}
      (answer : Source.read source chunk = (.failed text, next))
      (sink : ω) (session : σ) :
      Happens calls chunk ⟨source, sink, session⟩ (.readFailed text)
        ⟨next, sink, session⟩
  | session {session next : σ} {exchange : Exchange}
      (answer : calls session exchange next) (source : ρ) (sink : ω) :
      Happens calls chunk ⟨source, sink, session⟩ exchange ⟨source, sink, next⟩
  | wrote {sink next : ω} {offered : Bytes} {count : Nat}
      {fits : count ≤ offered.length}
      (answer : Sink.write sink offered = (.accepted count fits, next))
      (source : ρ) (session : σ) :
      Happens calls chunk ⟨source, sink, session⟩ (.wrote offered count)
        ⟨source, next, session⟩
  | writeInterrupted {sink next : ω} {offered : Bytes}
      (answer : Sink.write sink offered = (.interrupted, next))
      (source : ρ) (session : σ) :
      Happens calls chunk ⟨source, sink, session⟩ .writeInterrupted
        ⟨source, next, session⟩
  | writeFailed {sink next : ω} {offered : Bytes} {text : String}
      (answer : Sink.write sink offered = (.failed text, next))
      (source : ρ) (session : σ) :
      Happens calls chunk ⟨source, sink, session⟩ (.writeFailed text)
        ⟨source, next, session⟩
  | flushed {sink next : ω} (answer : Sink.flush sink = (.ok (), next))
      (source : ρ) (session : σ) :
      Happens calls chunk ⟨source, sink, session⟩ .flushed ⟨source, next, session⟩
  | flushFailed {sink next : ω} {text : String}
      (answer : Sink.flush sink = (.error text, next))
      (source : ρ) (session : σ) :
      Happens calls chunk ⟨source, sink, session⟩ (.flushFailed text)
        ⟨source, next, session⟩

inductive Happened {ρ ω σ : Type} [Source ρ] [Sink ω]
    (calls : σ → Exchange → σ → Prop) (chunk : Nat) :
    Parties ρ ω σ → List Exchange → Parties ρ ω σ → Prop
  | nothing (parties : Parties ρ ω σ) : Happened calls chunk parties [] parties
  | concat {first parties next : Parties ρ ω σ} {past : List Exchange}
      {exchange : Exchange} (happened : Happened calls chunk first past parties)
      (happens : Happens calls chunk parties exchange next) :
      Happened calls chunk first (past ++ [exchange]) next

inductive Party
  | source
  | session
  | sink
  deriving DecidableEq

namespace Exchange

def party : Exchange → Party
  | read _ => .source
  | readInterrupted => .source
  | readFailed _ => .source
  | called .. => .session
  | finished .. => .session
  | callFailed _ => .session
  | wrote .. => .sink
  | writeInterrupted => .sink
  | writeFailed _ => .sink
  | flushed => .sink
  | flushFailed _ => .sink

/-- What the source brought. -/
def delivered : Exchange → Bytes
  | read content => content
  | _ => []

/-- What the session took of its input. -/
def taken : Exchange → Bytes
  | called input consumed _ => input.take consumed
  | _ => []

def produced : Exchange → Bytes
  | called _ _ output => output
  | finished output _ => output
  | _ => []

structure IsSilent (exchange : Exchange) : Prop where
  delivered_eq : exchange.delivered = []
  taken_eq : exchange.taken = []
  produced_eq : exchange.produced = []
  received_eq : exchange.received = []

/-- How a party failed, if one did. To be interrupted is no failure. -/
def failure? : Exchange → Option CodecError
  | readFailed text => some (.io text)
  | callFailed error => some error
  | wrote _ 0 => some (.io nothingAccepted)
  | writeFailed text => some (.io text)
  | flushFailed text => some (.io text)
  | _ => none

theorem isSilent_of_failure {exchange : Exchange} {error : CodecError}
    (failed : exchange.failure? = some error) : exchange.IsSilent := by
  cases exchange with
  | readFailed => exact ⟨rfl, rfl, rfl, rfl⟩
  | callFailed => exact ⟨rfl, rfl, rfl, rfl⟩
  | wrote offered count =>
      cases count with
      | zero => exact ⟨rfl, rfl, rfl, rfl⟩
      | succ count => cases failed
  | writeFailed => exact ⟨rfl, rfl, rfl, rfl⟩
  | flushFailed => exact ⟨rfl, rfl, rfl, rfl⟩
  | _ => cases failed

theorem isSilent_flushed : flushed.IsSilent := ⟨rfl, rfl, rfl, rfl⟩

theorem taken_of_party {exchange : Exchange} (other : exchange.party ≠ .session) :
    exchange.taken = [] := by
  cases exchange with
  | called => exact absurd rfl other
  | _ => rfl

theorem delivered_of_party {exchange : Exchange} (other : exchange.party ≠ .source) :
    exchange.delivered = [] := by
  cases exchange with
  | read => exact absurd rfl other
  | _ => rfl

theorem flatMap_concat (tell : Exchange → Bytes) (past : List Exchange)
    (exchange : Exchange) :
    (past ++ [exchange]).flatMap tell = past.flatMap tell ++ tell exchange := by
  rw [List.flatMap_append, List.flatMap_singleton]

theorem flatMap_concat_of_nil {tell : Exchange → Bytes} {exchange : Exchange}
    (nothing : tell exchange = []) (past : List Exchange) :
    (past ++ [exchange]).flatMap tell = past.flatMap tell := by
  rw [flatMap_concat, nothing, List.append_nil]

end Exchange

theorem received_concat (past : List Exchange) (exchange : Exchange) :
    received (past ++ [exchange]) = received past ++ exchange.received :=
  Exchange.flatMap_concat Exchange.received past exchange

/-- What was asked of the session last, if it was asked for anything. -/
def latestCall? (past : List Exchange) : Option Exchange :=
  (past.filter fun exchange => exchange.party = .session).getLast?

theorem latestCall?_concat_of_session {exchange : Exchange}
    (asked : exchange.party = .session) (past : List Exchange) :
    latestCall? (past ++ [exchange]) = some exchange := by
  simp [latestCall?, List.filter_append, asked]

theorem latestCall?_concat_of_other {exchange : Exchange}
    (other : exchange.party ≠ .session) (past : List Exchange) :
    latestCall? (past ++ [exchange]) = latestCall? past := by
  simp [latestCall?, List.filter_append, other]

theorem Happens.session_eq {ρ ω σ : Type} [Source ρ] [Sink ω]
    {calls : σ → Exchange → σ → Prop} {chunk : Nat} {parties next : Parties ρ ω σ}
    {exchange : Exchange} (happens : Happens calls chunk parties exchange next)
    (asks : ∀ {session exchange next}, calls session exchange next →
      exchange.party = .session)
    (other : exchange.party ≠ .session) : next.session = parties.session := by
  cases happens with
  | session answer => exact absurd (asks answer) other
  | _ => rfl

theorem party_of_offer {ω : Type} [Sink ω] (sink : ω) (bytes : Bytes) :
    (offer sink bytes).1.party = .sink := by
  unfold offer
  split <;> rfl

/-- An offer that does not fail leaves what the sink did not take. -/
inductive Offered (bytes : Bytes) : Exchange → Except CodecError Bytes → Prop
  | wrote {count : Nat} (positive : 0 < count) :
      Offered bytes (.wrote bytes count) (.ok (bytes.drop count))
  | interrupted : Offered bytes .writeInterrupted (.ok bytes)
  | failed {exchange : Exchange} {error : CodecError}
      (failed : exchange.failure? = some error) : Offered bytes exchange (.error error)

theorem happens_of_offer {ρ ω σ : Type} [Source ρ] [Sink ω] {sink next : ω}
    {bytes : Bytes} {exchange : Exchange} {left : Except CodecError Bytes}
    (offers : offer sink bytes = (exchange, left, next))
    (calls : σ → Exchange → σ → Prop) (chunk : Nat) (source : ρ) (session : σ) :
    Happens calls chunk ⟨source, sink, session⟩ exchange ⟨source, next, session⟩ ∧
      Offered bytes exchange left := by
  rcases answer : Sink.write sink bytes with ⟨⟨count, fits⟩ | _ | text, after⟩
  · cases count with
    | zero =>
        simp only [offer, answer] at offers
        cases offers
        exact ⟨.wrote answer source session, .failed rfl⟩
    | succ count =>
        simp only [offer, answer] at offers
        cases offers
        exact ⟨.wrote answer source session, .wrote (Nat.succ_pos count)⟩
  · simp only [offer, answer] at offers
    cases offers
    exact ⟨.writeInterrupted answer source session, .interrupted⟩
  · simp only [offer, answer] at offers
    cases offers
    exact ⟨.writeFailed answer source session, .failed rfl⟩

end StreamCodec.Stream

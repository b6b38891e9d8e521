import Mathlib.Algebra.GroupWithZero.Nat
import StreamCodec.Proofs.Engine.Inflating
import StreamCodec.Proofs.Engine.Recording

namespace StreamCodec

/-! A one-shot call hands its engine the input and the room piece by piece. Nothing is
asked of the engine but that it keeps within the pieces. -/

namespace Record

def consumed (record : Record) : Nat :=
  match record.answer with
  | .ok step => step.consumed
  | .error _ => 0

def output (record : Record) : Bytes :=
  match record.answer with
  | .ok step => step.output
  | .error _ => []

/-- The stream has not ended, and something was taken or given. -/
inductive GoesOn : Record → Prop
  | moved {input : Bytes} {room : Nat} {step : Step input room}
      (going : step.status ≠ .streamEnd) (busy : ¬step.IsIdle) :
      GoesOn ⟨input, room, .ok step⟩

inductive EndsStream : Record → Prop
  | ended {input : Bytes} {room : Nat} {step : Step input room}
      (ended : step.status = .streamEnd) : EndsStream ⟨input, room, .ok step⟩

variable {record : Record}

private theorem GoesOn.moves (goesOn : record.GoesOn) :
    0 < record.consumed + record.output.length := by
  cases goesOn with
  | @moved input room step going busy =>
      apply Nat.pos_of_ne_zero
      intro still
      obtain ⟨nothing, empty⟩ := Nat.add_eq_zero_iff.1 still
      exact busy ⟨nothing, List.length_eq_zero_iff.1 empty⟩

private theorem consumed_le (record : Record) :
    record.consumed ≤ record.input.length := by
  obtain ⟨input, room, answer⟩ := record
  cases answer with
  | error words => exact Nat.zero_le _
  | ok step => exact step.consumed_le

private theorem length_output_le (record : Record) :
    record.output.length ≤ record.room := by
  obtain ⟨input, room, answer⟩ := record
  cases answer with
  | error words => exact Nat.zero_le _
  | ok step => exact step.output_le

end Record

def consumedBy (records : List Record) : Nat :=
  (records.map Record.consumed).sum

def producedBy (records : List Record) : Nat :=
  (records.map fun record => record.output.length).sum

def writtenBy (records : List Record) : Bytes :=
  records.flatMap Record.output

@[simp] theorem consumedBy_concat (records : List Record) (record : Record) :
    consumedBy (records ++ [record]) = consumedBy records + record.consumed := by
  simp [consumedBy]

@[simp] theorem producedBy_concat (records : List Record) (record : Record) :
    producedBy (records ++ [record]) =
      producedBy records + record.output.length := by
  simp [producedBy]

@[simp] theorem writtenBy_concat (records : List Record) (record : Record) :
    writtenBy (records ++ [record]) = writtenBy records ++ record.output := by
  simp [writtenBy]

private theorem length_writtenBy (records : List Record) :
    (writtenBy records).length = producedBy records :=
  List.length_flatMap

namespace OneShot

/-- A call is given what all the calls before it left, and they left no less than
nothing. -/
structure TakesUp (input : Bytes) (capacity : Nat) (before : List Record)
    (record : Record) : Prop where
  consumed_le : consumedBy before ≤ input.length
  produced_le : producedBy before ≤ capacity
  input_eq : record.input = input.drop (consumedBy before)
  room_eq : record.room = capacity - producedBy before

/-- What is answered after the last call. An engine that stands still gets a verdict by how
much was consumed and produced. -/
inductive Closes (refusal : Option String → CodecError)
    (verdict : (consumed produced : Nat) → CodecError) (before : List Record) :
    Record → Except CodecError Bytes → Prop
  | refused {input : Bytes} {room : Nat} (words : Option String) :
      Closes refusal verdict before ⟨input, room, .error words⟩ (.error (refusal words))
  | ended {input : Bytes} {room : Nat} {step : Step input room}
      (ended : step.status = .streamEnd) :
      Closes refusal verdict before ⟨input, room, .ok step⟩
        (.ok (writtenBy before ++ step.output))
  | stuck {input : Bytes} {room : Nat} {step : Step input room}
      (going : step.status ≠ .streamEnd) (idle : step.IsIdle) :
      Closes refusal verdict before ⟨input, room, .ok step⟩
        (.error (verdict (consumedBy before) (producedBy before)))

structure Underway (input : Bytes) (capacity : Nat) (records : List Record)
    (rest : Bytes) (room : Nat) (written : Bytes) : Prop where
  takesUp (before : List Record) (record : Record) (after : List Record) :
    records = before ++ record :: after → TakesUp input capacity before record
  goesOn (record : Record) : record ∈ records → record.GoesOn
  consumed_add : consumedBy records + rest.length = input.length
  produced_add : producedBy records + room = capacity
  rest_eq : rest = input.drop (consumedBy records)
  written_eq : written = writtenBy records
  length_le : records.length ≤ consumedBy records + producedBy records

/-- All calls, with the answer that comes of them. -/
structure Tiles (refusal : Option String → CodecError)
    (verdict : (consumed produced : Nat) → CodecError) (input : Bytes)
    (capacity : Nat) (records : List Record) (result : Except CodecError Bytes) :
    Prop where
  takesUp (before : List Record) (record : Record) (after : List Record) :
    records = before ++ record :: after → TakesUp input capacity before record
  consumed_le : consumedBy records ≤ input.length
  produced_le : producedBy records ≤ capacity
  length_le : records.length ≤ consumedBy records + producedBy records + 1
  closes : ∃ before last, records = before ++ [last] ∧
    (∀ record ∈ before, record.GoesOn) ∧ Closes refusal verdict before last result

def deflateRefusal (words : Option String) : CodecError :=
  .backend Engine.engineName "deflate" (engineWords words)

def inflateRefusal (words : Option String) : CodecError :=
  .corruptInput (.inflate words)

def deflateVerdict (length capacity : Nat) (_consumed _produced : Nat) : CodecError :=
  .bufferTooSmall codecName length capacity

def inflateVerdict (length capacity : Nat) (consumed produced : Nat) : CodecError :=
  if produced = capacity then .bufferTooSmall codecName length capacity
  else .corruptInput (.truncated consumed length)

structure Completes (records : List Record) (bytes : Bytes) : Prop where
  ended : ∃ before last, records = before ++ [last] ∧ last.EndsStream
  bytes_eq : bytes = writtenBy records
  length_eq : bytes.length = producedBy records

variable {refusal : Option String → CodecError}
  {verdict : (consumed produced : Nat) → CodecError} {input rest written : Bytes}
  {capacity room : Nat} {records : List Record} {result : Except CodecError Bytes}

private theorem underway_nil (input : Bytes) (capacity : Nat) :
    Underway input capacity [] input capacity [] where
  takesUp before record after split := by simp at split
  goesOn record member := by cases member
  consumed_add := Nat.zero_add _
  produced_add := Nat.zero_add _
  rest_eq := rfl
  written_eq := rfl
  length_le := Nat.zero_le _

namespace Underway

private theorem takesUp_next
    (underway : Underway input capacity records rest room written)
    (answer : Except (Option String) (Step rest room)) :
    TakesUp input capacity records ⟨rest, room, answer⟩ where
  consumed_le := Nat.le.intro underway.consumed_add
  produced_le := Nat.le.intro underway.produced_add
  input_eq := underway.rest_eq
  room_eq := by
    have added := underway.produced_add
    simp only
    omega

theorem takesUp_concat (underway : Underway input capacity records rest room written)
    (answer : Except (Option String) (Step rest room)) (before : List Record)
    (record : Record) (after : List Record)
    (split : records ++ [⟨rest, room, answer⟩] = before ++ record :: after) :
    TakesUp input capacity before record := by
  rcases List.eq_nil_or_concat after with rfl | ⟨after, last, rfl⟩
  · obtain ⟨rfl, same⟩ := List.append_inj' split rfl
    cases same
    exact underway.takesUp_next answer
  · rw [List.concat_eq_append, ← List.cons_append, ← List.append_assoc] at split
    exact underway.takesUp before record after (List.append_inj' split rfl).1

theorem call (underway : Underway input capacity records rest room written)
    (step : Step rest room) (going : step.status ≠ .streamEnd) (busy : ¬step.IsIdle) :
    Underway input capacity (records ++ [⟨rest, room, .ok step⟩]) step.rest
      step.roomLeft (written ++ step.output) := by
  have goesOn : Record.GoesOn ⟨rest, room, .ok step⟩ := .moved going busy
  have takesUp := underway.takesUp_concat (.ok step)
  obtain ⟨_, gone, consumed_add, produced_add, rest_eq, written_eq, length_le⟩ := underway
  have within : step.consumed ≤ rest.length := step.consumed_le
  have fits : step.output.length ≤ room := step.output_le
  have consumedEq : consumedBy (records ++ [⟨rest, room, .ok step⟩]) =
      consumedBy records + step.consumed := consumedBy_concat _ _
  have producedEq : producedBy (records ++ [⟨rest, room, .ok step⟩]) =
      producedBy records + step.output.length := producedBy_concat _ _
  refine ⟨takesUp, ?goesOn, ?consumed, ?produced, ?rest, ?written, ?length⟩
  case goesOn =>
    intro record member
    rcases List.mem_append.1 member with earlier | new
    · exact gone record earlier
    · cases List.mem_singleton.1 new
      exact goesOn
  case consumed =>
    rw [consumedEq, Transfer.rest, List.length_drop]
    omega
  case produced =>
    rw [producedEq, Transfer.roomLeft]
    omega
  case rest => rw [consumedEq, ← List.drop_drop, ← rest_eq, Transfer.rest]
  case written => rw [written_eq, writtenBy_concat]; rfl
  case length =>
    have moves : 0 < step.consumed + step.output.length := goesOn.moves
    rw [consumedEq, producedEq, List.length_append, List.length_singleton]
    omega

theorem close (underway : Underway input capacity records rest room written)
    {answer : Except (Option String) (Step rest room)}
    (closes : Closes refusal verdict records ⟨rest, room, answer⟩ result) :
    Tiles refusal verdict input capacity (records ++ [⟨rest, room, answer⟩])
      result where
  takesUp := underway.takesUp_concat answer
  consumed_le := by
    have within : Record.consumed ⟨rest, room, answer⟩ ≤ rest.length :=
      Record.consumed_le _
    have added := underway.consumed_add
    rw [consumedBy_concat]
    omega
  produced_le := by
    have fits : (Record.output ⟨rest, room, answer⟩).length ≤ room :=
      Record.length_output_le _
    have added := underway.produced_add
    rw [producedBy_concat]
    omega
  length_le := by
    have fewer := underway.length_le
    rw [consumedBy_concat, producedBy_concat, List.length_append,
      List.length_singleton]
    omega
  closes := ⟨records, _, rfl, underway.goesOn, closes⟩

private theorem verdict_of_full
    (underway : Underway input capacity records rest 0 written) :
    inflateVerdict input.length capacity (consumedBy records) (producedBy records) =
      .bufferTooSmall codecName input.length capacity :=
  if_pos underway.produced_add

private theorem verdict_of_room
    (underway : Underway input capacity records rest room written) (left : room ≠ 0) :
    inflateVerdict input.length capacity (consumedBy records) (producedBy records) =
      .corruptInput (.truncated (input.length - rest.length) input.length) := by
  have consumed_add := underway.consumed_add
  have produced_add := underway.produced_add
  have consumed : consumedBy records = input.length - rest.length := by omega
  rw [← consumed]
  exact if_neg (by omega)

end Underway

namespace Tiles

variable {bytes : Bytes}

theorem calls_le (tiles : Tiles refusal verdict input capacity records result) :
    records.length ≤ input.length + capacity + 1 := by
  have few := tiles.length_le
  have within := tiles.consumed_le
  have fits := tiles.produced_le
  omega

theorem ok_iff (tiles : Tiles refusal verdict input capacity records result) :
    result = .ok bytes ↔ Completes records bytes := by
  obtain ⟨before, last, rfl, goesOn, closes⟩ := tiles.closes
  constructor
  · rintro rfl
    cases closes with
    | ended ended =>
        refine ⟨⟨before, _, rfl, .ended ended⟩, ?_, ?_⟩
        · rw [writtenBy_concat]; rfl
        · rw [← length_writtenBy, writtenBy_concat]; rfl
  · rintro ⟨⟨_, _, split, ends⟩, rfl, _⟩
    obtain ⟨-, same⟩ := List.append_inj' split rfl
    cases same
    cases ends with
    | ended ended =>
        cases closes with
        | ended => rw [writtenBy_concat]; rfl
        | stuck going => exact absurd ended going

end Tiles

variable {ε ι : Type} [DeflateEngine ε] [InflateEngine ι]

theorem tiles_of_deflateFrom (tooSmall : CodecError) (recorded : Recorded ε)
    (rest : Bytes) (room : Nat) (written : Bytes) :
    Underway input capacity recorded.records rest room written →
      Tiles deflateRefusal (fun _ _ => tooSmall) input capacity
        (deflateFrom tooSmall recorded rest room written).2.records
        (deflateFrom tooSmall recorded rest room written).1 := by
  fun_induction deflateFrom tooSmall recorded rest room written with
  | case1 recorded rest room written error next ran =>
      intro underway
      obtain ⟨words, failed, rfl⟩ := Engine.run_of_deflate_error ran
      rw [(Recorded.run_eq failed).2]
      exact underway.close (.refused words)
  | case2 recorded rest room written step next ran written' ended =>
      intro underway
      simp only [written', underway.written_eq]
      rw [(Recorded.run_eq (Engine.run_of_deflate_ok ran)).2]
      exact underway.close (.ended ended)
  | case3 recorded rest room written step next ran going idle =>
      intro underway
      rw [(Recorded.run_eq (Engine.run_of_deflate_ok ran)).2]
      exact underway.close (.stuck going idle)
  | case4 recorded rest room written step next ran written' going busy induction =>
      intro underway
      apply induction
      rw [(Recorded.run_eq (Engine.run_of_deflate_ok ran)).2]
      exact underway.call step going busy

theorem tiles_of_inflateFrom (recorded : Recorded ι) (rest : Bytes) (room : Nat)
    (written : Bytes) :
    Underway input capacity recorded.records rest room written →
      Tiles inflateRefusal (inflateVerdict input.length capacity) input capacity
        (inflateFrom input.length capacity recorded rest room written).2.records
        (inflateFrom input.length capacity recorded rest room written).1 := by
  fun_induction inflateFrom input.length capacity recorded rest room written with
  | case1 recorded rest room written error next ran =>
      intro underway
      obtain ⟨words, failed, rfl⟩ := Engine.run_of_inflate_error ran
      rw [(Recorded.inflateRun_eq failed).2]
      exact underway.close (.refused words)
  | case2 recorded rest room written step next ran written' ended =>
      intro underway
      simp only [written', underway.written_eq]
      rw [(Recorded.inflateRun_eq (Engine.run_of_inflate_ok ran)).2]
      exact underway.close (.ended ended)
  | case3 recorded rest written step next ran going idle =>
      intro underway
      rw [(Recorded.inflateRun_eq (Engine.run_of_inflate_ok ran)).2]
      rw [← underway.verdict_of_full]
      exact underway.close (.stuck going idle)
  | case4 recorded rest room written step next ran going idle left =>
      intro underway
      rw [(Recorded.inflateRun_eq (Engine.run_of_inflate_ok ran)).2]
      rw [← underway.verdict_of_room left]
      exact underway.close (.stuck going idle)
  | case5 recorded rest room written step next ran written' going busy induction =>
      intro underway
      apply induction
      rw [(Recorded.inflateRun_eq (Engine.run_of_inflate_ok ran)).2]
      exact underway.call step going busy

/-- However an engine answers, as long as it keeps within what it is given: the calls
take up where the ones before them left off, there are no more of them than there are
bytes of input and of room and one, and only the end of the stream makes a success. -/
theorem calls_tile (compressor : ε) (decompressor : ι) (input : Bytes) (room : Nat) :
    let deflated := deflate (⟨compressor, []⟩ : Recorded ε) input room
    let inflated := inflate (⟨decompressor, []⟩ : Recorded ι) input room
    deflate compressor input room = (deflated.1, deflated.2.engine) ∧
    inflate decompressor input room = (inflated.1, inflated.2.engine) ∧
    Tiles deflateRefusal (deflateVerdict input.length room) input room
      deflated.2.records deflated.1 ∧
    Tiles inflateRefusal (inflateVerdict input.length room) input room
      inflated.2.records inflated.1 ∧
    deflated.2.records.length ≤ input.length + room + 1 ∧
    inflated.2.records.length ≤ input.length + room + 1 ∧
    (∀ packed, deflated.1 = .ok packed ↔ Completes deflated.2.records packed) ∧
    (∀ content, inflated.1 = .ok content ↔ Completes inflated.2.records content) := by
  intro deflated inflated
  have deflates : Tiles deflateRefusal (deflateVerdict input.length room) input room
      deflated.2.records deflated.1 :=
    tiles_of_deflateFrom _ _ input room [] (underway_nil input room)
  have inflates : Tiles inflateRefusal (inflateVerdict input.length room) input room
      inflated.2.records inflated.1 :=
    tiles_of_inflateFrom _ input room [] (underway_nil input room)
  exact ⟨deflate_recorded ⟨compressor, []⟩ input room,
    inflate_recorded ⟨decompressor, []⟩ input room, deflates, inflates,
    deflates.calls_le, inflates.calls_le, fun _ => deflates.ok_iff,
    fun _ => inflates.ok_iff⟩

end OneShot

end StreamCodec

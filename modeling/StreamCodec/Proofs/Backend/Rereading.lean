import StreamCodec.Proofs.Backend.Selection

namespace StreamCodec

/-! Codecs that are made one after another while the environment changes. Each of them
goes by what the variable holds at that time, as far as it holds a text. -/

namespace Text

def utf8 (text : String) : Bytes :=
  text.toList.flatMap String.utf8EncodeChar

private theorem utf8_eq_iff {text : String} {bytes : Bytes} :
    utf8 text = bytes ↔ text.toByteArray = ⟨bytes.toArray⟩ := by
  have encoded : text.toByteArray = (utf8 text).toByteArray :=
    String.utf8Encode_toList.symm
  have given : (⟨bytes.toArray⟩ : ByteArray) = bytes.toByteArray :=
    ByteArray.ext List.data_toByteArray.symm
  rw [encoded, given, List.toByteArray_inj]

private theorem fromUTF8?_eq_some_iff {text : String} {bytes : Bytes} :
    String.fromUTF8? ⟨bytes.toArray⟩ = some text ↔ utf8 text = bytes := by
  rw [utf8_eq_iff, String.fromUTF8?]
  constructor
  · intro decoded
    split at decoded
    · cases decoded
      rfl
    · cases decoded
  · intro encoded
    have valid : ByteArray.IsValidUTF8 ⟨bytes.toArray⟩ := encoded ▸ text.isValidUTF8
    rw [dif_pos valid, Option.some.injEq]
    exact String.toByteArray_inj.1 encoded.symm

private theorem utf8_eq_nil_iff {text : String} : utf8 text = [] ↔ text = "" := by
  rw [utf8_eq_iff]
  exact @String.toByteArray_inj text ""

end Text

namespace Backend

variable {ε ι δ : Type}

/-- Of these bytes no setting can be read. -/
def Unreadable (bytes : Bytes) : Prop :=
  ∀ text, Text.utf8 text ≠ bytes

namespace Setting

variable {held : Option Bytes}

theorem ofEnvironment_eq_some_iff {text : String} :
    (ofEnvironment held).value = some text ↔ held = some (Text.utf8 text) := by
  rw [ofEnvironment, Option.bind_eq_some_iff]
  constructor
  · rintro ⟨bytes, rfl, decoded⟩
    rw [Text.fromUTF8?_eq_some_iff.1 decoded]
  · rintro rfl
    exact ⟨_, rfl, Text.fromUTF8?_eq_some_iff.2 rfl⟩

theorem ofEnvironment_eq_none_iff :
    (ofEnvironment held).value = none ↔
      held = none ∨ ∃ bytes, held = some bytes ∧ Unreadable bytes := by
  rw [Option.eq_none_iff_forall_ne_some]
  simp only [ne_eq, ofEnvironment_eq_some_iff]
  cases held with
  | none => simp
  | some bytes => simp [Unreadable, eq_comm]

end Setting

structure Surroundings (δ : Type) where
  held : Option Bytes
  installed : Option δ

inductive Act (δ : Type)
  | set (bytes : Bytes)
  | unset
  | install (driver : δ)
  | uninstall
  | make (algorithm : Algorithm) (level : Level) (format : Format)

namespace Act

def held? : Act δ → Option (Option Bytes)
  | set bytes => some (some bytes)
  | unset => some none
  | _ => none

def installed? : Act δ → Option (Option δ)
  | install driver => some (some driver)
  | uninstall => some none
  | _ => none

end Act

/-- The value of the latest act that has one. -/
def latest (value? : Act δ → Option β) (start : β) (past : List (Act δ)) : β :=
  (past.reverse.findSome? value?).getD start

private theorem latest_cons (value? : Act δ → Option β) (start : β) (act : Act δ)
    (past : List (Act δ)) :
    latest value? start (act :: past) =
      latest value? ((value? act).getD start) past := by
  rw [latest, List.reverse_cons, List.findSome?_append, Option.getD_or]
  cases valueEq : value? act <;> simp [latest, valueEq]

abbrev Made (ε ι δ : Type) := Except CodecError (Codec ε ι δ) × List Log.Event

namespace Surroundings

def act (here : Surroundings δ) : Act δ → Surroundings δ
  | .set bytes => { here with held := some bytes }
  | .unset => { here with held := none }
  | .install driver => { here with installed := some driver }
  | .uninstall => { here with installed := none }
  | .make _ _ _ => here

def afterAll (here : Surroundings δ) (acts : List (Act δ)) : Surroundings δ :=
  acts.foldl act here

def made? (build : Build) (here : Surroundings δ) : Act δ → Option (Made ε ι δ)
  | .make algorithm level format =>
      some (Codec.make build (.ofEnvironment here.held) here.installed algorithm level
        format)
  | _ => none

def madeBy (build : Build) (here : Surroundings δ) :
    List (Act δ) → List (Made ε ι δ)
  | [] => []
  | act :: acts => (here.made? build act).toList ++ (here.act act).madeBy build acts

theorem madeBy_append (build : Build) (here : Surroundings δ)
    (past later : List (Act δ)) :
    (here.madeBy build (past ++ later) : List (Made ε ι δ)) =
      here.madeBy build past ++ (here.afterAll past).madeBy build later := by
  induction past generalizing here with
  | nil => rfl
  | cons act past induction =>
      rw [List.cons_append, madeBy, induction, madeBy, List.append_assoc]
      rfl

theorem act_eq (here : Surroundings δ) (act : Act δ) :
    here.act act =
      ⟨act.held?.getD here.held, act.installed?.getD here.installed⟩ := by
  cases act <;> rfl

theorem afterAll_eq (here : Surroundings δ) (past : List (Act δ)) :
    here.afterAll past =
      ⟨latest Act.held? here.held past,
        latest Act.installed? here.installed past⟩ := by
  induction past generalizing here with
  | nil => rfl
  | cons act past induction =>
      rw [latest_cons, latest_cons, afterAll, List.foldl_cons, ← afterAll, induction,
        act_eq]

end Surroundings

def warnings (log : List Log.Event) : List Log.Event :=
  log.filter fun event => event.severity = .warning

namespace Choice

variable (choice : Choice δ)

private theorem warnings_log :
    warnings choice.log = choice.warning.toList.map .backendNotHonored := by
  rcases choice with (_ | warning) | driver <;> rfl

private theorem warnings_eq_nil_iff :
    warnings choice.log = [] ↔ choice.warning = none := by
  rw [warnings_log]
  cases choice.warning <;> simp

private theorem length_warnings_eq_one_iff :
    (warnings choice.log).length = 1 ↔ choice.warning ≠ none := by
  rw [warnings_log]
  cases choice.warning <;> simp

end Choice

/-- What becomes of that which the variable holds. -/
inductive Heard (build : Build) (installed : Option δ) (format : Format) :
    Option Bytes → Choice δ → Prop
  | unset : Heard build installed format none (.software none)
  | unreadable {bytes : Bytes} (unreadable : Unreadable bytes) :
      Heard build installed format (some bytes) (.software none)
  | empty : Heard build installed format (some []) (.software none)
  | unfollowed {text : String} {warning : Warning}
      (reason : Unfollowed build installed format text warning) :
      Heard build installed format (some (Text.utf8 text)) (.software (some warning))
  | followed {text : String} {driver : δ}
      (followed : Followed build installed format text driver) :
      Heard build installed format (some (Text.utf8 text)) (.accelerated driver)

private theorem heard_choose (build : Build) (installed : Option δ) (format : Format)
    (held : Option Bytes) :
    Heard build installed format held
      (Setting.choose (.ofEnvironment held) build installed format) := by
  have chosen : Chosen build installed format (Setting.ofEnvironment held).value
      (Setting.choose (.ofEnvironment held) build installed format) :=
    chosen_choose build installed format _
  generalize valueEq : (Setting.ofEnvironment held).value = value,
    Setting.choose (.ofEnvironment held) build installed format = choice at chosen
  cases chosen with
  | unset =>
      rcases Setting.ofEnvironment_eq_none_iff.1 valueEq with rfl | ⟨bytes, rfl, unreadable⟩
      · exact .unset
      · exact .unreadable unreadable
  | empty =>
      rw [Setting.ofEnvironment_eq_some_iff.1 valueEq, Text.utf8_eq_nil_iff.2 rfl]
      exact .empty
  | unfollowed reason =>
      rw [Setting.ofEnvironment_eq_some_iff.1 valueEq]
      exact .unfollowed reason
  | followed followed =>
      rw [Setting.ofEnvironment_eq_some_iff.1 valueEq]
      exact .followed followed

namespace Heard

variable {build : Build} {installed : Option δ} {format : Format} {held : Option Bytes}
  {choice : Choice δ}

theorem warned_iff (heard : Heard build installed format held choice) :
    choice.warning ≠ none ↔
      choice.kind = .software ∧ ∃ text, held = some (Text.utf8 text) ∧ text ≠ "" := by
  cases heard with
  | unset => simp [Choice.warning]
  | unreadable unreadable =>
      simp only [Choice.warning, ne_eq, not_true_eq_false, false_iff]
      rintro ⟨-, text, heldEq, -⟩
      exact unreadable text (Option.some.inj heldEq).symm
  | empty =>
      simp only [Choice.warning, ne_eq, not_true_eq_false, false_iff]
      rintro ⟨-, text, heldEq, nonempty⟩
      exact nonempty (Text.utf8_eq_nil_iff.1 (Option.some.inj heldEq).symm)
  | unfollowed reason =>
      simp only [Choice.warning, Choice.kind, true_and, ne_eq, reduceCtorEq,
        not_false_eq_true, true_iff]
      exact ⟨_, rfl, reason.ne_empty⟩
  | followed => simp [Choice.warning, Choice.kind]

theorem silent_iff (heard : Heard build installed format held choice) :
    choice.warning = none ↔
      held = none ∨ held = some [] ∨ choice.kind = .accelerated ∨
        ∃ bytes, held = some bytes ∧ Unreadable bytes := by
  cases heard with
  | unset => simp [Choice.warning]
  | unreadable unreadable => simp [Choice.warning, unreadable]
  | empty => simp [Choice.warning]
  | unfollowed reason =>
      simp [Choice.warning, Choice.kind, Unreadable, Text.utf8_eq_nil_iff,
        reason.ne_empty]
  | followed => simp [Choice.warning, Choice.kind]

theorem dropped_iff (heard : Heard build installed format held choice) :
    (held ≠ none ∧ held ≠ some [] ∧ choice.kind ≠ .accelerated ∧
        choice.warning = none) ↔
      ∃ bytes, held = some bytes ∧ Unreadable bytes := by
  rw [heard.silent_iff]
  constructor
  · rintro ⟨given, full, software, unset | empty | accelerated | dropped⟩
    · exact absurd unset given
    · exact absurd empty full
    · exact absurd accelerated software
    · exact dropped
  · rintro ⟨bytes, rfl, unreadable⟩
    have nonempty : bytes ≠ [] := (unreadable "").symm
    have software : choice.kind ≠ .accelerated := by
      cases heard with
      | followed => exact absurd rfl (unreadable _)
      | _ => exact Kind.noConfusion
    exact ⟨Option.some_ne_none bytes, fun empty => nonempty (Option.some.inj empty), software,
      .inr (.inr (.inr ⟨bytes, rfl, unreadable⟩))⟩

end Heard

open Surroundings

/-- Whatever came before, what is made goes by the value and the driver that were put
there last. Software that was not asked for comes with one warning, unless the value is
no text: that is taken for no value, without a word. -/
theorem made_by_latest (build : Build) (start : Surroundings δ)
    (past later : List (Act δ)) (level : Level) (format : Format) :
    let held := latest Act.held? start.held past
    let installed := latest Act.installed? start.installed past
    let choice := Setting.choose (.ofEnvironment held) build installed format
    let made : Made ε ι δ :=
      Codec.make build (.ofEnvironment held) installed .gzip level format
    start.madeBy build (past ++ .make .gzip level format :: later) =
      start.madeBy build past ++
        made :: Surroundings.madeBy build ⟨held, installed⟩ later ∧
    Codec.Answers level format choice made.1 ∧
    Heard build installed format held choice ∧
    warnings made.2 = choice.warning.toList.map .backendNotHonored ∧
    ((warnings made.2).length = 1 ↔
      choice.kind = .software ∧
        ∃ text, held = some (Text.utf8 text) ∧ text ≠ "") ∧
    (warnings made.2 = [] ↔
      held = none ∨ held = some [] ∨ choice.kind = .accelerated ∨
        ∃ bytes, held = some bytes ∧ Unreadable bytes) ∧
    ((held ≠ none ∧ held ≠ some [] ∧ choice.kind ≠ .accelerated ∧
        (warnings made.2).length ≠ 1) ↔
      ∃ bytes, held = some bytes ∧ Unreadable bytes) := by
  intro held installed choice made
  have heard : Heard build installed format held choice :=
    heard_choose build installed format held
  have warned : (warnings made.2).length = 1 ↔ choice.warning ≠ none :=
    choice.length_warnings_eq_one_iff
  have silent : warnings made.2 = [] ↔ choice.warning = none :=
    choice.warnings_eq_nil_iff
  have run : start.madeBy build (past ++ .make .gzip level format :: later) =
      start.madeBy build past ++
        made :: Surroundings.madeBy build ⟨held, installed⟩ later := by
    rw [madeBy_append, afterAll_eq]
    rfl
  refine ⟨run, Codec.answers_ofChoice choice level format, heard, choice.warnings_log,
    warned.trans heard.warned_iff, silent.trans heard.silent_iff, ?_⟩
  rw [ne_eq _ 1, warned, not_not]
  exact heard.dropped_iff

/-- A value that is one byte, which begins no character. -/
theorem warning_not_always_given :
    ¬∀ (δ : Type) (build : Build) (start : Surroundings δ) (past : List (Act δ))
      (level : Level) (format : Format),
      let held := latest Act.held? start.held past
      let installed := latest Act.installed? start.installed past
      let choice := Setting.choose (.ofEnvironment held) build installed format
      let made : Made Unit Unit δ :=
        Codec.make build (.ofEnvironment held) installed .gzip level format
      held ≠ none → held ≠ some [] → choice.kind ≠ .accelerated →
        (warnings made.2).length = 1 := by
  intro always
  have warned := always Unit ⟨true⟩ ⟨none, some ()⟩ [.set [0xff]] .default .gzip
    nofun nofun (by decide +kernel)
  exact absurd warned (by decide +kernel)

end Backend

end StreamCodec

import Mathlib.Data.List.Forall2
import StreamCodec.Codec.Factory

namespace StreamCodec

/-! The backend that a setting gets, and the codec that is made of it. A setting that is
not followed costs one warning and never a codec. -/

namespace Text

/-- The text is the label, with any of its capitals written small. -/
def Spells (text label : String) : Prop :=
  List.Forall₂
    (fun character letter => character = letter ∨ character = letter.toLower)
    text.toList label.toList

private theorem toLower_eq_iff {character letter : Char} (capital : letter.isUpper) :
    character.toLower = letter.toLower ↔
      character = letter ∨ character = letter.toLower := by
  have capital : letter.val ≥ 'A'.val ∧ letter.val ≤ 'Z'.val :=
    of_decide_eq_true capital
  have small : letter.toLower = ⟨letter.val + 32, _⟩ := dif_pos capital
  have settled : letter.toLower.toLower = letter.toLower := by
    rw [small]
    refine dif_neg fun upper => ?_
    simp only [UInt32.le_iff_toNat_le, UInt32.toNat_add, Char.reduceVal,
      UInt32.reduceToNat] at upper capital
    omega
  constructor
  · intro same
    by_cases upper : character.val ≥ 'A'.val ∧ character.val ≤ 'Z'.val
    · left
      have lowered : character.toLower = ⟨character.val + 32, _⟩ := dif_pos upper
      rw [small, lowered] at same
      exact Char.ext (UInt32.add_left_inj _ |>.1 (congrArg Char.val same))
    · right
      have unchanged : character.toLower = character := dif_neg upper
      rwa [unchanged] at same
  · rintro (rfl | rfl)
    · rfl
    · exact settled

private theorem lowered_eq_iff {text label : List Char}
    (capitals : ∀ letter ∈ label, letter.isUpper) :
    lowered text = lowered label ↔
      List.Forall₂
        (fun character letter => character = letter ∨ character = letter.toLower)
        text label := by
  induction label generalizing text with
  | nil => simp [lowered]
  | cons letter label induction =>
      cases text with
      | nil => simp [lowered]
      | cons character text =>
          rw [List.forall_mem_cons] at capitals
          rw [List.forall₂_cons, ← toLower_eq_iff capitals.1,
            ← induction capitals.2]
          simp [lowered]

theorem sameLetters_iff_spells {text label : String}
    (capitals : ∀ letter ∈ label.toList, letter.isUpper) :
    sameLetters text label = true ↔ Spells text label := by
  rw [sameLetters, beq_iff_eq, lowered_eq_iff capitals, Spells]

theorem Spells.ne_empty {text label : String} (spells : Spells text label)
    (nonempty : label ≠ "") : text ≠ "" := by
  rintro rfl
  have nothing := List.forall₂_nil_left_iff.1 spells
  exact nonempty (String.toList_inj.1 nothing)

end Text

namespace Backend

variable {δ : Type}

/-- Why a text does not get the accelerator: the first of the reasons that applies. -/
inductive Unfollowed (build : Build) (installed : Option δ) (format : Format)
    (text : String) : Warning → Prop
  | otherText (nonempty : text ≠ "") (other : ¬Text.Spells text acceleratorLabel) :
      Unfollowed build installed format text (.invalidBackend text)
  | notBuilt (label : Text.Spells text acceleratorLabel)
      (missing : build.accelerator = false) :
      Unfollowed build installed format text (.notBuilt acceleratorLabel)
  | otherFormat (label : Text.Spells text acceleratorLabel)
      (built : build.accelerator = true) (other : format ≠ .gzip) :
      Unfollowed build installed format text
        (.unsupportedFormat acceleratorLabel format)
  | noDriver (label : Text.Spells text acceleratorLabel)
      (built : build.accelerator = true) (gzip : format = .gzip)
      (missing : installed = none) :
      Unfollowed build installed format text (.noDriver acceleratorLabel)

structure Followed (build : Build) (installed : Option δ) (format : Format)
    (text : String) (driver : δ) : Prop where
  label : Text.Spells text acceleratorLabel
  built : build.accelerator = true
  gzip : format = .gzip
  installed_eq : installed = some driver

inductive Chosen (build : Build) (installed : Option δ) (format : Format) :
    Option String → Choice δ → Prop
  | unset : Chosen build installed format none (.software none)
  | empty : Chosen build installed format (some "") (.software none)
  | unfollowed {text : String} {warning : Warning}
      (reason : Unfollowed build installed format text warning) :
      Chosen build installed format (some text) (.software (some warning))
  | followed {text : String} {driver : δ}
      (followed : Followed build installed format text driver) :
      Chosen build installed format (some text) (.accelerated driver)

variable {build : Build} {installed : Option δ} {format : Format} {text : String}
  {value : Option String} {choice : Choice δ} {warning : Warning}

private theorem ne_empty_of_label (label : Text.Spells text acceleratorLabel) :
    text ≠ "" :=
  label.ne_empty (by decide)

theorem Unfollowed.ne_empty (reason : Unfollowed build installed format text warning) :
    text ≠ "" := by
  cases reason with
  | otherText nonempty other => exact nonempty
  | notBuilt label => exact ne_empty_of_label label
  | otherFormat label => exact ne_empty_of_label label
  | noDriver label => exact ne_empty_of_label label

private theorem Unfollowed.unique {other : Warning}
    (reason : Unfollowed build installed format text warning)
    (another : Unfollowed build installed format text other) : warning = other := by
  cases reason <;> cases another <;> simp_all

private theorem Unfollowed.not_followed {driver : δ}
    (reason : Unfollowed build installed format text warning) :
    ¬Followed build installed format text driver := by
  rintro ⟨label, built, gzip, installed_eq⟩
  cases reason <;> simp_all

theorem chosen_choose (build : Build) (installed : Option δ) (format : Format)
    (value : Option String) :
    Chosen build installed format value
      (Setting.choose ⟨value⟩ build installed format) := by
  have capitals : ∀ letter ∈ acceleratorLabel.toList, letter.isUpper :=
    List.all_eq_true.1 (by decide)
  rcases value with _ | text
  · exact .unset
  rcases Decidable.em (text = "") with rfl | nonempty
  · exact .empty
  simp only [Setting.choose, Option.getD_some, if_neg nonempty]
  by_cases same : Text.sameLetters text acceleratorLabel = true
  · have label := (Text.sameLetters_iff_spells capitals).1 same
    rw [if_pos same]
    unfold chooseAccelerator
    by_cases built : build.accelerator = true
    · rw [if_neg (by simp [built])]
      by_cases gzip : format = .gzip
      · rw [if_neg (not_not_intro gzip)]
        cases installed with
        | none => exact .unfollowed (.noDriver label built gzip rfl)
        | some driver => exact .followed ⟨label, built, gzip, rfl⟩
      · rw [if_pos gzip]
        exact .unfollowed (.otherFormat label built gzip)
    · rw [if_pos (by simp [built])]
      exact .unfollowed (.notBuilt label (by simpa using built))
  · have other : ¬Text.Spells text acceleratorLabel := fun label =>
      same ((Text.sameLetters_iff_spells capitals).2 label)
    rw [if_neg same]
    exact .unfollowed (.otherText nonempty other)

namespace Chosen

theorem accelerated_iff (chosen : Chosen build installed format value choice)
    (driver : δ) :
    choice = .accelerated driver ↔
      ∃ text, value = some text ∧ Followed build installed format text driver := by
  constructor
  · rintro rfl
    cases chosen with
    | followed followed => exact ⟨_, rfl, followed⟩
  · rintro ⟨text, rfl, followed⟩
    cases chosen with
    | empty => exact absurd rfl (ne_empty_of_label followed.label)
    | unfollowed reason => exact absurd followed reason.not_followed
    | followed other =>
        have same := other.installed_eq.symm.trans followed.installed_eq
        rw [Option.some.inj same]

theorem warning_eq_some_iff (chosen : Chosen build installed format value choice)
    (warning : Warning) :
    choice.warning = some warning ↔
      ∃ text, value = some text ∧
        Unfollowed build installed format text warning := by
  constructor
  · intro warned
    cases chosen with
    | unset => cases warned
    | empty => cases warned
    | unfollowed reason =>
        cases warned
        exact ⟨_, rfl, reason⟩
    | followed => cases warned
  · rintro ⟨text, rfl, reason⟩
    cases chosen with
    | empty => exact absurd rfl reason.ne_empty
    | unfollowed other => rw [Choice.warning, other.unique reason]
    | followed followed => exact absurd followed reason.not_followed

theorem warning_eq_none_iff (chosen : Chosen build installed format value choice) :
    choice.warning = none ↔
      value = none ∨ value = some "" ∨ choice.kind = .accelerated := by
  cases chosen with
  | unset => simp [Choice.warning]
  | empty => simp [Choice.warning]
  | unfollowed reason => simp [Choice.warning, Choice.kind, reason.ne_empty]
  | followed => simp [Choice.warning, Choice.kind]

end Chosen

private theorem Choice.kind_eq_software_iff (choice : Choice δ) :
    choice.kind = .software ↔ ∀ driver, choice ≠ .accelerated driver := by
  cases choice <;> simp [Choice.kind]

end Backend

def Log.Event.entry (event : Event) : Severity × String × String × String :=
  (event.severity, event.message, event.detail)

private theorem Backend.Choice.entries_log (choice : Choice δ) :
    choice.log.map Log.Event.entry =
      choice.warning.toList.map
          (fun warning => (.warning, warning.text, "setting", variableName)) ++
        [(.debug, "selected gzip backend", "backend", choice.kind.label)] := by
  rw [log, List.map_append, Option.toList_map, List.map_map]
  rfl

def Level.asked : Level → Int
  | .default => 9
  | .exactly number => number

private theorem SoftwareCodec.new_eq {ε ι : Type} (level : Level) (format : Format) :
    (new level format : Except CodecError (SoftwareCodec ε ι)) =
      if 0 ≤ level.asked ∧ level.asked ≤ 9 then
        .ok ⟨level.asked, format, .idle⟩
      else .error (.backendInit "gzip" (.levelOutOfRange level.asked 0 9)) := by
  cases level with
  | default => rfl
  | exactly number =>
      have resolved : (Level.exactly number).resolve Algorithm.gzip.profile =
          if 0 ≤ number ∧ number ≤ 9 then .ok number
          else .error (.backendInit "gzip" (.levelOutOfRange number 0 9)) := rfl
      rw [new, resolved, Level.asked]
      by_cases inRange : 0 ≤ number ∧ number ≤ 9
      · rw [if_pos inRange, if_pos inRange]
        rfl
      · rw [if_neg inRange, if_neg inRange]
        rfl

namespace Codec

open Backend

variable {ε ι δ : Type}

inductive Answers (level : Level) (format : Format) :
    Choice δ → Except CodecError (Codec ε ι δ) → Prop
  | accelerated (driver : δ) :
      Answers level format (.accelerated driver) (.ok (.accelerated ⟨driver⟩))
  | software (warning : Option Warning)
      (inRange : 0 ≤ level.asked ∧ level.asked ≤ 9) :
      Answers level format (.software warning)
        (.ok (.software ⟨level.asked, format, .idle⟩))
  | refused (warning : Option Warning)
      (outside : ¬(0 ≤ level.asked ∧ level.asked ≤ 9)) :
      Answers level format (.software warning)
        (.error (.backendInit "gzip" (.levelOutOfRange level.asked 0 9)))

theorem answers_ofChoice (choice : Choice δ) (level : Level) (format : Format) :
    Answers level format choice
      (ofChoice choice level format : Except CodecError (Codec ε ι δ)) := by
  cases choice with
  | accelerated driver => exact .accelerated driver
  | software warning =>
      simp only [ofChoice, SoftwareCodec.new_eq]
      split
      · next inRange => exact .software warning inRange
      · next outside => exact .refused warning outside

private theorem Answers.error_iff {choice : Choice δ} {level : Level} {format : Format}
    {answer : Except CodecError (Codec ε ι δ)}
    (answers : Answers level format choice answer) :
    (∃ error, answer = .error error) ↔
      choice.kind = .software ∧ ¬(0 ≤ level.asked ∧ level.asked ≤ 9) := by
  cases answers with
  | accelerated driver => simp [Choice.kind]
  | software warning inRange => simp [inRange]
  | refused warning outside => simp [Choice.kind, outside]

/-- The accelerator is chosen for its label alone, with gzip framing, in a build that has
it, while a driver is installed. Everything else gets software, with the one warning that
fits unless nothing was asked for, and only its level can keep a codec from being made. -/
theorem make_gzip_follows_setting (build : Build) (value : Option String)
    (installed : Option δ) (format : Format) (level : Level) :
    let choice := Setting.choose ⟨value⟩ build installed format
    let made : Except CodecError (Codec ε ι δ) × List Log.Event :=
      make build ⟨value⟩ installed .gzip level format
    (∀ driver, choice = .accelerated driver ↔
      ∃ text, value = some text ∧ Followed build installed format text driver) ∧
    (choice.kind = .software ↔ ∀ driver, choice ≠ .accelerated driver) ∧
    (choice.warning = none ↔
      value = none ∨ value = some "" ∨ choice.kind = .accelerated) ∧
    (∀ warning, choice.warning = some warning ↔
      ∃ text, value = some text ∧ Unfollowed build installed format text warning) ∧
    made.2 = choice.log ∧
    choice.log.map Log.Event.entry =
      choice.warning.toList.map
          (fun warning => (.warning, warning.text, "setting", "CODEC_GZIP_BACKEND")) ++
        [(.debug, "selected gzip backend", "backend", choice.kind.label)] ∧
    ((∃ error, made.1 = .error error) ↔
      choice.kind = .software ∧ ¬(0 ≤ level.asked ∧ level.asked ≤ 9)) ∧
    Answers level format choice made.1 := by
  intro choice made
  have chosen : Chosen build installed format value choice :=
    chosen_choose build installed format value
  have answers : Answers level format choice made.1 :=
    answers_ofChoice choice level format
  refine ⟨chosen.accelerated_iff, choice.kind_eq_software_iff,
    chosen.warning_eq_none_iff, chosen.warning_eq_some_iff, rfl,
    choice.entries_log, answers.error_iff, answers⟩

end Codec

end StreamCodec

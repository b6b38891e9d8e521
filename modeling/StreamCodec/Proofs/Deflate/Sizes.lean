import Mathlib.Algebra.BigOperators.Group.List.Basic
import StreamCodec.Proofs.Deflate.Whole

namespace StreamCodec.Deflate

open Block

/-! The size of a draft is the number of its bits, and a block is never longer than
in the codes that need no description. -/

private theorem classIndex_lt {classes : List NumberClass} (number : Nat)
    (nonempty : classes ≠ []) : classIndex classes number < classes.length := by
  have begun := (classes.takeWhile_prefix fun entry => entry.base ≤ number).length_le
  have positive := List.length_pos_iff.2 nonempty
  unfold classIndex
  omega

private theorem lengthSymbol_lt (length : Nat) : lengthSymbol length < 286 := by
  have inside : classIndex lengthClasses length < 29 :=
    classIndex_lt length (by decide)
  unfold lengthSymbol endOfBlock
  omega

private theorem distanceSymbol_lt (distance : Nat) : distanceSymbol distance < 30 :=
  classIndex_lt distance (by decide)

namespace Codes

variable (codes : Codes)

private theorem written_eq_sum (counts : Array Nat) (table : Array Bits) :
    size.written counts table =
      ((counts.toList.zip table.toList).map fun entry =>
        entry.1 * entry.2.length).sum := by
  rw [size.written, List.sum_eq_foldl, List.foldl_map]

private theorem written_replicate_zero (symbols : Nat) (table : Array Bits) :
    size.written (Array.replicate symbols 0) table = 0 := by
  rw [written_eq_sum]
  apply List.sum_eq_zero
  intro bits member
  obtain ⟨entry, inside, rfl⟩ := List.mem_map.1 member
  have unused := (List.of_mem_zip inside).1
  rw [Array.toList_replicate] at unused
  rw [List.eq_of_mem_replicate unused, Nat.zero_mul]

private theorem sum_zip_modify (counts : List Nat) (table : List Bits) {symbol : Nat}
    (inside : symbol < counts.length) :
    (((counts.modify symbol (· + 1)).zip table).map fun entry =>
        entry.1 * entry.2.length).sum =
      ((counts.zip table).map fun entry => entry.1 * entry.2.length).sum +
        (table[symbol]?.getD []).length := by
  induction counts generalizing table symbol with
  | nil => exact absurd inside (Nat.not_lt_zero _)
  | cons count counts induction =>
      cases table with
      | nil => simp
      | cons codeword table =>
          cases symbol with
          | zero =>
              simp only [List.modify_zero_cons, List.zip_cons_cons, List.map_cons,
                List.sum_cons, List.getElem?_cons_zero, Option.getD_some, Nat.add_mul]
              omega
          | succ symbol =>
              have later := induction table (Nat.lt_of_succ_lt_succ inside)
              simp only [List.modify_succ_cons, List.zip_cons_cons, List.map_cons,
                List.sum_cons, List.getElem?_cons_succ, later, Nat.add_assoc]

private theorem written_modify {counts : Array Nat} (table : Array Bits) {symbol : Nat}
    (inside : symbol < counts.size) :
    size.written (counts.modify symbol (· + 1)) table =
      size.written counts table + (table.getD symbol []).length := by
  rw [written_eq_sum, written_eq_sum, Array.toList_modify,
    sum_zip_modify counts.toList table.toList inside]
  simp

private theorem modify_replicate_zero (symbols symbol : Nat) :
    (Array.replicate symbols 0).modify symbol (· + 1) =
      (Array.replicate symbols 0).setIfInBounds symbol 1 := by
  apply Array.ext_getElem?
  intro other
  rw [Array.getElem?_modify, Array.getElem?_setIfInBounds, Array.getElem?_replicate,
    Array.size_replicate]
  split
  · next same =>
      subst same
      split <;> rfl
  · rfl

theorem size_start : codes.size .start =
    codes.head.length + (codes.literalBits endOfBlock).length := by
  have inside : endOfBlock < (Array.replicate 286 0).size := by
    rw [Array.size_replicate]
    decide
  have ending := written_modify codes.literals inside
  rw [modify_replicate_zero, written_replicate_zero, Nat.zero_add] at ending
  rw [size, Tally.start, ending, written_replicate_zero]
  rfl

theorem size_add {tally : Tally} (literals : tally.literals.size = 286)
    (distances : tally.distances.size = 30) (token : Token) :
    codes.size (tally.add token) = codes.size tally + (codes.tokenBits token).length := by
  cases token with
  | literal byte =>
      have inside : byte.toNat < tally.literals.size := by
        have := byte.toNat_lt
        omega
      simp only [size, Tally.add, tokenBits, literalBits, written_modify _ inside]
      omega
  | copy length distance =>
      have lengthInside : lengthSymbol length < tally.literals.size :=
        literals ▸ lengthSymbol_lt length
      have distanceInside : distanceSymbol distance < tally.distances.size :=
        distances ▸ distanceSymbol_lt distance
      simp only [size, Tally.add, tokenBits, literalBits, distanceBits,
        written_modify _ lengthInside, written_modify _ distanceInside,
        List.length_append]
      omega

theorem size_foldl_add (tokens : List Token) {tally : Tally}
    (literals : tally.literals.size = 286) (distances : tally.distances.size = 30) :
    codes.size (tokens.foldl Tally.add tally) =
      codes.size tally + (tokens.flatMap codes.tokenBits).length := by
  induction tokens generalizing tally with
  | nil => rfl
  | cons token tokens induction =>
      have kept : (tally.add token).literals.size = 286 ∧
          (tally.add token).distances.size = 30 := by
        cases token <;> simp [Tally.add, literals, distances]
      rw [List.foldl_cons, induction kept.1 kept.2, codes.size_add literals distances,
        List.flatMap_cons, List.length_append, Nat.add_assoc]

theorem length_blockBits (tokens : List Token) :
    (codes.blockBits tokens).length = codes.size (Tally.ofTokens tokens) := by
  rw [Tally.ofTokens, codes.size_foldl_add tokens (by simp [Tally.start])
    (by simp [Tally.start]), size_start]
  simp only [blockBits, List.length_append]
  omega

private theorem getD_codewordTable (tree : Tree) {symbol symbols : Nat}
    (inside : symbol < symbols) :
    (codewordTable tree symbols).getD symbol [] =
      (tree.codewords.lookup symbol).getD [] := by
  simp [codewordTable, inside]

theorem literalBits_fixed {symbol : Nat}
    (inside : symbol < fixedLiteralLengths.length) :
    fixed.literalBits symbol = (fixedLiterals.codewords.lookup symbol).getD [] := by
  rw [literalBits, fixed, getD_codewordTable fixedLiterals inside]

theorem distanceBits_fixed {symbol : Nat}
    (inside : symbol < fixedDistanceLengths.length) :
    fixed.distanceBits symbol =
      (fixedDistances.codewords.lookup symbol).getD [] := by
  rw [distanceBits, fixed, getD_codewordTable fixedDistances inside]

end Codes

namespace Draft

private theorem ofTokens_cases (tokens : List Token) :
    ∃ codes : Codes, ofTokens tokens = ⟨tokens, codes, codes.size (.ofTokens tokens)⟩ ∧
      codes.size (.ofTokens tokens) ≤ Codes.fixed.size (.ofTokens tokens) := by
  simp only [ofTokens]
  split
  · exact ⟨.fixed, rfl, Nat.le_refl _⟩
  · next codes _ =>
      split
      · next better =>
          simp only [Bool.and_eq_true, decide_eq_true_eq] at better
          exact ⟨codes, rfl, Nat.le_of_lt better.2⟩
      · exact ⟨.fixed, rfl, Nat.le_refl _⟩

theorem length_bits_ofTokens (tokens : List Token) :
    (ofTokens tokens).bits.length = (ofTokens tokens).size := by
  obtain ⟨codes, draftEq, _⟩ := ofTokens_cases tokens
  rw [draftEq]
  exact codes.length_blockBits tokens

private theorem size_ofTokens_le (tokens : List Token) :
    (ofTokens tokens).size ≤ (Codes.fixed.blockBits tokens).length := by
  obtain ⟨codes, draftEq, le⟩ := ofTokens_cases tokens
  rw [draftEq, Codes.length_blockBits]
  exact le

theorem length_bits_ofContent_le (window : Window) (content : Bytes) :
    (ofContent window content).bits.length ≤
      (Codes.fixed.blockBits (tokenize window content)).length := by
  have found := size_ofTokens_le (tokenize window content)
  have foundLength := length_bits_ofTokens (tokenize window content)
  have plainLength := length_bits_ofTokens (content.map .literal)
  simp only [ofContent, smaller]
  split <;> omega

end Draft

private theorem Output.weight_appendBlock (output : Output) {level : Fin 10}
    {window : Window} {content : Bytes} (last : Bool) (packs : level ≠ 0)
    (less : (Draft.ofContent window content).bits.length <
      storedSize content.length) :
    (output.appendBlock level last window content).weight =
      output.weight + (Draft.ofContent window content).bits.length + 1 := by
  rw [appendBlock, if_neg packs]
  simp only [if_pos less, weight_appendBits, List.length_cons, Nat.add_assoc]

namespace Encoder

private theorem output_conclude {encoder : Encoder} (going : encoder.finishing = false) :
    encoder.conclude.output =
      (encoder.output.appendBlock encoder.level true encoder.window
        encoder.held.toList).appendBytes encoder.digest.trailer := by
  have notFinishing : ¬encoder.finishing = true := by simp [going]
  rw [conclude, if_neg notFinishing]
  rfl

private theorem take_of_single {encoder : Encoder} {input : Bytes}
    (single : encoder.held.size + input.length ≤ blockLimit) :
    encoder.take input = input.foldl hold encoder := by
  have small : ¬blockLimit < (input.foldl hold encoder).held.size := by
    rw [foldl_hold, Array.size_append, List.size_toArray]
    exact Nat.not_lt.2 single
  exact if_neg small

theorem length_whole_le {level : Fin 10} {content : Bytes} (packs : level ≠ 0)
    (single : content.length ≤ blockLimit)
    (less : (Draft.ofContent .empty content).bits.length <
      storedSize content.length) :
    8 * (whole level .deflate content).length ≤
      (Draft.ofContent .empty content).bits.length + 8 := by
  have held : (start level .deflate).take content =
      content.foldl hold (start level .deflate) :=
    take_of_single (by simpa [start] using single)
  have block := Output.weight_appendBlock ⟨[], []⟩ true packs less
  have unchecked : (content.foldl Digest.push .unchecked).trailer.length = 0 :=
    length_trailer_foldl .unchecked content
  have ended := ((⟨[], []⟩ : Output).appendBlock level true .empty
    content).weight_appendBytes_le (content.foldl Digest.push .unchecked).trailer
  have stream : whole level .deflate content =
      ((Output.appendBlock ⟨[], []⟩ level true .empty content).appendBytes
        (content.foldl Digest.push .unchecked).trailer).bytes := by
    rw [whole, held, foldl_hold, output_conclude rfl]
    simp [start, header, Digest.start]
  rw [unchecked, block] at ended
  rw [stream]
  simp only [Output.weight, List.length_nil] at ended
  omega

theorem ended_of_length_whole_le {level : Fin 10} {format : Format} {content : Bytes}
    {room : Nat} (roomy : 0 < room)
    (fits : (whole level format content).length ≤ room) :
    ∃ step next, (start level format).run .finish content room = (.ok step, next) ∧
      step.status = .streamEnd ∧ step.taken = content := by
  obtain ⟨step, next, ran⟩ := run_ok (start level format) .finish content room
    fun _ => rfl
  refine ⟨step, next, ran, ?_⟩
  cases answers_run ran with
  | idle noRoom => omega
  | gives synced _ advances takenEq output ended_iff =>
      obtain ⟨finishing, allTaken, stream⟩ := Awaits.content.advance rfl advances
      rw [List.nil_append] at stream
      refine ⟨ended_iff.2 ⟨finishing, ?_⟩, takenEq.trans allTaken⟩
      rw [stream]
      exact List.drop_of_length_le fits

end Encoder

end StreamCodec.Deflate

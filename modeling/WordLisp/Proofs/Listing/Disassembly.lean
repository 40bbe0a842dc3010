import WordLisp.Image
import WordLisp.Proofs.Listing.Assembling
import WordLisp.Proofs.Listing.Printing

/-!
# Disassembly can be assembled again

`Image.record w` is the record that stands for a word: the instruction that the word encodes, or the word
as data. Its line in a listing is the text of the word behind an indentation, and the reader of listings
takes no notice of indentation. So the texts of the words of an image, one to a line, are read as the
records of the words, and each record becomes its word again, with the reserved bits clear.
-/

namespace WordLisp

open Text

/-! ## Indentation -/

theorem Line.isBlank_of_isSpace {c : Char} (h : isSpace c) : isBlank c := by
  rcases (Bool.or_eq_true _ _).mp h with hc | hc <;>
  · rw [of_decide_eq_true hc]
    decide

/-- Space at the margin makes no difference to a line. -/
theorem Line.readRecord?_append {a : List Char} (ha : a.all isSpace) (cs : List Char) :
    readRecord? (a ++ cs) = readRecord? cs := by
  have hspace := List.all_eq_true.mp ha
  have hcode : (a ++ cs).takeWhile (· ≠ ';') = a ++ cs.takeWhile (· ≠ ';') := by
    refine List.takeWhile_append_of_pos fun c hc => decide_eq_true ?_
    rintro rfl
    exact absurd (hspace ';' hc) (by decide)
  have htrim (ds : List Char) : trim (a ++ ds) = trim ds := by
    unfold trim
    rw [List.dropWhile_append_of_pos fun c hc => isBlank_of_isSpace (hspace c hc)]
  simp only [readRecord?, hcode, htrim, parse?_append ha]

namespace Image

/-! ## The records of words -/

/-- The instruction that a word encodes, or the word as data if it encodes none. -/
def record (w : Word) : Record :=
  match Instruction.decode? w with
  | some i => .instruction i
  | none => .data w

/-- The word with its reserved bits clear, if it encodes an instruction that has any. -/
def cleared (w : Word) : Word :=
  match Instruction.decode? w with
  | some i => w.clearLow i.reservedBits
  | none => w

/-- A listing with the text of a word on each line. -/
def listing (words : List Word) : String := String.join (words.map fun w => wordText w ++ "\n")

theorem toList_record (w : Word) : (record w).text.toList = "    ".toList ++ (wordText w).toList := by
  cases h : Instruction.decode? w with
  | some i => simp only [record, wordText, h, Record.toList_instruction]
  | none => simp only [record, wordText, h, Record.toList_data, String.toList_append]

theorem legible_record (w : Word) : (record w).Legible := by
  unfold record
  split
  · next i hi =>
    refine ⟨Instruction.wellShaped_of_decode? hi, ?_⟩
    rintro opcode target rfl
    cases target with
    | offset offset => trivial
    | tag name => exact absurd rfl (Instruction.ne_tag_of_decode? hi opcode name)
  · trivial

/-! ## Reading -/

theorem readRecord?_wordText (w : Word) :
    Line.readRecord? (wordText w).toList = .ok (some (record w)) := by
  have hread := Record.readRecord?_text (legible_record w)
  rwa [toList_record, Line.readRecord?_append (by decide)] at hread

theorem ofLines_wordText (number : Nat) (words : List Word) :
    Listing.ofLines number (words.map fun w => (wordText w).toList) = .ok (words.map record) := by
  induction words generalizing number with
  | nil => rfl
  | cons w words ih =>
    rw [List.map_cons, Listing.ofLines, readRecord?_wordText]
    simp only [ih]
    rfl

/-- The text of a word is part of a single line. -/
theorem isPlain_of_mem_wordText {w : Word} {c : Char} (h : c ∈ (wordText w).toList) : isPlain c := by
  refine List.all_eq_true.mp (Record.all_text (legible_record w)) c ?_
  rw [toList_record]
  exact List.mem_append_right _ h

theorem lines_listing (words : List Word) :
    lines (listing words).toList = words.map fun w => (wordText w).toList := by
  induction words with
  | nil => rfl
  | cons w words ih =>
    have hfeed : '\n' ∉ (wordText w).toList := fun hc =>
      absurd (isPlain_of_mem_wordText hc) (by decide)
    have hreturn : '\r' ∉ (wordText w).toList := fun hc =>
      absurd (isPlain_of_mem_wordText hc) (by decide)
    have hcons : (listing (w :: words)).toList =
        (wordText w).toList ++ '\n' :: (listing words).toList := by
      simp [listing]
    rw [hcons, lines_append hfeed, dropReturn_eq hreturn, ih]
    rfl

/-! ## Assembling -/

theorem tagNames_records (words : List Word) : Listing.tagNames (words.map record) = [] := by
  induction words with
  | nil => rfl
  | cons w words ih =>
    rw [List.map_cons, record]
    split <;> exact ih

theorem encodesTo_of_decode? (table : Listing.TagTable) {w : Word} {i : Instruction}
    (h : Instruction.decode? w = some i) :
    Listing.EncodesTo table i (w.clearLow i.reservedBits) := by
  have hsame : Listing.Replaces table i i := .same (Instruction.ne_tag_of_decode? h)
  exact ⟨i, Listing.resolve_eq_ok_iff.mpr hsame, Instruction.encode_of_decode? h⟩

theorem encodeWith_records (table : Listing.TagTable) (words : List Word) :
    Listing.encodeWith table (words.map record) = .ok (words.map cleared) := by
  induction words with
  | nil => rfl
  | cons w words ih =>
    rw [List.map_cons, List.map_cons, record, cleared]
    split
    · next i hi =>
      exact Listing.encodeWith_instruction.mpr ⟨_, _, encodesTo_of_decode? table hi, ih, rfl⟩
    · rw [Listing.encodeWith, ih]
      rfl

end Image

/-- A text that has the texts of words on its lines, one to a line, is read as one record for each word,
and these are assembled to the words with their reserved bits clear. -/
theorem disassembly_reassembles (words : List Word) :
    lines (Image.listing words).toList = words.map (fun w => (Image.wordText w).toList) ∧
    ∀ text : String, lines text.toList = words.map (fun w => (Image.wordText w).toList) →
      Listing.parse text = .ok (words.map Image.record) ∧
      Listing.assemble (words.map Image.record) = .ok (words.map Image.cleared) := by
  refine ⟨Image.lines_listing words, fun text htext => ⟨?_, ?_⟩⟩
  · unfold Listing.parse
    rw [htext, Image.ofLines_wordText]
  · have hnodup : (Listing.tagNames (words.map Image.record)).Nodup := by
      rw [Image.tagNames_records]
      exact List.nodup_nil
    unfold Listing.assemble
    rw [Listing.tags_eq_ok_iff.mpr ⟨hnodup, rfl⟩]
    exact Image.encodeWith_records _ words

/-- A return with reserved bits that are not clear, a word that is no instruction, and a jump. The lines
end as on some systems, and the last one does not end at all. -/
theorem disassembly_reassembles_mixed :
    Listing.parse "RET\r\n.word -16777215\r\nJMP -1" =
      .ok [.instruction (.nullary .ret), .data (-16777215), .instruction (.addressed .jump (.offset (-1)))] ∧
    Listing.assemble
        [.instruction (.nullary .ret), .data (-16777215), .instruction (.addressed .jump (.offset (-1)))] =
      .ok [0x44000000, -16777215, 0x42FFFFFF] := by
  obtain ⟨-, hread⟩ := disassembly_reassembles [0x44ABCDEF, -16777215, 0x42FFFFFF]
  have hrecords : [0x44ABCDEF, -16777215, 0x42FFFFFF].map Image.record =
      [.instruction (.nullary .ret), .data (-16777215), .instruction (.addressed .jump (.offset (-1)))] := by
    cbv
  have hcleared : [0x44ABCDEF, -16777215, 0x42FFFFFF].map Image.cleared =
      [0x44000000, -16777215, 0x42FFFFFF] := by cbv
  rw [hrecords, hcleared] at hread
  exact hread _ (by cbv)

end WordLisp

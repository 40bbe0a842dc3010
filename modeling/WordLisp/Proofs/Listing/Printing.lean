import WordLisp.Listing.Reader
import WordLisp.Proofs.Numeral
import WordLisp.Proofs.Results
import WordLisp.Proofs.Source.Cursors
import WordLisp.Proofs.Text

/-!
# Printing and reading listings are inverse

A record is *legible* if its instruction has an argument of the right kind and its tag is one that
the reader of listings takes for a tag. The line of a legible record has the form that the record
was written in, and so the reader finds the record again.

Main statement: the listings that are read from their text are those with legible records only, and
the reader yields no others.
-/

namespace WordLisp

open Text

/-! ## Legible records -/

/-- A row of tag characters that is not empty. -/
structure IsTagName (name : List Char) : Prop where
  ne_nil : name ≠ []
  chars : ∀ c ∈ name, isTagChar c

/-- A tag that reads as a number would be taken for an offset. -/
def Target.Legible : Target → Prop
  | .offset _ => True
  | .tag name => IsTagName name.toList ∧ Word.parse? name = none

namespace Instruction

def Legible (i : Instruction) : Prop :=
  i.WellShaped ∧ ∀ opcode target, i = addressed opcode target → target.Legible

/-- The text of the argument, if there is one. -/
def argument? : Instruction → Option String
  | addressed _ target => some target.text
  | frame _ offset => some (Word.text offset)
  | unary _ operator => some operator.symbol
  | binary _ operator => some operator.symbol
  | nullary _ => none

end Instruction

namespace Record

def Legible : Record → Prop
  | instruction value => value.Legible
  | tag name => IsTagName name.toList
  | data _ => True

/-- The form that a record is written in. -/
def line : Record → Line
  | instruction value => .operation value.opcode.mnemonic.toList (value.argument?.map String.toList)
  | tag name => .tag name.toList
  | data value => .data (Word.text value).toList

end Record

/-! ## The characters of a line -/

/-- A visible character that does not start a comment. -/
def isLineChar (c : Char) : Bool := IsGraphic c ∧ c ≠ ';'

theorem isBlank_of_isLineChar {c : Char} (h : isLineChar c) : isBlank c = false :=
  (of_decide_eq_true h).1.isBlank_eq

/-- A character of a line that has no comment. -/
def isPlain (c : Char) : Bool := c = ' ' || isLineChar c

theorem isSpace_of_isLineChar {c : Char} (h : isLineChar c) : Line.isSpace c = false := by
  refine Bool.eq_false_iff.mpr fun hs => ?_
  rcases (Bool.or_eq_true _ _).mp hs with hc | hc <;>
  · rw [of_decide_eq_true hc] at h
    cases h

theorem isLineChar_of_isTagChar {c : Char} (h : isTagChar c) : isLineChar c := by
  rcases (Bool.or_eq_true _ _).mp h with hc | hc
  · refine decide_eq_true ⟨isGraphic_of_isAlphanum hc, ?_⟩
    rintro rfl
    cases hc
  · simp at hc
    rcases hc with rfl | rfl | rfl | rfl | rfl <;> decide

theorem isTagChar_of_isAlphanum {c : Char} (h : c.isAlphanum) : isTagChar c := by
  simp [isTagChar, h]

theorem Word.isTagChar_of_mem_text {w : Word} {c : Char} (h : c ∈ (text w).toList) : isTagChar c := by
  rcases Numeral.mem_integer h with hd | rfl
  · exact isTagChar_of_isAlphanum (by simp [Char.isAlphanum, hd])
  · decide

theorem UnaryOp.all_symbol (operator : UnaryOp) : operator.symbol.toList.all isLineChar := by
  cases operator <;> decide

theorem BinaryOp.all_symbol (operator : BinaryOp) : operator.symbol.toList.all isLineChar := by
  cases operator <;> decide

namespace Opcode

theorem mem_all (opcode : Opcode) : opcode ∈ all := by
  cases opcode with
  | load r b i | store r b i => cases r <;> cases b <;> cases i <;> decide
  | unary r | binary r | branch r => cases r <;> decide
  | _ => decide

theorem all_mnemonic (opcode : Opcode) : opcode.mnemonic.toList.all Char.isAlpha := by
  have h : all.all (fun opcode => opcode.mnemonic.toList.all Char.isAlpha) := by decide
  exact List.all_eq_true.mp h opcode opcode.mem_all

theorem mnemonic_ne_empty (opcode : Opcode) : opcode.mnemonic ≠ "" := by
  have h : all.all (·.mnemonic ≠ "") := by decide
  exact of_decide_eq_true (List.all_eq_true.mp h opcode opcode.mem_all)

theorem ofMnemonic?_mnemonic (opcode : Opcode) : ofMnemonic? opcode.mnemonic = some opcode := by
  have h : all.all (fun opcode => ofMnemonic? opcode.mnemonic = some opcode) := by decide
  exact of_decide_eq_true (List.all_eq_true.mp h opcode opcode.mem_all)

end Opcode

/-! ## The forms of lines -/

namespace Line
variable {p : Char → Bool} {a cs rest : List Char}

theorem run?_append (hne : a ≠ []) (ha : ∀ c ∈ a, p c) (h : Stops p cs) :
    run? p (a ++ cs) = some (a, cs) := by
  unfold run?
  rw [takeWhile_append_of_stops ha h, dropWhile_append_of_stops ha h]
  cases a with
  | nil => exact absurd rfl hne
  | cons c a => rfl

theorem of_run? (h : run? p cs = some (a, rest)) : a ≠ [] ∧ ∀ c ∈ a, p c := by
  unfold run? at h
  split at h
  · cases h
  · next hne =>
    cases h
    exact ⟨hne, fun _ => List.mem_takeWhile_imp⟩

/-- A row of characters that stands as a word in a line. -/
structure IsWord (cs : List Char) : Prop where
  ne_nil : cs ≠ []
  chars : ∀ c ∈ cs, isLineChar c

theorem IsWord.stops (h : IsWord a) (cs : List Char) : Stops isSpace (a ++ cs) := by
  obtain ⟨c, a, rfl⟩ := List.exists_cons_of_ne_nil h.ne_nil
  exact .cons (isSpace_of_isLineChar (h.chars c List.mem_cons_self))

theorem IsWord.all (h : IsWord a) : a.all isPlain :=
  List.all_eq_true.mpr fun c hc => by simp [isPlain, h.chars c hc]

theorem argument?_space (h : IsWord a) : argument? (' ' :: a) = some (a, []) := by
  have hspace : run? isSpace ([' '] ++ a) = some ([' '], a) := by
    refine run?_append (List.cons_ne_nil _ _) (List.forall_mem_singleton.mpr rfl) ?_
    simpa using h.stops []
  have hword : run? (fun c => !isBlank c) (a ++ []) = some (a, []) :=
    run?_append h.ne_nil (fun c hc => by simp [isBlank_of_isLineChar (h.chars c hc)]) .nil
  unfold argument?
  rw [← List.singleton_append, hspace]
  rwa [List.append_nil] at hword

theorem parse?_append (ha : a.all isSpace) (cs : List Char) : parse? (a ++ cs) = parse? cs := by
  unfold parse?
  rw [List.dropWhile_append_of_pos (List.all_eq_true.mp ha)]

theorem parse?_eq {line : Line} (hs : Stops isSpace cs)
    (h : (tagForm? cs <|> dataForm? cs <|> operationForm? cs) = some (line, [])) :
    parse? cs = some line := by
  simp only [parse?, hs.dropWhile_eq, h]
  rfl

theorem tagForm?_colon (h : IsTagName a) : tagForm? (a ++ [':']) = some (.tag a, []) := by
  unfold tagForm?
  rw [run?_append h.ne_nil h.chars (.cons (by decide))]
  rfl

/-- Without a colon there is no definition of a tag. -/
theorem tagForm?_eq_none (h : IsTagName a) (hs : Stops isTagChar cs) (hc : cs.head? ≠ some ':') :
    tagForm? (a ++ cs) = none := by
  unfold tagForm?
  rw [run?_append h.ne_nil h.chars hs]
  split
  · next heq =>
    cases heq
    exact absurd rfl hc
  · rfl

/-- What begins like a word of data is no definition of a tag. -/
theorem tagForm?_word (a : List Char) : tagForm? (".word ".toList ++ a) = none := by
  have hname : IsTagName ".word".toList := ⟨by decide, List.all_eq_true.mp (by decide)⟩
  show tagForm? (".word".toList ++ ' ' :: a) = none
  exact tagForm?_eq_none hname (.cons (by decide)) (by simp)

theorem dataForm?_word (h : IsWord a) : dataForm? (".word ".toList ++ a) = some (.data a, []) := by
  show (argument? (' ' :: a)).map _ = _
  rw [argument?_space h]
  rfl

theorem operationForm?_none (hne : a ≠ []) (ha : ∀ c ∈ a, c.isAlpha) :
    operationForm? a = some (.operation a none, []) := by
  have hrun : run? Char.isAlpha (a ++ []) = some (a, []) := run?_append hne ha .nil
  rw [List.append_nil] at hrun
  unfold operationForm?
  rw [hrun]
  rfl

theorem operationForm?_some (hne : a ≠ []) (ha : ∀ c ∈ a, c.isAlpha) (h : IsWord cs) :
    operationForm? (a ++ ' ' :: cs) = some (.operation a (some cs), []) := by
  unfold operationForm?
  rw [run?_append hne ha (.cons (by decide))]
  simp only [argument?_space h]

theorem dataForm?_eq_none {c : Char} (hc : c ≠ '.') : dataForm? (c :: cs) = none := by
  unfold dataForm?
  split
  · next heq =>
    cases heq
    exact absurd rfl hc
  · rfl

theorem target_text {t : Target} (h : t.Legible) : target t.text.toList = .ok t := by
  cases t with
  | offset value =>
    unfold target
    rw [Target.text, Word.ofChars?_text]
  | tag name =>
    obtain ⟨hname, hnumber⟩ := h
    unfold Word.parse? at hnumber
    unfold target
    rw [Target.text, hnumber]
    simp only [List.all_eq_true.mpr hname.chars, if_true, String.ofList_toList]

end Line

theorem IsTagName.isWord {name : List Char} (h : IsTagName name) : Line.IsWord name :=
  ⟨h.ne_nil, fun c hc => isLineChar_of_isTagChar (h.chars c hc)⟩

theorem Word.isWord_text (w : Word) : Line.IsWord (text w).toList :=
  ⟨text_ne_nil w, fun _ hc => isLineChar_of_isTagChar (isTagChar_of_mem_text hc)⟩

namespace Opcode

theorem isTagName_mnemonic (opcode : Opcode) : IsTagName opcode.mnemonic.toList :=
  ⟨by simpa using opcode.mnemonic_ne_empty, fun c hc => isTagChar_of_isAlphanum
    (by simp [Char.isAlphanum, List.all_eq_true.mp opcode.all_mnemonic c hc])⟩

end Opcode

namespace Instruction

theorem isWord_argument {i : Instruction} (h : i.Legible) :
    ∀ argument ∈ i.argument?, Line.IsWord argument.toList := by
  rintro argument hm
  cases i with
  | nullary => cases hm
  | addressed opcode target =>
    cases hm
    cases target with
    | offset value => exact Word.isWord_text value
    | tag name => exact (h.2 _ _ rfl).1.isWord
  | frame opcode offset =>
    cases hm
    exact Word.isWord_text offset
  | unary opcode operator =>
    cases hm
    exact ⟨by cases operator <;> decide, List.all_eq_true.mp operator.all_symbol⟩
  | binary opcode operator =>
    cases hm
    exact ⟨by cases operator <;> decide, List.all_eq_true.mp operator.all_symbol⟩

/-- The text is that of the mnemonic and of the argument. -/
theorem toList_text (i : Instruction) : i.text.toList =
    i.opcode.mnemonic.toList ++ i.argument?.elim [] (' ' :: ·.toList) := by
  cases i <;> simp [text, argument?, opcode]

theorem of_argument {i : Instruction} (h : i.Legible) :
    Line.instruction i.opcode (i.argument?.map String.toList) = .ok i := by
  obtain ⟨hshape, htarget⟩ := h
  unfold WellShaped at hshape
  unfold Line.instruction
  rw [hshape]
  cases i with
  | nullary => rfl
  | addressed opcode target =>
    show (Line.target target.text.toList).map _ = _
    rw [Line.target_text (htarget _ _ rfl)]
    rfl
  | frame opcode offset => simp [argument?, shape, Instruction.opcode, Word.ofChars?_text]
  | unary opcode operator => simp [argument?, shape, Instruction.opcode, UnaryOp.ofSymbol?_symbol]
  | binary opcode operator => simp [argument?, shape, Instruction.opcode, BinaryOp.ofSymbol?_symbol]

theorem operationForm?_text {i : Instruction} (h : i.Legible) : Line.operationForm? i.text.toList =
    some (.operation i.opcode.mnemonic.toList (i.argument?.map String.toList), []) := by
  have hne := i.opcode.isTagName_mnemonic.ne_nil
  have halpha := List.all_eq_true.mp i.opcode.all_mnemonic
  have harg := isWord_argument h
  rw [toList_text]
  cases ha : i.argument? with
  | none =>
    rw [Option.elim_none, List.append_nil]
    exact Line.operationForm?_none hne halpha
  | some argument => exact Line.operationForm?_some hne halpha (harg argument ha)

/-- No instruction looks like the definition of a tag or like a word. -/
theorem otherForms_text (i : Instruction) :
    Line.tagForm? i.text.toList = none ∧ Line.dataForm? i.text.toList = none := by
  rw [toList_text]
  refine ⟨Line.tagForm?_eq_none i.opcode.isTagName_mnemonic ?_ ?_, ?_⟩
  · cases i.argument? with
    | none => exact .nil
    | some argument => exact .cons (by decide)
  · cases i.argument? with
    | none => simp
    | some argument => simp
  · have halpha := List.all_eq_true.mp i.opcode.all_mnemonic
    obtain ⟨c, cs, hc⟩ := List.exists_cons_of_ne_nil i.opcode.isTagName_mnemonic.ne_nil
    rw [hc] at halpha ⊢
    refine Line.dataForm?_eq_none ?_
    rintro rfl
    exact absurd (halpha '.' List.mem_cons_self) (by decide)

end Instruction

/-! ## Lines of records -/

namespace Record

theorem toList_tag (name : String) : (tag name).text.toList = name.toList ++ [':'] := by
  simp [text]

theorem toList_data (value : Word) :
    (data value).text.toList = "    ".toList ++ (".word ".toList ++ (Word.text value).toList) := by
  simp [text]

theorem toList_instruction (i : Instruction) :
    (instruction i).text.toList = "    ".toList ++ i.text.toList := by
  simp [text]

theorem parse?_text {r : Record} (h : r.Legible) : Line.parse? r.text.toList = some r.line := by
  cases r with
  | tag name =>
    rw [toList_tag]
    refine Line.parse?_eq (h.isWord.stops _) ?_
    rw [Line.tagForm?_colon h]
    rfl
  | data value =>
    rw [toList_data, Line.parse?_append (by decide)]
    refine Line.parse?_eq (.cons (by decide)) ?_
    rw [Line.tagForm?_word, Line.dataForm?_word (Word.isWord_text value)]
    rfl
  | instruction i =>
    rw [toList_instruction, Line.parse?_append (by decide)]
    obtain ⟨htag, hdata⟩ := i.otherForms_text
    refine Line.parse?_eq ?_ ?_
    · rw [i.toList_text]
      exact i.opcode.isTagName_mnemonic.isWord.stops _
    · rw [htag, hdata, Instruction.operationForm?_text h]
      rfl

theorem record_line {r : Record} (h : r.Legible) : r.line.record = .ok r := by
  cases r with
  | tag name => simp [line, Line.record]
  | data value => simp [line, Line.record, Word.ofChars?_text]
  | instruction i =>
    simp only [line, Line.record, String.ofList_toList, Opcode.ofMnemonic?_mnemonic,
      Instruction.of_argument h]
    rfl

/-- The line is made of words and of spaces between them. -/
theorem all_text {r : Record} (h : r.Legible) : r.text.toList.all isPlain := by
  cases r with
  | tag name =>
    rw [toList_tag, List.all_append, h.isWord.all]
    rfl
  | data value =>
    rw [toList_data, List.all_append, List.all_append, (Word.isWord_text value).all]
    rfl
  | instruction i =>
    rw [toList_instruction, Instruction.toList_text, List.all_append, List.all_append,
      i.opcode.isTagName_mnemonic.isWord.all]
    cases ha : i.argument? with
    | none => rfl
    | some argument => exact (Instruction.isWord_argument h argument ha).all

theorem exists_isLineChar (r : Record) : ∃ c ∈ r.text.toList, isLineChar c := by
  cases r with
  | tag name => exact ⟨':', by simp [toList_tag], by decide⟩
  | data value => exact ⟨'.', by simp [toList_data], by decide⟩
  | instruction i =>
    have hword := i.opcode.isTagName_mnemonic.isWord
    obtain ⟨c, cs, hc⟩ := List.exists_cons_of_ne_nil hword.ne_nil
    refine ⟨c, ?_, hword.chars c (by simp [hc])⟩
    simp [toList_instruction, Instruction.toList_text, hc]

theorem readRecord?_text {r : Record} (h : r.Legible) :
    Line.readRecord? r.text.toList = .ok (some r) := by
  have hcode : r.text.toList.takeWhile (· ≠ ';') = r.text.toList := by
    refine List.takeWhile_eq_self_iff.mpr fun c hc => decide_eq_true ?_
    rintro rfl
    exact absurd (List.all_eq_true.mp (all_text h) ';' hc) (by decide)
  have htrim : (trim r.text.toList).isEmpty = false := by
    obtain ⟨c, hc, hl⟩ := r.exists_isLineChar
    exact List.isEmpty_eq_false_iff.mpr (trim_ne_nil hc (isBlank_of_isLineChar hl))
  simp only [Line.readRecord?, hcode, htrim, parse?_text h, record_line h]
  rfl

end Record

/-! ## What is read is legible -/

namespace Line

/-- What the forms of lines have in them. -/
def WellFormed : Line → Prop
  | tag name => IsTagName name
  | data _ => True
  | operation _ argument => ∀ cs ∈ argument, cs ≠ []

theorem wellFormed_of_tagForm? {cs rest : List Char} {line : Line}
    (h : tagForm? cs = some (line, rest)) : line.WellFormed := by
  unfold tagForm? at h
  split at h
  · next hrun =>
    cases h
    obtain ⟨hne, hchars⟩ := of_run? hrun
    exact ⟨hne, hchars⟩
  · cases h

theorem wellFormed_of_dataForm? {cs rest : List Char} {line : Line}
    (h : dataForm? cs = some (line, rest)) : line.WellFormed := by
  unfold dataForm? at h
  split at h
  · obtain ⟨⟨word, rest⟩, -, hline⟩ := Option.map_eq_some_iff.mp h
    cases hline
    trivial
  · cases h

theorem ne_nil_of_argument? {cs a rest : List Char} (h : argument? cs = some (a, rest)) : a ≠ [] := by
  unfold argument? at h
  split at h
  · exact (of_run? h).1
  · cases h

theorem wellFormed_of_operationForm? {cs rest : List Char} {line : Line}
    (h : operationForm? cs = some (line, rest)) : line.WellFormed := by
  unfold operationForm? at h
  split at h
  · cases h
  · split at h
    · next hargument =>
      cases h
      rintro cs ⟨⟩
      exact ne_nil_of_argument? hargument
    · cases h
      rintro cs ⟨⟩

theorem wellFormed_of_parse? {cs : List Char} {line : Line} (h : parse? cs = some line) :
    line.WellFormed := by
  simp only [parse?] at h
  split at h
  · next hform =>
    split at h
    · cases h
      simp only [Option.orElse_eq_orElse, Option.orElse_eq_or, Option.or_eq_some_iff] at hform
      rcases hform with hform | ⟨-, hform | ⟨-, hform⟩⟩
      · exact wellFormed_of_tagForm? hform
      · exact wellFormed_of_dataForm? hform
      · exact wellFormed_of_operationForm? hform
    · cases h
  · cases h

theorem legible_of_target {cs : List Char} {t : Target} (hne : cs ≠ []) (h : target cs = .ok t) :
    t.Legible := by
  unfold target at h
  split at h
  · cases h
    trivial
  · next hnumber =>
    split at h
    · next hchars =>
      cases h
      refine ⟨?_, ?_⟩
      · rw [String.toList_ofList]
        exact ⟨hne, List.all_eq_true.mp hchars⟩
      · rw [Word.parse?, String.toList_ofList, hnumber]
    · cases h

theorem legible_of_instruction {opcode : Opcode} {argument : Option (List Char)} {i : Instruction}
    (hargument : ∀ cs ∈ argument, cs ≠ []) (h : instruction opcode argument = .ok i) : i.Legible := by
  unfold instruction at h
  split at h
  case h_1 hshape =>
    cases h
    exact ⟨hshape, by rintro _ _ ⟨⟩⟩
  case h_2 => cases h
  case h_3 => cases h
  case h_4 hshape =>
    obtain ⟨t, ht, rfl⟩ := ok_of_map_eq_ok h
    refine ⟨hshape, ?_⟩
    rintro _ _ ⟨⟩
    exact legible_of_target (hargument _ rfl) ht
  -- An offset and the operators are found in tables, or else there is no instruction.
  all_goals
    next hshape =>
    split at h
    · cases h
      exact ⟨hshape, by rintro _ _ ⟨⟩⟩
    · cases h

theorem legible_of_record {line : Line} {r : Record} (hline : line.WellFormed)
    (h : line.record = .ok r) : r.Legible := by
  cases line with
  | tag name =>
    cases h
    show IsTagName (String.ofList name).toList
    rwa [String.toList_ofList]
  | data word =>
    simp only [record] at h
    split at h
    · cases h
      trivial
    · cases h
  | operation mnemonic argument =>
    simp only [record] at h
    split at h
    · obtain ⟨i, hi, rfl⟩ := ok_of_map_eq_ok h
      exact legible_of_instruction hline hi
    · cases h

theorem legible_of_readRecord? {cs : List Char} {r : Record} (h : readRecord? cs = .ok (some r)) :
    r.Legible := by
  simp only [readRecord?] at h
  split at h
  · cases h
  · split at h
    · next hform =>
      obtain ⟨r, hr, hsome⟩ := ok_of_map_eq_ok h
      cases hsome
      exact legible_of_record (wellFormed_of_parse? hform) hr
    · cases h

end Line

/-! ## Listings -/

namespace Listing

theorem legible_of_ofLines {number : Nat} {lines : List (List Char)} {l : Listing}
    (h : ofLines number lines = .ok l) : ∀ r ∈ l, r.Legible := by
  induction lines generalizing number l with
  | nil =>
    cases h
    exact List.forall_mem_nil _
  | cons line lines ih =>
    unfold ofLines at h
    split at h
    · cases h
    · exact ih h
    · next r hr =>
      obtain ⟨l, hl, rfl⟩ := ok_of_map_eq_ok h
      exact List.forall_mem_cons.mpr ⟨Line.legible_of_readRecord? hr, ih hl⟩

theorem legible_of_parse {text : String} {l : Listing} (h : parse text = .ok l) : ∀ r ∈ l, r.Legible :=
  legible_of_ofLines h

theorem toList_text_cons (r : Record) (l : Listing) (rest : List Char) :
    (text (r :: l)).toList ++ rest = r.text.toList ++ '\n' :: (l.text.toList ++ rest) := by
  simp [text]

/-- The lines of a listing, in front of any others. -/
theorem ofLines_text {l : Listing} (h : ∀ r ∈ l, r.Legible) (number : Nat) (rest : List Char) :
    ofLines number (lines (l.text.toList ++ rest)) =
      (ofLines (number + l.length) (lines rest)).map (l ++ ·) := by
  induction l generalizing number with
  | nil =>
    show ofLines number (lines rest) = (ofLines number (lines rest)).map id
    cases ofLines number (lines rest) <;> rfl
  | cons r l ih =>
    obtain ⟨hr, hl⟩ := List.forall_mem_cons.mp h
    have hplain := List.all_eq_true.mp (Record.all_text hr)
    have hfeed : '\n' ∉ r.text.toList := fun hc => absurd (hplain _ hc) (by decide)
    have hreturn : '\r' ∉ r.text.toList := fun hc => absurd (hplain _ hc) (by decide)
    rw [toList_text_cons, lines_append hfeed, dropReturn_eq hreturn, ofLines, Record.readRecord?_text hr]
    simp only [ih hl, List.length_cons, Nat.add_right_comm]
    rw [← Nat.add_assoc]
    cases ofLines (number + l.length + 1) (lines rest) <;> rfl

theorem parse_text {l : Listing} (h : ∀ r ∈ l, r.Legible) : parse l.text = .ok l := by
  have hlines := ofLines_text h 1 []
  rw [List.append_nil] at hlines
  unfold parse
  rw [hlines]
  simp [lines, linesWith, splitAt, finishLines, ofLines, Except.map]

/-- A listing is read from its text exactly if all of its records are legible. That is so for every
listing that has been read, and so printing and reading again changes nothing. -/
theorem parse_text_iff_legible :
    (∀ l : Listing, parse l.text = .ok l ↔ ∀ r ∈ l, r.Legible) ∧
    ∀ (text : String) (l : Listing), parse text = .ok l →
      (∀ r ∈ l, r.Legible) ∧ parse l.text = .ok l := by
  refine ⟨fun l => ⟨legible_of_parse, parse_text⟩, fun text l h => ?_⟩
  have hlegible := legible_of_parse h
  exact ⟨hlegible, parse_text hlegible⟩

/-- A tag `7` may be defined, although no instruction can have it as its target. -/
theorem parse_text_iff_legible_seven :
    parse "7:\n    .word -1\n    JMP -.7\n    BOPL -\n    RET\n" =
      .ok [.tag "7", .data (-1), .instruction (.addressed .jump (.tag "-.7")),
        .instruction (.binary (.binary .left) .sub), .instruction (.nullary .ret)] := by
  have htext : "7:\n    .word -1\n    JMP -.7\n    BOPL -\n    RET\n" =
      text [.tag "7", .data (-1), .instruction (.addressed .jump (.tag "-.7")),
        .instruction (.binary (.binary .left) .sub), .instruction (.nullary .ret)] := by cbv
  rw [htext]
  refine (parse_text_iff_legible.1 _).mpr ?_
  simp only [List.forall_mem_cons, List.not_mem_nil, false_imp_iff, implies_true, and_true]
  refine ⟨⟨by decide, List.all_eq_true.mp (by decide)⟩, trivial, ⟨rfl, ?_⟩, ⟨rfl, by rintro _ _ ⟨⟩⟩,
    ⟨rfl, by rintro _ _ ⟨⟩⟩⟩
  rintro _ _ ⟨⟩
  exact ⟨⟨by decide, List.all_eq_true.mp (by decide)⟩, rfl⟩

end Listing

end WordLisp

import WordLisp.Proofs.Source.Names
import WordLisp.Proofs.Text

/-!
# Scanning what is spelled

`Spells s ts` says that the text `s` is scanned as the tokens `ts` wherever it stands, as long as what
follows does not go on with the last atom of `s`. A `Phrase` is a text that, besides, does not go on
with an atom in front of it. Phrases can be put one behind the other, and a text that is made of
parentheses, words and spaces is a row of phrases.
-/

namespace WordLisp

open Text

namespace Token

theorem isAtomChar_of_isGraphic {c : Char} (h : IsGraphic c) (hc : c ∉ ['(', ')', ';']) :
    isAtomChar c := by
  simp only [List.mem_cons, List.not_mem_nil, or_false, not_or] at hc
  simp [isAtomChar, h.isBlank_eq, hc]

theorem isAtomChar_of_isAlphanum {c : Char} (h : c.isAlphanum) : isAtomChar c := by
  refine isAtomChar_of_isGraphic (isGraphic_of_isAlphanum h) fun hm => ?_
  simp only [List.mem_cons, List.not_mem_nil, or_false] at hm
  rcases hm with rfl | rfl | rfl <;> cases h

theorem isAtomChar_of_isNameChar {c : Char} (h : isNameChar c) : isAtomChar c := by
  rcases (Bool.or_eq_true _ _).mp h with hc | hc
  · exact isAtomChar_of_isAlphanum hc
  · simp at hc
    rcases hc with rfl | rfl | rfl | rfl <;> decide

/-! ## Words -/

/-- The text is scanned as a single atom. -/
structure IsWord (w : String) : Prop where
  ne_nil : w.toList ≠ []
  chars : ∀ c ∈ w.toList, isAtomChar c
  notNumber : Word.ofChars? w.toList = none

/-- A number begins with a digit or a sign. -/
theorem isWord_of_head {w : String} {c : Char} {cs : List Char} (htext : w.toList = c :: cs)
    (hchars : w.toList.all isAtomChar) (hd : c.isDigit = false) (hm : c ≠ '-') : IsWord w :=
  ⟨by simp [htext], List.all_eq_true.mp hchars, by rw [htext]; exact Word.ofChars?_eq_none hd hm⟩

theorem isWord_of_isName {name : String} (h : isName name) : IsWord name := by
  obtain ⟨c, cs, hname, hc, -⟩ := exists_of_isName h
  have hchars : ∀ c ∈ name.toList, isAtomChar c := fun c hc =>
    isAtomChar_of_isNameChar (isNameChar_of_mem h c hc)
  refine ⟨by simp [hname], hchars, ?_⟩
  rw [hname]
  exact ofChars?_of_isNameStart hc cs

/-- A name behind a mark, as in `@name`. -/
theorem isWord_marked (mark : Char) (hmark : isAtomChar mark) (hd : mark.isDigit = false)
    (hm : mark ≠ '-') {name : String} (h : isName name) : IsWord (mark.toString ++ name) := by
  have htext : (mark.toString ++ name).toList = mark :: name.toList := by simp
  refine isWord_of_head htext (List.all_eq_true.mpr ?_) hd hm
  rw [htext]
  exact List.forall_mem_cons.mpr ⟨hmark, (isWord_of_isName h).chars⟩

/-! ## Phrases -/

def Spells (s : String) (ts : List Token) : Prop :=
  ∀ position rest, Stops isAtomChar rest →
    scanFrom position (skip (s.toList ++ rest)) =
      (scanFrom (position + ts.length) (skip rest)).map (ts ++ ·)

structure Phrase (s : String) (ts : List Token) : Prop where
  spells : Spells s ts
  stops : Stops isAtomChar s.toList

theorem map_append (ts us : List Token) (x : Except Stray (List Token)) :
    (x.map (us ++ ·)).map (ts ++ ·) = x.map ((ts ++ us) ++ ·) := by
  cases x <;> simp [Except.map]

theorem Spells.append {s s' : String} {ts us : List Token} (h : Spells s ts) (h' : Phrase s' us) :
    Spells (s ++ s') (ts ++ us) := by
  intro position rest hrest
  rw [String.toList_append, List.append_assoc, h _ _ (h'.stops.append hrest), h'.spells _ _ hrest,
    map_append, List.length_append, Nat.add_assoc]

theorem scan_of_spells {s : String} {ts : List Token} (h : Spells s ts) : scan s = .ok ts := by
  have := h 0 [] .nil
  rw [List.append_nil] at this
  unfold scan
  rw [this]
  simp [skip, scanFrom, Except.map]

theorem isSeparator_cases {c : Char} (h : isSeparator c) : c = ' ' ∨ c = '\t' ∨ c = '\r' ∨ c = '\n' := by
  simpa [isSeparator, or_assoc] using h

theorem isAtomChar_of_isSeparator {c : Char} (h : isSeparator c) : isAtomChar c = false := by
  rcases isSeparator_cases h with rfl | rfl | rfl | rfl <;> decide

theorem skip_separator {c : Char} (h : isSeparator c) (cs : List Char) : skip (c :: cs) = skip cs := by
  rw [skip, if_pos h]

theorem skip_token {c : Char} (hs : isSeparator c = false) (hc : c ≠ ';') (cs : List Char) :
    skip (c :: cs) = c :: cs := by
  rw [skip, hs, if_neg hc]
  rfl

theorem skip_atomChar {c : Char} (hc : isAtomChar c) (cs : List Char) : skip (c :: cs) = c :: cs := by
  refine skip_token ?_ ?_ cs
  · rw [Bool.eq_false_iff]
    intro h
    rw [isAtomChar_of_isSeparator h] at hc
    cases hc
  · rintro rfl
    cases hc

theorem spells_run {s : String} (hne : s.toList ≠ []) (hs : ∀ c ∈ s.toList, isAtomChar c) :
    Spells s [ofAtom s.toList] := by
  intro position rest hrest
  obtain ⟨c, cs, hcs⟩ := List.exists_cons_of_ne_nil hne
  rw [hcs] at hs ⊢
  obtain ⟨hc, hs⟩ := List.forall_mem_cons.mp hs
  have hne (d : Char) (hd : isAtomChar d = false) : c ≠ d := by
    rintro rfl
    rw [hd] at hc
    cases hc
  rw [List.cons_append, skip_atomChar hc, scanFrom, if_neg (hne '(' (by decide)),
    if_neg (hne ')' (by decide)), if_pos hc, takeWhile_append_of_stops hs hrest,
    dropWhile_append_of_stops hs hrest]
  rfl

theorem spells_word {w : String} (h : IsWord w) : Spells w [.atom w] := by
  have hrun := spells_run h.ne_nil h.chars
  unfold ofAtom at hrun
  rwa [h.notNumber, String.ofList_toList] at hrun

namespace Phrase
variable {s s' : String} {ts us : List Token}

theorem of_eq (h : Phrase s ts) (hs : s'.toList = s.toList) : Phrase s' ts := by
  rwa [String.toList_inj.mp hs]

theorem nil : Phrase "" [] := by
  refine ⟨fun position rest _ => ?_, .nil⟩
  show scanFrom position (skip rest) = (scanFrom position (skip rest)).map id
  cases scanFrom position (skip rest) <;> rfl

theorem append (h : Phrase s ts) (h' : Phrase s' us) : Phrase (s ++ s') (ts ++ us) := by
  refine ⟨h.spells.append h', ?_⟩
  rw [String.toList_append]
  exact h.stops.append h'.stops

/-- What is separated from the text in front of it. -/
theorem behind {c : Char} (hc : isSeparator c) (h : Spells s ts) : Phrase (c.toString ++ s) ts := by
  have htext : (c.toString ++ s).toList = c :: s.toList := by simp
  refine ⟨fun position rest hrest => ?_, ?_⟩
  · rw [htext, List.cons_append, skip_separator hc, h _ _ hrest]
  · rw [htext]
    exact .cons (isAtomChar_of_isSeparator hc)

theorem lparen (h : Spells s ts) : Phrase ("(" ++ s) (.lparen :: ts) := by
  have htext : ("(" ++ s).toList = '(' :: s.toList := by simp
  refine ⟨fun position rest hrest => ?_, ?_⟩
  · rw [htext, List.cons_append, skip_token (by decide) (by decide), scanFrom, if_pos rfl,
      h _ _ hrest, List.length_cons, Nat.add_right_comm]
    exact map_append [.lparen] ts _
  · rw [htext]
    exact .cons (by decide)

theorem rparen : Phrase ")" [.rparen] := by
  refine ⟨fun position rest hrest => ?_, .cons (c := ')') (by decide)⟩
  rw [show ")".toList = [')'] from rfl, List.singleton_append, skip_token (by decide) (by decide), scanFrom,
    if_neg (by decide), if_pos rfl]
  rfl

end Phrase

/-- Texts with a separator between two of them. `R` says what the tokens of the whole stand for, and
each text adds its own. -/
theorem spells_intercalate {α : Type} (text : α → String) {R : List Token → List α → Prop} {c : Char}
    (hc : isSeparator c) (hnil : R [] []) :
    ∀ {xs : List α}, (∀ x ∈ xs, ∃ ts, Spells (text x) ts ∧ ∀ us ys, R us ys → R (ts ++ us) (x :: ys)) →
      ∃ ts, Spells (String.intercalate c.toString (xs.map text)) ts ∧ R ts xs
  | [], _ => ⟨[], Phrase.nil.spells, hnil⟩
  | [x], h => by
    obtain ⟨ts, hs, hR⟩ := h x (List.mem_singleton_self x)
    refine ⟨ts ++ [], ?_, hR _ _ hnil⟩
    rwa [List.append_nil, List.map_singleton, String.intercalate_singleton]
  | x :: y :: xs, h => by
    obtain ⟨hx, hxs⟩ := List.forall_mem_cons.mp h
    obtain ⟨ts, hs, hR⟩ := hx
    obtain ⟨us, hs', hR'⟩ := spells_intercalate text hc hnil hxs
    refine ⟨ts ++ us, ?_, hR _ _ hR'⟩
    rw [List.map_cons, List.map_cons, String.intercalate_cons_cons, String.append_assoc]
    exact hs.append (.behind hc hs')

end Token

end WordLisp

import WordLisp.Proofs.Source.Scanning

/-!
# Printing and parsing are inverse

The text of an expression or an item is spelled as tokens that the grammar derives it from, provided
that its names are names. So parsing finds it again in its text.

Main statement: what has only names in it is parsed from its text, and what has been parsed has only
names in it.
-/

namespace WordLisp

open Token

/-! ## Pieces of text -/

theorem Token.spells_literal (value : Word) : Spells (Word.text value) [.integer value] := by
  have hchars : ∀ c ∈ (Word.text value).toList, isAtomChar c := by
    intro c hc
    rcases Numeral.mem_integer hc with hd | rfl
    · exact isAtomChar_of_isAlphanum (by simp [Char.isAlphanum, hd])
    · decide
  have hrun := spells_run (Word.text_ne_nil value) hchars
  unfold ofAtom at hrun
  rwa [Word.ofChars?_text] at hrun

theorem spells_target {name : String} (h : isName name) (indirect : Bool) :
    Spells (star indirect ++ name) [.atom (star indirect ++ name)] ∧
      Grammar.Target (star indirect ++ name) name indirect := by
  cases indirect with
  | true => exact ⟨spells_word (isWord_marked '*' (by decide) (by decide) (by decide) h), .indirect h⟩
  | false =>
    have hstar : star false ++ name = name := String.empty_append
    rw [hstar]
    exact ⟨spells_word (isWord_of_isName h), .direct h⟩

/-- The beginning of a form. -/
theorem Token.Phrase.head {head : String} (h : IsWord head) : Phrase ("(" ++ head) [.lparen, .atom head] :=
  .lparen (spells_word h)

theorem Token.Phrase.space {s : String} {ts : List Token} (h : Spells s ts) : Phrase (" " ++ s) ts :=
  Phrase.behind (c := ' ') (by decide) h

theorem Token.Phrase.block {s : String} {ts : List Token} (h : Spells s ts) :
    Phrase ("(" ++ (s ++ ")")) (.lparen :: (ts ++ [.rparen])) :=
  .lparen (h.append .rparen)

theorem UnaryOp.isWord_symbol (operator : UnaryOp) : IsWord operator.symbol := by
  cases operator <;> exact isWord_of_head rfl (by decide) (by decide) (by decide)

theorem BinaryOp.isWord_symbol (operator : BinaryOp) : IsWord operator.symbol := by
  cases operator with
  | sub => exact ⟨by decide, List.all_eq_true.mp (by decide), rfl⟩
  | _ => exact isWord_of_head rfl (by decide) (by decide) (by decide)

theorem Token.Phrase.keyword (keyword : String) (h : keyword ∈ keywords) :
    Phrase ("(" ++ keyword) [.lparen, .atom keyword] := by
  refine .head ?_
  simp only [keywords, List.mem_cons, List.not_mem_nil, or_false] at h
  rcases h with rfl | rfl | rfl | rfl | rfl | rfl <;>
    exact isWord_of_head rfl (by decide) (by decide) (by decide)

/-! ## Expressions -/

mutual

theorem Expr.spells_text : ∀ {e : Expr}, (∀ name ∈ e.names, isName name) →
    ∃ ts, Spells e.text ts ∧ Grammar.Expression ts e
  | .literal value, _ => ⟨_, spells_literal value, .integer⟩
  | .symbol name, h => by
    have hn : isName name := h name (List.mem_singleton_self name)
    exact ⟨_, spells_word (isWord_marked '@' (by decide) (by decide) (by decide) hn), .symbol hn⟩
  | .reference name indirect, h => by
    obtain ⟨hs, ht⟩ := spells_target (h name (List.mem_singleton_self name)) indirect
    exact ⟨_, hs, .reference ht⟩
  | .declare name value, h => by
    simp only [Expr.names, List.forall_mem_cons] at h
    obtain ⟨ts, hs, hg⟩ := Expr.spells_text h.2
    have hphrase := (Phrase.keyword "INIT" (by decide)).append <|
      (Phrase.space (spells_word (isWord_of_isName h.1))).append <| (Phrase.space hs).append .rparen
    exact ⟨_, (hphrase.of_eq (by simp [Expr.text])).spells, .declaration (.intro (.inl rfl) h.1 hg)⟩
  | .assign name indirect value, h => by
    simp only [Expr.names, List.forall_mem_cons] at h
    obtain ⟨ts, hs, hg⟩ := Expr.spells_text h.2
    obtain ⟨ht, htarget⟩ := spells_target h.1 indirect
    have hphrase := (Phrase.keyword "SET" (by decide)).append <|
      (Phrase.space ht).append <| (Phrase.space hs).append .rparen
    exact ⟨_, (hphrase.of_eq (by simp [Expr.text])).spells, .assignment htarget hg⟩
  | .cond test yes no, h => by
    simp only [Expr.names, List.forall_mem_append] at h
    obtain ⟨ts, hs, hg⟩ := Expr.spells_text h.1
    obtain ⟨us, hsyes, hyes⟩ := Expr.spells_rowText h.2.1
    obtain ⟨vs, hsno, hno⟩ := Expr.spells_rowText h.2.2
    have hphrase := (Phrase.keyword "IF" (by decide)).append <| (Phrase.space hs).append <|
      (Phrase.space (Phrase.block hsyes).spells).append <|
      (Phrase.space (Phrase.block hsno).spells).append .rparen
    exact ⟨_, (hphrase.of_eq (by simp [Expr.text])).spells, .conditional hg (.intro hyes) (.intro hno)⟩
  | .loop test body, h => by
    simp only [Expr.names, List.forall_mem_append] at h
    obtain ⟨ts, hs, hg⟩ := Expr.spells_text h.1
    obtain ⟨us, hbody, hrow⟩ := Expr.phrase_tailText h.2
    have hphrase := (Phrase.keyword "WHILE" (by decide)).append <| (Phrase.space hs).append <|
      hbody.append .rparen
    exact ⟨_, (hphrase.of_eq (by simp [Expr.text])).spells, .loop hg hrow⟩
  | .unary operator operand, h => by
    simp only [Expr.names] at h
    obtain ⟨ts, hs, hg⟩ := Expr.spells_text h
    have hphrase := (Phrase.head operator.isWord_symbol).append <| (Phrase.space hs).append .rparen
    exact ⟨_, (hphrase.of_eq (by simp [Expr.text])).spells, .unary hg⟩
  | .binary operator left right, h => by
    simp only [Expr.names, List.forall_mem_append] at h
    obtain ⟨ts, hsl, hl⟩ := Expr.spells_text h.1
    obtain ⟨us, hsr, hr⟩ := Expr.spells_text h.2
    have hphrase := (Phrase.head operator.isWord_symbol).append <| (Phrase.space hsl).append <|
      (Phrase.space hsr).append .rparen
    exact ⟨_, (hphrase.of_eq (by simp [Expr.text])).spells, .binary hl hr⟩
  | .apply function arguments, h => by
    simp only [Expr.names, List.forall_mem_cons] at h
    obtain ⟨ts, hs, hrow⟩ := Expr.phrase_tailText h.2
    have hphrase := (Phrase.head (isWord_of_isName h.1)).append <| hs.append .rparen
    exact ⟨_, (hphrase.of_eq (by simp [Expr.text])).spells, .application h.1 hrow⟩

theorem Expr.phrase_tailText : ∀ {es : List Expr}, (∀ name ∈ Expr.rowNames es, isName name) →
    ∃ ts, Phrase (Expr.tailText es) ts ∧ Grammar.Row ts es
  | [], _ => ⟨[], .nil, .nil⟩
  | e :: es, h => by
    simp only [Expr.rowNames, List.forall_mem_append] at h
    obtain ⟨ts, hs, he⟩ := Expr.spells_text h.1
    obtain ⟨us, hp, hes⟩ := Expr.phrase_tailText h.2
    exact ⟨_, ((Phrase.space hs).append hp).of_eq (by simp [Expr.tailText]), .cons he hes⟩

theorem Expr.spells_rowText : ∀ {es : List Expr}, (∀ name ∈ Expr.rowNames es, isName name) →
    ∃ ts, Spells (Expr.rowText es) ts ∧ Grammar.Row ts es
  | [], _ => ⟨[], Phrase.nil.spells, .nil⟩
  | e :: es, h => by
    simp only [Expr.rowNames, List.forall_mem_append] at h
    obtain ⟨ts, hs, he⟩ := Expr.spells_text h.1
    obtain ⟨us, hp, hes⟩ := Expr.phrase_tailText h.2
    exact ⟨_, hs.append hp, .cons he hes⟩

end

/-! ## Items -/

theorem spells_parameters {names : List String} (h : ∀ name ∈ names, isName name) :
    ∃ ts, Spells (String.intercalate " " names) ts ∧ Grammar.Names ts names := by
  have hnames := spells_intercalate id (c := ' ') (by decide) Grammar.Names.nil fun name hm =>
    ⟨[.atom name], spells_word (isWord_of_isName (h name hm)), fun _ _ => .cons (h name hm)⟩
  rwa [List.map_id] at hnames

theorem Item.spells_text {item : Item} (h : ∀ name ∈ item.names, isName name) :
    ∃ ts, Spells item.text ts ∧ Grammar.TopLevel ts item := by
  cases item with
  | global name value =>
    simp only [Item.names, List.forall_mem_cons] at h
    obtain ⟨ts, hs, hg⟩ := Expr.spells_text h.2
    have hphrase := (Phrase.keyword "INIT" (by decide)).append <|
      (Phrase.space (spells_word (isWord_of_isName h.1))).append <| (Phrase.space hs).append .rparen
    exact ⟨_, (hphrase.of_eq (by simp [Item.text])).spells, .declaration (.intro (.inl rfl) h.1 hg)⟩
  | function f =>
    simp only [Item.names, List.forall_mem_cons, List.forall_mem_append] at h
    obtain ⟨ts, hs, hnames⟩ := spells_parameters h.2.1
    obtain ⟨us, hbody, hrow⟩ := Expr.phrase_tailText h.2.2
    have hphrase := (Phrase.keyword "FUNC" (by decide)).append <|
      (Phrase.space (spells_word (isWord_of_isName h.1))).append <|
      (Phrase.space (Phrase.block hs).spells).append <| hbody.append .rparen
    refine ⟨_, (hphrase.of_eq (by simp [Item.text, Function.text])).spells, ?_⟩
    simpa using Grammar.TopLevel.function h.1 hnames hrow

theorem Item.spells_program {items : List Item} (h : ∀ item ∈ items, ∀ name ∈ item.names, isName name) :
    ∃ ts, Spells (String.intercalate "\n" (items.map Item.text)) ts ∧ Grammar.Program ts items := by
  refine spells_intercalate Item.text (c := '\n') (by decide) .nil fun item hm => ?_
  obtain ⟨ts, hs, hg⟩ := Item.spells_text (h item hm)
  exact ⟨ts, hs, fun _ _ => .cons hg⟩

/-! ## Parsing the text -/

theorem Token.ofSource_of_spells {s : String} {ts : List Token} (h : Spells s ts) : ofSource s = .ok ts := by
  unfold ofSource
  rw [scan_of_spells h]

theorem Expr.parse_text {e : Expr} (h : ∀ name ∈ e.names, isName name) : Expr.parse e.text = .ok e := by
  obtain ⟨ts, hs, hg⟩ := Expr.spells_text h
  unfold Expr.parse
  rw [ofSource_of_spells hs]
  exact Parser.single_eq_ok_iff.mpr hg

theorem Item.parse_text {items : List Item} (h : ∀ item ∈ items, ∀ name ∈ item.names, isName name) :
    Item.parse (String.intercalate "\n" (items.map Item.text)) = .ok items := by
  obtain ⟨ts, hs, hg⟩ := Item.spells_program h
  unfold Item.parse
  rw [ofSource_of_spells hs]
  exact Parser.program_eq_ok_iff.mpr hg

/-- An expression, or a list of items, is parsed from its text exactly if all names in it are names.
That is so for all that the parser yields, and so printing and parsing again changes nothing. -/
theorem parse_printed :
    (∀ e : Expr, Expr.parse e.text = .ok e ↔ ∀ name ∈ e.names, isName name) ∧
    (∀ items : List Item, Item.parse (String.intercalate "\n" (items.map Item.text)) = .ok items ↔
      ∀ item ∈ items, ∀ name ∈ item.names, isName name) ∧
    (∀ (source : String) (e : Expr), Expr.parse source = .ok e →
      (∀ name ∈ e.names, isName name) ∧ Expr.parse e.text = .ok e) ∧
    ∀ (source : String) (items : List Item), Item.parse source = .ok items →
      (∀ item ∈ items, ∀ name ∈ item.names, isName name) ∧
        Item.parse (String.intercalate "\n" (items.map Item.text)) = .ok items := by
  refine ⟨fun e => ⟨Expr.isName_names_of_parse, Expr.parse_text⟩,
    fun items => ⟨Item.isName_names_of_parse, Item.parse_text⟩, fun source e h => ?_,
    fun source items h => ?_⟩
  · have hnames := Expr.isName_names_of_parse h
    exact ⟨hnames, Expr.parse_text hnames⟩
  · have hnames := Item.isName_names_of_parse h
    exact ⟨hnames, Item.parse_text hnames⟩

/-- A function with marks, a negative literal, blocks and forms in its text. -/
def visit : Function where
  name := "visit"
  parameters := ["node", "last?"]
  body :=
    [.cond (.binary .lt (.reference "node" true) (.literal (-1)))
      [.assign "node" true (.symbol "seen")]
      [.apply "visit" [.unary .not (.reference "node" false), .literal 0]]]

theorem parse_printed_visit :
    Item.parse "(FUNC visit (node last?) (IF (< *node -1) ((SET *node @seen)) ((visit (! node) 0))))" =
      .ok [.function visit] := by
  have htext : String.intercalate "\n" ([Item.function visit].map Item.text) =
      "(FUNC visit (node last?) (IF (< *node -1) ((SET *node @seen)) ((visit (! node) 0))))" := by cbv
  rw [← htext]
  exact (parse_printed.2.1 _).mpr (by decide)

end WordLisp

import WordLisp.Proofs.Source.Grammar

/-!
# Heads, cursors and single tokens

`c.Takes ts c'` says that the tokens `ts` stand between the cursors `c` and `c'`. A parser of single
tokens succeeds exactly if the grammar has what stands there, and takes just that. `head.Begins text`
relates the head of a form to the text that it is read from.
-/

namespace WordLisp

/-! ## Heads of forms -/

theorem UnaryOp.ofSymbol?_symbol (operator : UnaryOp) : ofSymbol? operator.symbol = some operator := by
  cases operator <;> decide

theorem BinaryOp.ofSymbol?_symbol (operator : BinaryOp) : ofSymbol? operator.symbol = some operator := by
  cases operator <;> decide

theorem BinaryOp.unary_ofSymbol? (operator : BinaryOp) : UnaryOp.ofSymbol? operator.symbol = none := by
  cases operator <;> decide

theorem UnaryOp.symbol_of_ofSymbol? {text : String} {operator : UnaryOp}
    (h : ofSymbol? text = some operator) : operator.symbol = text := by
  simpa using List.find?_some h

theorem BinaryOp.symbol_of_ofSymbol? {text : String} {operator : BinaryOp}
    (h : ofSymbol? text = some operator) : operator.symbol = text := by
  simpa using List.find?_some h

theorem UnaryOp.not_isName_symbol (operator : UnaryOp) : isName operator.symbol = false := by
  cases operator <;> decide

theorem BinaryOp.not_isName_symbol (operator : BinaryOp) : isName operator.symbol = false := by
  cases operator <;> decide

theorem ne_of_isName {name keyword : String} (h : isName name) (hk : keyword ∈ keywords) :
    name ≠ keyword := by
  rintro rfl
  unfold isName at h
  split at h
  · cases h
  · simp [hk] at h

namespace Grammar

theorem expression_of_row {ts : List Token} {e : Expr} (h : Row ts [e]) : Expression ts e := by
  cases h with
  | cons h hrest =>
    cases hrest
    rwa [List.append_nil]

theorem expressions_of_row {ts : List Token} {left right : Expr} (h : Row ts [left, right]) :
    ∃ us vs, ts = us ++ vs ∧ Expression us left ∧ Expression vs right := by
  cases h with
  | cons h hrest => exact ⟨_, _, rfl, h, expression_of_row hrest⟩

end Grammar

namespace Parser

/-- What the text at the head of a form says about the form. -/
inductive Head.Begins : Head → String → Prop where
  | function : Begins .function "FUNC"
  | declaration {keyword : String} : keyword = "INIT" ∨ keyword = "VAR" → Begins .declaration keyword
  | assignment : Begins .assignment "SET"
  | conditional : Begins .conditional "IF"
  | loop : Begins .loop "WHILE"
  | operation {symbol : String} : Begins (.operation symbol) symbol
  | application {name : String} : isName name → Begins (.application name) name

theorem Head.begins_of_of? {text : String} {head : Head} (h : Head.of? text = some head) :
    head.Begins text := by
  unfold Head.of? at h
  split at h
  · next ht => cases h; cases ht; exact .function
  split at h
  · next ht => cases h; exact .declaration ht
  split at h
  · next ht => cases h; cases ht; exact .assignment
  split at h
  · next ht => cases h; cases ht; exact .conditional
  split at h
  · next ht => cases h; cases ht; exact .loop
  split at h
  · cases h; exact .operation
  split at h
  · next ht => cases h; exact .application ht
  · cases h

theorem Head.of?_of_isName {name : String} (h : isName name) :
    Head.of? name = some (.application name) := by
  have hkeyword : name ≠ "FUNC" ∧ name ≠ "INIT" ∧ name ≠ "VAR" ∧ name ≠ "SET" ∧ name ≠ "IF" ∧
      name ≠ "WHILE" := by
    simpa [keywords] using fun keyword (hk : keyword ∈ keywords) => ne_of_isName h hk
  have hunary : UnaryOp.ofSymbol? name = none := by
    rw [Option.eq_none_iff_forall_ne_some]
    intro operator ho
    rw [← UnaryOp.symbol_of_ofSymbol? ho, operator.not_isName_symbol] at h
    cases h
  have hbinary : BinaryOp.ofSymbol? name = none := by
    rw [Option.eq_none_iff_forall_ne_some]
    intro operator ho
    rw [← BinaryOp.symbol_of_ofSymbol? ho, operator.not_isName_symbol] at h
    cases h
  simp [Head.of?, hkeyword, hunary, hbinary, h]

theorem Head.of?_declaration {keyword : String} (h : keyword = "INIT" ∨ keyword = "VAR") :
    Head.of? keyword = some .declaration := by
  rcases h with rfl | rfl <;> decide

theorem Head.of?_unary (operator : UnaryOp) :
    Head.of? operator.symbol = some (.operation operator.symbol) := by
  cases operator <;> decide

theorem Head.of?_binary (operator : BinaryOp) :
    Head.of? operator.symbol = some (.operation operator.symbol) := by
  cases operator <;> decide

theorem operation_unary (operator : UnaryOp) (operand : Expr) :
    operation operator.symbol [operand] = .ok (.unary operator operand) := by
  simp [operation, UnaryOp.ofSymbol?_symbol]

theorem operation_binary (operator : BinaryOp) (left right : Expr) :
    operation operator.symbol [left, right] = .ok (.binary operator left right) := by
  simp [operation, BinaryOp.unary_ofSymbol?, BinaryOp.ofSymbol?_symbol]

theorem operation_eq_ok {symbol : String} {operands : List Expr} {e : Expr}
    (h : operation symbol operands = .ok e) :
    (∃ operator operand, symbol = operator.symbol ∧ operands = [operand] ∧ e = .unary operator operand) ∨
    ∃ operator left right, symbol = operator.symbol ∧ operands = [left, right] ∧
      e = .binary operator left right := by
  unfold operation at h
  split at h
  · next operator operand ho =>
    cases h
    exact .inl ⟨operator, operand, (UnaryOp.symbol_of_ofSymbol? ho).symm, rfl, rfl⟩
  · cases h
  · next operator left right _ ho =>
    cases h
    exact .inr ⟨operator, left, right, (BinaryOp.symbol_of_ofSymbol? ho).symm, rfl, rfl⟩
  · cases h

/-! ## Cursors -/

inductive Cursor.Takes : Cursor → List Token → Cursor → Prop where
  | intro (position : Nat) (ts rest : List Token) :
    Takes ⟨position, ts ++ rest⟩ ts ⟨position + ts.length, rest⟩

namespace Cursor

theorem takes_nil {c c' : Cursor} : c.Takes [] c' ↔ c = c' := by
  constructor
  · rintro ⟨position, -, rest⟩
    rfl
  · rintro rfl
    exact .intro c.position [] c.tokens

theorem takes_append {c c' : Cursor} {ts us : List Token} :
    c.Takes (ts ++ us) c' ↔ ∃ c₁, c.Takes ts c₁ ∧ c₁.Takes us c' := by
  constructor
  · rintro ⟨position, -, rest⟩
    rw [List.append_assoc, List.length_append, ← Nat.add_assoc]
    exact ⟨_, .intro .., .intro ..⟩
  · rintro ⟨_, ⟨position, -, -⟩, -, -, rest⟩
    rw [← List.append_assoc, Nat.add_assoc, ← List.length_append]
    exact .intro ..

theorem takes_cons {c c' : Cursor} {t : Token} {ts : List Token} :
    c.Takes (t :: ts) c' ↔ ∃ c₁, c.Takes [t] c₁ ∧ c₁.Takes ts c' :=
  @takes_append c c' [t] ts

theorem takes_of_tokens {c : Cursor} (ts : List Token) {rest : List Token} (h : c.tokens = ts ++ rest) :
    c.Takes ts ⟨c.position + ts.length, rest⟩ := by
  obtain ⟨position, tokens⟩ := c
  cases h
  exact .intro ..

theorem Takes.tokens_eq {c c' : Cursor} {ts : List Token} (h : c.Takes ts c') :
    c.tokens = ts ++ c'.tokens := by
  obtain ⟨position, -, rest⟩ := h
  rfl

theorem Takes.cons {c c₁ c' : Cursor} {t : Token} {ts : List Token} (h : c.Takes [t] c₁)
    (h' : c₁.Takes ts c') : c.Takes (t :: ts) c' :=
  takes_cons.mpr ⟨c₁, h, h'⟩

theorem Takes.append {c c₁ c' : Cursor} {ts us : List Token} (h : c.Takes ts c₁)
    (h' : c₁.Takes us c') : c.Takes (ts ++ us) c' :=
  takes_append.mpr ⟨c₁, h, h'⟩

end Cursor

/-! ## Single tokens -/

section
variable {c c' : Cursor} {form : Form}

theorem takes_of_expect {token : Token} {p : Parsed Unit c.size} (h : expect form token c = .ok p) :
    c.Takes [token] p.rest := by
  obtain ⟨position, tokens⟩ := c
  cases tokens with
  | nil => cases h
  | cons t ts =>
    unfold expect at h
    simp only at h
    split at h
    · next ht =>
      cases h
      cases ht
      exact .intro position [_] ts
    · cases h

theorem expect_of_takes (form : Form) {token : Token} (h : c.Takes [token] c') :
    ∃ hlt, expect form token c = .ok ⟨(), c', hlt⟩ := by
  obtain ⟨position, -, rest⟩ := h
  exact ⟨Nat.lt_succ_self _, by simp [expect]⟩

theorem takes_of_expectName {p : Parsed String c.size} (h : expectName form c = .ok p) :
    isName p.value ∧ c.Takes [.atom p.value] p.rest := by
  obtain ⟨position, tokens⟩ := c
  unfold expectName at h
  split at h
  · next text ts ht =>
    cases ht
    split at h
    · next hn =>
      cases h
      exact ⟨hn, .intro position [_] ts⟩
    · cases h
  · cases h

theorem expectName_of_takes (form : Form) {name : String} (hn : isName name) (h : c.Takes [.atom name] c') :
    ∃ hlt, expectName form c = .ok ⟨name, c', hlt⟩ := by
  obtain ⟨position, -, rest⟩ := h
  exact ⟨Nat.lt_succ_self _, by simp [expectName, hn]⟩

theorem markedName?_eq_some_iff {mark : Char} {text name : String} :
    markedName? mark text = some name ↔ text = mark.toString ++ name ∧ isName name := by
  have htext : text = mark.toString ++ name ↔ text.toList = mark :: name.toList := by
    rw [← String.toList_inj]
    simp
  rw [htext]
  unfold markedName?
  cases text.toList with
  | nil => simp
  | cons c cs =>
    simp only [List.cons.injEq, Option.ite_none_right_eq_some, Option.some.injEq]
    constructor
    · rintro ⟨⟨rfl, hn⟩, rfl⟩
      exact ⟨⟨rfl, String.toList_ofList.symm⟩, hn⟩
    · rintro ⟨⟨rfl, rfl⟩, hn⟩
      rw [String.ofList_toList]
      exact ⟨⟨rfl, hn⟩, rfl⟩

/-- A name behind a mark is no name itself. -/
theorem markedName?_of_isName {mark : Char} {text : String} (hmark : isNameStart mark = false)
    (h : isName text) : markedName? mark text = none := by
  rw [Option.eq_none_iff_forall_ne_some]
  intro name hm
  obtain ⟨rfl, -⟩ := markedName?_eq_some_iff.mp hm
  simp [isName, hmark] at h

theorem target_iff {text name : String} {indirect : Bool} : Grammar.Target text name indirect ↔
    (indirect = true ∧ markedName? '*' text = some name) ∨
      (indirect = false ∧ markedName? '*' text = none ∧ text = name ∧ isName name) := by
  constructor
  · rintro (hn | hn)
    · exact .inr ⟨rfl, markedName?_of_isName (by decide) hn, rfl, hn⟩
    · exact .inl ⟨rfl, markedName?_eq_some_iff.mpr ⟨rfl, hn⟩⟩
  · rintro (⟨rfl, hm⟩ | ⟨rfl, -, rfl, hn⟩)
    · obtain ⟨rfl, hn⟩ := markedName?_eq_some_iff.mp hm
      exact .indirect hn
    · exact .direct hn

theorem takes_of_expectTarget {p : Parsed (String × Bool) c.size} (h : expectTarget form c = .ok p) :
    ∃ text, Grammar.Target text p.value.1 p.value.2 ∧ c.Takes [.atom text] p.rest := by
  obtain ⟨position, tokens⟩ := c
  unfold expectTarget at h
  split at h
  · next text ts ht =>
    cases ht
    split at h
    · next name hm =>
      cases h
      exact ⟨text, target_iff.mpr (.inl ⟨rfl, hm⟩), .intro position [_] ts⟩
    · next hm =>
      split at h
      · next hn =>
        cases h
        exact ⟨text, target_iff.mpr (.inr ⟨rfl, hm, rfl, hn⟩), .intro position [_] ts⟩
      · cases h
  · cases h

theorem expectTarget_of_takes (form : Form) {text name : String} {indirect : Bool}
    (ht : Grammar.Target text name indirect) (h : c.Takes [.atom text] c') :
    ∃ hlt, expectTarget form c = .ok ⟨(name, indirect), c', hlt⟩ := by
  obtain ⟨position, -, rest⟩ := h
  refine ⟨Nat.lt_succ_self _, ?_⟩
  rcases target_iff.mp ht with ⟨rfl, hm⟩ | ⟨rfl, hm, rfl, hn⟩
  · simp [expectTarget, hm]
  · simp [expectTarget, hm, hn]

end

/-- The names that are there are all that are taken. -/
theorem takes_names (position : Nat) (tokens : List Token) :
    ∃ ts, Grammar.Names ts (names position tokens).value ∧
      Cursor.Takes ⟨position, tokens⟩ ts (names position tokens).rest := by
  induction tokens generalizing position with
  | nil => exact ⟨[], .nil, Cursor.takes_nil.mpr rfl⟩
  | cons t ts ih =>
    cases t with
    | atom text =>
      rw [names]
      split
      · next hn =>
        obtain ⟨us, hus, hc⟩ := ih (position + 1)
        exact ⟨.atom text :: us, .cons hn hus, .cons (.intro position [_] ts) hc⟩
      · exact ⟨[], .nil, Cursor.takes_nil.mpr rfl⟩
    | _ => exact ⟨[], .nil, Cursor.takes_nil.mpr rfl⟩

/-- Names in front of a parenthesis are all read. -/
theorem names_of_takes {ts : List Token} {ns : List String} (h : Grammar.Names ts ns) {c c₁ c' : Cursor}
    (ht : c.Takes ts c₁) (hr : c₁.Takes [.rparen] c') :
    ∃ hlt, names c.position c.tokens = ⟨ns, c₁, hlt⟩ := by
  induction h generalizing c with
  | nil =>
    obtain rfl := Cursor.takes_nil.mp ht
    obtain ⟨position, -, rest⟩ := hr
    exact ⟨Nat.lt_succ_self _, rfl⟩
  | cons hn _ ih =>
    obtain ⟨c₂, hc, hc₂⟩ := Cursor.takes_cons.mp ht
    obtain ⟨hlt, heq⟩ := ih hc₂
    obtain ⟨position, -, rest⟩ := hc
    refine ⟨Nat.lt_succ_of_lt hlt, ?_⟩
    simp only [List.singleton_append, List.length_singleton] at heq ⊢
    rw [names, if_pos hn, heq]

/-! ## Atoms and parentheses -/

/-- What an atom stands for. -/
theorem atomExpr?_eq_some_iff {text : String} {e : Expr} :
    atomExpr? text = some e ↔ (∃ name, markedName? '@' text = some name ∧ e = .symbol name) ∨
      ∃ name indirect, Grammar.Target text name indirect ∧ e = .reference name indirect := by
  unfold atomExpr?
  constructor
  · intro h
    split at h
    · next name hm =>
      cases h
      exact .inl ⟨name, hm, rfl⟩
    · next name hm _ =>
      cases h
      exact .inr ⟨_, true, target_iff.mpr (.inl ⟨rfl, hm⟩), rfl⟩
    · split at h
      · next hn =>
        cases h
        exact .inr ⟨text, false, .direct hn, rfl⟩
      · cases h
  · rintro (⟨name, hm, rfl⟩ | ⟨name, indirect, hn | hn, rfl⟩)
    · simp [hm]
    · have hat : markedName? '@' text = none := markedName?_of_isName (by decide) hn
      have hstar : markedName? '*' text = none := markedName?_of_isName (by decide) hn
      simp [hat, hstar, hn]
    · have hstar : markedName? '*' ("*" ++ name) = some name := markedName?_eq_some_iff.mpr ⟨rfl, hn⟩
      have hat : markedName? '@' ("*" ++ name) = none := by simp [markedName?]
      simp [hat, hstar]

theorem expression?_integer (position : Nat) (value : Word) (ts : List Token) :
    expression? ⟨position, .integer value :: ts⟩ =
      .ok (some ⟨.literal value, ⟨position + 1, ts⟩, Nat.lt_succ_self _⟩) := by
  rw [expression?]

theorem expression?_atom (position : Nat) (text : String) (ts : List Token) :
    expression? ⟨position, .atom text :: ts⟩ =
      .ok ((atomExpr? text).map fun e => ⟨e, ⟨position + 1, ts⟩, Nat.lt_succ_self _⟩) := by
  rw [expression?]

theorem expression?_rparen (position : Nat) (ts : List Token) :
    expression? ⟨position, .rparen :: ts⟩ = .ok none := by
  rw [expression?]

theorem expression?_form (position : Nat) {text : String} (ts : List Token) {head : Head}
    (h : Head.of? text = some head) :
    expression? ⟨position, .lparen :: .atom text :: ts⟩ =
      (form head ⟨position + 2, ts⟩).map fun p => some (p.weaken (Nat.le_add_right _ 2)) := by
  rw [expression?]
  simp only [h]
  rfl

end Parser

end WordLisp

import WordLisp.Proofs.Results
import WordLisp.Proofs.Source.Cursors

/-!
# Parsing follows the grammar

What a parser reads from one cursor up to another is what the grammar derives from the tokens that it
takes, and the other way round. A parser for a row goes on as long as it can. The rows of the grammar
stand in front of a parenthesis that closes them, or of the end, and so they end in the right place.

Main statement: the parser yields exactly what the grammar derives from all of the tokens.
-/

namespace WordLisp

namespace Parser

/-! ## What is read is derived -/

mutual

theorem takes_of_expression? {c : Cursor} {p : Parsed Expr c.size} (h : expression? c = .ok (some p)) :
    ∃ ts, Grammar.Expression ts p.value ∧ c.Takes ts p.rest := by
  rw [expression?] at h
  split at h
  · next value ts ht =>
    cases h
    exact ⟨[_], .integer, Cursor.takes_of_tokens [_] ht⟩
  · next text ts ht =>
    obtain ⟨e, he, hp⟩ := Option.map_eq_some_iff.mp (Except.ok.inj h)
    cases hp
    rcases atomExpr?_eq_some_iff.mp he with ⟨name, hm, rfl⟩ | ⟨name, indirect, htarget, rfl⟩
    · obtain ⟨rfl, hn⟩ := markedName?_eq_some_iff.mp hm
      exact ⟨[_], .symbol hn, Cursor.takes_of_tokens [_] ht⟩
    · exact ⟨[_], .reference htarget, Cursor.takes_of_tokens [_] ht⟩
  · next text ts ht =>
    have hlt : ts.length < c.size := by
      unfold Cursor.size
      rw [ht]
      exact Nat.lt_add_of_pos_right Nat.two_pos
    split at h
    · cases h
    · next head hhead =>
      obtain ⟨q, hq, hp⟩ := ok_of_bind_eq_ok h
      obtain rfl := Option.some.inj (Except.ok.inj hp)
      obtain ⟨us, hus, hc⟩ := takes_of_form (Head.begins_of_of? hhead) hq
      exact ⟨_, hus, (Cursor.takes_of_tokens [_, _] ht).append hc⟩
  · cases h
termination_by (c.size, 0)

theorem takes_of_form {head : Head} {text : String} {c : Cursor} {p : Parsed Expr c.size}
    (hhead : head.Begins text) (h : form head c = .ok p) :
    ∃ ts, Grammar.Expression (.lparen :: .atom text :: ts) p.value ∧ c.Takes ts p.rest := by
  rw [form.eq_def] at h
  cases hhead with
  | function => cases h
  | declaration hk =>
    obtain ⟨q, hq, h⟩ := ok_of_bind_eq_ok h
    cases h
    obtain ⟨ts, hts, hc⟩ := takes_of_declaration hk hq
    exact ⟨ts, .declaration hts, hc⟩
  | assignment =>
    obtain ⟨⟨⟨name, indirect⟩, c₁, h₁⟩, hx₁, h⟩ := ok_of_bind_eq_ok h
    obtain ⟨⟨value, c₂, h₂⟩, hx₂, h⟩ := ok_of_bind_eq_ok h
    obtain ⟨⟨_, c₃, h₃⟩, hx₃, h⟩ := ok_of_bind_eq_ok h
    cases h
    obtain ⟨text, ht, hc₁⟩ := takes_of_expectTarget hx₁
    obtain ⟨ts, hts, hc₂⟩ := takes_of_expression hx₂
    exact ⟨_, .assignment ht hts, .cons hc₁ (.append hc₂ (takes_of_expect hx₃))⟩
  | conditional =>
    obtain ⟨⟨test, c₁, h₁⟩, hx₁, h⟩ := ok_of_bind_eq_ok h
    obtain ⟨⟨yes, c₂, h₂⟩, hx₂, h⟩ := ok_of_bind_eq_ok h
    obtain ⟨⟨no, c₃, h₃⟩, hx₃, h⟩ := ok_of_bind_eq_ok h
    obtain ⟨⟨_, c₄, h₄⟩, hx₄, h⟩ := ok_of_bind_eq_ok h
    cases h
    obtain ⟨ts, hts, hc₁⟩ := takes_of_expression hx₁
    obtain ⟨us, hus, hc₂⟩ := takes_of_block hx₂
    obtain ⟨vs, hvs, hc₃⟩ := takes_of_block hx₃
    exact ⟨_, .conditional hts hus hvs, .append hc₁ (.append hc₂ (.append hc₃ (takes_of_expect hx₄)))⟩
  | loop =>
    obtain ⟨⟨test, c₁, h₁⟩, hx₁, h⟩ := ok_of_bind_eq_ok h
    obtain ⟨⟨body, c₂, h₂⟩, hx₂, h⟩ := ok_of_bind_eq_ok h
    obtain ⟨⟨_, c₃, h₃⟩, hx₃, h⟩ := ok_of_bind_eq_ok h
    cases h
    obtain ⟨ts, hts, hc₁⟩ := takes_of_expression hx₁
    obtain ⟨us, hus, hc₂⟩ := takes_of_sequence hx₂
    exact ⟨_, .loop hts hus, .append hc₁ (.append hc₂ (takes_of_expect hx₃))⟩
  | operation =>
    obtain ⟨⟨operands, c₁, h₁⟩, hx₁, h⟩ := ok_of_bind_eq_ok h
    obtain ⟨⟨_, c₂, h₂⟩, hx₂, h⟩ := ok_of_bind_eq_ok h
    obtain ⟨e, he, h⟩ := ok_of_bind_eq_ok h
    cases h
    obtain ⟨ts, hts, hc₁⟩ := takes_of_sequence hx₁
    rcases operation_eq_ok he with ⟨operator, operand, rfl, rfl, rfl⟩ | ⟨operator, left, right, rfl, rfl, rfl⟩
    · exact ⟨_, .unary (Grammar.expression_of_row hts), .append hc₁ (takes_of_expect hx₂)⟩
    · obtain ⟨us, vs, rfl, hus, hvs⟩ := Grammar.expressions_of_row hts
      refine ⟨_, .binary hus hvs, ?_⟩
      rw [← List.append_assoc]
      exact .append hc₁ (takes_of_expect hx₂)
  | application hn =>
    obtain ⟨⟨arguments, c₁, h₁⟩, hx₁, h⟩ := ok_of_bind_eq_ok h
    obtain ⟨⟨_, c₂, h₂⟩, hx₂, h⟩ := ok_of_bind_eq_ok h
    cases h
    obtain ⟨ts, hts, hc₁⟩ := takes_of_sequence hx₁
    exact ⟨_, .application hn hts, .append hc₁ (takes_of_expect hx₂)⟩
termination_by (c.size, 3)

theorem takes_of_declaration {keyword : String} {c : Cursor} {p : Parsed (String × Expr) c.size}
    (hk : keyword = "INIT" ∨ keyword = "VAR") (h : declaration c = .ok p) :
    ∃ ts, Grammar.Declaration (.lparen :: .atom keyword :: ts) p.value.1 p.value.2 ∧ c.Takes ts p.rest := by
  rw [declaration] at h
  obtain ⟨⟨name, c₁, h₁⟩, hx₁, h⟩ := ok_of_bind_eq_ok h
  obtain ⟨⟨value, c₂, h₂⟩, hx₂, h⟩ := ok_of_bind_eq_ok h
  obtain ⟨⟨_, c₃, h₃⟩, hx₃, h⟩ := ok_of_bind_eq_ok h
  cases h
  obtain ⟨hn, hc₁⟩ := takes_of_expectName hx₁
  obtain ⟨ts, hts, hc₂⟩ := takes_of_expression hx₂
  exact ⟨_, .intro hk hn hts, .cons hc₁ (.append hc₂ (takes_of_expect hx₃))⟩
termination_by (c.size, 2)

theorem takes_of_expression {needed : Form} {c : Cursor} {p : Parsed Expr c.size}
    (h : expression needed c = .ok p) : ∃ ts, Grammar.Expression ts p.value ∧ c.Takes ts p.rest := by
  rw [expression] at h
  obtain ⟨q, hq, h⟩ := ok_of_bind_eq_ok h
  cases q with
  | none => cases h
  | some q =>
    cases h
    exact takes_of_expression? hq
termination_by (c.size, 1)

theorem takes_of_sequence {c : Cursor} {p : Parsed (List Expr) (c.size + 1)} (h : sequence c = .ok p) :
    ∃ ts, Grammar.Row ts p.value ∧ c.Takes ts p.rest := by
  rw [sequence] at h
  obtain ⟨q, hq, h⟩ := ok_of_bind_eq_ok h
  cases q with
  | none =>
    cases h
    exact ⟨[], .nil, Cursor.takes_nil.mpr rfl⟩
  | some q =>
    obtain ⟨e, c₁, h₁⟩ := q
    obtain ⟨⟨es, c₂, h₂⟩, hx₂, h⟩ := ok_of_bind_eq_ok h
    cases h
    obtain ⟨ts, hts, hc₁⟩ := takes_of_expression? hq
    obtain ⟨us, hus, hc₂⟩ := takes_of_sequence hx₂
    exact ⟨_, .cons hts hus, .append hc₁ hc₂⟩
termination_by (c.size, 1)

theorem takes_of_block {within : Form} {c : Cursor} {p : Parsed (List Expr) c.size}
    (h : block within c = .ok p) : ∃ ts, Grammar.Block ts p.value ∧ c.Takes ts p.rest := by
  rw [block] at h
  obtain ⟨⟨_, c₁, h₁⟩, hx₁, h⟩ := ok_of_bind_eq_ok h
  obtain ⟨⟨es, c₂, h₂⟩, hx₂, h⟩ := ok_of_bind_eq_ok h
  obtain ⟨⟨_, c₃, h₃⟩, hx₃, h⟩ := ok_of_bind_eq_ok h
  cases h
  obtain ⟨ts, hts, hc₂⟩ := takes_of_sequence hx₂
  exact ⟨_, .intro hts, .cons (takes_of_expect hx₁) (.append hc₂ (takes_of_expect hx₃))⟩
termination_by (c.size, 0)

end

/-! ## What is derived is read -/

theorem expression_of_expression? (needed : Form) {c c' : Cursor} {e : Expr}
    (h : ∃ hlt, expression? c = .ok (some ⟨e, c', hlt⟩)) :
    ∃ hlt, expression needed c = .ok ⟨e, c', hlt⟩ := by
  obtain ⟨hlt, h⟩ := h
  exact ⟨hlt, by rw [expression, h]; rfl⟩

theorem expression?_of_form {text : String} {head : Head} {c c' : Cursor} {ts : List Token} {e : Expr}
    (hhead : Head.of? text = some head) (hc : c.Takes (.lparen :: .atom text :: ts) c')
    (h : ∀ {c₁ : Cursor}, c₁.Takes ts c' → ∃ hlt, form head c₁ = .ok ⟨e, c', hlt⟩) :
    ∃ hlt, expression? c = .ok (some ⟨e, c', hlt⟩) := by
  obtain ⟨c₁, hc₀, hc₁⟩ := (@Cursor.takes_append _ _ [_, _] ts).mp hc
  obtain ⟨hlt, hx⟩ := h hc₁
  obtain ⟨position, -, rest⟩ := hc₀
  have hx : form head ⟨position + 2, rest⟩ = .ok ⟨e, c', hlt⟩ := hx
  exact ⟨Nat.lt_add_right 2 hlt, (expression?_form position rest hhead).trans (by rw [hx]; rfl)⟩

theorem expression?_of_atom {text : String} {c c' : Cursor} {e : Expr} (he : atomExpr? text = some e)
    (hc : c.Takes [.atom text] c') : ∃ hlt, expression? c = .ok (some ⟨e, c', hlt⟩) := by
  obtain ⟨position, -, rest⟩ := hc
  exact ⟨Nat.lt_succ_self _, (expression?_atom position text rest).trans (by rw [he]; rfl)⟩

/-- No expression begins with a closing parenthesis. -/
theorem sequence_of_rparen {c c' : Cursor} (h : c.Takes [.rparen] c') :
    ∃ hlt, sequence c = .ok ⟨[], c, hlt⟩ := by
  obtain ⟨position, -, rest⟩ := h
  have hx : expression? ⟨position, [.rparen] ++ rest⟩ = .ok none := expression?_rparen position rest
  exact ⟨Nat.lt_succ_self _, by rw [sequence, hx]; rfl⟩

theorem sequence_succ_of_expression? {c c₁ c' : Cursor} {e : Expr} {es : List Expr}
    (h : ∃ hlt, expression? c = .ok (some ⟨e, c₁, hlt⟩)) (h' : ∃ hlt, sequence c₁ = .ok ⟨es, c', hlt⟩) :
    ∃ hlt, sequence c = .ok ⟨e :: es, c', hlt⟩ := by
  obtain ⟨h₁, hx₁⟩ := h
  obtain ⟨h₂, hx₂⟩ := h'
  refine ⟨by omega, ?_⟩
  rw [sequence]
  simp only [hx₁, hx₂, bind, Except.bind, pure, Except.pure]

theorem block_of_takes (within : Form) {c c' : Cursor} {ts : List Token} {es : List Expr}
    (hc : c.Takes (.lparen :: (ts ++ [.rparen])) c')
    (h : ∀ {c₁ c₂ : Cursor}, c₁.Takes ts c₂ → c₂.Takes [.rparen] c' →
      ∃ hlt, sequence c₁ = .ok ⟨es, c₂, hlt⟩) :
    ∃ hlt, block within c = .ok ⟨es, c', hlt⟩ := by
  obtain ⟨c₁, hc₁, hc⟩ := Cursor.takes_cons.mp hc
  obtain ⟨c₂, hc₂, hc₃⟩ := Cursor.takes_append.mp hc
  obtain ⟨h₁, hx₁⟩ := expect_of_takes within hc₁
  obtain ⟨h₂, hx₂⟩ := h hc₂ hc₃
  obtain ⟨h₃, hx₃⟩ := expect_of_takes within hc₃
  refine ⟨by omega, ?_⟩
  rw [block]
  simp only [hx₁, hx₂, hx₃, bind, Except.bind, pure, Except.pure]

theorem declaration_of_takes {name : String} {value : Expr} {c c₁ c₂ c' : Cursor} (hn : isName name)
    (hc₁ : c.Takes [.atom name] c₁) (h : ∃ hlt, expression? c₁ = .ok (some ⟨value, c₂, hlt⟩))
    (hc₂ : c₂.Takes [.rparen] c') : ∃ hlt, declaration c = .ok ⟨(name, value), c', hlt⟩ := by
  obtain ⟨h₁, hx₁⟩ := expectName_of_takes .declaration hn hc₁
  obtain ⟨h₂, hx₂⟩ := expression_of_expression? .declaration h
  obtain ⟨h₃, hx₃⟩ := expect_of_takes .declaration hc₂
  refine ⟨by omega, ?_⟩
  rw [declaration]
  simp only [hx₁, hx₂, hx₃, bind, Except.bind, pure, Except.pure]

mutual

theorem expression?_of_takes : ∀ {ts : List Token} {e : Expr}, Grammar.Expression ts e →
    ∀ {c c' : Cursor}, c.Takes ts c' → ∃ hlt, expression? c = .ok (some ⟨e, c', hlt⟩)
  | _, _, .integer, _, _, ⟨position, _, rest⟩ => ⟨_, expression?_integer position _ rest⟩
  | _, _, .symbol hn, _, _, hc =>
    expression?_of_atom
      (atomExpr?_eq_some_iff.mpr (.inl ⟨_, markedName?_eq_some_iff.mpr ⟨rfl, hn⟩, rfl⟩)) hc
  | _, _, .reference ht, _, _, hc =>
    expression?_of_atom (atomExpr?_eq_some_iff.mpr (.inr ⟨_, _, ht, rfl⟩)) hc
  | _, _, .declaration (.intro hk hn hv), _, _, hc => by
    refine expression?_of_form (Head.of?_declaration hk) hc fun hc => ?_
    obtain ⟨c₁, hc₁, hc⟩ := Cursor.takes_cons.mp hc
    obtain ⟨c₂, hc₂, hc₃⟩ := Cursor.takes_append.mp hc
    obtain ⟨h₂, hx₂⟩ := expression?_of_takes hv hc₂
    obtain ⟨hlt, hx⟩ := declaration_of_takes hn hc₁ ⟨h₂, hx₂⟩ hc₃
    exact ⟨hlt, by simp only [form, hx, bind, Except.bind, pure, Except.pure]⟩
  | _, _, .assignment ht hv, _, _, hc => by
    refine expression?_of_form (by decide : Head.of? "SET" = some .assignment) hc fun hc => ?_
    obtain ⟨c₁, hc₁, hc⟩ := Cursor.takes_cons.mp hc
    obtain ⟨c₂, hc₂, hc₃⟩ := Cursor.takes_append.mp hc
    obtain ⟨h₁, hx₁⟩ := expectTarget_of_takes .assignment ht hc₁
    obtain ⟨h₂, hx₂⟩ := expression_of_expression? .assignment (expression?_of_takes hv hc₂)
    obtain ⟨h₃, hx₃⟩ := expect_of_takes .assignment hc₃
    exact ⟨by omega, by simp only [form, hx₁, hx₂, hx₃, bind, Except.bind, pure, Except.pure]⟩
  | _, _, .conditional ht (.intro hyes) (.intro hno), _, _, hc => by
    refine expression?_of_form (by decide : Head.of? "IF" = some .conditional) hc fun hc => ?_
    obtain ⟨c₁, hc₁, hc⟩ := Cursor.takes_append.mp hc
    obtain ⟨c₂, hc₂, hc⟩ := Cursor.takes_append.mp hc
    obtain ⟨c₃, hc₃, hc₄⟩ := Cursor.takes_append.mp hc
    obtain ⟨h₁, hx₁⟩ := expression_of_expression? .conditional (expression?_of_takes ht hc₁)
    obtain ⟨h₂, hx₂⟩ := block_of_takes .conditional hc₂ fun hc hr => sequence_of_takes hyes hc hr
    obtain ⟨h₃, hx₃⟩ := block_of_takes .conditional hc₃ fun hc hr => sequence_of_takes hno hc hr
    obtain ⟨h₄, hx₄⟩ := expect_of_takes .conditional hc₄
    exact ⟨by omega, by simp only [form, hx₁, hx₂, hx₃, hx₄, bind, Except.bind, pure, Except.pure]⟩
  | _, _, .loop ht hbody, _, _, hc => by
    refine expression?_of_form (by decide : Head.of? "WHILE" = some .loop) hc fun hc => ?_
    obtain ⟨c₁, hc₁, hc⟩ := Cursor.takes_append.mp hc
    obtain ⟨c₂, hc₂, hc₃⟩ := Cursor.takes_append.mp hc
    obtain ⟨h₁, hx₁⟩ := expression_of_expression? .loop (expression?_of_takes ht hc₁)
    obtain ⟨h₂, hx₂⟩ := sequence_of_takes hbody hc₂ hc₃
    obtain ⟨h₃, hx₃⟩ := expect_of_takes .loop hc₃
    exact ⟨by omega, by simp only [form, hx₁, hx₂, hx₃, bind, Except.bind, pure, Except.pure]⟩
  | _, _, .unary h, _, _, hc => by
    refine expression?_of_form (Head.of?_unary _) hc fun hc => ?_
    obtain ⟨c₁, hc₁, hc₂⟩ := Cursor.takes_append.mp hc
    obtain ⟨h₁, hx₁⟩ := sequence_succ_of_expression? (expression?_of_takes h hc₁) (sequence_of_rparen hc₂)
    obtain ⟨h₂, hx₂⟩ := expect_of_takes .operation hc₂
    exact ⟨by omega, by simp only [form, hx₁, hx₂, operation_unary, bind, Except.bind, pure, Except.pure]⟩
  | _, _, .binary hl hr, _, _, hc => by
    refine expression?_of_form (Head.of?_binary _) hc fun hc => ?_
    obtain ⟨c₁, hc₁, hc⟩ := Cursor.takes_append.mp hc
    obtain ⟨c₂, hc₂, hc₃⟩ := Cursor.takes_append.mp hc
    obtain ⟨h₁, hx₁⟩ := sequence_succ_of_expression? (expression?_of_takes hl hc₁)
      (sequence_succ_of_expression? (expression?_of_takes hr hc₂) (sequence_of_rparen hc₃))
    obtain ⟨h₃, hx₃⟩ := expect_of_takes .operation hc₃
    exact ⟨by omega, by simp only [form, hx₁, hx₃, operation_binary, bind, Except.bind, pure, Except.pure]⟩
  | _, _, .application hn hrow, _, _, hc => by
    refine expression?_of_form (Head.of?_of_isName hn) hc fun hc => ?_
    obtain ⟨c₁, hc₁, hc₂⟩ := Cursor.takes_append.mp hc
    obtain ⟨h₁, hx₁⟩ := sequence_of_takes hrow hc₁ hc₂
    obtain ⟨h₂, hx₂⟩ := expect_of_takes .application hc₂
    exact ⟨by omega, by simp only [form, hx₁, hx₂, bind, Except.bind, pure, Except.pure]⟩

theorem sequence_of_takes : ∀ {ts : List Token} {es : List Expr}, Grammar.Row ts es →
    ∀ {c c₁ c' : Cursor}, c.Takes ts c₁ → c₁.Takes [.rparen] c' →
      ∃ hlt, sequence c = .ok ⟨es, c₁, hlt⟩
  | _, _, .nil, _, _, _, hc, hr => by
    obtain rfl := Cursor.takes_nil.mp hc
    exact sequence_of_rparen hr
  | _, _, .cons he hes, _, _, _, hc, hr => by
    obtain ⟨c₂, hc₁, hc₂⟩ := Cursor.takes_append.mp hc
    exact sequence_succ_of_expression? (expression?_of_takes he hc₁) (sequence_of_takes hes hc₂ hr)

end

/-! ## Items -/

theorem takes_of_function {c : Cursor} {p : Parsed Function c.size} (h : function c = .ok p) :
    ∃ ts, Grammar.TopLevel (.lparen :: .atom "FUNC" :: ts) (.function p.value) ∧ c.Takes ts p.rest := by
  unfold function at h
  obtain ⟨⟨name, c₁, h₁⟩, hx₁, h⟩ := ok_of_bind_eq_ok h
  obtain ⟨⟨_, c₂, h₂⟩, hx₂, h⟩ := ok_of_bind_eq_ok h
  obtain ⟨⟨_, c₄, h₄⟩, hx₄, h⟩ := ok_of_bind_eq_ok h
  obtain ⟨⟨body, c₅, h₅⟩, hx₅, h⟩ := ok_of_bind_eq_ok h
  obtain ⟨⟨_, c₆, h₆⟩, hx₆, h⟩ := ok_of_bind_eq_ok h
  cases h
  obtain ⟨hn, hc₁⟩ := takes_of_expectName hx₁
  obtain ⟨ts, hts, hc₃⟩ := takes_names c₂.position c₂.tokens
  obtain ⟨us, hus, hc₅⟩ := takes_of_sequence hx₅
  have hc₄ := (takes_of_expect hx₄).cons (hc₅.append (takes_of_expect hx₆))
  exact ⟨_, .function hn hts hus, hc₁.cons ((takes_of_expect hx₂).cons (hc₃.append hc₄))⟩

theorem function_of_takes {name : String} {parameters : List String} {body : List Expr}
    {ts us : List Token} {c c' : Cursor} (hn : isName name) (hts : Grammar.Names ts parameters)
    (hus : Grammar.Row us body)
    (hc : c.Takes (.atom name :: .lparen :: (ts ++ (.rparen :: (us ++ [.rparen])))) c') :
    ∃ hlt, function c = .ok ⟨⟨name, parameters, body⟩, c', hlt⟩ := by
  obtain ⟨c₁, hc₁, hc⟩ := Cursor.takes_cons.mp hc
  obtain ⟨c₂, hc₂, hc⟩ := Cursor.takes_cons.mp hc
  obtain ⟨c₃, hc₃, hc⟩ := Cursor.takes_append.mp hc
  obtain ⟨c₄, hc₄, hc⟩ := Cursor.takes_cons.mp hc
  obtain ⟨c₅, hc₅, hc₆⟩ := Cursor.takes_append.mp hc
  obtain ⟨h₁, hx₁⟩ := expectName_of_takes .function hn hc₁
  obtain ⟨h₂, hx₂⟩ := expect_of_takes .function hc₂
  obtain ⟨h₃, hx₃⟩ := names_of_takes hts hc₃ hc₄
  obtain ⟨h₄, hx₄⟩ := expect_of_takes .function hc₄
  obtain ⟨h₅, hx₅⟩ := sequence_of_takes hus hc₅ hc₆
  obtain ⟨h₆, hx₆⟩ := expect_of_takes .function hc₆
  have h₃' : c₃.size < c₂.size + 1 := h₃
  refine ⟨by omega, ?_⟩
  unfold function
  simp only [hx₁, hx₂, bind, Except.bind]
  rw [hx₃]
  simp only [hx₄, hx₅, hx₆, pure, Except.pure]

theorem takes_of_item? {c : Cursor} {p : Parsed Item c.size} (h : item? c = .ok (some p)) :
    ∃ ts, Grammar.TopLevel ts p.value ∧ c.Takes ts p.rest := by
  unfold item? at h
  split at h
  · next text ts ht =>
    have hc : c.Takes [_, _] ⟨c.position + 2, ts⟩ := Cursor.takes_of_tokens [_, _] ht
    simp only at h
    split at h
    · next hhead =>
      obtain ⟨q, hq, hp⟩ := ok_of_bind_eq_ok h
      obtain rfl := Option.some.inj (Except.ok.inj hp)
      cases Head.begins_of_of? hhead
      obtain ⟨us, hus, hc'⟩ := takes_of_function hq
      exact ⟨_, hus, hc.append hc'⟩
    · next hhead =>
      obtain ⟨q, hq, hp⟩ := ok_of_bind_eq_ok h
      obtain rfl := Option.some.inj (Except.ok.inj hp)
      cases Head.begins_of_of? hhead with
      | declaration hk =>
        obtain ⟨us, hus, hc'⟩ := takes_of_declaration hk hq
        exact ⟨_, .declaration hus, hc.append hc'⟩
    · cases h
  · cases h

theorem item?_of_takes {ts : List Token} {item : Item} (h : Grammar.TopLevel ts item) {c c' : Cursor}
    (hc : c.Takes ts c') : ∃ hlt, item? c = .ok (some ⟨item, c', hlt⟩) := by
  cases h with
  | function hn hts hus =>
    obtain ⟨c₁, hc₀, hc₁⟩ := (@Cursor.takes_append _ _ [_, _] _).mp hc
    obtain ⟨hlt, hx⟩ := function_of_takes hn hts hus hc₁
    obtain ⟨position, -, rest⟩ := hc₀
    have hx : function ⟨position + 2, rest⟩ = .ok ⟨_, c', hlt⟩ := hx
    have hhead : Head.of? "FUNC" = some .function := by decide
    refine ⟨Nat.lt_add_right 2 hlt, ?_⟩
    show item? ⟨position, .lparen :: .atom "FUNC" :: rest⟩ = _
    unfold item?
    simp only [hhead, hx, bind, Except.bind, pure, Except.pure, Parsed.weaken]
  | declaration hd =>
    cases hd with
    | intro hk hn hv =>
      obtain ⟨c₀, hc₀, hc⟩ := (@Cursor.takes_append _ _ [_, _] _).mp hc
      obtain ⟨c₁, hc₁, hc⟩ := Cursor.takes_cons.mp hc
      obtain ⟨c₂, hc₂, hc₃⟩ := Cursor.takes_append.mp hc
      obtain ⟨hlt, hx⟩ := declaration_of_takes hn hc₁ (expression?_of_takes hv hc₂) hc₃
      obtain ⟨position, -, rest⟩ := hc₀
      have hx : declaration ⟨position + 2, rest⟩ = .ok ⟨_, c', hlt⟩ := hx
      refine ⟨Nat.lt_add_right 2 hlt, ?_⟩
      show item? ⟨position, .lparen :: .atom _ :: rest⟩ = _
      unfold item?
      simp only [Head.of?_declaration hk, hx, bind, Except.bind, pure, Except.pure, Parsed.weaken]

/-! ## All of the tokens -/

theorem derives_of_program {c : Cursor} {items : List Item} (h : program c = .ok items) :
    Grammar.Program c.tokens items := by
  rw [program] at h
  split at h
  · next hempty =>
    cases h
    rw [List.isEmpty_iff.mp hempty]
    exact .nil
  · obtain ⟨q, hq, h⟩ := ok_of_bind_eq_ok h
    cases q with
    | none => cases h
    | some q =>
      obtain ⟨item, c₁, hlt⟩ := q
      obtain ⟨items, hx, h⟩ := ok_of_bind_eq_ok h
      cases h
      obtain ⟨ts, hts, hc⟩ := takes_of_item? hq
      rw [hc.tokens_eq]
      exact .cons hts (derives_of_program hx)
termination_by c.size

theorem program_of_derives {ts : List Token} {items : List Item} (h : Grammar.Program ts items)
    {c : Cursor} (hc : c.tokens = ts) : program c = .ok items := by
  induction h generalizing c with
  | nil =>
    rw [program, hc]
    rfl
  | @cons ts us item items hitem _ ih =>
    obtain ⟨hlt, hx⟩ := item?_of_takes hitem (Cursor.takes_of_tokens ts hc)
    have hne : ¬ c.tokens.isEmpty := by
      intro hempty
      simp [Cursor.size, List.isEmpty_iff.mp hempty] at hlt
    have hrest : program ⟨c.position + ts.length, us⟩ = .ok items := ih rfl
    rw [program, if_neg hne]
    simp only [hx, hrest, bind, Except.bind, pure, Except.pure]

theorem program_eq_ok_iff {c : Cursor} {items : List Item} :
    program c = .ok items ↔ Grammar.Program c.tokens items :=
  ⟨derives_of_program, fun h => program_of_derives h rfl⟩

theorem single_eq_ok_iff {c : Cursor} {e : Expr} :
    single c = .ok e ↔ Grammar.Expression c.tokens e := by
  constructor
  · intro h
    obtain ⟨q, hq, h⟩ := ok_of_bind_eq_ok h
    cases q with
    | none => cases h
    | some q =>
      obtain ⟨ts, hts, hc⟩ := takes_of_expression? hq
      simp only at h
      split at h
      · next hempty =>
        cases h
        rwa [hc.tokens_eq, List.isEmpty_iff.mp hempty, List.append_nil]
      · cases h
  · intro h
    obtain ⟨hlt, hx⟩ := expression?_of_takes h (Cursor.takes_of_tokens c.tokens (List.append_nil _).symm)
    unfold single
    rw [hx]
    rfl

/-- The parser yields exactly what the grammar derives from all of the tokens, items or an
expression, and so there is at most one derivation. -/
theorem parses_exactly_grammar (position : Nat) (tokens : List Token) :
    (∀ items, program ⟨position, tokens⟩ = .ok items ↔ Grammar.Program tokens items) ∧
    {items | Grammar.Program tokens items}.Subsingleton ∧
    (∀ e, single ⟨position, tokens⟩ = .ok e ↔ Grammar.Expression tokens e) ∧
    {e | Grammar.Expression tokens e}.Subsingleton := by
  have hprogram (items : List Item) : program ⟨position, tokens⟩ = .ok items ↔ Grammar.Program tokens items :=
    program_eq_ok_iff
  have hsingle (e : Expr) : single ⟨position, tokens⟩ = .ok e ↔ Grammar.Expression tokens e :=
    single_eq_ok_iff
  refine ⟨hprogram, fun a ha b hb => ?_, hsingle, fun a ha b hb => ?_⟩
  · exact Except.ok.inj (((hprogram a).mpr ha).symm.trans ((hprogram b).mpr hb))
  · exact Except.ok.inj (((hsingle a).mpr ha).symm.trans ((hsingle b).mpr hb))

end Parser

end WordLisp

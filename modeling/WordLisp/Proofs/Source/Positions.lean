import WordLisp.Proofs.Source.Parsing

/-!
# Positions of the parser

A position is a number of tokens: those in front of the place. A cursor holds the position with the
tokens from there on, and a production that reads something takes tokens from the front of these. So the
cursor behind it is a place in the same row of tokens, as far on as there are tokens taken. An error
is about the cursor at which the parser was when it failed, which is such a place too.

Main statement: begun anywhere in a row of tokens, every production either leaves the position as it is,
or moves it on and not beyond the end, or fails with an error that points into the row and tells which
token is there.
-/

namespace WordLisp

namespace Parser

namespace Cursor

/-- The cursor at a position of a row of tokens. -/
def ofPosition (tokens : List Token) (position : Nat) : Cursor := ⟨position, tokens.drop position⟩

/-- Taking some tokens, or none, leads from `c` to `c'`. -/
def Reaches (c c' : Cursor) : Prop := ∃ ts, c.Takes ts c'

variable {c c' c'' : Cursor}

theorem Reaches.refl (c : Cursor) : c.Reaches c := ⟨[], takes_nil.mpr rfl⟩

theorem Reaches.trans (h : c.Reaches c') (h' : c'.Reaches c'') : c.Reaches c'' := by
  obtain ⟨ts, h⟩ := h
  obtain ⟨us, h'⟩ := h'
  exact ⟨ts ++ us, h.append h'⟩

theorem Takes.position_eq {ts : List Token} (h : c.Takes ts c') : c'.position = c.position + ts.length := by
  obtain ⟨position, -, rest⟩ := h
  rfl

/-- If fewer tokens are left, some were taken. -/
theorem Takes.length_pos {ts : List Token} (h : c.Takes ts c') (hlt : c'.size < c.size) :
    0 < ts.length := by
  have hlength := congrArg List.length h.tokens_eq
  rw [List.length_append] at hlength
  unfold size at hlt
  omega

/-- Tokens taken at a position of a row lead to a later position of the same row. -/
theorem Takes.ofPosition {tokens ts : List Token} {position : Nat} (hle : position ≤ tokens.length)
    (h : (Cursor.ofPosition tokens position).Takes ts c') :
    c'.position = position + ts.length ∧ c'.position ≤ tokens.length ∧
      c' = .ofPosition tokens c'.position := by
  have hdrop : tokens.drop position = ts ++ c'.tokens := h.tokens_eq
  have hposition : c'.position = position + ts.length := h.position_eq
  have hrest : c'.tokens = tokens.drop c'.position := by
    rw [hposition, ← List.drop_drop, hdrop, List.drop_left]
  have hlength := congrArg List.length hdrop
  rw [List.length_drop, List.length_append] at hlength
  refine ⟨hposition, by omega, ?_⟩
  rw [Cursor.ofPosition, ← hrest]

end Cursor

end Parser

/-- The error is one that a parser gives, and a place that it is about can be reached from `c`. -/
def SourceError.PointsFrom (c : Parser.Cursor) : SourceError → Prop
  | unexpected position _ found | malformed _ position _ found =>
    ∃ c', c.Reaches c' ∧ c'.position = position ∧ c'.tokens.head? = found
  | operatorArity .. | nestedFunction _ => True
  | _ => False

/-- The error is one that a parser gives, and a place that it is about lies among the tokens or at their
end. It tells which token is there. -/
def SourceError.PointsInto (tokens : List Token) (e : SourceError) : Prop :=
  match e with
  | unexpected position _ found | malformed _ position _ found =>
    position ≤ tokens.length ∧ found = tokens[position]? ∧
      ∃ subject wanted, e.message = subject ++ " at token " ++ Numeral.natural position ++
        ": expected " ++ wanted ++ ", found " ++ foundPhrase tokens[position]?
  | operatorArity .. | nestedFunction _ => True
  | _ => False

namespace SourceError

theorem message_unexpected (position : Nat) (expected : Expected) (found : Option Token) :
    (unexpected position expected found).message = "syntax error" ++ " at token " ++
      Numeral.natural position ++ ": expected " ++ expected.phrase ++ ", found " ++ foundPhrase found := by
  have hsubject : "syntax error" ++ " at token " = "syntax error at token " := by decide
  have hexpected : ": expected " = ": " ++ "expected " := by decide
  rw [hsubject, hexpected]
  unfold message
  dsimp only [toString]
  simp only [String.append_assoc]

theorem message_malformed (form : Form) (position : Nat) (expected : Expected) (found : Option Token) :
    (malformed form position expected found).message = "malformed " ++ form.name ++ " at token " ++
      Numeral.natural position ++ ": expected " ++ expected.phrase ++ ", found " ++ foundPhrase found := by
  have hexpected : ": expected " = ": " ++ "expected " := by decide
  rw [hexpected]
  unfold message
  dsimp only [toString]
  simp only [String.append_assoc]

/-- From a position of a row the parser reaches only positions of the row. -/
theorem PointsFrom.pointsInto {tokens : List Token} {position : Nat} {e : SourceError}
    (h : e.PointsFrom (.ofPosition tokens position)) (hle : position ≤ tokens.length) :
    e.PointsInto tokens := by
  have hplace {c' : Parser.Cursor} (hc : (Parser.Cursor.ofPosition tokens position).Reaches c') :
      c'.position ≤ tokens.length ∧ c'.tokens.head? = tokens[c'.position]? := by
    obtain ⟨ts, ht⟩ := hc
    obtain ⟨-, hend, hc'⟩ := ht.ofPosition hle
    refine ⟨hend, ?_⟩
    rw [hc']
    exact List.head?_drop
  cases e with
  | unexpected position' expected found =>
    obtain ⟨c', hc, rfl, hhead⟩ := h
    obtain ⟨hend, htoken⟩ := hplace hc
    obtain rfl := hhead.symm.trans htoken
    exact ⟨hend, rfl, _, _, message_unexpected ..⟩
  | malformed form position' expected found =>
    obtain ⟨c', hc, rfl, hhead⟩ := h
    obtain ⟨hend, htoken⟩ := hplace hc
    obtain rfl := hhead.symm.trans htoken
    exact ⟨hend, rfl, _, _, message_malformed ..⟩
  | _ => exact h

end SourceError

namespace Parser

/-! ## Errors -/

/-- If it is an error, then one about a place that can be reached from `c`. -/
def ErrsFrom (c : Cursor) (r : Except SourceError α) : Prop := ∀ e, r = .error e → e.PointsFrom c

namespace ErrsFrom

variable {c c' : Cursor}

theorem ok (a : α) : ErrsFrom c (.ok a) := by
  rintro _ ⟨⟩

theorem unexpected (c : Cursor) (expected : Expected) :
    ErrsFrom c (.error (c.unexpected expected) : Except SourceError α) := by
  rintro _ ⟨⟩
  exact ⟨c, .refl c, rfl, rfl⟩

theorem malformed (c : Cursor) (form : Form) (expected : Expected) :
    ErrsFrom c (.error (c.malformed form expected) : Except SourceError α) := by
  rintro _ ⟨⟩
  exact ⟨c, .refl c, rfl, rfl⟩

theorem operatorArity (c : Cursor) (operator : String) (expected given : Nat) :
    ErrsFrom c (.error (.operatorArity operator expected given) : Except SourceError α) := by
  rintro _ ⟨⟩
  trivial

theorem nestedFunction (c : Cursor) (name : String) :
    ErrsFrom c (.error (.nestedFunction name) : Except SourceError α) := by
  rintro _ ⟨⟩
  trivial

theorem mono {r : Except SourceError α} (h : ErrsFrom c' r) (hc : c.Reaches c') : ErrsFrom c r := by
  intro e he
  have hplace := h e he
  cases e with
  | unexpected | malformed =>
    obtain ⟨c'', hc', hplace⟩ := hplace
    exact ⟨c'', hc.trans hc', hplace⟩
  | _ => exact hplace

theorem bind {x : Except SourceError α} {f : α → Except SourceError β} (hx : ErrsFrom c x)
    (hf : ∀ a, x = .ok a → ErrsFrom c (f a)) : ErrsFrom c (x >>= f) := by
  cases x with
  | ok a => exact hf a rfl
  | error e =>
    rintro _ ⟨⟩
    exact hx e rfl

/-- One production behind another: the second begins where the first ends. -/
theorem andThen {x : Except SourceError (Parsed α n)} {f : Parsed α n → Except SourceError β}
    (hx : ErrsFrom c x) (hc : ∀ {p}, x = .ok p → c.Reaches p.rest) (hf : ∀ p, ErrsFrom p.rest (f p)) :
    ErrsFrom c (x >>= f) :=
  hx.bind fun p hp => (hf p).mono (hc hp)

end ErrsFrom

/-! ## Errors at single tokens -/

theorem errsFrom_expect (form : Form) (token : Token) (c : Cursor) : ErrsFrom c (expect form token c) := by
  unfold expect
  split
  · exact .malformed _ _ _
  · split
    · exact .ok _
    · exact .malformed _ _ _

theorem errsFrom_expectName (form : Form) (c : Cursor) : ErrsFrom c (expectName form c) := by
  unfold expectName
  split
  · split
    · exact .ok _
    · exact .malformed _ _ _
  · exact .malformed _ _ _

theorem errsFrom_expectTarget (form : Form) (c : Cursor) : ErrsFrom c (expectTarget form c) := by
  unfold expectTarget
  split
  · split
    · exact .ok _
    · split
      · exact .ok _
      · exact .malformed _ _ _
  · exact .malformed _ _ _

theorem errsFrom_operation (c : Cursor) (symbol : String) (operands : List Expr) :
    ErrsFrom c (operation symbol operands) := by
  unfold operation
  split
  · exact .ok _
  · exact .operatorArity _ _ _ _
  · exact .ok _
  · exact .operatorArity _ _ _ _

/-! ## Errors of productions -/

section

variable {c : Cursor} {form : Form}

theorem reaches_of_expect {token : Token} {p : Parsed Unit c.size} (h : expect form token c = .ok p) :
    c.Reaches p.rest :=
  ⟨_, takes_of_expect h⟩

theorem reaches_of_expectName {p : Parsed String c.size} (h : expectName form c = .ok p) :
    c.Reaches p.rest :=
  ⟨_, (takes_of_expectName h).2⟩

theorem reaches_of_expectTarget {p : Parsed (String × Bool) c.size} (h : expectTarget form c = .ok p) :
    c.Reaches p.rest := by
  obtain ⟨_, -, hc⟩ := takes_of_expectTarget h
  exact ⟨_, hc⟩

theorem reaches_of_expression {p : Parsed Expr c.size} (h : expression form c = .ok p) :
    c.Reaches p.rest := by
  obtain ⟨ts, -, hc⟩ := takes_of_expression h
  exact ⟨ts, hc⟩

theorem reaches_of_sequence {p : Parsed (List Expr) (c.size + 1)} (h : sequence c = .ok p) :
    c.Reaches p.rest := by
  obtain ⟨ts, -, hc⟩ := takes_of_sequence h
  exact ⟨ts, hc⟩

theorem reaches_of_block {p : Parsed (List Expr) c.size} (h : block form c = .ok p) :
    c.Reaches p.rest := by
  obtain ⟨ts, -, hc⟩ := takes_of_block h
  exact ⟨ts, hc⟩

end

mutual

theorem errsFrom_expression? (c : Cursor) : ErrsFrom c (expression? c) := by
  rw [expression?]
  split
  · exact .ok _
  · exact .ok _
  · next text ts ht =>
    have hlt : ts.length < c.size := by
      unfold Cursor.size
      rw [ht]
      exact Nat.lt_add_of_pos_right Nat.two_pos
    have hc : c.Reaches ⟨c.position + 2, ts⟩ := ⟨_, Cursor.takes_of_tokens [_, _] ht⟩
    split
    · exact .ok _
    · next head _ => exact ((errsFrom_form head ⟨c.position + 2, ts⟩).mono hc).bind fun _ _ => .ok _
  · exact .ok _
termination_by (c.size, 0)

theorem errsFrom_form (head : Head) (c : Cursor) : ErrsFrom c (form head c) := by
  rw [form.eq_def]
  cases head with
  | function => exact .nestedFunction _ _
  | declaration => exact (errsFrom_declaration c).bind fun _ _ => .ok _
  | assignment =>
    refine (errsFrom_expectTarget .assignment c).andThen reaches_of_expectTarget ?_
    rintro ⟨⟨name, indirect⟩, c₁, h₁⟩
    refine (errsFrom_expression .assignment c₁).andThen reaches_of_expression ?_
    rintro ⟨value, c₂, h₂⟩
    exact (errsFrom_expect .assignment .rparen c₂).bind fun _ _ => .ok _
  | conditional =>
    refine (errsFrom_expression .conditional c).andThen reaches_of_expression ?_
    rintro ⟨test, c₁, h₁⟩
    refine (errsFrom_block .conditional c₁).andThen reaches_of_block ?_
    rintro ⟨yes, c₂, h₂⟩
    refine (errsFrom_block .conditional c₂).andThen reaches_of_block ?_
    rintro ⟨no, c₃, h₃⟩
    exact (errsFrom_expect .conditional .rparen c₃).bind fun _ _ => .ok _
  | loop =>
    refine (errsFrom_expression .loop c).andThen reaches_of_expression ?_
    rintro ⟨test, c₁, h₁⟩
    refine (errsFrom_sequence c₁).andThen reaches_of_sequence ?_
    rintro ⟨body, c₂, h₂⟩
    exact (errsFrom_expect .loop .rparen c₂).bind fun _ _ => .ok _
  | operation symbol =>
    refine (errsFrom_sequence c).andThen reaches_of_sequence ?_
    rintro ⟨operands, c₁, h₁⟩
    refine (errsFrom_expect .operation .rparen c₁).bind ?_
    rintro ⟨_, c₂, h₂⟩ -
    exact (errsFrom_operation c₁ symbol operands).bind fun _ _ => .ok _
  | application name =>
    refine (errsFrom_sequence c).andThen reaches_of_sequence ?_
    rintro ⟨arguments, c₁, h₁⟩
    exact (errsFrom_expect .application .rparen c₁).bind fun _ _ => .ok _
termination_by (c.size, 3)

theorem errsFrom_declaration (c : Cursor) : ErrsFrom c (declaration c) := by
  rw [declaration]
  refine (errsFrom_expectName .declaration c).andThen reaches_of_expectName ?_
  rintro ⟨name, c₁, h₁⟩
  refine (errsFrom_expression .declaration c₁).andThen reaches_of_expression ?_
  rintro ⟨value, c₂, h₂⟩
  exact (errsFrom_expect .declaration .rparen c₂).bind fun _ _ => .ok _
termination_by (c.size, 2)

theorem errsFrom_expression (needed : Form) (c : Cursor) : ErrsFrom c (expression needed c) := by
  rw [expression]
  refine (errsFrom_expression? c).bind ?_
  rintro (_ | p) -
  · exact .malformed c needed .expression
  · exact .ok _
termination_by (c.size, 1)

theorem errsFrom_sequence (c : Cursor) : ErrsFrom c (sequence c) := by
  rw [sequence]
  refine (errsFrom_expression? c).bind ?_
  rintro (_ | ⟨e, c₁, h₁⟩) hx
  · exact .ok _
  · obtain ⟨ts, -, hc⟩ := takes_of_expression? hx
    exact ((errsFrom_sequence c₁).mono ⟨ts, hc⟩).bind fun _ _ => .ok _
termination_by (c.size, 1)

theorem errsFrom_block (within : Form) (c : Cursor) : ErrsFrom c (block within c) := by
  rw [block]
  refine (errsFrom_expect within .lparen c).andThen reaches_of_expect ?_
  rintro ⟨_, c₁, h₁⟩
  refine (errsFrom_sequence c₁).andThen reaches_of_sequence ?_
  rintro ⟨es, c₂, h₂⟩
  exact (errsFrom_expect within .rparen c₂).bind fun _ _ => .ok _
termination_by (c.size, 0)

end

theorem errsFrom_function (c : Cursor) : ErrsFrom c (function c) := by
  unfold function
  refine (errsFrom_expectName .function c).andThen reaches_of_expectName ?_
  rintro ⟨name, c₁, h₁⟩
  refine (errsFrom_expect .function .lparen c₁).andThen reaches_of_expect ?_
  rintro ⟨_, c₂, h₂⟩
  obtain ⟨ts, -, hc₃⟩ := takes_names c₂.position c₂.tokens
  refine ErrsFrom.mono ?_ ⟨ts, hc₃⟩
  refine (errsFrom_expect .function .rparen _).andThen reaches_of_expect ?_
  rintro ⟨_, c₄, h₄⟩
  refine (errsFrom_sequence c₄).andThen reaches_of_sequence ?_
  rintro ⟨body, c₅, h₅⟩
  exact (errsFrom_expect .function .rparen c₅).bind fun _ _ => .ok _

theorem errsFrom_item? (c : Cursor) : ErrsFrom c (item? c) := by
  unfold item?
  split
  · next text ts ht =>
    have hc : c.Reaches ⟨c.position + 2, ts⟩ := ⟨_, Cursor.takes_of_tokens [_, _] ht⟩
    split
    · exact ((errsFrom_function _).mono hc).bind fun _ _ => .ok _
    · exact ((errsFrom_declaration _).mono hc).bind fun _ _ => .ok _
    · exact .ok _
  · exact .ok _

theorem errsFrom_program (c : Cursor) : ErrsFrom c (program c) := by
  rw [program]
  split
  · exact .ok _
  · refine (errsFrom_item? c).bind ?_
    rintro (_ | ⟨item, c₁, h₁⟩) hx
    · exact .unexpected c .item
    · obtain ⟨ts, -, hc⟩ := takes_of_item? hx
      exact ((errsFrom_program c₁).mono ⟨ts, hc⟩).bind fun _ _ => .ok _
termination_by c.size

theorem errsFrom_single (c : Cursor) : ErrsFrom c (single c) := by
  unfold single
  refine (errsFrom_expression? c).bind ?_
  rintro (_ | p) hx
  · exact .unexpected c .expression
  · obtain ⟨ts, -, hc⟩ := takes_of_expression? hx
    dsimp only
    split
    · exact .ok _
    · exact (ErrsFrom.unexpected p.rest .expression).mono ⟨ts, hc⟩

end Parser

/-! ## Tokens that a value takes -/

namespace Grammar

theorem Names.length_eq {ts : List Token} {names : List String} (h : Names ts names) :
    names.length = ts.length := by
  induction h with
  | nil => rfl
  | cons _ _ ih => rw [List.length_cons, List.length_cons, ih]

theorem Expression.length_pos {ts : List Token} {e : Expr} (h : Expression ts e) : 0 < ts.length := by
  cases h with
  | declaration h =>
    cases h
    exact Nat.succ_pos _
  | _ => exact Nat.succ_pos _

/-- Every expression of a row has a token of its own. -/
theorem Row.length_le {ts : List Token} {es : List Expr} (h : Row ts es) : es.length ≤ ts.length := by
  induction es generalizing ts with
  | nil => exact Nat.zero_le _
  | cons e es ih =>
    cases h with
    | cons he hes =>
      have hpos := he.length_pos
      have hle := ih hes
      rw [List.length_cons, List.length_append]
      omega

theorem Block.length_le {ts : List Token} {es : List Expr} (h : Block ts es) : es.length + 2 ≤ ts.length := by
  cases h with
  | intro hrow =>
    have hle := hrow.length_le
    rw [List.length_cons, List.length_append, List.length_singleton]
    omega

theorem TopLevel.length_pos {ts : List Token} {item : Item} (h : TopLevel ts item) : 0 < ts.length := by
  cases h with
  | function => exact Nat.succ_pos _
  | declaration h =>
    cases h
    exact Nat.succ_pos _

/-- Behind its keyword a function has a name, parameters in parentheses, a body and a parenthesis. -/
theorem TopLevel.length_le {ts : List Token} {f : Function}
    (h : TopLevel (.lparen :: .atom "FUNC" :: ts) (.function f)) :
    f.parameters.length + f.body.length + 4 ≤ ts.length := by
  cases h with
  | function _ hnames hrow =>
    have hparameters := hnames.length_eq
    have hbody := hrow.length_le
    simp only [List.length_cons, List.length_append, List.length_nil]
    omega

theorem Program.length_le {ts : List Token} {items : List Item} (h : Program ts items) :
    items.length ≤ ts.length := by
  induction h with
  | nil => exact Nat.le_refl 0
  | cons hitem _ ih =>
    have hpos := hitem.length_pos
    rw [List.length_cons, List.length_append]
    omega

end Grammar

/-! ## Discipline -/

namespace Parser

/-- At a position of a row of tokens, a production takes at least `least` tokens for its value and ends
within the row, or fails with an error that points into it. -/
def Advances (tokens : List Token) (position : Nat) (least : α → Nat) :
    Except SourceError (Parsed α n) → Prop
  | .ok p =>
    position + least p.value ≤ p.rest.position ∧ p.rest.position ≤ tokens.length ∧
      p.rest = .ofPosition tokens p.rest.position
  | .error e => e.PointsInto tokens

/-- The same for a production that may be absent. If it is, the parser is where it was, which shows in
what it does next. -/
def MayAdvance (tokens : List Token) (position : Nat) (stays : Prop) :
    Except SourceError (Option (Parsed α n)) → Prop
  | .ok none => stays
  | .ok (some p) =>
    position < p.rest.position ∧ p.rest.position ≤ tokens.length ∧
      p.rest = .ofPosition tokens p.rest.position
  | .error e => e.PointsInto tokens

/-- At a position where no item begins, the program ends or is in error. -/
def NoItemAt (tokens : List Token) (position : Nat) (c : Cursor) : Prop :=
  program c = if tokens.length ≤ position then .ok []
    else .error (.unexpected position .item tokens[position]?)

/-- At a position where no expression begins, a row of expressions ends, and an expression that is
needed is in error. -/
structure NoExpressionAt (tokens : List Token) (position : Nat) (c : Cursor) : Prop where
  sequence : ∃ h, sequence c = .ok ⟨[], c, h⟩
  expression (needed : Form) :
    expression needed c = .error (.malformed needed position .expression tokens[position]?)
  single : single c = .error (.unexpected position .expression tokens[position]?)

section

variable {tokens : List Token} {position : Nat}

theorem advances {least : α → Nat} {x : Except SourceError (Parsed α n)} (hle : position ≤ tokens.length)
    (hok : ∀ {p}, x = .ok p → ∃ ts : List Token, least p.value ≤ ts.length ∧
      (Cursor.ofPosition tokens position).Takes ts p.rest)
    (herror : ErrsFrom (.ofPosition tokens position) x) : Advances tokens position least x := by
  cases x with
  | ok p =>
    obtain ⟨ts, hleast, hts⟩ := hok rfl
    obtain ⟨hposition, hend, hrest⟩ := hts.ofPosition hle
    exact ⟨by omega, hend, hrest⟩
  | error e => exact (herror e rfl).pointsInto hle

/-- A production that leaves fewer tokens has taken one. -/
theorem advances_one {x : Except SourceError (Parsed α (Cursor.ofPosition tokens position).size)}
    (hle : position ≤ tokens.length)
    (hok : ∀ {p}, x = .ok p → (Cursor.ofPosition tokens position).Reaches p.rest)
    (herror : ErrsFrom (.ofPosition tokens position) x) : Advances tokens position (fun _ => 1) x := by
  refine advances hle ?_ herror
  intro p hp
  obtain ⟨ts, hts⟩ := hok hp
  exact ⟨ts, hts.length_pos p.size_lt, hts⟩

/-- Beyond the end there is nothing to read. -/
theorem mayAdvance {x : Except SourceError (Option (Parsed α (Cursor.ofPosition tokens position).size))}
    {stays : Prop} (hnone : x = .ok none → stays)
    (hsome : ∀ {p}, x = .ok (some p) → (Cursor.ofPosition tokens position).Reaches p.rest)
    (herror : ErrsFrom (.ofPosition tokens position) x)
    (hend : tokens.length < position → x = .ok none) : MayAdvance tokens position stays x := by
  rcases Nat.lt_or_ge tokens.length position with hlt | hle
  · rw [hend hlt]
    exact hnone (hend hlt)
  rcases x with e | _ | p
  · exact (herror e rfl).pointsInto hle
  · exact hnone rfl
  · have hp : Advances tokens position (fun _ => 1) (.ok p) := by
      refine advances_one hle ?_ (.ok p)
      rintro _ ⟨⟩
      exact hsome rfl
    exact hp

theorem ofPosition_of_le (h : tokens.length ≤ position) :
    Cursor.ofPosition tokens position = ⟨position, []⟩ := by
  rw [Cursor.ofPosition, List.drop_eq_nil_of_le h]

theorem head?_ofPosition (tokens : List Token) (position : Nat) :
    (Cursor.ofPosition tokens position).tokens.head? = tokens[position]? :=
  List.head?_drop

theorem noItemAt (h : item? (.ofPosition tokens position) = .ok none) :
    NoItemAt tokens position (.ofPosition tokens position) := by
  unfold NoItemAt
  rcases Nat.lt_or_ge position tokens.length with hlt | hge
  · have hne : ¬ (Cursor.ofPosition tokens position).tokens.isEmpty := by
      simpa [Cursor.ofPosition, List.isEmpty_iff, List.drop_eq_nil_iff] using hlt
    rw [if_neg hlt.not_ge, program, if_neg hne, h, ← head?_ofPosition]
    rfl
  · rw [if_pos hge, ofPosition_of_le hge, program]
    rfl

theorem noExpressionAt (h : expression? (.ofPosition tokens position) = .ok none) :
    NoExpressionAt tokens position (.ofPosition tokens position) where
  sequence := by
    refine ⟨Nat.lt_succ_self _, ?_⟩
    rw [sequence, h]
    rfl
  expression needed := by
    rw [expression, h, ← head?_ofPosition]
    rfl
  single := by
    rw [single, h, ← head?_ofPosition]
    rfl

theorem mayAdvance_item? (tokens : List Token) (position : Nat) :
    MayAdvance tokens position (NoItemAt tokens position (.ofPosition tokens position))
      (item? (.ofPosition tokens position)) := by
  refine mayAdvance noItemAt ?_ (errsFrom_item? _) ?_
  · intro p hp
    obtain ⟨ts, -, hts⟩ := takes_of_item? hp
    exact ⟨ts, hts⟩
  · intro hlt
    rw [ofPosition_of_le hlt.le]
    rfl

theorem mayAdvance_expression? (tokens : List Token) (position : Nat) :
    MayAdvance tokens position (NoExpressionAt tokens position (.ofPosition tokens position))
      (expression? (.ofPosition tokens position)) := by
  refine mayAdvance noExpressionAt ?_ (errsFrom_expression? _) ?_
  · intro p hp
    obtain ⟨ts, -, hts⟩ := takes_of_expression? hp
    exact ⟨ts, hts⟩
  · intro hlt
    rw [ofPosition_of_le hlt.le, expression?]

variable (hle : position ≤ tokens.length)
include hle

theorem advances_form {text : String} {head : Head} (hhead : Head.of? text = some head) :
    Advances tokens position (fun _ => 1) (form head (.ofPosition tokens position)) := by
  refine advances_one hle ?_ (errsFrom_form head _)
  intro p hp
  obtain ⟨ts, -, hts⟩ := takes_of_form (Head.begins_of_of? hhead) hp
  exact ⟨ts, hts⟩

theorem advances_declaration :
    Advances tokens position (fun _ => 1) (declaration (.ofPosition tokens position)) := by
  refine advances_one hle ?_ (errsFrom_declaration _)
  intro p hp
  obtain ⟨ts, -, hts⟩ := takes_of_declaration (.inl rfl) hp
  exact ⟨ts, hts⟩

theorem advances_sequence :
    Advances tokens position List.length (sequence (.ofPosition tokens position)) := by
  refine advances hle ?_ (errsFrom_sequence _)
  intro p hp
  obtain ⟨ts, hrow, hts⟩ := takes_of_sequence hp
  exact ⟨ts, hrow.length_le, hts⟩

theorem advances_block (within : Form) :
    Advances tokens position (fun es => es.length + 2) (block within (.ofPosition tokens position)) := by
  refine advances hle ?_ (errsFrom_block within _)
  intro p hp
  obtain ⟨ts, hblock, hts⟩ := takes_of_block hp
  exact ⟨ts, hblock.length_le, hts⟩

theorem advances_function : Advances tokens position (fun f => f.parameters.length + f.body.length + 4)
    (function (.ofPosition tokens position)) := by
  refine advances hle ?_ (errsFrom_function _)
  intro p hp
  obtain ⟨ts, hf, hts⟩ := takes_of_function hp
  exact ⟨ts, hf.length_le, hts⟩

end

/-- What the parser does with the cursor `c` at a position of a row of tokens. -/
structure Disciplined (tokens : List Token) (position : Nat) (c : Cursor) : Prop where
  item? : MayAdvance tokens position (NoItemAt tokens position c) (item? c)
  expression? : MayAdvance tokens position (NoExpressionAt tokens position c) (expression? c)
  form : position ≤ tokens.length → ∀ text head, Head.of? text = some head →
    Advances tokens position (fun _ => 1) (form head c)
  declaration : position ≤ tokens.length → Advances tokens position (fun _ => 1) (declaration c)
  expression : position ≤ tokens.length →
    ∀ needed, Advances tokens position (fun _ => 1) (expression needed c)
  sequence : position ≤ tokens.length → Advances tokens position List.length (sequence c)
  block : position ≤ tokens.length →
    ∀ within, Advances tokens position (fun es => es.length + 2) (block within c)
  function : position ≤ tokens.length →
    Advances tokens position (fun f => f.parameters.length + f.body.length + 4) (function c)
  program_ok : ∀ items, program c = .ok items → items.length ≤ tokens.length - position
  program_error : ∀ e, program c = .error e → e.PointsInto tokens
  single_error : position ≤ tokens.length → ∀ e, single c = .error e → e.PointsInto tokens

/-- Each production leaves the position where it is, moves it on within the row of tokens, or fails with
an error that points into the row. -/
theorem positions_disciplined (tokens : List Token) (position : Nat) :
    Disciplined tokens position (.ofPosition tokens position) where
  item? := mayAdvance_item? tokens position
  expression? := mayAdvance_expression? tokens position
  form hle _ _ hhead := advances_form hle hhead
  declaration hle := advances_declaration hle
  expression hle needed := advances_one hle reaches_of_expression (errsFrom_expression needed _)
  sequence hle := advances_sequence hle
  block hle within := advances_block hle within
  function hle := advances_function hle
  program_ok items h := by
    have hle := (derives_of_program h).length_le
    rwa [Cursor.ofPosition, List.length_drop] at hle
  program_error e h := by
    rcases Nat.lt_or_ge tokens.length position with hlt | hle
    · -- Beyond the end there is an empty program, which is no error.
      rw [ofPosition_of_le hlt.le, program] at h
      cases h
    · exact (errsFrom_program _ e h).pointsInto hle
  single_error hle e h := (errsFrom_single _ e h).pointsInto hle

end Parser

end WordLisp

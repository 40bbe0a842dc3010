import WordLisp.Proofs.Numeral
import WordLisp.Proofs.Source.Parsing

/-!
# The names in expressions and items

`Expr.names` and `Item.names` list all names that stand in an expression or an item: of symbols,
variables, parameters and functions. What the grammar derives has only names that are names.
-/

namespace WordLisp

/-! ## Characters -/

theorem isNameChar_of_isNameStart {c : Char} (h : isNameStart c) : isNameChar c := by
  rcases (Bool.or_eq_true _ _).mp h with hc | hc
  · simp [isNameChar, Char.isAlphanum, hc]
  · rw [of_decide_eq_true hc]
    decide

/-- A number does not begin as a name does. -/
theorem ofChars?_of_isNameStart {c : Char} (h : isNameStart c) (cs : List Char) :
    Word.ofChars? (c :: cs) = none := by
  refine Word.ofChars?_eq_none (Bool.eq_false_iff.mpr fun hd => ?_) ?_
  · simp only [isNameStart, Char.isAlpha, Char.isUpper, Char.isLower, Char.isDigit, Bool.or_eq_true,
      Bool.and_eq_true, decide_eq_true_eq, ge_iff_le, UInt32.le_iff_toNat_le, Char.toNat_val,
      Char.reduceToNat] at h hd
    rcases h with h | rfl
    · omega
    · simp at hd
  · rintro rfl
    cases h

theorem exists_of_isName {name : String} (h : isName name) :
    ∃ c cs, name.toList = c :: cs ∧ isNameStart c ∧ ∀ c ∈ cs, isNameChar c := by
  unfold isName at h
  split at h
  · cases h
  · next c cs hc =>
    simp only [Bool.and_eq_true, List.all_eq_true] at h
    exact ⟨c, cs, hc, h.1⟩

theorem isNameChar_of_mem {name : String} (h : isName name) : ∀ c ∈ name.toList, isNameChar c := by
  obtain ⟨c, cs, hname, hc, hcs⟩ := exists_of_isName h
  rw [hname]
  exact List.forall_mem_cons.mpr ⟨isNameChar_of_isNameStart hc, hcs⟩

/-! ## Syntax -/

mutual

def Expr.names : Expr → List String
  | .literal _ => []
  | .symbol name | .reference name _ => [name]
  | .declare name value | .assign name _ value => name :: value.names
  | .cond test yes no => test.names ++ (Expr.rowNames yes ++ Expr.rowNames no)
  | .loop test body => test.names ++ Expr.rowNames body
  | .unary _ operand => operand.names
  | .binary _ left right => left.names ++ right.names
  | .apply function arguments => function :: Expr.rowNames arguments

def Expr.rowNames : List Expr → List String
  | [] => []
  | e :: es => e.names ++ Expr.rowNames es

end

def Item.names : Item → List String
  | .global name value => name :: value.names
  | .function f => f.name :: (f.parameters ++ Expr.rowNames f.body)

/-- The name that an item declares. -/
def Item.name : Item → String
  | global name _ => name
  | function f => f.name

theorem Item.name_mem_names (item : Item) : item.name ∈ item.names := by
  cases item <;> exact List.mem_cons_self

/-! ## What the grammar derives -/

namespace Grammar

theorem Target.isName {text name : String} {indirect : Bool} (h : Target text name indirect) :
    isName name := by
  cases h with
  | direct hn => exact hn
  | indirect hn => exact hn

theorem Names.isName {ts : List Token} {names : List String} (h : Names ts names) :
    ∀ name ∈ names, isName name := by
  induction h with
  | nil => exact List.forall_mem_nil _
  | cons hn _ ih => exact List.forall_mem_cons.mpr ⟨hn, ih⟩

mutual

theorem Expression.isName : ∀ {ts : List Token} {e : Expr}, Expression ts e →
    ∀ name ∈ e.names, isName name
  | _, _, .integer => by simp [Expr.names]
  | _, _, .symbol hn => by simpa [Expr.names] using hn
  | _, _, .reference ht => by simpa [Expr.names] using ht.isName
  | _, _, .declaration (.intro _ hn hv) => by
    simp only [Expr.names, List.forall_mem_cons]
    exact ⟨hn, hv.isName⟩
  | _, _, .assignment ht hv => by
    simp only [Expr.names, List.forall_mem_cons]
    exact ⟨ht.isName, hv.isName⟩
  | _, _, .conditional ht (.intro hyes) (.intro hno) => by
    simp only [Expr.names, List.forall_mem_append]
    exact ⟨ht.isName, hyes.isName, hno.isName⟩
  | _, _, .loop ht hbody => by
    simp only [Expr.names, List.forall_mem_append]
    exact ⟨ht.isName, hbody.isName⟩
  | _, _, .unary h => by
    simp only [Expr.names]
    exact h.isName
  | _, _, .binary hl hr => by
    simp only [Expr.names, List.forall_mem_append]
    exact ⟨hl.isName, hr.isName⟩
  | _, _, .application hn hrow => by
    simp only [Expr.names, List.forall_mem_cons]
    exact ⟨hn, hrow.isName⟩

theorem Row.isName : ∀ {ts : List Token} {es : List Expr}, Row ts es →
    ∀ name ∈ Expr.rowNames es, isName name
  | _, _, .nil => by simp [Expr.rowNames]
  | _, _, .cons he hes => by
    simp only [Expr.rowNames, List.forall_mem_append]
    exact ⟨he.isName, hes.isName⟩

end

theorem TopLevel.isName {ts : List Token} {item : Item} (h : TopLevel ts item) :
    ∀ name ∈ item.names, WordLisp.isName name := by
  cases h with
  | function hn hnames hrow =>
    simp only [Item.names, List.forall_mem_cons, List.forall_mem_append]
    exact ⟨hn, hnames.isName, hrow.isName⟩
  | declaration hd =>
    cases hd with
    | intro _ hn hv => exact List.forall_mem_cons.mpr ⟨hn, hv.isName⟩

theorem Program.isName {ts : List Token} {items : List Item} (h : Program ts items) :
    ∀ item ∈ items, ∀ name ∈ item.names, WordLisp.isName name := by
  induction h with
  | nil => exact List.forall_mem_nil _
  | cons hitem _ ih => exact List.forall_mem_cons.mpr ⟨hitem.isName, ih⟩

end Grammar

theorem Item.isName_names_of_parse {source : String} {items : List Item}
    (h : Item.parse source = .ok items) : ∀ item ∈ items, ∀ name ∈ item.names, isName name := by
  obtain ⟨tokens, -, hp⟩ := ok_of_bind_eq_ok h
  exact (Parser.derives_of_program hp).isName

/-- The items of a text declare names. -/
theorem Expr.isName_names_of_parse {source : String} {e : Expr} (h : Expr.parse source = .ok e) :
    ∀ name ∈ e.names, isName name := by
  obtain ⟨tokens, -, hp⟩ := ok_of_bind_eq_ok h
  exact (Parser.single_eq_ok_iff.mp hp).isName

end WordLisp

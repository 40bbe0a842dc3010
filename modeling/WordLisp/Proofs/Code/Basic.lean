import WordLisp.Generator
import WordLisp.Proofs.Listing.Placement

/-!
# The code of an expression

The generator emits records of few kinds, which are the operations here. `Expr.code frame slot n`
is the row of operations for an expression in a frame, with intermediate values from `slot` on
and with `n` as the number of the first conditional or loop. It is what the generator appends to
its code, and unlike the generator it cannot fail.
-/

namespace WordLisp

/-- Where a load or a store finds its operand: a cell of the data, or a slot of the frame. -/
inductive Operand where
  | cell (tag : String)
  | slot (n : Nat)
  deriving DecidableEq

def Operand.instruction (make : Register → Base → Bool → Opcode) (indirect : Bool) :
    Operand → Instruction
  | cell tag => Generator.toTag (make .left .program indirect) tag
  | slot n => .frame (make .left .frame indirect) (Int32.ofNat n)

/-- What the generator emits. The register of all operations is the left one. -/
inductive Op where
  | tag (name : String)
  | load (x : Operand) (indirect : Bool)
  | store (x : Operand) (indirect : Bool)
  /-- Stores into the return slot of the caller. -/
  | yield
  | unary (operator : UnaryOp)
  | binary (operator : BinaryOp)
  | swap
  | branch (tag : String)
  | jump (tag : String)
  /-- Halts the machine. -/
  | stop
  | call (function : String)
  | ret
  deriving DecidableEq

namespace Op

def record : Op → Record
  | tag name => .tag name
  | load x indirect => .instruction (x.instruction .load indirect)
  | store x indirect => .instruction (x.instruction .store indirect)
  | yield => .instruction (.frame (.store .left .frame false) (-2))
  | unary operator => .instruction (.unary (.unary .left) operator)
  | binary operator => .instruction (.binary (.binary .left) operator)
  | swap => .instruction (.nullary .swap)
  | branch name => .instruction (Generator.toTag (.branch .left) name)
  | jump name => .instruction (Generator.toTag .jump name)
  | stop => .instruction (.addressed .jump (.offset (-1)))
  | call name => .instruction (Generator.toTag .call name)
  | ret => .instruction (.nullary .ret)

/-- The records of a row of operations. -/
def listing (ops : List Op) : Listing := ops.map record

@[simp] theorem listing_nil : listing [] = [] := rfl

@[simp] theorem listing_cons (op : Op) (ops : List Op) :
    listing (op :: ops) = op.record :: listing ops := rfl

@[simp] theorem listing_append (a b : List Op) : listing (a ++ b) = listing a ++ listing b :=
  List.map_append

end Op

/-! ## Tags -/

def literalTag (value : Word) : String := "lit." ++ Word.text value

def symbolTag (name : String) : String := "sym." ++ name

def thenTag (n : Nat) : String := "if.then." ++ Numeral.natural n

def endTag (n : Nat) : String := "if.end." ++ Numeral.natural n

def topTag (n : Nat) : String := "loop.top." ++ Numeral.natural n

def bodyTag (n : Nat) : String := "loop.body." ++ Numeral.natural n

def exitTag (n : Nat) : String := "loop.end." ++ Numeral.natural n

/-- The tags of the conditional or loop with a given number. -/
def numberedTags (n : Nat) : List String := [thenTag n, endTag n, topTag n, bodyTag n, exitTag n]

/-! ## Expressions -/

mutual

/-- How many conditionals and loops there are. -/
def Expr.forks : Expr → Nat
  | .literal _ | .symbol _ | .reference _ _ => 0
  | .declare _ value | .assign _ _ value => value.forks
  | .cond test yes no => 1 + test.forks + Expr.rowForks no + Expr.rowForks yes
  | .loop test body => 1 + test.forks + Expr.rowForks body
  | .unary _ operand => operand.forks
  | .binary _ left right => left.forks + right.forks
  | .apply _ arguments => Expr.rowForks arguments

def Expr.rowForks : List Expr → Nat
  | [] => 0
  | e :: es => e.forks + Expr.rowForks es

end

/-- The operand of a variable: a local if the frame has it, otherwise a global. -/
def Frame.operand (frame : Frame) (name : String) : Operand :=
  match frame.slot? name with
  | some n => .slot n
  | none => .cell name

/-- Moves `count` values from the slots from `source` on to the slots from `target` on. -/
def passCode (source target : Nat) : (count : Nat) → List Op
  | 0 => []
  | count + 1 =>
    passCode source target count ++
      [.load (.slot (source + count)) false, .store (.slot (target + count)) false]

theorem tagNames_passCode (source target count : Nat) :
    Listing.tagNames (Op.listing (passCode source target count)) = [] := by
  induction count with
  | zero => rfl
  | succ count ih =>
    rw [passCode, Op.listing_append, Listing.tagNames_append, ih]
    rfl

section
variable (frame : Frame)

mutual

def Expr.code (slot n : Nat) : Expr → List Op
  | .literal value => [.load (.cell (literalTag value)) false]
  | .symbol name => [.load (.cell (symbolTag name)) false]
  | .reference name indirect => [.load (frame.operand name) indirect]
  | .declare name value => value.code slot n ++ [.store (frame.operand name) false]
  | .assign name indirect value => value.code slot n ++ [.store (frame.operand name) indirect]
  | .cond test yes no =>
    test.code slot (n + 1) ++ .branch (thenTag n) ::
      (Expr.rowCode slot (n + 1 + test.forks) no ++ .jump (endTag n) :: .tag (thenTag n) ::
        (Expr.rowCode slot (n + 1 + test.forks + Expr.rowForks no) yes ++ [.tag (endTag n)]))
  | .loop test body =>
    .tag (topTag n) :: (test.code slot (n + 1) ++ .branch (bodyTag n) :: .jump (exitTag n) ::
      .tag (bodyTag n) :: (Expr.rowCode slot (n + 1 + test.forks) body ++
        [.jump (topTag n), .tag (exitTag n)]))
  | .unary operator operand => operand.code slot n ++ [.unary operator]
  | .binary operator left right =>
    left.code slot n ++ .store (.slot slot) false ::
      (right.code (slot + 1) (n + left.forks) ++
        [.swap, .load (.slot slot) false, .binary operator])
  | .apply name arguments =>
    Expr.argumentCode slot n arguments ++
      (passCode slot (frame.size + 1) arguments.length ++
        [.call name, .load (.slot frame.returnSlot) false])

/-- Expressions one after the other. -/
def Expr.rowCode (slot n : Nat) : List Expr → List Op
  | [] => []
  | e :: es => e.code slot n ++ Expr.rowCode slot (n + e.forks) es

/-- Expressions one after the other, each value kept in a slot of its own from `slot` on. -/
def Expr.argumentCode (slot n : Nat) : List Expr → List Op
  | [] => []
  | e :: es =>
    e.code slot n ++ .store (.slot slot) false :: Expr.argumentCode (slot + 1) (n + e.forks) es

end

/-- The code of a function behind its tag. -/
def Function.code (n : Nat) (f : Function) : List Op :=
  Expr.rowCode frame frame.tempStart n f.body ++ [.yield, .ret]

end

/-! ## Parts -/

mutual

/-- The expressions within an expression, itself included. -/
def Expr.parts : Expr → List Expr
  | .literal value => [.literal value]
  | .symbol name => [.symbol name]
  | .reference name indirect => [.reference name indirect]
  | .declare name value => .declare name value :: value.parts
  | .assign name indirect value => .assign name indirect value :: value.parts
  | .cond test yes no =>
    .cond test yes no :: (test.parts ++ (Expr.rowParts no ++ Expr.rowParts yes))
  | .loop test body => .loop test body :: (test.parts ++ Expr.rowParts body)
  | .unary operator operand => .unary operator operand :: operand.parts
  | .binary operator left right => .binary operator left right :: (left.parts ++ right.parts)
  | .apply name arguments => .apply name arguments :: Expr.rowParts arguments

def Expr.rowParts : List Expr → List Expr
  | [] => []
  | e :: es => e.parts ++ Expr.rowParts es

end

section
variable {part : Expr}

mutual

theorem Expr.parts_subset_of_mem_parts : ∀ {e : Expr}, part ∈ e.parts → part.parts ⊆ e.parts
  | .literal _, h | .symbol _, h | .reference _ _, h => by
    rw [List.mem_singleton.mp h]
    exact List.Subset.refl _
  | .declare _ value, h | .assign _ _ value, h | .unary _ value, h => by
    rcases List.mem_cons.mp h with rfl | h
    · exact List.Subset.refl _
    · exact List.subset_cons_of_subset _ (Expr.parts_subset_of_mem_parts (e := value) h)
  | .cond test yes no, h => by
    simp only [Expr.parts, List.mem_cons, List.mem_append] at h
    rcases h with rfl | h | h | h
    · exact List.Subset.refl _
    · intro c hc
      simp [Expr.parts, Expr.parts_subset_of_mem_parts h hc]
    · intro c hc
      simp [Expr.parts, Expr.parts_subset_of_mem_rowParts h hc]
    · intro c hc
      simp [Expr.parts, Expr.parts_subset_of_mem_rowParts h hc]
  | .loop test body, h => by
    simp only [Expr.parts, List.mem_cons, List.mem_append] at h
    rcases h with rfl | h | h
    · exact List.Subset.refl _
    · intro c hc
      simp [Expr.parts, Expr.parts_subset_of_mem_parts h hc]
    · intro c hc
      simp [Expr.parts, Expr.parts_subset_of_mem_rowParts h hc]
  | .binary _ left right, h => by
    simp only [Expr.parts, List.mem_cons, List.mem_append] at h
    rcases h with rfl | h | h
    · exact List.Subset.refl _
    · intro c hc
      simp [Expr.parts, Expr.parts_subset_of_mem_parts h hc]
    · intro c hc
      simp [Expr.parts, Expr.parts_subset_of_mem_parts h hc]
  | .apply _ arguments, h => by
    rcases List.mem_cons.mp h with rfl | h
    · exact List.Subset.refl _
    · exact List.subset_cons_of_subset _ (Expr.parts_subset_of_mem_rowParts h)

theorem Expr.parts_subset_of_mem_rowParts : ∀ {es : List Expr}, part ∈ Expr.rowParts es →
    part.parts ⊆ Expr.rowParts es
  | [], h => by cases h
  | _ :: _, h => by
    rcases List.mem_append.mp h with h | h
    · exact List.subset_append_of_subset_left _ (Expr.parts_subset_of_mem_parts h)
    · exact List.subset_append_of_subset_right _ (Expr.parts_subset_of_mem_rowParts h)

end

end

/-! ## Names that resolve -/

/-- What the code of a program can refer to. -/
structure Resources where
  globals : List String
  /-- The functions with the number of their parameters. -/
  functions : List (String × Nat)
  symbols : SymbolPool
  /-- The tags of the data, each with the word there. The globals come first. -/
  data : List (String × Word)

namespace Resources

/-- The data behind the globals. -/
def constants (env : Resources) : List (String × Word) := env.data.drop env.globals.length

/-- More data and more symbols, and the same globals and functions. -/
structure Grows (a b : Resources) : Prop where
  globals : b.globals = a.globals
  functions : b.functions = a.functions
  symbols : a.symbols.names <+: b.symbols.names
  data : a.data <+: b.data

theorem Grows.refl (a : Resources) : Grows a a := ⟨rfl, rfl, List.prefix_refl _, List.prefix_refl _⟩

theorem Grows.trans {a b c : Resources} (h : Grows a b) (h' : Grows b c) : Grows a c :=
  ⟨h'.globals.trans h.globals, h'.functions.trans h.functions, h.symbols.trans h'.symbols,
    h.data.trans h'.data⟩

theorem Grows.constants {a b : Resources} (h : Grows a b) : a.constants <+: b.constants := by
  unfold Resources.constants
  rw [h.globals]
  exact h.data.drop _

end Resources

section
variable (env : Resources) (frame : Frame)

/-- A variable of the function or of the program. -/
def Resources.Names (name : String) : Prop := (frame.slot? name).isSome ∨ name ∈ env.globals

mutual

/-- All names, functions and constants of the expression are there. -/
def Expr.Resolves : Expr → Prop
  | .literal value => (literalTag value, value) ∈ env.constants
  | .symbol name =>
    ∃ i, env.symbols.names.idxOf? name = some i ∧ (symbolTag name, SymbolPool.number i) ∈ env.constants
  | .reference name _ => env.Names frame name
  | .declare name value => value.Resolves ∧ env.Names frame name
  | .assign name _ value => value.Resolves ∧ env.Names frame name
  | .cond test yes no => test.Resolves ∧ Expr.RowResolves no ∧ Expr.RowResolves yes
  | .loop test body => test.Resolves ∧ Expr.RowResolves body
  | .unary _ operand => operand.Resolves
  | .binary _ left right => left.Resolves ∧ right.Resolves
  | .apply name arguments =>
    env.functions.lookup name = some arguments.length ∧ Expr.RowResolves arguments

def Expr.RowResolves : List Expr → Prop
  | [] => True
  | e :: es => e.Resolves ∧ Expr.RowResolves es

end

end

/-! ## Growing resources keep what resolves -/

section
variable {a b : Resources} {frame : Frame}

theorem Resources.Names.mono (hg : a.Grows b) {name : String} (h : a.Names frame name) : b.Names frame name := by
  unfold Resources.Names at h ⊢
  rwa [hg.globals]

theorem SymbolPool.idxOf?_mono {p q : SymbolPool} (hpq : p.names <+: q.names) {name : String} {i : Nat}
    (h : p.names.idxOf? name = some i) : q.names.idxOf? name = some i := by
  obtain ⟨new, hnew⟩ := hpq
  unfold List.idxOf? at h ⊢
  rw [← hnew, List.findIdx?_append, h]
  rfl

/-- What the expression itself refers to is there. -/
def Expr.ResolvesItself (env : Resources) (frame : Frame) : Expr → Prop
  | .literal value => (literalTag value, value) ∈ env.constants
  | .symbol name =>
    ∃ i, env.symbols.names.idxOf? name = some i ∧ (symbolTag name, SymbolPool.number i) ∈ env.constants
  | .reference name _ | .declare name _ | .assign name _ _ => env.Names frame name
  | .apply name arguments => env.functions.lookup name = some arguments.length
  | _ => True

theorem Expr.ResolvesItself.mono (hg : a.Grows b) {e : Expr} (h : e.ResolvesItself a frame) :
    e.ResolvesItself b frame := by
  cases e with
  | literal value => exact hg.constants.subset h
  | symbol name =>
    obtain ⟨i, hi, h⟩ := h
    exact ⟨i, SymbolPool.idxOf?_mono hg.symbols hi, hg.constants.subset h⟩
  | reference | declare | assign => exact Resources.Names.mono hg h
  | apply name arguments =>
    show b.functions.lookup name = _
    rw [hg.functions]
    exact h
  | _ => trivial

mutual

/-- An expression resolves if each of its parts does by itself. -/
theorem Expr.resolves_iff : ∀ e : Expr,
    e.Resolves a frame ↔ ∀ part ∈ e.parts, part.ResolvesItself a frame
  | .literal _ | .symbol _ | .reference _ _ => by simp [Expr.Resolves, Expr.parts, Expr.ResolvesItself]
  | .declare _ value | .assign _ _ value => by
    simp [Expr.Resolves, Expr.parts, Expr.ResolvesItself, Expr.resolves_iff value, and_comm]
  | .cond test yes no => by
    simp [Expr.Resolves, Expr.parts, Expr.ResolvesItself, Expr.resolves_iff test,
      Expr.rowResolves_iff yes, Expr.rowResolves_iff no, or_imp, forall_and]
  | .loop test body => by
    simp [Expr.Resolves, Expr.parts, Expr.ResolvesItself, Expr.resolves_iff test,
      Expr.rowResolves_iff body, or_imp, forall_and]
  | .unary _ operand => by
    simp [Expr.Resolves, Expr.parts, Expr.ResolvesItself, Expr.resolves_iff operand]
  | .binary _ left right => by
    simp [Expr.Resolves, Expr.parts, Expr.ResolvesItself, Expr.resolves_iff left,
      Expr.resolves_iff right, or_imp, forall_and]
  | .apply _ arguments => by
    simp [Expr.Resolves, Expr.parts, Expr.ResolvesItself, Expr.rowResolves_iff arguments]

theorem Expr.rowResolves_iff : ∀ es : List Expr,
    Expr.RowResolves a frame es ↔ ∀ part ∈ Expr.rowParts es, part.ResolvesItself a frame
  | [] => by simp [Expr.RowResolves, Expr.rowParts]
  | e :: es => by
    simp [Expr.RowResolves, Expr.rowParts, Expr.resolves_iff e, Expr.rowResolves_iff es,
      or_imp, forall_and]

end

theorem Expr.RowResolves.mono (hg : a.Grows b) {es : List Expr} (h : Expr.RowResolves a frame es) :
    Expr.RowResolves b frame es :=
  (Expr.rowResolves_iff es).mpr fun part hm => ((Expr.rowResolves_iff es).mp h part hm).mono hg

/-- The parts of expressions that resolve do so too. -/
theorem Expr.RowResolves.of_mem_rowParts {es : List Expr} {part : Expr}
    (h : Expr.RowResolves a frame es) (hm : part ∈ Expr.rowParts es) : part.Resolves a frame :=
  (Expr.resolves_iff part).mpr fun _ hpart =>
    (Expr.rowResolves_iff es).mp h _ (Expr.parts_subset_of_mem_rowParts hm hpart)

end

end WordLisp

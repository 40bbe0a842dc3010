import WordLisp.Build
import WordLisp.Proofs.Code.Generated

/-!
# The structure of a compiled program

A listing that comes out of the generator is that of a `Program`: the two instructions at the
start, the routines, and the data. The start is seen as a routine of its own, without a name and
with the three cells at the bottom of the stack as its frame. `IsCompiled` relates the items of a
source to the program that they become.
-/

namespace WordLisp

/-- A function as code. -/
structure Routine where
  /-- The code at the start of a program has no name. -/
  name : Option String
  arity : Nat
  frame : Frame
  /-- The code behind the tag. -/
  code : List Op
  deriving DecidableEq

/-- The code at the start, which calls the entry function and then halts. -/
def Routine.boot : Routine := ⟨none, 0, ⟨[], 0⟩, [.call entryPoint, .stop]⟩

def Routine.listing (r : Routine) : Listing :=
  match r.name with
  | none => Op.listing r.code
  | some name => .data (Int32.ofNat r.frame.size) :: .tag name :: Op.listing r.code

structure Program where
  routines : List Routine
  /-- The globals with their initial values. -/
  globals : List (String × Word)
  constants : List (String × Word)

namespace Program

def data (p : Program) : List (String × Word) := p.globals ++ p.constants

def listing (p : Program) : Listing :=
  Routine.boot.listing ++ (p.routines.flatMap Routine.listing ++ Generator.dataListing p.data)

end Program

theorem tagNames_dataListing (ps : List (String × Word)) :
    Listing.tagNames (Generator.dataListing ps) = ps.map Prod.fst := by
  induction ps with
  | nil => rfl
  | cons q ps ih =>
    show q.1 :: Listing.tagNames (Generator.dataListing ps) = _
    rw [ih]
    rfl

/-! ## Items -/

/-- The functions among items. -/
def Item.functions : List Item → List Function
  | [] => []
  | .function f :: items => f :: functions items
  | .global _ _ :: items => functions items

/-- The globals among items, with their initial values. -/
def Item.globals : List Item → List (String × Word)
  | [] => []
  | .global name (.literal value) :: items => (name, value) :: globals items
  | _ :: items => globals items

/-- The routine is a function compiled with the given resources. -/
def IsRoutine (env : Resources) (f : Function) (r : Routine) : Prop :=
  ∃ n, Frame.allocate f = .ok r.frame ∧ r.name = some f.name ∧ r.arity = f.parameters.length ∧
    r.code = f.code r.frame n ∧ Expr.RowResolves env r.frame f.body

theorem IsRoutine.mono {a b : Resources} {f : Function} {r : Routine} (hg : a.Grows b)
    (h : IsRoutine a f r) : IsRoutine b f r := by
  obtain ⟨n, hf, hn, ha, hc, hr⟩ := h
  exact ⟨n, hf, hn, ha, hc, hr.mono hg⟩

/-- What the items of a source and its symbols become. -/
structure IsCompiled (items : List Item) (pool : SymbolPool) (p : Program) (env : Resources) :
    Prop where
  routines : List.Forall₂ (IsRoutine env) (Item.functions items) p.routines
  globals : p.globals = Item.globals items
  symbols : env.symbols = pool
  data : env.data = p.data
  constants : env.constants = p.constants
  names : ∀ name, name ∈ env.globals ↔ name ∈ p.globals.map Prod.fst
  arities : ∀ name arity, env.functions.lookup name = some arity →
    ∃ f ∈ Item.functions items, f.name = name ∧ f.parameters.length = arity
  entry : env.functions.lookup entryPoint = some 0

namespace Generator

/-! ## Declarations -/

/-- The generator has made the items known and done nothing else. -/
structure Declared (g : Generator) (items : List Item) (g' : Generator) : Prop where
  code : g'.code = g.code
  symbols : g'.symbols = g.symbols
  data : g'.resources.data = g.resources.data ++ Item.globals items
  globals : g'.globals = ((Item.globals items).map Prod.fst).reverse ++ g.globals
  functions : g'.functions =
    ((Item.functions items).map fun f => (f.name, f.parameters.length)).reverse ++ g.functions
  constants : g'.constants = g.constants
  tidy : Tidy g'

theorem Declared.cons {item : Item} {items : List Item} {g₁ g₂ g₃ : Generator}
    (h : Declared g₁ [item] g₂) (h' : Declared g₂ items g₃) : Declared g₁ (item :: items) g₃ := by
  have hg : Item.globals (item :: items) = Item.globals [item] ++ Item.globals items := by
    cases item with
    | function f => rfl
    | global name value => cases value <;> rfl
  have hf : Item.functions (item :: items) = Item.functions [item] ++ Item.functions items := by
    cases item <;> rfl
  refine ⟨h'.code.trans h.code, h'.symbols.trans h.symbols, ?_, ?_, ?_,
    h'.constants.trans h.constants, h'.tidy⟩
  · rw [h'.data, h.data, hg, List.append_assoc]
  · rw [h'.globals, h.globals, hg]; simp
  · rw [h'.functions, h.functions, hf]; simp

theorem declared_item {item : Item} {g g' : Generator} (ht : Tidy g) (hempty : g.constants = [])
    (h : declare item g = .ok () g') : Declared g [item] g' := by
  cases item with
  | global name value =>
    obtain ⟨_, _, hget, h⟩ := ok_of_bind h
    cases hget
    by_cases hd : g.declares name
    · rw [if_pos hd] at h
      obtain ⟨_, _, h, -⟩ := ok_of_bind h
      cases h
    rw [if_neg hd] at h
    cases value with
    | literal word =>
      obtain ⟨_, _, hmark, h⟩ := ok_of_bind h
      cases hmark
      obtain ⟨hcode, hcon, hres, hdata⟩ :=
        emitData_eq (g := { g with globals := name :: g.globals }) ht.data h
      have hglobals : g'.globals = name :: g.globals := congrArg Resources.globals hres
      refine ⟨hcode, congrArg Resources.symbols hres, congrArg Resources.data hres, hglobals,
        congrArg Resources.functions hres, hcon, hdata, ?_, ?_⟩
      · rw [hglobals, hres, List.length_cons, List.length_append]
        exact Nat.succ_le_succ ht.globals
      · intro tag hm
        rw [hcon, hempty] at hm
        cases hm
    | _ => cases h
  | function f =>
    obtain ⟨_, _, hget, h⟩ := ok_of_bind h
    cases hget
    by_cases hd : g.declares f.name
    · rw [if_pos hd] at h
      obtain ⟨_, _, h, -⟩ := ok_of_bind h
      cases h
    rw [if_neg hd] at h
    cases h
    exact ⟨rfl, rfl, by simp [Item.globals, resources], rfl, rfl, rfl,
      ⟨ht.data, ht.globals, ht.constants⟩⟩

theorem declared_items {items : List Item} {g g' : Generator} (ht : Tidy g)
    (hempty : g.constants = []) (h : items.forM declare g = .ok () g') : Declared g items g' := by
  induction items generalizing g with
  | nil =>
    cases h
    exact ⟨rfl, rfl, by simp [Item.globals], rfl, rfl, rfl, ht⟩
  | cons item items ih =>
    obtain ⟨_, g₁, h₁, h⟩ := ok_of_bind h
    have d₁ := declared_item ht hempty h₁
    exact d₁.cons (ih d₁.tidy (d₁.constants.trans hempty) h)

/-! ## Functions -/

theorem emits_function {f : Function} {g g' : Generator} (ht : Tidy g)
    (h : function f g = .ok () g') :
    ∃ r, IsRoutine g'.resources f r ∧ g'.code.toList = g.code.toList ++ r.listing ∧
      g.resources.Grows g'.resources ∧ Tidy g' := by
  have hbuilding := building_function g f
  rw [h] at hbuilding
  cases hbuilding with
  | @built frame g₁ hframe hheeds hcompletes =>
    have htidy := (extends_of_evolves (evolves_opened g f frame) ht).tidy
    have hres := hcompletes.rowResolves htidy hheeds
    obtain ⟨hgrows, ht'⟩ := extends_of_evolves
      (((evolves_opened g f frame).trans hcompletes.evolves).trans (evolves_closed g₁)) ht
    exact ⟨⟨some f.name, f.parameters.length, frame, f.code frame g.nextTag⟩,
      ⟨g.nextTag, hframe, rfl, rfl, rfl, hres⟩, code_function hframe h, hgrows, ht'⟩

theorem emits_functions {items : List Item} {g g' : Generator} (ht : Tidy g)
    (h : (items.forM fun item =>
      match item with
      | .function f => function f
      | .global _ _ => pure () : Action Unit) g = .ok () g') :
    ∃ routines, List.Forall₂ (IsRoutine g'.resources) (Item.functions items) routines ∧
      g'.code.toList = g.code.toList ++ routines.flatMap Routine.listing ∧
      g.resources.Grows g'.resources ∧ Tidy g' := by
  induction items generalizing g with
  | nil =>
    cases h
    exact ⟨[], .nil, by simp, .refl _, ht⟩
  | cons item items ih =>
    cases item with
    | global name value => exact ih ht h
    | function f =>
      obtain ⟨_, g₁, h₁, h⟩ := ok_of_bind h
      obtain ⟨r, hr, hc₁, hg₁, ht₁⟩ := emits_function ht h₁
      obtain ⟨rs, hrs, hc, hg, ht'⟩ := ih ht₁ h
      refine ⟨r :: rs, .cons (hr.mono hg) hrs, ?_, hg₁.trans hg, ht'⟩
      rw [hc, hc₁, List.flatMap_cons, List.append_assoc]

end Generator

/-! ## Programs -/

theorem Generator.checkEntry_eq {g g' : Generator} (h : checkEntry g = .ok () g') :
    g' = g ∧ g.functions.lookup entryPoint = some 0 := by
  obtain ⟨_, _, hget, h⟩ := ok_of_bind h
  cases hget
  cases hl : g.functions.lookup entryPoint with
  | none => simp only [hl] at h; cases h
  | some arity =>
    simp only [hl] at h
    cases arity with
    | zero => cases h; exact ⟨rfl, rfl⟩
    | succ n => cases h

theorem program_of_compileWithSymbols {source : String} {listing : Listing} {pool : SymbolPool}
    (h : compileWithSymbols source = .ok (listing, pool)) :
    ∃ items g, Item.parse source = .ok items ∧ Generator.program items {} = .ok listing g ∧
      g.symbols = pool := by
  obtain ⟨items, hparse, h⟩ := ok_of_bind_eq_ok h
  obtain ⟨⟨l, g⟩, hstart, h⟩ := ok_of_bind_eq_ok h
  cases h
  unfold Generator.start at hstart
  split at hstart
  · next hp =>
    cases hstart
    exact ⟨items, g, hparse, hp, rfl⟩
  · cases hstart

open Generator in
/-- The listing of a source text is that of the program that its items become. -/
theorem isCompiled_of_compileWithSymbols {source : String} {listing : Listing} {pool : SymbolPool}
    (h : compileWithSymbols source = .ok (listing, pool)) :
    ∃ items p env, Item.parse source = .ok items ∧ IsCompiled items pool p env ∧
      listing = p.listing := by
  obtain ⟨items, g, hparse, hp, rfl⟩ := program_of_compileWithSymbols h
  obtain ⟨_, g₁, h₁, hp⟩ := ok_of_bind hp
  obtain ⟨_, g₂, h₂, hp⟩ := ok_of_bind hp
  obtain ⟨_, g₃, h₃, hp⟩ := ok_of_bind hp
  cases hp
  have d := declared_items ⟨rfl, le_rfl, by simp⟩ rfl h₁
  obtain ⟨rfl, hentry⟩ := checkEntry_eq h₂
  obtain ⟨routines, hr, hcode, hgrows, ht⟩ := emits_functions d.tidy h₃
  obtain ⟨constants, hdata⟩ := hgrows.data
  have hglobals : g₂.resources.data = Item.globals items := d.data
  rw [hglobals] at hdata
  refine ⟨items, ⟨routines, Item.globals items, constants⟩, g₃.resources, hparse,
    ⟨hr, rfl, rfl, hdata.symm, ?_, ?_, ?_, ?_⟩, ?_⟩
  · have hlen : g₂.globals.length = (Item.globals items).length := by simp [d.globals]
    unfold Resources.constants
    rw [hgrows.globals, ← hdata]
    exact List.drop_left' hlen.symm
  · intro name
    rw [hgrows.globals]
    show name ∈ g₂.globals ↔ _
    rw [d.globals]
    simp
  · intro name arity hl
    rw [hgrows.functions] at hl
    have hl : g₂.functions.lookup name = some arity := hl
    rw [d.functions, List.lookup_eq_some_iff] at hl
    obtain ⟨l₁, l₂, hl, -⟩ := hl
    have hm : (name, arity) ∈ ((Item.functions items).map fun f =>
        (f.name, f.parameters.length)).reverse ++ ({} : Generator).functions := by
      rw [hl]; simp
    simp only [List.append_nil, List.mem_reverse, List.mem_map] at hm
    obtain ⟨f, hf, he⟩ := hm
    cases he
    exact ⟨f, hf, rfl, rfl⟩
  · rw [hgrows.functions]
    exact hentry
  · have hcode₂ : g₂.code.toList = [] := by rw [d.code]
    rw [hcode₂, List.nil_append] at hcode
    show _ :: _ :: (g₃.code.toList ++ g₃.data.toList) = _
    rw [hcode, ht.data, ← hdata]
    rfl

theorem compilePlain_of_compileWithSymbols {source : String} {listing : Listing} {pool : SymbolPool}
    (h : compileWithSymbols source = .ok (listing, pool)) : compilePlain source = .ok listing := by
  unfold compilePlain
  rw [h]
  rfl

theorem isCompiled_of_compilePlain {source : String} {listing : Listing}
    (h : compilePlain source = .ok listing) :
    ∃ items pool p env, Item.parse source = .ok items ∧ IsCompiled items pool p env ∧
      listing = p.listing := by
  obtain ⟨⟨l, pool⟩, hcompile, hl⟩ := ok_of_bind_eq_ok h
  cases hl
  obtain ⟨items, p, env, h⟩ := isCompiled_of_compileWithSymbols hcompile
  exact ⟨items, pool, p, env, h⟩

/-- What a computation finds out about the listing of a source text whose items are known. -/
theorem compiles_of_check {source : String} {items : List Item} (hparse : Item.parse source = .ok items)
    (check : Listing → SymbolPool → Bool)
    (h : (match Generator.start (Generator.program items) with
      | .ok (listing, g) => check listing g.symbols
      | .error _ => false) = true) :
    ∃ listing symbols, compileWithSymbols source = .ok (listing, symbols) ∧
      check listing symbols = true := by
  unfold compileWithSymbols
  rw [hparse]
  split at h
  · next listing g hg =>
    exact ⟨listing, g.symbols, by simp [bind, Except.bind, hg, pure, Except.pure], h⟩
  · cases h

/-- The listing becomes words that pass a check. -/
def Listing.assemblesTo (listing : Listing) (check : List Word → Bool) : Bool :=
  match listing.assemble with
  | .ok words => check words
  | .error _ => false

theorem Listing.exists_of_assemblesTo {listing : Listing} {check : List Word → Bool}
    (h : listing.assemblesTo check = true) :
    ∃ words, listing.assemble = .ok words ∧ check words = true := by
  unfold assemblesTo at h
  split at h
  · next words hwords => exact ⟨words, hwords, h⟩
  · cases h

end WordLisp

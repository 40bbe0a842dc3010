import WordLisp.Proofs.Code.Compiles
import WordLisp.Proofs.Numeral

/-!
# What the generator leaves for its code

`Extends g g'` says that the generator has gone from `g` to `g'`, that its resources have grown and that
its data are still in order.

Main statement: a row of expressions that has been compiled resolves in the resources that the generator
then has.
-/

namespace WordLisp.Generator

/-! ## Data -/

/-- The words of a listing of data, with their tags. -/
def pairs : Listing → List (String × Word)
  | .tag tag :: .data value :: rest => (tag, value) :: pairs rest
  | _ => []

theorem pairs_dataListing_append (ps : List (String × Word)) (l : Listing) :
    pairs (dataListing ps ++ l) = ps ++ pairs l := by
  induction ps with
  | nil => rfl
  | cons p ps ih =>
    show (p.1, p.2) :: pairs (dataListing ps ++ l) = _
    rw [ih]
    rfl

def resources (g : Generator) : Resources where
  globals := g.globals
  functions := g.functions
  symbols := g.symbols
  data := pairs g.data.toList

theorem literalTag_ne_symbolTag (value : Word) (name : String) :
    literalTag value ≠ symbolTag name := by
  intro h
  have := congrArg String.toList h
  simp [literalTag, symbolTag, String.toList_append] at this

theorem IsConstant.unique {pool : SymbolPool} {tag : String} {v w : Word}
    (hv : IsConstant pool tag v) (hw : IsConstant pool tag w) : v = w := by
  rcases hv with rfl | ⟨x, i, rfl, hi, rfl⟩
  · rcases hw with h | ⟨y, j, h, -, -⟩
    · exact Word.text_inj ((String.append_right_inj _).mp h)
    · exact absurd h (literalTag_ne_symbolTag _ _)
  · rcases hw with h | ⟨y, j, h, hj, rfl⟩
    · exact absurd h.symm (literalTag_ne_symbolTag _ _)
    · obtain rfl : x = y := (String.append_right_inj _).mp h
      rw [hi] at hj
      rw [Option.some.inj hj]

/-- The tag stands for a constant that is there. -/
def Keeps (env : Resources) (tag : String) : Prop :=
  ∃ value, IsConstant env.symbols tag value ∧ (tag, value) ∈ env.constants

theorem Keeps.mono {a b : Resources} {tag : String} (hg : a.Grows b) (h : Keeps a tag) :
    Keeps b tag := by
  obtain ⟨value, hc, hm⟩ := h
  exact ⟨value, hc.mono hg.symbols, hg.constants.subset hm⟩

/-- The data are words with tags, first those of the globals, and the constants that are marked as
used are among them. -/
structure Tidy (g : Generator) : Prop where
  data : g.data.toList = dataListing g.resources.data
  globals : g.globals.length ≤ g.resources.data.length
  constants : ∀ tag ∈ g.constants, Keeps g.resources tag

structure Extends (g g' : Generator) : Prop where
  grows : g.resources.Grows g'.resources
  tidy : Tidy g'

namespace Extends

theorem refl {g : Generator} (h : Tidy g) : Extends g g := ⟨.refl _, h⟩

theorem trans {g₁ g₂ g₃ : Generator} (h : Extends g₁ g₂) (h' : Extends g₂ g₃) : Extends g₁ g₃ :=
  ⟨h.grows.trans h'.grows, h'.tidy⟩

end Extends

section
variable {g g' : Generator}

/-- What the generator adds leaves its data in order. -/
theorem extends_of_evolves (h : Evolves g g') (ht : Tidy g) : Extends g g' := by
  obtain ⟨new, hnew⟩ := h.data
  have hdata : g'.resources.data = g.resources.data ++ new := by
    show pairs g'.data.toList = _
    rw [hnew.data, ht.data, pairs_dataListing_append, ← List.append_nil (dataListing new),
      pairs_dataListing_append]
    exact congrArg _ (List.append_nil new)
  have hgrows : g.resources.Grows g'.resources :=
    ⟨h.globals, h.functions, h.symbols, hdata ▸ List.prefix_append _ _⟩
  refine ⟨hgrows, ?_, ?_, fun tag hm => ?_⟩
  · rw [hnew.data, ht.data, hdata, dataListing_append]
  · rw [h.globals]
    exact ht.globals.trans hgrows.data.length_le
  · rcases hnew.mem_constants.mp hm with ⟨p, hp, rfl⟩ | hm
    · refine ⟨p.2, hnew.isConstant p hp, ?_⟩
      show _ ∈ g'.resources.data.drop g'.globals.length
      rw [hdata, h.globals, List.drop_append_of_le_length ht.globals]
      exact List.mem_append_right _ hp
    · exact (ht.constants tag hm).mono hgrows

theorem emitData_eq {tag : String} {value : Word}
    (hd : g.data.toList = dataListing g.resources.data) (h : emitData tag value g = .ok () g') :
    g'.code = g.code ∧ g'.constants = g.constants ∧
      g'.resources = { g.resources with data := g.resources.data ++ [(tag, value)] } ∧
      g'.data.toList = dataListing g'.resources.data := by
  cases h
  have hl : ((g.data.push (.tag tag)).push (.data value)).toList
      = dataListing g.resources.data ++ [.tag tag, .data value] := by
    rw [← hd]; simp
  have hp : pairs ((g.data.push (.tag tag)).push (.data value)).toList
      = g.resources.data ++ [(tag, value)] := by
    rw [hl, pairs_dataListing_append]; rfl
  refine ⟨rfl, rfl, ?_, ?_⟩
  · unfold resources at hp ⊢
    rw [hp]
  · show _ = dataListing (pairs _)
    rw [hp, hl]
    simp [dataListing]

/-! ## Constants -/

/-- A constant that is used is among the data afterwards, with the only word that its tag can stand
for. -/
theorem mem_constants_withConstant {tag : String} {value : Word} (ht : Tidy g)
    (hc : IsConstant g.symbols tag value) : (tag, value) ∈ (g.withConstant tag value).resources.constants := by
  have htidy := (extends_of_evolves (evolves_withConstant hc) ht).tidy
  have hused : tag ∈ (g.withConstant tag value).constants := by
    unfold withConstant
    split
    · next h => simpa using h
    · exact List.mem_cons_self ..
  obtain ⟨v, hv, hm⟩ := htidy.constants tag hused
  have hsame : (g.withConstant tag value).resources.symbols = g.symbols := symbols_withConstant g tag value
  rw [hsame] at hv
  obtain rfl := hc.unique hv
  exact hm

variable {frame : Frame} {slot : Nat}

theorem resolvesItself_literal {value : Word} (ht : Tidy g)
    (h : expression frame slot (.literal value) g = .ok () g') :
    (Expr.literal value).ResolvesItself g'.resources frame := by
  rw [expression_literal] at h
  cases h
  exact mem_constants_withConstant ht (.inl rfl)

/-- The number that a symbol gets is the word that its tag stands for. -/
theorem resolvesItself_symbol {name : String} (ht : Tidy g)
    (h : expression frame slot (.symbol name) g = .ok () g') :
    (Expr.symbol name).ResolvesItself g'.resources frame := by
  obtain ⟨i, hi, hvalue⟩ := g.symbols.idxOf?_intern name
  rw [expression_symbol, withSymbol, hvalue] at h
  cases h
  have htidy := (extends_of_evolves (evolves_intern g name) ht).tidy
  refine ⟨i, ?_, mem_constants_withConstant htidy (.inr ⟨name, i, rfl, hi, rfl⟩)⟩
  show (withConstant _ _ _).symbols.names.idxOf? name = _
  rw [symbols_withConstant]
  exact hi

/-! ## Rows of expressions -/

/-- A row of expressions resolves behind the generator that has compiled it. -/
theorem Completes.rowResolves {es : List Expr} {ops : List Op} {forks : Nat} (ht : Tidy g)
    (hc : Completes frame g ops forks (Expr.rowSites slot es) g')
    (hheeds : ∀ part ∈ Expr.rowParts es, Heeds g.signature frame part) :
    Expr.RowResolves g'.resources frame es := by
  have hextends := extends_of_evolves hc.evolves ht
  have hnames {name : String} (hn : (frame.slot? name).isSome ∨ name ∈ g.globals) :
      g'.resources.Names frame name := Resources.Names.mono hextends.grows hn
  refine (Expr.rowResolves_iff es).mpr fun part hpart => ?_
  have hheed := hheeds part hpart
  rw [← Expr.map_snd_rowSites slot] at hpart
  obtain ⟨⟨t, part⟩, hsite, rfl⟩ := List.mem_map.mp hpart
  obtain ⟨k, k', hk, hpre, hpost⟩ := hc.passes _ hsite
  have htidy := (extends_of_evolves hpre ht).tidy
  have hevolves := ((compiles_expression k.signature frame t k.nextTag part).ok rfl rfl hk).2.evolves
  have hgrows := (extends_of_evolves hpost (extends_of_evolves hevolves htidy).tidy).grows
  cases part with
  | literal value => exact (resolvesItself_literal htidy hk).mono hgrows
  | symbol name => exact (resolvesItself_symbol htidy hk).mono hgrows
  | reference name indirect => exact hnames hheed
  | declare name value => exact hnames hheed
  | assign name indirect value => exact hnames hheed
  | apply name arguments =>
    show g'.resources.functions.lookup name = _
    rw [hextends.grows.functions]
    exact hheed
  | _ => trivial

end

end WordLisp.Generator

import WordLisp.Proofs.Code.Accesses
import WordLisp.Proofs.Frame
import WordLisp.Proofs.Source.Names

/-!
# Which items are compiled

`Item.WellScoped` says what is asked of the items of a program, without reference to the generator.

Main statement: the generator compiles exactly the items that are well scoped.
-/

namespace WordLisp

/-! ## What is asked of items -/

/-- The parameters, and the names that are declared anywhere in the body. -/
def Function.locals (f : Function) : List String :=
  f.parameters ++ (Expr.rowParts f.body).filterMap Expr.declares?

/-- The name is one of the function itself, or that of a global. -/
def Function.Sees (items : List Item) (f : Function) (name : String) : Prop :=
  name ∈ f.locals ∨ ∃ value, .global name value ∈ items

structure Function.WellScoped (items : List Item) (f : Function) : Prop where
  locals : f.locals.Nodup
  references : ∀ name indirect, .reference name indirect ∈ Expr.rowParts f.body → f.Sees items name
  targets : ∀ name indirect value, .assign name indirect value ∈ Expr.rowParts f.body →
    f.Sees items name
  calls : ∀ name arguments, .apply name arguments ∈ Expr.rowParts f.body →
    ∃ callee, .function callee ∈ items ∧ callee.name = name ∧
      callee.parameters.length = arguments.length

structure Item.WellScoped (items : List Item) : Prop where
  /-- Globals and functions share their names. -/
  names : (items.map Item.name).Nodup
  literals : ∀ name value, .global name value ∈ items → ∃ word, value = .literal word
  entry : ∃ f, .function f ∈ items ∧ f.name = entryPoint ∧ f.parameters = []
  functions : ∀ f, .function f ∈ items → f.WellScoped items

/-! ## Declared names -/

mutual

/-- The order of the declarations aside, the declared names are those of the parts. -/
theorem Expr.declared_perm : ∀ e : Expr, e.declared.Perm (e.parts.filterMap Expr.declares?)
  | .literal _ | .symbol _ | .reference _ _ => .nil
  | .declare name value => (Expr.declared_perm value).cons name
  | .assign _ _ value => Expr.declared_perm value
  | .cond test yes no => by
    rw [Expr.declared, Expr.parts, List.filterMap_cons_none rfl, List.filterMap_append,
      List.filterMap_append, List.append_assoc]
    -- The parts of the second block come first.
    exact (Expr.declared_perm test).append (((Expr.declaredAll_perm yes).append
      (Expr.declaredAll_perm no)).trans List.perm_append_comm)
  | .loop test body => by
    rw [Expr.declared, Expr.parts, List.filterMap_cons_none rfl, List.filterMap_append]
    exact (Expr.declared_perm test).append (Expr.declaredAll_perm body)
  | .unary _ operand => Expr.declared_perm operand
  | .binary _ left right => by
    rw [Expr.declared, Expr.parts, List.filterMap_cons_none rfl, List.filterMap_append]
    exact (Expr.declared_perm left).append (Expr.declared_perm right)
  | .apply _ arguments => Expr.declaredAll_perm arguments

theorem Expr.declaredAll_perm : ∀ es : List Expr,
    (Expr.declaredAll es).Perm ((Expr.rowParts es).filterMap Expr.declares?)
  | [] => .nil
  | e :: es => by
    rw [Expr.declaredAll, Expr.rowParts, List.filterMap_append]
    exact (Expr.declared_perm e).append (Expr.declaredAll_perm es)

end

/-- The frame of a function has slots for its locals. -/
theorem Function.locals_perm (f : Function) :
    (f.parameters ++ Expr.declaredAll f.body).Perm f.locals :=
  (List.Perm.refl _).append (Expr.declaredAll_perm f.body)

theorem Frame.allocate_isOk_iff_locals {f : Function} :
    (∃ frame, Frame.allocate f = .ok frame) ↔ f.locals.Nodup := by
  rw [Frame.allocate_isOk_iff, f.locals_perm.nodup_iff]

theorem Frame.slot?_isSome_of_allocate {f : Function} {frame : Frame} (h : Frame.allocate f = .ok frame)
    {name : String} : (frame.slot? name).isSome ↔ name ∈ f.locals := by
  rw [Frame.slot?_isSome, (Frame.allocate_eq h).1, f.locals_perm.mem_iff]

/-! ## Functions -/

namespace Generator

/-- What the generator asks of a function. -/
def Admits (s : Signature) (f : Function) : Prop :=
  f.locals.Nodup ∧ ∀ frame, Frame.allocate f = .ok frame →
    ∀ part ∈ Expr.rowParts f.body, Heeds s frame part

theorem function_isOk_iff {g : Generator} {f : Function} :
    (∃ g', function f g = .ok () g') ↔ Admits g.signature f := by
  have hbuilding := building_function g f
  constructor
  · rintro ⟨g', h⟩
    rw [h] at hbuilding
    cases hbuilding with
    | built hframe hheeds _ =>
      refine ⟨Frame.allocate_isOk_iff_locals.mp ⟨_, hframe⟩, fun frame hframe' => ?_⟩
      cases hframe.symm.trans hframe'
      exact hheeds
  · rintro ⟨hlocals, hheeds⟩
    cases h : function f g with
    | ok _ g' => exact ⟨g', rfl⟩
    | error e g' =>
      rw [h] at hbuilding
      cases hbuilding with
      | unframed hframe =>
        obtain ⟨frame, hframe'⟩ := Frame.allocate_isOk_iff_locals.mpr hlocals
        cases hframe.symm.trans hframe'
      | broken hframe hflaw _ _ => exact absurd (hheeds _ hframe) hflaw

theorem signature_of_function {g g' : Generator} {f : Function} (h : function f g = .ok () g') :
    g'.signature = g.signature := by
  have hbuilding := building_function g f
  rw [h] at hbuilding
  cases hbuilding with
  | built _ _ hcompletes => exact hcompletes.evolves.signature

theorem functions_isOk_iff {g : Generator} {items : List Item} :
    (∃ g', (items.forM fun item =>
      match item with
      | .function f => function f
      | .global _ _ => pure () : Action Unit) g = .ok () g') ↔
      ∀ f, .function f ∈ items → Admits g.signature f := by
  induction items generalizing g with
  | nil => simpa using ⟨g, rfl⟩
  | cons item items ih =>
    cases item with
    | global name value => exact ih.trans (by simp)
    | function f =>
      simp only [List.mem_cons, Item.function.injEq, forall_eq_or_imp]
      constructor
      · rintro ⟨g', h⟩
        obtain ⟨_, g₁, h₁, h⟩ := ok_of_bind h
        refine ⟨function_isOk_iff.mp ⟨g₁, h₁⟩, ?_⟩
        rw [← signature_of_function h₁]
        exact ih.mp ⟨g', h⟩
      · rintro ⟨hf, hitems⟩
        obtain ⟨g₁, h₁⟩ := function_isOk_iff.mpr hf
        rw [← signature_of_function h₁] at hitems
        obtain ⟨g', h⟩ := ih.mpr hitems
        exact ⟨g', (bind_of_ok h₁).trans h⟩

/-! ## Declarations -/

theorem declares_iff {g : Generator} {name : String} :
    g.declares name ↔ name ∈ g.globals ∨ name ∈ g.functions.map Prod.fst := by
  unfold declares
  rw [Bool.or_eq_true, List.contains_iff_mem, List.lookup_isSome_iff]
  simp

/-- The value of a global must be a literal. -/
def HasLiteral : Item → Prop
  | .global _ value => ∃ word, value = .literal word
  | .function _ => True

/-- What declaring an item can do. -/
inductive Declaring (g : Generator) : Item → EStateM.Result SourceError Generator Unit → Prop where
  | global {name : String} {word : Word} : ¬ g.declares name →
    Declaring g (.global name (.literal word)) (.ok ()
      { g with globals := name :: g.globals, data := (g.data.push (.tag name)).push (.data word) })
  | function {f : Function} : ¬ g.declares f.name →
    Declaring g (.function f)
      (.ok () { g with functions := (f.name, f.parameters.length) :: g.functions })
  | failed {item : Item} {e : SourceError} : ¬ (¬ g.declares item.name ∧ HasLiteral item) →
    Declaring g item (.error e g)

theorem declaring_declare (g : Generator) (item : Item) : Declaring g item (declare item g) := by
  cases item with
  | global name value =>
    show Declaring g _ ((if g.declares name then _ else _ : Action Unit) g)
    by_cases hd : g.declares name
    · rw [if_pos hd]
      exact .failed fun h => h.1 hd
    · rw [if_neg hd]
      cases value with
      | literal word => exact .global hd
      | _ => exact .failed fun h => by obtain ⟨-, word, h⟩ := h; cases h
  | function f =>
    show Declaring g _ ((if g.declares f.name then _ else _ : Action Unit) g)
    by_cases hd : g.declares f.name
    · rw [if_pos hd]
      exact .failed fun h => h.1 hd
    · rw [if_neg hd]
      exact .function hd

theorem Declaring.condition {g g' : Generator} {item : Item} (h : Declaring g item (.ok () g')) :
    ¬ g.declares item.name ∧ HasLiteral item := by
  cases h with
  | global hd => exact ⟨hd, _, rfl⟩
  | function hd => exact ⟨hd, trivial⟩

/-- An item that is declared adds its name and no other. -/
theorem Declaring.declares_iff {g g' : Generator} {item : Item} (h : Declaring g item (.ok () g'))
    {name : String} : g'.declares name ↔ name = item.name ∨ g.declares name := by
  cases h with
  | global _ => simp [Generator.declares_iff, Item.name, or_assoc]
  | function _ => simp [Generator.declares_iff, Item.name, or_left_comm]

theorem declare_items_isOk_iff {g : Generator} {items : List Item} :
    (∃ g', items.forM declare g = .ok () g') ↔
      (∀ item ∈ items, ¬ g.declares item.name) ∧ (items.map Item.name).Nodup ∧
        ∀ item ∈ items, HasLiteral item := by
  induction items generalizing g with
  | nil => simpa using ⟨g, rfl⟩
  | cons item items ih =>
    have hd := declaring_declare g item
    cases hx : declare item g with
    | error e g₁ =>
      rw [hx] at hd
      have herror : (item :: items).forM declare g = .error e g₁ := bind_of_error hx
      cases hd with
      | failed hnot =>
        refine iff_of_false (by simp [herror]) fun ⟨hg, _, hl⟩ => ?_
        exact hnot ⟨hg item (List.mem_cons_self ..), hl item (List.mem_cons_self ..)⟩
    | ok _ g₁ =>
      rw [hx] at hd
      have hok : (item :: items).forM declare g = items.forM declare g₁ := bind_of_ok hx
      rw [hok, ih]
      obtain ⟨hg, hl⟩ := hd.condition
      simp only [hd.declares_iff, not_or, List.forall_mem_cons, List.map_cons, List.nodup_cons,
        List.mem_map, not_exists, not_and, forall_and, hg, hl, true_and]
      tauto

end Generator

/-! ## Programs -/

theorem Item.mem_functions {f : Function} {items : List Item} :
    f ∈ Item.functions items ↔ .function f ∈ items := by
  induction items with
  | nil => simp [Item.functions]
  | cons item items ih => cases item <;> simp [Item.functions, ih]

theorem Item.mem_globals {name : String} {word : Word} {items : List Item} :
    (name, word) ∈ Item.globals items ↔ .global name (.literal word) ∈ items := by
  induction items with
  | nil => simp [Item.globals]
  | cons item items ih =>
    cases item with
    | function f => simp [Item.globals, ih]
    | global name' value => cases value <;> simp [Item.globals, ih]

theorem Item.functions_sublist (items : List Item) :
    ((Item.functions items).map Function.name).Sublist (items.map Item.name) := by
  induction items with
  | nil => exact .slnil
  | cons item items ih =>
    cases item with
    | function f => exact ih.cons_cons f.name
    | global name value => exact ih.cons name

namespace Generator

section
variable {items : List Item} {g : Generator} (hd : Declared {} items g)
include hd

theorem Declared.mem_globals {name : String} :
    name ∈ g.globals ↔ ∃ word, .global name (.literal word) ∈ items := by
  rw [hd.globals]
  simp [Item.mem_globals]

theorem Declared.lookup_functions (hn : (items.map Item.name).Nodup) {name : String} {arity : Nat} :
    g.functions.lookup name = some arity ↔
      ∃ f, .function f ∈ items ∧ f.name = name ∧ f.parameters.length = arity := by
  have hmem : (name, arity) ∈ g.functions ↔
      ∃ f, .function f ∈ items ∧ f.name = name ∧ f.parameters.length = arity := by
    rw [hd.functions]
    simp [Item.mem_functions]
  have hnodup : (g.functions.map Prod.fst).Nodup := by
    rw [hd.functions]
    simpa [Function.comp_def] using (Item.functions_sublist items).nodup hn
  rw [← hmem]
  constructor
  · intro h
    obtain ⟨l₁, l₂, hl, -⟩ := List.lookup_eq_some_iff.mp h
    rw [hl]
    exact List.mem_append_right _ (List.mem_cons_self ..)
  · exact Listing.lookup_of_mem hnodup

/-- The generator asks of a function that it is well scoped. -/
theorem Declared.wellScoped_iff (hn : (items.map Item.name).Nodup)
    (hl : ∀ item ∈ items, HasLiteral item) {f : Function} :
    Admits g.signature f ↔ f.WellScoped items := by
  have hsees {frame : Frame} (hframe : Frame.allocate f = .ok frame) (name : String) :
      (frame.slot? name).isSome ∨ name ∈ g.signature.globals ↔ f.Sees items name := by
    have hglobals : name ∈ g.signature.globals ↔ ∃ value, .global name value ∈ items := by
      show name ∈ g.globals ↔ _
      rw [hd.mem_globals]
      refine ⟨fun ⟨word, hm⟩ => ⟨_, hm⟩, fun ⟨value, hm⟩ => ?_⟩
      obtain ⟨word, rfl⟩ := hl _ hm
      exact ⟨word, hm⟩
    rw [Frame.slot?_isSome_of_allocate hframe, hglobals]
    rfl
  constructor
  · rintro ⟨hlocals, h⟩
    obtain ⟨frame, hframe⟩ := Frame.allocate_isOk_iff_locals.mpr hlocals
    have hparts := h frame hframe
    exact ⟨hlocals, fun name indirect hm => (hsees hframe name).mp (hparts _ hm),
      fun name indirect value hm => (hsees hframe name).mp (hparts _ hm),
      fun name arguments hm => (hd.lookup_functions hn).mp (hparts _ hm)⟩
  · rintro ⟨hlocals, hr, ht, hc⟩
    refine ⟨hlocals, fun frame hframe part hm => ?_⟩
    cases part with
    | reference name indirect => exact (hsees hframe name).mpr (hr name indirect hm)
    | assign name indirect value => exact (hsees hframe name).mpr (ht name indirect value hm)
    | apply name arguments => exact (hd.lookup_functions hn).mpr (hc name arguments hm)
    | declare name value =>
      -- What a body declares is in the frame, so this asks for nothing.
      refine (hsees hframe name).mpr (.inl (List.mem_append_right _ ?_))
      exact List.mem_filterMap.mpr ⟨_, hm, rfl⟩
    | _ => trivial

end

theorem checkEntry_of_lookup {g : Generator} (h : g.functions.lookup entryPoint = some 0) :
    checkEntry g = .ok () g := by
  refine (bind_of_ok rfl).trans ?_
  simp only [h]
  rfl

end Generator

open Generator in
/-- The generator compiles exactly the items that are well scoped. -/
theorem compiles_iff_wellScoped (items : List Item) :
    (∃ listing g, Generator.program items {} = .ok listing g) ↔ Item.WellScoped items := by
  constructor
  · rintro ⟨listing, g, h⟩
    obtain ⟨_, g₁, h₁, h⟩ := ok_of_bind h
    obtain ⟨_, g₂, h₂, h⟩ := ok_of_bind h
    obtain ⟨_, g₃, h₃, -⟩ := ok_of_bind h
    obtain ⟨-, hn, hl⟩ := declare_items_isOk_iff.mp ⟨g₁, h₁⟩
    have hd := declared_items ⟨rfl, le_rfl, by simp⟩ rfl h₁
    obtain ⟨rfl, hentry⟩ := checkEntry_eq h₂
    obtain ⟨f, hf, hname, hparameters⟩ := (hd.lookup_functions hn).mp hentry
    have hall := functions_isOk_iff.mp ⟨g₃, h₃⟩
    exact ⟨hn, fun name value hm => hl _ hm, ⟨f, hf, hname, List.length_eq_zero_iff.mp hparameters⟩,
      fun f hf => (hd.wellScoped_iff hn hl).mp (hall f hf)⟩
  · rintro ⟨hn, hliterals, ⟨f, hf, hname, hparameters⟩, hall⟩
    have hl : ∀ item ∈ items, HasLiteral item := by
      intro item hm
      cases item with
      | global name value => exact hliterals name value hm
      | function f => trivial
    have hnew : ∀ item ∈ items, ¬ ({} : Generator).declares item.name := fun _ _ h => by cases h
    obtain ⟨g₁, h₁⟩ := declare_items_isOk_iff.mpr ⟨hnew, hn, hl⟩
    have hd := declared_items ⟨rfl, le_rfl, by simp⟩ rfl h₁
    have hentry := (hd.lookup_functions hn).mpr ⟨f, hf, hname, List.length_eq_zero_iff.mpr hparameters⟩
    obtain ⟨g₃, h₃⟩ := functions_isOk_iff.mpr fun f hf => (hd.wellScoped_iff hn hl).mpr (hall f hf)
    exact ⟨_, _, (bind_of_ok h₁).trans ((bind_of_ok (checkEntry_of_lookup hentry)).trans
      ((bind_of_ok h₃).trans rfl))⟩

end WordLisp

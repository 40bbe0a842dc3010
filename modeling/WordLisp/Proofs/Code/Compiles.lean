import WordLisp.Proofs.Code.Sites
import WordLisp.Proofs.Results
import WordLisp.Proofs.SymbolPool

/-!
# What the generator does

`Compiles s frame n x P ops forks sites` is the account of an action `x` that compiles expressions. In a
generator with the signature `s` and with `n` as the number for the next tags, `x` succeeds exactly if
`P` holds. It then has appended the operations `ops` to the code, taken `forks` of the numbers, and
compiled what is at the sites. If it fails it has appended the first of the operations. Nothing else is
asked of the generator: it may hold what earlier programs have left behind.

Main statement: `Expr.code`, `Expr.forks` and `Expr.sites` are the account of compiling an expression. This
is the only place where the actions of the generator are gone through, all else that is known of them
follows.
-/

namespace WordLisp

/-! ## Symbols -/

theorem SymbolPool.prefix_intern (pool : SymbolPool) (name : String) :
    pool.names <+: (pool.intern name).2.names := by
  rw [names_intern]
  split
  · exact List.prefix_refl _
  · exact List.prefix_append _ _

theorem SymbolPool.mem_names_intern {pool : SymbolPool} {name name' : String}
    (h : name' ∈ (pool.intern name).2.names) : name' ∈ pool.names ∨ name' = name := by
  rw [names_intern] at h
  split at h
  · exact .inl h
  · exact (List.mem_append.mp h).imp_right List.mem_singleton.mp

/-- A symbol gets the number of its place in the pool. -/
theorem SymbolPool.idxOf?_intern (pool : SymbolPool) (name : String) :
    ∃ i, (pool.intern name).2.names.idxOf? name = some i ∧ (pool.intern name).1.1 = number i := by
  unfold intern
  cases hi : pool.names.idxOf? name with
  | some i => exact ⟨i, hi, rfl⟩
  | none =>
    refine ⟨pool.names.length, ?_, rfl⟩
    show (pool.names ++ [name]).idxOf? name = _
    unfold List.idxOf? at hi ⊢
    rw [List.findIdx?_append, hi]
    simp

/-- If the operation defines a tag, then one of a conditional or loop with a number below `n`. -/
def Op.Numbered (n : Nat) : Op → Prop
  | .tag name => ∃ m < n, name ∈ numberedTags m
  | _ => True

theorem Op.Numbered.mono {m n : Nat} {op : Op} (h : op.Numbered m) (hle : m ≤ n) : op.Numbered n := by
  cases op with
  | tag name =>
    obtain ⟨k, hk, hname⟩ := h
    exact ⟨k, by omega, hname⟩
  | _ => trivial

namespace Generator

/-! ## Data -/

/-- The records of data, a tag in front of each word. -/
def dataListing (pairs : List (String × Word)) : Listing :=
  pairs.flatMap fun p => [.tag p.1, .data p.2]

theorem dataListing_append (a b : List (String × Word)) :
    dataListing (a ++ b) = dataListing a ++ dataListing b := List.flatMap_append

/-- The tag of a literal or of a symbol, and the word that it stands for. -/
def IsConstant (pool : SymbolPool) (tag : String) (value : Word) : Prop :=
  tag = literalTag value ∨
    ∃ name i, tag = symbolTag name ∧ pool.names.idxOf? name = some i ∧ value = SymbolPool.number i

theorem IsConstant.mono {p q : SymbolPool} {tag : String} {value : Word} (hpq : p.names <+: q.names)
    (h : IsConstant p tag value) : IsConstant q tag value := by
  rcases h with h | ⟨name, i, ht, hi, hv⟩
  · exact .inl h
  · exact .inr ⟨name, i, ht, SymbolPool.idxOf?_mono hpq hi, hv⟩

/-- The constants have been put among the data, where they were not before. -/
structure AddsConstants (g : Generator) (new : List (String × Word)) (g' : Generator) : Prop where
  data : g'.data.toList = g.data.toList ++ dataListing new
  constants : g'.constants = (new.map Prod.fst).reverse ++ g.constants
  nodup : (new.map Prod.fst).Nodup
  disjoint : List.Disjoint (new.map Prod.fst) g.constants
  isConstant : ∀ p ∈ new, IsConstant g'.symbols p.1 p.2

theorem AddsConstants.mem_constants {g g' : Generator} {new : List (String × Word)} {tag : String}
    (h : AddsConstants g new g') : tag ∈ g'.constants ↔ (∃ p ∈ new, p.1 = tag) ∨ tag ∈ g.constants := by
  rw [h.constants, List.mem_append, List.mem_reverse, List.mem_map]

theorem AddsConstants.nil {g g' : Generator} (hdata : g'.data = g.data)
    (hconstants : g'.constants = g.constants) : AddsConstants g [] g' :=
  ⟨by simp [hdata, dataListing], hconstants, List.nodup_nil, List.disjoint_nil_left _, List.forall_mem_nil _⟩

theorem AddsConstants.append {g₁ g₂ g₃ : Generator} {a b : List (String × Word)}
    (ha : AddsConstants g₁ a g₂) (hb : AddsConstants g₂ b g₃)
    (hsymbols : g₂.symbols.names <+: g₃.symbols.names) : AddsConstants g₁ (a ++ b) g₃ := by
  obtain ⟨hbefore, hold⟩ : List.Disjoint (b.map Prod.fst) (a.map Prod.fst) ∧
      List.Disjoint (b.map Prod.fst) g₁.constants := by
    have hdisjoint := hb.disjoint
    rw [ha.constants, List.disjoint_append_right, List.disjoint_reverse_right] at hdisjoint
    exact hdisjoint
  refine ⟨?_, ?_, ?_, ?_, List.forall_mem_append.mpr
    ⟨fun p hp => (ha.isConstant p hp).mono hsymbols, hb.isConstant⟩⟩
  · rw [hb.data, ha.data, List.append_assoc, dataListing_append]
  · rw [hb.constants, ha.constants, List.map_append, List.reverse_append, List.append_assoc]
  · rw [List.map_append]
    exact ha.nodup.append hb.nodup hbefore.symm
  · rw [List.map_append, List.disjoint_append_left]
    exact ⟨ha.disjoint, hold⟩

/-! ## Signatures -/

/-- What is declared at the top level. -/
structure Signature where
  globals : List String
  /-- The functions with the number of their parameters. -/
  functions : List (String × Nat)

def signature (g : Generator) : Signature := ⟨g.globals, g.functions⟩

/-- What is asked of an expression apart from its parts. -/
def Heeds (s : Signature) (frame : Frame) : Expr → Prop
  | .reference name _ | .declare name _ | .assign name _ _ =>
    (frame.slot? name).isSome ∨ name ∈ s.globals
  | .apply name arguments => s.functions.lookup name = some arguments.length
  | _ => True

theorem heeds_rowSites_iff {s : Signature} {frame : Frame} (slot : Nat) {es : List Expr} :
    (∀ site ∈ Expr.rowSites slot es, Heeds s frame site.2) ↔
      ∀ part ∈ Expr.rowParts es, Heeds s frame part := by
  rw [← Expr.map_snd_rowSites slot, List.forall_mem_map]

/-! ## Evolution -/

/-- The generator has gone from `g` to `g'` without a declaration, and has lost nothing. -/
structure Evolves (g g' : Generator) : Prop where
  signature : g'.signature = g.signature
  code : g.code.toList <+: g'.code.toList
  nextTag : g.nextTag ≤ g'.nextTag
  symbols : g.symbols.names <+: g'.symbols.names
  data : ∃ new, AddsConstants g new g'

theorem Evolves.refl (g : Generator) : Evolves g g :=
  ⟨rfl, List.prefix_refl _, le_refl _, List.prefix_refl _, [], .nil rfl rfl⟩

theorem Evolves.trans {g₁ g₂ g₃ : Generator} (h : Evolves g₁ g₂) (h' : Evolves g₂ g₃) : Evolves g₁ g₃ := by
  obtain ⟨a, ha⟩ := h.data
  obtain ⟨b, hb⟩ := h'.data
  exact ⟨h'.signature.trans h.signature, h.code.trans h'.code, h.nextTag.trans h'.nextTag,
    h.symbols.trans h'.symbols, a ++ b, ha.append hb h'.symbols⟩

theorem Evolves.globals {g g' : Generator} (h : Evolves g g') : g'.globals = g.globals :=
  congrArg Signature.globals h.signature

theorem Evolves.functions {g g' : Generator} (h : Evolves g g') : g'.functions = g.functions :=
  congrArg Signature.functions h.signature

theorem evolves_push (g : Generator) (r : Record) : Evolves g { g with code := g.code.push r } :=
  ⟨rfl, by simp, le_refl _, List.prefix_refl _, [], .nil rfl rfl⟩

/-- The generator with a constant among its data. -/
def withConstant (g : Generator) (tag : String) (value : Word) : Generator :=
  if g.constants.contains tag then g
  else { g with
    constants := tag :: g.constants, data := (g.data.push (.tag tag)).push (.data value) }

theorem useConstant_eq (tag : String) (value : Word) (g : Generator) :
    useConstant tag value g = .ok () (g.withConstant tag value) := by
  unfold withConstant
  show (if g.constants.contains tag then pure () else _ : Action Unit) g = _
  split <;> rfl

@[simp] theorem code_withConstant (g : Generator) (tag : String) (value : Word) :
    (g.withConstant tag value).code = g.code := by
  unfold withConstant
  split <;> rfl

@[simp] theorem nextTag_withConstant (g : Generator) (tag : String) (value : Word) :
    (g.withConstant tag value).nextTag = g.nextTag := by
  unfold withConstant
  split <;> rfl

@[simp] theorem symbols_withConstant (g : Generator) (tag : String) (value : Word) :
    (g.withConstant tag value).symbols = g.symbols := by
  unfold withConstant
  split <;> rfl

theorem evolves_withConstant {g : Generator} {tag : String} {value : Word}
    (h : IsConstant g.symbols tag value) : Evolves g (g.withConstant tag value) := by
  unfold withConstant
  split
  · exact .refl g
  · next hnew =>
    refine ⟨rfl, List.prefix_refl _, le_refl _, List.prefix_refl _, [(tag, value)], ?_⟩
    refine ⟨by simp [dataListing], rfl, List.nodup_singleton tag, ?_, List.forall_mem_singleton.mpr h⟩
    simpa using hnew

theorem evolves_intern (g : Generator) (name : String) :
    Evolves g { g with symbols := (g.symbols.intern name).2 } :=
  ⟨rfl, List.prefix_refl _, le_refl _, g.symbols.prefix_intern name, [], .nil rfl rfl⟩

/-- The generator with a symbol in its pool, and with the number of the symbol among its data. -/
def withSymbol (g : Generator) (name : String) : Generator :=
  withConstant { g with symbols := (g.symbols.intern name).2 } (symbolTag name) (g.symbols.intern name).1.1

theorem evolves_withSymbol (g : Generator) (name : String) : Evolves g (g.withSymbol name) := by
  obtain ⟨i, hi, hvalue⟩ := g.symbols.idxOf?_intern name
  exact (evolves_intern g name).trans (evolves_withConstant (.inr ⟨name, i, rfl, hi, hvalue⟩))

/-! ## The account of an action -/

/-- The expression at the site was compiled on the way from `g` to `g'`. -/
def Passes (frame : Frame) (g g' : Generator) (site : Nat × Expr) : Prop :=
  ∃ h h', expression frame site.1 site.2 h = .ok () h' ∧ Evolves g h ∧ Evolves h' g'

/-- The generator has gone from `g` to `g'` and appended the operations. The symbols that are new are
those of expressions at the sites. -/
structure Writes (g : Generator) (ops : List Op) (sites : List (Nat × Expr)) (g' : Generator) : Prop where
  evolves : Evolves g g'
  code : g'.code.toList = g.code.toList ++ Op.listing ops
  numbered : ∀ op ∈ ops, op.Numbered g'.nextTag
  symbols : ∀ name ∈ g'.symbols.names, name ∈ g.symbols.names ∨ ∃ slot, (slot, .symbol name) ∈ sites

/-- All the operations have been appended, and what is at the sites has been compiled. -/
structure Completes (frame : Frame) (g : Generator) (ops : List Op) (forks : Nat) (sites : List (Nat × Expr))
    (g' : Generator) : Prop extends Writes g ops sites g' where
  nextTag : g'.nextTag = g.nextTag + forks
  passes : ∀ site ∈ sites, Passes frame g g' site

structure Compiles (s : Signature) (frame : Frame) (n : Nat) (x : Action α) (P : Prop) (ops : List Op)
    (forks : Nat) (sites : List (Nat × Expr)) : Prop where
  ok : ∀ {g a g'}, g.signature = s → g.nextTag = n → x g = .ok a g' →
    P ∧ Completes frame g ops forks sites g'
  error : ∀ {g e g'}, g.signature = s → g.nextTag = n → x g = .error e g' →
    ¬ P ∧ ∃ done, done <+: ops ∧ Writes g done sites g'

section
variable {a b : List Op} {l l' : List (Nat × Expr)} {g g₁ g₂ : Generator}

theorem Writes.refl (g : Generator) (l : List (Nat × Expr)) : Writes g [] l g :=
  ⟨.refl g, by simp, List.forall_mem_nil _, fun _ h => .inl h⟩

theorem Writes.mono (h : Writes g a l g₁) (hl : l ⊆ l') : Writes g a l' g₁ :=
  ⟨h.evolves, h.code, h.numbered, fun name hm =>
    (h.symbols name hm).imp_right fun ⟨slot, hs⟩ => ⟨slot, hl hs⟩⟩

theorem Writes.trans (h : Writes g a l g₁) (h' : Writes g₁ b l g₂) : Writes g (a ++ b) l g₂ := by
  refine ⟨h.evolves.trans h'.evolves, ?_, List.forall_mem_append.mpr ⟨fun op hop => ?_, h'.numbered⟩,
    fun name hm => ?_⟩
  · rw [h'.code, h.code, Op.listing_append, List.append_assoc]
  · exact (h.numbered op hop).mono h'.evolves.nextTag
  · rcases h'.symbols name hm with hm | hm
    · exact h.symbols name hm
    · exact .inr hm

end

namespace Compiles
variable {s : Signature} {frame : Frame} {n i j : Nat} {P Q : Prop} {a b : List Op}
  {l l' : List (Nat × Expr)}

theorem congr {x : Action α} (h : Compiles s frame n x P a i l) (hP : P ↔ Q) (hops : a = b)
    (hforks : i = j) (hsites : l = l') : Compiles s frame n x Q b j l' := by
  cases propext hP
  subst hops hforks hsites
  exact h

theorem bind {x : Action α} {f : α → Action β} (hx : Compiles s frame n x P a i l)
    (hf : ∀ r, Compiles s frame (n + i) (f r) Q b j l') :
    Compiles s frame n (x >>= f) (P ∧ Q) (a ++ b) (i + j) (l ++ l') := by
  have hleft : l ⊆ l ++ l' := List.subset_append_left ..
  have hright : l' ⊆ l ++ l' := List.subset_append_right ..
  constructor <;> intro g r g' hs hn h
  · obtain ⟨r₁, g₁, h₁, h₂⟩ := ok_of_bind h
    obtain ⟨hP, hc₁⟩ := hx.ok hs hn h₁
    obtain ⟨hQ, hc₂⟩ := (hf r₁).ok (hc₁.evolves.signature.trans hs) (hn ▸ hc₁.nextTag) h₂
    refine ⟨⟨hP, hQ⟩, (hc₁.mono hleft).trans (hc₂.mono hright), ?_, fun site hsite => ?_⟩
    · rw [hc₂.nextTag, hc₁.nextTag, Nat.add_assoc]
    · rcases List.mem_append.mp hsite with hsite | hsite
      · obtain ⟨k, k', hk, hpre, hpost⟩ := hc₁.passes site hsite
        exact ⟨k, k', hk, hpre, hpost.trans hc₂.evolves⟩
      · obtain ⟨k, k', hk, hpre, hpost⟩ := hc₂.passes site hsite
        exact ⟨k, k', hk, hc₁.evolves.trans hpre, hpost⟩
  · rcases error_of_bind h with h₁ | ⟨r₁, g₁, h₁, h₂⟩
    · obtain ⟨hP, done, hdone, hw⟩ := hx.error hs hn h₁
      exact ⟨fun hPQ => hP hPQ.1, done, hdone.trans (List.prefix_append _ _), hw.mono hleft⟩
    · obtain ⟨-, hc₁⟩ := hx.ok hs hn h₁
      obtain ⟨hQ, done, hdone, hw⟩ :=
        (hf r₁).error (hc₁.evolves.signature.trans hs) (hn ▸ hc₁.nextTag) h₂
      exact ⟨fun hPQ => hQ hPQ.2, a ++ done, (List.prefix_append_right_inj a).mpr hdone,
        (hc₁.mono hleft).trans (hw.mono hright)⟩

/-- What follows may look at the generator. -/
theorem get_bind {f : Generator → Action β}
    (hf : ∀ g, g.signature = s → Compiles s frame n (f g) P a i l) :
    Compiles s frame n (get >>= f) P a i l :=
  ⟨fun {g _ _} hs hn h => (hf g hs).ok hs hn h, fun {g _ _} hs hn h => (hf g hs).error hs hn h⟩

/-- An expression that is compiled is itself a site. -/
theorem here {slot : Nat} {e : Expr} (h : Compiles s frame n (expression frame slot e) P a i l) :
    Compiles s frame n (expression frame slot e) P a i ((slot, e) :: l) := by
  have hsub : l ⊆ (slot, e) :: l := List.subset_cons_self ..
  constructor <;> intro g r g' hs hn hx
  · obtain ⟨hP, hc⟩ := h.ok hs hn hx
    refine ⟨hP, hc.mono hsub, hc.nextTag, List.forall_mem_cons.mpr ⟨?_, hc.passes⟩⟩
    exact ⟨g, g', hx, .refl g, .refl g'⟩
  · obtain ⟨hP, done, hdone, hw⟩ := h.error hs hn hx
    exact ⟨hP, done, hdone, hw.mono hsub⟩

/-- An action that never fails. -/
theorem always {x : Action α} (value : Generator → α) (next : Generator → Generator)
    (h : ∀ g, x g = .ok (value g) (next g))
    (hnext : ∀ g, g.nextTag = n → Completes frame g a i l (next g)) : Compiles s frame n x True a i l := by
  constructor <;> intro g r g' hs hn hx <;> rw [h g] at hx <;> cases hx
  exact ⟨trivial, hnext g hn⟩

theorem throw (e : SourceError) : Compiles s frame n (throw e : Action α) False a i l := by
  constructor <;> intro g r g' hs hn hx <;> cases hx
  exact ⟨not_false, [], List.nil_prefix, .refl g l⟩

end Compiles

/-! ## Actions -/

section
variable {s : Signature} {frame : Frame} {n i : Nat} {P : Prop} {ops : List Op} {l : List (Nat × Expr)}

theorem compiles_pure (r : α) : Compiles s frame n (pure r) True [] 0 [] :=
  .always (fun _ => r) id (fun _ => rfl) fun g _ => ⟨.refl g [], rfl, List.forall_mem_nil _⟩

theorem compiles_record (op : Op) (h : op.Numbered n) :
    Compiles s frame n (emitRecord op.record) True [op] 0 [] := by
  refine .always (fun _ => ()) (fun g => { g with code := g.code.push op.record }) (fun _ => rfl)
    fun g hn => ⟨⟨evolves_push g _, by simp, ?_, fun _ hm => .inl hm⟩, rfl, List.forall_mem_nil _⟩
  rw [List.forall_mem_singleton]
  exact hn ▸ h

/-- The number that an action takes for its tags is the next one. -/
theorem compiles_freshTag_bind {f : Nat → Action β} (h : Compiles s frame (n + 1) (f n) P ops i l) :
    Compiles s frame n (freshTag >>= f) P ops (1 + i) l := by
  have hfresh : Compiles s frame n freshTag True [] 1 [] :=
    .always (fun g => g.nextTag) (fun g => { g with nextTag := g.nextTag + 1 }) (fun _ => rfl) fun g hn =>
      ⟨⟨⟨rfl, List.prefix_refl _, Nat.le_succ _, List.prefix_refl _, [], .nil rfl rfl⟩, by simp,
        List.forall_mem_nil _, fun _ hm => .inl hm⟩, rfl, List.forall_mem_nil _⟩
  -- Behind the action the number is known, so what follows need only be known with that number.
  have hbind : Compiles s frame n (freshTag >>= fun _ => f n) P ops (1 + i) l :=
    (hfresh.bind fun _ => h).congr (by simp) rfl rfl rfl
  constructor <;> intro g r g' hs hn hx <;> subst hn
  · exact hbind.ok hs rfl hx
  · exact hbind.error hs rfl hx

theorem accessVariable_eq {make : Register → Base → Bool → Opcode} {name : String} {indirect : Bool}
    {g : Generator} (h : (frame.slot? name).isSome ∨ name ∈ g.globals) :
    accessVariable make frame name indirect g =
      .ok ((frame.operand name).instruction make indirect) g := by
  unfold accessVariable Frame.operand
  cases hslot : frame.slot? name with
  | some slot => rfl
  | none =>
    have hglobal : g.globals.contains name := by simpa [hslot] using h
    show (if g.globals.contains name then _ else _ : Action Instruction) g = _
    rw [if_pos hglobal]
    rfl

theorem accessVariable_error {make : Register → Base → Bool → Opcode} {name : String} {indirect : Bool}
    {g : Generator} (h : ¬ ((frame.slot? name).isSome ∨ name ∈ g.globals)) :
    accessVariable make frame name indirect g = .error (.undeclared name) g := by
  obtain ⟨hslot, hglobal⟩ := not_or.mp h
  have hslot : frame.slot? name = none := by simpa using hslot
  unfold accessVariable
  simp only [hslot]
  show (if g.globals.contains name then _ else _ : Action Instruction) g = _
  rw [if_neg (by simpa using hglobal)]
  rfl

theorem compiles_access {make : Register → Base → Bool → Opcode} {name : String} {indirect : Bool}
    (op : Op) (hop : op.record = .instruction ((frame.operand name).instruction make indirect))
    (hnumbered : op.Numbered n) :
    Compiles s frame n (accessVariable make frame name indirect >>= emit)
      ((frame.slot? name).isSome ∨ name ∈ s.globals) [op] 0 [] := by
  have hrecord : Compiles s frame n (emitRecord op.record) True [op] 0 [] := compiles_record op hnumbered
  have hcases (g : Generator) (hs : g.signature = s) :
      ((frame.slot? name).isSome ∨ name ∈ s.globals) ∧
        (accessVariable make frame name indirect >>= emit) g = emitRecord op.record g ∨
      ¬ ((frame.slot? name).isSome ∨ name ∈ s.globals) ∧
        (accessVariable make frame name indirect >>= emit) g = .error (.undeclared name) g := by
    have hglobals : s.globals = g.globals := (congrArg Signature.globals hs).symm
    rw [hglobals]
    by_cases h : (frame.slot? name).isSome ∨ name ∈ g.globals
    · exact .inl ⟨h, by rw [bind_of_ok (accessVariable_eq h), hop]; rfl⟩
    · exact .inr ⟨h, bind_of_error (accessVariable_error h)⟩
  constructor <;> intro g r g' hs hn hx <;> rcases hcases g hs with ⟨h, heq⟩ | ⟨h, heq⟩ <;>
    rw [heq] at hx
  · exact ⟨h, (hrecord.ok hs hn hx).2⟩
  · cases hx
  · cases hx
  · cases hx
    exact ⟨h, [], List.nil_prefix, .refl g []⟩

theorem passArguments_succ (frame : Frame) (slot count : Nat) :
    passArguments frame slot (count + 1) = (do
      passArguments frame slot count
      emit (loadSlot (slot + count))
      emit (storeSlot (frame.argumentSlot count))) := by
  unfold passArguments
  rw [List.range_succ, List.forM_eq_forM, List.forM_append]
  simp

theorem compiles_passArguments (slot count : Nat) :
    Compiles s frame n (passArguments frame slot count) True (passCode slot (frame.size + 1) count) 0 [] := by
  induction count with
  | zero => exact compiles_pure ()
  | succ count ih =>
    rw [passArguments_succ]
    exact (ih.bind fun _ => (compiles_record (.load (.slot (slot + count)) false) trivial).bind fun _ =>
      compiles_record (.store (.slot (frame.size + 1 + count)) false) trivial).congr (by simp) rfl rfl rfl

end

/-! ## Expressions -/

section
variable (s : Signature) (frame : Frame)

theorem expression_literal (slot : Nat) (value : Word) (g : Generator) :
    expression frame slot (.literal value) g =
      emitRecord (Op.load (.cell (literalTag value)) false).record (g.withConstant (literalTag value) value) :=
  bind_of_ok (useConstant_eq _ _ _)

theorem expression_symbol (slot : Nat) (name : String) (g : Generator) :
    expression frame slot (.symbol name) g =
      emitRecord (Op.load (.cell (symbolTag name)) false).record (g.withSymbol name) :=
  (bind_of_ok rfl).trans (bind_of_ok (useConstant_eq _ _ _))

theorem compiles_literal (slot n : Nat) (value : Word) :
    Compiles s frame n (expression frame slot (.literal value)) True
      [.load (.cell (literalTag value)) false] 0 [] := by
  refine .always (fun _ => ()) _ (expression_literal frame slot value) fun g _ => ?_
  refine ⟨⟨(evolves_withConstant (.inl rfl)).trans (evolves_push _ _), by simp,
    List.forall_mem_singleton.mpr trivial, fun name hm => .inl (by simpa using hm)⟩, by simp,
    List.forall_mem_nil _⟩

theorem compiles_symbol (slot n : Nat) (name : String) :
    Compiles s frame n (expression frame slot (.symbol name)) True
      [.load (.cell (symbolTag name)) false] 0 [(slot, .symbol name)] := by
  refine .always (fun _ => ()) _ (expression_symbol frame slot name) fun g _ => ?_
  have hpasses : Passes frame g _ (slot, .symbol name) :=
    ⟨g, _, expression_symbol frame slot name g, .refl g, .refl _⟩
  refine ⟨⟨(evolves_withSymbol g name).trans (evolves_push _ _), by simp [withSymbol],
    List.forall_mem_singleton.mpr trivial, fun name' hm => ?_⟩, by simp [withSymbol],
    List.forall_mem_singleton.mpr hpasses⟩
  rcases SymbolPool.mem_names_intern (by simpa [withSymbol] using hm) with hm | rfl
  · exact .inl hm
  · exact .inr ⟨slot, List.mem_singleton_self _⟩

mutual

theorem compiles_expression (slot n : Nat) : ∀ e : Expr,
    Compiles s frame n (expression frame slot e) (∀ site ∈ e.sites slot, Heeds s frame site.2)
      (e.code frame slot n) e.forks (e.sites slot)
  | .literal value => (compiles_literal s frame slot n value).here.congr (by simp [Expr.sites, Heeds]) rfl rfl rfl
  | .symbol name => (compiles_symbol s frame slot n name).congr (by simp [Expr.sites, Heeds]) rfl rfl rfl
  | .reference name indirect =>
    (Compiles.here (compiles_access (.load (frame.operand name) indirect) rfl trivial)).congr
      (by simp [Expr.sites, Heeds]) rfl rfl rfl
  | .declare name value =>
    (Compiles.here ((compiles_expression slot n value).bind fun _ =>
      compiles_access (.store (frame.operand name) false) rfl trivial)).congr
      (by simp [Expr.sites, Heeds, and_comm]) rfl rfl (by simp [Expr.sites])
  | .assign name indirect value =>
    (Compiles.here ((compiles_expression slot n value).bind fun _ =>
      compiles_access (.store (frame.operand name) indirect) rfl trivial)).congr
      (by simp [Expr.sites, Heeds, and_comm]) rfl rfl (by simp [Expr.sites])
  | .cond test yes no => by
    refine (Compiles.here <| compiles_freshTag_bind <| (compiles_expression slot (n + 1) test).bind fun _ =>
      (compiles_record (.branch (thenTag n)) trivial).bind fun _ =>
      (compiles_block slot (n + 1 + test.forks) no).bind fun _ =>
      (compiles_record (.jump (endTag n)) trivial).bind fun _ =>
      (compiles_record (.tag (thenTag n)) ⟨n, by omega, by simp [numberedTags]⟩).bind fun _ =>
      (compiles_block slot (n + 1 + test.forks + Expr.rowForks no) yes).bind fun _ =>
      compiles_record (.tag (endTag n)) ⟨n, by omega, by simp [numberedTags]⟩).congr ?_ rfl ?_ ?_
    · simp [Expr.sites, Heeds, or_imp, forall_and]
    · simp only [Expr.forks]
      omega
    · simp [Expr.sites]
  | .loop test body => by
    refine (Compiles.here <| compiles_freshTag_bind <|
      (compiles_record (.tag (topTag n)) ⟨n, Nat.lt_succ_self n, by simp [numberedTags]⟩).bind fun _ =>
      (compiles_expression slot (n + 1) test).bind fun _ =>
      (compiles_record (.branch (bodyTag n)) trivial).bind fun _ =>
      (compiles_record (.jump (exitTag n)) trivial).bind fun _ =>
      (compiles_record (.tag (bodyTag n)) ⟨n, by omega, by simp [numberedTags]⟩).bind fun _ =>
      (compiles_block slot (n + 1 + test.forks) body).bind fun _ =>
      (compiles_record (.jump (topTag n)) trivial).bind fun _ =>
      compiles_record (.tag (exitTag n)) ⟨n, by omega, by simp [numberedTags]⟩).congr ?_ rfl ?_ ?_
    · simp [Expr.sites, Heeds, or_imp, forall_and]
    · simp only [Expr.forks]
      omega
    · simp [Expr.sites]
  | .unary operator operand =>
    (Compiles.here ((compiles_expression slot n operand).bind fun _ =>
      compiles_record (.unary operator) trivial)).congr (by simp [Expr.sites, Heeds]) rfl rfl
      (by simp [Expr.sites])
  | .binary operator left right => by
    refine (Compiles.here <| (compiles_expression slot n left).bind fun _ =>
      (compiles_record (.store (.slot slot) false) trivial).bind fun _ =>
      (compiles_expression (slot + 1) (n + left.forks) right).bind fun _ =>
      (compiles_record .swap trivial).bind fun _ =>
      (compiles_record (.load (.slot slot) false) trivial).bind fun _ =>
      compiles_record (.binary operator) trivial).congr ?_ rfl ?_ ?_
    · simp [Expr.sites, Heeds, or_imp, forall_and]
    · simp only [Expr.forks]
      omega
    · simp [Expr.sites]
  | .apply name args => by
    refine .here (.get_bind fun g hs => ?_)
    have hfunctions : g.functions = s.functions := congrArg Signature.functions hs
    have hsites : (∀ site ∈ (Expr.apply name args).sites slot, Heeds s frame site.2) ↔
        s.functions.lookup name = some args.length ∧
          ∀ site ∈ Expr.argumentSites slot args, Heeds s frame site.2 := by
      simp [Expr.sites, Heeds]
    rw [hsites, hfunctions]
    cases s.functions.lookup name with
    | none => exact (Compiles.throw _).congr (by simp) rfl rfl rfl
    | some arity =>
      by_cases harity : arity = args.length
      · simp only [harity, ne_eq, not_true_eq_false, if_false]
        exact ((compiles_arguments slot n args).bind fun _ =>
          (compiles_passArguments slot args.length).bind fun _ =>
          (compiles_record (.call name) trivial).bind fun _ =>
          compiles_record (.load (.slot frame.returnSlot) false) trivial).congr (by simp) rfl rfl (by simp)
      · simp only [ne_eq, harity, not_false_eq_true, if_true]
        exact (Compiles.throw _).congr (by simp [harity]) rfl rfl rfl

theorem compiles_block (slot n : Nat) : ∀ es : List Expr,
    Compiles s frame n (block frame slot es) (∀ site ∈ Expr.rowSites slot es, Heeds s frame site.2)
      (Expr.rowCode frame slot n es) (Expr.rowForks es) (Expr.rowSites slot es)
  | [] => (compiles_pure ()).congr (by simp [Expr.rowSites]) rfl rfl rfl
  | e :: es => ((compiles_expression slot n e).bind fun _ => compiles_block slot (n + e.forks) es).congr
      (by simp [Expr.rowSites, or_imp, forall_and]) rfl rfl rfl

theorem compiles_arguments (slot n : Nat) : ∀ es : List Expr,
    Compiles s frame n (arguments frame slot es) (∀ site ∈ Expr.argumentSites slot es, Heeds s frame site.2)
      (Expr.argumentCode frame slot n es) (Expr.rowForks es) (Expr.argumentSites slot es)
  | [] => (compiles_pure ()).congr (by simp [Expr.argumentSites]) rfl rfl rfl
  | e :: es => by
    refine ((compiles_expression slot n e).bind fun _ =>
      (compiles_record (.store (.slot slot) false) trivial).bind fun _ =>
      compiles_arguments (slot + 1) (n + e.forks) es).congr ?_ rfl ?_ rfl
    · simp [Expr.argumentSites, or_imp, forall_and]
    · simp only [Expr.rowForks]
      omega

end

end

/-! ## Functions -/

/-- The generator behind the size of a frame and the tag of a function. -/
def opened (g : Generator) (f : Function) (frame : Frame) : Generator :=
  { g with code := (g.code.push (.data (Int32.ofNat frame.size))).push (.tag f.name) }

/-- The generator behind the end of a function. -/
def closed (g : Generator) : Generator :=
  { g with code := (g.code.push Op.yield.record).push Op.ret.record }

theorem evolves_opened (g : Generator) (f : Function) (frame : Frame) : Evolves g (g.opened f frame) :=
  (evolves_push g _).trans (evolves_push _ _)

theorem evolves_closed (g : Generator) : Evolves g g.closed := (evolves_push g _).trans (evolves_push _ _)

/-- What compiling a function can do. -/
inductive Building (g : Generator) (f : Function) : EStateM.Result SourceError Generator Unit → Prop where
  | unframed {e : SourceError} : Frame.allocate f = .error e → Building g f (.error e g)
  | broken {frame : Frame} {done : List Op} {e : SourceError} {g' : Generator} :
    Frame.allocate f = .ok frame → ¬ (∀ part ∈ Expr.rowParts f.body, Heeds g.signature frame part) →
    done <+: Expr.rowCode frame frame.tempStart g.nextTag f.body →
    Writes (g.opened f frame) done (Expr.rowSites frame.tempStart f.body) g' → Building g f (.error e g')
  | built {frame : Frame} {g' : Generator} :
    Frame.allocate f = .ok frame → (∀ part ∈ Expr.rowParts f.body, Heeds g.signature frame part) →
    Completes frame (g.opened f frame) (Expr.rowCode frame frame.tempStart g.nextTag f.body)
      (Expr.rowForks f.body) (Expr.rowSites frame.tempStart f.body) g' → Building g f (.ok () g'.closed)

theorem building_function (g : Generator) (f : Function) : Building g f (function f g) := by
  unfold function
  cases hframe : Frame.allocate f with
  | error e => exact .unframed hframe
  | ok frame =>
    have hcompiles := compiles_block g.signature frame frame.tempStart g.nextTag f.body
    rw [heeds_rowSites_iff] at hcompiles
    show Building g f ((block frame frame.tempStart f.body >>= fun _ => _) (g.opened f frame))
    cases hblock : block frame frame.tempStart f.body (g.opened f frame) with
    | error e g' =>
      rw [bind_of_error hblock]
      obtain ⟨hflaw, done, hdone, hwrites⟩ := hcompiles.error (g := g.opened f frame) rfl rfl hblock
      exact .broken hframe hflaw hdone hwrites
    | ok _ g' =>
      rw [bind_of_ok hblock]
      obtain ⟨hheeds, hcompletes⟩ := hcompiles.ok (g := g.opened f frame) rfl rfl hblock
      exact .built hframe hheeds hcompletes

section
variable {f : Function} {frame : Frame} {g g' : Generator}

theorem completes_function (hframe : Frame.allocate f = .ok frame) (h : function f g = .ok () g') :
    ∃ g₁, g' = g₁.closed ∧ (∀ part ∈ Expr.rowParts f.body, Heeds g.signature frame part) ∧
      Completes frame (g.opened f frame) (Expr.rowCode frame frame.tempStart g.nextTag f.body)
        (Expr.rowForks f.body) (Expr.rowSites frame.tempStart f.body) g₁ := by
  have hbuilding := building_function g f
  rw [h] at hbuilding
  cases hbuilding with
  | built hframe' hheeds hcompletes =>
    cases hframe.symm.trans hframe'
    exact ⟨_, rfl, hheeds, hcompletes⟩

/-- A function is compiled into the size of its frame, its tag and its code. -/
theorem code_function (hframe : Frame.allocate f = .ok frame) (h : function f g = .ok () g') :
    g'.code.toList = g.code.toList ++ .data (Int32.ofNat frame.size) ::
      Op.listing (.tag f.name :: f.code frame g.nextTag) := by
  obtain ⟨g₁, rfl, -, hc⟩ := completes_function hframe h
  have hcode := hc.code
  simp only [opened, Array.toList_push] at hcode
  simp [closed, Function.code, hcode]
  rfl

/-- Between `g` and `g'`, the expression has been compiled at the slot. -/
def Visited (frame : Frame) (g g' : Generator) (slot : Nat) (e : Expr) : Prop :=
  ∃ h h', expression frame slot e h = .ok () h' ∧ h.functions = g.functions ∧
    g.code.toList <+: h.code.toList ∧ h'.code.toList <+: g'.code.toList

theorem visited_function (hframe : Frame.allocate f = .ok frame) (h : function f g = .ok () g')
    {slot : Nat} {e : Expr} (hsite : (slot, e) ∈ Expr.rowSites frame.tempStart f.body) :
    Visited frame g g' slot e := by
  obtain ⟨g₁, rfl, -, hc⟩ := completes_function hframe h
  obtain ⟨k, k', hk, hpre, hpost⟩ := hc.passes _ hsite
  have hbefore := (evolves_opened g f frame).trans hpre
  exact ⟨k, k', hk, hbefore.functions, hbefore.code, (hpost.trans (evolves_closed g₁)).code⟩

end

end Generator

end WordLisp

import WordLisp.Proofs.Code.Tags
import WordLisp.Proofs.Reload.Assembly

/-!
# Compiled programs assemble

`l.Coherent` says that the tags of the listing `l` are all different, that every tag that an instruction
refers to is defined, and that no instruction has an argument that its opcode does not take. Then only
an offset that is too large can keep the listing from being assembled.

Main statement: the listings of source texts are coherent, with and without their redundant loads. Once
assembled they have the size of its frame in front of each function, and a call of the entry function
and a jump that halts the machine at the start.
-/

namespace WordLisp

open Listing

/-! ## Coherent listings -/

namespace Listing

structure Coherent (l : Listing) : Prop where
  nodup : (tagNames l).Nodup
  shaped : ∀ i, .instruction i ∈ l → i.WellShaped
  targets : ∀ opcode name, .instruction (.addressed opcode (.tag name)) ∈ l → name ∈ tagNames l

theorem Coherent.assembles {l : Listing} (h : l.Coherent) :
    (∃ words, l.assemble = .ok words) ∨
      ∃ i offset, l.assemble = .error (.offsetOutOfRange i offset) := by
  have hassemble : l.assemble = encodeWith (offsets 0 l) l := by
    unfold assemble
    rw [tags_eq_ok_iff.mpr ⟨h.nodup, rfl⟩]
    rfl
  rw [hassemble]
  cases he : encodeWith (offsets 0 l) l with
  | ok words => exact .inl ⟨words, rfl⟩
  | error e =>
    obtain ⟨before, i, after, hl, hflaw, -⟩ := encodeWith_eq_error_iff.mp he
    have hi : .instruction i ∈ l := hl ▸ List.mem_append_right _ (List.mem_cons_self ..)
    cases hflaw with
    | undefinedTag hnone =>
      have hm := h.targets _ _ hi
      rw [← map_fst_offsets 0, ← lookup_isSome_iff, hnone] at hm
      cases hm
    | unsupported hrep hs =>
      -- A tag and its offset have the same shape.
      refine absurd ?_ hs
      have hshaped := h.shaped _ hi
      cases hrep <;> exact hshaped
    | offsetOutOfRange _ _ _ _ => exact .inr ⟨_, _, rfl⟩

theorem Coherent.dropReloads {l : Listing} (h : l.Coherent) : l.dropReloads.Coherent := by
  have hsub := dropReloads_sublist l
  have htags := tagNames_dropReloads l
  refine ⟨htags ▸ h.nodup, fun i hi => h.shaped i (hsub.subset hi), fun opcode name hi => ?_⟩
  rw [htags]
  exact h.targets opcode name (hsub.subset hi)

end Listing

/-! ## Operations -/

/-- The tag that the operation refers to, if it refers to one, is defined. -/
def Op.Finds (defined : List String) : Op → Prop
  | .load (.cell name) _ | .store (.cell name) _ | .branch name | .jump name | .call name =>
    name ∈ defined
  | _ => True

theorem Op.Finds.target_mem {defined : List String} {op : Op} {opcode : Opcode} {name : String}
    (h : op.Finds defined) (hr : op.record = .instruction (.addressed opcode (.tag name))) :
    name ∈ defined := by
  cases op with
  | load x indirect | store x indirect => cases x <;> cases hr; exact h
  | branch _ | jump _ | call _ => cases hr; exact h
  | tag _ | yield | unary _ | binary _ | swap | stop | ret => cases hr

theorem Op.wellShaped {op : Op} {i : Instruction} (h : op.record = .instruction i) : i.WellShaped := by
  cases op with
  | load x indirect | store x indirect => cases x <;> cases h <;> rfl
  | tag _ => cases h
  | branch _ | jump _ | call _ | yield | unary _ | binary _ | swap | stop | ret => cases h; rfl

/-- Everything that code can refer to outside of itself has a tag. -/
structure Resources.Tagged (env : Resources) (defined : List String) : Prop where
  globals : ∀ name ∈ env.globals, name ∈ defined
  constants : ∀ tag value, (tag, value) ∈ env.constants → tag ∈ defined
  functions : ∀ name arity, env.functions.lookup name = some arity → name ∈ defined

section
variable {env : Resources} {frame : Frame} {defined : List String}

theorem Resources.Tagged.operand (htagged : env.Tagged defined) {name : String}
    (h : env.Names frame name) (indirect : Bool) :
    (Op.load (frame.operand name) indirect).Finds defined ∧
      (Op.store (frame.operand name) indirect).Finds defined := by
  unfold Frame.operand
  cases hs : frame.slot? name with
  | some n => exact ⟨trivial, trivial⟩
  | none =>
    have hname := htagged.globals name (h.resolve_left (by simp [hs]))
    exact ⟨hname, hname⟩

theorem finds_passCode (source target count : Nat) :
    ∀ op ∈ passCode source target count, op.Finds defined := by
  intro op hop
  obtain ⟨i, -, rfl | rfl⟩ := mem_passCode hop <;> trivial

mutual

/-- If the tags in the code of an expression are defined, so are those that it refers to. -/
theorem Expr.finds_code (htagged : env.Tagged defined) {slot n : Nat} :
    ∀ {e : Expr}, e.Resolves env frame →
    (∀ name, .tag name ∈ e.code frame slot n → name ∈ defined) →
    ∀ op ∈ e.code frame slot n, op.Finds defined
  | .literal value, hres, _ => by
    simp only [Expr.code, List.forall_mem_singleton]
    exact htagged.constants _ _ hres
  | .symbol name, ⟨_, _, hres⟩, _ => by
    simp only [Expr.code, List.forall_mem_singleton]
    exact htagged.constants _ _ hres
  | .reference name indirect, hres, _ => by
    simp only [Expr.code, List.forall_mem_singleton]
    exact (htagged.operand hres indirect).1
  | .declare name value, ⟨hvalue, hname⟩, htags
  | .assign name indirect value, ⟨hvalue, hname⟩, htags => by
    simp only [Expr.code, List.mem_append, or_imp, forall_and] at htags
    simp only [Expr.code, List.forall_mem_append, List.forall_mem_singleton]
    exact ⟨Expr.finds_code htagged hvalue htags.1, (htagged.operand hname _).2⟩
  | .cond test yes no, ⟨htest, hno, hyes⟩, htags => by
    simp only [Expr.code, List.mem_append, List.mem_cons, or_imp, forall_and] at htags
    obtain ⟨htags₁, -, htags₂, -, hthen, htags₃, hend, -⟩ := htags
    simp only [Expr.code, List.forall_mem_append, List.forall_mem_cons]
    exact ⟨Expr.finds_code htagged htest htags₁, hthen _ rfl, Expr.finds_rowCode htagged hno htags₂,
      hend _ rfl, trivial, Expr.finds_rowCode htagged hyes htags₃, trivial, List.forall_mem_nil _⟩
  | .loop test body, ⟨htest, hbody⟩, htags => by
    simp only [Expr.code, List.mem_append, List.mem_cons, or_imp, forall_and] at htags
    obtain ⟨htop, htags₁, -, -, hbodyTag, htags₂, -, hexit, -⟩ := htags
    simp only [Expr.code, List.forall_mem_append, List.forall_mem_cons]
    exact ⟨trivial, Expr.finds_code htagged htest htags₁, hbodyTag _ rfl, hexit _ rfl, trivial,
      Expr.finds_rowCode htagged hbody htags₂, htop _ rfl, trivial, List.forall_mem_nil _⟩
  | .unary operator operand, hoperand, htags => by
    simp only [Expr.code, List.mem_append, or_imp, forall_and] at htags
    simp only [Expr.code, List.forall_mem_append, List.forall_mem_singleton]
    exact ⟨Expr.finds_code htagged hoperand htags.1, trivial⟩
  | .binary operator left right, ⟨hleft, hright⟩, htags => by
    simp only [Expr.code, List.mem_append, List.mem_cons, or_imp, forall_and] at htags
    simp only [Expr.code, List.forall_mem_append, List.forall_mem_cons]
    exact ⟨Expr.finds_code htagged hleft htags.1, trivial,
      Expr.finds_code htagged hright htags.2.2.1, trivial, trivial, trivial, List.forall_mem_nil _⟩
  | .apply name arguments, ⟨hname, harguments⟩, htags => by
    simp only [Expr.code, List.mem_append, or_imp, forall_and] at htags
    simp only [Expr.code, List.forall_mem_append, List.forall_mem_cons]
    exact ⟨Expr.finds_argumentCode htagged harguments htags.1, finds_passCode _ _ _,
      htagged.functions _ _ hname, trivial, List.forall_mem_nil _⟩

theorem Expr.finds_rowCode (htagged : env.Tagged defined) {slot n : Nat} :
    ∀ {es : List Expr}, Expr.RowResolves env frame es →
    (∀ name, .tag name ∈ Expr.rowCode frame slot n es → name ∈ defined) →
    ∀ op ∈ Expr.rowCode frame slot n es, op.Finds defined
  | [], _, _ => by simp [Expr.rowCode]
  | e :: es, ⟨he, hes⟩, htags => by
    simp only [Expr.rowCode, List.mem_append, or_imp, forall_and] at htags
    simp only [Expr.rowCode, List.forall_mem_append]
    exact ⟨Expr.finds_code htagged he htags.1, Expr.finds_rowCode htagged hes htags.2⟩

theorem Expr.finds_argumentCode (htagged : env.Tagged defined) {slot n : Nat} :
    ∀ {es : List Expr}, Expr.RowResolves env frame es →
    (∀ name, .tag name ∈ Expr.argumentCode frame slot n es → name ∈ defined) →
    ∀ op ∈ Expr.argumentCode frame slot n es, op.Finds defined
  | [], _, _ => by simp [Expr.argumentCode]
  | e :: es, ⟨he, hes⟩, htags => by
    simp only [Expr.argumentCode, List.mem_append, List.mem_cons, or_imp, forall_and] at htags
    simp only [Expr.argumentCode, List.forall_mem_append, List.forall_mem_cons]
    exact ⟨Expr.finds_code htagged he htags.1, trivial, Expr.finds_argumentCode htagged hes htags.2.2⟩

end

end

/-! ## Programs -/

section
variable {items : List Item} {pool : SymbolPool} {p : Program} {env : Resources}
  (hc : IsCompiled items pool p env)
include hc

theorem IsCompiled.tagged : env.Tagged (tagNames p.listing) := by
  have hdata {name : String} (h : name ∈ p.data.map Prod.fst) :
      name ∈ tagNames p.listing := by
    unfold Program.listing
    rw [tagNames_append, tagNames_append, tagNames_dataListing]
    exact List.mem_append_right _ (List.mem_append_right _ h)
  refine ⟨fun name h => hdata ?_, fun tag value h => hdata ?_, fun name arity h => ?_⟩
  · exact Program.Fits.mem_data_of_mem_globals ((hc.names name).mp h)
  · rw [hc.constants] at h
    exact List.mem_map_of_mem (List.mem_append_right _ h)
  · obtain ⟨f, -, r, hr, -, -, hn, -⟩ := hc.routine_of_lookup h
    obtain ⟨before, after, hl⟩ := Program.Fits.listing_of_mem hr hn
    rw [hl, mem_tagNames]
    simp

theorem IsCompiled.finds {r : Routine} (hr : p.Has r) :
    ∀ op ∈ r.code, op.Finds (tagNames p.listing) := by
  rcases hr with rfl | hr
  · have hentry : entryPoint ∈ tagNames p.listing := hc.tagged.functions _ _ hc.entry
    exact List.forall_mem_cons.mpr ⟨hentry, List.forall_mem_singleton.mpr trivial⟩
  · obtain ⟨f, -, n, -, hname, -, hcode, hres⟩ := hc.function_of_mem hr
    -- The tags that the code of a function jumps to are in that code.
    have htags : ∀ name, .tag name ∈ r.code → name ∈ tagNames p.listing := by
      intro name hm
      obtain ⟨before, after, hl⟩ := Program.Fits.listing_of_mem hr hname
      have hrecord : .tag name ∈ Op.listing r.code := List.mem_map_of_mem (f := Op.record) hm
      rw [hl, mem_tagNames]
      simp [hrecord]
    rw [hcode, Function.code] at htags ⊢
    simp only [List.mem_append, or_imp, forall_and] at htags
    simp only [List.forall_mem_append, List.forall_mem_cons]
    exact ⟨Expr.finds_rowCode hc.tagged hres htags.1, trivial, trivial, List.forall_mem_nil _⟩

theorem IsCompiled.coherent (hnodup : (tagNames p.listing).Nodup) : p.listing.Coherent := by
  refine ⟨hnodup, fun i hi => ?_, fun opcode name hi => ?_⟩
  · obtain ⟨r, -, op, -, hrecord⟩ := Program.exists_op_of_mem hi
    exact Op.wellShaped hrecord
  · obtain ⟨r, hr, op, hop, hrecord⟩ := Program.exists_op_of_mem hi
    exact (hc.finds hr op hop).target_mem hrecord

end

open Generator in
theorem nodup_of_compilePlain {source : String} {listing : Listing}
    (h : compilePlain source = .ok listing) : (tagNames listing).Nodup := by
  obtain ⟨⟨l, pool⟩, hcompile, hl⟩ := ok_of_bind_eq_ok h
  cases hl
  obtain ⟨items, g, hparse, hrun, -⟩ := program_of_compileWithSymbols hcompile
  have haccounts := (spends_program (Item.isName_names_of_parse hparse)).ok accounts_empty hrun
  rw [List.append_nil] at haccounts
  exact (List.nodup_append.mp haccounts.nodup).1

/-! ## Words -/

/-- What stands where in the words of a program. -/
structure LaidOut (items : List Item) (listing : Listing) (table : TagTable) (words : List Word) :
    Prop where
  /-- The size of its frame is in front of each function. -/
  sizes : ∀ f, .function f ∈ items → ∃ frame before after k, Frame.allocate f = .ok frame ∧
    listing = before ++ .tag f.name :: after ∧ before.countP Record.isWord = k + 1 ∧
    table.lookup f.name = some (Int32.ofNat (k + 1)) ∧ words[k]? = some (Int32.ofNat frame.size)
  call : ∃ w offset, words[0]? = some w ∧ table.lookup entryPoint = some offset ∧
    Instruction.decode? w = some (.addressed .call (.offset offset))
  halt : ∃ w, words[1]? = some w ∧ Instruction.decode? w = some (.addressed .jump (.offset (-1)))

/-- Every function has a routine, perhaps with other code. -/
def Program.Covers (p : Program) (items : List Item) : Prop :=
  ∀ f, .function f ∈ items →
    ∃ r ∈ p.routines, r.name = some f.name ∧ Frame.allocate f = .ok r.frame

theorem IsCompiled.covers {items : List Item} {pool : SymbolPool} {p : Program} {env : Resources}
    (hc : IsCompiled items pool p env) : p.Covers items := by
  intro f hf
  obtain ⟨r, hr, n, hframe, hname, -⟩ := hc.routine_of_mem (Item.mem_functions.mpr hf)
  exact ⟨r, hr, hname, hframe⟩

theorem Program.Covers.optimized {p : Program} {items : List Item} (h : p.Covers items) :
    p.optimized.Covers items := by
  intro f hf
  obtain ⟨r, hr, hrest⟩ := h f hf
  exact ⟨r.optimized, List.mem_map_of_mem hr, hrest⟩

theorem Listing.EncodesTo.decode? {table : TagTable} {i : Instruction} {w : Word}
    (h : EncodesTo table i w) : ∃ j, Replaces table i j ∧ Instruction.decode? w = some j := by
  obtain ⟨j, hj, hw⟩ := h
  exact ⟨j, resolve_eq_ok_iff.mp hj, Instruction.decode?_encode hw⟩

theorem Program.Covers.laidOut {p : Program} {items : List Item} {words : List Word}
    (hcovers : p.Covers items) (h : p.listing.assemble = .ok words) :
    LaidOut items p.listing (offsets 0 p.listing) words := by
  obtain ⟨-, hplaced, -⟩ := placed_of_assemble h
  obtain ⟨⟨w₀, he₀, hw₀⟩, ⟨w₁, he₁, hw₁⟩, -⟩ := (placed_append.mp hplaced).1
  refine ⟨fun f hf => ?_, ?_, ?_⟩
  · obtain ⟨r, hr, hname, hframe⟩ := hcovers f hf
    obtain ⟨before, after, hl⟩ := Program.listing_of_routine hr
    rw [Routine.listing_of_name hname] at hl
    rw [hl, placed_append, ← hl] at hplaced
    obtain ⟨-, hsize, htag, -⟩ := hplaced
    refine ⟨r.frame, before ++ [.data (Int32.ofNat r.frame.size)], Op.listing r.code ++ after,
      wordCount before, hframe, by simp [hl], ?_, ?_, ?_⟩
    · rw [← wordCount_eq_countP, wordCount_append]
      rfl
    · simpa using htag
    · simpa using hsize
  · obtain ⟨j, hj, hdecode⟩ := he₀.decode?
    cases hj with
    | tag hlookup => exact ⟨w₀, _, hw₀, hlookup, hdecode⟩
    | same hne => exact absurd rfl (hne _ _)
  · obtain ⟨j, hj, hdecode⟩ := he₁.decode?
    cases hj with
    | same _ => exact ⟨w₁, hw₁, hdecode⟩

/-- The listing of a source text is that of a program, with all its loads or without the redundant
ones. -/
theorem program_of_compiles {source : String} {listing : Listing}
    (h : compilePlain source = .ok listing ∨ compile source = .ok listing) :
    ∃ items, ∃ p : Program, Item.parse source = .ok items ∧ listing = p.listing ∧
      listing.Coherent ∧ p.Covers items := by
  rcases h with h | h
  · obtain ⟨items, pool, p, env, hparse, hc, rfl⟩ := isCompiled_of_compilePlain h
    exact ⟨items, p, hparse, rfl, hc.coherent (nodup_of_compilePlain h), hc.covers⟩
  · obtain ⟨plain, hplain, h⟩ := ok_of_bind_eq_ok h
    obtain ⟨items, pool, p, env, hparse, hc, rfl⟩ := isCompiled_of_compilePlain hplain
    cases h
    exact ⟨items, p.optimized, hparse, (Program.listing_optimized hc.named).symm,
      (hc.coherent (nodup_of_compilePlain hplain)).dropReloads, hc.covers.optimized⟩

/-- Nothing but an offset that is too large can keep the listing of a source text from being assembled. -/
theorem compiled_assembles {source : String} {listing : Listing}
    (h : compilePlain source = .ok listing ∨ compile source = .ok listing) :
    ((∃ words, listing.assemble = .ok words) ∨
      ∃ i offset, listing.assemble = .error (.offsetOutOfRange i offset)) ∧
    ∀ words, listing.assemble = .ok words → ∃ items table,
      Item.parse source = .ok items ∧ listing.tags = .ok table ∧ LaidOut items listing table words := by
  obtain ⟨items, p, hparse, rfl, hcoherent, hcovers⟩ := program_of_compiles h
  have htags : p.listing.tags = .ok (offsets 0 p.listing) :=
    tags_eq_ok_iff.mpr ⟨hcoherent.nodup, rfl⟩
  exact ⟨hcoherent.assembles, fun words hwords =>
    ⟨items, _, hparse, htags, hcovers.laidOut hwords⟩⟩

/-- Adds up numbers in a global. -/
def totalSource : String :=
  "(INIT total 0) (FUNC add (n) (SET total (+ total n)) total)" ++
  "(FUNC main () (VAR i 3) (WHILE i (IF (< i 3) ((add i)) (@last)) (SET i (- i 1))))"

def totalItems : List Item :=
  [.global "total" (.literal 0),
    .function ⟨"add", ["n"],
      [.assign "total" false (.binary .add (.reference "total" false) (.reference "n" false)),
        .reference "total" false]⟩,
    .function ⟨"main", [],
      [.declare "i" (.literal 3),
        .loop (.reference "i" false)
          [.cond (.binary .lt (.reference "i" false) (.literal 3)) [.apply "add" [.reference "i" false]]
            [.symbol "last"],
            .assign "i" false (.binary .sub (.reference "i" false) (.literal 1))]]⟩]

theorem compiled_assembles_total :
    ∃ listing words table, compile totalSource = .ok listing ∧ listing.assemble = .ok words ∧
      listing.tags = .ok table ∧ LaidOut totalItems listing table words := by
  have hparse : Item.parse totalSource = .ok totalItems := by cbv
  obtain ⟨plain, symbols, hplain, hcheck⟩ := compiles_of_check hparse
    (fun listing _ => listing.dropReloads.assemblesTo fun _ => true) (by decide +kernel)
  obtain ⟨words, hassemble, -⟩ := exists_of_assemblesTo hcheck
  have hcompile : compile totalSource = .ok plain.dropReloads := by
    unfold compile compilePlain
    rw [hplain]
    rfl
  obtain ⟨items, table, hitems, htags, hlaid⟩ := (compiled_assembles (.inr hcompile)).2 words hassemble
  cases hparse.symm.trans hitems
  exact ⟨_, words, table, hcompile, hassemble, htags, hlaid⟩

end WordLisp

import WordLisp.Proofs.View.WellFormed

/-!
# Programs without redundant loads

Dropping redundant loads from the listing of a program gives the listing of another program, whose
routines have the same names and frames and some loads less. What made the program well formed is
still there.
-/

namespace WordLisp

/-! ## Listings -/

namespace Listing

/-- Only instructions are dropped, so a listing that begins with something else is dealt with on its
own. -/
theorem dropReloadsAfter_append {last : Record} {a b : Listing}
    (hb : ∀ i, b.head? ≠ some (.instruction i)) :
    dropReloadsAfter last (a ++ b) = dropReloadsAfter last a ++ b.dropReloads := by
  induction a generalizing last with
  | nil =>
    cases b with
    | nil => rfl
    | cons record b =>
      have hkeep : last.reloads record = false := by
        cases record with
        | instruction i => exact absurd rfl (hb i)
        | tag name | data value => cases last <;> rfl
      show dropReloadsAfter last (record :: b) = record :: dropReloadsAfter record b
      rw [dropReloadsAfter, if_neg (by simp [hkeep])]
  | cons record a ih =>
    rw [List.cons_append, dropReloadsAfter, dropReloadsAfter]
    split
    · exact ih
    · rw [ih, List.cons_append]

theorem dropReloads_append {a b : Listing} (hb : ∀ i, b.head? ≠ some (.instruction i)) :
    dropReloads (a ++ b) = a.dropReloads ++ b.dropReloads := by
  cases a with
  | nil => rfl
  | cons record a =>
    show record :: dropReloadsAfter record (a ++ b) = _
    rw [dropReloadsAfter_append hb]
    rfl

theorem dropReloadsAfter_tag (name : String) (l : Listing) :
    dropReloadsAfter (.tag name) l = l.dropReloads := by
  cases l <;> rfl

theorem dropReloads_dataListing (ps : List (String × Word)) :
    dropReloads (Generator.dataListing ps) = Generator.dataListing ps := by
  induction ps with
  | nil => rfl
  | cons q ps ih =>
    show dropReloads ([.tag q.1, .data q.2] ++ Generator.dataListing ps) = _
    rw [dropReloads_append, ih]
    · rfl
    · cases ps <;> simp [Generator.dataListing]

end Listing

/-! ## Code -/

/-- Drops the redundant loads of code that stands behind the operation `last`. -/
def Op.dropReloadsAfter (last : Op) : List Op → List Op
  | [] => []
  | op :: rest =>
    if last.record.reloads op.record then dropReloadsAfter last rest
    else op :: dropReloadsAfter op rest

theorem Op.listing_dropReloadsAfter (last : Op) (ops : List Op) :
    Op.listing (Op.dropReloadsAfter last ops) =
      Listing.dropReloadsAfter last.record (Op.listing ops) := by
  induction ops generalizing last with
  | nil => rfl
  | cons op ops ih =>
    rw [Op.listing_cons, Op.dropReloadsAfter, Listing.dropReloadsAfter]
    split
    · exact ih last
    · rw [Op.listing_cons, ih op]

theorem Op.dropReloadsAfter_sublist (last : Op) (ops : List Op) :
    (Op.dropReloadsAfter last ops).Sublist ops := by
  induction ops generalizing last with
  | nil => exact .slnil
  | cons op ops ih =>
    rw [Op.dropReloadsAfter]
    split
    · exact (ih last).cons op
    · exact (ih op).cons_cons op

/-- What two records have in common of which the second is a redundant load. -/
theorem Op.reloads_iff {last op : Op} : last.record.reloads op.record = true ↔
    ∃ i j, last.record = .instruction i ∧ op.record = .instruction j ∧ i.samePlace j = true ∧
      i.opcode.loadFor? = some j.opcode := by
  constructor
  · intro h
    unfold Record.reloads at h
    split at h
    · next i j hi hj =>
      rw [Instruction.reloads, Bool.and_eq_true, decide_eq_true_iff] at h
      exact ⟨i, j, hi, hj, h⟩
    · cases h
  · rintro ⟨i, j, hi, hj, hplace, hop⟩
    rw [hi, hj, Record.reloads, Instruction.reloads, Bool.and_eq_true, decide_eq_true_iff]
    exact ⟨hplace, hop⟩

theorem Op.eq_load_of_opcode {op : Op} {i : Instruction} {r : Register} {b : Base} {indirect : Bool}
    (h : op.record = .instruction i) (hop : i.opcode = .load r b indirect) :
    ∃ x, op = .load x indirect := by
  cases op with
  | load x indirect' =>
    cases h
    cases x <;> cases hop <;> exact ⟨_, rfl⟩
  | store x indirect' =>
    cases h
    cases x <;> cases hop
  | tag name => cases h
  | _ =>
    cases h
    cases hop

theorem Op.eq_store_of_opcode {op : Op} {i : Instruction} {r : Register} {b : Base} {indirect : Bool}
    (h : op.record = .instruction i) (hop : i.opcode = .store r b indirect) :
    (∃ x, op = .store x indirect) ∨ op = .yield := by
  cases op with
  | store x indirect' =>
    cases h
    cases x <;> cases hop <;> exact .inl ⟨_, rfl⟩
  | load x indirect' =>
    cases h
    cases x <;> cases hop
  | yield => exact .inr rfl
  | tag name => cases h
  | _ =>
    cases h
    cases hop

theorem Opcode.eq_of_loadFor? {a b : Opcode} (h : a.loadFor? = some b) :
    ∃ r base indirect, a = .store r base indirect ∧ b = .load r base indirect := by
  cases a with
  | store r base indirect =>
    cases h
    exact ⟨r, base, indirect, rfl, rfl⟩
  | _ => cases h

/-- Nothing but loads is dropped. -/
theorem Op.load_of_reloads {last op : Op} (h : last.record.reloads op.record = true) :
    ∃ x indirect, op = .load x indirect := by
  obtain ⟨i, j, -, hj, -, hop⟩ := Op.reloads_iff.mp h
  obtain ⟨r, b, indirect, -, hload⟩ := Opcode.eq_of_loadFor? hop
  obtain ⟨x, rfl⟩ := Op.eq_load_of_opcode hj hload
  exact ⟨x, indirect, rfl⟩

section
variable {op : Op} (h : ∀ x indirect, op ≠ .load x indirect)
include h

theorem Op.mem_dropReloadsAfter {ops : List Op} (hm : op ∈ ops) (last : Op) :
    op ∈ Op.dropReloadsAfter last ops := by
  induction ops generalizing last with
  | nil => cases hm
  | cons o ops ih =>
    rw [Op.dropReloadsAfter]
    split
    · next hr =>
      rcases List.mem_cons.mp hm with rfl | hm
      · obtain ⟨x, indirect, he⟩ := Op.load_of_reloads hr
        exact absurd he (h x indirect)
      · exact ih hm last
    · rcases List.mem_cons.mp hm with rfl | hm
      · exact List.mem_cons_self ..
      · exact List.mem_cons_of_mem _ (ih hm o)

theorem Op.dropReloadsAfter_concat (ops : List Op) (last : Op) :
    Op.dropReloadsAfter last (ops ++ [op]) = Op.dropReloadsAfter last ops ++ [op] := by
  induction ops generalizing last with
  | nil =>
    have hkeep : ¬ last.record.reloads op.record = true := by
      intro hr
      obtain ⟨x, indirect, he⟩ := Op.load_of_reloads hr
      exact h x indirect he
    show (if _ then _ else op :: []) = [op]
    exact if_neg hkeep
  | cons o ops ih =>
    rw [List.cons_append, Op.dropReloadsAfter, Op.dropReloadsAfter]
    split
    · exact ih last
    · rw [ih, List.cons_append]

end

theorem Op.stores_dropReloadsAfter (last : Op) (ops : List Op) :
    Op.stores (Op.dropReloadsAfter last ops) = Op.stores ops := by
  induction ops generalizing last with
  | nil => rfl
  | cons op ops ih =>
    rw [Op.dropReloadsAfter]
    split
    · next hr =>
      obtain ⟨x, indirect, rfl⟩ := Op.load_of_reloads hr
      rw [ih last, Op.stores_cons]
      rfl
    · rw [Op.stores_cons, Op.stores_cons, ih op]

/-! ## Routines and programs -/

/-- The tag of a routine is in front of its code, and a tag makes no load redundant. -/
def Routine.optimized (r : Routine) : Routine :=
  { r with code := Op.dropReloadsAfter (.tag "") r.code }

def Program.optimized (p : Program) : Program :=
  { p with routines := p.routines.map Routine.optimized }

theorem Routine.optimized_boot : Routine.boot.optimized = .boot := by
  show (⟨none, 0, ⟨[], 0⟩, Op.dropReloadsAfter (.tag "") Routine.boot.code⟩ : Routine) = _
  rw [show Op.dropReloadsAfter (.tag "") Routine.boot.code = Routine.boot.code by decide]
  rfl

theorem Routine.listing_optimized {r : Routine} {name : String} (hn : r.name = some name) :
    r.optimized.listing = Listing.dropReloads r.listing := by
  unfold Routine.listing Routine.optimized
  simp only [hn]
  rw [Op.listing_dropReloadsAfter]
  show Record.data _ :: .tag name :: Listing.dropReloadsAfter (.tag "") _ =
    .data _ :: .tag name :: Listing.dropReloadsAfter (.tag name) _
  rw [Listing.dropReloadsAfter_tag, Listing.dropReloadsAfter_tag]

/-- Routines and data begin with something else than an instruction. -/
theorem Program.head_ne_instruction {rs : List Routine}
    (hn : ∀ r ∈ rs, ∃ name, r.name = some name) (data : List (String × Word)) (i : Instruction) :
    (rs.flatMap Routine.listing ++ Generator.dataListing data).head? ≠ some (.instruction i) := by
  cases rs with
  | nil => cases data <;> simp [Generator.dataListing]
  | cons r rs =>
    obtain ⟨name, hname⟩ := hn r (List.mem_cons_self ..)
    rw [List.flatMap_cons]
    unfold Routine.listing
    rw [hname]
    simp

theorem Program.routines_optimized {rs : List Routine} (hn : ∀ r ∈ rs, ∃ name, r.name = some name)
    (data : List (String × Word)) :
    (rs.map Routine.optimized).flatMap Routine.listing ++ Generator.dataListing data =
      Listing.dropReloads (rs.flatMap Routine.listing ++ Generator.dataListing data) := by
  induction rs with
  | nil => exact (Listing.dropReloads_dataListing _).symm
  | cons r rs ih =>
    obtain ⟨name, hname⟩ := hn r (List.mem_cons_self ..)
    have hrs : ∀ r ∈ rs, ∃ name, r.name = some name := fun r hr => hn r (List.mem_cons_of_mem _ hr)
    rw [List.map_cons, List.flatMap_cons, List.append_assoc, ih hrs, List.flatMap_cons,
      List.append_assoc, Listing.dropReloads_append (Program.head_ne_instruction hrs data),
      Routine.listing_optimized hname]

/-- Dropping loads from the listing is dropping them routine by routine. -/
theorem Program.listing_optimized {p : Program} (hn : ∀ r ∈ p.routines, ∃ name, r.name = some name) :
    p.optimized.listing = Listing.dropReloads p.listing := by
  show Routine.boot.listing ++ _ = Listing.dropReloads (Routine.boot.listing ++ _)
  rw [Listing.dropReloads_append (Program.head_ne_instruction hn p.data),
    ← Program.routines_optimized hn]
  rfl

/-! ## Well-formedness -/

theorem Op.Allowed.optimized {p : Program} {r : Routine} {op : Op} (h : op.Allowed p r) :
    op.Allowed p.optimized r.optimized := by
  cases op with
  | load x indirect => cases x <;> exact h
  | store x indirect => cases indirect <;> cases x <;> exact h
  | branch name | jump name => exact Op.mem_dropReloadsAfter (by simp) h _
  | call name =>
    obtain ⟨r', hr', hn, hs⟩ := h
    exact ⟨r'.optimized, List.mem_map_of_mem hr', hn, hs⟩
  | yield | ret => exact List.mem_map_of_mem h
  | stop =>
    have h : r = .boot := h
    rw [h]
    exact Routine.optimized_boot
  | tag name | unary operator | binary operator | swap => trivial

theorem Program.has_optimized {p : Program} {r : Routine} (h : p.optimized.Has r) :
    ∃ r₀, p.Has r₀ ∧ r = r₀.optimized := by
  rcases h with rfl | h
  · exact ⟨.boot, .inl rfl, Routine.optimized_boot.symm⟩
  · obtain ⟨r₀, hr₀, rfl⟩ := List.mem_map.mp h
    exact ⟨r₀, .inr hr₀, rfl⟩

theorem Program.WellFormed.optimized {p : Program} (h : p.WellFormed) : p.optimized.WellFormed := by
  refine ⟨fun r hr => ?_, fun r hr => ?_, fun r hr hs op hop => ?_⟩
  · obtain ⟨r₀, hr₀, rfl⟩ := List.mem_map.mp hr
    exact h.named r₀ hr₀
  · obtain ⟨r₀, hr₀, rfl⟩ := Program.has_optimized hr
    obtain ⟨ops, last, hcode, hlast⟩ := h.ends r₀ hr₀
    refine ⟨Op.dropReloadsAfter (.tag "") ops, last, ?_, hlast⟩
    show Op.dropReloadsAfter (.tag "") r₀.code = _
    rw [hcode]
    exact Op.dropReloadsAfter_concat (by rcases hlast with rfl | rfl <;> simp) ops _
  · obtain ⟨r₀, hr₀, rfl⟩ := Program.has_optimized hr
    exact (h.allowed r₀ hr₀ hs op ((Op.dropReloadsAfter_sublist _ _).subset hop)).optimized

/-- A compiled program is well formed without its redundant loads, if these fit into the memory. -/
theorem IsCompiled.wellFormed_of_optimized {items : List Item} {pool : SymbolPool} {p : Program}
    {env : Resources} {words : List Word} (hc : IsCompiled items pool p env)
    (hf : p.optimized.Fits words) : p.WellFormed := by
  have hnamed : ∀ r ∈ p.optimized.routines, ∃ name, r.name = some name := by
    intro r hr
    obtain ⟨r₀, hr₀, rfl⟩ := List.mem_map.mp hr
    exact hc.named r₀ hr₀
  refine hc.wellFormed fun r hr => ?_
  rw [← Op.stores_dropReloadsAfter (.tag "") r.code]
  exact hf.stores_le hnamed r.optimized (List.mem_map_of_mem hr)

/-! ## Building -/

/-- The listing that a source text is built from is that of a compiled program without its redundant
loads. -/
theorem isCompiled_of_compile {source : String} {listing : Listing}
    (h : compile source = .ok listing) :
    ∃ items pool p env, Item.parse source = .ok items ∧ IsCompiled items pool p env ∧
      listing = p.optimized.listing := by
  obtain ⟨plain, hplain, h⟩ := ok_of_bind_eq_ok h
  obtain ⟨items, pool, p, env, hparse, hc, rfl⟩ := isCompiled_of_compilePlain hplain
  cases h
  exact ⟨items, pool, p, env, hparse, hc, (Program.listing_optimized hc.named).symm⟩

theorem assemble_of_build {source : String} {listing : Listing} {words : List Word}
    (hcompile : compile source = .ok listing) (hbuild : build source = .ok words) :
    listing.assemble = .ok words := by
  unfold build at hbuild
  rw [hcompile] at hbuild
  cases ha : listing.assemble with
  | error e => simp [ha] at hbuild
  | ok ws =>
    simp only [ha] at hbuild
    cases hbuild
    rfl

theorem compile_of_build {source : String} {words : List Word} (h : build source = .ok words) :
    ∃ listing, compile source = .ok listing ∧ listing.assemble = .ok words := by
  cases hcompile : compile source with
  | error e =>
    unfold build at h
    rw [hcompile] at h
    cases h
  | ok listing => exact ⟨listing, rfl, assemble_of_build hcompile h⟩

theorem build_of_assemble {source : String} {listing : Listing} {words : List Word}
    (hcompile : compilePlain source = .ok listing)
    (hassemble : listing.dropReloads.assemble = .ok words) : build source = .ok words := by
  have : compile source = .ok listing.dropReloads := by
    unfold compile
    rw [hcompile]
    rfl
  unfold build
  simp only [this, hassemble]

end WordLisp

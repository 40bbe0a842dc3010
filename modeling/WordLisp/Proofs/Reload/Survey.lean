import WordLisp.Proofs.Reload.Discipline

/-!
# Finding out that a run is disciplined

`View.survey` carries out a program on its view, with a look at every operation. If it comes to the
end, the run of every machine with this view is disciplined and halts.
-/

namespace WordLisp

open Machine

/-! ## Programs that are well formed -/

section
variable (p : Program) (r : Routine)

instance : DecidablePred (Operand.Readable p r)
  | .cell _ => inferInstanceAs (Decidable (_ ∈ _))
  | .slot _ => inferInstanceAs (Decidable (_ ∧ _))

instance : DecidablePred (Operand.Writable p r)
  | .cell _ => inferInstanceAs (Decidable (_ ∈ _))
  | .slot _ => inferInstanceAs (Decidable (_ ∨ _))

instance : Decidable r.Small := inferInstanceAs (Decidable (_ < _))

instance : DecidablePred (Op.Allowed p r)
  | .load x _ | .store x true => inferInstanceAs (Decidable (x.Readable p r))
  | .store x false => inferInstanceAs (Decidable (x.Writable p r))
  | .branch _ | .jump _ => inferInstanceAs (Decidable (_ ∈ _))
  | .call _ => inferInstanceAs (Decidable (∃ r' ∈ p.routines, _ ∧ _))
  | .yield | .ret => inferInstanceAs (Decidable (r ∈ p.routines))
  | .stop => inferInstanceAs (Decidable (r = .boot))
  | .tag _ | .unary _ | .binary _ | .swap => inferInstanceAs (Decidable True)

end

/-- A program whose routines are all looked at. -/
theorem Program.wellFormed_of_forall {p : Program}
    (hn : ∀ r ∈ p.routines, r.name.isSome)
    (he : ∀ r ∈ Routine.boot :: p.routines,
      r.code.getLast? = some .ret ∨ r.code.getLast? = some .stop)
    (ha : ∀ r ∈ Routine.boot :: p.routines, ∀ op ∈ r.code, op.Allowed p r) : p.WellFormed where
  named r hr := Option.isSome_iff_exists.mp (hn r hr)
  ends r hr := by
    have hmem : r ∈ Routine.boot :: p.routines := List.mem_cons.mpr hr
    rcases he r hmem with h | h <;> obtain ⟨ops, hops⟩ := List.getLast?_eq_some_iff.mp h
    · exact ⟨ops, .ret, hops, .inl rfl⟩
    · exact ⟨ops, .stop, hops, .inr rfl⟩
  allowed r hr _ := ha r (List.mem_cons.mpr hr)

/-! ## Surveys -/

/-- The operand that the operation reads. -/
def Op.operand? : Op → Option Operand
  | .load x _ | .store x true => some x
  | _ => none

theorem Op.operand?_eq_some_iff {op : Op} {x : Operand} : op.operand? = some x ↔ op.Reads x := by
  constructor
  · intro h
    cases op with
    | load y indirect =>
      cases h
      exact .inl ⟨indirect, rfl⟩
    | store y indirect => cases indirect <;> cases h; exact .inr rfl
    | _ => cases h
  · rintro (⟨indirect, rfl⟩ | rfl) <;> rfl

/-- What is read is known, and assigned if it is a variable. -/
def View.Minds (v : View D) (scopes : List Scope) : Option Operand → Prop
  | some (.slot n) => (v.top.slots n).isSome ∧ ∀ s ∈ scopes.head?,
      Int32.ofNat n ∈ variableSlots s.function.scope.length → Int32.ofNat n ∈ s.assigned
  | some (.cell _) | none => True

instance (v : View D) (scopes : List Scope) : DecidablePred (v.Minds scopes)
  | some (.slot _) => inferInstanceAs (Decidable (_ ∧ _))
  | some (.cell _) | none => inferInstanceAs (Decidable True)

section
variable [Device D]

/-- Carries out a program up to its last operation, as long as it keeps to the rules. -/
def View.survey (p : Program) (functions : List Function) (roof : Int) :
    (fuel : Nat) → View D → List Scope → Option (View D)
  | 0, _, _ => none
  | fuel + 1, v, scopes =>
    match v.top.code with
    | [] => none
    | .stop :: _ => some v
    | .tag _ :: rest =>
      View.survey p functions roof fuel { v with top := v.top.goto rest } scopes
    | op :: _ =>
      if v.Minds scopes op.operand? then
        match v.turn p roof fun _ => 0 with
        | .next v => v.survey p functions roof fuel (Scope.after functions scopes op.record)
        | .skip _ | .halt _ | .fault _ | .astray => none
      else none

variable {p : Program} {words : List Word} {roof : Int} {items : List Item} {functions : List Function}
  {m start : Machine D} {v last : View D} {op : Op} {rest : List Op} {scopes : List Scope}
  {fuel : Nat} {x : Operand}

omit [Device D] in
theorem View.Minds.knows (h : v.Minds scopes op.operand?) (hx : op.Reads x) : v.Knows x := by
  cases x with
  | cell tag => trivial
  | slot n =>
    rw [Op.operand?_eq_some_iff.mpr hx] at h
    exact Option.isSome_iff_ne_none.mp h.1

omit [Device D] in
theorem View.value_congr (h : v.Knows x) (stale stale' : Nat → Word) :
    v.value stale x = v.value stale' x := by
  cases x with
  | cell tag => rfl
  | slot n =>
    obtain ⟨w, hw⟩ := Option.ne_none_iff_exists'.mp h
    show (v.top.slots n).getD _ = (v.top.slots n).getD _
    rw [hw]
    rfl

/-- A turn that reads only what is known does not depend on the rest. -/
theorem View.turn_congr (hc : v.top.code = op :: rest) (h : ∀ x, op.Reads x → v.Knows x)
    (stale stale' : Nat → Word) : v.turn p roof stale = v.turn p roof stale' := by
  rw [View.turn_cons hc, View.turn_cons hc]
  cases op with
  | load x indirect =>
    have := View.value_congr (h x (.inl ⟨indirect, rfl⟩)) stale stale'
    cases indirect <;> simp only [View.exec, View.load, View.value_goto, this]
  | store x indirect =>
    cases indirect with
    | false => rfl
    | true =>
      have := View.value_congr (h x (.inr rfl)) stale stale'
      simp only [View.exec, View.store, View.value_goto, this]
  | _ => rfl

/-- What a survey has seen of an instruction that is not the last one. -/
theorem View.survey_cons (hc : v.top.code = op :: rest) (htag : ∀ name, op ≠ .tag name)
    (hstop : op ≠ .stop) (h : v.survey p functions roof fuel scopes = some last) :
    v.Minds scopes op.operand? ∧ ∃ v' fuel', fuel' < fuel ∧
      (∀ stale, v.turn p roof stale = .next v') ∧
      v'.survey p functions roof fuel' (Scope.after functions scopes op.record) = some last := by
  cases fuel with
  | zero => cases h
  | succ fuel =>
    simp only [View.survey, hc] at h
    split at h
    · next hm =>
      refine ⟨hm, ?_⟩
      split at h
      · next v' ht =>
        refine ⟨v', fuel, fuel.lt_succ_self, fun stale => ?_, h⟩
        rw [← ht]
        exact View.turn_congr hc (fun x hx => hm.knows hx) _ _
      all_goals cases h
    · cases h

/-- A survey that comes to the end is a run to the last operation. -/
theorem View.reaches_of_survey (h : v.survey p functions roof fuel scopes = some last) :
    v.Reaches p roof last ∧ ∃ rest, last.top.code = .stop :: rest := by
  induction fuel using Nat.strong_induction_on generalizing v scopes with
  | _ fuel ih =>
    obtain ⟨fuel, rfl⟩ : ∃ n, fuel = n + 1 := by
      cases fuel with
      | zero => cases h
      | succ n => exact ⟨n, rfl⟩
    cases hc : v.top.code with
    | nil => simp [View.survey, hc] at h
    | cons op rest =>
      by_cases hstop : op = .stop
      · subst hstop
        simp only [View.survey, hc, Option.some.injEq] at h
        subst h
        exact ⟨.refl v, rest, hc⟩
      by_cases htag : ∃ name, op = .tag name
      · obtain ⟨name, rfl⟩ := htag
        simp only [View.survey, hc] at h
        obtain ⟨hr, hlast⟩ := ih fuel fuel.lt_succ_self h
        exact ⟨.skip (fun _ => View.turn_cons hc) hr, hlast⟩
      · obtain ⟨-, v', fuel', hlt, ht, h'⟩ :=
          View.survey_cons hc (fun name he => htag ⟨name, he⟩) hstop h
        obtain ⟨hr, hlast⟩ := ih fuel' hlt h'
        exact ⟨.next ht hr, hlast⟩

theorem View.isDeviceAddress_of_turn {v' : View D} {stale : Nat → Word}
    (hc : v.top.code = op :: rest) (hx : op.Follows x) (ht : v.turn p roof stale = .next v') :
    IsDeviceAddress (v.value stale x) := by
  by_contra hnot
  rw [View.turn_cons hc] at ht
  rcases hx with rfl | rfl
  · simp only [View.exec, View.load, View.value_goto, if_neg hnot, reduceCtorEq] at ht
  · simp only [View.exec, View.store, View.value_goto, if_neg hnot, reduceCtorEq] at ht

/-! ## Runs -/

theorem Op.exists_of_slotRead? {offset : Word} (h : op.record.slotRead? = some offset) :
    ∃ n, op.operand? = some (.slot n) ∧ offset = Int32.ofNat n := by
  cases op with
  | load x indirect =>
    cases x with
    | cell tag => cases h
    | slot n => cases h; exact ⟨n, rfl, rfl⟩
  | store x indirect =>
    cases x with
    | cell tag => cases h
    | slot n =>
      cases indirect with
      | false => cases h
      | true => cases h; exact ⟨n, rfl, rfl⟩
  | _ => cases h

omit [Device D] in
theorem Op.exists_of_pointer? {listing : Listing} {pointer : Word}
    (h : m.pointer? listing op.record = some pointer) : ∃ x, op.Follows x := by
  cases op with
  | load x indirect =>
    cases indirect with
    | true => exact ⟨x, .inl rfl⟩
    | false => cases x <;> cases h
  | store x indirect =>
    cases indirect with
    | true => exact ⟨x, .inr rfl⟩
    | false => cases x <;> cases h
  | _ => cases h

variable (hw : p.WellFormed) (hf : p.Fits words)
include hw hf

theorem Represents.settle_survey (h : Represents p words roof m v)
    (hs : v.survey p functions roof fuel scopes = some last) :
    ∃ v' fuel' op rest, Represents p words roof m v' ∧
      v'.survey p functions roof fuel' scopes = some last ∧ v'.top.code = op :: rest ∧
      ∀ name, op ≠ .tag name := by
  induction fuel generalizing v with
  | zero => cases hs
  | succ fuel ih =>
    cases hc : v.top.code with
    | nil => exact absurd hc h.sits.nonempty
    | cons op rest =>
      by_cases htag : ∃ name, op = .tag name
      · obtain ⟨name, rfl⟩ := htag
        have ha := h.agrees_turn hw hf
        rw [View.turn_cons hc] at ha
        simp only [View.survey, hc] at hs
        exact ih ha hs
      · exact ⟨v, fuel + 1, op, rest, h, hs, hc, fun name he => htag ⟨name, he⟩⟩

/-- A machine whose start was surveyed has a view that is being surveyed wherever it comes. -/
theorem Represents.tracks_survey (h : Represents p words roof start v)
    (hs : v.survey p (Item.functions items) roof fuel [] = some last)
    (ht : Tracks items p.listing start m scopes) :
    ∃ v' fuel' op rest, Represents p words roof m v' ∧
      v'.survey p (Item.functions items) roof fuel' scopes = some last ∧ v'.top.code = op :: rest ∧
      ∀ name, op ≠ .tag name := by
  induction ht with
  | start => exact h.settle_survey hw hf hs
  | step _ hrecord hstep ih =>
    obtain ⟨v₁, fuel₁, op, rest, h₁, hs₁, hc, htag⟩ := ih
    rw [h₁.record?_eq hw hf hc htag] at hrecord
    cases hrecord
    by_cases hstop : op = .stop
    · subst hstop
      rw [(h₁.step_stop hw hf hc).1] at hstep
      cases hstep
    · obtain ⟨-, v₂, fuel₂, -, hturn, hs₂⟩ := View.survey_cons hc htag hstop hs₁
      have ha := h₁.agrees_turn hw hf
      rw [hturn] at ha
      obtain ⟨m₂, hstep₂, h₂⟩ := ha
      rw [hstep] at hstep₂
      cases hstep₂
      exact h₂.settle_survey hw hf hs₂

/-- A run that was surveyed to its end is disciplined. -/
theorem Represents.disciplined (h : Represents p words roof start v)
    (hs : v.survey p (Item.functions items) roof fuel [] = some last) :
    start.Disciplined items p.listing := by
  refine ⟨fun m scopes record offset ht hrecord hread s hscope hvar => ?_,
    fun m scopes record pointer ht hrecord hpointer => ?_⟩
  · obtain ⟨v₁, fuel₁, op, rest, h₁, hs₁, hc, htag⟩ := h.tracks_survey hw hf hs ht
    rw [h₁.record?_eq hw hf hc htag] at hrecord
    cases hrecord
    have hstop : op ≠ .stop := by
      rintro rfl
      cases hread
    obtain ⟨hminds, -⟩ := View.survey_cons hc htag hstop hs₁
    obtain ⟨n, hn, rfl⟩ := Op.exists_of_slotRead? hread
    rw [hn] at hminds
    exact hminds.2 s hscope hvar
  · obtain ⟨v₁, fuel₁, op, rest, h₁, hs₁, hc, htag⟩ := h.tracks_survey hw hf hs ht
    rw [h₁.record?_eq hw hf hc htag] at hrecord
    cases hrecord
    have hstop : op ≠ .stop := by
      rintro rfl
      cases hpointer
    obtain ⟨-, v₂, fuel₂, -, hturn, -⟩ := View.survey_cons hc htag hstop hs₁
    obtain ⟨x, hx⟩ := Op.exists_of_pointer? hpointer
    rw [h₁.pointer?_eq hw hf hc hx] at hpointer
    cases hpointer
    exact View.isDeviceAddress_of_turn hc hx (hturn _)

/-- A run that was surveyed to its end halts. -/
theorem Represents.halts_of_survey (hpos : 0 < start.sliceSteps)
    (h : Represents p words roof start v)
    (hs : v.survey p functions roof fuel scopes = some last) {w : Word}
    (hslot : last.top.slots 1 = some w) :
    ∃ m, start.Halts m ∧ m.result? = some w ∧ m.memory.device = last.device ∧
      ∀ tag ∈ p.data.map Prod.fst, m.wordAt? p.listing tag = some (last.data tag) := by
  obtain ⟨hreach, rest, hc⟩ := View.reaches_of_survey hs
  obtain ⟨m, hsteps, hrep⟩ := h.reaches hw hf hreach
  obtain ⟨m', hhalts, -, h'⟩ := hrep.halts hw hf hpos hsteps hc hslot
  exact ⟨m', hhalts, h'⟩

/-- A program that was surveyed to its end is loaded, keeps to the rules and halts. -/
theorem Program.Fits.loads_of_survey {device : D} (config : Config)
    (hstack : config.stackWords + 2 ^ 16 < placeBound)
    (hs : (View.start p device).survey p (Item.functions items) (2 ^ 16 + config.stackWords) fuel [] =
      some last) {w : Word} (hslot : last.top.slots 1 = some w) :
    ∃ m m', (Machine.new device config).load words = .ok () m ∧ m.Disciplined items p.listing ∧
      m.Halts m' ∧ m'.result? = some w ∧ m'.memory.device = last.device ∧
      ∀ tag ∈ p.data.map Prod.fst, m'.wordAt? p.listing tag = some (last.data tag) := by
  obtain ⟨m, hload, hslice, hrep⟩ := represents_start hf (Machine.new device config)
  rw [show (Machine.new device config).memory.roof = 2 ^ 16 + config.stackWords from
    Memory.roof_new device hstack] at hrep
  obtain ⟨m', hm'⟩ := hrep.halts_of_survey hw hf (by rw [hslice]; exact sliceSteps_new_pos ..) hs hslot
  exact ⟨m, m', hload, hrep.disciplined hw hf hs, hm'⟩

end

/-! ## Programs that are written out -/

/-- The routine of a function whose conditionals and loops are numbered from `n` on. -/
def Function.routine (n : Nat) (f : Function) : Routine :=
  let frame : Frame := ⟨f.scope, Expr.rowTemporaries f.body⟩
  ⟨some f.name, f.parameters.length, frame, f.code frame n⟩

/-- The program becomes words that can be loaded. -/
def Program.Loads (p : Program) : Bool :=
  match p.listing.assemble with
  | .ok words => words.length ≤ programCapacity
  | .error _ => false

theorem Program.Loads.exists_fits {p : Program} (h : p.Loads = true) :
    ∃ words, p.listing.assemble = .ok words ∧ p.Fits words := by
  unfold Program.Loads at h
  split at h
  · next words hw => exact ⟨words, hw, Program.fits_of_assemble hw (of_decide_eq_true h)⟩
  · cases h

/-- The generator makes the listing of the program from the items. -/
def Program.IsGenerated (p : Program) (items : List Item) : Bool :=
  match Generator.start (Generator.program items) with
  | .ok (listing, _) => listing = p.listing
  | .error _ => false

theorem Program.IsGenerated.compilePlain_eq {p : Program} {items : List Item} {source : String}
    (h : p.IsGenerated items = true) (hparse : Item.parse source = .ok items) :
    compilePlain source = .ok p.listing := by
  unfold Program.IsGenerated at h
  split at h
  · next listing g hg =>
    have hl : listing = p.listing := of_decide_eq_true h
    unfold compilePlain compileWithSymbols
    rw [hparse]
    simp only [bind, Except.bind, hg, hl]
    rfl
  · cases h

end WordLisp

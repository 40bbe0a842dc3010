import WordLisp.Proofs.Reload.Discipline

/-!
# Two runs of one program

`Paired`: one machine runs a program and another the same program without its redundant loads, and
both are at the same point of it. Then the first one carries out a load that the second one does not
have, or both carry out the same operation (`Twins.step`). So each of them can follow the other
(`Twins.steps`, `Twins.steps_back`), and they end in the same way (`Twins.halts`,
`Twins.halts_back`, `Twins.fails_iff`).
-/

namespace WordLisp

open Machine Listing

/-! ## Loads that are dropped -/

/-- Word `k` of the listing is a redundant load: behind the store that makes it redundant are only
loads of the same kind. -/
def Listing.DropsAt (l : Listing) (k : Nat) (load : Instruction) : Prop :=
  ∃ before store loads rest,
    l = before ++ store :: (loads ++ .instruction load :: rest) ∧
    (∀ record ∈ loads, store.reloads record = true) ∧ store.reloads (.instruction load) = true ∧
    k = wordCount (before ++ store :: loads)

/-- No redundant load that the run carries out goes through a pointer. -/
def Machine.Quiet [Device D] (items : List Item) (listing : Listing) (start : Machine D) : Prop :=
  ∀ m scopes load, Tracks items listing start m scopes →
    listing.DropsAt (Memory.index m.registers.pc) load →
    ∀ register base, load.opcode ≠ .load register base true

/-- Behind an operation that stores there have only been loads that it makes redundant. -/
def Activation.Trails (a : Activation) (last : Op) : Prop :=
  last.Stores → ∃ before loads, a.routine.code = before ++ last :: (loads ++ a.code) ∧
    ∀ op ∈ loads, last.record.reloads op.record = true

/-- A redundant load is one of the operand of the store. -/
theorem Op.eq_of_reloads {p : Program} {r : Routine} {last op : Op} (hsmall : r.Small)
    (hlast : last.Allowed p r) (hop : op.Allowed p r)
    (h : last.record.reloads op.record = true) :
    ∃ x indirect, last = .store x indirect ∧ op = .load x indirect := by
  obtain ⟨i, j, hi, hj, hplace, hcode⟩ := Op.reloads_iff.mp h
  obtain ⟨register, base, indirect, hs, hl⟩ := Opcode.eq_of_loadFor? hcode
  obtain ⟨y, rfl⟩ := Op.eq_load_of_opcode hj hl
  unfold Routine.Small Frame.size at hsmall
  have hy : ∀ n, y = .slot n → n < 2 ^ 18 := by
    rintro n rfl
    have := hop.2
    omega
  rcases Op.eq_store_of_opcode hi hs with ⟨x, rfl⟩ | rfl
  · refine ⟨x, indirect, rfl, ?_⟩
    cases hi
    cases hj
    cases x with
    | cell tag =>
      cases y with
      | cell tag' =>
        have : tag = tag' := by simpa [Operand.instruction, Generator.toTag, Instruction.samePlace] using hplace
        rw [this]
      | slot n => cases hplace
    | slot n =>
      cases y with
      | cell tag' => cases hplace
      | slot k =>
        have he : Int32.ofNat n = Int32.ofNat k := by
          simpa [Operand.instruction, Instruction.samePlace] using hplace
        have hn : n < 2 ^ 19 := by
          cases indirect with
          | true =>
            have := hlast.2
            omega
          | false =>
            rcases hlast with ⟨-, hn⟩ | ⟨-, hn⟩
            · omega
            · exact hn
        have := hy k rfl
        rw [ofNat_inj (by omega) (by omega) he]
  · cases hi
    cases hj
    cases y with
    | cell tag' => cases hplace
    | slot k =>
      have he : (-2 : Int32) = Int32.ofNat k := by
        simpa [Operand.instruction, Instruction.samePlace] using hplace
      have := hy k rfl
      have := congrArg Int32.toInt he
      rw [Int32.toInt_ofNat_of_lt (by omega)] at this
      have hneg : (-2 : Int32).toInt = -2 := by decide
      omega

/-! ## Paired machines -/

/-- The words of a program with and without its redundant loads, and the start of a run of the
former that gives no reason for the two to differ. -/
structure Twins [Device D] (items : List Item) (p : Program) (need : Routine → String → Nat)
    (words words' : List Word) (start : Machine D) : Prop where
  compiled : ∃ pool env, IsCompiled items pool p env
  flows : p.Flows need
  fits : p.Fits words
  fits' : p.optimized.Fits words'
  disciplined : start.Disciplined items p.listing
  quiet : start.Quiet items p.listing

/-- The machines `m`, with all loads, and `m'` are at the same point of the program. `last` is the
last operation that both have come across, and `scopes` are those of the run of `m`. -/
structure Paired [Device D] (items : List Item) (p : Program) (need : Routine → String → Nat)
    (words words' : List Word) (roof : Int) (start m m' : Machine D) (v : View D) (last : Op)
    (scopes : List Scope) : Prop where
  plain : Represents p words roof m v
  reduced : Represents p.optimized words' roof m' (v.reduce last)
  settled : v.Settled last
  trails : v.top.Trails last
  flows : v.Flows p need
  inScope : Scoped (v.top :: v.below) scopes
  tracks : Tracks items p.listing start m scopes

section
variable [Device D] {items : List Item} {p : Program} {need : Routine → String → Nat}
  {words words' : List Word} {roof : Int} {start m m' : Machine D} {v : View D} {last op : Op}
  {rest : List Op} {scopes : List Scope}

theorem Twins.wellFormed (ht : Twins items p need words words' start) : p.WellFormed := by
  obtain ⟨pool, env, hc⟩ := ht.compiled
  exact hc.wellFormed_of_fits ht.fits

/-- Both machines know what the operation reads. -/
theorem Paired.knows (ht : Twins items p need words words' start)
    (h : Paired items p need words words' roof start m m' v last scopes)
    (hc : v.top.code = op :: rest) (x : Operand) (hx : op.Reads x) : v.Knows x :=
  ht.disciplined.knows ht.wellFormed ht.fits h.tracks h.plain h.flows h.inScope hc hx

theorem Paired.allowed (ht : Twins items p need words words' start)
    (h : Paired items p need words words' roof start m m' v last scopes)
    (hc : v.top.code = op :: rest) : op.Allowed p v.top.routine :=
  ht.wellFormed.allowed _ h.plain.sits.has h.plain.sits.small op
    (Represents.mem_code h.plain.sits hc)

/-- An operation that was kept does the same on both sides. -/
theorem Paired.turn_eq (ht : Twins items p need words words' start)
    (h : Paired items p need words words' roof start m m' v last scopes)
    (hc : v.top.code = op :: rest) (hkeep : last.record.reloads op.record = false) :
    (v.reduce last).turn p.optimized roof (Represents.stale m' (v.reduce last)) =
      (v.turn p roof (Represents.stale m v)).map (View.reduce op) := by
  refine View.turn_reduce hc hkeep _ _ (h.knows ht hc) fun name hname => ?_
  have ha := h.allowed ht hc
  rcases hname with rfl | rfl <;> exact ha

omit [Device D] in
/-- An operation that stores leaves its own trail. -/
theorem View.Becomes.trails {v' : View D} (hs : v.top.Sits p) (hc : v.top.code = op :: rest)
    (hv : View.Becomes p v rest op v') : v'.top.Trails op := by
  have htrail {a : Activation} (hr : a.routine = v.top.routine) (hcode : a.code = rest) :
      a.Trails op := by
    intro _
    obtain ⟨before, hbefore⟩ := hs.suffix
    exact ⟨before, [], by rw [hr, hcode, ← hbefore, hc]; rfl, by simp⟩
  have hnot {a : Activation} (hn : ¬ op.Stores) : a.Trails op := fun h => absurd h hn
  cases hv with
  | storeCell tag data => exact htrail rfl rfl
  | storeSlot n => exact htrail rfl rfl
  | storeDevice x device => exact htrail rfl rfl
  | yield b below hb => exact htrail rfl rfl
  | _ => exact hnot (by simp [Op.Stores])

/-- Both machines have carried out an operation, or passed a tag. -/
theorem Paired.becomes (ht : Twins items p need words words' start)
    (h : Paired items p need words words' roof start m m' v last scopes)
    (hc : v.top.code = op :: rest) {m₁ m₁' : Machine D} {v₁ : View D}
    (hgoes : (v.turn p roof (Represents.stale m v)).GoesOn v₁)
    (hplain : Represents p words roof m₁ v₁)
    (hreduced : Represents p.optimized words' roof m₁' (v₁.reduce op))
    (htracks : Tracks items p.listing start m₁ (Scope.after (Item.functions items) scopes op.record)) :
    Paired items p need words words' roof start m₁ m₁' v₁ op
      (Scope.after (Item.functions items) scopes op.record) := by
  obtain ⟨pool, env, hcompiled⟩ := ht.compiled
  have hv := View.Becomes.of_turn hc hgoes
  refine ⟨hplain, hreduced, ?_, hv.trails h.plain.sits hc,
    h.flows.becomes ht.wellFormed ht.flows h.plain.sits hc hv,
    h.inScope.becomes hcompiled ht.wellFormed ht.fits h.plain.sits h.flows hc hv, htracks⟩
  rcases hgoes with hturn | hturn
  · exact View.settled_of_turn hc hturn
  · rintro x rfl
    rw [View.turn_cons hc] at hturn
    cases x with
    | cell tag => cases hturn
    | slot n =>
      simp only [View.exec, View.store] at hturn
      split at hturn <;> cases hturn

/-- Both machines are behind the tags that stand in front of the next instruction. -/
theorem Paired.settle (ht : Twins items p need words words' start)
    (h : Paired items p need words words' roof start m m' v last scopes) :
    ∃ v₁ last₁ op rest, Paired items p need words words' roof start m m' v₁ last₁ scopes ∧
      v₁.top.code = op :: rest ∧ (∀ name, op ≠ .tag name) ∧
      v₁.top.code.length ≤ v.top.code.length := by
  generalize hn : v.top.code.length = n
  induction n generalizing v last with
  | zero => exact absurd (List.length_eq_zero_iff.mp hn) h.plain.sits.nonempty
  | succ n ih =>
    cases hc : v.top.code with
    | nil => exact absurd hc h.plain.sits.nonempty
    | cons op rest =>
      by_cases htag : ∃ name, op = .tag name
      · obtain ⟨name, rfl⟩ := htag
        have hkeep : last.record.reloads (Op.tag name).record = false := by
          cases last.record <;> rfl
        have hturn : v.turn p roof (Represents.stale m v) =
            .skip { v with top := v.top.goto rest } := View.turn_cons hc
        have hplain := h.plain.agrees_turn ht.wellFormed ht.fits
        have hreduced := h.reduced.agrees_turn ht.wellFormed.optimized ht.fits'
        rw [h.turn_eq ht hc hkeep, hturn] at hreduced
        rw [hturn] at hplain
        have hlen : rest.length = n := by
          rw [hc] at hn
          exact Nat.succ.inj hn
        obtain ⟨v₁, last₁, op, rest₁, h₁, hc₁, hne, hle⟩ :=
          ih (h.becomes ht hc (.inr hturn) hplain hreduced h.tracks) hlen
        exact ⟨v₁, last₁, op, rest₁, h₁, hc₁, hne, by omega⟩
      · exact ⟨v, last, op, rest, h, hc, fun name he => htag ⟨name, he⟩, hn.le⟩

/-- The plain machine is at a word that is dropped. -/
theorem Paired.dropsAt (ht : Twins items p need words words' start)
    (h : Paired items p need words words' roof start m m' v last scopes)
    (hc : v.top.code = op :: rest) {i : Instruction} (hi : op.record = .instruction i)
    (hr : last.record.reloads op.record = true) :
    p.listing.DropsAt (Memory.index m.registers.pc) i := by
  obtain ⟨before, loads, hcode, hloads⟩ := h.trails (Op.stores_of_reloads hr)
  have hsplit : v.top.routine.code = (before ++ last :: loads) ++ v.top.code := by
    rw [hcode]
    simp
  obtain ⟨front, back, hl, hpos⟩ := ht.fits.split ht.wellFormed h.plain.sits.has hsplit
  obtain ⟨-, hend⟩ := ht.fits.placed_suffix ht.wellFormed h.plain.sits.has h.plain.sits.suffix
  have hle := ht.fits.codeEnd_le
  have hcap := ht.fits.le
  unfold programCapacity at hcap
  refine ⟨front ++ Op.listing before, last.record, Op.listing loads, Op.listing rest ++ back, ?_, ?_,
    hi ▸ hr, ?_⟩
  · rw [hl, hc, Op.listing_append, Op.listing_cons, Op.listing_cons, hi]
    simp
  · intro record hm
    obtain ⟨op', hop', rfl⟩ := List.mem_map.mp hm
    exact hloads op' hop'
  · rw [h.plain.pc, Memory.index_cellAddress (by unfold placeBound; omega), hpos, List.append_assoc,
      wordCount_append]
    unfold Op.words
    rw [Op.listing_append, Op.listing_cons]

/-- A redundant load that comes up reads a variable, not the device. -/
theorem Paired.reload_eq (ht : Twins items p need words words' start)
    (h : Paired items p need words words' roof start m m' v last scopes)
    (hc : v.top.code = op :: rest) (hr : last.record.reloads op.record = true) :
    ∃ x, last = .store x false ∧ op = .load x false := by
  obtain ⟨before, loads, hcode, -⟩ := h.trails (Op.stores_of_reloads hr)
  have hlast : last.Allowed p v.top.routine :=
    ht.wellFormed.allowed _ h.plain.sits.has h.plain.sits.small last (by rw [hcode]; simp)
  obtain ⟨x, indirect, rfl, rfl⟩ :=
    Op.eq_of_reloads h.plain.sits.small hlast (h.allowed ht hc) hr
  cases indirect with
  | false => exact ⟨x, rfl, rfl⟩
  | true =>
    have hdrops := h.dropsAt ht hc (show (Op.load x true).record = .instruction _ from rfl) hr
    have hquiet := ht.quiet m scopes _ h.tracks hdrops
    cases x with
    | cell tag => exact absurd rfl (hquiet .left .program)
    | slot n => exact absurd rfl (hquiet .left .frame)

/-- The plain machine has carried out a redundant load. -/
theorem Paired.reload (ht : Twins items p need words words' start) {x : Operand}
    (h : Paired items p need words words' roof start m m' v (.store x false) scopes)
    (hc : v.top.code = .load x false :: rest)
    (hr : (Op.store x false).record.reloads (Op.load x false).record = true) {m₁ : Machine D}
    (hplain : Represents p words roof m₁ { v with top := v.top.goto rest })
    (htracks : Tracks items p.listing start m₁ scopes) :
    Paired items p need words words' roof start m₁ m' { v with top := v.top.goto rest }
      (.store x false) scopes where
  plain := hplain
  reduced := by
    rw [View.reduce_reload hc hr]
    exact h.reduced
  settled := fun y hy => by
    have := h.settled y hy
    cases y <;> exact this
  trails := fun hstores => by
    obtain ⟨before, loads, hcode, hloads⟩ := h.trails hstores
    refine ⟨before, loads ++ [.load x false], ?_, ?_⟩
    · show v.top.routine.code = _
      rw [hcode, hc]
      simp
    · rw [List.forall_mem_append]
      exact ⟨hloads, by simpa using hr⟩
  flows := h.flows.becomes ht.wellFormed ht.flows h.plain.sits hc (.load x false v.left v.device)
  inScope := h.inScope.mono rfl fun _ _ hn => hn
  tracks := htracks

/-! ## Steps -/

variable (items p need words words' roof start) in
/-- The machines are at the same point of the program. -/
def Abreast (m m' : Machine D) : Prop :=
  ∃ v last scopes, Paired items p need words words' roof start m m' v last scopes

/-- Two machines have ended in the same way. -/
structure SameEnd (listing listing' : Listing) (names : List String) (m m' : Machine D) : Prop where
  result : m'.result? = m.result?
  device : m'.memory.device = m.memory.device
  globals : ∀ name ∈ names, m'.wordAt? listing' name = m.wordAt? listing name

variable (items p need words words' roof start) in
/-- Both machines carry out the same instruction. -/
inductive InStep (m m' : Machine D) : Prop where
  | next {m₁ m₁' : Machine D} : step m = .ok .running m₁ → step m' = .ok .running m₁' →
    Abreast items p need words words' roof start m₁ m₁' → InStep m m'
  | halt : step m = .ok .halted m.stopped → step m' = .ok .halted m'.stopped →
    SameEnd p.listing p.optimized.listing (p.globals.map Prod.fst) m.stopped m'.stopped → InStep m m'
  | fault {e : Fault} {m₁ m₁' : Machine D} : step m = .error e m₁ → step m' = .error e m₁' →
    InStep m m'

/-- When both have come to the last operation, they have the same value, data and device. -/
theorem Paired.sameEnd (ht : Twins items p need words words' start)
    (h : Paired items p need words words' roof start m m' v last scopes)
    (hc : v.top.code = .stop :: rest) (hbase : v.top.base = programCapacity)
    (hboot : v.top.routine = .boot) :
    SameEnd p.listing p.optimized.listing (p.globals.map Prod.fst) m.stopped m'.stopped := by
  have htop := h.flows.top
  rw [hc, hboot] at htop
  have hslot : v.top.slots 1 ≠ none := htop.1
  obtain ⟨w, hw⟩ := Option.ne_none_iff_exists'.mp hslot
  have hroof := h.plain.capacity_lt hbase hw
  have hcap : (2 ^ 16 : Int) ≤ roof := by
    unfold programCapacity at hroof
    omega
  refine ⟨?_, ?_, fun name hname => ?_⟩
  · rw [h.plain.result?_stopped hbase hw]
    exact h.reduced.result?_stopped hbase hw
  · rw [memory_stopped, memory_stopped, h.plain.device]
    exact h.reduced.device
  · have hdata : name ∈ p.data.map Prod.fst := Program.Fits.mem_data_of_mem_globals hname
    rw [wordAt?_stopped, wordAt?_stopped, h.plain.wordAt?_eq ht.fits hcap hdata]
    exact h.reduced.wordAt?_eq ht.fits' hcap hdata

/-- The plain machine carries out a load that the other one does not have, or both carry out the
same instruction. -/
theorem Paired.step (ht : Twins items p need words words' start)
    (h : Paired items p need words words' roof start m m' v last scopes)
    (hc : v.top.code = op :: rest) (htag : ∀ name, op ≠ .tag name) :
    (∃ m₁ v₁, Machine.step m = .ok .running m₁ ∧ v₁.top.code.length < v.top.code.length ∧
      Paired items p need words words' roof start m₁ m' v₁ last scopes) ∨
    InStep items p need words words' roof start m m' := by
  have hplain := h.plain.agrees_turn ht.wellFormed ht.fits
  have hrecord := h.plain.record?_eq ht.wellFormed ht.fits hc htag
  by_cases hr : last.record.reloads op.record = true
  · obtain ⟨x, rfl, rfl⟩ := h.reload_eq ht hc hr
    have hturn : v.turn p roof (Represents.stale m v) = .next { v with top := v.top.goto rest } :=
      View.turn_reload h.settled hc _
    rw [hturn] at hplain
    obtain ⟨m₁, hstep, hrep⟩ := hplain
    have htracks := Tracks.step h.tracks hrecord hstep
    have hafter : Scope.after (Item.functions items) scopes (Op.load x false).record = scopes := by
      cases x <;> rfl
    rw [hafter] at htracks
    exact .inl ⟨m₁, _, hstep, by simp [hc], h.reload ht hc hr hrep htracks⟩
  · have hkeep : last.record.reloads op.record = false := by simpa using hr
    have hreduced := h.reduced.agrees_turn ht.wellFormed.optimized ht.fits'
    rw [h.turn_eq ht hc hkeep] at hreduced
    refine .inr ?_
    by_cases hstop : op = .stop
    · subst hstop
      obtain ⟨hstep, hboot, hbase⟩ := h.plain.step_stop ht.wellFormed ht.fits hc
      rw [View.turn_cons hc] at hreduced
      exact .halt hstep hreduced.1 (h.sameEnd ht hc hbase hboot)
    · have hpointers (x : Operand) (hx : op.Follows x) :=
        ht.disciplined.isDeviceAddress ht.wellFormed ht.fits h.tracks h.plain hc hx
      rcases h.plain.turn_cases ht.wellFormed ht.fits hc htag hstop hpointers with
        ⟨v₁, hturn, -⟩ | ⟨e, hturn⟩
      · rw [hturn] at hplain hreduced
        obtain ⟨m₁, hstep, hrep⟩ := hplain
        obtain ⟨m₁', hstep', hrep'⟩ := hreduced
        exact .next hstep hstep' ⟨v₁, op, _, h.becomes ht hc (.inl hturn) hrep hrep'
          (.step h.tracks hrecord hstep)⟩
      · rw [hturn] at hplain hreduced
        obtain ⟨m₁, hstep⟩ := hplain
        obtain ⟨m₁', hstep'⟩ := hreduced
        exact .fault hstep hstep'

/-- After loads that the other one does not have, the plain machine is in step. -/
theorem Twins.catchUp (ht : Twins items p need words words' start)
    (h : Abreast items p need words words' roof start m m') :
    ∃ m₁, Steps m m₁ ∧ InStep items p need words words' roof start m₁ m' := by
  obtain ⟨v, last, scopes, h⟩ := h
  generalize hn : v.top.code.length = n
  induction n using Nat.strong_induction_on generalizing m v last with
  | _ n ih =>
    obtain ⟨v₁, last₁, op, rest, h₁, hc, htag, hle⟩ := h.settle ht
    rcases h₁.step ht hc htag with ⟨m₁, v₂, hstep, hlt, h₂⟩ | hin
    · obtain ⟨m₂, hsteps, hin⟩ := ih v₂.top.code.length (by omega) v₂ last₁ h₂ rfl
      exact ⟨m₂, .head hstep hsteps, hin⟩
    · exact ⟨m, .refl m, hin⟩

/-- The machine without redundant loads follows the plain one. -/
theorem Twins.steps (ht : Twins items p need words words' start)
    (h : Abreast items p need words words' roof start m m') {m₁ : Machine D} (hs : Steps m m₁) :
    ∃ m₁', Steps m' m₁' ∧ Abreast items p need words words' roof start m₁ m₁' := by
  induction hs generalizing m' with
  | refl m => exact ⟨m', .refl m', h⟩
  | head hstep _ ih =>
    obtain ⟨v, last, scopes, h⟩ := h
    obtain ⟨v₁, last₁, op, rest, h₁, hc, htag, -⟩ := h.settle ht
    rcases h₁.step ht hc htag with ⟨m₂, v₂, hstep₂, -, h₂⟩ | hin
    · rw [hstep] at hstep₂
      cases hstep₂
      exact ih ⟨v₂, last₁, scopes, h₂⟩
    · cases hin with
      | next hstep₂ hstep₂' h₂ =>
        rw [hstep] at hstep₂
        cases hstep₂
        obtain ⟨m₁', hs', h'⟩ := ih h₂
        exact ⟨m₁', .head hstep₂' hs', h'⟩
      | halt hstep₂ => rw [hstep] at hstep₂; cases hstep₂
      | fault hstep₂ => rw [hstep] at hstep₂; cases hstep₂

/-- The plain machine follows the one without redundant loads. -/
theorem Twins.steps_back (ht : Twins items p need words words' start)
    (h : Abreast items p need words words' roof start m m') {m₁' : Machine D} (hs : Steps m' m₁') :
    ∃ m₁, Steps m m₁ ∧ Abreast items p need words words' roof start m₁ m₁' := by
  induction hs generalizing m with
  | refl m' => exact ⟨m, .refl m, h⟩
  | head hstep' _ ih =>
    obtain ⟨m₁, hs₁, hin⟩ := ht.catchUp h
    cases hin with
    | next hstep₂ hstep₂' h₂ =>
      rw [hstep'] at hstep₂'
      cases hstep₂'
      obtain ⟨m₂, hs₂, h'⟩ := ih h₂
      exact ⟨m₂, hs₁.trans (.head hstep₂ hs₂), h'⟩
    | halt _ hstep₂' => rw [hstep'] at hstep₂'; cases hstep₂'
    | fault _ hstep₂' => rw [hstep'] at hstep₂'; cases hstep₂'

/-! ## Ends -/

/-- At its end, the plain machine is in step. -/
theorem Twins.inStep_of_end (ht : Twins items p need words words' start)
    (h : Abreast items p need words words' roof start m m')
    (hend : ∀ m₁, Machine.step m ≠ .ok .running m₁) :
    InStep items p need words words' roof start m m' := by
  obtain ⟨m₁, hs, hin⟩ := ht.catchUp h
  cases hs with
  | refl => exact hin
  | head hstep _ => exact absurd hstep (hend _)

variable (hpos : 0 < m.sliceSteps) (hpos' : 0 < m'.sliceSteps)
include hpos hpos'

theorem Twins.halts (ht : Twins items p need words words' start)
    (h : Abreast items p need words words' roof start m m') {last : Machine D} (hh : m.Halts last) :
    ∃ last', m'.Halts last' ∧
      SameEnd p.listing p.optimized.listing (p.globals.map Prod.fst) last last' := by
  obtain ⟨m₁, hs, hstep⟩ := (halts_iff hpos).mp hh
  obtain ⟨m₁', hs', h₁⟩ := ht.steps h hs
  cases ht.inStep_of_end h₁ (by simp [hstep]) with
  | next hstep₂ => rw [hstep] at hstep₂; cases hstep₂
  | halt hstep₂ hstep₂' hend =>
    rw [hstep] at hstep₂
    cases hstep₂
    exact ⟨_, (halts_iff hpos').mpr ⟨m₁', hs', hstep₂'⟩, hend⟩
  | fault hstep₂ => rw [hstep] at hstep₂; cases hstep₂

theorem Twins.halts_back (ht : Twins items p need words words' start)
    (h : Abreast items p need words words' roof start m m') {last' : Machine D}
    (hh : m'.Halts last') :
    ∃ last, m.Halts last ∧
      SameEnd p.listing p.optimized.listing (p.globals.map Prod.fst) last last' := by
  obtain ⟨m₁', hs', hstep'⟩ := (halts_iff hpos').mp hh
  obtain ⟨m₁, hs, h₁⟩ := ht.steps_back h hs'
  obtain ⟨m₂, hs₂, hin⟩ := ht.catchUp h₁
  cases hin with
  | next _ hstep₂' => rw [hstep'] at hstep₂'; cases hstep₂'
  | halt hstep₂ hstep₂' hend =>
    rw [hstep'] at hstep₂'
    cases hstep₂'
    exact ⟨_, (halts_iff hpos).mpr ⟨m₂, hs.trans hs₂, hstep₂⟩, hend⟩
  | fault _ hstep₂' => rw [hstep'] at hstep₂'; cases hstep₂'

theorem Twins.fails_iff (ht : Twins items p need words words' start)
    (h : Abreast items p need words words' roof start m m') (e : Fault) : m.Fails e ↔ m'.Fails e := by
  constructor
  · intro hh
    obtain ⟨m₁, m₂, hs, hstep⟩ := (Machine.fails_iff hpos).mp hh
    obtain ⟨m₁', hs', h₁⟩ := ht.steps h hs
    cases ht.inStep_of_end h₁ (by simp [hstep]) with
    | next hstep₂ => rw [hstep] at hstep₂; cases hstep₂
    | halt hstep₂ => rw [hstep] at hstep₂; cases hstep₂
    | fault hstep₂ hstep₂' =>
      rw [hstep] at hstep₂
      cases hstep₂
      exact (Machine.fails_iff hpos').mpr ⟨m₁', _, hs', hstep₂'⟩
  · intro hh
    obtain ⟨m₁', m₂', hs', hstep'⟩ := (Machine.fails_iff hpos').mp hh
    obtain ⟨m₁, hs, h₁⟩ := ht.steps_back h hs'
    obtain ⟨m₂, hs₂, hin⟩ := ht.catchUp h₁
    cases hin with
    | next _ hstep₂' => rw [hstep'] at hstep₂'; cases hstep₂'
    | halt _ hstep₂' => rw [hstep'] at hstep₂'; cases hstep₂'
    | fault hstep₂ hstep₂' =>
      rw [hstep'] at hstep₂'
      cases hstep₂'
      exact (Machine.fails_iff hpos).mpr ⟨m₂, _, hs.trans hs₂, hstep₂⟩

end

end WordLisp

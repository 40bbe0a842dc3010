import WordLisp.Proofs.Evaluator
import WordLisp.Proofs.Reload.Lockstep
import WordLisp.Proofs.View.Flows
import WordLisp.Proofs.View.Outcome

/-!
# Runs that keep to the rules of the language

A run is followed with a list of scopes, one for each call that has not ended, which say which
parameters and locals have been assigned since the call. `Machine.Disciplined` says of a run that it
reads no variable of a function before that, and that the pointers it goes through lead to the
device. Both are properties of a run of a machine, with the listing that its words come from at
hand to tell what the words stand for.

In such a run, a view knows everything that it reads (`Machine.Disciplined.knows`).
-/

namespace WordLisp

open Machine

/-! ## Definitions -/

def Record.isTag : Record → Bool
  | .tag _ => true
  | _ => false

/-- The record that becomes word `k`. -/
def Listing.recordAt? (l : Listing) (k : Nat) : Option Record := (l.filter (!·.isTag))[k]?

/-- The record that the machine is about to carry out. -/
def Machine.record? (m : Machine D) (listing : Listing) : Option Record :=
  listing.recordAt? (Memory.index m.registers.pc)

/-- The slots of the first `count` variables of a function. -/
def variableSlots (count : Nat) : List Word := (List.range count).map fun i => Int32.ofNat (i + 1)

/-- A call that has not ended. -/
structure Scope where
  function : Function
  /-- The slots that have been assigned since the call. -/
  assigned : List Word

/-- The parameters are assigned from the start. -/
def Scope.enter (f : Function) : Scope := ⟨f, variableSlots f.parameters.length⟩

/-- The scopes when a record has been carried out. -/
def Scope.after (functions : List Function) (scopes : List Scope) : Record → List Scope
  | .instruction (.addressed .call (.tag name)) =>
    ((functions.find? (·.name = name)).map Scope.enter).toList ++ scopes
  | .instruction (.nullary .ret) => scopes.tail
  | .instruction (.frame (.store _ _ false) offset) =>
    scopes.modifyHead fun s => { s with assigned := offset :: s.assigned }
  | _ => scopes

/-- The machine has come to `m` from `start`, without halting, with these scopes. -/
inductive Machine.Tracks [Device D] (items : List Item) (listing : Listing) (start : Machine D) :
    Machine D → List Scope → Prop where
  | start : Tracks items listing start start []
  | step {m m' : Machine D} {scopes : List Scope} {record : Record} :
    Tracks items listing start m scopes → m.record? listing = some record →
    Machine.step m = .ok .running m' →
    Tracks items listing start m' (Scope.after (Item.functions items) scopes record)

/-- The slot of the frame that the record reads. -/
def Record.slotRead? : Record → Option Word
  | .instruction (.frame (.load _ _ _) offset) => some offset
  | .instruction (.frame (.store _ _ true) offset) => some offset
  | _ => none

/-- The pointer that the record goes through. -/
def Machine.pointer? (m : Machine D) (listing : Listing) : Record → Option Word
  | .instruction (.frame (.load _ _ true) offset)
  | .instruction (.frame (.store _ _ true) offset) => m.memory.peek? (m.registers.frameBase + offset)
  | .instruction (.addressed (.load _ _ true) (.tag name))
  | .instruction (.addressed (.store _ _ true) (.tag name)) => m.wordAt? listing name
  | _ => none

/-- No variable of a function is read before it has been assigned in that call, and every pointer
leads to the device. -/
structure Machine.Disciplined [Device D] (items : List Item) (listing : Listing) (start : Machine D) :
    Prop where
  assigned : ∀ m scopes record offset, Tracks items listing start m scopes →
    m.record? listing = some record → record.slotRead? = some offset →
    ∀ s ∈ scopes.head?, offset ∈ variableSlots s.function.scope.length → offset ∈ s.assigned
  pointers : ∀ m scopes record pointer, Tracks items listing start m scopes →
    m.record? listing = some record → m.pointer? listing record = some pointer →
    IsDeviceAddress pointer

/-! ## Records of operations -/

section
variable {p : Program} {words : List Word} {roof : Int} {m : Machine D} {v : View D} {op : Op}
  {rest : List Op}

theorem Listing.wordCount_eq (l : Listing) : wordCount l = (l.filter (!·.isTag)).length := by
  induction l with
  | nil => rfl
  | cons record l ih => cases record <;> simp [wordCount, Record.isTag, ih]

theorem Listing.recordAt?_append (before after : Listing) {record : Record}
    (h : record.isTag = false) :
    (before ++ record :: after).recordAt? (wordCount before) = some record := by
  unfold recordAt?
  rw [List.filter_append, List.filter_cons_of_pos (by simp [h]), wordCount_eq,
    List.getElem?_append_right le_rfl, Nat.sub_self]
  rfl

theorem Op.isTag_record (h : ∀ name, op ≠ .tag name) : op.record.isTag = false := by
  obtain ⟨i, hi⟩ := Op.record_of_ne_tag h
  rw [hi]
  rfl

/-- A machine is in front of the operation that its view is in front of. -/
theorem Represents.record?_eq (hw : p.WellFormed) (hf : p.Fits words)
    (h : Represents p words roof m v) (hc : v.top.code = op :: rest) (hne : ∀ name, op ≠ .tag name) :
    m.record? p.listing = some op.record := by
  obtain ⟨ops, hops⟩ := h.sits.suffix
  obtain ⟨before, after, hl, hpos⟩ := hf.split hw h.sits.has hops.symm
  obtain ⟨-, hend⟩ := hf.placed_suffix hw h.sits.has h.sits.suffix
  have hle := hf.codeEnd_le
  have hcap := hf.le
  unfold programCapacity at hcap
  unfold Machine.record?
  rw [h.pc, Memory.index_cellAddress (by unfold placeBound; omega), hl, hpos, hc, ← List.append_assoc]
  have := Listing.recordAt?_append (before ++ Op.listing ops) (Op.listing rest ++ after)
    (Op.isTag_record hne)
  rw [Listing.wordCount_append] at this
  exact this

end

/-! ## Scopes and activations -/

/-- The activation is that of the scope: it has the same variables, and knows those that have been
assigned. -/
structure Activation.In (a : Activation) (s : Scope) : Prop where
  names : a.routine.frame.names = s.function.scope
  known : ∀ i < s.function.scope.length, Int32.ofNat (i + 1) ∈ s.assigned → a.slots (i + 1) ≠ none

/-- Every activation has its scope, except for the start of the program. -/
def Scoped : List Activation → List Scope → Prop
  | [], _ => False
  | a :: as, s :: scopes => a.In s ∧ Scoped as scopes
  | a :: as, [] => a.routine = .boot ∧ as = []

theorem Activation.In.mono {a a' : Activation} {s : Scope} (h : a.In s)
    (hr : a'.routine = a.routine)
    (hs : ∀ n < a.routine.frame.tempStart, a.slots n ≠ none → a'.slots n ≠ none) : a'.In s := by
  refine ⟨by rw [hr]; exact h.names, fun i hi hm => hs _ ?_ (h.known i hi hm)⟩
  unfold Frame.tempStart
  rw [h.names]
  omega

theorem Scoped.mono {a a' : Activation} {below : List Activation} {scopes : List Scope}
    (h : Scoped (a :: below) scopes) (hr : a'.routine = a.routine)
    (hs : ∀ n < a.routine.frame.tempStart, a.slots n ≠ none → a'.slots n ≠ none) :
    Scoped (a' :: below) scopes := by
  cases scopes with
  | nil => exact ⟨hr.trans h.1, h.2⟩
  | cons s scopes => exact ⟨h.1.mono hr hs, h.2⟩

/-- Something has been assigned, which the activation now knows if it is a variable. -/
theorem Scoped.assign {a a' : Activation} {below : List Activation} {scopes : List Scope}
    {offset : Word} (h : Scoped (a :: below) scopes) (hr : a'.routine = a.routine)
    (hs : ∀ n < a.routine.frame.tempStart, a.slots n ≠ none → a'.slots n ≠ none)
    (ho : ∀ n < a.routine.frame.tempStart, Int32.ofNat n = offset → a'.slots n ≠ none) :
    Scoped (a' :: below)
      (scopes.modifyHead fun s => { s with assigned := offset :: s.assigned }) := by
  cases scopes with
  | nil => exact h.mono hr hs
  | cons s scopes =>
    refine ⟨⟨by rw [hr]; exact h.1.names, fun i hi hm => ?_⟩, h.2⟩
    have hlt : i + 1 < a.routine.frame.tempStart := by
      have hi : i < s.function.scope.length := hi
      unfold Frame.tempStart
      rw [h.1.names]
      omega
    rcases List.mem_cons.mp hm with hm | hm
    · exact ho _ hlt hm
    · exact hs _ hlt (h.1.known i hi hm)

theorem mem_variableSlots {n count : Nat} (h : 1 ≤ n) (hn : n ≤ count) :
    Int32.ofNat n ∈ variableSlots count :=
  List.mem_map.mpr ⟨n - 1, List.mem_range.mpr (by omega), by rw [Nat.sub_add_cancel h]⟩

theorem lt_of_mem_variableSlots {i count : Nat} (hi : i < 2 ^ 30) (hcount : count < 2 ^ 30)
    (h : Int32.ofNat (i + 1) ∈ variableSlots count) : i < count := by
  obtain ⟨j, hj, he⟩ := List.mem_map.mp h
  have := List.mem_range.mp hj
  have := ofNat_inj (by omega) (by omega) he
  omega

section
variable {items : List Item} {pool : SymbolPool} {p : Program} {env : Resources} {words : List Word}

/-- A routine that is found by its name is that of the function found by this name. -/
theorem IsCompiled.function_of_find? (hc : IsCompiled items pool p env) (hf : p.Fits words)
    {name : String} {r : Routine} (h : p.find? name = some r) :
    ∃ f, (Item.functions items).find? (·.name = name) = some f ∧ IsRoutine env f r := by
  have hn : r.name = some name := by simpa using List.find?_some h
  obtain ⟨f, hmem, hfr⟩ := hc.function_of_mem (List.mem_of_find?_eq_some h)
  have hname : f.name = name := by
    obtain ⟨n, -, hfn, -⟩ := hfr
    exact Option.some.inj (hfn.symm.trans hn)
  have hsome : ((Item.functions items).find? (·.name = name)).isSome :=
    List.find?_isSome.mpr ⟨f, hmem, by simpa using hname⟩
  obtain ⟨g, hg⟩ := Option.isSome_iff_exists.mp hsome
  obtain ⟨r', hr', hgr⟩ := hc.routine_of_mem (List.mem_of_find?_eq_some hg)
  have hgn : g.name = name := by simpa using List.find?_some hg
  have hr'n : r'.name = some name := by
    obtain ⟨n, -, hn', -⟩ := id hgr
    rw [hn', hgn]
  rw [hf.find?_eq hr' hr'n] at h
  cases h
  exact ⟨g, hg, hgr⟩

/-- The scope of a routine that has just been called. -/
theorem IsRoutine.in_enter {f : Function} {r : Routine} (hfr : IsRoutine env f r) (hsmall : r.Small)
    {a : Activation} (hargs : ∀ i < r.arity, a.slots (a.routine.frame.size + 1 + i) ≠ none) :
    (a.enter r).In (Scope.enter f) := by
  obtain ⟨n, halloc, -, harity, -, -⟩ := hfr
  have hnames : r.frame.names = f.scope := (Frame.allocate_eq halloc).1
  have hlen : f.scope.length < 2 ^ 18 := by
    unfold Routine.Small Frame.size Frame.returnSlot Frame.tempStart at hsmall
    rw [hnames] at hsmall
    omega
  have hparams : f.parameters.length ≤ f.scope.length := by
    unfold Function.scope
    rw [List.length_append]
    omega
  refine ⟨hnames, fun i hi hm => ?_⟩
  have hi : i < f.scope.length := hi
  have hlt : i < f.parameters.length := lt_of_mem_variableSlots (by omega) (by omega) hm
  show (if 1 ≤ i + 1 ∧ i + 1 ≤ r.arity then _ else _) ≠ none
  rw [if_pos ⟨by omega, by omega⟩, show a.routine.frame.size + (i + 1) = a.routine.frame.size + 1 + i by omega]
  exact hargs i (by omega)

/-- An operation keeps that every activation has its scope. -/
theorem Scoped.becomes (hc : IsCompiled items pool p env) (hw : p.WellFormed) (hf : p.Fits words)
    {need : Routine → String → Nat} {v v' : View D} {op : Op} {rest : List Op} {scopes : List Scope}
    (hs : v.top.Sits p) (hflows : v.Flows p need) (hcode : v.top.code = op :: rest)
    (h : Scoped (v.top :: v.below) scopes) (hv : View.Becomes p v rest op v') :
    Scoped (v'.top :: v'.below) (Scope.after (Item.functions items) scopes op.record) := by
  have ha := hw.allowed _ hs.has hs.small op (Represents.mem_code hs hcode)
  have hsmall := hs.small
  unfold Routine.Small Frame.size Frame.returnSlot at hsmall
  have hsame {a : Activation} (hr : a.routine = v.top.routine) (hslots : a.slots = v.top.slots) :
      Scoped (a :: v.below) scopes := h.mono hr fun n _ hn => by rwa [hslots]
  cases hv with
  | tag name | storeCell tag data | unary operator left | binary operator left | swap left right
  | fall name | branch name | jump name => exact hsame rfl rfl
  | load x indirect left device => cases x <;> exact hsame rfl rfl
  | storeDevice x device => cases x <;> exact hsame rfl rfl
  | storeSlot n =>
    have hput (k : Nat) (hk : k = n ∨ v.top.slots k ≠ none) :
        ((v.top.goto rest).put n v.left).slots k ≠ none :=
      (v.top.goto rest).slots_put_ne_none v.left hk
    refine h.assign rfl (fun k _ hk => hput k (.inr hk)) fun k hk he => hput k (.inl ?_)
    have hn : n < 2 ^ 19 := by
      rcases ha with ⟨-, hn⟩ | ⟨-, hn⟩
      · unfold Frame.returnSlot at hn
        omega
      · exact hn
    exact ofNat_inj (by omega) (by omega) he
  | yield b below hb =>
    rw [hb] at h
    have hbelow : Scoped (v.top.goto rest :: b.put b.routine.frame.returnSlot v.left :: below) scopes := by
      cases scopes with
      | nil => cases h.2
      | cons s scopes =>
        refine ⟨h.1.mono rfl fun _ _ hn => hn, h.2.mono rfl fun n _ hn =>
          b.slots_put_ne_none v.left (.inr hn)⟩
    refine hbelow.assign rfl (fun _ _ hn => hn) fun k hk he => ?_
    have hk : k < v.top.routine.frame.tempStart := hk
    have := congrArg Int32.toInt he
    rw [Int32.toInt_ofNat_of_lt (by omega)] at this
    have hneg : (-2 : Int32).toInt = -2 := by decide
    omega
  | call name r hr =>
    obtain ⟨f, hfind, hfr⟩ := hc.function_of_find? hf hr
    have htop := hflows.top
    rw [hcode] at htop
    have hrs : r.Small := by
      obtain ⟨r', hr', hn', hsmall'⟩ := ha
      rw [hf.find?_eq hr' hn'] at hr
      cases hr
      exact hsmall'
    have harity : p.arity name = r.arity := by
      unfold Program.arity
      rw [hr]
      rfl
    show Scoped _ ((((Item.functions items).find? (·.name = name)).map Scope.enter).toList ++ scopes)
    rw [hfind]
    refine ⟨hfr.in_enter hrs fun i hi => htop.1 i (by rwa [harity]), h.mono rfl fun n hn hk => ?_⟩
    have hlt : n < v.top.routine.frame.returnSlot := by unfold Frame.returnSlot; omega
    rwa [Activation.slots_forget_of_lt (a := v.top.goto rest) hlt]
  | ret b below hb =>
    rw [hb] at h
    cases scopes with
    | nil => cases h.2
    | cons s scopes => exact h.2

end

/-! ## What a disciplined run knows -/

section
variable [Device D] {items : List Item} {p : Program} {words : List Word} {roof : Int}
  {m start : Machine D} {v : View D} {op : Op} {rest : List Op} {scopes : List Scope}
  {need : Routine → String → Nat} {x : Operand}

theorem Op.Reads.slotRead? {n : Nat} (h : op.Reads (.slot n)) :
    op.record.slotRead? = some (Int32.ofNat n) := by
  rcases h with ⟨indirect, rfl⟩ | rfl <;> rfl

theorem Op.Reads.flows {frame : Frame} {arity tags : String → Nat} {known : Spot → Prop} {n : Nat}
    (h : op.Reads (.slot n)) (hf : Op.Flows frame arity tags known (op :: rest)) :
    n < frame.tempStart ∨ known (.slot n) := by
  rcases h with ⟨indirect, rfl⟩ | rfl <;> exact hf.1

/-- A disciplined run knows what it reads: variables because they have been assigned, and all other
slots because the code sees to it. -/
theorem Machine.Disciplined.knows (hd : start.Disciplined items p.listing) (hw : p.WellFormed)
    (hf : p.Fits words) (ht : Tracks items p.listing start m scopes)
    (h : Represents p words roof m v) (hflows : v.Flows p need)
    (hs : Scoped (v.top :: v.below) scopes) (hc : v.top.code = op :: rest) (hx : op.Reads x) :
    v.Knows x := by
  cases x with
  | cell tag => trivial
  | slot n =>
    have hmem := Represents.mem_code h.sits hc
    have hr : 1 ≤ n ∧ _ := hx.readable (hw.allowed _ h.sits.has h.sits.small op hmem)
    have htop := hflows.top
    rw [hc] at htop
    rcases hx.flows htop with hlt | hknown
    · cases scopes with
      | nil =>
        rw [hs.1] at hmem
        rcases hx with ⟨indirect, rfl⟩ | rfl <;> simp [Routine.boot] at hmem
      | cons s scopes =>
        have hn : n ≤ s.function.scope.length := by
          unfold Frame.tempStart at hlt
          rw [hs.1.names] at hlt
          omega
        have := hd.assigned m _ _ _ ht (h.record?_eq hw hf hc hx.ne_tag) hx.slotRead? s rfl
          (mem_variableSlots hr.1 hn)
        have hk := hs.1.known (n - 1) (by omega) (by rwa [Nat.sub_add_cancel hr.1])
        rwa [Nat.sub_add_cancel hr.1] at hk
    · exact hknown

omit [Device D] in
/-- The pointer that a machine goes through is the content of the operand. -/
theorem Represents.pointer?_eq (hw : p.WellFormed) (hf : p.Fits words)
    (h : Represents p words roof m v) (hc : v.top.code = op :: rest) (hx : op.Follows x) :
    m.pointer? p.listing op.record = some (v.value (Represents.stale m v) x) := by
  have hr := hx.reads.readable (hw.allowed _ h.sits.has h.sits.small op (Represents.mem_code h.sits hc))
  obtain ⟨b, below, -, hl, hlinked⟩ := h.link_of_ne hc
    (by rcases hx with rfl | rfl <;> simp) (by rcases hx with rfl | rfl <;> simp)
  have hfits := hl.fits
  have hbase := hl.base
  have hcap := hlinked.capacity_le
  unfold programCapacity at hcap
  unfold Activation.top Frame.size at hbase hfits
  cases x with
  | cell tag =>
    have hroof : (2 ^ 16 : Int) ≤ roof := by
      rw [← h.roof]
      omega
    have hword := h.wordAt?_eq hf hroof hr
    rcases hx with rfl | rfl <;> exact hword
  | slot n =>
    have hr : 1 ≤ n ∧ n ≤ v.top.routine.frame.returnSlot := hr
    have hpeek : m.memory.peek? (m.registers.frameBase + Int32.ofNat n) =
        some (v.value (Represents.stale m v) (.slot n)) := by
      rw [h.frameBase, ← cellAddress_add, Memory.peek?_cell (by omega), h.cell_slot]
    rcases hx with rfl | rfl <;> exact hpeek

/-- The pointers of a disciplined run lead to the device. -/
theorem Machine.Disciplined.isDeviceAddress (hd : start.Disciplined items p.listing)
    (hw : p.WellFormed) (hf : p.Fits words) (ht : Tracks items p.listing start m scopes)
    (h : Represents p words roof m v) (hc : v.top.code = op :: rest) (hx : op.Follows x) :
    IsDeviceAddress (v.value (Represents.stale m v) x) :=
  hd.pointers m scopes op.record _ ht (h.record?_eq hw hf hc hx.reads.ne_tag)
    (h.pointer?_eq hw hf hc hx)

end

end WordLisp

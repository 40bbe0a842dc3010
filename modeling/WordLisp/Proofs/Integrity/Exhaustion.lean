import WordLisp.Machine.Terminal
import WordLisp.Proofs.Code.Slots
import WordLisp.Proofs.Integrity.Frames
import WordLisp.Proofs.Reload.Survey

/-!
# Running out of stack

A program that uses no pointers can only fail for want of stack. It may do so in two places. A call
finds no room for the frame of the function, which is a stack overflow. Or, before the call, an
argument is stored into the frame that the function is about to get, and that place does not exist,
which is an access out of bounds. `Machine.LacksRoom` describes the second.

Main statement: there is no third place, and wherever an argument does not fit, the call behind it
would have overflown the stack.
-/

namespace WordLisp

open Machine

/-! ## Stores above the frame -/

/-- If the operation stores into a slot above the frame, it puts an argument of one of the
expressions there. -/
def Op.Passes (frame : Frame) (es : List Expr) (op : Op) : Prop :=
  ∀ n, op = .store (.slot n) false → frame.size < n →
    ∃ name arguments i, .apply name arguments ∈ es ∧ i < arguments.length ∧
      n = frame.argumentSlot i

theorem Op.Within.passes {frame : Frame} {low : Nat} {es : List Expr} {op : Op}
    (h : op.Within frame low frame.returnSlot
      fun n => ∃ name arguments, .apply name arguments ∈ es ∧ arguments.length = n) :
    op.Passes frame es := by
  intro n hn hlt
  have hsize : frame.names.length < frame.returnSlot ∧ frame.returnSlot < frame.size := by
    unfold Frame.size Frame.returnSlot Frame.tempStart
    omega
  cases h.store n false hn with
  | named _ hle => omega
  | store _ hhigh => omega
  | argument hpass hi =>
    obtain ⟨name, arguments, hm, rfl⟩ := hpass
    exact ⟨name, arguments, _, hm, hi, rfl⟩

/-- What a routine stores above its frame are arguments of applications in its function. -/
theorem IsRoutine.passes {env : Resources} {f : Function} {r : Routine} (h : IsRoutine env f r) :
    ∀ op ∈ r.code, op.Passes r.frame (Expr.rowParts f.body) := by
  obtain ⟨n, hframe, -, -, hcode, -⟩ := h
  have hfits : r.frame.tempStart + Expr.rowTemporaries f.body ≤ r.frame.returnSlot :=
    (Frame.allocate_eq hframe).2 ▸ le_refl _
  have hrow : ∀ op ∈ Expr.rowCode r.frame r.frame.tempStart n f.body,
      op.Passes r.frame (Expr.rowParts f.body) := fun op hop =>
    Op.Within.passes (Expr.within_rowCode r.frame _ n (le_refl _) f.body hfits
      (fun name arguments hm => ⟨name, arguments, hm, rfl⟩) op hop)
  rw [hcode]
  simp only [Function.code, List.forall_mem_append, List.forall_mem_cons]
  refine ⟨hrow, fun _ h => ?_, fun _ h => ?_, List.forall_mem_nil _⟩ <;> cases h

/-- An application in a function is one of a function with as many parameters. -/
theorem IsCompiled.callee {items : List Item} {pool : SymbolPool} {p : Program} {env : Resources}
    (hc : IsCompiled items pool p env) {f : Function} {r : Routine} (hr : IsRoutine env f r)
    {name : String} {arguments : List Expr} (hm : .apply name arguments ∈ Expr.rowParts f.body) :
    ∃ g ∈ Item.functions items, ∃ frame, g.name = name ∧ Frame.allocate g = .ok frame ∧
      arguments.length ≤ frame.names.length := by
  obtain ⟨n, -, -, -, -, hres⟩ := hr
  obtain ⟨hlookup, -⟩ := hres.of_mem_rowParts hm
  obtain ⟨g, hg, hname, hlength⟩ := hc.arities name _ hlookup
  obtain ⟨r', -, n', hframe, -⟩ := hc.routine_of_mem hg
  refine ⟨g, hg, r'.frame, hname, hframe, ?_⟩
  rw [(Frame.allocate_eq hframe).1, List.length_append]
  omega

/-! ## Faults -/

section
variable [Device D] {p : Program} {roof : Int} {stale : Nat → Word} {v : View D} {op : Op}
  {rest : List Op} {e : Fault}

/-- A turn faults in two ways. -/
theorem View.fault_cases (hc : v.top.code = op :: rest) (ht : v.turn p roof stale = .fault e) :
    (∃ n, op = .store (.slot n) false ∧ roof ≤ v.top.base + n ∧
      e = .outOfBounds (cellAddress (v.top.base + n))) ∨
    ∃ name r, op = .call name ∧ p.find? name = some r ∧
      (roof ≤ v.top.top ∨ roof < (v.top.top + r.frame.size : Int)) ∧
      e = .stackOverflow (2 ^ 23 + v.top.top + r.frame.size) := by
  rw [View.turn_cons hc] at ht
  cases op with
  | store x indirect =>
    cases indirect with
    | true =>
      simp only [View.exec, View.store] at ht
      split at ht <;> cases ht
    | false =>
      cases x with
      | cell tag => cases ht
      | slot n =>
        simp only [View.exec, View.store] at ht
        split at ht
        · cases ht
        · next hge =>
          cases ht
          exact .inl ⟨n, rfl, not_lt.mp hge, rfl⟩
  | call name =>
    simp only [View.exec, View.call] at ht
    split at ht
    · cases ht
    · next r hr =>
      split at ht
      · next hover =>
        cases ht
        exact .inr ⟨name, r, rfl, hr, hover, rfl⟩
      · cases ht
  | load x indirect =>
    cases indirect with
    | false => cases ht
    | true =>
      simp only [View.exec, View.load] at ht
      split at ht <;> cases ht
  | yield | ret =>
    simp only [View.exec] at ht
    split at ht <;> cases ht
  | branch tag =>
    simp only [View.exec] at ht
    split at ht <;> cases ht
  | _ => cases ht

end

/-- The machine is in a function that puts argument `i` of an application into the frame that the
applied function is about to get. The argument does not fit into the memory, and no more would the
frame. -/
def Machine.LacksRoom (items : List Item) (m : Machine D) (address : Word) : Prop :=
  ∃ f ∈ Item.functions items, ∃ frame, Frame.allocate f = .ok frame ∧
    m.registers.stackTop.toInt = m.registers.frameBase.toInt + frame.size ∧
    ∃ g ∈ Item.functions items, ∃ frame', Frame.allocate g = .ok frame' ∧
      ∃ arguments i, .apply g.name arguments ∈ Expr.rowParts f.body ∧ i < arguments.length ∧
        address = m.registers.frameBase + Int32.ofNat (frame.argumentSlot i) ∧
        m.memory.limit.toInt ≤ m.registers.frameBase.toInt + frame.argumentSlot i ∧
        m.memory.limit.toInt < m.registers.stackTop.toInt + frame'.size

section
variable [Device D] {p : Program} {words : List Word} {roof : Int} {m : Machine D} {v : View D}
  {op : Op} {rest : List Op} {items : List Item} {pool : SymbolPool} {env : Resources}

omit [Device D] in
theorem Represents.limit_eq (h : Represents p words roof m v) :
    m.memory.limit.toInt = 2 ^ 23 + roof := by
  rw [Memory.toInt_limit, h.roof]

omit [Device D] in
/-- A store that is out of bounds is that of an argument. -/
theorem Represents.lacksRoom (hc : IsCompiled items pool p env) (hw : p.optimized.WellFormed)
    (h : Represents p.optimized words roof m v) {n : Nat}
    (hcode : v.top.code = .store (.slot n) false :: rest) (hge : roof ≤ v.top.base + n) :
    m.LacksRoom items (cellAddress (v.top.base + n)) := by
  obtain ⟨b, below, -, hlink, -⟩ := h.link_of_ne hcode (by simp) (by simp)
  have hmem := Represents.mem_code h.sits hcode
  have hfits := hlink.fits
  rw [h.roof] at hfits
  have hbound := h.linked.top_lt
  have htop : v.top.top = v.top.base + v.top.routine.frame.size := rfl
  obtain ⟨r, hr, hopt⟩ := List.mem_map.mp hlink.routine
  obtain ⟨f, hf, hfr⟩ := hc.function_of_mem hr
  have hframe : v.top.routine.frame = r.frame := by rw [← hopt]; rfl
  have hmem' : .store (.slot n) false ∈ r.code := by
    rw [← hopt] at hmem
    exact (Op.dropReloadsAfter_sublist _ _).subset hmem
  have habove : r.frame.size < n := by
    rcases hw.allowed _ h.sits.has h.sits.small _ hmem with hin | hout
    · have : v.top.routine.frame.size = v.top.routine.frame.returnSlot + 2 := rfl
      omega
    · rw [← hframe]
      exact hout.1
  obtain ⟨name, arguments, i, hm, hi, rfl⟩ := hfr.passes _ hmem' n rfl habove
  obtain ⟨g, hg, frame', rfl, hg', hlength⟩ := hc.callee hfr hm
  have hbase := toInt_cellAddress (i := v.top.base) (by omega)
  have hst := toInt_cellAddress hbound
  have hlimit := h.limit_eq
  obtain ⟨k, halloc, -⟩ := hfr
  refine ⟨f, hf, r.frame, halloc, ?_, g, hg, frame', hg', arguments, i, hm, hi, ?_, ?_, ?_⟩
  · rw [h.frameBase, h.stackTop, hbase, hst, htop, hframe]
    push_cast
    ring
  · rw [h.frameBase]
    exact cellAddress_add _ _
  · rw [h.frameBase, hbase, hlimit]
    omega
  · rw [h.stackTop, hst, hlimit, htop, hframe]
    unfold Frame.argumentSlot at hge
    unfold Frame.size Frame.returnSlot Frame.tempStart at *
    omega

/-- A step that fails finds no room for a frame, or none for an argument. -/
theorem Represents.fault_cases (hc : IsCompiled items pool p env) (hw : p.optimized.WellFormed)
    (hf : p.optimized.Fits words) (hd : p.optimized.Direct)
    (h : Represents p.optimized words roof m v) (hcode : v.top.code = op :: rest)
    (htag : ∀ name, op ≠ .tag name) {e : Fault} {m' : Machine D} (hstep : step m = .error e m') :
    (∃ top, e = .stackOverflow top ∧ m.memory.limit.toInt < top) ∨
      ∃ address, e = .outOfBounds address ∧ m.LacksRoom items address := by
  have hstop : op ≠ .stop := by
    rintro rfl
    rw [(h.step_stop hw hf hcode).1] at hstep
    cases hstep
  have ha := h.agrees_turn hw hf
  rcases h.turn_cases hw hf hcode htag hstop (fun x hx => absurd hx (h.not_follows hd hcode x)) with
    ⟨v', hturn, -⟩ | ⟨e', hturn⟩
  · rw [hturn] at ha
    obtain ⟨m'', hnext, -⟩ := ha
    rw [hnext] at hstep
    cases hstep
  · rw [hturn] at ha
    obtain ⟨m'', hfault⟩ := ha
    rw [hfault] at hstep
    cases hstep
    rcases View.fault_cases hcode hturn with ⟨n, rfl, hge, rfl⟩ | ⟨name, r, -, -, hover, rfl⟩
    · exact .inr ⟨_, rfl, h.lacksRoom hc hw hcode hge⟩
    · have hsize : r.frame.size = r.frame.returnSlot + 2 := rfl
      refine .inl ⟨_, rfl, ?_⟩
      rw [h.limit_eq]
      omega

end

/-! ## The end of a run -/

/-- A source text that goes through no pointers fails only if there is too little stack: a call
finds no room for a frame, or the argument of one is to be put past the end of the memory. -/
theorem fails_for_want_of_stack [Device D] {source : String} {items : List Item} {words : List Word}
    {config : Config} {device : D} {m₀ : Machine D} {e : Fault}
    (hparse : Item.parse source = .ok items)
    (hdirect : ∀ f ∈ Item.functions items, f.ReadsDirectly ∧ f.WritesDirectly)
    (hbuild : build source = .ok words)
    (hload : (Machine.new device config).load words = .ok () m₀) (hfails : m₀.Fails e) :
    ∃ m m', Steps m₀ m ∧ step m = .error e m' ∧
      ((∃ top, e = .stackOverflow top ∧ m.memory.limit.toInt < top) ∨
        ∃ address, e = .outOfBounds address ∧ m.LacksRoom items address) := by
  obtain ⟨listing, hcompile, hassemble⟩ := compile_of_build hbuild
  obtain ⟨items', pool, p, env, hparse', hc, rfl⟩ := isCompiled_of_compile hcompile
  obtain rfl : items' = items := Except.ok.inj (hparse'.symm.trans hparse)
  have hf := Program.fits_of_assemble hassemble (length_le_of_load hload)
  have hw := (hc.wellFormed_of_optimized hf).optimized
  have hd := (hc.direct hdirect).optimized
  obtain ⟨hslice, hstart⟩ := represents_of_load hf hload
  obtain ⟨m, m', hsteps, hstep⟩ := (fails_iff (by rw [hslice]; exact sliceSteps_new_pos ..)).mp hfails
  refine ⟨m, m', hsteps, hstep, ?_⟩
  rcases hstart.of_reaches hw hf hd ((Reaches.refl m₀).steps hsteps) with
    ⟨v, op, rest, h, -, hcode, htag⟩ | ⟨m₁, v, -, -, -, -, rfl⟩
  · exact h.fault_cases hc hw hf hd hcode htag hstep
  · rw [step_of_halted m₁.status_stopped] at hstep
    cases hstep

/-! ## A recursion without end -/

/-- The fault that a program comes to, if it reads nothing before that from a slot that is not
known. -/
def View.fault? [Device D] (p : Program) (roof : Int) : (fuel : Nat) → View D → Option Fault
  | 0, _ => none
  | fuel + 1, v =>
    match v.top.code with
    | [] => none
    | op :: _ =>
      if v.Minds [] op.operand? then
        match v.turn p roof fun _ => 0 with
        | .skip v' | .next v' => v'.fault? p roof fuel
        | .fault e => some e
        | .halt _ | .astray => none
      else none

section
variable [Device D] {p : Program} {words : List Word} {roof : Int} {v : View D} {fuel : Nat}
  {e : Fault}

theorem View.reaches_of_fault? (h : v.fault? p roof fuel = some e) :
    ∃ v', v.Reaches p roof v' ∧ ∀ stale, v'.turn p roof stale = .fault e := by
  induction fuel generalizing v with
  | zero => cases h
  | succ fuel ih =>
    cases hc : v.top.code with
    | nil => simp [View.fault?, hc] at h
    | cons op rest =>
      simp only [View.fault?, hc] at h
      split at h
      · next hminds =>
        have hcongr : ∀ stale, v.turn p roof stale = v.turn p roof fun _ => 0 := fun stale =>
          View.turn_congr hc (fun x hx => hminds.knows hx) stale _
        split at h
        · next v₁ ht =>
          obtain ⟨v', hr, hfault⟩ := ih h
          exact ⟨v', .skip (fun stale => (hcongr stale).trans ht) hr, hfault⟩
        · next v₁ ht =>
          obtain ⟨v', hr, hfault⟩ := ih h
          exact ⟨v', .next (fun stale => (hcongr stale).trans ht) hr, hfault⟩
        · next e' ht =>
          cases h
          exact ⟨v, .refl v, fun stale => (hcongr stale).trans ht⟩
        all_goals cases h
      · cases h

/-- A program that comes to a fault on its view is loaded and fails. -/
theorem Program.Fits.fails_of_fault? (hw : p.WellFormed) (hf : p.Fits words) {device : D}
    (config : Config) (hstack : config.stackWords + 2 ^ 16 < placeBound)
    (h : (View.start p device).fault? p (2 ^ 16 + config.stackWords) fuel = some e) :
    ∃ m, (Machine.new device config).load words = .ok () m ∧ m.Fails e := by
  obtain ⟨m, hload, hslice, hrep⟩ := represents_start hf (Machine.new device config)
  rw [show (Machine.new device config).memory.roof = 2 ^ 16 + config.stackWords from
    Memory.roof_new device hstack] at hrep
  obtain ⟨v, hreach, hfault⟩ := View.reaches_of_fault? h
  obtain ⟨m₁, hsteps, hrep₁⟩ := hrep.reaches hw hf hreach
  have ha := hrep₁.agrees_turn hw hf
  rw [hfault] at ha
  obtain ⟨m', hstep⟩ := ha
  have hpos : 0 < m.sliceSteps := by
    rw [hslice]
    exact sliceSteps_new_pos ..
  exact ⟨m, hload, (fails_iff hpos).mpr ⟨m₁, m', hsteps, hstep⟩⟩

end

/-- A function that calls itself without end. -/
def foreverSource : String := "(FUNC forever (n) (forever (+ n 1))) (FUNC main () (forever 0))"

def foreverItems : List Item :=
  [.function ⟨"forever", ["n"],
      [.apply "forever" [.binary .add (.reference "n" false) (.literal 1)]]⟩,
    .function ⟨"main", [], [.apply "forever" [.literal 0]]⟩]

def foreverProgram : Program :=
  ⟨(Item.functions foreverItems).map (Function.routine 0), [], [(literalTag 1, 1), (literalTag 0, 0)]⟩

theorem parse_foreverSource : Item.parse foreverSource = .ok foreverItems := by cbv

theorem direct_foreverItems :
    ∀ f ∈ Item.functions foreverItems, f.ReadsDirectly ∧ f.WritesDirectly := by
  intro f hf
  simp only [foreverItems, Item.functions, List.mem_cons, List.not_mem_nil, or_false] at hf
  rcases hf with rfl | rfl <;>
    exact ⟨fun name => by simp [Expr.rowParts, Expr.parts],
      fun name value => by simp [Expr.rowParts, Expr.parts]⟩

/-- The recursion fails with what is found on its view. -/
theorem foreverSource_fails (stackWords : Nat) (hstack : stackWords + 2 ^ 16 < placeBound) {e : Fault}
    (h : (View.start foreverProgram.optimized ({ width := 0, height := 0 } : Terminal)).fault?
      foreverProgram.optimized (2 ^ 16 + stackWords) 40 = some e) :
    ∃ words, ∃ m : Machine Terminal, build foreverSource = .ok words ∧
      (Machine.new { width := 0, height := 0 } { stackWords }).load words = .ok () m ∧ m.Fails e := by
  have hw : foreverProgram.WellFormed :=
    Program.wellFormed_of_forall (by decide +kernel) (by decide +kernel) (by decide +kernel)
  obtain ⟨words, hassemble, hf⟩ :=
    Program.Loads.exists_fits (p := foreverProgram.optimized) (by decide +kernel)
  have hcompile : compilePlain foreverSource = .ok foreverProgram.listing :=
    Program.IsGenerated.compilePlain_eq (by decide +kernel) parse_foreverSource
  rw [Program.listing_optimized hw.named] at hassemble
  obtain ⟨m, hload, hfails⟩ := hf.fails_of_fault? hw.optimized { stackWords } hstack h
  exact ⟨words, m, build_of_assemble hcompile hassemble, hload, hfails⟩

/-- With `14` words of stack, the second call of the function finds no room for its frame. -/
theorem fails_for_want_of_stack_forever :
    ∃ words, ∃ m₀ m m' : Machine Terminal, build foreverSource = .ok words ∧
      (Machine.new { width := 0, height := 0 } { stackWords := 14 }).load words = .ok () m₀ ∧
      Steps m₀ m ∧ step m = .error (.stackOverflow 0x810011) m' ∧
      m.memory.limit.toInt < 0x810011 := by
  obtain ⟨words, m₀, hbuild, hload, hfails⟩ :=
    foreverSource_fails 14 (by decide) (e := .stackOverflow 0x810011) (by decide +kernel)
  obtain ⟨m, m', hsteps, hstep, ⟨top, he, hlt⟩ | ⟨address, he, -⟩⟩ :=
    fails_for_want_of_stack parse_foreverSource direct_foreverItems hbuild hload hfails
  · cases he
    exact ⟨words, m₀, m, m', hbuild, hload, hsteps, hstep, hlt⟩
  · cases he

/-- With `12` words of stack, there is room for the frame of the function, but none for the argument
of the call in it, and the recursion ends with an access out of bounds. -/
theorem forever_fails_out_of_bounds :
    ∃ words, ∃ m : Machine Terminal, build foreverSource = .ok words ∧
      (Machine.new { width := 0, height := 0 } { stackWords := 12 }).load words = .ok () m ∧
      m.Fails (.outOfBounds 0x81000D) :=
  foreverSource_fails 12 (by decide) (by decide +kernel)

end WordLisp

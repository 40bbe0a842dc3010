import WordLisp.Machine.Terminal
import WordLisp.Proofs.Integrity.Runs

/-!
# The stack of a running program

What one can tell from the registers and the memory of a machine that runs a program without
pointers: which function it is in, and which calls have led there. `Listing.Owns` says whose
instruction stands at a word of a listing, and `Frames` follows the saved bases from frame to frame
down to that of the entry function.

Main statement: this is so in every state that is reached, the words of the program other than the
globals are as loaded, and the device has not been touched.
-/

namespace WordLisp

open Machine Listing

/-- The word `k` of a listing is the instruction `i` of the function `name`: it stands behind the tag
with this name, and no data are in between. -/
def Listing.Owns (l : Listing) (name : String) (k : Nat) (i : Instruction) : Prop :=
  ∃ before code rest, l = before ++ .tag name :: (code ++ .instruction i :: rest) ∧
    (∀ value, .data value ∉ code) ∧ k = wordCount before + wordCount code

/-- There is a frame of the function at a place of the stack, and below it are those of its callers.
A frame begins with the base of the frame of its caller, and the word below it is the address that
the function returns to. -/
inductive Frames (items : List Item) (listing : Listing) (mem : Memory D) : Function → Nat → Prop where
  | entry {f : Function} : f ∈ Item.functions items → f.name = entryPoint →
    mem.cell (programCapacity + 3) = stackBase → mem.cell (programCapacity + 2) = programBase + 1 →
    Frames items listing mem f (programCapacity + 3)
  | call {f g : Function} {frame : Frame} {base k : Nat} {i : Instruction} :
    Frames items listing mem g base → f ∈ Item.functions items → Frame.allocate g = .ok frame →
    listing.Owns g.name k (Generator.toTag .call f.name) → listing.Owns g.name (k + 1) i →
    mem.cell (base + frame.size) = cellAddress base →
    mem.cell (base + frame.size - 1) = cellAddress (k + 1) →
    Frames items listing mem f (base + frame.size)

/-- The machine is in front of an instruction of a function, in the topmost of its frames. -/
def InFunction (items : List Item) (listing : Listing) (m : Machine D) : Prop :=
  ∃ f ∈ Item.functions items, ∃ frame base k i, Frame.allocate f = .ok frame ∧
    listing.Owns f.name k i ∧ m.registers.pc = cellAddress k ∧
    m.registers.frameBase = cellAddress base ∧
    m.registers.stackTop = m.registers.frameBase + Int32.ofNat frame.size ∧
    programBase.toInt + (base + frame.size) ≤ m.memory.limit.toInt ∧
    Frames items listing m.memory f base

/-- The registers of the stack are as at the start. -/
def AtBottom (m : Machine D) : Prop :=
  m.registers.frameBase = stackBase ∧ m.registers.stackTop = stackBase + entryFrameSize

theorem AtBottom.stopped {m : Machine D} (h : AtBottom m) : AtBottom m.stopped := by
  have hpc : ∀ (pc : Word) (n : Nat),
      AtBottom { m with registers := { m.registers with pc := pc }, steps := n } := fun _ _ => h
  exact hpc (programBase - 1) (m.steps + 1)

/-! ## Instructions of a routine -/

theorem Op.record_ne_data (op : Op) (value : Word) : op.record ≠ .data value := by
  cases op <;> simp [Op.record]

section
variable {p : Program} {words : List Word} (hf : p.Fits words)
include hf

/-- The operations of a routine are instructions of its own. -/
theorem Program.Fits.owns {r : Routine} {name : String} {ops rest : List Op} {op : Op}
    {i : Instruction} (hr : r ∈ p.routines) (hn : r.name = some name)
    (hcode : r.code = ops ++ op :: rest) (hi : op.record = .instruction i) :
    p.listing.Owns name (p.place name + Op.words ops) i := by
  obtain ⟨before, after, hl⟩ := Program.Fits.listing_of_mem hr hn
  rw [hcode, Op.listing_append, Op.listing_cons, hi, List.append_assoc, List.cons_append] at hl
  refine ⟨before, Op.listing ops, _, hl, ?_, ?_⟩
  · intro value hm
    obtain ⟨op', -, he⟩ := List.mem_map.mp hm
    exact Op.record_ne_data op' value he
  · rw [hf.place_of_split hl]
    rfl

end

/-- Code that ends with an instruction begins with one, behind tags. -/
theorem Op.exists_instruction (ops : List Op) {last : Op} (hl : ∀ name, last ≠ .tag name) :
    ∃ tags op rest i, ops ++ [last] = tags ++ op :: rest ∧ Op.words tags = 0 ∧
      op.record = .instruction i := by
  induction ops with
  | nil =>
    obtain ⟨i, hi⟩ := Op.record_of_ne_tag hl
    exact ⟨[], last, [], i, rfl, rfl, hi⟩
  | cons op ops ih =>
    by_cases ht : ∃ name, op = .tag name
    · obtain ⟨name, rfl⟩ := ht
      obtain ⟨tags, op, rest, i, he, hw, hi⟩ := ih
      exact ⟨.tag name :: tags, op, rest, i, by rw [List.cons_append, he]; rfl,
        (Op.words_tag name tags).trans hw, hi⟩
    · obtain ⟨i, hi⟩ := Op.record_of_ne_tag fun name he => ht ⟨name, he⟩
      exact ⟨[], op, ops ++ [last], i, rfl, rfl, hi⟩

/-! ## Frames -/

/-- The routines of the program are those of the functions, perhaps with other code. -/
def Program.Implements (p : Program) (items : List Item) : Prop :=
  ∀ r ∈ p.routines, ∃ f ∈ Item.functions items, r.name = some f.name ∧
    Frame.allocate f = .ok r.frame

theorem IsCompiled.implements_optimized {items : List Item} {pool : SymbolPool} {p : Program}
    {env : Resources} (hc : IsCompiled items pool p env) : p.optimized.Implements items := by
  intro r hr
  obtain ⟨r₀, hr₀, rfl⟩ := List.mem_map.mp hr
  obtain ⟨f, hf, n, halloc, hn, -⟩ := hc.function_of_mem hr₀
  exact ⟨f, hf, hn, halloc⟩

theorem Program.position_of_split {p : Program} {a : Activation} {name : String} {ops : List Op}
    (hn : a.routine.name = some name) (hcode : a.routine.code = ops ++ a.code) :
    p.position a = p.place name + Op.words ops := by
  unfold Program.position Program.entry
  rw [hn, hcode, Op.words_append]
  simp

theorem Program.WellFormed.ne_boot {p : Program} (hw : p.WellFormed) {r : Routine}
    (hr : r ∈ p.routines) : r ≠ .boot := by
  rintro rfl
  obtain ⟨name, hn⟩ := hw.named _ hr
  cases hn

/-- Only the start has no callers. -/
theorem Linked.base_of_boot {p : Program} {mem : Memory D} (hw : p.WellFormed) {a : Activation}
    {below : List Activation} (h : Linked p mem a below) (hboot : a.routine = .boot) :
    a.base = programCapacity := by
  cases below with
  | nil => exact h.2
  | cons b below => exact absurd hboot (hw.ne_boot h.1.routine)

/-- Behind tags, an activation has an instruction in front of it. -/
theorem Activation.Sits.exists_instruction {p : Program} (hw : p.WellFormed) {a : Activation}
    (h : a.Sits p) : ∃ tags op rest i, a.code = tags ++ op :: rest ∧ Op.words tags = 0 ∧
      op.record = .instruction i := by
  obtain ⟨before, hbefore⟩ := h.suffix
  obtain ⟨ops, last, hlast, hor⟩ := hw.ends _ h.has
  rcases List.eq_nil_or_concat a.code with hnil | ⟨c, l, hc⟩
  · exact absurd hnil h.nonempty
  · rw [List.concat_eq_append] at hc
    rw [hc, ← List.append_assoc, hlast] at hbefore
    have hl : l = last := List.singleton_inj.mp (List.append_inj' hbefore rfl).2
    rw [hc]
    exact Op.exists_instruction c (by rw [hl]; rcases hor with rfl | rfl <;> simp)

section
variable {items : List Item} {p : Program} {words : List Word} {mem : Memory D}
  (hw : p.WellFormed) (hf : p.Fits words)
include hw hf

/-- The frame of a function that was called by another one. -/
theorem Link.frames {a b : Activation} {f g : Function} (h : Link p mem a b)
    (hbr : b.routine ∈ p.routines) (hfm : f ∈ Item.functions items)
    (hfn : a.routine.name = some f.name) (hgn : b.routine.name = some g.name)
    (hga : Frame.allocate g = .ok b.routine.frame)
    (hg : Frames items p.listing mem g b.base) : Frames items p.listing mem f a.base := by
  obtain ⟨ops, name, hcode, hname⟩ := h.call
  obtain rfl : name = f.name := Option.some.inj (hname.symm.trans hfn)
  have howns := hf.owns hbr hgn hcode (show (Op.call f.name).record = _ from rfl)
  have hpos : p.position b = p.place g.name + Op.words ops + 1 := by
    rw [p.position_of_split hgn (show b.routine.code = (ops ++ [.call f.name]) ++ b.code by
      simpa using hcode), Op.words_append, Op.words_cons (by simp)]
    rfl
  -- the code behind the call is not at its end, so there is an instruction to return to
  obtain ⟨tags, op, rest, i, hb, hzero, hrec⟩ := h.sits.exists_instruction hw
  have hnext := hf.owns hbr hgn
    (show b.routine.code = (ops ++ .call f.name :: tags) ++ op :: rest by rw [hcode, hb]; simp) hrec
  rw [Op.words_append, Op.words_cons (by simp), hzero] at hnext
  have hbase : a.base = b.base + b.routine.frame.size := h.base
  rw [hbase]
  refine .call hg hfm hga howns hnext ?_ ?_
  · rw [← hbase]; exact h.saved
  · rw [← hbase, h.back, hpos]

omit hw hf in
/-- The frame of the function that was called by the start. -/
theorem Link.frames_of_boot {a b : Activation} {f : Function} (h : Link p mem a b)
    (hboot : b.routine = .boot) (hbase : b.base = programCapacity)
    (hfm : f ∈ Item.functions items) (hfn : a.routine.name = some f.name) :
    Frames items p.listing mem f a.base := by
  obtain ⟨ops, name, hcode, hname⟩ := h.call
  rw [hboot] at hcode
  have hsplit : ops = [] ∧ name = entryPoint ∧ b.code = [.stop] := by
    rcases ops with _ | ⟨o, _ | ⟨o', ops⟩⟩
    · simp only [Routine.boot, List.nil_append, List.cons.injEq, Op.call.injEq] at hcode
      exact ⟨rfl, hcode.1.symm, hcode.2.symm⟩
    · simp [Routine.boot] at hcode
    · simp [Routine.boot] at hcode
  obtain ⟨-, rfl, hbcode⟩ := hsplit
  have habase : a.base = programCapacity + 3 := by
    rw [h.base]
    unfold Activation.top
    rw [hbase, hboot]
    rfl
  have hpos : p.position b = 1 := by
    unfold Program.position
    rw [hboot, hbcode]
    rfl
  have hsaved := h.saved
  have hback := h.back
  rw [habase] at hsaved hback ⊢
  rw [hbase, ← stackBase_eq] at hsaved
  rw [hpos] at hback
  exact .entry hfm (Option.some.inj (hfn.symm.trans hname)) hsaved (hback.trans (by decide))

/-- The activations of a view are frames on the stack. -/
theorem Linked.frames (hi : p.Implements items) {a : Activation} {below : List Activation}
    (h : Linked p mem a below) (ha : a.routine ∈ p.routines) :
    ∃ f ∈ Item.functions items, a.routine.name = some f.name ∧
      Frame.allocate f = .ok a.routine.frame ∧ Frames items p.listing mem f a.base := by
  induction below generalizing a with
  | nil => exact absurd h.1 (hw.ne_boot ha)
  | cons b below ih =>
    obtain ⟨hl, hrest⟩ := h
    obtain ⟨f, hfm, hfn, hfa⟩ := hi _ ha
    refine ⟨f, hfm, hfn, hfa, ?_⟩
    rcases hl.sits.has with hboot | hb
    · exact hl.frames_of_boot hboot (hrest.base_of_boot hw hboot) hfm hfn
    · obtain ⟨g, -, hgn, hga, hg⟩ := ih hrest hb
      exact hl.frames hw hf hb hfm hfn hgn hga hg

end

/-! ## Integrity -/

section
variable {items : List Item} {p : Program} {words : List Word} {roof : Int} {m : Machine D} {v : View D}

theorem Represents.atBottom (h : Represents p words roof m v) (hboot : v.top.routine = .boot)
    (hbase : v.top.base = programCapacity) : AtBottom m := by
  refine ⟨?_, ?_⟩
  · rw [h.frameBase, hbase, stackBase_eq]
  · rw [h.stackTop, stackBase_add]
    unfold Activation.top
    rw [hboot, hbase]
    rfl

/-- A machine with a view is in front of the start or in a function. -/
theorem Represents.inFunction (hw : p.WellFormed) (hf : p.Fits words) (hi : p.Implements items)
    (h : Represents p words roof m v) {op : Op} {rest : List Op} (hc : v.top.code = op :: rest)
    (htag : ∀ name, op ≠ .tag name) :
    ((m.registers.pc = programBase ∨ m.registers.pc = programBase + 1) ∧ AtBottom m) ∨
      InFunction items p.listing m := by
  have hl := h.linked
  rcases h.sits.has with hboot | hr
  · refine .inl ⟨?_, h.atBottom hboot (hl.base_of_boot hw hboot)⟩
    have hsuffix := h.sits.suffix
    rw [h.pc]
    unfold Program.position
    rw [hboot, hc] at hsuffix ⊢
    rcases List.suffix_cons_iff.mp hsuffix with he | he
    · rw [he]
      exact .inl (show cellAddress 0 = programBase by decide)
    · rcases List.suffix_cons_iff.mp he with he | he
      · rw [he]
        exact .inr (show cellAddress 1 = programBase + 1 by decide)
      · cases List.suffix_nil.mp he
  · obtain ⟨f, hfm, hfn, hfa, hframes⟩ := hl.frames hw hf hi hr
    obtain ⟨ops, hops⟩ := h.sits.suffix
    rw [hc] at hops
    obtain ⟨i, hrec⟩ := Op.record_of_ne_tag htag
    refine .inr ⟨f, hfm, v.top.routine.frame, v.top.base, p.place f.name + Op.words ops, i, hfa,
      hf.owns hr hfn hops.symm hrec, ?_, h.frameBase, ?_, ?_, hframes⟩
    · rw [h.pc, p.position_of_split hfn (show v.top.routine.code = ops ++ v.top.code by rw [hc, hops])]
    · rw [h.frameBase, h.stackTop]
      exact cellAddress_add _ _
    · rw [toInt_programBase, Memory.toInt_limit]
      cases hb : v.below with
      | nil =>
        rw [hb] at hl
        exact absurd hl.1 (hw.ne_boot hr)
      | cons b below =>
        rw [hb] at hl
        have := hl.1.fits
        unfold Activation.top at this
        push_cast at this
        omega

end

/-- The first step leads into the frame of the entry function, if there is room for it. -/
theorem Represents.step_start [Device D] {p : Program} {words : List Word} {roof : Int}
    {m : Machine D} {device : D} (hw : p.WellFormed) (hf : p.Fits words)
    (h : Represents p words roof m (View.start p device))
    (hroof : (programCapacity + 2 ^ 19 : Int) ≤ roof) :
    ∃ m', step m = .ok .running m' ∧ m'.registers.frameBase = cellAddress (programCapacity + 3) := by
  obtain ⟨r, hr, hn, hsmall⟩ := hw.allowed .boot (.inl rfl) h.sits.small _ (List.mem_cons_self ..)
  have hsmall : r.frame.size < 2 ^ 18 := hsmall
  have ha := h.agrees_turn hw hf
  rw [View.turn_call rfl (hf.find?_eq hr hn)] at ha
  · obtain ⟨m', hstep, h'⟩ := ha
    exact ⟨m', hstep, h'.frameBase⟩
  · show ((programCapacity + 3 : Nat) : Int) < roof
    push_cast
    omega
  · show ((programCapacity + 3 : Nat) + r.frame.size : Int) ≤ roof
    push_cast
    omega

/-- In every state that the machine reaches with a program that uses no pointers, it is in front of
the two instructions at the start, or has halted, with the stack as it was at first, or it is in a
function and the stack is a row of frames of this function and its callers. The words of the program
are as loaded, but for the globals, and the device has not been touched. -/
theorem stack_integrity [Device D] {source : String} {items : List Item} {listing : Listing}
    {words : List Word} {config : Config} {device : D} {m₀ m : Machine D}
    (hparse : Item.parse source = .ok items)
    (hdirect : ∀ f ∈ Item.functions items, f.ReadsDirectly ∧ f.WritesDirectly)
    (hcompile : compile source = .ok listing) (hbuild : build source = .ok words)
    (hload : (Machine.new device config).load words = .ok () m₀) (hreach : m₀.Reaches m) :
    (((m.registers.pc = programBase ∨ m.registers.pc = programBase + 1) ∧ AtBottom m) ∨
        (m.status = .halted ∧ AtBottom m) ∨ InFunction items listing m) ∧
      (∀ k < programCapacity,
        (∀ table, listing.tags = .ok table → ∀ name ∈ (Item.globals items).map Prod.fst,
          table.lookup name ≠ some (Int32.ofNat k)) →
        m.memory.cell k = words.getD k 0) ∧
      m.memory.device = device := by
  obtain ⟨items', pool, p, env, hparse', hc, rfl⟩ := isCompiled_of_compile hcompile
  obtain rfl : items' = items := Except.ok.inj (hparse'.symm.trans hparse)
  have hf := Program.fits_of_assemble (assemble_of_build hcompile hbuild) (length_le_of_load hload)
  have hw := (hc.wellFormed_of_optimized hf).optimized
  have hd := (hc.direct hdirect).optimized
  have hstart := (represents_of_load hf hload).2
  have hglobal : ∀ k, (∀ table, p.optimized.listing.tags = .ok table →
      ∀ name ∈ (Item.globals items').map Prod.fst, table.lookup name ≠ some (Int32.ofNat k)) →
      ¬ p.optimized.IsGlobalCell k := by
    rintro k hk ⟨name, hname, rfl⟩
    have hname' : name ∈ (Item.globals items').map Prod.fst := by
      rw [← hc.globals]
      exact hname
    exact hk _ hf.tags_eq name hname'
      (hf.place_of_mem_data (Program.Fits.mem_data_of_mem_globals hname)).2.2
  rcases hstart.of_reaches hw hf hd hreach with
    ⟨v, op, rest, h, hdev, hcode, htag⟩ | ⟨m₁, v, h, hdev, hboot, hbase, rfl⟩
  · refine ⟨?_, fun k hk hg => h.program k hk (hglobal k hg), h.device.trans hdev⟩
    rcases h.inFunction hw hf hc.implements_optimized hcode htag with hstart | hin
    · exact .inl hstart
    · exact .inr (.inr hin)
  · refine ⟨.inr (.inl ⟨m₁.status_stopped, (h.atBottom hboot hbase).stopped⟩), fun k hk hg => ?_, ?_⟩
    · rw [memory_stopped]
      exact h.program k hk (hglobal k hg)
    · rw [memory_stopped]
      exact h.device.trans hdev

/-- A machine that has entered the entry function of a program with two functions. -/
theorem stack_integrity_entered :
    ∃ items listing words, ∃ m₀ m : Machine Terminal,
      Item.parse "(INIT g 3) (FUNC f (n) (+ n g)) (FUNC main () (f 7))" = .ok items ∧
      compile "(INIT g 3) (FUNC f (n) (+ n g)) (FUNC main () (f 7))" = .ok listing ∧
      build "(INIT g 3) (FUNC f (n) (+ n g)) (FUNC main () (f 7))" = .ok words ∧
      (Machine.new { width := 0, height := 0 } { stackWords := 2 ^ 20 }).load words = .ok () m₀ ∧
      step m₀ = .ok .running m ∧ InFunction items listing m := by
  let items : List Item := [.global "g" (.literal 3),
    .function ⟨"f", ["n"], [.binary .add (.reference "n" false) (.reference "g" false)]⟩,
    .function ⟨"main", [], [.apply "f" [.literal 7]]⟩]
  have hparse : Item.parse "(INIT g 3) (FUNC f (n) (+ n g)) (FUNC main () (f 7))" = .ok items := by
    cbv
  have hdirect : ∀ f ∈ Item.functions items, f.ReadsDirectly ∧ f.WritesDirectly := by
    intro f hf
    simp only [items, Item.functions, List.mem_cons, List.not_mem_nil, or_false] at hf
    rcases hf with rfl | rfl <;>
      exact ⟨fun name => by simp [Expr.rowParts, Expr.parts],
        fun name value => by simp [Expr.rowParts, Expr.parts]⟩
  obtain ⟨plain, symbols, hplain, hcheck⟩ := compiles_of_check hparse
    (fun listing _ => listing.dropReloads.assemblesTo fun words =>
      decide (words.length ≤ programCapacity))
    (by decide +kernel)
  obtain ⟨words, hassemble, hfits⟩ := Listing.exists_of_assemblesTo hcheck
  have hcompile : compile "(INIT g 3) (FUNC f (n) (+ n g)) (FUNC main () (f 7))" =
      .ok plain.dropReloads := by
    unfold compile compilePlain
    rw [hplain]
    rfl
  have hbuild : build "(INIT g 3) (FUNC f (n) (+ n g)) (FUNC main () (f 7))" = .ok words := by
    refine build_of_assemble ?_ hassemble
    unfold compilePlain
    rw [hplain]
    rfl
  obtain ⟨items', pool, p, env, hparse', hc, hlisting⟩ := isCompiled_of_compile hcompile
  have hf : p.optimized.Fits words :=
    Program.fits_of_assemble (by rw [← hlisting]; exact hassemble) (of_decide_eq_true hfits)
  obtain ⟨m₀, hload, -, hstart⟩ :=
    represents_start hf (Machine.new ({ width := 0, height := 0 } : Terminal) { stackWords := 2 ^ 20 })
  obtain ⟨m, hstep, hbase⟩ :=
    hstart.step_start (hc.wellFormed_of_optimized hf).optimized hf (by
      rw [show (Machine.new ({ width := 0, height := 0 } : Terminal)
        { stackWords := 2 ^ 20 }).memory.roof = 2 ^ 16 + (2 ^ 20 : Nat)
        from Memory.roof_new _ (by decide)]
      decide)
  have hnot : ¬ AtBottom m := fun hbottom => by
    have := hbottom.1.symm.trans hbase
    revert this
    decide
  refine ⟨items, _, words, m₀, m, hparse, hcompile, hbuild, hload, hstep, ?_⟩
  rcases (stack_integrity hparse hdirect hcompile hbuild hload (.tail (.refl m₀) hstep)).1 with
    hpre | hhalted | hin
  · exact absurd hpre.2 hnot
  · exact absurd hhalted.2 hnot
  · exact hin

end WordLisp

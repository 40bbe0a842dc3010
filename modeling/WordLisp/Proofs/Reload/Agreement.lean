import WordLisp.Machine.Terminal
import WordLisp.Proofs.Code.Accesses
import WordLisp.Proofs.Reload.Assembly
import WordLisp.Proofs.Reload.Paired
import WordLisp.Proofs.Reload.Survey

/-!
# Programs with and without redundant loads agree

Main statement: a source text in which nothing is assigned through a pointer does the same whether
its redundant loads are dropped or not, as long as its run keeps to the rules of the language.
-/

namespace WordLisp

open Machine Listing

/-! ## The start -/

theorem View.reduce_start (p : Program) (device : D) :
    (View.start p device).reduce (.tag "") = View.start p.optimized device := by
  unfold View.reduce Activation.reduce View.start
  simp only [Routine.optimized_boot]
  rfl

section
variable [Device D] {items : List Item} {p : Program} {need : Routine → String → Nat}
  {words words' : List Word} {m₀ m m' : Machine D}

/-- Two machines that differ only in which of the two was loaded are at the same point. -/
theorem Twins.abreast (ht : Twins items p need words words' m) (hload : m₀.load words = .ok () m)
    (hload' : m₀.load words' = .ok () m') :
    Abreast items p need words words' m₀.memory.roof m m m' := by
  refine ⟨View.start p m₀.memory.device, .tag "", [], (represents_of_load ht.fits hload).2, ?_,
    fun x hx => (nomatch hx), fun hs => ?_, .start ht.flows _, ⟨rfl, rfl⟩, .start⟩
  · rw [View.reduce_start]
    exact (represents_of_load ht.fits' hload').2
  · simp [Op.Stores] at hs

end

/-! ## Programs that write directly -/

/-- Without assignments through pointers, no load through a pointer is redundant. -/
theorem IsCompiled.quiet [Device D] {items : List Item} {pool : SymbolPool} {p : Program}
    {env : Resources} (hc : IsCompiled items pool p env)
    (h : ∀ f ∈ Item.functions items, f.WritesDirectly) (start : Machine D) :
    start.Quiet items p.listing := by
  rintro m scopes load - ⟨before, store, loads, rest, hl, -, hr, -⟩ register base hload
  cases store with
  | tag name | data value => cases hr
  | instruction i =>
    have hop : i.opcode.loadFor? = some load.opcode := by
      have hr : i.reloads load = true := hr
      rw [Instruction.reloads, Bool.and_eq_true, decide_eq_true_iff] at hr
      exact hr.2
    obtain ⟨r, b, indirect, hi, hl'⟩ := Opcode.eq_of_loadFor? hop
    rw [hload] at hl'
    cases hl'
    obtain ⟨routine, hr, op, hmem, hrecord⟩ :=
      Program.exists_op_of_mem (p := p) (i := i) (by rw [hl]; simp)
    rcases Op.eq_store_of_opcode hrecord hi with ⟨x, rfl⟩ | rfl
    · rcases hr with rfl | hr
      · simp [Routine.boot] at hmem
      · obtain ⟨f, hf, hfr⟩ := hc.function_of_mem hr
        obtain ⟨name, value, hm⟩ := (hfr.stems _ hmem).store x rfl
        exact h f hf name value hm
    · cases hrecord
      cases hi

/-! ## Agreement -/

/-- The two builds of a source text, loaded into machines of the same kind. -/
theorem twins_of_load [Device D] {source : String} {items : List Item} {listing : Listing}
    {words : List Word} {m₀ m : Machine D} (hparse : Item.parse source = .ok items)
    (hcompile : compilePlain source = .ok listing) (hassemble : listing.assemble = .ok words)
    (hload : m₀.load words = .ok () m) (hd : m.Disciplined items listing)
    (hq : m.Quiet items listing) :
    ∃ p need words' m', listing = p.listing ∧ listing.dropReloads = p.optimized.listing ∧
      p.globals = Item.globals items ∧ build source = .ok words' ∧ m₀.load words' = .ok () m' ∧
      m.sliceSteps = m₀.sliceSteps ∧ m'.sliceSteps = m₀.sliceSteps ∧
      Twins items p need words words' m ∧
      Abreast items p need words words' m₀.memory.roof m m m' := by
  obtain ⟨items', pool, p, env, hparse', hc, rfl⟩ := isCompiled_of_compilePlain hcompile
  obtain rfl : items' = items := Except.ok.inj (hparse'.symm.trans hparse)
  have hle := length_le_of_load hload
  have hf := Program.fits_of_assemble hassemble hle
  obtain ⟨need, hneed⟩ := hc.flows hf
  obtain ⟨words', hassemble', hle'⟩ := Listing.assemble_dropReloads hassemble hle
  have hlisting := Program.listing_optimized hc.named
  have hf' : p.optimized.Fits words' :=
    Program.fits_of_assemble (by rw [hlisting]; exact hassemble') (hle'.trans hle)
  obtain ⟨m', hload', hslice', -⟩ := represents_start hf' m₀
  have ht : Twins items' p need words words' m := ⟨⟨pool, env, hc⟩, hneed, hf, hf', hd, hq⟩
  exact ⟨p, need, words', m', rfl, hlisting.symm, hc.globals, build_of_assemble hcompile hassemble',
    hload', (represents_of_load hf hload).1, hslice', ht, ht.abreast hload hload'⟩

/-- A source text that assigns nothing through a pointer does the same with and without its redundant
loads: whenever one of the two machines halts, so does the other, with the same result, the same
words in the globals and the same device, and whenever one of them meets a fault, so does the
other. -/
theorem halts_and_fails_alike [Device D] {source : String} {items : List Item} {listing : Listing}
    {words : List Word} {device : D} {config : Config} {m : Machine D}
    (hparse : Item.parse source = .ok items)
    (hwrites : ∀ f ∈ Item.functions items, f.WritesDirectly)
    (hcompile : compilePlain source = .ok listing) (hassemble : listing.assemble = .ok words)
    (hload : (Machine.new device config).load words = .ok () m)
    (hdisciplined : m.Disciplined items listing) :
    ∃ words' m', build source = .ok words' ∧
      (Machine.new device config).load words' = .ok () m' ∧
      (∀ last, m.Halts last → ∃ last', m'.Halts last' ∧
        SameEnd listing listing.dropReloads ((Item.globals items).map Prod.fst) last last') ∧
      (∀ last', m'.Halts last' → ∃ last, m.Halts last ∧
        SameEnd listing listing.dropReloads ((Item.globals items).map Prod.fst) last last') ∧
      ∀ e, m.Fails e ↔ m'.Fails e := by
  have hquiet : m.Quiet items listing := by
    obtain ⟨items', pool, p, env, hparse', hc, rfl⟩ := isCompiled_of_compilePlain hcompile
    obtain rfl : items' = items := Except.ok.inj (hparse'.symm.trans hparse)
    exact hc.quiet hwrites m
  obtain ⟨p, need, words', m', hl, hl', hglobals, hbuild, hload', hslice, hslice', ht, habreast⟩ :=
    twins_of_load hparse hcompile hassemble hload hdisciplined hquiet
  have hpos : 0 < m.sliceSteps := by rw [hslice]; exact sliceSteps_new_pos device config
  have hpos' : 0 < m'.sliceSteps := by rw [hslice']; exact sliceSteps_new_pos device config
  rw [hl', hl, ← hglobals]
  exact ⟨words', m', hbuild, hload', fun last h => ht.halts hpos hpos' habreast h,
    fun last' h => ht.halts_back hpos hpos' habreast h, ht.fails_iff hpos hpos' habreast⟩

/-! ## A program that loads what it has just stored -/

/-- Takes a word of input into a global. -/
def echoSource : String :=
  "(INIT g 0) (FUNC f (n) (SET g n) g) (FUNC main () (INIT p 0x7FFFFF) (f *p))"

def echoItems : List Item :=
  [.global "g" (.literal 0),
    .function ⟨"f", ["n"], [.assign "g" false (.reference "n" false), .reference "g" false]⟩,
    .function ⟨"main", [], [.declare "p" (.literal 0x7FFFFF), .apply "f" [.reference "p" true]]⟩]

def echoProgram : Program :=
  ⟨(Item.functions echoItems).map (Function.routine 0), [("g", 0)],
    [(literalTag 0x7FFFFF, 0x7FFFFF)]⟩

def echoTerminal : Terminal := { width := 0, height := 0, input := [9] }

/-- One load of the program is redundant, and without it, it still takes the input. -/
theorem halts_and_fails_alike_echo :
    ∃ words, ∃ m last : Machine Terminal,
      echoProgram.listing.dropReloads.length < echoProgram.listing.length ∧
      build echoSource = .ok words ∧
      (Machine.new echoTerminal { stackWords := 2 ^ 20 }).load words = .ok () m ∧
      m.Halts last ∧ last.result? = some 9 ∧ last.memory.device.input = [] ∧
      last.wordAt? echoProgram.listing.dropReloads "g" = some 9 := by
  have hparse : Item.parse echoSource = .ok echoItems := by cbv
  have hwrites : ∀ f ∈ Item.functions echoItems, f.WritesDirectly := by
    intro f hf name value
    simp only [echoItems, Item.functions, List.mem_cons, List.not_mem_nil, or_false] at hf
    rcases hf with rfl | rfl <;> simp [Expr.rowParts, Expr.parts]
  have hw : echoProgram.WellFormed :=
    Program.wellFormed_of_forall (by decide +kernel) (by decide +kernel) (by decide +kernel)
  obtain ⟨words, hassemble, hf⟩ := Program.Loads.exists_fits (p := echoProgram) (by decide +kernel)
  have hcompile : compilePlain echoSource = .ok echoProgram.listing :=
    Program.IsGenerated.compilePlain_eq (by decide +kernel) hparse
  have hsurvey : ((View.start echoProgram echoTerminal).survey echoProgram
      (Item.functions echoItems) (2 ^ 16 + (2 ^ 20 : Nat)) 40 []).map
      (fun v => (v.top.slots 1, v.device.input, v.data "g")) = some (some 9, [], 9) := by
    decide +kernel
  obtain ⟨last, hs, hlast⟩ := Option.map_eq_some_iff.mp hsurvey
  simp only [Prod.mk.injEq] at hlast
  obtain ⟨m, m₁, hload, hd, hhalts, hresult, hdevice, hdata⟩ :=
    hf.loads_of_survey hw { stackWords := 2 ^ 20 } (by decide) hs hlast.1
  obtain ⟨words', m', hbuild, hload', hforward, -⟩ :=
    halts_and_fails_alike hparse hwrites hcompile hassemble hload hd
  obtain ⟨m₁', hhalts', hend⟩ := hforward m₁ hhalts
  refine ⟨words', m', m₁', by decide +kernel, hbuild, hload', hhalts', ?_, ?_, ?_⟩
  · rw [hend.result, hresult]
  · rw [hend.device, hdevice, hlast.2.1]
  · rw [hend.globals "g" (by decide +kernel), hdata "g" (by decide +kernel), hlast.2.2]

end WordLisp

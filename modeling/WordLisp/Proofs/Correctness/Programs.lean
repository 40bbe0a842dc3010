import WordLisp.Machine.Terminal
import WordLisp.Proofs.Correctness.Expressions
import WordLisp.Proofs.View.Outcome

/-!
# Programs compute what their evaluation says

Main statement: a program whose evaluation ends is carried out by every machine that has the stack
which evaluation counts, and it halts with the value, the globals and the device that evaluation
finds.
-/

namespace WordLisp

open Machine

section
variable [Device D] {items : List Item} {pool : SymbolPool} {p : Program} {env : Resources}
  {words : List Word} {roof : Int} {fuel : Nat} {device : D} {s : Store D}

omit [Device D] in
/-- The data of a program at its start are those of the store at the start. -/
theorem mirrors_start (hc : IsCompiled items pool p env) (hf : p.Fits words) (r : Routine)
    (below : List Activation) :
    Mirrors p r.frame (Store.initial items device)
      { View.start p device with top := (View.start p device).top.enter r, below } := by
  refine ⟨rfl, rfl, ?_, ?_, ?_⟩
  · intro name hname
    obtain ⟨⟨name, value⟩, hmem, rfl⟩ := List.mem_map.mp hname
    have hdata : p.data.lookup name = some value := hf.lookup_data (List.mem_append_left _ hmem)
    have hglobal : p.globals.lookup name = some value := by
      refine Listing.lookup_of_mem ?_ hmem
      have hn := hf.nodup_data
      unfold Program.data at hn
      rw [List.map_append] at hn
      exact (List.nodup_append.mp hn).1
    show (p.data.lookup name).getD 0 = ((Item.globals items).lookup name).getD 0
    rw [hdata, ← hc.globals, hglobal]
  · intro tag value hmem
    show (p.data.lookup tag).getD 0 = value
    rw [hf.lookup_data (List.mem_append_right _ hmem)]
    rfl
  · intro name n w _ hw
    cases hw

/-- The start calls the entry function and comes back with its value. -/
theorem IsCompiled.reaches_stop (hc : IsCompiled items pool p env) (hf : p.Fits words)
    (hroom : (programCapacity + 3 + s.stack : Int) ≤ roof)
    (h : evalProgram items pool fuel device = some s) :
    ∃ v : View D, (View.start p device).Reaches p roof v ∧ v.top.code = [.stop] ∧
      v.top.slots 1 = some s.value ∧ v.device = s.device ∧
      ∀ name ∈ p.globals.map Prod.fst, v.data name = s.globals name := by
  obtain ⟨f, hfind, h⟩ := Option.bind_eq_some_iff.mp h
  obtain ⟨s', heval, rfl⟩ := Option.map_eq_some_iff.mp h
  have hname : f.name = entryPoint := by simpa using List.find?_some hfind
  obtain ⟨r, hr, hfr⟩ := hc.routine_of_mem (List.mem_of_find?_eq_some hfind)
  obtain ⟨k, halloc, hrname, -, hcode, hres⟩ := id hfr
  have hpfind : p.find? entryPoint = some r := hf.find?_eq hr (hname ▸ hrname)
  have hsmall : r.Small := by
    obtain ⟨r', hr', hn', hsmall⟩ := (hc.wellFormed_of_fits hf).allowed .boot (.inl rfl)
      (by show 3 < 2 ^ 18; omega) _ (List.mem_cons_self ..)
    rw [hf.find?_eq hr' hn'] at hpfind
    cases hpfind
    exact hsmall
  have hsize : r.frame.size = f.frame.size := congrArg Frame.size hfr.frame_eq
  have hstack : ((Store.initial items device).leave f s').stack = f.frame.size + s'.stack :=
    Nat.zero_max _
  have hpos : 0 < r.frame.size := Nat.succ_pos _
  have hsite : Site (.ofItems items pool) p roof f r (programCapacity + 3) :=
    hc.site hf hr hfr hsmall (by push_cast; omega)
  -- into the entry function
  have h₁ : (View.start p device).Reaches p roof { View.start p device with
      top := (View.start p device).top.enter r
      below := [((View.start p device).top.goto [.stop]).forget] } := by
    refine .single fun _ => View.turn_call rfl hpfind ?_ ?_
    · show ((programCapacity + 3 : Nat) : Int) < roof
      push_cast; omega
    · show ((programCapacity + 3 : Nat) + r.frame.size : Int) ≤ roof
      push_cast; omega
  -- through its body
  obtain ⟨v, h₂, hst, hm, hk⟩ := ((hc.codeFollows hf fuel).row hsite hres le_rfl
    (by unfold Frame.returnSlot; rw [(Frame.allocate_eq halloc).2]) (by push_cast; omega) heval)
    _ [.yield, .ret] rfl
    ⟨rfl, hcode, by rw [hcode]; exact List.suffix_refl _⟩
    (mirrors_start hc hf r [((View.start p device).top.goto [.stop]).forget])
  -- and back
  have h₃ : v.Reaches p roof _ := reaches_return hst hk.below
  refine ⟨_, h₁.trans (h₂.trans h₃), rfl, ?_, hm.device, hm.globals⟩
  show _ = some s'.value
  rw [← hm.value]
  exact Activation.slots_put_self _ _ _

end

/-- A source text whose plain listing assembles and fits into the memory computes what its
evaluation says. Evaluation has one outcome. Every machine, within the address space, whose stack
holds the words at its bottom and those that evaluation counts, runs the words until it has halted,
and then its result is the value, the cells of the globals hold what evaluation left in them, and
the device is the one that evaluation left. -/
theorem halts_of_evaluates [Device D] {source : String} {items : List Item} {listing : Listing}
    {symbols : SymbolPool} {words : List Word} {device : D} {s : Store D}
    (hparse : Item.parse source = .ok items)
    (hcompile : compileWithSymbols source = .ok (listing, symbols))
    (hassemble : listing.assemble = .ok words) (hfits : words.length ≤ programCapacity)
    (heval : Evaluates items symbols device s) :
    (∀ t, Evaluates items symbols device t → t = s) ∧
    ∀ config : Config, entryFrameSize.toInt + s.stack ≤ config.stackWords →
      programBase.toInt + (programCapacity + config.stackWords) < 2 ^ 31 →
      ∃ m m', (Machine.new device config).load words = .ok () m ∧ m.Halts m' ∧
        m'.status = .halted ∧ m'.result? = some s.value ∧ m'.memory.device = s.device ∧
        ∀ name ∈ (Item.globals items).map Prod.fst,
          m'.wordAt? listing name = some (s.globals name) := by
  refine ⟨fun t ht => ht.unique heval, fun config henough hbound => ?_⟩
  obtain ⟨fuel, heval⟩ := heval
  obtain ⟨items', p, env, hparse', hc, rfl⟩ := isCompiled_of_compileWithSymbols hcompile
  obtain rfl : items' = items := Except.ok.inj (hparse'.symm.trans hparse)
  have hf := Program.fits_of_assemble hassemble hfits
  have hw := hc.wellFormed_of_fits hf
  rw [toInt_programBase] at hbound
  rw [show entryFrameSize.toInt = 3 by decide] at henough
  unfold programCapacity at hbound
  have hroof : (Machine.new device config).memory.roof = 2 ^ 16 + config.stackWords :=
    Memory.roof_new device (by unfold placeBound; omega)
  obtain ⟨m, hload, hslice, hrep⟩ := represents_start hf (Machine.new device config)
  rw [hroof] at hrep
  obtain ⟨v, hreach, hcode, hslot, hdev, hglobals⟩ :=
    hc.reaches_stop hf (show (programCapacity + 3 + s.stack : Int) ≤ 2 ^ 16 + config.stackWords by
      unfold programCapacity; omega) heval
  obtain ⟨m₁, hsteps, hrep₁⟩ := hrep.reaches hw hf hreach
  have hpos : 0 < m.sliceSteps := by
    rw [hslice]
    exact sliceSteps_new_pos device config
  obtain ⟨m', hhalts, hstatus, hresult, hdevice, hwords⟩ :=
    hrep₁.halts hw hf hpos hsteps hcode hslot
  refine ⟨m, m', hload, hhalts, hstatus, hresult, hdevice.trans hdev, fun name hname => ?_⟩
  rw [← hc.globals] at hname
  rw [← hglobals name hname]
  exact hwords name (Program.Fits.mem_data_of_mem_globals hname)

/-- A loop that calls a function twice, with a global and the console. Both functions have frames of
five words, so that thirteen words of stack suffice, as does the stack that machines have unless told
otherwise. -/
theorem halts_of_evaluates_doubling :
    ∃ listing symbols words,
      compileWithSymbols "(INIT g 1) (FUNC f (n) (+ n n))
        (FUNC main () (INIT p 0x7FFFFE) (WHILE (< g 3) (SET g (f g))) (SET *p g) g)"
        = .ok (listing, symbols) ∧
      listing.assemble = .ok words ∧
      ∀ config ∈ ([{ stackWords := 13 }, {}] : List Config), ∃ m m',
        (Machine.new ({ width := 0, height := 0 } : Terminal) config).load words = .ok () m ∧
        m.Halts m' ∧ m'.result? = some 4 ∧ m'.memory.device.output = #[.console 4] ∧
        m'.wordAt? listing "g" = some 4 := by
  let items : List Item := [.global "g" (.literal 1),
    .function ⟨"f", ["n"], [.binary .add (.reference "n" false) (.reference "n" false)]⟩,
    .function ⟨"main", [], [.declare "p" (.literal 0x7FFFFE),
      .loop (.binary .lt (.reference "g" false) (.literal 3))
        [.assign "g" false (.apply "f" [.reference "g" false])],
      .assign "p" true (.reference "g" false), .reference "g" false]⟩]
  have hparse : Item.parse "(INIT g 1) (FUNC f (n) (+ n n))
        (FUNC main () (INIT p 0x7FFFFE) (WHILE (< g 3) (SET g (f g))) (SET *p g) g)" = .ok items := by
    cbv
  obtain ⟨listing, symbols, hcompile, hcheck⟩ := compiles_of_check hparse
    (fun listing symbols => listing.assemblesTo fun words =>
      decide (words.length ≤ programCapacity) &&
        (evalProgram (D := Terminal) items symbols 10 { width := 0, height := 0 }).any fun s =>
          s.value == 4 && s.globals "g" == 4 && s.device.output == #[.console 4] && s.stack == 10)
    (by decide +kernel)
  obtain ⟨words, hassemble, hcheck⟩ := Listing.exists_of_assemblesTo hcheck
  simp only [Bool.and_eq_true, decide_eq_true_iff, Option.any_eq_true, beq_iff_eq] at hcheck
  obtain ⟨hfits, s, heval, ⟨⟨hvalue, hglobal⟩, houtput⟩, hstack⟩ := hcheck
  have hconfig : ∀ config ∈ ([{ stackWords := 13 }, {}] : List Config),
      entryFrameSize.toInt + (10 : Nat) ≤ config.stackWords ∧
        programBase.toInt + (programCapacity + config.stackWords) < 2 ^ 31 := by decide
  refine ⟨listing, symbols, words, hcompile, hassemble, fun config hmem => ?_⟩
  obtain ⟨henough, hbound⟩ := hconfig config hmem
  obtain ⟨m, m', hload, hhalts, -, hresult, hdevice, hglobals⟩ :=
    (halts_of_evaluates hparse hcompile hassemble hfits ⟨10, heval⟩).2 config (hstack ▸ henough) hbound
  refine ⟨m, m', hload, hhalts, by rw [hresult, hvalue], by rw [hdevice, houtput], ?_⟩
  rw [hglobals "g" (by decide), hglobal]

end WordLisp

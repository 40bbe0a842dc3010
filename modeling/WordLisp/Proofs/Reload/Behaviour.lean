import WordLisp.Proofs.Machine.Devices
import WordLisp.Proofs.Reload.Agreement

/-!
# What a program does to its device

`Recorded D` is a device with a record of all that was done to it, and `m.Performs events last` says
that the machine `m` runs until it has halted as `last`, with these accesses to its device.

Main statement: a source text does the same to its device with and without its redundant loads, if
no redundant load that it carries out goes through a pointer. Without this condition it does not: the
load that is dropped may have been one that takes a word of input.
-/

namespace WordLisp

open Machine

/-! ## Records of accesses -/

/-- An access to a device. -/
inductive Event where
  | read (address value : Word)
  | write (address value : Word)
  deriving DecidableEq

/-- A device with all accesses to it, in their order. -/
structure Recorded (D : Type) where
  device : D
  events : List Event

section
variable [Device D]

instance : Device (Recorded D) where
  read address r :=
    let (value, device) := Device.read address r.device
    (value, ⟨device, r.events ++ [.read address value]⟩)
  write address value r := ⟨Device.write address value r.device, r.events ++ [.write address value]⟩

theorem isDeviceMap_device : IsDeviceMap (Recorded.device : Recorded D → D) :=
  ⟨fun _ _ => rfl, fun _ _ _ => rfl⟩

end

/-- The machine with an empty record. -/
def Machine.recording (m : Machine D) : Machine (Recorded D) := m.map fun device => ⟨device, []⟩

/-- The machine runs until it has halted as `last`, and has then done these things to its device. -/
def Machine.Performs [Device D] (m : Machine D) (events : List Event) (last : Machine D) : Prop :=
  ∃ r, m.recording.Halts r ∧ r.map Recorded.device = last ∧ r.memory.device.events = events

section
variable [Device D] {m last : Machine D}

theorem Machine.Performs.halts {events : List Event} (h : m.Performs events last) : m.Halts last := by
  obtain ⟨r, hr, rfl, -⟩ := h
  exact hr.map isDeviceMap_device

theorem Machine.Halts.recorded (h : m.Halts last) :
    ∃ r, m.recording.Halts r ∧ last = r.map Recorded.device :=
  Halts.of_map (m := m.recording) isDeviceMap_device h

omit [Device D] in
/-- A recording machine is loaded like another. -/
theorem Machine.load_recording {words : List Word} {m₀ : Machine D} :
    m₀.recording.load words = mapState recording (m₀.load words) :=
  load_map _ words m₀

end

/-! ## Recorded runs keep to the same rules -/

section
variable [Device D] [Device E] {f : D → E} (hf : IsDeviceMap f) {items : List Item}
  {listing : Listing} {start m : Machine D} {scopes : List Scope}
include hf

theorem Machine.Tracks.map (h : Tracks items listing start m scopes) :
    Tracks items listing (start.map f) (m.map f) scopes := by
  induction h with
  | start => exact .start
  | step _ hrecord hstep ih =>
    refine .step ih hrecord ?_
    rw [step_map hf, hstep]
    rfl

theorem Machine.Disciplined.of_map (h : (start.map f).Disciplined items listing) :
    start.Disciplined items listing :=
  ⟨fun m scopes record offset ht => h.assigned (m.map f) scopes record offset (ht.map hf),
    fun m scopes record pointer ht => h.pointers (m.map f) scopes record pointer (ht.map hf)⟩

theorem Machine.Quiet.of_map (h : (start.map f).Quiet items listing) : start.Quiet items listing :=
  fun m scopes load ht => h (m.map f) scopes load (ht.map hf)

end

/-! ## The same behaviour -/

/-- A source text whose run carries out no redundant load through a pointer does the same to its
device with and without its redundant loads: if it halts with them, it halts without them, after the
same accesses, with the same device and the same result. -/
theorem performs_alike [Device D] {source : String} {items : List Item} {listing : Listing}
    {words : List Word} {device : D} {config : Config} {m last : Machine D}
    (hparse : Item.parse source = .ok items)
    (hcompile : compilePlain source = .ok listing) (hassemble : listing.assemble = .ok words)
    (hload : (Machine.new device config).load words = .ok () m)
    (hdisciplined : m.Disciplined items listing) (hquiet : m.Quiet items listing)
    (hhalts : m.Halts last) :
    ∃ words' m' last' events, build source = .ok words' ∧
      (Machine.new device config).load words' = .ok () m' ∧
      m.Performs events last ∧ m'.Performs events last' ∧
      last'.memory.device = last.memory.device ∧ last'.result? = last.result? := by
  obtain ⟨r, hr, rfl⟩ := hhalts.recorded
  have hrload : (Machine.new device config).recording.load words = .ok () m.recording := by
    rw [load_recording, hload]
    rfl
  obtain ⟨p, need, words', r', -, -, -, hbuild, hrload', hslice, hslice', ht, habreast⟩ :=
    twins_of_load hparse hcompile hassemble hrload (.of_map isDeviceMap_device hdisciplined)
      (.of_map isDeviceMap_device hquiet)
  obtain ⟨last', hhalts', hend⟩ := ht.halts (by rw [hslice]; exact sliceSteps_new_pos ..)
    (by rw [hslice']; exact sliceSteps_new_pos ..) habreast hr
  obtain ⟨m', hload', rfl⟩ : ∃ m', (Machine.new device config).load words' = .ok () m' ∧
      r' = m'.recording := by
    rw [load_recording] at hrload'
    cases hl : (Machine.new device config).load words' with
    | ok u m' =>
      rw [hl] at hrload'
      cases hrload'
      exact ⟨m', rfl, rfl⟩
    | error e m' =>
      rw [hl] at hrload'
      cases hrload'
  refine ⟨words', m', last'.map Recorded.device, r.memory.device.events, hbuild, hload',
    ⟨r, hr, rfl, rfl⟩, ⟨last', hhalts', rfl, by rw [hend.device]⟩, ?_, hend.result⟩
  show last'.memory.device.device = r.memory.device.device
  rw [hend.device]

/-! ## A program without such a load -/

/-- The record loads through a pointer. -/
def Record.isPointerLoad : Record → Bool
  | .instruction i =>
    match i.opcode with
    | .load _ _ indirect => indirect
    | _ => false
  | .tag _ | .data _ => false

/-- The loads that a store makes redundant all go through a pointer, or none of them does. -/
theorem Record.isPointerLoad_congr {store a b : Record} (ha : store.reloads a = true)
    (hb : store.reloads b = true) : a.isPointerLoad = b.isPointerLoad := by
  cases store with
  | tag name | data value => cases ha
  | instruction i =>
    cases a with
    | tag name | data value => cases ha
    | instruction j =>
      cases b with
      | tag name | data value => cases hb
      | instruction k =>
        simp only [Record.reloads, Instruction.reloads, Bool.and_eq_true, decide_eq_true_iff] at ha hb
        have hop : j.opcode = k.opcode := Option.some.inj (ha.2.symm.trans hb.2)
        simp only [Record.isPointerLoad, hop]

/-- It is enough to look at neighbours. -/
theorem Machine.quiet_of_isChain [Device D] {items : List Item} {listing : Listing}
    (h : listing.IsChain fun store load => store.reloads load = true → load.isPointerLoad = false)
    (start : Machine D) : start.Quiet items listing := by
  rintro m scopes load - ⟨before, store, loads, rest, hl, hloads, hr, -⟩ register base hop
  have hnext : (Record.instruction load).isPointerLoad = false := by
    rw [hl] at h
    have h := h.right_of_append
    cases loads with
    | nil => exact (List.isChain_cons_cons.mp h).1 hr
    | cons first loads =>
      have hfirst := hloads first (List.mem_cons_self ..)
      rw [Record.isPointerLoad_congr hr hfirst]
      exact (List.isChain_cons_cons.mp h).1 hfirst
  simp [Record.isPointerLoad, hop] at hnext

/-- A terminal with one word of input. -/
def promptTerminal : Terminal := { width := 0, height := 0, input := [9] }

/-- Writes an alert and then takes a word of input into a variable. -/
def promptSource : String :=
  "(FUNC main () (INIT p 0x7FFFFF) (SET *p 5) (INIT x 1) (SET x *p) x)"

def promptItems : List Item :=
  [.function ⟨"main", [], [.declare "p" (.literal 0x7FFFFF), .assign "p" true (.literal 5),
    .declare "x" (.literal 1), .assign "x" false (.reference "p" true), .reference "x" false]⟩]

def promptProgram : Program :=
  ⟨(Item.functions promptItems).map (Function.routine 0), [],
    [(literalTag 0x7FFFFF, 0x7FFFFF), (literalTag 5, 5), (literalTag 1, 1)]⟩

/-- The load of the variable is redundant, and without it the program does the same. -/
theorem performs_alike_prompt :
    ∃ words words', ∃ m m' last last' : Machine Terminal, ∃ events,
      promptProgram.listing.dropReloads.length < promptProgram.listing.length ∧
      promptProgram.listing.assemble = .ok words ∧ build promptSource = .ok words' ∧
      (Machine.new promptTerminal {}).load words = .ok () m ∧
      (Machine.new promptTerminal {}).load words' = .ok () m' ∧
      m.Performs events last ∧ m'.Performs events last' ∧ last'.result? = some 9 ∧
      last'.memory.device.input = [] ∧ last'.memory.device.output = #[.alert 5] := by
  have hparse : Item.parse promptSource = .ok promptItems := by cbv
  have hw : promptProgram.WellFormed :=
    Program.wellFormed_of_forall (by decide +kernel) (by decide +kernel) (by decide +kernel)
  obtain ⟨words, hassemble, hf⟩ := Program.Loads.exists_fits (p := promptProgram) (by decide +kernel)
  have hcompile : compilePlain promptSource = .ok promptProgram.listing :=
    Program.IsGenerated.compilePlain_eq (by decide +kernel) hparse
  have hsurvey : ((View.start promptProgram promptTerminal).survey promptProgram
      (Item.functions promptItems) (2 ^ 16 + (0x10000 : Nat)) 20 []).map
      (fun v => (v.top.slots 1, v.device.input, v.device.output)) =
        some (some 9, [], #[.alert 5]) := by
    decide +kernel
  obtain ⟨view, hs, hlast⟩ := Option.map_eq_some_iff.mp hsurvey
  simp only [Prod.mk.injEq] at hlast
  obtain ⟨m, last, hload, hd, hhalts, hresult, hdevice, -⟩ :=
    hf.loads_of_survey hw {} (by decide) hs hlast.1
  obtain ⟨words', m', last', events, hbuild, hload', hperforms, hperforms', hdevice', hresult'⟩ :=
    performs_alike hparse hcompile hassemble hload hd (quiet_of_isChain (by decide +kernel) m) hhalts
  refine ⟨words, words', m, m', last, last', events, by decide +kernel, hassemble, hbuild, hload,
    hload', hperforms, hperforms', ?_, ?_, ?_⟩
  · rw [hresult', hresult]
  · rw [hdevice', hdevice, hlast.2.1]
  · rw [hdevice', hdevice, hlast.2.2]

/-! ## A program with such a load -/

/-- Writes an alert and then takes a word of input as its value. -/
def askSource : String := "(FUNC main () (INIT p 0x7FFFFF) (SET *p 5) *p)"

def askItems : List Item :=
  [.function ⟨"main", [], [.declare "p" (.literal 0x7FFFFF), .assign "p" true (.literal 5),
    .reference "p" true]⟩]

def askProgram : Program :=
  ⟨(Item.functions askItems).map (Function.routine 0), [],
    [(literalTag 0x7FFFFF, 0x7FFFFF), (literalTag 5, 5)]⟩

/-- With all its loads, the program takes the word of input and returns it. The load that takes it
stands behind a store to the same place and is dropped, so the program that is built leaves the
input alone and returns what it has written. -/
theorem performs_unlike_ask :
    ∃ words words', ∃ m m' last last' : Machine Terminal,
      compilePlain askSource = .ok askProgram.listing ∧
      askProgram.listing.assemble = .ok words ∧ build askSource = .ok words' ∧
      (Machine.new promptTerminal {}).load words = .ok () m ∧
      (Machine.new promptTerminal {}).load words' = .ok () m' ∧
      m.Disciplined askItems askProgram.listing ∧
      m.Halts last ∧ last.result? = some 9 ∧ last.memory.device.input = [] ∧
      m'.Halts last' ∧ last'.result? = some 5 ∧ last'.memory.device.input = [9] := by
  have hparse : Item.parse askSource = .ok askItems := by cbv
  have hw : askProgram.WellFormed :=
    Program.wellFormed_of_forall (by decide +kernel) (by decide +kernel) (by decide +kernel)
  obtain ⟨words, hassemble, hf⟩ := Program.Loads.exists_fits (p := askProgram) (by decide +kernel)
  obtain ⟨words', hassemble', hf'⟩ :=
    Program.Loads.exists_fits (p := askProgram.optimized) (by decide +kernel)
  have hcompile : compilePlain askSource = .ok askProgram.listing :=
    Program.IsGenerated.compilePlain_eq (by decide +kernel) hparse
  rw [Program.listing_optimized hw.named] at hassemble'
  have hsurvey : ((View.start askProgram promptTerminal).survey askProgram
      (Item.functions askItems) (2 ^ 16 + (0x10000 : Nat)) 20 []).map
      (fun v => (v.top.slots 1, v.device.input)) = some (some 9, []) := by
    decide +kernel
  have hsurvey' : ((View.start askProgram.optimized promptTerminal).survey askProgram.optimized
      (Item.functions askItems) (2 ^ 16 + (0x10000 : Nat)) 20 []).map
      (fun v => (v.top.slots 1, v.device.input)) = some (some 5, [9]) := by
    decide +kernel
  obtain ⟨view, hs, hview⟩ := Option.map_eq_some_iff.mp hsurvey
  obtain ⟨view', hs', hview'⟩ := Option.map_eq_some_iff.mp hsurvey'
  simp only [Prod.mk.injEq] at hview hview'
  obtain ⟨m, last, hload, hd, hhalts, hresult, hdevice, -⟩ :=
    hf.loads_of_survey hw {} (by decide) hs hview.1
  obtain ⟨m', last', hload', -, hhalts', hresult', hdevice', -⟩ :=
    hf'.loads_of_survey hw.optimized {} (by decide) hs' hview'.1
  exact ⟨words, words', m, m', last, last', hcompile, hassemble,
    build_of_assemble hcompile hassemble', hload, hload', hd, hhalts, hresult, by rw [hdevice, hview.2],
    hhalts', hresult', by rw [hdevice', hview'.2]⟩

end WordLisp

import WordLisp.Proofs.View.Runs

/-!
# What is left when a program has halted

The value of the entry function and the words of the data, as one finds them in the memory of a
machine that has halted, and as its last view has them.
-/

namespace WordLisp

open Machine

/-- The word at a tag of a listing, in a machine that the words of the listing were loaded into. -/
def Machine.wordAt? (m : Machine D) (listing : Listing) (tag : String) : Option Word :=
  match listing.tags with
  | .error _ => none
  | .ok table => (table.lookup tag).bind fun offset => m.memory.peek? (programBase + offset)

theorem Machine.wordAt?_stopped (m : Machine D) (listing : Listing) (tag : String) :
    m.stopped.wordAt? listing tag = m.wordAt? listing tag := by
  unfold wordAt?
  rw [memory_stopped]

section
variable {p : Program} {words : List Word} {roof : Int}

theorem Program.Fits.tags_eq (hf : p.Fits words) : p.listing.tags = .ok p.table :=
  Listing.tagsFrom_eq [] (k := 0) hf.nodup

theorem Represents.wordAt?_eq (hf : p.Fits words) {m : Machine D} {v : View D}
    (h : Represents p words roof m v) (hroof : (2 ^ 16 : Int) ≤ roof) {tag : String}
    (ht : tag ∈ p.data.map Prod.fst) : m.wordAt? p.listing tag = some (v.data tag) := by
  obtain ⟨-, hlt, hlook⟩ := hf.place_of_mem_data ht
  have hle := hf.le
  unfold programCapacity at hle
  unfold wordAt?
  rw [hf.tags_eq]
  simp only [hlook, Option.bind_some]
  rw [← h.data tag ht]
  exact Memory.peek?_cell (by rw [h.roof]; omega)

theorem resultAddress_eq : resultAddress = cellAddress (programCapacity + 1) := by decide

/-- The last operation is in the code at the start, and behind it the machine has halted. -/
theorem Represents.step_stop [Device D] (hw : p.WellFormed) (hf : p.Fits words) {m : Machine D}
    {v : View D} (h : Represents p words roof m v) {rest : List Op}
    (hc : v.top.code = .stop :: rest) :
    step m = .ok .halted m.stopped ∧ v.top.routine = .boot ∧ v.top.base = programCapacity := by
  have ha := h.agrees_turn hw hf
  rw [View.turn_cons hc] at ha
  obtain ⟨hstep, hbelow⟩ := ha
  have hl := h.linked
  rw [show v.below = [] from hbelow] at hl
  exact ⟨hstep, hl⟩

/-- There is a stack if the start knows its return slot. -/
theorem Represents.capacity_lt {m : Machine D} {v : View D} (h : Represents p words roof m v)
    (hbase : v.top.base = programCapacity) {w : Word} (hs : v.top.slots 1 = some w) :
    ((programCapacity + 1 : Nat) : Int) < roof := by
  obtain ⟨-, hreach, -⟩ := h.holds 1 w hs
  rw [hbase] at hreach
  rw [← h.roof]
  rcases hreach with hlt | hlt
  · omega
  · exact hlt

/-- The value of the entry function is what the start finds in its return slot. -/
theorem Represents.result?_stopped {m : Machine D} {v : View D} (h : Represents p words roof m v)
    (hbase : v.top.base = programCapacity) {w : Word} (hs : v.top.slots 1 = some w) :
    m.stopped.result? = some w := by
  have hroof := h.capacity_lt hbase hs
  obtain ⟨-, -, hcell⟩ := h.holds 1 w hs
  rw [hbase] at hcell
  rw [← h.roof] at hroof
  unfold result?
  rw [status_stopped]
  simp only [memory_stopped]
  rw [resultAddress_eq, Memory.peek?_cell hroof, hcell]

/-- A machine in front of the last operation halts with what its view has. -/
theorem Represents.halts [Device D] (hw : p.WellFormed) (hf : p.Fits words) {m₀ m : Machine D}
    {v : View D} (hpos : 0 < m₀.sliceSteps) (hsteps : Steps m₀ m)
    (h : Represents p words roof m v) {rest : List Op} (hc : v.top.code = .stop :: rest) {w : Word}
    (hs : v.top.slots 1 = some w) :
    ∃ last, m₀.Halts last ∧ last.status = .halted ∧ last.result? = some w ∧
      last.memory.device = v.device ∧
      ∀ tag ∈ p.data.map Prod.fst, last.wordAt? p.listing tag = some (v.data tag) := by
  obtain ⟨hstop, -, hbase⟩ := h.step_stop hw hf hc
  have hroof := h.capacity_lt hbase hs
  unfold programCapacity at hroof
  refine ⟨m.stopped, (halts_iff hpos).mpr ⟨m, hsteps, hstop⟩, m.status_stopped,
    h.result?_stopped hbase hs, ?_, fun tag ht => ?_⟩
  · rw [memory_stopped, h.device]
  · rw [wordAt?_stopped]
    exact h.wordAt?_eq hf (by omega) ht

end

end WordLisp

import WordLisp.Proofs.Machine.Steps
import WordLisp.Proofs.View.Layout

/-!
# A machine and its view

`Represents p words roof m v`: the machine `m`, which runs the words of the program `p`, has the
view `v`. The known slots and the data are in memory, the words of the program are as loaded but
for the globals, and the frames of the activations lie one above the other, each linked to the
next one below. One step of the machine is one turn of the view.
-/

namespace WordLisp

open Listing Machine

/-! ## Frames in memory -/

/-- The activation is somewhere in the code of its routine, and not at the end. -/
structure Activation.Sits (p : Program) (a : Activation) : Prop where
  has : p.Has a.routine
  small : a.routine.Small
  suffix : a.code <:+ a.routine.code
  nonempty : a.code ≠ []

/-- The known slots are in memory. -/
def Activation.Holds (a : Activation) (mem : Memory D) : Prop :=
  ∀ n w, a.slots n = some w → 1 ≤ n ∧ mem.InReach (a.base + n) ∧ mem.cell (a.base + n) = w

/-- The frame of `a` lies on that of its caller `b` and leads back to it. -/
structure Link (p : Program) (mem : Memory D) (a b : Activation) : Prop where
  routine : a.routine ∈ p.routines
  base : a.base = b.top
  fits : (a.top : Int) ≤ mem.roof
  saved : mem.cell a.base = cellAddress b.base
  back : mem.cell (a.base - 1) = cellAddress (p.position b)
  sits : b.Sits p
  call : ∃ ops name, b.routine.code = ops ++ .call name :: b.code ∧ a.routine.name = some name
  holds : b.Holds mem
  forgets : ∀ n, b.routine.frame.returnSlot < n → b.slots n = none

/-- The frames of an activation and of its callers, down to the start of the program. -/
def Linked (p : Program) (mem : Memory D) : Activation → List Activation → Prop
  | a, [] => a.routine = .boot ∧ a.base = programCapacity
  | a, b :: rest => Link p mem a b ∧ Linked p mem b rest

theorem Linked.capacity_le {p : Program} {mem : Memory D} {a : Activation} {below : List Activation}
    (h : Linked p mem a below) : programCapacity ≤ a.base := by
  induction below generalizing a with
  | nil => exact h.2.ge
  | cons b below ih =>
    have := ih h.2
    have hb := h.1.base
    unfold Activation.top at hb
    omega

theorem Linked.top_lt {p : Program} {mem : Memory D} {a : Activation} {below : List Activation}
    (h : Linked p mem a below) : a.top < placeBound := by
  cases below with
  | nil =>
    unfold Activation.top
    rw [h.1, h.2]
    decide
  | cons b below =>
    have := h.1.fits
    have := mem.roof_lt
    omega

theorem Activation.Holds.congr {a : Activation} {mem mem' : Memory D} (hr : mem'.roof = mem.roof)
    (hc : ∀ n, 1 ≤ n → a.slots n ≠ none → mem'.cell (a.base + n) = mem.cell (a.base + n))
    (h : a.Holds mem) : a.Holds mem' := by
  intro n w hs
  obtain ⟨h1, hreach, hcell⟩ := h n w hs
  refine ⟨h1, ?_, ?_⟩
  · unfold Memory.InReach at hreach ⊢
    rwa [hr]
  · rw [hc n h1 (by rw [hs]; exact Option.some_ne_none w)]; exact hcell

theorem Activation.Holds.put {a : Activation} {mem : Memory D} {n : Nat} {w : Word}
    (h : a.Holds mem) (hn : 1 ≤ n) (hreach : mem.InReach (a.base + n)) :
    (a.put n w).Holds (mem.setCell (a.base + n) w) := by
  intro k u hk
  rw [Activation.base_put, Memory.inReach_setCell]
  by_cases he : k = n
  · subst he
    rw [Activation.slots_put_self] at hk
    cases hk
    exact ⟨hn, hreach, Memory.cell_setCell_self hreach w⟩
  · rw [Activation.slots_put_of_ne _ he] at hk
    obtain ⟨h1, h2, h3⟩ := h k u hk
    exact ⟨h1, h2, by rw [Memory.cell_setCell_of_ne (by omega)]; exact h3⟩

theorem Activation.Holds.forget {a : Activation} {mem : Memory D} (h : a.Holds mem) :
    a.forget.Holds mem := by
  intro n w hs
  by_cases hlt : n < a.routine.frame.returnSlot
  · rw [Activation.slots_forget_of_lt hlt] at hs
    exact h n w hs
  · rw [Activation.slots_forget_of_le (by omega)] at hs
    cases hs

/-- The parameters of a called routine are slots that its caller holds above its frame. -/
theorem Activation.Holds.enter {a : Activation} {mem : Memory D} (h : a.Holds mem) (r : Routine) :
    (a.enter r).Holds mem := by
  intro n w hs
  have hs : (if 1 ≤ n ∧ n ≤ r.arity then a.slots (a.routine.frame.size + n) else none) = some w := hs
  split at hs
  · next hn =>
    obtain ⟨-, hreach, hcell⟩ := h _ w hs
    rw [← Nat.add_assoc] at hreach hcell
    exact ⟨hn.1, hreach, hcell⟩
  · cases hs

/-- The links lie at the base of the topmost frame and below. -/
theorem Linked.congr {p : Program} {mem mem' : Memory D} (hr : mem'.roof = mem.roof)
    {a : Activation} {below : List Activation}
    (hc : ∀ k, programCapacity ≤ k → k ≤ a.base → mem'.cell k = mem.cell k)
    (h : Linked p mem a below) : Linked p mem' a below := by
  induction below generalizing a with
  | nil => exact h
  | cons b below ih =>
    obtain ⟨hl, hrest⟩ := h
    have hcap := hrest.capacity_le
    have hbase := hl.base
    unfold Activation.top Frame.size at hbase
    refine ⟨⟨hl.routine, hl.base, by rw [hr]; exact hl.fits, ?_, ?_, hl.sits, hl.call, ?_,
      hl.forgets⟩, ih (fun k h1 h2 => hc k h1 (by omega)) hrest⟩
    · rw [hc _ (by omega) (by omega)]; exact hl.saved
    · rw [hc _ (by omega) (by omega)]; exact hl.back
    · refine hl.holds.congr hr fun n _ hn => hc _ (by omega) ?_
      by_contra hlt
      exact hn (hl.forgets n (by omega))

/-- Where the topmost activation is in its code, and what it knows, plays no part in the links. -/
theorem Linked.of_eq {p : Program} {mem : Memory D} {a a' : Activation} {below : List Activation}
    (h : Linked p mem a below) (hr : a'.routine = a.routine) (hb : a'.base = a.base) :
    Linked p mem a' below := by
  have ht : a'.top = a.top := by unfold Activation.top; rw [hr, hb]
  cases below with
  | nil => exact ⟨hr.trans h.1, hb.trans h.2⟩
  | cons b below =>
    obtain ⟨hl, hrest⟩ := h
    exact ⟨⟨hr ▸ hl.routine, hb ▸ hl.base, ht ▸ hl.fits, hb ▸ hl.saved, hb ▸ hl.back, hl.sits,
      hr ▸ hl.call, hl.holds, hl.forgets⟩, hrest⟩

structure Represents (p : Program) (words : List Word) (roof : Int) (m : Machine D) (v : View D) :
    Prop where
  pc : m.registers.pc = cellAddress (p.position v.top)
  left : m.registers.left = v.left
  right : m.registers.right = v.right
  frameBase : m.registers.frameBase = cellAddress v.top.base
  stackTop : m.registers.stackTop = cellAddress v.top.top
  device : m.memory.device = v.device
  roof : m.memory.roof = roof
  program : ∀ k < programCapacity, ¬ p.IsGlobalCell k → m.memory.cell k = words.getD k 0
  data : ∀ tag ∈ p.data.map Prod.fst, m.memory.cell (p.place tag) = v.data tag
  sits : v.top.Sits p
  holds : v.top.Holds m.memory
  linked : Linked p m.memory v.top v.below

namespace Represents

section
variable {p : Program} {words : List Word} {roof : Int} {m : Machine D} {v : View D}
  {op : Op} {rest : List Op}
  (hw : p.WellFormed) (hf : p.Fits words) (h : Represents p words roof m v)

/-! ## The next operation -/

include hw in
/-- An operation that does not leave the routine is followed by another. -/
theorem sits_rest {a : Activation} (hs : a.Sits p) (hc : a.code = op :: rest)
    (hret : op ≠ .ret) (hstop : op ≠ .stop) : (a.goto rest).Sits p := by
  obtain ⟨before, hb⟩ := hs.suffix
  rw [hc] at hb
  refine ⟨hs.has, hs.small, ⟨before ++ [op], by simpa using hb⟩, ?_⟩
  rintro rfl
  obtain ⟨ops, last, hlast, hor⟩ := hw.ends _ hs.has
  rw [← hb] at hlast
  have : op = last := (List.append_inj' hlast rfl).2 |> List.singleton_inj.mp
  rcases hor with rfl | rfl
  · exact hret this
  · exact hstop this

theorem mem_code {a : Activation} (hs : a.Sits p) (hc : a.code = op :: rest) :
    op ∈ a.routine.code :=
  hs.suffix.subset (by rw [hc]; exact List.mem_cons_self ..)

include hw hf h in
/-- The machine is at the word of the operation. -/
theorem at_op (hc : v.top.code = op :: rest) {i : Instruction} (hi : op.record = .instruction i) :
    ∃ j, resolve p.table i = .ok j ∧ m.At (p.position v.top) j ∧
      p.position (v.top.goto rest) = p.position v.top + 1 := by
  have hs := h.sits
  obtain ⟨hp, hl⟩ := hf.placed_suffix hw hs.has hs.suffix
  have hend := hf.codeEnd_le
  have hle := hf.le
  rw [hc] at hp hl
  have hne : ∀ name, op ≠ .tag name := by
    rintro name rfl
    cases hi
  rw [Op.words_cons hne] at hl
  rw [Op.listing_cons, hi] at hp
  obtain ⟨⟨w, ⟨j, hj, henc⟩, hword⟩, -⟩ := hp
  refine ⟨j, hj, ⟨h.pc, by omega, ?_⟩, ?_⟩
  · rw [h.program _ (by omega) (hf.not_isGlobalCell (by omega)), List.getD_eq_getElem?_getD, hword]
    exact Instruction.decode?_encode henc
  · obtain ⟨before, hb⟩ := hs.suffix
    unfold Program.position
    rw [Activation.code_goto, Activation.routine_goto, ← hb, hc, Op.words_append, Op.words_cons hne]
    omega

/-! ## Turns that touch no cell -/

include h in
/-- The machine goes on elsewhere in the routine, with other registers and another device. -/
theorem move {code : List Op} {m' : Machine D} {v' : View D} (hs : (v.top.goto code).Sits p)
    (hpc : m'.registers.pc = cellAddress (p.position (v.top.goto code)))
    (hl : m'.registers.left = v'.left) (hr : m'.registers.right = v'.right)
    (hb : m'.registers.frameBase = m.registers.frameBase)
    (ht : m'.registers.stackTop = m.registers.stackTop)
    (hmem : m'.memory = m.memory.withDevice v'.device) (hdata : v'.data = v.data)
    (htop : v'.top = v.top.goto code) (hbelow : v'.below = v.below) :
    Represents p words roof m' v' where
  pc := by rw [hpc, htop]
  left := hl
  right := hr
  frameBase := by rw [hb, htop]; exact h.frameBase
  stackTop := by rw [ht, htop]; exact h.stackTop
  device := by rw [hmem]; rfl
  roof := by rw [hmem]; exact h.roof
  program := by rw [hmem]; exact h.program
  data := by rw [hmem, hdata]; exact h.data
  sits := by rw [htop]; exact hs
  holds := by rw [hmem, htop]; exact h.holds
  linked := by
    rw [hmem, htop, hbelow]
    have hl : Linked p m.memory (v.top.goto code) v.below :=
      h.linked.of_eq rfl rfl
    exact hl.congr (m.memory.roof_withDevice _) fun _ _ _ => rfl

end

/-! ## Turns -/

/-- What the machine does agrees with a turn. -/
def Agrees [Device D] (p : Program) (words : List Word) (roof : Int) (m : Machine D) : Turn D → Prop
  | .skip v => Represents p words roof m v
  | .next v => ∃ m', step m = .ok .running m' ∧ Represents p words roof m' v
  | .halt v => step m = .ok .halted m.stopped ∧ v.below = []
  | .fault e => ∃ m', step m = .error e m'
  | .astray => True

section
variable [Device D] {p : Program} {words : List Word} {roof : Int} {m : Machine D} {v : View D}
  {op : Op} {rest : List Op}
  (hw : p.WellFormed) (hf : p.Fits words) (h : Represents p words roof m v)

/-- What the slots that are not known happen to hold. -/
def stale (m : Machine D) (v : View D) (n : Nat) : Word := m.memory.cell (v.top.base + n)

omit [Device D] in
include h in
/-- Only the start of a program has no callers. -/
theorem link_of_ne (hc : v.top.code = op :: rest) (hcall : ∀ name, op ≠ .call name)
    (hstop : op ≠ .stop) : ∃ b below, v.below = b :: below ∧ Link p m.memory v.top b ∧
      Linked p m.memory b below := by
  have hl := h.linked
  cases hb : v.below with
  | nil =>
    rw [hb] at hl
    have hm := mem_code h.sits hc
    rw [hl.1] at hm
    rcases List.mem_cons.mp hm with rfl | hm
    · exact absurd rfl (hcall _)
    · rw [List.mem_singleton.mp hm] at hstop
      exact absurd rfl hstop
  | cons b below =>
    rw [hb] at hl
    exact ⟨b, below, rfl, hl⟩

omit [Device D] in
theorem toInt_slot {n : Nat} (hn : n < 2 ^ 31) : (Int32.ofNat n).toInt = n :=
  Int32.toInt_ofNat_of_lt hn

omit [Device D] in
include h in
/-- A slot holds its content, known or not. -/
theorem cell_slot (n : Nat) : m.memory.cell (v.top.base + n) = v.value (stale m v) (.slot n) := by
  show _ = (v.top.slots n).getD _
  cases hs : v.top.slots n with
  | none => rfl
  | some w => exact (h.holds n w hs).2.2

omit [Device D] in
include hf h in
/-- An operand is in memory. -/
theorem operand {x : Operand} {make : Register → Base → Bool → Opcode} {indirect : Bool}
    {j : Instruction} {b : Activation} (hl : Link p m.memory v.top b)
    (hx : x.Readable p v.top.routine)
    (hj : resolve p.table (x.instruction make indirect) = .ok j) :
    ∃ base offset k, IsAccess (make .left base indirect) offset j ∧ m.Locates base offset k ∧
      m.memory.InReach k ∧ m.memory.cell k = v.value (stale m v) x := by
  cases x with
  | cell name =>
    obtain ⟨-, hlt, hlook⟩ := hf.place_of_mem_data hx
    have hle := hf.le
    have hj : resolve p.table (.addressed (make .left .program indirect) (.tag name)) = .ok j := hj
    rw [resolve, hlook] at hj
    cases hj
    exact ⟨.program, _, p.place name, .inl rfl, rfl, .inl (by omega), h.data name hx⟩
  | slot n =>
    cases hj
    have hsmall := h.sits.small
    have hroof := m.memory.roof_lt
    have hfits := hl.fits
    have hx : 1 ≤ n ∧ n ≤ v.top.routine.frame.returnSlot := hx
    unfold Routine.Small Frame.size at hsmall
    unfold Activation.top Frame.size at hfits
    have hreach : m.memory.InReach (v.top.base + n) := .inr (by omega)
    refine ⟨.frame, _, v.top.base + n, .inr rfl, ⟨v.top.base, h.frameBase, by omega, ?_⟩, hreach,
      h.cell_slot n⟩
    rw [toInt_slot (by omega)]
    omega

include hw hf h in
theorem agrees_load {x : Operand} {indirect : Bool} (hc : v.top.code = .load x indirect :: rest) :
    Agrees p words roof m (v.turn p roof (stale m v)) := by
  obtain ⟨b, below, hb, hl, -⟩ := h.link_of_ne hc (by simp) (by simp)
  have hx : x.Readable p v.top.routine :=
    hw.allowed _ h.sits.has h.sits.small _ (mem_code h.sits hc)
  obtain ⟨j, hj, hat, hpos⟩ := h.at_op hw hf hc rfl
  obtain ⟨base, offset, k, hi, hloc, hreach, hcell⟩ := h.operand hf hl hx hj
  have hs := sits_rest hw h.sits hc (by simp) (by simp)
  have hpc : cellAddress (p.position v.top + 1) = cellAddress (p.position (v.top.goto rest)) := by
    rw [hpos]
  rw [View.turn_cons hc]
  cases indirect with
  | false =>
    refine ⟨_, step_load hat hi hloc hreach, ?_⟩
    exact h.move hs hpc hcell h.right rfl rfl (by rw [← h.device]; rfl) rfl rfl rfl
  | true =>
    simp only [View.exec, View.load, View.value_goto, ← hcell]
    simp only [← h.device]
    split
    · next hd =>
      exact ⟨_, step_load_device hat hi hloc hreach hd,
        h.move hs hpc rfl h.right rfl rfl rfl rfl rfl rfl⟩
    · trivial

include hw hf h in
theorem agrees_store_device {x : Operand} (hc : v.top.code = .store x true :: rest) :
    Agrees p words roof m (v.turn p roof (stale m v)) := by
  obtain ⟨b, below, hb, hl, -⟩ := h.link_of_ne hc (by simp) (by simp)
  have hx : x.Readable p v.top.routine :=
    hw.allowed _ h.sits.has h.sits.small _ (mem_code h.sits hc)
  obtain ⟨j, hj, hat, hpos⟩ := h.at_op hw hf hc rfl
  obtain ⟨base, offset, k, hi, hloc, hreach, hcell⟩ := h.operand hf hl hx hj
  have hs := sits_rest hw h.sits hc (by simp) (by simp)
  have hpc : cellAddress (p.position v.top + 1) = cellAddress (p.position (v.top.goto rest)) := by
    rw [hpos]
  rw [View.turn_cons hc]
  simp only [View.exec, View.store, View.value_goto, ← hcell]
  simp only [← h.device, ← h.left]
  split
  · next hd =>
    exact ⟨_, step_store_device hat hi hloc hreach hd,
      h.move hs hpc rfl h.right rfl rfl rfl rfl rfl rfl⟩
  · trivial

omit [Device D] in
include hw h in
/-- The next operation has been taken off the code, and nothing else has happened. -/
theorem advance (hc : v.top.code = op :: rest) (hret : op ≠ .ret) (hstop : op ≠ .stop)
    (hpos : p.position (v.top.goto rest) = p.position v.top + 1) :
    Represents p words roof (m.goto (p.position v.top + 1)) { v with top := v.top.goto rest } :=
  h.move (sits_rest hw h.sits hc hret hstop) (by rw [hpos]; rfl) h.left h.right rfl rfl
    (by rw [← h.device]; rfl) rfl rfl rfl

/-! ## New contents of cells -/

omit [Device D] in
include hf h in
/-- The words of the program are not touched when a cell of the stack is. -/
theorem program_setCell {k : Nat} {w : Word} (hk : programCapacity ≤ k) :
    (∀ i < programCapacity, ¬ p.IsGlobalCell i → (m.memory.setCell k w).cell i = words.getD i 0) ∧
      ∀ tag ∈ p.data.map Prod.fst, (m.memory.setCell k w).cell (p.place tag) = v.data tag := by
  constructor
  · intro i hi hg
    rw [Memory.cell_setCell_of_ne (by omega)]
    exact h.program i hi hg
  · intro tag htag
    obtain ⟨-, hlt, -⟩ := hf.place_of_mem_data htag
    have hle := hf.le
    rw [Memory.cell_setCell_of_ne (by omega)]
    exact h.data tag htag

omit [Device D] in
include hf h in
theorem put {n : Nat} {w : Word} (hn : 1 ≤ n) (hreach : m.memory.InReach (v.top.base + n)) :
    Represents p words roof (m.withMemory (m.memory.setCell (v.top.base + n) w))
      { v with top := v.top.put n w } := by
  have hcap := h.linked.capacity_le
  obtain ⟨hprog, hdata⟩ := h.program_setCell hf (k := v.top.base + n) (w := w) (by omega)
  refine ⟨h.pc, h.left, h.right, h.frameBase, h.stackTop, h.device, ?_, hprog, hdata, ?_, ?_, ?_⟩
  · rw [← h.roof]; exact Memory.roof_setCell _ _ _
  · exact ⟨h.sits.has, h.sits.small, h.sits.suffix, h.sits.nonempty⟩
  · exact h.holds.put hn hreach
  · have hl : Linked p m.memory (v.top.put n w) v.below :=
      h.linked.of_eq rfl rfl
    refine hl.congr (Memory.roof_setCell _ _ _) fun k _ hk => ?_
    have hk : k ≤ v.top.base := hk
    exact Memory.cell_setCell_of_ne (by omega) _ _

omit [Device D] in
include hf h in
theorem putData {tag : String} {w : Word} (htag : tag ∈ p.globals.map Prod.fst) :
    Represents p words roof (m.withMemory (m.memory.setCell (p.place tag) w))
      { v with data := Function.update v.data tag w } := by
  have hmem := Program.Fits.mem_data_of_mem_globals htag
  obtain ⟨-, hlt, -⟩ := hf.place_of_mem_data hmem
  have hle := hf.le
  have hcap := h.linked.capacity_le
  have hstack (k : Nat) (hk : programCapacity ≤ k) :
      (m.memory.setCell (p.place tag) w).cell k = m.memory.cell k :=
    Memory.cell_setCell_of_ne (by omega) _ _
  refine ⟨h.pc, h.left, h.right, h.frameBase, h.stackTop, h.device, ?_, ?_, ?_, h.sits, ?_, ?_⟩
  · rw [← h.roof]; exact Memory.roof_setCell _ _ _
  · intro k hk hg
    have hne : p.place tag ≠ k := fun he => hg ⟨tag, htag, he.symm⟩
    show (m.memory.setCell _ w).cell k = _
    rw [Memory.cell_setCell_of_ne hne]
    exact h.program k hk hg
  · intro t ht
    show (m.memory.setCell _ w).cell (p.place t) = Function.update v.data tag w t
    by_cases he : t = tag
    · rw [he, Function.update_self]
      exact Memory.cell_setCell_self (.inl (by omega)) w
    · rw [Function.update_of_ne he, Memory.cell_setCell_of_ne fun hp => he (hf.place_inj ht hmem hp.symm)]
      exact h.data t ht
  · exact h.holds.congr (Memory.roof_setCell _ _ _) fun n _ _ => hstack _ (by dsimp only; omega)
  · exact h.linked.congr (Memory.roof_setCell _ _ _) fun k hk _ => hstack k hk

omit [Device D] in
include hf h in
/-- The topmost activation leaves its value with its caller. -/
theorem putBelow {b : Activation} {below : List Activation} {w : Word} (hb : v.below = b :: below) :
    m.memory.InReach (b.base + b.routine.frame.returnSlot) ∧
    Represents p words roof
      (m.withMemory (m.memory.setCell (b.base + b.routine.frame.returnSlot) w))
      { v with below := b.put b.routine.frame.returnSlot w :: below } := by
  have hlinked := h.linked
  rw [hb] at hlinked
  obtain ⟨hl, hrest⟩ := hlinked
  have hcap := hrest.capacity_le
  have hbase := hl.base
  have hfits := hl.fits
  have hone : 1 ≤ b.routine.frame.returnSlot := by
    unfold Frame.returnSlot Frame.tempStart; omega
  unfold Activation.top Frame.size at hbase hfits
  have hreach : m.memory.InReach (b.base + b.routine.frame.returnSlot) := .inr (by omega)
  obtain ⟨hprog, hdata⟩ :=
    h.program_setCell hf (k := b.base + b.routine.frame.returnSlot) (w := w) (by omega)
  have hne (k : Nat) (hk : k ≠ b.base + b.routine.frame.returnSlot) :
      (m.memory.setCell (b.base + b.routine.frame.returnSlot) w).cell k = m.memory.cell k :=
    Memory.cell_setCell_of_ne (Ne.symm hk) _ _
  have hroof := m.memory.roof_setCell (b.base + b.routine.frame.returnSlot) w
  refine ⟨hreach, h.pc, h.left, h.right, h.frameBase, h.stackTop, h.device, ?_, hprog, hdata, h.sits,
    ?_, ⟨hl.routine, hl.base, ?_, ?_, ?_, ?_, hl.call, ?_, ?_⟩, ?_⟩
  · rw [← h.roof]; exact hroof
  · exact h.holds.congr hroof fun n _ _ => hne _ (by dsimp only; omega)
  · exact hroof ▸ hl.fits
  · exact (hne _ (by dsimp only; omega)).trans hl.saved
  · exact (hne _ (by dsimp only; omega)).trans hl.back
  · exact ⟨hl.sits.has, hl.sits.small, hl.sits.suffix, hl.sits.nonempty⟩
  · exact hl.holds.put hone hreach
  · intro n hn
    have hn : b.routine.frame.returnSlot < n := hn
    rw [Activation.slots_put_of_ne _ (by omega)]
    exact hl.forgets n hn
  · have hrest' : Linked p m.memory (b.put b.routine.frame.returnSlot w) below :=
      hrest.of_eq rfl rfl
    refine hrest'.congr hroof fun k _ hk => hne _ ?_
    have hk : k ≤ b.base := hk
    omega

/-! ## Stores -/

include hw hf h in
theorem agrees_store {x : Operand} (hc : v.top.code = .store x false :: rest) :
    Agrees p words roof m (v.turn p roof (stale m v)) := by
  obtain ⟨b, below, hb, hl, -⟩ := h.link_of_ne hc (by simp) (by simp)
  have hx : x.Writable p v.top.routine :=
    hw.allowed _ h.sits.has h.sits.small _ (mem_code h.sits hc)
  obtain ⟨j, hj, hat, hpos⟩ := h.at_op hw hf hc rfl
  have hadv := h.advance hw hc (by simp) (by simp) hpos
  have hleft : m.registers.get .left = v.left := h.left
  cases x with
  | cell name =>
    rw [View.turn_cons hc]
    have hmem := Program.Fits.mem_data_of_mem_globals (p := p) hx
    obtain ⟨-, hlt, hlook⟩ := hf.place_of_mem_data hmem
    have hle := hf.le
    have hj : resolve p.table (.addressed (.store .left .program false) (.tag name)) = .ok j := hj
    rw [resolve, hlook] at hj
    cases hj
    refine ⟨_, step_store hat (.inl rfl) rfl (.inl (by omega)), ?_⟩
    rw [hleft]
    exact hadv.putData hf hx
  | slot n =>
    cases hj
    have hsmall := h.sits.small
    have hroof := m.memory.roof_lt
    have hfits := hl.fits
    have hcap := h.linked.capacity_le
    have hx : (1 ≤ n ∧ n < v.top.routine.frame.returnSlot) ∨
      (v.top.routine.frame.size < n ∧ n < 2 ^ 19) := hx
    unfold Routine.Small at hsmall
    unfold Activation.top at hfits
    have hsize : v.top.routine.frame.size = v.top.routine.frame.returnSlot + 2 := rfl
    have hn : 1 ≤ n ∧ n < 2 ^ 19 := by omega
    have hoff : (v.top.base : Int) + (Int32.ofNat n).toInt = (v.top.base + n : Nat) := by
      rw [toInt_slot (by omega)]; omega
    have hbl : v.top.base < placeBound := by omega
    have hr := h.roof
    by_cases hlt : (v.top.base + n : Int) < roof
    · rw [View.turn_put hc hlt]
      have hreach : m.memory.InReach (v.top.base + n) := .inr (by push_cast; omega)
      refine ⟨_, step_store hat (.inr rfl) ⟨v.top.base, h.frameBase, hbl, hoff⟩ hreach, ?_⟩
      rw [hleft]
      exact hadv.put hf hn.1 hreach
    · rw [View.turn_put_out hc (by omega)]
      exact ⟨_, step_store_out hat h.frameBase hbl hoff (by omega) (by push_cast; omega)⟩

include hw hf h in
theorem agrees_yield (hc : v.top.code = .yield :: rest) :
    Agrees p words roof m (v.turn p roof (stale m v)) := by
  obtain ⟨b, below, hb, hl, -⟩ := h.link_of_ne hc (by simp) (by simp)
  obtain ⟨j, hj, hat, hpos⟩ := h.at_op hw hf hc rfl
  have hadv := h.advance hw hc (by simp) (by simp) hpos
  obtain ⟨hreach, hput⟩ := hadv.putBelow hf hb (w := v.left)
  cases hj
  have hroof := m.memory.roof_lt
  have hfits := hl.fits
  have hbase := hl.base
  unfold Activation.top Frame.size at hfits hbase
  rw [View.turn_cons hc]
  simp only [View.exec, hb]
  have hoff : (v.top.base : Int) + (-2 : Word).toInt
      = (b.base + b.routine.frame.returnSlot : Nat) := by
    have : (-2 : Word).toInt = -2 := by decide
    omega
  refine ⟨_, step_store hat (.inr rfl) ⟨v.top.base, h.frameBase, by omega, hoff⟩ hreach, ?_⟩
  rw [show m.registers.get .left = v.left from h.left]
  exact hput

/-! ## Registers and control -/

include hw hf h in
theorem agrees_unary {operator : UnaryOp} (hc : v.top.code = .unary operator :: rest) :
    Agrees p words roof m (v.turn p roof (stale m v)) := by
  obtain ⟨j, hj, hat, hpos⟩ := h.at_op hw hf hc rfl
  cases hj
  rw [View.turn_cons hc]
  simp only [View.exec, ← h.left]
  exact ⟨_, step_unary hat, h.move (sits_rest hw h.sits hc (by simp) (by simp))
    (by rw [hpos]; rfl) rfl h.right rfl rfl (by rw [← h.device]; rfl) rfl rfl rfl⟩

include hw hf h in
theorem agrees_binary {operator : BinaryOp} (hc : v.top.code = .binary operator :: rest) :
    Agrees p words roof m (v.turn p roof (stale m v)) := by
  obtain ⟨j, hj, hat, hpos⟩ := h.at_op hw hf hc rfl
  cases hj
  rw [View.turn_cons hc]
  simp only [View.exec, ← h.left, ← h.right]
  exact ⟨_, step_binary hat, h.move (sits_rest hw h.sits hc (by simp) (by simp))
    (by rw [hpos]; rfl) rfl rfl rfl rfl (by rw [← h.device]; rfl) rfl rfl rfl⟩

include hw hf h in
theorem agrees_swap (hc : v.top.code = .swap :: rest) :
    Agrees p words roof m (v.turn p roof (stale m v)) := by
  obtain ⟨j, hj, hat, hpos⟩ := h.at_op hw hf hc rfl
  cases hj
  rw [View.turn_cons hc]
  exact ⟨_, step_swap hat, h.move (sits_rest hw h.sits hc (by simp) (by simp))
    (by rw [hpos]; rfl) h.right h.left rfl rfl (by rw [← h.device]; rfl) rfl rfl rfl⟩

omit [Device D] in
include hw hf h in
/-- A tag of the routine is where the machine finds it. -/
theorem target {opcode : Opcode} {name : String} {j : Instruction}
    (ht : .tag name ∈ v.top.routine.code)
    (hj : resolve p.table (Generator.toTag opcode name) = .ok j) :
    j = .addressed opcode (.offset (Int32.ofNat (p.place name))) ∧
      p.place name ≤ programCapacity ∧ (v.top.goto (v.top.target name)).Sits p ∧
      p.position (v.top.goto (v.top.target name)) = p.place name := by
  obtain ⟨hpos, hlook, hle, hs, r, hr⟩ := hf.position_target hw h.sits.has ht
  have hend := hf.codeEnd_le
  have hcap := hf.le
  have hj : resolve p.table (.addressed opcode (.tag name)) = .ok j := hj
  rw [resolve, hlook] at hj
  cases hj
  exact ⟨rfl, by omega, ⟨h.sits.has, h.sits.small, hs, by rw [Activation.code_goto, hr]; simp⟩, hpos⟩

include hw hf h in
theorem agrees_jump {name : String} (hc : v.top.code = .jump name :: rest) :
    Agrees p words roof m (v.turn p roof (stale m v)) := by
  have ht : .tag name ∈ v.top.routine.code :=
    hw.allowed _ h.sits.has h.sits.small _ (mem_code h.sits hc)
  obtain ⟨j, hj, hat, -⟩ := h.at_op hw hf hc rfl
  obtain ⟨rfl, hle, hs, hpos⟩ := h.target hw hf ht hj
  rw [View.turn_cons hc]
  exact ⟨_, step_jump hat hle, h.move hs (by rw [hpos]; rfl) h.left h.right rfl rfl
    (by rw [← h.device]; rfl) rfl rfl rfl⟩

include hw hf h in
theorem agrees_branch {name : String} (hc : v.top.code = .branch name :: rest) :
    Agrees p words roof m (v.turn p roof (stale m v)) := by
  have ht : .tag name ∈ v.top.routine.code :=
    hw.allowed _ h.sits.has h.sits.small _ (mem_code h.sits hc)
  obtain ⟨j, hj, hat, hnext⟩ := h.at_op hw hf hc rfl
  obtain ⟨rfl, hle, hs, hpos⟩ := h.target hw hf ht hj
  have hstep := step_branch hat hle
  have hleft : m.registers.get .left = v.left := h.left
  rw [View.turn_cons hc]
  simp only [View.exec]
  by_cases hz : v.left = 0
  · rw [if_pos hz]
    rw [if_pos (hleft.trans hz)] at hstep
    exact ⟨_, hstep, h.advance hw hc (by simp) (by simp) hnext⟩
  · rw [if_neg hz]
    rw [if_neg (hleft ▸ hz)] at hstep
    exact ⟨_, hstep, h.move hs (by rw [hpos]; rfl) h.left h.right rfl rfl
      (by rw [← h.device]; rfl) rfl rfl rfl⟩

include hw hf h in
theorem agrees_stop (hc : v.top.code = .stop :: rest) :
    Agrees p words roof m (v.turn p roof (stale m v)) := by
  have hboot : v.top.routine = .boot :=
    hw.allowed _ h.sits.has h.sits.small _ (mem_code h.sits hc)
  obtain ⟨j, hj, hat, -⟩ := h.at_op hw hf hc rfl
  cases hj
  rw [View.turn_cons hc]
  refine ⟨step_halt hat, ?_⟩
  have hl := h.linked
  cases hb : v.below with
  | nil => rfl
  | cons b below =>
    rw [hb] at hl
    obtain ⟨name, hn⟩ := hw.named _ hl.1.routine
    rw [hboot] at hn
    cases hn

/-! ## Calls and returns -/

omit [Device D] in
include hw h in
/-- The new frame lies on that of the caller and leads back to behind the call. -/
theorem link_entered {name : String} {r : Routine} (hc : v.top.code = .call name :: rest)
    (hpos : p.position (v.top.goto rest) = p.position v.top + 1) (hr : r ∈ p.routines)
    (hn : r.name = some name) (hfits : (v.top.top + r.frame.size : Int) ≤ roof) :
    Link p (m.entered v.top.top r.frame.size (p.place name) (p.position v.top + 1)).memory
      (v.top.enter r) (v.top.goto rest).forget := by
  have hroof := h.roof
  have htop : v.top.top = v.top.base + (v.top.routine.frame.returnSlot + 2) := rfl
  have hrsize : r.frame.size = r.frame.returnSlot + 2 := rfl
  have hs := sits_rest hw h.sits hc (by simp) (by simp)
  obtain ⟨before, hb⟩ := h.sits.suffix
  rw [hc] at hb
  refine ⟨hr, rfl, ?_, ?_, ?_, ⟨hs.has, hs.small, hs.suffix, hs.nonempty⟩,
    ⟨before, name, hb.symm, hn⟩, ?_, fun n hlt => Activation.slots_forget_of_le hlt.le⟩
  · show ((v.top.top + r.frame.size : Nat) : Int) ≤ _
    rw [roof_entered]
    omega
  · exact (cell_entered_base (.inr (by omega))).trans h.frameBase
  · show _ = cellAddress (p.position (v.top.goto rest))
    rw [hpos]
    exact cell_entered_back (by omega) (.inr (by omega))
  · refine Activation.Holds.congr roof_entered (fun n _ hslot => ?_)
      (Activation.Holds.forget (a := v.top.goto rest) h.holds)
    -- the link lies at the end of the caller's frame, behind all that it still knows
    have hlt : n < v.top.routine.frame.returnSlot := by
      by_contra hge
      exact hslot (Activation.slots_forget_of_le (Nat.le_of_not_lt hge))
    exact cell_entered_of_ne (by dsimp only [Activation.base_forget, Activation.base_goto]; omega)
      (by dsimp only [Activation.base_forget, Activation.base_goto]; omega)

omit [Device D] in
include hw hf h in
/-- A call puts a frame on top of the stack and links it to the one below. -/
theorem enter {name : String} {r : Routine} (hc : v.top.code = .call name :: rest)
    (hpos : p.position (v.top.goto rest) = p.position v.top + 1) (hr : r ∈ p.routines)
    (hn : r.name = some name) (hsmall : r.Small) (hfits : (v.top.top + r.frame.size : Int) ≤ roof) :
    Represents p words roof
      (m.entered v.top.top r.frame.size (p.place name) (p.position v.top + 1))
      { v with top := v.top.enter r, below := (v.top.goto rest).forget :: v.below } := by
  have hcap := h.linked.capacity_le
  have htop : v.top.top = v.top.base + (v.top.routine.frame.returnSlot + 2) := rfl
  have hentry : p.position (v.top.enter r) = p.place name := by
    unfold Program.position Program.entry
    simp only [Activation.enter, hn, Nat.sub_self, Nat.add_zero]
  refine ⟨?_, h.left, h.right, rfl, rfl, h.device, roof_entered.trans h.roof, ?_, ?_, ?_, ?_,
    h.link_entered hw hc hpos hr hn hfits, ?_⟩
  · show cellAddress (p.place name) = _
    rw [← hentry]
  · intro k hk hg
    rw [cell_entered_of_ne (by omega) (by omega)]
    exact h.program k hk hg
  · intro tag htag
    obtain ⟨-, hlt, -⟩ := hf.place_of_mem_data htag
    have hle := hf.le
    rw [cell_entered_of_ne (by omega) (by omega)]
    exact h.data tag htag
  · obtain ⟨ops, last, hlast, -⟩ := hw.ends r (.inr hr)
    exact ⟨.inr hr, hsmall, List.suffix_refl _, by
      show r.code ≠ []
      rw [hlast]
      simp⟩
  · refine (h.holds.enter r).congr roof_entered fun n h1 _ => ?_
    show (m.entered _ _ _ _).memory.cell (v.top.top + n) = m.memory.cell (v.top.top + n)
    exact cell_entered_of_ne (by omega) (by omega)
  · have hl : Linked p m.memory (v.top.goto rest).forget v.below :=
      h.linked.of_eq rfl rfl
    refine hl.congr roof_entered fun k _ hk => ?_
    have hk : k ≤ v.top.base := hk
    exact cell_entered_of_ne (by omega) (by omega)

include hw hf h in
theorem agrees_call {name : String} (hc : v.top.code = .call name :: rest) :
    Agrees p words roof m (v.turn p roof (stale m v)) := by
  obtain ⟨r, hr, hn, hsmall⟩ : ∃ r ∈ p.routines, r.name = some name ∧ r.Small :=
    hw.allowed _ h.sits.has h.sits.small _ (mem_code h.sits hc)
  have hfind := hf.find?_eq hr hn
  obtain ⟨hentry, hsize, hlook, -, hend⟩ := hf.placed_routine hr hn
  obtain ⟨j, hj, hat, hpos⟩ := h.at_op hw hf hc rfl
  have hj : resolve p.table (.addressed .call (.tag name)) = .ok j := hj
  rw [resolve, hlook] at hj
  cases hj
  have hcode := hf.codeEnd_le
  have hle := hf.le
  have hroof := h.roof
  have hcap := h.linked.capacity_le
  have htop := h.linked.top_lt
  have hword : m.memory.cell (p.place name - 1) = Int32.ofNat r.frame.size := by
    rw [h.program _ (by omega) (hf.not_isGlobalCell (by omega)), List.getD_eq_getElem?_getD, hsize]
    rfl
  unfold Routine.Small at hsmall
  have hbound : r.frame.size < placeBound := by unfold placeBound; omega
  by_cases hover : roof ≤ v.top.top ∨ roof < (v.top.top + r.frame.size : Int)
  · rw [View.turn_call_overflow hc hfind hover]
    exact ⟨_, step_call_overflow hat hentry (by omega) hword hbound h.stackTop htop (by rwa [hroof])⟩
  · rw [View.turn_call hc hfind (by omega) (by omega)]
    refine ⟨_, step_call hat hentry (by omega) hword hbound h.stackTop htop
      (by unfold Activation.top Frame.size; omega) (by omega) (by omega), ?_⟩
    exact h.enter hw hf hc hpos hr hn hsmall (by omega)

include hw hf h in
theorem agrees_ret (hc : v.top.code = .ret :: rest) :
    Agrees p words roof m (v.turn p roof (stale m v)) := by
  obtain ⟨b, below, hb, hl, hrest⟩ := h.link_of_ne hc (by simp) (by simp)
  obtain ⟨j, hj, hat, -⟩ := h.at_op hw hf hc rfl
  cases hj
  have hcap := hrest.capacity_le
  have hbase := hl.base
  have hfits := hl.fits
  unfold Activation.top Frame.size at hbase hfits
  have hstep := step_ret hat h.frameBase (by omega) (.inr (by omega)) (.inr (by omega))
  obtain ⟨-, hpos⟩ := hf.placed_suffix hw hl.sits.has hl.sits.suffix
  have hend := hf.codeEnd_le
  have hle := hf.le
  rw [status_of_pc (m := m.left v.top.base) hl.back (lt_placeBound_of_le_capacity (by omega))]
    at hstep
  rw [View.turn_cons hc]
  simp only [View.exec, hb]
  refine ⟨_, hstep, hl.back, h.left, h.right, hl.saved, ?_, h.device, h.roof, h.program, h.data,
    hl.sits, hl.holds, hrest⟩
  show cellAddress v.top.base = cellAddress b.top
  rw [hl.base]

/-! ## One step, one turn -/

include hw hf h in
/-- The machine does what the view does. -/
theorem agrees_turn : Agrees p words roof m (v.turn p roof (stale m v)) := by
  cases hc : v.top.code with
  | nil => exact absurd hc h.sits.nonempty
  | cons op rest =>
    cases op with
    | tag name =>
      rw [View.turn_cons hc]
      have hs := sits_rest hw h.sits hc (by simp) (by simp)
      have hpos : p.position (v.top.goto rest) = p.position v.top := by
        unfold Program.position
        rw [hc]
        rfl
      exact h.move hs (by rw [hpos]; exact h.pc) h.left h.right rfl rfl (by rw [← h.device]; rfl) rfl
        rfl rfl
    | load x indirect => exact h.agrees_load hw hf hc
    | store x indirect =>
      cases indirect with
      | false => exact h.agrees_store hw hf hc
      | true => exact h.agrees_store_device hw hf hc
    | yield => exact h.agrees_yield hw hf hc
    | unary operator => exact h.agrees_unary hw hf hc
    | binary operator => exact h.agrees_binary hw hf hc
    | swap => exact h.agrees_swap hw hf hc
    | branch name => exact h.agrees_branch hw hf hc
    | jump name => exact h.agrees_jump hw hf hc
    | stop => exact h.agrees_stop hw hf hc
    | call name => exact h.agrees_call hw hf hc
    | ret => exact h.agrees_ret hw hf hc

end

end Represents

end WordLisp

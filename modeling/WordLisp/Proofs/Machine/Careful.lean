import WordLisp.Proofs.Machine.Faults

/-!
# Arithmetic in range

The machine computes addresses as words, which wrap, and takes cells by their places, which need not exist.
The careful machine of this module does the same in the same order, but computes every address as a number
first, and stops where the number is not a word or the place is not among the cells. The operators of the
working registers are left as they are, because they wrap by definition.

Main statement: from any program, also one that writes over itself, a row of successful steps leads to a
machine whose next step is the step of the careful machine. So nothing wraps there and no cell is missed.
What carries it is that the top of the stack stays between zero and the end of the memory.
-/

namespace WordLisp

/-- Why a careful machine stops. -/
inductive Stop where
  /-- The machine stops as well. -/
  | fault (fault : Fault)
  /-- A sum or a difference is not a word. -/
  | overflow
  /-- A place is not among the cells. -/
  | noCell

namespace Careful

open Machine (toInt_programBase_add)

/-- What a careful machine does in a moment. -/
abbrev Action (D : Type) := EStateM Stop (Machine D)

/-- An action of the machine, done by the careful machine as it is. -/
def plain (a : Machine.Action D α) : Action D α := fun m =>
  match a m with
  | .ok x m' => .ok x m'
  | .error fault m' => .error (.fault fault) m'

/-! ## The careful machine -/

/-- The word that a number is. -/
def word (z : Int) : Action D Word :=
  if (Int32.ofInt z).toInt = z then return Int32.ofInt z else throw .overflow

/-- One past the last address. -/
def limit : Action D Word := do word (programBase.toInt + (← get).memory.ram.size)

/-- The place among the cells of an address from `programBase` up. -/
def place (address : Word) : Action D Nat := do
  let distance ← word (address.toInt - programBase.toInt)
  if 0 ≤ distance.toInt ∧ distance.toInt < (← get).memory.ram.size then return distance.toInt.toNat
  else throw .noCell

def advance : Action D Unit := do
  let pc ← word ((← get).registers.pc.toInt + 1)
  modify fun m => { m with registers := { m.registers with pc }, steps := m.steps + 1 }

section
variable [Device D]

def read (address : Word) : Action D Word := do
  match Region.of? address (← limit) with
  | some .device =>
    modifyGet fun m => ((Device.read address m.memory.device).1,
      m.withMemory (m.memory.withDevice (Device.read address m.memory.device).2))
  | some _ => do
    let i ← place address
    return (← get).memory.cell i
  | none => throw (.fault (.outOfBounds address))

def write (address value : Word) : Action D Unit := do
  match Region.of? address (← limit) with
  | some .device =>
    modify fun m => m.withMemory (m.memory.withDevice (Device.write address value m.memory.device))
  | some _ => do
    let i ← place address
    modify fun m => m.withMemory (m.memory.setCell i value)
  | none => throw (.fault (.outOfBounds address))

def operandAddress (base : Base) (indirect : Bool) (offset : Word) : Action D Word := do
  let address ← match base with
    | .program => word (programBase.toInt + offset.toInt)
    | .frame => plain (Machine.frameAddress offset)
  if indirect then read address else return address

def call (entry : Word) : Action D Unit := do
  let front ← word (entry.toInt - 1)
  let size ← read front
  if size < 0 then throw (.fault (.invalidFrameSize front size))
  let ⟨pc, _, _, frameBase, stackTop⟩ := (← get).registers
  let limit ← limit
  -- The fault reports the sum as a number. It has to be a word only once it is known to be in range.
  let top := stackTop.toInt + size.toInt
  if limit ≤ stackTop ∨ limit.toInt < top then throw (.fault (.stackOverflow top))
  write (← word (stackTop.toInt - 1)) pc
  write stackTop frameBase
  let newTop ← word top
  plain (Machine.modifyRegisters fun r =>
    { r with pc := entry, frameBase := stackTop, stackTop := newTop })

def ret : Action D Unit := do
  let base := (← get).registers.frameBase
  plain (Machine.modifyRegisters fun r => { r with stackTop := base })
  let frameBase ← read base
  plain (Machine.modifyRegisters fun r => { r with frameBase })
  let pc ← read (← word (base.toInt - 1))
  plain (Machine.modifyRegisters fun r => { r with pc })

def execute (unsupported : Fault) (opcode : Opcode) (fields : Fields) : Action D Unit :=
  match opcode with
  | .load register base indirect => do
    let value ← read (← operandAddress base indirect fields.offset)
    plain (Machine.modifyRegisters fun r => r.set value register)
  | .store register base indirect => do
    let address ← operandAddress base indirect fields.offset
    write address ((← get).registers.get register)
  | .branch register => do
    if (← get).registers.get register = 0 then return
    let pc ← word (programBase.toInt + fields.offset.toInt)
    plain (Machine.modifyRegisters fun r => { r with pc })
  | .jump => do
    let pc ← word (programBase.toInt + fields.offset.toInt)
    plain (Machine.modifyRegisters fun r => { r with pc })
  | .call => do call (← word (programBase.toInt + fields.offset.toInt))
  | .ret => ret
  -- No address is computed here.
  | .nop | .unary _ | .binary _ | .swap => plain (Machine.execute unsupported opcode fields)

def step : Action D Status := do
  match (← get).status with
  | .halted => return .halted
  | .running =>
    let address := (← get).registers.pc
    let word ← read address
    let fields := Fields.ofWord word
    match Opcode.ofCode? fields.opcode with
    | none => throw (.fault (.unsupported address word))
    | some opcode =>
      advance
      execute (.unsupported address word) opcode fields
      return (← get).status

end

/-! ## Doing the same -/

theorem word_eq {z : Int} {w : Word} (h : w.toInt = z) : (word z : Action D Word) = pure w := by
  subst h
  unfold word
  rw [Int32.ofInt_toInt, if_pos rfl]

/-- On the machine `m` the careful action ends as the other one does, and where that succeeds it ends
with `Q`. -/
structure Matches (m : Machine D) (a : Action D α) (b : Machine.Action D α)
    (Q : α → Machine D → Prop) : Prop where
  same : a m = plain b m
  post : ∀ x m', b m = .ok x m' → Q x m'

namespace Matches

section
variable {m : Machine D} {a : Action D α} {b : Machine.Action D α} {Q : α → Machine D → Prop}

theorem mono {R : α → Machine D → Prop} (h : Matches m a b Q) (hqr : ∀ x m', Q x m' → R x m') :
    Matches m a b R :=
  ⟨h.same, fun x m' hb => hqr x m' (h.post x m' hb)⟩

theorem pure {x : α} (h : Q x m) : Matches m (Pure.pure x) (Pure.pure x) Q := by
  refine ⟨rfl, fun y m' hy => ?_⟩
  cases hy
  exact h

theorem throw (e : Fault) : Matches m (throw (.fault e)) (throw e) Q := ⟨rfl, fun _ _ h => nomatch h⟩

theorem plain (h : ∀ x m', b m = .ok x m' → Q x m') : Matches m (plain b) b Q := ⟨rfl, h⟩

theorem bind {k : α → Action D β} {k' : α → Machine.Action D β} {R : β → Machine D → Prop}
    (ha : Matches m a b Q) (hk : ∀ x m', Q x m' → Matches m' (k x) (k' x) R) :
    Matches m (a >>= k) (b >>= k') R := by
  cases hr : b m with
  | ok x m₁ =>
    have hcareful : a m = .ok x m₁ := by rw [ha.same, Careful.plain, hr]
    have hnext := hk x m₁ (ha.post x m₁ hr)
    refine ⟨?_, fun y m' hy => hnext.post y m' ?_⟩
    · unfold Careful.plain
      rw [bind_of_ok hcareful, bind_of_ok hr]
      exact hnext.same
    · rw [← hy, bind_of_ok hr]
  | error e m₁ =>
    have hcareful : a m = .error (.fault e) m₁ := by rw [ha.same, Careful.plain, hr]
    refine ⟨?_, fun y m' hy => ?_⟩
    · unfold Careful.plain
      rw [bind_of_error hcareful, bind_of_error hr]
    · rw [bind_of_error hr] at hy
      cases hy

/-- A number that is a word may be computed on the way. -/
theorem word {z : Int} {w : Word} {k : Word → Action D α} (hw : w.toInt = z) (h : Matches m (k w) b Q) :
    Matches m (Careful.word z >>= k) b Q := by
  rw [word_eq hw, pure_bind]
  exact h

theorem get {k : Machine D → Action D α} {k' : Machine D → Machine.Action D α}
    (h : Matches m (k m) (k' m) Q) : Matches m (get >>= k) (get >>= k') Q :=
  ⟨h.same, h.post⟩

theorem ite {c : Prop} [Decidable c] {a' : Action D α} {b' : Machine.Action D α}
    (ha : c → Matches m a b Q) (hb : ¬ c → Matches m a' b' Q) :
    Matches m (if c then a else a') (if c then b else b') Q := by
  by_cases hc : c
  · rw [if_pos hc, if_pos hc]
    exact ha hc
  · rw [if_neg hc, if_neg hc]
    exact hb hc

end

end Matches

/-! ## Addresses and accesses -/

/-- All cells of the machine have addresses. -/
def Fits (m : Machine D) : Prop := m.memory.ram.size < placeBound

section
variable {m : Machine D} {i : Nat}

theorem Fits.congr {m' : Machine D} (h : Fits m) (hram : m'.memory.ram = m.memory.ram) : Fits m' := by
  unfold Fits
  rw [hram]
  exact h

theorem Fits.toInt_limit (h : Fits m) :
    m.memory.limit.toInt = programBase.toInt + m.memory.ram.size := by
  rw [Memory.toInt_limit, Memory.roof_eq h, toInt_programBase]

theorem Fits.stackBase_le (h : Fits m) : stackBase ≤ m.memory.limit := by
  have hcapacity := m.memory.capacity_le
  unfold programCapacity at hcapacity
  rw [Int32.le_iff_toInt_le, h.toInt_limit, toInt_programBase, Memory.toInt_stackBase]
  omega

theorem limit_eq (h : Fits m) : limit m = .ok m.memory.limit m := by
  show word (programBase.toInt + m.memory.ram.size) m = _
  rw [word_eq h.toInt_limit]
  rfl

theorem place_eq (h : m.memory.InReach i) : place (cellAddress i) m = .ok i m := by
  have hsize := h.lt_size
  have hbound := h.lt_placeBound
  have hint : (Int32.ofNat i).toInt = i := by
    unfold placeBound at hbound
    exact Int32.toInt_ofNat_of_lt (by omega)
  have hword : (Int32.ofNat i).toInt = (cellAddress i).toInt - programBase.toInt := by
    rw [hint, toInt_cellAddress hbound, toInt_programBase]
    omega
  unfold place
  rw [word_eq hword]
  show (if _ then _ else _ : Action D Nat) m = _
  rw [hint, if_pos ⟨by omega, by omega⟩]
  rfl

variable [Device D]

theorem read_eq (h : Fits m) (address : Word) : read address m = plain (Machine.read address) m := by
  unfold read plain
  simp only [bind, EStateM.bind, limit_eq h]
  rcases m.memory.region_cases address with ⟨i, hin, rfl⟩ | hdevice | ⟨-, hnone⟩
  · obtain ⟨region, hregion, hne⟩ := Memory.region_of_inReach hin
    rw [Machine.read_cell hin, hregion]
    cases region with
    | device => exact absurd rfl hne
    | program | stack =>
      simp only [EStateM.bind, place_eq hin]
      rfl
  · rw [Machine.read_device hdevice, Memory.region_of_isDeviceAddress hdevice]
    rfl
  · have hfail : Machine.read address m = .error (.outOfBounds address) m := by
      simp only [Machine.read, Machine.access, Memory.read, hnone]
    rw [hfail, hnone]
    rfl

theorem write_eq (h : Fits m) (address value : Word) :
    write address value m = plain (Machine.write address value) m := by
  unfold write plain
  simp only [bind, EStateM.bind, limit_eq h]
  rcases m.memory.region_cases address with ⟨i, hin, rfl⟩ | hdevice | ⟨-, hnone⟩
  · obtain ⟨region, hregion, hne⟩ := Memory.region_of_inReach hin
    rw [Machine.write_cell hin, hregion]
    cases region with
    | device => exact absurd rfl hne
    | program | stack =>
      simp only [EStateM.bind, place_eq hin]
      rfl
  · rw [Machine.write_device hdevice, Memory.region_of_isDeviceAddress hdevice]
    rfl
  · have hfail : Machine.write address value m = .error (.outOfBounds address) m := by
      simp only [Machine.write, Machine.access, Memory.write, hnone]
    rw [hfail, hnone]
    rfl

end

namespace Matches

section
variable {m : Machine D} {Q : α → Machine D → Prop}

/-- A check, and what is done where it passes. -/
theorem check {c : Prop} [Decidable c] {e : Fault} {k : PUnit → Action D α} {a : Action D α}
    {k' : PUnit → Machine.Action D α} {b : Machine.Action D α} (h : ¬ c → Matches m a b Q) :
    Matches m (if c then MonadExcept.throw (.fault e) >>= k else a)
      (if c then MonadExcept.throw e >>= k' else b) Q :=
  ite (fun _ => ⟨rfl, fun _ _ h => nomatch h⟩) h

theorem limit {k : Word → Action D α} {k' : Machine D → Machine.Action D α} (hfits : Fits m)
    (h : Matches m (k m.memory.limit) (k' m) Q) :
    Matches m (Careful.limit >>= k) (MonadState.get >>= k') Q := by
  refine ⟨?_, h.post⟩
  rw [bind_of_ok (limit_eq hfits)]
  exact h.same

theorem advance {k : Unit → Action D α} {k' : Unit → Machine.Action D α}
    (hpc : m.registers.pc.toInt ≠ 2 ^ 31 - 1)
    (h : Matches m.advanced (k ()) (k' ()) Q) :
    Matches m (Careful.advance >>= k) (Machine.advance >>= k') Q := by
  have hadvance : Careful.advance m = .ok () m.advanced := by
    unfold Careful.advance
    show (Careful.word (m.registers.pc.toInt + 1) >>= _ : Action D Unit) m = _
    rw [word_eq (toInt_add_one hpc)]
    rfl
  refine ⟨?_, h.post⟩
  rw [bind_of_ok hadvance]
  exact h.same

theorem modifyRegisters {f : Registers → Registers} {Q : Unit → Machine D → Prop}
    (h : Q () { m with registers := f m.registers }) :
    Matches m (Careful.plain (Machine.modifyRegisters f)) (Machine.modifyRegisters f) Q := by
  refine plain fun _ m' hm => ?_
  cases hm
  exact h

theorem modifyThen {f : Registers → Registers} {k : Unit → Action D α} {k' : Unit → Machine.Action D α}
    (h : Matches { m with registers := f m.registers } (k ()) (k' ()) Q) :
    Matches m (Careful.plain (Machine.modifyRegisters f) >>= k) (Machine.modifyRegisters f >>= k') Q :=
  ⟨h.same, h.post⟩

variable [Device D]

/-- An address that can be read is not negative and below the end. -/
theorem read (h : Fits m) (address : Word) : Matches m (Careful.read address) (Machine.read address)
    fun _ m' => m.SameButDevice m' ∧ 0 ≤ address.toInt ∧ address.toInt < m.memory.limit.toInt := by
  refine ⟨read_eq h address, fun word m' hread => ?_⟩
  have hlook := (Machine.Looks.read address).of_ok hread
  obtain ⟨memory, hread, -⟩ := Machine.of_access_ok hread
  have hregion : Region.of? address m.memory.limit ≠ none := by
    intro hnone
    rw [Memory.read_eq_error_iff.mpr ⟨hnone, rfl, rfl⟩] at hread
    cases hread
  rw [Ne, Memory.region_eq_none_iff h.stackBase_le, Int32.lt_iff_toInt_lt, Int32.le_iff_toInt_le,
    Int32.toInt_zero] at hregion
  exact ⟨hlook, by omega⟩

theorem write (h : Fits m) (address value : Word) :
    Matches m (Careful.write address value) (Machine.write address value) fun _ m' =>
      m'.registers = m.registers ∧ m'.memory.ram.size = m.memory.ram.size := by
  refine ⟨write_eq h address value, fun _ m' hwrite => ?_⟩
  obtain ⟨memory, hmemory, rfl⟩ := Machine.of_access_ok hwrite
  exact ⟨rfl, Memory.size_of_write hmemory⟩

theorem operandAddress (h : Fits m) (base : Base) (indirect : Bool) {offset : Word}
    (hoffset : FitsOffset offset) : Matches m (Careful.operandAddress base indirect offset)
      (Machine.operandAddress base indirect offset) fun _ m' => m.SameButDevice m' := by
  have hrest : ∀ address m₁, m.SameButDevice m₁ →
      Matches m₁ (if indirect then Careful.read address else Pure.pure address)
        (if indirect then Machine.read address else Pure.pure address) fun _ m' => m.SameButDevice m' :=
    fun address m₁ h₁ => ite (fun _ => (read (h.congr h₁.ram) address).mono fun _ _ hr => h₁.trans hr.1)
      fun _ => pure h₁
  unfold Careful.operandAddress Machine.operandAddress
  cases base with
  | program =>
    simp only [pure_bind]
    exact word (toInt_programBase_add hoffset) (hrest _ m (.refl m))
  | frame => exact bind (plain fun _ _ => (Machine.Looks.frameAddress offset).of_ok) hrest

end

end Matches

/-! ## Steps -/

/-- The machine has so many cells, and the top of its stack is an address or the end of memory, or the
end of the entry frame where there is no room for that. -/
structure InRange (cells : Nat) (m : Machine D) : Prop where
  size : m.memory.ram.size = cells
  low : 0 ≤ m.registers.stackTop.toInt
  high : m.registers.stackTop.toInt ≤ max (programBase.toInt + cells) (stackBase.toInt + 3)

section
variable {cells : Nat} {m m' : Machine D}

theorem InRange.congr (h : InRange cells m) (hsize : m'.memory.ram.size = m.memory.ram.size)
    (htop : m'.registers.stackTop = m.registers.stackTop) : InRange cells m' :=
  ⟨hsize.trans h.size, htop ▸ h.low, htop ▸ h.high⟩

theorem InRange.sameButDevice (h : InRange cells m) (hsame : m.SameButDevice m') : InRange cells m' :=
  h.congr (by rw [hsame.ram]) (by rw [hsame.registers])

theorem InRange.fits (h : InRange cells m) (hcells : cells < placeBound) : Fits m := by
  unfold Fits
  rw [h.size]
  exact hcells

theorem toInt_sub_one {w : Word} (h : 0 ≤ w.toInt) : (w - 1).toInt = w.toInt - 1 := by
  have hhigh := w.toInt_lt
  rw [Int32.toInt_sub]
  exact Int.bmod_eq_of_le (by simp; omega) (by simp; omega)

theorem toInt_programBase_add_nonneg {offset : Word} (h : FitsOffset offset) :
    0 ≤ (programBase + offset).toInt := by
  rw [toInt_programBase_add h, toInt_programBase]
  have := h.1
  omega

variable [Device D]

theorem Matches.call (hcells : cells < placeBound) (h : InRange cells m) {entry : Word}
    (hentry : 0 ≤ entry.toInt) :
    Matches m (Careful.call entry) (Machine.call entry) fun _ => InRange cells := by
  unfold Careful.call Machine.call
  refine word (toInt_sub_one hentry) ?_
  refine bind (read (h.fits hcells) _) fun size m₁ h₁ => check fun hsize => get ?_
  have hrange := h.sameButDevice h₁.1
  have hfits := hrange.fits hcells
  obtain ⟨memory, ⟨pc, l, r, base, top⟩, steps, sliceSteps⟩ := m₁
  refine limit hfits (check fun hroom => ?_)
  rw [Int32.not_lt, Int32.le_iff_toInt_le, Int32.toInt_zero] at hsize
  have hend : top.toInt + size.toInt ≤ memory.limit.toInt := not_lt.mp fun h => hroom (.inr h)
  have hlow : 0 ≤ top.toInt := hrange.low
  have hlast := memory.limit.toInt_lt
  -- The frame ends at the end of memory at the latest, and that is a word.
  have htop : (Int32.ofInt (top.toInt + size.toInt)).toInt = top.toInt + size.toInt :=
    Int32.toInt_ofInt_of_le (by omega) (by omega)
  refine word (toInt_sub_one hlow) (bind (write hfits _ _) fun _ m₂ h₂ => ?_)
  have hrange₂ := hrange.congr h₂.2 (by rw [h₂.1])
  refine bind (write (hrange₂.fits hcells) _ _) fun _ m₃ h₃ => word htop (modifyRegisters ?_)
  have hsize₃ := (hrange₂.congr h₃.2 (by rw [h₃.1])).size
  refine ⟨hsize₃, ?_, le_max_of_le_left ?_⟩
  · show 0 ≤ (Int32.ofInt (top.toInt + size.toInt)).toInt
    omega
  · show (Int32.ofInt (top.toInt + size.toInt)).toInt ≤ _
    have hlimit := hfits.toInt_limit
    rw [hrange.size] at hlimit
    have hlimit : memory.limit.toInt = _ := hlimit
    omega

theorem Matches.ret (hcells : cells < placeBound) (h : InRange cells m) :
    Matches m Careful.ret Machine.ret fun _ => InRange cells := by
  unfold Careful.ret Machine.ret
  refine get (modifyThen ?_)
  have hfits : Fits { m with registers := { m.registers with stackTop := m.registers.frameBase } } :=
    h.fits hcells
  refine bind (read hfits _) fun frameBase m₁ ⟨hsame, hlow, hhigh⟩ => modifyThen ?_
  refine word (toInt_sub_one hlow) ?_
  -- The base may be any word, but the return goes on only if it can be read. So the new top is an address.
  have hrange : InRange cells { m₁ with registers := { m₁.registers with frameBase } } := by
    have hlimit := hfits.toInt_limit
    refine ⟨?_, ?_, le_max_of_le_left ?_⟩
    · rw [← h.size]
      exact congrArg Array.size hsame.ram
    · show 0 ≤ m₁.registers.stackTop.toInt
      rw [hsame.registers]
      exact hlow
    · show m₁.registers.stackTop.toInt ≤ _
      rw [hsame.registers, ← h.size]
      exact le_of_lt (hhigh.trans_eq hlimit)
  exact bind (read (hrange.fits hcells) _) fun pc m₂ h₂ =>
    modifyRegisters ((hrange.sameButDevice h₂.1).congr rfl rfl)

/-- A branch that is not taken does nothing. -/
theorem execute_branch (unsupported : Fault) (register : Register) (fields : Fields) :
    (Machine.execute unsupported (.branch register) fields : Machine.Action D Unit) =
      (do
        if (← get).registers.get register = 0 then return
        Machine.modifyRegisters fun r => { r with pc := programBase + fields.offset }) := by
  funext m
  show EStateM.Result.ok () { m with registers := if m.registers.get register = 0 then _ else _ } =
    (if m.registers.get register = 0 then _ else _ : Machine.Action D Unit) m
  split <;> rfl

theorem Matches.execute (hcells : cells < placeBound) (h : InRange cells m) (unsupported : Fault)
    (opcode : Opcode) {fields : Fields} (hoffset : FitsOffset fields.offset) :
    Matches m (Careful.execute unsupported opcode fields) (Machine.execute unsupported opcode fields)
      fun _ => InRange cells := by
  have hfits := h.fits hcells
  have hadd := toInt_programBase_add hoffset
  unfold Careful.execute
  cases opcode with
  | nop | swap =>
    refine plain fun _ m' hm => ?_
    cases hm
    exact h.congr rfl rfl
  | unary r | binary r =>
    unfold Machine.execute
    simp only
    split
    · refine modifyRegisters (h.congr rfl ?_)
      cases r <;> rfl
    · exact throw _
  | load r b i =>
    refine bind (operandAddress hfits b i hoffset) fun address m₁ h₁ => ?_
    have hrange₁ := h.sameButDevice h₁
    refine bind (read (hrange₁.fits hcells) address) fun value m₂ h₂ => modifyRegisters ?_
    refine (hrange₁.sameButDevice h₂.1).congr rfl ?_
    cases r <;> rfl
  | store r b i =>
    refine bind (operandAddress hfits b i hoffset) fun address m₁ h₁ => get ?_
    have hrange₁ := h.sameButDevice h₁
    exact (write (hrange₁.fits hcells) _ _).mono fun _ m₂ h₂ => hrange₁.congr h₂.2 (by rw [h₂.1])
  | branch r =>
    rw [execute_branch]
    exact get (ite (fun _ => pure h) fun _ => word hadd (modifyRegisters (h.congr rfl rfl)))
  | jump => exact word hadd (modifyRegisters (h.congr rfl rfl))
  | call => exact word hadd (call hcells h (toInt_programBase_add_nonneg hoffset))
  | ret => exact ret hcells h

theorem Matches.step (hcells : cells < placeBound) (h : InRange cells m) :
    Matches m Careful.step Machine.step fun _ => InRange cells := by
  unfold Careful.step Machine.step
  refine get ?_
  cases m.status with
  | halted => exact pure h
  | running =>
    refine get (bind (read (h.fits hcells) _) fun word m₁ ⟨hsame, _, hpc⟩ => ?_)
    have hrange := h.sameButDevice hsame
    simp only
    cases Opcode.ofCode? (Fields.ofWord word).opcode with
    | none => exact throw _
    | some opcode =>
      have hlast := m.memory.limit.toInt_lt
      refine advance (by rw [hsame.registers]; omega) ?_
      refine bind (execute hcells ?_ _ opcode (fitsOffset_ofWord word)) fun _ m₂ h₂ => get (pure h₂)
      exact hrange.congr rfl rfl

/-! ## Rows of steps -/

omit [Device D] in
theorem InRange.load {words : List Word} {m₀ : Machine D} (h : m₀.load words = .ok () m) :
    InRange m₀.memory.ram.size m := by
  unfold Machine.load at h
  simp only [bind, EStateM.bind] at h
  split at h
  · next hload =>
    obtain ⟨memory, hmemory, rfl⟩ := Machine.of_access_ok hload
    cases h
    have hlow : 0 ≤ ({} : Registers).stackTop.toInt := by decide
    have hhigh : ({} : Registers).stackTop.toInt ≤ stackBase.toInt + 3 := by decide
    exact ⟨Memory.size_of_load hmemory, hlow, le_max_of_le_right hhigh⟩
  · cases h

theorem InRange.stepRow (hcells : cells < placeBound) {k : Nat} {statuses : List Status}
    (h : InRange cells m) (hsteps : Machine.stepRow k m = .ok statuses m') : InRange cells m' := by
  induction k generalizing m statuses with
  | zero =>
    cases hsteps
    exact h
  | succ k ih =>
    simp only [Machine.stepRow, bind, EStateM.bind] at hsteps
    split at hsteps
    · next hstep =>
      have hnext := (Matches.step hcells h).post _ _ hstep
      split at hsteps
      · next hrest =>
        cases hsteps
        exact ih hnext hrest
      · cases hsteps
    · cases hsteps

end

end Careful

/-- From whatever program it is loaded with, and however far it gets without a fault, the machine never
wraps an address and never misses a cell. The top of its stack is never negative and beyond the end of
memory only where that cuts the entry frame, and the next step, also if it fails, is the careful one. -/
theorem arithmetic_in_range [Device D] {words : List Word} {device : D} {config : Config}
    (hend : programBase.toInt + (programCapacity + config.stackWords) < 2 ^ 31)
    {m₀ m : Machine D} {k : Nat} {statuses : List Status}
    (hload : (Machine.new device config).load words = .ok () m₀)
    (hsteps : Machine.stepRow k m₀ = .ok statuses m) :
    0 ≤ m.registers.stackTop.toInt ∧
    m.registers.stackTop.toInt ≤
      max (programBase.toInt + (programCapacity + config.stackWords)) (stackBase.toInt + 3) ∧
    Careful.step m = Careful.plain Machine.step m := by
  have hcells : programCapacity + config.stackWords < placeBound := by
    rw [toInt_programBase] at hend
    unfold placeBound
    omega
  have hload := Careful.InRange.load hload
  rw [show (Machine.new device config).memory.ram.size = programCapacity + config.stackWords from
    Array.size_replicate] at hload
  have hrange := hload.stepRow hcells hsteps
  have hhigh := hrange.high
  push_cast at hhigh
  exact ⟨hrange.low, hhigh, (Careful.Matches.step hcells hrange).same⟩

/-- A function that calls itself, in its first call. The stack is full to the end. -/
theorem arithmetic_in_range_recursion : ∃ m₀ m : Machine Terminal,
    (Machine.new { width := 0, height := 0 } { stackWords := 4 }).load [0x43000002, 1, 0x43000002] =
      .ok () m₀ ∧
    Machine.stepRow 1 m₀ = .ok [.running] m ∧
    m.registers.stackTop.toInt = programBase.toInt + (programCapacity + 4) ∧
    Careful.step m = Careful.plain Machine.step m := by
  obtain ⟨m₀, hload, hregisters, hroof, hcell⟩ :=
    Machine.load_eq [0x43000002, 1, 0x43000002] (by decide)
      (Machine.new ({ width := 0, height := 0 } : Terminal) { stackWords := 4 })
  have hcall : m₀.At 0 (.addressed .call (.offset (Int32.ofNat 2))) :=
    ⟨by rw [hregisters]; decide, by decide, by rw [hcell]; decide +kernel⟩
  have htop : m₀.registers.stackTop = cellAddress (programCapacity + 3) := by rw [hregisters]; decide
  have hroof : m₀.memory.roof = 2 ^ 16 + (4 : Nat) := hroof.trans (Memory.roof_new _ (by decide))
  have hsize : m₀.memory.cell (2 - 1) = Int32.ofNat 1 := by rw [hcell]; rfl
  have hstep := Machine.step_call hcall (by decide) (by decide) hsize (by decide) htop (by decide)
    (by decide) (by rw [hroof]; decide) (by rw [hroof]; decide)
  have hrow : Machine.stepRow 1 m₀ =
      .ok [.running] (m₀.entered (programCapacity + 3) 1 2 (0 + 1)) := by
    simp only [Machine.stepRow, bind, EStateM.bind, hstep]
    rfl
  obtain ⟨-, -, hcareful⟩ := arithmetic_in_range (by decide) hload hrow
  exact ⟨m₀, _, hload, hrow, by show (cellAddress (programCapacity + 3 + 1)).toInt = _; decide, hcareful⟩

end WordLisp

import WordLisp.Machine.Step
import WordLisp.Proofs.Results

/-!
# Machines seen as others

A machine learns nothing of its device but the words that it reads, and in a step it does not look at
the length of a slice. So where one device can be seen as another, by a map that agrees with reading and
writing, a machine with the one makes the same steps as a machine with the other, and so it does if its
slices have another length.
-/

namespace WordLisp

/-- The map agrees with reading and writing. -/
structure IsDeviceMap [Device D] [Device E] (f : D → E) : Prop where
  read : ∀ address d,
    Device.read address (f d) = ((Device.read address d).1, f (Device.read address d).2)
  write : ∀ address value d, Device.write address value (f d) = f (Device.write address value d)

theorem IsDeviceMap.id [Device D] : IsDeviceMap (fun d : D => d) := ⟨fun _ _ => rfl, fun _ _ _ => rfl⟩

namespace Memory

/-- The memory with its device seen as another one. -/
def map (f : D → E) (m : Memory D) : Memory E := ⟨m.ram, f m.device, m.capacity_le⟩

section
variable [Device D] [Device E] {f : D → E} (hf : IsDeviceMap f)
include hf

theorem read_map (address : Word) (m : Memory D) :
    read address (m.map f) = mapState (map f) (read address m) := by
  have hlimit : (m.map f).limit = m.limit := rfl
  unfold read
  rw [hlimit]
  split
  · rw [show (m.map f).device = f m.device from rfl, hf.read]
    rfl
  · rfl
  · rfl

theorem write_map (address value : Word) (m : Memory D) :
    write address value (m.map f) = mapState (map f) (write address value m) := by
  have hlimit : (m.map f).limit = m.limit := rfl
  unfold write
  rw [hlimit]
  split
  · rw [show (m.map f).device = f m.device from rfl, hf.write]
    rfl
  · rfl
  · rfl

end

end Memory

namespace Machine

/-- The machine with its device and the length of its slices seen as others. -/
def view (f : D → E) (g : Nat → Nat) (m : Machine D) : Machine E :=
  ⟨m.memory.map f, m.registers, m.steps, g m.sliceSteps⟩

/-- The two actions are the same but for what is seen as another. -/
def Commutes (f : D → E) (g : Nat → Nat) (a : Action D α) (b : Action E α) : Prop :=
  ∀ m, b (m.view f g) = mapState (view f g) (a m)

namespace Commutes

section
variable {f : D → E} {g : Nat → Nat}

theorem pure (x : α) : Commutes f g (Pure.pure x) (Pure.pure x) := fun _ => rfl

theorem throw (e : Fault) : Commutes f g (throw e : Action D α) (throw e) := fun _ => rfl

theorem bind {a : Action D α} {a' : Action E α} {k : α → Action D β} {k' : α → Action E β}
    (ha : Commutes f g a a') (hk : ∀ x, Commutes f g (k x) (k' x)) :
    Commutes f g (a >>= k) (a' >>= k') := by
  intro m
  show EStateM.bind a' k' (m.view f g) = mapState (view f g) (EStateM.bind a k m)
  unfold EStateM.bind
  rw [ha m]
  cases a m with
  | ok x m' => exact hk x m'
  | error e m' => rfl

theorem ite {c : Prop} [Decidable c] {a b : Action D α} {a' b' : Action E α} (ha : Commutes f g a a')
    (hb : Commutes f g b b') : Commutes f g (if c then a else b) (if c then a' else b') := by
  split
  · exact ha
  · exact hb

/-- The state may be looked at where both sides see the same. -/
theorem get {k : Machine D → Action D β} {k' : Machine E → Action E β}
    (hk : ∀ m, Commutes f g (k m) (k' (m.view f g))) : Commutes f g (get >>= k) (get >>= k') :=
  fun m => hk m m

theorem modifyRegisters (change : Registers → Registers) :
    Commutes f g (Machine.modifyRegisters change) (Machine.modifyRegisters change) := fun _ => rfl

theorem advance : Commutes f g Machine.advance Machine.advance := fun _ => rfl

theorem access {a : Memory.Access D α} {a' : Memory.Access E α}
    (h : ∀ mem, a' (mem.map f) = mapState (Memory.map f) (a mem)) :
    Commutes f g (Machine.access a) (Machine.access a') := by
  rintro ⟨mem, registers, steps, sliceSteps⟩
  simp only [Machine.access, view, h]
  cases a mem <;> rfl

theorem load (words : List Word) : Commutes f g (Machine.load words) (Machine.load words) := by
  refine (access fun mem => ?_).bind fun _ _ => rfl
  unfold Memory.load
  split <;> rfl

theorem frameAddress (offset : Word) :
    Commutes f g (Machine.frameAddress offset) (Machine.frameAddress offset) :=
  get fun _ => ite (pure _) (throw _)

end

section
variable [Device D] [Device E] {f : D → E} {g : Nat → Nat} (hf : IsDeviceMap f)
include hf

theorem read (address : Word) : Commutes f g (Machine.read address) (Machine.read address) :=
  access (Memory.read_map hf address)

theorem write (address value : Word) :
    Commutes f g (Machine.write address value) (Machine.write address value) :=
  access (Memory.write_map hf address value)

theorem operandAddress (base : Base) (indirect : Bool) (offset : Word) :
    Commutes f g (Machine.operandAddress base indirect offset)
      (Machine.operandAddress base indirect offset) := by
  unfold Machine.operandAddress
  cases base with
  | program => exact (pure _).bind fun address => ite (read hf address) (pure address)
  | frame => exact (frameAddress offset).bind fun address => ite (read hf address) (pure address)

theorem call (entry : Word) : Commutes f g (Machine.call entry) (Machine.call entry) := by
  have hlink (pc frameBase stackTop : Word) (top : Int) : Commutes f g
      (do
        Machine.write (stackTop - 1) pc
        Machine.write stackTop frameBase
        Machine.modifyRegisters fun r =>
          { r with pc := entry, frameBase := stackTop, stackTop := Int32.ofInt top } : Action D Unit)
      (do
        Machine.write (stackTop - 1) pc
        Machine.write stackTop frameBase
        Machine.modifyRegisters fun r =>
          { r with pc := entry, frameBase := stackTop, stackTop := Int32.ofInt top }) :=
    (write hf _ _).bind fun _ => (write hf _ _).bind fun _ => modifyRegisters _
  refine (read hf _).bind fun size => ite ((throw _).bind fun _ => ?_) ?_
  · exact get fun _ => get fun _ => ite ((throw _).bind fun _ => hlink _ _ _ _) (hlink _ _ _ _)
  · exact get fun _ => get fun _ => ite ((throw _).bind fun _ => hlink _ _ _ _) (hlink _ _ _ _)

theorem ret : Commutes f g Machine.ret Machine.ret :=
  get fun _ => (modifyRegisters _).bind fun _ => (read hf _).bind fun _ =>
    (modifyRegisters _).bind fun _ => (read hf _).bind fun _ => modifyRegisters _

theorem execute (e : Fault) (opcode : Opcode) (fields : Fields) :
    Commutes f g (Machine.execute e opcode fields) (Machine.execute e opcode fields) := by
  unfold Machine.execute
  cases opcode with
  | nop => exact pure _
  | load r b i =>
    exact bind (operandAddress hf _ _ _) fun _ => (read hf _).bind fun _ => modifyRegisters _
  | store r b i =>
    exact bind (operandAddress hf _ _ _) fun _ => get fun _ => write hf _ _
  | unary r =>
    simp only
    split
    · exact modifyRegisters _
    · exact throw _
  | binary r =>
    simp only
    split
    · exact modifyRegisters _
    · exact throw _
  | swap | branch r | jump => exact modifyRegisters _
  | call => exact call hf _
  | ret => exact ret hf

theorem step : Commutes f g Machine.step Machine.step := by
  unfold Machine.step
  refine get fun m => ?_
  have hstatus : (m.view f g).status = m.status := rfl
  simp only [hstatus]
  split
  · exact pure _
  · refine get fun m => (read hf _).bind fun word => ?_
    split
    · exact throw _
    · exact advance.bind fun _ => (execute hf _ _ _).bind fun _ => get fun m => pure m.status

theorem slice (budget : Nat) : Commutes f g (Machine.slice budget) (Machine.slice budget) := by
  induction budget with
  | zero => exact get fun m => pure m.status
  | succ budget ih =>
    refine (step hf).bind fun status => ?_
    cases status with
    | halted => exact pure _
    | running => exact ih

end

end Commutes

end Machine

end WordLisp

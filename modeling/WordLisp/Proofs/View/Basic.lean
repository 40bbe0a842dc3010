import WordLisp.Proofs.Code.Program
import WordLisp.Proofs.Machine.Cells

/-!
# Programs without addresses

A `View` is a machine seen in terms of the program that it runs: the data by their tags, and the
activations that have not ended, each with the code that it still has in front of it and with the
slots whose content is known. A slot is known from the moment on that something is stored into it,
and the return slot of a caller from the moment on that the called routine yields. Return
addresses and saved bases do not appear.

`View.turn` carries out one operation. What it reads from a slot that is not known is up to the
argument `stale`, and the argument `roof` is the first place past the stack.
-/

namespace WordLisp

/-- A call that has not ended. -/
structure Activation where
  routine : Routine
  /-- The place of slot `0`. -/
  base : Nat
  /-- The code that is left. -/
  code : List Op
  slots : Nat → Option Word

namespace Activation

/-- The first place past the frame. -/
def top (a : Activation) : Nat := a.base + a.routine.frame.size

/-- The activation with a known content of slot `n`. -/
def put (a : Activation) (n : Nat) (value : Word) : Activation :=
  { a with slots := Function.update a.slots n (some value) }

/-- The activation with other code in front of it. -/
def goto (a : Activation) (code : List Op) : Activation := { a with code }

/-- A caller knows nothing of its return slot and of what lies above it. -/
def forget (a : Activation) : Activation :=
  { a with slots := fun n => if n < a.routine.frame.returnSlot then a.slots n else none }

/-- The activation of a routine that `a` calls: its parameters are what `a` has put above its
frame. -/
def enter (a : Activation) (r : Routine) : Activation where
  routine := r
  base := a.top
  code := r.code
  slots n := if 1 ≤ n ∧ n ≤ r.arity then a.slots (a.routine.frame.size + n) else none

/-- The code from a tag on. -/
def target (a : Activation) (tag : String) : List Op := a.routine.code.dropWhile (· ≠ .tag tag)

@[simp] theorem base_put (a : Activation) (n : Nat) (v : Word) : (a.put n v).base = a.base := rfl
@[simp] theorem code_put (a : Activation) (n : Nat) (v : Word) : (a.put n v).code = a.code := rfl
@[simp] theorem routine_put (a : Activation) (n : Nat) (v : Word) :
    (a.put n v).routine = a.routine := rfl
@[simp] theorem top_put (a : Activation) (n : Nat) (v : Word) : (a.put n v).top = a.top := rfl

@[simp] theorem slots_put_self (a : Activation) (n : Nat) (v : Word) :
    (a.put n v).slots n = some v := by simp [put]

@[simp] theorem slots_put_of_ne (a : Activation) {n k : Nat} (h : k ≠ n) (v : Word) :
    (a.put n v).slots k = a.slots k := by simp [put, h]

/-- What was known stays known, and what has been put is. -/
theorem slots_put_ne_none (a : Activation) {n k : Nat} (v : Word) (h : k = n ∨ a.slots k ≠ none) :
    (a.put n v).slots k ≠ none := by
  by_cases he : k = n
  · rw [he, slots_put_self]
    exact Option.some_ne_none v
  · rw [slots_put_of_ne _ he]
    exact h.resolve_left he

@[simp] theorem base_goto (a : Activation) (c : List Op) : (a.goto c).base = a.base := rfl
@[simp] theorem code_goto (a : Activation) (c : List Op) : (a.goto c).code = c := rfl
@[simp] theorem routine_goto (a : Activation) (c : List Op) : (a.goto c).routine = a.routine := rfl
@[simp] theorem slots_goto (a : Activation) (c : List Op) : (a.goto c).slots = a.slots := rfl
@[simp] theorem top_goto (a : Activation) (c : List Op) : (a.goto c).top = a.top := rfl

@[simp] theorem base_forget (a : Activation) : a.forget.base = a.base := rfl
@[simp] theorem code_forget (a : Activation) : a.forget.code = a.code := rfl
@[simp] theorem routine_forget (a : Activation) : a.forget.routine = a.routine := rfl
@[simp] theorem top_forget (a : Activation) : a.forget.top = a.top := rfl

theorem slots_forget_of_lt {a : Activation} {n : Nat} (h : n < a.routine.frame.returnSlot) :
    a.forget.slots n = a.slots n := if_pos h

theorem slots_forget_of_le {a : Activation} {n : Nat} (h : a.routine.frame.returnSlot ≤ n) :
    a.forget.slots n = none := if_neg (by omega)

end Activation

structure View (D : Type) where
  left : Word
  right : Word
  /-- The words of the data by their tags. -/
  data : String → Word
  device : D
  /-- The activation that is being carried out. -/
  top : Activation
  /-- Its callers, the nearest first. -/
  below : List Activation

/-- How one operation ends. -/
inductive Turn (D : Type) where
  /-- A tag was passed. -/
  | skip (next : View D)
  | next (next : View D)
  | halt (last : View D)
  | fault (fault : Fault)
  /-- A pointer does not lead to the device, or there is no code. -/
  | astray

def Program.find? (p : Program) (name : String) : Option Routine :=
  p.routines.find? (·.name = some name)

namespace View

/-- The content of an operand. -/
def value (v : View D) (stale : Nat → Word) : Operand → Word
  | .cell tag => v.data tag
  | .slot n => (v.top.slots n).getD (stale n)

variable [Device D] (p : Program) (roof : Int) (stale : Nat → Word)

def load (v : View D) (x : Operand) : Bool → Turn D
  | false => .next { v with left := v.value stale x }
  | true =>
    let address := v.value stale x
    if IsDeviceAddress address then
      .next { v with
        left := (Device.read address v.device).1
        device := (Device.read address v.device).2 }
    else .astray

def store (v : View D) (x : Operand) : Bool → Turn D
  | false =>
    match x with
    | .cell tag => .next { v with data := Function.update v.data tag v.left }
    | .slot n =>
      if (v.top.base + n : Int) < roof then .next { v with top := v.top.put n v.left }
      else .fault (.outOfBounds (cellAddress (v.top.base + n)))
  | true =>
    let address := v.value stale x
    if IsDeviceAddress address then
      .next { v with device := Device.write address v.left v.device }
    else .astray

def call (v : View D) (name : String) : Turn D :=
  match p.find? name with
  | none => .astray
  | some r =>
    if roof ≤ v.top.top ∨ roof < (v.top.top + r.frame.size : Int) then
      .fault (.stackOverflow (2 ^ 23 + v.top.top + r.frame.size))
    else .next { v with top := v.top.enter r, below := v.top.forget :: v.below }

/-- Carries out an operation that has been taken off the code. -/
def exec (v : View D) : Op → Turn D
  | .tag _ => .skip v
  | .load x indirect => v.load stale x indirect
  | .store x indirect => v.store roof stale x indirect
  | .yield =>
    match v.below with
    | [] => .astray
    | a :: below => .next { v with below := a.put a.routine.frame.returnSlot v.left :: below }
  | .unary operator => .next { v with left := operator.apply v.left }
  | .binary operator => .next { v with left := operator.apply v.left v.right }
  | .swap => .next { v with left := v.right, right := v.left }
  | .branch tag =>
    if v.left = 0 then .next v else .next { v with top := v.top.goto (v.top.target tag) }
  | .jump tag => .next { v with top := v.top.goto (v.top.target tag) }
  | .stop => .halt v
  | .call name => v.call p roof name
  | .ret =>
    match v.below with
    | [] => .astray
    | a :: below => .next { v with top := a, below }

/-- Takes the next operation off the code and carries it out. -/
def turn (v : View D) : Turn D :=
  match v.top.code with
  | [] => .astray
  | op :: rest => { v with top := v.top.goto rest }.exec p roof stale op

theorem turn_cons {p : Program} {roof : Int} {stale : Nat → Word} {v : View D} {op : Op} {rest : List Op} (h : v.top.code = op :: rest) :
    v.turn p roof stale = { v with top := v.top.goto rest }.exec p roof stale op := by
  unfold turn
  rw [h]

omit [Device D] in
@[simp] theorem value_goto (v : View D) (code : List Op) (x : Operand) :
    ({ v with top := v.top.goto code } : View D).value stale x = v.value stale x := by
  cases x <;> rfl

section
variable {p : Program} {roof : Int} {stale : Nat → Word} {v : View D} {rest : List Op}

theorem turn_put {n : Nat} (hc : v.top.code = .store (.slot n) false :: rest)
    (hlt : (v.top.base + n : Int) < roof) :
    v.turn p roof stale = .next { v with top := (v.top.goto rest).put n v.left } := by
  rw [turn_cons hc]
  exact if_pos hlt

theorem turn_put_out {n : Nat} (hc : v.top.code = .store (.slot n) false :: rest)
    (hge : roof ≤ (v.top.base + n : Int)) :
    v.turn p roof stale = .fault (.outOfBounds (cellAddress (v.top.base + n))) := by
  rw [turn_cons hc]
  exact if_neg (by simpa using hge)

theorem turn_call {name : String} {r : Routine} (hc : v.top.code = .call name :: rest)
    (hr : p.find? name = some r) (hlt : (v.top.top : Int) < roof)
    (hfits : (v.top.top + r.frame.size : Int) ≤ roof) :
    v.turn p roof stale =
      .next { v with top := v.top.enter r, below := (v.top.goto rest).forget :: v.below } := by
  rw [turn_cons hc]
  simp only [exec, call, hr]
  exact if_neg (by rw [Activation.top_goto]; omega)

theorem turn_call_overflow {name : String} {r : Routine} (hc : v.top.code = .call name :: rest)
    (hr : p.find? name = some r)
    (hover : roof ≤ v.top.top ∨ roof < (v.top.top + r.frame.size : Int)) :
    v.turn p roof stale = .fault (.stackOverflow (2 ^ 23 + v.top.top + r.frame.size)) := by
  rw [turn_cons hc]
  simp only [exec, call, hr]
  exact if_pos hover

end

/-- The view of a machine in front of a program. -/
def start (device : D) : View D where
  left := 0
  right := 0
  data tag := (p.data.lookup tag).getD 0
  device := device
  top := ⟨.boot, programCapacity, Routine.boot.code, fun _ => none⟩
  below := []

end View

end WordLisp

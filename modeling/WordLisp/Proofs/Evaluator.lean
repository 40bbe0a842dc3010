import WordLisp.Proofs.Code.Program
import WordLisp.Proofs.Machine.Cells

/-!
# Evaluating expressions

What a program means, without code and without addresses. Evaluation hands a store from one
expression to the next. The store holds the value of the expression before, the locals of the
function that have been assigned so far, the globals and the device. An empty row of expressions
leaves the value as it is, and a loop leaves the value of its last test, which is zero.

The store also keeps count of the stack: how many words the frames of the calls have taken together
where they were deepest. Nothing in evaluation depends on the count. Calls that follow one another
take the same words again, so that a loop needs no more of the stack than one of its rounds.

Locals belong to the whole function and hide globals of the same name. An access through a pointer
goes to the device. Evaluation is stuck at a local that has not been assigned in its call, and at a
pointer that does not lead to the device. It yields nothing then, and also when `fuel` does not
suffice.
-/

namespace WordLisp

structure Store (D : Type) where
  value : Word
  locals : String → Option Word
  globals : String → Word
  device : D
  /-- How many words the calls that the function has made so far have needed above its frame. -/
  stack : Nat

/-- What the expressions of a program refer to. -/
structure Context where
  functions : List Function
  globals : List String
  symbols : SymbolPool

/-- The names that are local to a function. -/
def Function.scope (f : Function) : List String := f.parameters ++ Expr.declaredAll f.body

/-- The frame that a call of the function has on the stack. -/
def Function.frame (f : Function) : Frame := ⟨f.scope, Expr.rowTemporaries f.body⟩

namespace Store

section
variable (c : Context) (scope : List String)

/-- The content of a variable. -/
def get? (s : Store D) (name : String) : Option Word :=
  if name ∈ scope then s.locals name
  else if name ∈ c.globals then some (s.globals name)
  else none

/-- The store with the value in a variable. -/
def assign? (s : Store D) (name : String) : Option (Store D) :=
  if name ∈ scope then some { s with locals := Function.update s.locals name (some s.value) }
  else if name ∈ c.globals then
    some { s with globals := Function.update s.globals name s.value }
  else none

end

variable [Device D]

/-- Reads the value from the device. -/
def input? (s : Store D) (address : Word) : Option (Store D) :=
  if IsDeviceAddress address then
    some { s with
      value := (Device.read address s.device).1
      device := (Device.read address s.device).2 }
  else none

/-- Writes the value to the device. -/
def output? (s : Store D) (address : Word) : Option (Store D) :=
  if IsDeviceAddress address then
    some { s with device := Device.write address s.value s.device }
  else none

/-- The store in which the body of a function begins. -/
def enter (s : Store D) (f : Function) (arguments : List Word) : Store D :=
  { s with locals := fun name => (f.parameters.zip arguments).lookup name, stack := 0 }

/-- The store behind a call of `f` that began at `s` and whose body ends with the store `r`. -/
def leave (s : Store D) (f : Function) (r : Store D) : Store D :=
  { r with locals := s.locals, stack := max s.stack (f.frame.size + r.stack) }

end Store

section
variable [Device D] (c : Context)

mutual

def eval : (fuel : Nat) → (scope : List String) → Expr → Store D → Option (Store D)
  | 0, _, _, _ => none
  | _ + 1, _, .literal value, s => some { s with value }
  | _ + 1, _, .symbol name, s =>
    (c.symbols.names.idxOf? name).map fun i => { s with value := SymbolPool.number i }
  | _ + 1, scope, .reference name false, s =>
    (s.get? c scope name).map fun value => { s with value }
  | _ + 1, scope, .reference name true, s => (s.get? c scope name).bind s.input?
  | fuel + 1, scope, .declare name value, s =>
    (eval fuel scope value s).bind fun s => s.assign? c scope name
  | fuel + 1, scope, .assign name false value, s =>
    (eval fuel scope value s).bind fun s => s.assign? c scope name
  | fuel + 1, scope, .assign name true value, s =>
    (eval fuel scope value s).bind fun s => (s.get? c scope name).bind s.output?
  | fuel + 1, scope, .cond test yes no, s =>
    (eval fuel scope test s).bind fun s =>
      if s.value = 0 then evalRow fuel scope no s else evalRow fuel scope yes s
  | fuel + 1, scope, .loop test body, s =>
    (eval fuel scope test s).bind fun s =>
      if s.value = 0 then some s
      else (evalRow fuel scope body s).bind fun s => eval fuel scope (.loop test body) s
  | fuel + 1, scope, .unary operator operand, s =>
    (eval fuel scope operand s).map fun s => { s with value := operator.apply s.value }
  | fuel + 1, scope, .binary operator left right, s =>
    (eval fuel scope left s).bind fun l =>
      (eval fuel scope right l).map fun s => { s with value := operator.apply l.value s.value }
  | fuel + 1, scope, .apply name arguments, s =>
    (evalArguments fuel scope arguments s).bind fun (values, s) =>
      (c.functions.find? (·.name = name)).bind fun f =>
        if f.parameters.length = values.length then
          (evalRow fuel f.scope f.body (s.enter f values)).map (s.leave f)
        else none

/-- Expressions one after the other. -/
def evalRow : (fuel : Nat) → (scope : List String) → List Expr → Store D → Option (Store D)
  | 0, _, _, _ => none
  | _ + 1, _, [], s => some s
  | fuel + 1, scope, e :: es, s => (eval fuel scope e s).bind fun s => evalRow fuel scope es s

/-- Expressions one after the other, with the values of all of them. -/
def evalArguments : (fuel : Nat) → (scope : List String) → List Expr → Store D →
    Option (List Word × Store D)
  | 0, _, _, _ => none
  | _ + 1, _, [], s => some ([], s)
  | fuel + 1, scope, e :: es, s =>
    (eval fuel scope e s).bind fun s =>
      (evalArguments fuel scope es s).map fun (values, r) => (s.value :: values, r)

end

end

/-- The context of a program with the symbols that the generator has found. -/
def Context.ofItems (items : List Item) (symbols : SymbolPool) : Context where
  functions := Item.functions items
  globals := (Item.globals items).map Prod.fst
  symbols := symbols

/-- The store in which the entry function begins: the value is zero and the globals are as
declared. -/
def Store.initial (items : List Item) (device : D) : Store D where
  value := 0
  locals _ := none
  globals name := ((Item.globals items).lookup name).getD 0
  device := device
  stack := 0

/-- Evaluates a call of the entry function of a program. -/
def evalProgram [Device D] (items : List Item) (symbols : SymbolPool) (fuel : Nat) (device : D) :
    Option (Store D) :=
  ((Item.functions items).find? (·.name = entryPoint)).bind fun f =>
    (evalRow (.ofItems items symbols) fuel f.scope f.body (.initial items device)).map
      ((Store.initial items device).leave f)

/-- Evaluating the entry function ends with the store `s`. -/
def Evaluates [Device D] (items : List Item) (symbols : SymbolPool) (device : D) (s : Store D) :
    Prop :=
  ∃ fuel, evalProgram items symbols fuel device = some s

/-! ## Enough fuel -/

/-- One more unit of fuel keeps every result that there is. -/
structure KeepsResults (D : Type) [Device D] (c : Context) (fuel : Nat) : Prop where
  expr : ∀ scope e (s s' : Store D),
    eval c fuel scope e s = some s' → eval c (fuel + 1) scope e s = some s'
  row : ∀ scope es (s s' : Store D),
    evalRow c fuel scope es s = some s' → evalRow c (fuel + 1) scope es s = some s'
  arguments : ∀ scope es (s : Store D) r,
    evalArguments c fuel scope es s = some r → evalArguments c (fuel + 1) scope es s = some r

theorem keepsResults [Device D] (c : Context) (fuel : Nat) : KeepsResults D c fuel := by
  induction fuel with
  | zero =>
    refine ⟨fun _ _ _ _ h => ?_, fun _ _ _ _ h => ?_, fun _ _ _ _ h => ?_⟩
    · simp [eval] at h
    · simp [evalRow] at h
    · simp [evalArguments] at h
  | succ fuel ih =>
    refine ⟨fun scope e s s' h => ?_, fun scope es s s' h => ?_, fun scope es s r h => ?_⟩
    · cases e with
      | literal value | symbol name => simpa only [eval] using h
      | reference name indirect => cases indirect <;> simpa only [eval] using h
      | declare name value =>
        rw [eval] at h ⊢
        exact bind_mono (ih.expr scope value s) (fun _ h => h) h
      | assign name indirect value =>
        cases indirect <;> rw [eval] at h ⊢ <;>
          exact bind_mono (ih.expr scope value s) (fun _ h => h) h
      | cond test yes no =>
        rw [eval] at h ⊢
        refine bind_mono (ih.expr scope test s) (fun a h => ?_) h
        split at h
        · next h0 => rw [if_pos h0]; exact ih.row _ _ _ _ h
        · next h0 => rw [if_neg h0]; exact ih.row _ _ _ _ h
      | loop test body =>
        rw [eval] at h ⊢
        refine bind_mono (ih.expr scope test s) (fun a h => ?_) h
        split at h
        · next h0 => rw [if_pos h0]; exact h
        · next h0 =>
          rw [if_neg h0]
          exact bind_mono (ih.row _ _ _) (fun _ h => ih.expr _ _ _ _ h) h
      | unary operator operand =>
        rw [eval] at h ⊢
        exact map_mono (ih.expr scope operand s) h
      | binary operator left right =>
        rw [eval] at h ⊢
        exact bind_mono (ih.expr scope left s) (fun _ h => map_mono (ih.expr _ _ _) h) h
      | apply name es =>
        rw [eval] at h ⊢
        refine bind_mono (ih.arguments scope es s) (fun a h => bind_mono (fun _ h => h) ?_ h) h
        intro f h
        split at h
        · next h0 => rw [if_pos h0]; exact map_mono (ih.row _ _ _) h
        · cases h
    · cases es with
      | nil => simpa only [evalRow] using h
      | cons e es =>
        rw [evalRow] at h ⊢
        exact bind_mono (ih.expr scope e s) (fun _ h => ih.row _ _ _ _ h) h
    · cases es with
      | nil => simpa only [evalArguments] using h
      | cons e es =>
        rw [evalArguments] at h ⊢
        exact bind_mono (ih.expr scope e s) (fun _ h => map_mono (ih.arguments _ _ _) h) h

theorem evalProgram_mono [Device D] {items : List Item} {symbols : SymbolPool} {device : D}
    {s : Store D} {n m : Nat} (hle : n ≤ m) (h : evalProgram items symbols n device = some s) :
    evalProgram items symbols m device = some s := by
  induction hle with
  | refl => exact h
  | step _ ih =>
    exact bind_mono (fun _ h => h) (fun _ h => map_mono ((keepsResults _ _).row _ _ _) h) ih

/-- A program has at most one outcome. -/
theorem Evaluates.unique [Device D] {items : List Item} {symbols : SymbolPool} {device : D}
    {s t : Store D} (hs : Evaluates items symbols device s) (ht : Evaluates items symbols device t) :
    s = t := by
  obtain ⟨n, hn⟩ := hs
  obtain ⟨m, hm⟩ := ht
  have h₁ := evalProgram_mono (Nat.le_max_left n m) hn
  have h₂ := evalProgram_mono (Nat.le_max_right n m) hm
  exact Option.some.inj (h₁.symm.trans h₂)

/-! ## The count of the stack -/

section
variable {c : Context} {scope : List String} {s s' : Store D}

theorem Store.stack_of_assign? {name : String} (h : s.assign? c scope name = some s') :
    s'.stack = s.stack := by
  unfold assign? at h
  split at h
  · cases h; rfl
  · split at h <;> cases h
    rfl

variable [Device D] {address : Word}

theorem Store.stack_of_input? (h : s.input? address = some s') : s'.stack = s.stack := by
  unfold input? at h
  split at h <;> cases h
  rfl

theorem Store.stack_of_output? (h : s.output? address = some s') : s'.stack = s.stack := by
  unfold output? at h
  split at h <;> cases h
  rfl

end

/-- Evaluation with `fuel` only adds to the count. -/
structure CountsUp (D : Type) [Device D] (c : Context) (fuel : Nat) : Prop where
  expr : ∀ {scope e} {s s' : Store D}, eval c fuel scope e s = some s' → s.stack ≤ s'.stack
  row : ∀ {scope es} {s s' : Store D}, evalRow c fuel scope es s = some s' → s.stack ≤ s'.stack
  arguments : ∀ {scope es} {s s' : Store D} {values},
    evalArguments c fuel scope es s = some (values, s') → s.stack ≤ s'.stack

section
variable [Device D] {c : Context} {fuel : Nat} {scope : List String} {s s' : Store D}

theorem CountsUp.expr_succ (ih : CountsUp D c fuel) {e : Expr}
    (h : eval c (fuel + 1) scope e s = some s') : s.stack ≤ s'.stack := by
  cases e with
  | literal value =>
    rw [eval] at h
    cases h
    exact le_rfl
  | symbol name =>
    rw [eval] at h
    obtain ⟨i, -, rfl⟩ := Option.map_eq_some_iff.mp h
    exact le_rfl
  | reference name indirect =>
    cases indirect with
    | false =>
      rw [eval] at h
      obtain ⟨w, -, rfl⟩ := Option.map_eq_some_iff.mp h
      exact le_rfl
    | true =>
      rw [eval] at h
      obtain ⟨w, -, h⟩ := Option.bind_eq_some_iff.mp h
      exact (Store.stack_of_input? h).ge
  | declare name value =>
    rw [eval] at h
    obtain ⟨s₁, hv, h⟩ := Option.bind_eq_some_iff.mp h
    exact (ih.expr hv).trans (Store.stack_of_assign? h).ge
  | assign name indirect value =>
    cases indirect with
    | false =>
      rw [eval] at h
      obtain ⟨s₁, hv, h⟩ := Option.bind_eq_some_iff.mp h
      exact (ih.expr hv).trans (Store.stack_of_assign? h).ge
    | true =>
      rw [eval] at h
      obtain ⟨s₁, hv, h⟩ := Option.bind_eq_some_iff.mp h
      obtain ⟨w, -, h⟩ := Option.bind_eq_some_iff.mp h
      exact (ih.expr hv).trans (Store.stack_of_output? h).ge
  | cond test yes no =>
    rw [eval] at h
    obtain ⟨s₁, ht, h⟩ := Option.bind_eq_some_iff.mp h
    split at h
    · exact (ih.expr ht).trans (ih.row h)
    · exact (ih.expr ht).trans (ih.row h)
  | loop test body =>
    rw [eval] at h
    obtain ⟨s₁, ht, h⟩ := Option.bind_eq_some_iff.mp h
    split at h
    · cases h
      exact ih.expr ht
    · obtain ⟨s₂, hb, h⟩ := Option.bind_eq_some_iff.mp h
      exact (ih.expr ht).trans ((ih.row hb).trans (ih.expr h))
  | unary operator operand =>
    rw [eval] at h
    obtain ⟨s₁, hv, rfl⟩ := Option.map_eq_some_iff.mp h
    have hle := ih.expr hv
    exact hle
  | binary operator left right =>
    rw [eval] at h
    obtain ⟨s₁, hl, h⟩ := Option.bind_eq_some_iff.mp h
    obtain ⟨s₂, hr, rfl⟩ := Option.map_eq_some_iff.mp h
    have hle := (ih.expr hl).trans (ih.expr hr)
    exact hle
  | apply name es =>
    rw [eval] at h
    obtain ⟨⟨values, s₁⟩, hv, h⟩ := Option.bind_eq_some_iff.mp h
    obtain ⟨f, -, h⟩ := Option.bind_eq_some_iff.mp h
    split at h
    · obtain ⟨s₂, -, rfl⟩ := Option.map_eq_some_iff.mp h
      exact (ih.arguments hv).trans (Nat.le_max_left ..)
    · cases h

theorem countsUp (D : Type) [Device D] (c : Context) (fuel : Nat) : CountsUp D c fuel := by
  induction fuel with
  | zero =>
    refine ⟨fun h => ?_, fun h => ?_, fun h => ?_⟩
    · simp [eval] at h
    · simp [evalRow] at h
    · simp [evalArguments] at h
  | succ fuel ih =>
    refine ⟨ih.expr_succ, fun {_ es _ _} h => ?_, fun {_ es _ _ _} h => ?_⟩
    · cases es with
      | nil =>
        rw [evalRow] at h
        cases h
        exact le_rfl
      | cons e es =>
        rw [evalRow] at h
        obtain ⟨s₁, he, h⟩ := Option.bind_eq_some_iff.mp h
        exact (ih.expr he).trans (ih.row h)
    · cases es with
      | nil =>
        rw [evalArguments] at h
        cases h
        exact le_rfl
      | cons e es =>
        rw [evalArguments] at h
        obtain ⟨s₁, he, h⟩ := Option.bind_eq_some_iff.mp h
        obtain ⟨⟨vs, s₂⟩, hvs, heq⟩ := Option.map_eq_some_iff.mp h
        cases heq
        exact (ih.expr he).trans (ih.arguments hvs)

end

end WordLisp

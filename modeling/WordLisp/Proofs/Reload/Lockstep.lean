import WordLisp.Proofs.Reload.Program

/-!
# A program and the same without its redundant loads

`v.reduce last` is the view `v` as the program without redundant loads has it, when `last` is the last
operation of the code that was kept. Both programs carry out the same operations, except that the
one with all loads sometimes carries out a load that changes nothing.
-/

namespace WordLisp

/-! ## Reduced views -/

/-- The activation in the program without redundant loads. -/
def Activation.reduce (last : Op) (a : Activation) : Activation where
  routine := a.routine.optimized
  base := a.base
  code := Op.dropReloadsAfter last a.code
  slots := a.slots

/-- The view in the program without redundant loads. Callers wait behind a call, which makes no load
redundant. -/
def View.reduce (last : Op) (v : View D) : View D where
  left := v.left
  right := v.right
  data := v.data
  device := v.device
  top := v.top.reduce last
  below := v.below.map (Activation.reduce (.tag ""))

def Turn.map (f : View D → View D) : Turn D → Turn D
  | .skip v => .skip (f v)
  | .next v => .next (f v)
  | .halt v => .halt (f v)
  | .fault e => .fault e
  | .astray => .astray

/-- The operation stores something, so that a load behind it can be redundant. -/
def Op.Stores (op : Op) : Prop := (∃ x indirect, op = .store x indirect) ∨ op = .yield

theorem Op.stores_of_reloads {last op : Op} (h : last.record.reloads op.record = true) :
    last.Stores := by
  obtain ⟨i, j, hi, -, -, hop⟩ := Op.reloads_iff.mp h
  obtain ⟨r, b, indirect, hstore, -⟩ := Opcode.eq_of_loadFor? hop
  rcases Op.eq_store_of_opcode hi hstore with ⟨x, rfl⟩ | rfl
  · exact .inl ⟨x, indirect, rfl⟩
  · exact .inr rfl

theorem Op.dropReloadsAfter_of_not_stores {last : Op} (h : ¬ last.Stores) (ops : List Op) :
    Op.dropReloadsAfter last ops = Op.dropReloadsAfter (.tag "") ops := by
  cases ops with
  | nil => rfl
  | cons op ops =>
    rw [Op.dropReloadsAfter, Op.dropReloadsAfter, if_neg fun hr => h (Op.stores_of_reloads hr)]
    rfl

theorem Activation.reduce_of_not_stores {last : Op} (h : ¬ last.Stores) (a : Activation) :
    a.reduce last = a.reduce (.tag "") := by
  unfold Activation.reduce
  rw [Op.dropReloadsAfter_of_not_stores h]

/-! ## Control -/

theorem Program.find?_optimized (p : Program) (name : String) :
    p.optimized.find? name = (p.find? name).map Routine.optimized := by
  unfold Program.find? Program.optimized
  rw [List.find?_map]
  rfl

/-- What stands behind a tag depends on nothing in front of it. -/
theorem Op.dropWhile_dropReloadsAfter {name : String} {ops : List Op} (h : .tag name ∈ ops)
    (last last' : Op) :
    (Op.dropReloadsAfter last ops).dropWhile (· ≠ .tag name) =
      Op.dropReloadsAfter last' (ops.dropWhile (· ≠ .tag name)) := by
  induction ops generalizing last with
  | nil => cases h
  | cons op ops ih =>
    by_cases he : op = .tag name
    · subst he
      have hkeep (l : Op) : ¬ l.record.reloads (Op.tag name).record = true := by
        intro hr
        obtain ⟨x, indirect, hx⟩ := Op.load_of_reloads hr
        cases hx
      rw [Op.dropReloadsAfter, if_neg (hkeep last), List.dropWhile_cons_of_neg (by simp),
        List.dropWhile_cons_of_neg (by simp), Op.dropReloadsAfter, if_neg (hkeep last')]
    · have hm : .tag name ∈ ops := by
        rcases List.mem_cons.mp h with h | h
        · exact absurd h.symm he
        · exact h
      rw [List.dropWhile_cons_of_pos (by simpa using he), Op.dropReloadsAfter]
      split
      · exact ih hm last
      · rw [List.dropWhile_cons_of_pos (by simpa using he)]
        exact ih hm op

theorem Activation.goto_target_reduce {a : Activation} {name : String}
    (h : .tag name ∈ a.routine.code) (last last' : Op) :
    (a.reduce last).goto ((a.reduce last).target name) = (a.goto (a.target name)).reduce last' := by
  unfold Activation.goto Activation.target Activation.reduce
  simp only
  rw [show a.routine.optimized.code = Op.dropReloadsAfter (.tag "") a.routine.code from rfl,
    Op.dropWhile_dropReloadsAfter h (.tag "") last']

/-! ## Operations that both programs carry out -/

/-- The content of the operand is known. -/
def View.Knows (v : View D) : Operand → Prop
  | .cell _ => True
  | .slot n => v.top.slots n ≠ none

theorem View.Knows.value_eq {v : View D} {x : Operand} (h : v.Knows x) (last : Op)
    (stale stale' : Nat → Word) : (v.reduce last).value stale' x = v.value stale x := by
  cases x with
  | cell tag => rfl
  | slot n =>
    obtain ⟨w, hw⟩ := Option.ne_none_iff_exists'.mp h
    show (v.top.slots n).getD _ = (v.top.slots n).getD _
    rw [hw]
    rfl

section
variable [Device D] {p : Program} {roof : Int} {v : View D} {op : Op}

/-- An operation does the same in both programs. -/
theorem View.exec_reduce (stale stale' : Nat → Word)
    (hreads : ∀ x, op.Reads x → v.Knows x)
    (htarget : ∀ name, op = .branch name ∨ op = .jump name → .tag name ∈ v.top.routine.code) :
    (v.reduce op).exec p.optimized roof stale' op = (v.exec p roof stale op).map (View.reduce op) := by
  cases op with
  | tag name | unary operator | binary operator | swap | stop => rfl
  | load x indirect =>
    have hx := (hreads x (.inl ⟨indirect, rfl⟩)).value_eq (.load x indirect) stale stale'
    cases indirect with
    | false =>
      simp only [View.exec, View.load, hx]
      rfl
    | true =>
      simp only [View.exec, View.load, hx]
      split <;> rfl
  | store x indirect =>
    cases indirect with
    | false =>
      cases x with
      | cell tag => rfl
      | slot n =>
        simp only [View.exec, View.store, apply_ite (Turn.map _)]
        rfl
    | true =>
      have hx := (hreads x (.inr rfl)).value_eq (.store x true) stale stale'
      simp only [View.exec, View.store, hx]
      split <;> rfl
  | yield =>
    obtain ⟨left, right, data, device, top, below⟩ := v
    cases below <;> rfl
  | branch name =>
    have ht := Activation.goto_target_reduce (htarget name (.inl rfl)) (.branch name) (.branch name)
    simp only [View.exec, apply_ite (Turn.map _)]
    simp only [Turn.map, View.reduce, ht]
  | jump name =>
    have ht := Activation.goto_target_reduce (htarget name (.inr rfl)) (.jump name) (.jump name)
    simp only [View.exec, Turn.map, View.reduce, ht]
  | call name =>
    have hnot : ¬ (Op.call name).Stores := by simp [Op.Stores]
    simp only [View.exec, View.call, Program.find?_optimized]
    cases p.find? name with
    | none => rfl
    | some r =>
      simp only [Option.map_some]
      simp only [apply_ite (Turn.map _)]
      simp only [Turn.map, View.reduce, Activation.reduce_of_not_stores hnot, List.map_cons]
      rfl
  | ret =>
    have hnot : ¬ Op.ret.Stores := by simp [Op.Stores]
    obtain ⟨left, right, data, device, top, below⟩ := v
    cases below with
    | nil => rfl
    | cons a below =>
      simp only [View.exec, View.reduce, List.map_cons, Turn.map,
        Activation.reduce_of_not_stores hnot]

/-- A turn in front of an operation that was kept is the same in both programs. -/
theorem View.turn_reduce {last : Op} {rest : List Op} (hc : v.top.code = op :: rest)
    (hkeep : last.record.reloads op.record = false) (stale stale' : Nat → Word)
    (hreads : ∀ x, op.Reads x → v.Knows x)
    (htarget : ∀ name, op = .branch name ∨ op = .jump name → .tag name ∈ v.top.routine.code) :
    (v.reduce last).turn p.optimized roof stale' = (v.turn p roof stale).map (View.reduce op) := by
  have hcode : (v.reduce last).top.code = op :: Op.dropReloadsAfter op rest := by
    show Op.dropReloadsAfter last v.top.code = _
    rw [hc, Op.dropReloadsAfter, if_neg (by simp [hkeep])]
  rw [View.turn_cons hcode, View.turn_cons hc]
  exact View.exec_reduce (v := { v with top := v.top.goto rest }) stale stale'
    (fun x hx => by have := hreads x hx; cases x <;> exact this) htarget

/-! ## Loads that only one of the programs carries out -/

/-- What the operation has stored is still the value. -/
def View.Settled (v : View D) (last : Op) : Prop :=
  ∀ x, last = .store x false →
    match x with
    | .cell tag => v.data tag = v.left
    | .slot n => v.top.slots n = some v.left

/-- A load of what has just been stored changes nothing. -/
theorem View.turn_reload {x : Operand} {rest : List Op} (hs : v.Settled (.store x false))
    (hc : v.top.code = .load x false :: rest) (stale : Nat → Word) :
    v.turn p roof stale = .next { v with top := v.top.goto rest } := by
  have hx : v.value stale x = v.left := by
    have := hs x rfl
    cases x with
    | cell tag => exact this
    | slot n =>
      show (v.top.slots n).getD _ = _
      rw [this]
      rfl
  rw [View.turn_cons hc]
  simp only [View.exec, View.load, View.value_goto, hx]

omit [Device D] in
theorem View.reduce_reload {last : Op} {rest : List Op} (hc : v.top.code = op :: rest)
    (hr : last.record.reloads op.record = true) :
    ({ v with top := v.top.goto rest } : View D).reduce last = v.reduce last := by
  unfold View.reduce Activation.reduce
  simp only [hc, Activation.goto]
  rw [Op.dropReloadsAfter, if_pos hr]

/-- After a store, what it has stored is the value. -/
theorem View.settled_of_turn {rest : List Op} {v' : View D} {stale : Nat → Word}
    (hc : v.top.code = op :: rest) (ht : v.turn p roof stale = .next v') : v'.Settled op := by
  rintro x rfl
  rw [View.turn_cons hc] at ht
  cases x with
  | cell tag =>
    cases ht
    exact Function.update_self ..
  | slot n =>
    simp only [View.exec, View.store] at ht
    split at ht
    · cases ht
      exact Activation.slots_put_self _ _ _
    · cases ht

end

end WordLisp

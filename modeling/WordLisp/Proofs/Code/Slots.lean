import WordLisp.Proofs.Code.Accesses
import WordLisp.Proofs.View.WellFormed

/-!
# The slots that code addresses

`Frame.Permits` says which slots an instruction may address: variables, the intermediate values between
two bounds, the arguments of a call and what a call has returned.

The code of an expression that is compiled at some slot keeps to as many intermediate values from there
on as the expression was counted to need, and it stores into all of them.
-/

namespace WordLisp

/-! ## Permitted slots -/

/-- The slots between `low` and `high` are for intermediate values, and `passes n` says that a function
with `n` parameters is called. -/
inductive Frame.Permits (frame : Frame) (low high : Nat) (passes : Nat → Prop) : Opcode → Nat → Prop where
  | named {opcode : Opcode} {s : Nat} : 1 ≤ s → s ≤ frame.names.length →
    Permits frame low high passes opcode s
  | load {s : Nat} : low ≤ s → s < high → Permits frame low high passes (.load .left .frame false) s
  | store {s : Nat} : low ≤ s → s < high → Permits frame low high passes (.store .left .frame false) s
  | result : Permits frame low high passes (.load .left .frame false) frame.returnSlot
  | argument {n i : Nat} : passes n → i < n →
    Permits frame low high passes (.store .left .frame false) (frame.argumentSlot i)

/-- All instructions of the listing that address a slot are permitted to. -/
def Frame.Confines (frame : Frame) (low high : Nat) (passes : Nat → Prop) (l : Listing) : Prop :=
  ∀ opcode offset, .instruction (.frame opcode offset) ∈ l →
    ∃ s, offset = Int32.ofNat s ∧ frame.Permits low high passes opcode s

/-- All slots, those of arguments included, are different words. -/
structure Frame.Numbered (frame : Frame) (passes : Nat → Prop) : Prop where
  size : frame.size < 2 ^ 31
  passes : ∀ n, passes n → frame.size + n < 2 ^ 31

section
variable {frame : Frame} {low high : Nat} {passes : Nat → Prop} {opcode : Opcode} {s : Nat}

/-- A slot that is permitted is that of a variable, an intermediate value or a result, or it lies
beyond the frame. -/
theorem Frame.Permits.cases (h : frame.Permits low high passes opcode s) :
    1 ≤ s ∧ s < frame.tempStart ∨ low ≤ s ∧ s < high ∨ s = frame.returnSlot ∨
      ∃ n, passes n ∧ frame.size < s ∧ s ≤ frame.size + n := by
  cases h with
  | named h1 hle => exact .inl ⟨h1, by unfold Frame.tempStart; omega⟩
  | load hlow hhigh | store hlow hhigh => exact .inr (.inl ⟨hlow, hhigh⟩)
  | result => exact .inr (.inr (.inl rfl))
  | argument hn hi =>
    refine .inr (.inr (.inr ⟨_, hn, ?_, ?_⟩)) <;> unfold Frame.argumentSlot <;> omega

theorem Frame.Permits.lt (hnum : frame.Numbered passes) (hhigh : high ≤ frame.returnSlot)
    (h : frame.Permits low high passes opcode s) : s < 2 ^ 31 := by
  have hsize := hnum.size
  unfold Frame.size Frame.returnSlot at hsize
  rcases h.cases with h | h | h | ⟨n, hn, -, hs⟩
  · omega
  · unfold Frame.returnSlot at hhigh
    omega
  · unfold Frame.returnSlot at h
    omega
  · have := hnum.passes n hn
    omega

/-- The base of the caller, the return address and the base of the called function are not permitted. -/
theorem Frame.Permits.ne_linkage (hlow : frame.tempStart ≤ low) (hhigh : high ≤ frame.returnSlot)
    (h : frame.Permits low high passes opcode s) :
    s ≠ 0 ∧ s ≠ frame.size - 1 ∧ s ≠ frame.size := by
  unfold Frame.size
  have hstart : 1 ≤ frame.tempStart := Nat.le_add_right 1 _
  have hle : frame.tempStart ≤ frame.returnSlot := Nat.le_add_right _ _
  rcases h.cases with h | h | h | ⟨n, -, hs, -⟩
  · omega
  · omega
  · omega
  · unfold Frame.size at hs
    omega

/-- Among the slots behind the variables, a store is permitted to reach only intermediate values. -/
theorem Frame.Permits.temporary (hstart : frame.tempStart ≤ s) (hsize : s < frame.size)
    (h : frame.Permits low high passes (.store .left .frame false) s) : low ≤ s ∧ s < high := by
  cases h with
  | named _ hle =>
    unfold Frame.tempStart at hstart
    omega
  | store hlow hhigh => exact ⟨hlow, hhigh⟩
  | argument =>
    unfold Frame.argumentSlot at hsize
    omega

end

theorem ofNat_ne_neg_two {s : Nat} (h : s < 2 ^ 31) : Int32.ofNat s ≠ -2 := by
  intro he
  have hneg : (-2 : Int32).toInt = -2 := by decide
  have := congrArg Int32.toInt he
  rw [Int32.toInt_ofNat_of_lt h, hneg] at this
  omega

/-! ## Operations -/

/-- If the operation addresses a slot of the frame, it is permitted to. -/
structure Op.Within (frame : Frame) (low high : Nat) (passes : Nat → Prop) (op : Op) : Prop where
  load : ∀ s indirect, op = .load (.slot s) indirect →
    frame.Permits low high passes (.load .left .frame indirect) s
  store : ∀ s indirect, op = .store (.slot s) indirect →
    frame.Permits low high passes (.store .left .frame indirect) s
  ne_yield : op ≠ .yield

section
variable {frame : Frame} {low high : Nat} {passes : Nat → Prop}

theorem Op.confines_listing {ops : List Op} (h : ∀ op ∈ ops, op.Within frame low high passes) :
    frame.Confines low high passes (Op.listing ops) := by
  intro opcode offset hm
  obtain ⟨op, hop, hrecord⟩ := List.mem_map.mp hm
  cases op with
  | load x indirect =>
    cases x with
    | cell _ => cases hrecord
    | slot s =>
      cases hrecord
      exact ⟨s, rfl, (h _ hop).load s indirect rfl⟩
  | store x indirect =>
    cases x with
    | cell _ => cases hrecord
    | slot s =>
      cases hrecord
      exact ⟨s, rfl, (h _ hop).store s indirect rfl⟩
  | yield => exact absurd rfl (h _ hop).ne_yield
  | _ => cases hrecord

/-- An operation that addresses no slot. -/
theorem Op.Within.of_ne {op : Op} (hload : ∀ s indirect, op ≠ .load (.slot s) indirect)
    (hstore : ∀ s indirect, op ≠ .store (.slot s) indirect) (hyield : op ≠ .yield) :
    op.Within frame low high passes :=
  ⟨fun s indirect h => absurd h (hload s indirect), fun s indirect h => absurd h (hstore s indirect), hyield⟩

theorem Op.Within.of_load {x : Operand} {indirect : Bool}
    (h : ∀ s, x = .slot s → frame.Permits low high passes (.load .left .frame indirect) s) :
    Op.Within frame low high passes (.load x indirect) := by
  refine ⟨fun s i he => ?_, fun s i he => ?_, fun he => ?_⟩ <;> cases he
  exact h s rfl

theorem Op.Within.of_store {x : Operand} {indirect : Bool}
    (h : ∀ s, x = .slot s → frame.Permits low high passes (.store .left .frame indirect) s) :
    Op.Within frame low high passes (.store x indirect) := by
  refine ⟨fun s i he => ?_, fun s i he => ?_, fun he => ?_⟩ <;> cases he
  exact h s rfl

/-- Variables are always permitted. -/
theorem Frame.permits_operand {name : String} {s : Nat} (h : frame.operand name = .slot s)
    (opcode : Opcode) : frame.Permits low high passes opcode s := by
  unfold Frame.operand at h
  cases hs : frame.slot? name with
  | none => rw [hs] at h; cases h
  | some k =>
    rw [hs] at h
    cases h
    obtain ⟨h1, hlt⟩ := Frame.slot?_le hs
    exact .named h1 (by unfold Frame.tempStart at hlt; omega)

theorem Op.Within.load_slot {s : Nat} (hlow : low ≤ s) (hhigh : s < high) :
    Op.Within frame low high passes (.load (.slot s) false) :=
  .of_load fun _ h => by cases h; exact .load hlow hhigh

theorem Op.Within.store_slot {s : Nat} (hlow : low ≤ s) (hhigh : s < high) :
    Op.Within frame low high passes (.store (.slot s) false) :=
  .of_store fun _ h => by cases h; exact .store hlow hhigh

theorem Op.Within.load_result : Op.Within frame low high passes (.load (.slot frame.returnSlot) false) :=
  .of_load fun _ h => by cases h; exact .result

theorem within_passCode {slot count : Nat} (hlow : low ≤ slot) (hhigh : ∀ i < count, slot + i < high)
    (hpass : passes count) :
    ∀ op ∈ passCode slot (frame.size + 1) count, op.Within frame low high passes := by
  intro op hop
  obtain ⟨i, hi, rfl | rfl⟩ := mem_passCode hop
  · exact .load_slot (by omega) (hhigh i hi)
  · refine .of_store fun _ h => ?_
    cases h
    exact .argument hpass hi

end

/-! ## Expressions -/

section
variable (frame : Frame) {low high : Nat} {passes : Nat → Prop}

mutual

theorem Expr.within_code (slot n : Nat) (hlow : low ≤ slot) : ∀ e : Expr, slot + e.temporaries ≤ high →
    (∀ name arguments, .apply name arguments ∈ e.parts → passes arguments.length) →
    ∀ op ∈ e.code frame slot n, op.Within frame low high passes
  | .literal _, _, _ | .symbol _, _, _ => by
    simp only [Expr.code, List.forall_mem_singleton]
    exact .of_load (by simp)
  | .reference name indirect, _, _ => by
    simp only [Expr.code, List.forall_mem_singleton]
    exact .of_load fun _ h => Frame.permits_operand h _
  | .declare name value, ht, hp => by
    simp only [Expr.code, List.forall_mem_append, List.forall_mem_singleton]
    exact ⟨Expr.within_code slot n hlow value ht fun f as h => hp f as (by simp [Expr.parts, h]),
      .of_store fun _ h => Frame.permits_operand h _⟩
  | .assign name indirect value, ht, hp => by
    simp only [Expr.code, List.forall_mem_append, List.forall_mem_singleton]
    exact ⟨Expr.within_code slot n hlow value ht fun f as h => hp f as (by simp [Expr.parts, h]),
      .of_store fun _ h => Frame.permits_operand h _⟩
  | .cond test yes no, ht, hp => by
    rw [Expr.temporaries] at ht
    simp only [Expr.code, List.forall_mem_append, List.forall_mem_cons]
    exact ⟨Expr.within_code slot _ hlow test (by omega) fun f as h => hp f as (by simp [Expr.parts, h]),
      .of_ne (by simp) (by simp) (by simp),
      Expr.within_rowCode slot _ hlow no (by omega) fun f as h => hp f as (by simp [Expr.parts, h]),
      .of_ne (by simp) (by simp) (by simp), .of_ne (by simp) (by simp) (by simp),
      Expr.within_rowCode slot _ hlow yes (by omega) fun f as h => hp f as (by simp [Expr.parts, h]),
      .of_ne (by simp) (by simp) (by simp), List.forall_mem_nil _⟩
  | .loop test body, ht, hp => by
    rw [Expr.temporaries] at ht
    simp only [Expr.code, List.forall_mem_append, List.forall_mem_cons]
    exact ⟨.of_ne (by simp) (by simp) (by simp),
      Expr.within_code slot _ hlow test (by omega) fun f as h => hp f as (by simp [Expr.parts, h]),
      .of_ne (by simp) (by simp) (by simp), .of_ne (by simp) (by simp) (by simp), .of_ne (by simp) (by simp) (by simp),
      Expr.within_rowCode slot _ hlow body (by omega) fun f as h => hp f as (by simp [Expr.parts, h]),
      .of_ne (by simp) (by simp) (by simp), .of_ne (by simp) (by simp) (by simp), List.forall_mem_nil _⟩
  | .unary _ operand, ht, hp => by
    simp only [Expr.code, List.forall_mem_append, List.forall_mem_singleton]
    exact ⟨Expr.within_code slot n hlow operand ht fun f as h => hp f as (by simp [Expr.parts, h]),
      .of_ne (by simp) (by simp) (by simp)⟩
  | .binary _ left right, ht, hp => by
    rw [Expr.temporaries] at ht
    simp only [Expr.code, List.forall_mem_append, List.forall_mem_cons]
    exact ⟨Expr.within_code slot n hlow left (by omega) fun f as h => hp f as (by simp [Expr.parts, h]),
      .store_slot hlow (by omega),
      Expr.within_code (slot + 1) _ (by omega) right (by omega) fun f as h =>
        hp f as (by simp [Expr.parts, h]),
      .of_ne (by simp) (by simp) (by simp), .load_slot hlow (by omega), .of_ne (by simp) (by simp) (by simp),
      List.forall_mem_nil _⟩
  | .apply name arguments, ht, hp => by
    rw [Expr.temporaries] at ht
    simp only [Expr.code, List.forall_mem_append, List.forall_mem_cons]
    refine ⟨Expr.within_argumentCode slot 0 n hlow arguments ht fun f as h =>
        hp f as (by simp [Expr.parts, h]),
      within_passCode hlow (fun i hi => ?_) (hp name arguments (List.mem_cons_self ..)),
      .of_ne (by simp) (by simp) (by simp), .load_result, List.forall_mem_nil _⟩
    have := Expr.lt_argumentTemporaries 0 hi
    omega

theorem Expr.within_rowCode (slot n : Nat) (hlow : low ≤ slot) : ∀ es : List Expr,
    slot + Expr.rowTemporaries es ≤ high →
    (∀ name arguments, .apply name arguments ∈ Expr.rowParts es → passes arguments.length) →
    ∀ op ∈ Expr.rowCode frame slot n es, op.Within frame low high passes
  | [], _, _ => List.forall_mem_nil _
  | e :: es, ht, hp => by
    rw [Expr.rowTemporaries] at ht
    simp only [Expr.rowCode, List.forall_mem_append]
    exact ⟨Expr.within_code slot n hlow e (by omega) fun f as h => hp f as (by simp [Expr.rowParts, h]),
      Expr.within_rowCode slot _ hlow es (by omega) fun f as h => hp f as (by simp [Expr.rowParts, h])⟩

theorem Expr.within_argumentCode (start kept n : Nat) (hlow : low ≤ start) : ∀ es : List Expr,
    start + Expr.argumentTemporaries kept es ≤ high →
    (∀ name arguments, .apply name arguments ∈ Expr.rowParts es → passes arguments.length) →
    ∀ op ∈ Expr.argumentCode frame (start + kept) n es, op.Within frame low high passes
  | [], _, _ => List.forall_mem_nil _
  | e :: es, ht, hp => by
    rw [Expr.argumentTemporaries] at ht
    simp only [Expr.argumentCode, List.forall_mem_append, List.forall_mem_cons]
    exact ⟨Expr.within_code (start + kept) n (by omega) e (by omega) fun f as h =>
        hp f as (by simp [Expr.rowParts, h]),
      .store_slot (by omega) (by omega),
      Expr.within_argumentCode start (kept + 1) _ hlow es (by omega) fun f as h =>
        hp f as (by simp [Expr.rowParts, h])⟩

end

mutual

/-- Each of the slots that an expression was counted to need is stored into. -/
theorem Expr.store_mem_code {s : Nat} (slot n : Nat) (hs : slot ≤ s) : ∀ e : Expr,
    s < slot + e.temporaries → .store (.slot s) false ∈ e.code frame slot n
  | .literal _, h | .symbol _, h | .reference _ _, h => by
    simp only [Expr.temporaries] at h
    omega
  | .declare _ value, h | .assign _ _ value, h =>
    List.mem_append_left _ (Expr.store_mem_code slot n hs value h)
  | .cond test yes no, h => by
    rw [Expr.temporaries] at h
    have hcases : s < slot + test.temporaries ∨ s < slot + Expr.rowTemporaries no ∨
        s < slot + Expr.rowTemporaries yes := by omega
    simp only [Expr.code, List.mem_append, List.mem_cons]
    rcases hcases with h | h | h
    · simp [Expr.store_mem_code slot _ hs test h]
    · simp [Expr.store_mem_rowCode slot _ hs no h]
    · simp [Expr.store_mem_rowCode slot _ hs yes h]
  | .loop test body, h => by
    rw [Expr.temporaries] at h
    have hcases : s < slot + test.temporaries ∨ s < slot + Expr.rowTemporaries body := by omega
    simp only [Expr.code, List.mem_append, List.mem_cons]
    rcases hcases with h | h
    · simp [Expr.store_mem_code slot _ hs test h]
    · simp [Expr.store_mem_rowCode slot _ hs body h]
  | .unary _ operand, h => List.mem_append_left _ (Expr.store_mem_code slot n hs operand h)
  | .binary _ left right, h => by
    rw [Expr.temporaries] at h
    have hcases : s < slot + left.temporaries ∨ s = slot ∨
        slot + 1 ≤ s ∧ s < slot + 1 + right.temporaries := by omega
    simp only [Expr.code, List.mem_append, List.mem_cons]
    rcases hcases with h | rfl | ⟨hle, h⟩
    · simp [Expr.store_mem_code slot _ hs left h]
    · simp
    · simp [Expr.store_mem_code (slot + 1) _ hle right h]
  | .apply _ arguments, h =>
    List.mem_append_left _ (Expr.store_mem_argumentCode slot 0 n hs arguments h)

theorem Expr.store_mem_rowCode {s : Nat} (slot n : Nat) (hs : slot ≤ s) : ∀ es : List Expr,
    s < slot + Expr.rowTemporaries es → .store (.slot s) false ∈ Expr.rowCode frame slot n es
  | [], h => by
    simp only [Expr.rowTemporaries] at h
    omega
  | e :: es, h => by
    rw [Expr.rowTemporaries] at h
    have hcases : s < slot + e.temporaries ∨ s < slot + Expr.rowTemporaries es := by omega
    rcases hcases with h | h
    · exact List.mem_append_left _ (Expr.store_mem_code slot n hs e h)
    · exact List.mem_append_right _ (Expr.store_mem_rowCode slot _ hs es h)

/-- The slots of the arguments that are already there have been stored into before. -/
theorem Expr.store_mem_argumentCode {s : Nat} (start kept n : Nat) (hs : start + kept ≤ s) :
    ∀ es : List Expr, s < start + Expr.argumentTemporaries kept es →
      .store (.slot s) false ∈ Expr.argumentCode frame (start + kept) n es
  | [], h => by
    simp only [Expr.argumentTemporaries] at h
    omega
  | e :: es, h => by
    rw [Expr.argumentTemporaries] at h
    have hcases : s < start + kept + e.temporaries ∨ s = start + kept ∨
        start + (kept + 1) ≤ s ∧ s < start + Expr.argumentTemporaries (kept + 1) es := by omega
    simp only [Expr.argumentCode, List.mem_append, List.mem_cons]
    rcases hcases with h | rfl | ⟨hle, h⟩
    · exact .inl (Expr.store_mem_code _ n hs e h)
    · exact .inr (.inl rfl)
    · exact .inr (.inr (Expr.store_mem_argumentCode start (kept + 1) _ hle es h))

end

end

end WordLisp

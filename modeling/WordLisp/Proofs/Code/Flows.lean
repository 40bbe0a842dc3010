import WordLisp.Proofs.View.WellFormed

/-!
# Slots are stored before they are loaded

`Op.Flows` follows a row of operations with a set of places that have been stored into, and demands
that nothing is loaded from other places, except from variables. Code that comes to a tag from
different sides has to bring the intermediate values that the tag needs, which are those below some
slot. All code of the generator flows (`Expr.flows_code`).
-/

namespace WordLisp

/-- What a routine can store into. -/
inductive Spot where
  | slot (n : Nat)
  /-- The return slot of the caller. -/
  | caller

/-- The slots for intermediate values below slot `k`. -/
def Frame.upTo (frame : Frame) (k : Nat) : Spot → Prop
  | .slot n => frame.tempStart ≤ n ∧ n < k
  | .caller => False

/-- One more place. -/
def Spot.add (known : Spot → Prop) (s : Spot) : Spot → Prop := fun t => t = s ∨ known t

/-- What a routine knows when a call is over. -/
def Frame.behindCall (frame : Frame) (known : Spot → Prop) : Spot → Prop
  | .slot n => n = frame.returnSlot ∨ (n < frame.returnSlot ∧ known (.slot n))
  | .caller => False

section
variable (frame : Frame) (arity : String → Nat) (need : String → Nat)

/-- The operations load only what is known. `need` is the slot below which a tag needs all
intermediate values, and `arity` the number of parameters of a function. -/
def Op.Flows (known : Spot → Prop) : List Op → Prop
  | [] => True
  | .tag name :: ops =>
    (∀ s, frame.upTo (need name) s → known s) ∧ Op.Flows (frame.upTo (need name)) ops
  | .load (.slot n) _ :: ops | .store (.slot n) true :: ops =>
    (n < frame.tempStart ∨ known (.slot n)) ∧ Op.Flows known ops
  | .store (.slot n) false :: ops => Op.Flows (Spot.add known (.slot n)) ops
  | .yield :: ops => Op.Flows (Spot.add known .caller) ops
  | .branch name :: ops => (∀ s, frame.upTo (need name) s → known s) ∧ Op.Flows known ops
  -- only a tag can follow, and whoever comes to it brings what it needs
  | .jump name :: ops => (∀ s, frame.upTo (need name) s → known s) ∧ Op.Flows (fun _ => True) ops
  | .call name :: ops =>
    (∀ i < arity name, known (.slot (frame.size + 1 + i))) ∧
      Op.Flows (frame.behindCall known) ops
  | .stop :: ops => known (.slot frame.returnSlot) ∧ Op.Flows (fun _ => True) ops
  | .ret :: ops => known .caller ∧ Op.Flows (fun _ => True) ops
  | .load (.cell _) _ :: ops | .store (.cell _) _ :: ops | .unary _ :: ops | .binary _ :: ops
  | .swap :: ops => Op.Flows known ops

end

section
variable {frame : Frame} {arity : String → Nat} {need : String → Nat} {known known' : Spot → Prop}

theorem Spot.add_mono (h : ∀ s, known s → known' s) (t s : Spot) (hs : Spot.add known t s) :
    Spot.add known' t s := hs.imp_right (h s)

theorem Frame.behindCall_mono (h : ∀ s, known s → known' s) (s : Spot)
    (hs : frame.behindCall known s) : frame.behindCall known' s := by
  cases s with
  | caller => exact hs
  | slot n => exact hs.imp_right (And.imp_right (h _))

theorem Frame.upTo_mono {j k : Nat} (h : j ≤ k) (s : Spot) (hs : frame.upTo j s) :
    frame.upTo k s := by
  cases s with
  | caller => exact hs
  | slot n => exact ⟨hs.1, Nat.lt_of_lt_of_le hs.2 h⟩

/-- It does no harm to know more. -/
theorem Op.Flows.mono (h : ∀ s, known s → known' s) {ops : List Op}
    (hf : Op.Flows frame arity need known ops) : Op.Flows frame arity need known' ops := by
  induction ops generalizing known known' with
  | nil => trivial
  | cons op ops ih =>
    cases op with
    | tag name => exact ⟨fun s hs => h s (hf.1 s hs), hf.2⟩
    | load x indirect =>
      cases x with
      | cell tag => exact ih h hf
      | slot n => exact ⟨hf.1.imp_right (h _), ih h hf.2⟩
    | store x indirect =>
      cases x with
      | cell tag => cases indirect <;> exact ih h hf
      | slot n =>
        cases indirect with
        | false => exact ih (Spot.add_mono h _) hf
        | true => exact ⟨hf.1.imp_right (h _), ih h hf.2⟩
    | yield => exact ih (Spot.add_mono h _) hf
    | unary operator | binary operator | swap => exact ih h hf
    | branch name => exact ⟨fun s hs => h s (hf.1 s hs), ih h hf.2⟩
    | jump name => exact ⟨fun s hs => h s (hf.1 s hs), hf.2⟩
    | stop => exact ⟨h _ hf.1, hf.2⟩
    | call name => exact ⟨fun i hi => h _ (hf.1 i hi), ih (Frame.behindCall_mono h) hf.2⟩
    | ret => exact ⟨h _ hf.1, hf.2⟩

/-- Code behind a tag flows, wherever the tag stands. -/
theorem Op.Flows.of_suffix {ops rest : List Op} {name : String}
    (hf : Op.Flows frame arity need known ops) (hs : .tag name :: rest <:+ ops) :
    Op.Flows frame arity need (frame.upTo (need name)) rest := by
  induction ops generalizing known with
  | nil => cases List.suffix_nil.mp hs
  | cons op ops ih =>
    rcases List.suffix_cons_iff.mp hs with heq | htail
    · cases heq
      exact hf.2
    · cases op with
      | tag name | branch name | jump name | stop | call name | ret => exact ih hf.2 htail
      | load x indirect =>
        cases x with
        | cell tag => exact ih hf htail
        | slot n => exact ih hf.2 htail
      | store x indirect =>
        cases x with
        | cell tag => cases indirect <;> exact ih hf htail
        | slot n =>
          cases indirect with
          | false => exact ih hf htail
          | true => exact ih hf.2 htail
      | yield | unary operator | binary operator | swap => exact ih hf htail

end

/-! ## Tags and the slots that they need -/

mutual

/-- The tags of an expression in the order of its code, each with the slot below which it needs all
intermediate values. -/
def Expr.marks (slot n : Nat) : Expr → List (String × Nat)
  | .literal _ | .symbol _ | .reference _ _ => []
  | .declare _ value | .assign _ _ value => value.marks slot n
  | .cond test yes no =>
    test.marks slot (n + 1) ++ (Expr.rowMarks slot (n + 1 + test.forks) no ++ (thenTag n, slot) ::
      (Expr.rowMarks slot (n + 1 + test.forks + Expr.rowForks no) yes ++ [(endTag n, slot)]))
  | .loop test body =>
    (topTag n, slot) :: (test.marks slot (n + 1) ++ (bodyTag n, slot) ::
      (Expr.rowMarks slot (n + 1 + test.forks) body ++ [(exitTag n, slot)]))
  | .unary _ operand => operand.marks slot n
  | .binary _ left right => left.marks slot n ++ right.marks (slot + 1) (n + left.forks)
  | .apply _ arguments => Expr.argumentMarks slot n arguments

def Expr.rowMarks (slot n : Nat) : List Expr → List (String × Nat)
  | [] => []
  | e :: es => e.marks slot n ++ Expr.rowMarks slot (n + e.forks) es

def Expr.argumentMarks (slot n : Nat) : List Expr → List (String × Nat)
  | [] => []
  | e :: es => e.marks slot n ++ Expr.argumentMarks (slot + 1) (n + e.forks) es

end

section
variable {frame : Frame}

open Listing (tagNames)

mutual

theorem Expr.map_fst_marks (slot n : Nat) : ∀ e : Expr,
    (e.marks slot n).map Prod.fst = tagNames (Op.listing (e.code frame slot n))
  | .literal _ | .symbol _ | .reference _ _ => rfl
  | .declare _ value | .assign _ _ value => by
    simp [Expr.marks, Expr.code, tagNames, Op.record, Expr.map_fst_marks]
  | .cond test yes no => by
    simp [Expr.marks, Expr.code, tagNames, Op.record, Expr.map_fst_marks, Expr.map_fst_rowMarks]
  | .loop test body => by
    simp [Expr.marks, Expr.code, tagNames, Op.record, Expr.map_fst_marks, Expr.map_fst_rowMarks]
  | .unary _ operand => by
    simp [Expr.marks, Expr.code, tagNames, Op.record, Expr.map_fst_marks]
  | .binary _ left right => by
    simp [Expr.marks, Expr.code, tagNames, Op.record, Expr.map_fst_marks]
  | .apply _ arguments => by
    simp [Expr.marks, Expr.code, tagNames, Op.record, Expr.map_fst_argumentMarks, tagNames_passCode]

theorem Expr.map_fst_rowMarks (slot n : Nat) : ∀ es : List Expr,
    (Expr.rowMarks slot n es).map Prod.fst = tagNames (Op.listing (Expr.rowCode frame slot n es))
  | [] => rfl
  | e :: es => by
    simp [Expr.rowMarks, Expr.rowCode, Expr.map_fst_marks, Expr.map_fst_rowMarks]

theorem Expr.map_fst_argumentMarks (slot n : Nat) : ∀ es : List Expr,
    (Expr.argumentMarks slot n es).map Prod.fst =
      tagNames (Op.listing (Expr.argumentCode frame slot n es))
  | [] => rfl
  | e :: es => by
    simp [Expr.argumentMarks, Expr.argumentCode, Expr.map_fst_marks, Expr.map_fst_argumentMarks,
      Op.record, tagNames]

end

end

/-! ## The code of expressions -/

section
variable {env : Resources} {frame : Frame} {arity need : String → Nat}

theorem Frame.operand_lt {name : String} {n : Nat} (h : frame.operand name = .slot n) :
    n < frame.tempStart := by
  unfold Frame.operand at h
  split at h
  · next k hk =>
    cases h
    exact (Frame.slot?_le hk).2
  · cases h

theorem Op.Flows.load_operand {known : Spot → Prop} {rest : List Op} (name : String) (indirect : Bool)
    (h : Op.Flows frame arity need known rest) :
    Op.Flows frame arity need known (.load (frame.operand name) indirect :: rest) := by
  cases hx : frame.operand name with
  | cell tag => exact h
  | slot n => exact ⟨.inl (Frame.operand_lt hx), h⟩

theorem Op.Flows.store_operand {known : Spot → Prop} {rest : List Op} (name : String)
    (indirect : Bool) (h : Op.Flows frame arity need known rest) :
    Op.Flows frame arity need known (.store (frame.operand name) indirect :: rest) := by
  cases hx : frame.operand name with
  | cell tag => cases indirect <;> exact h
  | slot n =>
    cases indirect with
    | false => exact h.mono fun _ => .inr
    | true => exact ⟨.inl (Frame.operand_lt hx), h⟩

/-- What is kept in the next slot is one more intermediate value. -/
theorem Op.Flows.keep {slot : Nat} {rest : List Op}
    (h : Op.Flows frame arity need (frame.upTo (slot + 1)) rest) :
    Op.Flows frame arity need (frame.upTo slot) (.store (.slot slot) false :: rest) := by
  refine h.mono fun s hs => ?_
  cases s with
  | caller => exact hs.elim
  | slot n =>
    by_cases hn : n = slot
    · exact .inl (by rw [hn])
    · have := hs.1
      have := hs.2
      exact .inr ⟨by omega, by omega⟩

/-- The arguments of a call, when the first `count` of them have been passed on. -/
def Frame.staged (frame : Frame) (k count : Nat) : Spot → Prop
  | .slot n => frame.upTo k (.slot n) ∨ ∃ i < count, n = frame.size + 1 + i
  | .caller => False

theorem Op.Flows.pass {slot total : Nat} (hslot : frame.tempStart ≤ slot) (count : Nat)
    (hcount : count ≤ total) {rest : List Op}
    (h : Op.Flows frame arity need (frame.staged (slot + total) count) rest) :
    Op.Flows frame arity need (frame.upTo (slot + total))
      (passCode slot (frame.size + 1) count ++ rest) := by
  induction count generalizing rest with
  | zero =>
    refine h.mono fun s hs => ?_
    cases s with
    | caller => exact hs
    | slot n =>
      rcases hs with hs | ⟨i, hi, -⟩
      · exact hs
      · exact absurd hi (Nat.not_lt_zero i)
  | succ count ih =>
    rw [passCode, List.append_assoc]
    refine ih (by omega) ⟨.inr (.inl ⟨by omega, by omega⟩), h.mono fun s hs => ?_⟩
    cases s with
    | caller => exact hs.elim
    | slot n =>
      rcases hs with hs | ⟨i, hi, rfl⟩
      · exact .inr (.inl hs)
      · rcases Nat.lt_succ_iff_lt_or_eq.mp hi with hi | rfl
        · exact .inr (.inr ⟨i, hi, rfl⟩)
        · exact .inl rfl

/-- The functions have as many parameters as `arity` says. -/
def Resources.Counts (env : Resources) (arity : String → Nat) : Prop :=
  ∀ name count, env.functions.lookup name = some count → arity name = count

/-- A call with as many arguments as the function has parameters, and the value that comes back. -/
theorem Op.Flows.call (harity : env.Counts arity) {slot count : Nat} {name : String} {rest : List Op}
    (hname : env.functions.lookup name = some count) (hslot : slot ≤ frame.returnSlot)
    (h : Op.Flows frame arity need (frame.upTo slot) rest) :
    Op.Flows frame arity need (frame.staged (slot + count) count)
      (.call name :: .load (.slot frame.returnSlot) false :: rest) := by
  refine ⟨fun i hi => .inr ⟨i, ?_, rfl⟩, .inr (.inl rfl), h.mono fun s hs => ?_⟩
  · rwa [harity name count hname] at hi
  · cases s with
    | caller => exact hs
    | slot n =>
      have hlt := hs.2
      exact .inr ⟨by omega, .inl ⟨hs.1, by omega⟩⟩

mutual

theorem Expr.flows_code (harity : env.Counts arity) {slot n : Nat} (hslot : frame.tempStart ≤ slot) :
    ∀ {e : Expr}, e.Resolves env frame → slot + e.temporaries ≤ frame.returnSlot →
      (∀ m ∈ e.marks slot n, need m.1 = m.2) → ∀ {rest : List Op},
      Op.Flows frame arity need (frame.upTo slot) rest →
      Op.Flows frame arity need (frame.upTo slot) (e.code frame slot n ++ rest)
  | .literal _, _, _, _, _, h | .symbol _, _, _, _, _, h => h
  | .reference name indirect, _, _, _, _, h => h.load_operand name indirect
  | .declare name value, hres, hroom, hmarks, rest, h => by
    rw [Expr.code, List.append_assoc]
    exact Expr.flows_code harity hslot hres.1 hroom hmarks (h.store_operand name false)
  | .assign name indirect value, hres, hroom, hmarks, rest, h => by
    rw [Expr.code, List.append_assoc]
    exact Expr.flows_code harity hslot hres.1 hroom hmarks (h.store_operand name indirect)
  | .cond test yes no, ⟨htest, hno, hyes⟩, hroom, hmarks, rest, h => by
    rw [Expr.temporaries] at hroom
    simp only [Expr.marks, List.forall_mem_append, List.forall_mem_cons] at hmarks
    obtain ⟨hmtest, hmno, hthen, hmyes, hend, -⟩ := hmarks
    simp only [Expr.code, List.append_assoc, List.cons_append]
    refine Expr.flows_code harity hslot htest (by omega) hmtest ⟨?_, ?_⟩
    · simp only [hthen, imp_self, implies_true]
    refine Expr.flows_rowCode harity hslot hno (by omega) hmno ⟨?_, ?_, ?_⟩
    · simp only [hend, imp_self, implies_true]
    · exact fun _ _ => trivial
    rw [hthen]
    refine Expr.flows_rowCode harity hslot hyes (by omega) hmyes ⟨?_, ?_⟩
    · simp only [hend, imp_self, implies_true]
    rwa [hend]
  | .loop test body, ⟨htest, hbody⟩, hroom, hmarks, rest, h => by
    rw [Expr.temporaries] at hroom
    simp only [Expr.marks, List.forall_mem_append, List.forall_mem_cons] at hmarks
    obtain ⟨htop, hmtest, hmid, hmbody, hexit, -⟩ := hmarks
    simp only [Expr.code, List.append_assoc, List.cons_append]
    refine ⟨?_, ?_⟩
    · simp only [htop, imp_self, implies_true]
    rw [htop]
    refine Expr.flows_code harity hslot htest (by omega) hmtest ⟨?_, ?_, ?_, ?_⟩
    · simp only [hmid, imp_self, implies_true]
    · simp only [hexit, imp_self, implies_true]
    · exact fun _ _ => trivial
    rw [hmid]
    refine Expr.flows_rowCode harity hslot hbody (by omega) hmbody ⟨?_, ?_, ?_⟩
    · simp only [htop, imp_self, implies_true]
    · exact fun _ _ => trivial
    simp only [List.nil_append]
    rwa [hexit]
  | .unary _ operand, hres, hroom, hmarks, rest, h => by
    rw [Expr.code, List.append_assoc]
    exact Expr.flows_code (e := operand) harity hslot hres hroom hmarks h
  | .binary _ left right, ⟨hleft, hright⟩, hroom, hmarks, rest, h => by
    rw [Expr.temporaries] at hroom
    simp only [Expr.marks, List.forall_mem_append] at hmarks
    simp only [Expr.code, List.append_assoc, List.cons_append]
    refine Expr.flows_code harity hslot hleft (by omega) hmarks.1 (Op.Flows.keep ?_)
    refine Expr.flows_code harity (by omega) hright (by omega) hmarks.2 ⟨.inr ⟨hslot, by omega⟩, ?_⟩
    exact h.mono (Frame.upTo_mono (by omega))
  | .apply name arguments, ⟨hname, hargs⟩, hroom, hmarks, rest, h => by
    simp only [Expr.code, List.append_assoc]
    refine Expr.flows_argumentCode 0 harity hslot hargs hroom hmarks ?_
    exact Op.Flows.pass hslot _ le_rfl (Op.Flows.call harity hname (by omega) h)

theorem Expr.flows_rowCode (harity : env.Counts arity) {slot n : Nat}
    (hslot : frame.tempStart ≤ slot) :
    ∀ {es : List Expr}, Expr.RowResolves env frame es →
      slot + Expr.rowTemporaries es ≤ frame.returnSlot →
      (∀ m ∈ Expr.rowMarks slot n es, need m.1 = m.2) → ∀ {rest : List Op},
      Op.Flows frame arity need (frame.upTo slot) rest →
      Op.Flows frame arity need (frame.upTo slot) (Expr.rowCode frame slot n es ++ rest)
  | [], _, _, _, _, h => h
  | e :: es, ⟨he, hes⟩, hroom, hmarks, rest, h => by
    rw [Expr.rowTemporaries] at hroom
    rw [Expr.rowMarks, List.forall_mem_append] at hmarks
    rw [Expr.rowCode, List.append_assoc]
    exact Expr.flows_code harity hslot he (by omega) hmarks.1
      (Expr.flows_rowCode harity hslot hes (by omega) hmarks.2 h)

theorem Expr.flows_argumentCode (kept : Nat) (harity : env.Counts arity) {slot n : Nat}
    (hslot : frame.tempStart ≤ slot) :
    ∀ {es : List Expr}, Expr.RowResolves env frame es →
      slot - kept + Expr.argumentTemporaries kept es ≤ frame.returnSlot →
      (∀ m ∈ Expr.argumentMarks slot n es, need m.1 = m.2) → ∀ {rest : List Op},
      Op.Flows frame arity need (frame.upTo (slot + es.length)) rest →
      Op.Flows frame arity need (frame.upTo slot) (Expr.argumentCode frame slot n es ++ rest)
  | [], _, _, _, _, h => h
  | e :: es, ⟨he, hes⟩, hroom, hmarks, rest, h => by
    rw [Expr.argumentTemporaries] at hroom
    rw [Expr.argumentMarks, List.forall_mem_append] at hmarks
    rw [Expr.argumentCode, List.append_assoc, List.cons_append]
    refine Expr.flows_code harity hslot he (by omega) hmarks.1 (Op.Flows.keep ?_)
    refine Expr.flows_argumentCode (kept + 1) harity (by omega) hes (by omega) hmarks.2 ?_
    rwa [List.length_cons, Nat.add_comm es.length, ← Nat.add_assoc] at h

end

/-- The code of a function flows. -/
theorem IsRoutine.flows (harity : env.Counts arity) {f : Function} {r : Routine}
    (h : IsRoutine env f r) (hn : (Listing.tagNames (Op.listing r.code)).Nodup) :
    ∃ need, Op.Flows r.frame arity need (fun _ => False) r.code := by
  obtain ⟨n, hframe, -, -, hcode, hres⟩ := h
  have hkeys : ((Expr.rowMarks r.frame.tempStart n f.body).map Prod.fst).Nodup := by
    rw [hcode, Function.code, Op.listing_append, Listing.tagNames_append] at hn
    rw [Expr.map_fst_rowMarks]
    exact (List.nodup_append.mp hn).1
  obtain ⟨need, hneed⟩ : ∃ need : String → Nat,
      ∀ m ∈ Expr.rowMarks r.frame.tempStart n f.body, need m.1 = m.2 := by
    refine ⟨fun tag => ((Expr.rowMarks r.frame.tempStart n f.body).lookup tag).getD 0, fun m hm => ?_⟩
    simp only [Listing.lookup_of_mem hkeys hm, Option.getD_some]
  have hroom : r.frame.tempStart + Expr.rowTemporaries f.body ≤ r.frame.returnSlot := by
    unfold Frame.returnSlot
    rw [(Frame.allocate_eq hframe).2]
  have hend : Op.Flows r.frame arity need (r.frame.upTo r.frame.tempStart) [.yield, .ret] :=
    ⟨.inl rfl, trivial⟩
  refine ⟨need, ?_⟩
  rw [hcode]
  refine (Expr.flows_rowCode harity le_rfl hres hroom hneed hend).mono fun s hs => ?_
  cases s with
  | caller => exact hs
  | slot k => exact absurd hs.2 (Nat.not_lt.mpr hs.1)

/-- So does the start of a program. -/
theorem Routine.boot_flows (harity : arity entryPoint = 0) :
    Op.Flows Routine.boot.frame arity need (fun _ => False) Routine.boot.code := by
  refine ⟨fun i hi => ?_, .inl rfl, trivial⟩
  rw [harity] at hi
  exact absurd hi (Nat.not_lt_zero i)

end

end WordLisp

import WordLisp.Proofs.Code.Program

/-!
# Accesses through pointers

An operation that goes through a pointer comes from a reference or an assignment of the source that
does so.
-/

namespace WordLisp

/-! ## Pointers -/

/-- The function reads no variable through a pointer. -/
def Function.ReadsDirectly (f : Function) : Prop :=
  ∀ name, .reference name true ∉ Expr.rowParts f.body

/-- The function assigns to nothing through a pointer. -/
def Function.WritesDirectly (f : Function) : Prop :=
  ∀ name value, .assign name true value ∉ Expr.rowParts f.body

/-- If the operation goes through a pointer, one of the expressions does so. -/
structure Op.Stems (op : Op) (es : List Expr) : Prop where
  load : ∀ x, op = .load x true → ∃ name, .reference name true ∈ es
  store : ∀ x, op = .store x true → ∃ name value, .assign name true value ∈ es

theorem Op.Stems.mono {op : Op} {es es' : List Expr} (h : op.Stems es) (hs : es ⊆ es') :
    op.Stems es' := by
  refine ⟨fun x hx => ?_, fun x hx => ?_⟩
  · obtain ⟨name, hm⟩ := h.load x hx
    exact ⟨name, hs hm⟩
  · obtain ⟨name, value, hm⟩ := h.store x hx
    exact ⟨name, value, hs hm⟩

/-- An operation that goes through no pointer. -/
theorem Op.Stems.of_direct {op : Op} (hl : ∀ x, op ≠ .load x true) (hs : ∀ x, op ≠ .store x true)
    (es : List Expr) : op.Stems es :=
  ⟨fun x hx => absurd hx (hl x), fun x hx => absurd hx (hs x)⟩

theorem stems_passCode {source target count : Nat} {es : List Expr} :
    ∀ op ∈ passCode source target count, op.Stems es := by
  induction count with
  | zero => exact List.forall_mem_nil _
  | succ count ih =>
    simp only [passCode, List.forall_mem_append, List.forall_mem_cons]
    exact ⟨ih, .of_direct (by simp) (by simp) _, .of_direct (by simp) (by simp) _,
      List.forall_mem_nil _⟩

section
variable (frame : Frame)

mutual

theorem Expr.stems_code (slot n : Nat) : ∀ e : Expr, ∀ op ∈ e.code frame slot n, op.Stems e.parts
  | .literal _ | .symbol _ => by
    simp only [Expr.code, List.forall_mem_cons]
    exact ⟨.of_direct (by simp) (by simp) _, List.forall_mem_nil _⟩
  | .reference name indirect => by
    simp only [Expr.code, List.forall_mem_cons]
    refine ⟨⟨fun x hx => ?_, fun x hx => nomatch hx⟩, List.forall_mem_nil _⟩
    cases hx
    exact ⟨name, List.mem_singleton_self _⟩
  | .declare _ value => by
    simp only [Expr.code, List.forall_mem_append, List.forall_mem_cons]
    exact ⟨fun op h => (Expr.stems_code slot n value op h).mono (List.subset_cons_self ..),
      .of_direct (by simp) (by simp) _, List.forall_mem_nil _⟩
  | .assign name indirect value => by
    simp only [Expr.code, List.forall_mem_append, List.forall_mem_cons]
    refine ⟨fun op h => (Expr.stems_code slot n value op h).mono (List.subset_cons_self ..),
      ⟨fun x hx => (nomatch hx), fun x hx => ?_⟩, List.forall_mem_nil _⟩
    cases hx
    exact ⟨name, value, List.mem_cons_self ..⟩
  | .cond test yes no => by
    simp only [Expr.code, List.forall_mem_append, List.forall_mem_cons]
    refine ⟨fun op h => (Expr.stems_code slot _ test op h).mono ?_, .of_direct (by simp) (by simp) _,
      fun op h => (Expr.stems_rowCode slot _ no op h).mono ?_, .of_direct (by simp) (by simp) _,
      .of_direct (by simp) (by simp) _,
      fun op h => (Expr.stems_rowCode slot _ yes op h).mono ?_, .of_direct (by simp) (by simp) _,
      List.forall_mem_nil _⟩
    all_goals intro e he; simp [Expr.parts, he]
  | .loop test body => by
    simp only [Expr.code, List.forall_mem_append, List.forall_mem_cons]
    refine ⟨.of_direct (by simp) (by simp) _,
      fun op h => (Expr.stems_code slot _ test op h).mono ?_, .of_direct (by simp) (by simp) _,
      .of_direct (by simp) (by simp) _, .of_direct (by simp) (by simp) _,
      fun op h => (Expr.stems_rowCode slot _ body op h).mono ?_, .of_direct (by simp) (by simp) _,
      .of_direct (by simp) (by simp) _, List.forall_mem_nil _⟩
    all_goals intro e he; simp [Expr.parts, he]
  | .unary _ operand => by
    simp only [Expr.code, List.forall_mem_append, List.forall_mem_cons]
    exact ⟨fun op h => (Expr.stems_code slot n operand op h).mono (List.subset_cons_self ..),
      .of_direct (by simp) (by simp) _, List.forall_mem_nil _⟩
  | .binary _ left right => by
    simp only [Expr.code, List.forall_mem_append, List.forall_mem_cons]
    refine ⟨fun op h => (Expr.stems_code slot n left op h).mono ?_, .of_direct (by simp) (by simp) _,
      fun op h => (Expr.stems_code _ _ right op h).mono ?_, .of_direct (by simp) (by simp) _,
      .of_direct (by simp) (by simp) _, .of_direct (by simp) (by simp) _, List.forall_mem_nil _⟩
    all_goals intro e he; simp [Expr.parts, he]
  | .apply _ arguments => by
    simp only [Expr.code, List.forall_mem_append, List.forall_mem_cons]
    exact ⟨fun op h => (Expr.stems_argumentCode slot n arguments op h).mono
        (List.subset_cons_self ..), stems_passCode, .of_direct (by simp) (by simp) _,
      .of_direct (by simp) (by simp) _, List.forall_mem_nil _⟩

theorem Expr.stems_rowCode (slot n : Nat) : ∀ es : List Expr,
    ∀ op ∈ Expr.rowCode frame slot n es, op.Stems (Expr.rowParts es)
  | [] => List.forall_mem_nil _
  | e :: es => by
    simp only [Expr.rowCode, List.forall_mem_append]
    exact ⟨fun op h => (Expr.stems_code slot n e op h).mono (List.subset_append_left ..),
      fun op h => (Expr.stems_rowCode slot _ es op h).mono (List.subset_append_right ..)⟩

theorem Expr.stems_argumentCode (slot n : Nat) : ∀ es : List Expr,
    ∀ op ∈ Expr.argumentCode frame slot n es, op.Stems (Expr.rowParts es)
  | [] => List.forall_mem_nil _
  | e :: es => by
    simp only [Expr.argumentCode, List.forall_mem_append, List.forall_mem_cons]
    exact ⟨fun op h => (Expr.stems_code slot n e op h).mono (List.subset_append_left ..),
      .of_direct (by simp) (by simp) _,
      fun op h => (Expr.stems_argumentCode _ _ es op h).mono (List.subset_append_right ..)⟩

end

end

/-- The operations of a routine that go through pointers stem from its function. -/
theorem IsRoutine.stems {env : Resources} {f : Function} {r : Routine} (h : IsRoutine env f r) :
    ∀ op ∈ r.code, op.Stems (Expr.rowParts f.body) := by
  obtain ⟨n, -, -, -, hcode, -⟩ := h
  rw [hcode]
  simp only [Function.code, List.forall_mem_append, List.forall_mem_cons]
  exact ⟨Expr.stems_rowCode r.frame _ n f.body, .of_direct (by simp) (by simp) _,
    .of_direct (by simp) (by simp) _, List.forall_mem_nil _⟩

end WordLisp

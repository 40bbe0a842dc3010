import WordLisp.Proofs.Frame
import WordLisp.Proofs.View.Layout

/-!
# Compiled programs are well formed

Every variable and every intermediate value of a routine is stored into somewhere in its code, and
so is every argument of a call. A program that fits into the memory has only so many stores, so the
frames of all routines that can be called are small.
-/

namespace WordLisp

def Op.isStore : Op → Bool
  | .store _ _ => true
  | _ => false

/-- How many of the operations are stores. -/
def Op.stores (ops : List Op) : Nat := ops.countP Op.isStore

@[simp] theorem Op.stores_nil : Op.stores [] = 0 := rfl

@[simp] theorem Op.stores_append (a b : List Op) :
    Op.stores (a ++ b) = Op.stores a + Op.stores b := List.countP_append

@[simp] theorem Op.stores_cons (op : Op) (ops : List Op) :
    Op.stores (op :: ops) = Op.stores ops + if op.isStore then 1 else 0 := List.countP_cons

theorem Op.stores_le_words (ops : List Op) : Op.stores ops ≤ Op.words ops := by
  induction ops with
  | nil => exact Nat.zero_le _
  | cons op ops ih =>
    rw [Op.stores_cons]
    cases op with
    | tag name => rw [Op.words_tag]; simpa [Op.isStore] using ih
    | store x i =>
      rw [Op.words_cons (by simp)]
      simpa [Op.isStore] using ih
    | _ =>
      rw [Op.words_cons (by simp)]
      simp only [Op.isStore]
      simp
      omega

/-! ## Counting stores -/

section
variable (frame : Frame)

mutual

theorem Expr.declared_le_stores (slot n : Nat) : ∀ e : Expr,
    e.declared.length ≤ Op.stores (e.code frame slot n)
  | .literal _ | .symbol _ | .reference _ _ => Nat.zero_le _
  | .declare _ value => by
    have := Expr.declared_le_stores slot n value
    simp [Expr.declared, Expr.code, Op.isStore]
    omega
  | .assign _ _ value => by
    have := Expr.declared_le_stores slot n value
    simp [Expr.declared, Expr.code, Op.isStore]
    omega
  | .cond test yes no => by
    have := Expr.declared_le_stores slot (n + 1) test
    have := Expr.declaredAll_le_stores slot (n + 1 + test.forks) no
    have := Expr.declaredAll_le_stores slot (n + 1 + test.forks + Expr.rowForks no) yes
    simp [Expr.declared, Expr.code, Op.isStore]
    omega
  | .loop test body => by
    have := Expr.declared_le_stores slot (n + 1) test
    have := Expr.declaredAll_le_stores slot (n + 1 + test.forks) body
    simp [Expr.declared, Expr.code, Op.isStore]
    omega
  | .unary _ operand => by
    have := Expr.declared_le_stores slot n operand
    simpa [Expr.declared, Expr.code, Op.isStore] using this
  | .binary _ left right => by
    have := Expr.declared_le_stores slot n left
    have := Expr.declared_le_stores (slot + 1) (n + left.forks) right
    simp [Expr.declared, Expr.code, Op.isStore]
    omega
  | .apply _ arguments => by
    have := Expr.declaredAll_le_arguments slot n arguments
    simp [Expr.declared, Expr.code, Op.isStore]
    omega

theorem Expr.declaredAll_le_stores (slot n : Nat) : ∀ es : List Expr,
    (Expr.declaredAll es).length ≤ Op.stores (Expr.rowCode frame slot n es)
  | [] => Nat.zero_le _
  | e :: es => by
    have := Expr.declared_le_stores slot n e
    have := Expr.declaredAll_le_stores slot (n + e.forks) es
    simp [Expr.declaredAll, Expr.rowCode]
    omega

theorem Expr.declaredAll_le_arguments (slot n : Nat) : ∀ es : List Expr,
    (Expr.declaredAll es).length ≤ Op.stores (Expr.argumentCode frame slot n es)
  | [] => Nat.zero_le _
  | e :: es => by
    have := Expr.declared_le_stores slot n e
    have := Expr.declaredAll_le_arguments (slot + 1) (n + e.forks) es
    simp [Expr.declaredAll, Expr.argumentCode]
    omega

end

mutual

theorem Expr.temporaries_le_stores (slot n : Nat) : ∀ e : Expr,
    e.temporaries ≤ Op.stores (e.code frame slot n)
  | .literal _ | .symbol _ | .reference _ _ => Nat.zero_le _
  | .declare _ value | .assign _ _ value => by
    have := Expr.temporaries_le_stores slot n value
    simp [Expr.temporaries, Expr.code]
    omega
  | .cond test yes no => by
    have := Expr.temporaries_le_stores slot (n + 1) test
    have := Expr.rowTemporaries_le_stores slot (n + 1 + test.forks) no
    have := Expr.rowTemporaries_le_stores slot (n + 1 + test.forks + Expr.rowForks no) yes
    simp [Expr.temporaries, Expr.code, Op.isStore]
    omega
  | .loop test body => by
    have := Expr.temporaries_le_stores slot (n + 1) test
    have := Expr.rowTemporaries_le_stores slot (n + 1 + test.forks) body
    simp [Expr.temporaries, Expr.code, Op.isStore]
    omega
  | .unary _ operand => by
    have := Expr.temporaries_le_stores slot n operand
    simpa [Expr.temporaries, Expr.code, Op.isStore] using this
  | .binary _ left right => by
    have := Expr.temporaries_le_stores slot n left
    have := Expr.temporaries_le_stores (slot + 1) (n + left.forks) right
    simp [Expr.temporaries, Expr.code, Op.isStore]
    omega
  | .apply _ arguments => by
    have := Expr.argumentTemporaries_le_stores slot n 0 arguments
    simp [Expr.temporaries, Expr.code, Op.isStore]
    omega

theorem Expr.rowTemporaries_le_stores (slot n : Nat) : ∀ es : List Expr,
    Expr.rowTemporaries es ≤ Op.stores (Expr.rowCode frame slot n es)
  | [] => Nat.zero_le _
  | e :: es => by
    have := Expr.temporaries_le_stores slot n e
    have := Expr.rowTemporaries_le_stores slot (n + e.forks) es
    simp [Expr.rowTemporaries, Expr.rowCode]
    omega

theorem Expr.argumentTemporaries_le_stores (slot n kept : Nat) : ∀ es : List Expr,
    Expr.argumentTemporaries kept es ≤ kept + Op.stores (Expr.argumentCode frame slot n es)
  | [] => Nat.zero_le _
  | e :: es => by
    have := Expr.temporaries_le_stores slot n e
    have := Expr.argumentTemporaries_le_stores (slot + 1) (n + e.forks) (kept + 1) es
    simp [Expr.argumentTemporaries, Expr.argumentCode, Op.isStore]
    omega

end

theorem Expr.length_le_stores (slot n : Nat) (es : List Expr) :
    es.length ≤ Op.stores (Expr.argumentCode frame slot n es) := by
  induction es generalizing slot n with
  | nil => exact Nat.zero_le _
  | cons e es ih =>
    have := ih (slot + 1) (n + e.forks)
    simp [Expr.argumentCode, Op.isStore]
    omega

end

/-! ## Slots -/

/-- Each of the arguments has a slot of its own among the intermediate values. -/
theorem Expr.lt_argumentTemporaries {es : List Expr} {i : Nat} (kept : Nat) (h : i < es.length) :
    kept + i < Expr.argumentTemporaries kept es := by
  induction es generalizing kept i with
  | nil => cases h
  | cons e es ih =>
    rw [Expr.argumentTemporaries]
    cases i with
    | zero => omega
    | succ i =>
      have := ih (kept + 1) (Nat.lt_of_succ_lt_succ h)
      omega

theorem mem_passCode {source target count : Nat} {op : Op} (h : op ∈ passCode source target count) :
    ∃ i < count, op = .load (.slot (source + i)) false ∨ op = .store (.slot (target + i)) false := by
  induction count with
  | zero => cases h
  | succ count ih =>
    rw [passCode, List.mem_append] at h
    rcases h with h | h
    · obtain ⟨i, hi, ho⟩ := ih h
      exact ⟨i, by omega, ho⟩
    · refine ⟨count, by omega, ?_⟩
      simpa using h

/-! ## Operations -/

section
variable {items : List Item} {pool : SymbolPool} {p : Program} {env : Resources} {r : Routine}
  (hc : IsCompiled items pool p env) (hb : ∀ r ∈ p.routines, Op.stores r.code ≤ 2 ^ 16)
include hc

/-- Every function has a routine. -/
theorem IsCompiled.routine_of_mem {f : Function} (h : f ∈ Item.functions items) :
    ∃ r ∈ p.routines, IsRoutine env f r := by
  have hall := hc.routines
  generalize Item.functions items = fs at hall h
  generalize p.routines = rs at hall
  induction hall with
  | nil => cases h
  | cons hfr _ ih =>
    rcases List.mem_cons.mp h with rfl | h
    · exact ⟨_, List.mem_cons_self .., hfr⟩
    · obtain ⟨r, hr, h⟩ := ih h
      exact ⟨r, List.mem_cons_of_mem _ hr, h⟩

/-- Every routine is that of a function. -/
theorem IsCompiled.function_of_mem (h : r ∈ p.routines) :
    ∃ f ∈ Item.functions items, IsRoutine env f r := by
  have hall := hc.routines
  generalize Item.functions items = fs at hall
  generalize p.routines = rs at hall h
  induction hall with
  | nil => cases h
  | cons hfr _ ih =>
    rcases List.mem_cons.mp h with rfl | h
    · exact ⟨_, List.mem_cons_self .., hfr⟩
    · obtain ⟨f, hf, h⟩ := ih h
      exact ⟨f, List.mem_cons_of_mem _ hf, h⟩

theorem IsCompiled.named : ∀ r ∈ p.routines, ∃ name, r.name = some name := by
  intro r hr
  obtain ⟨f, -, n, -, hn, -⟩ := hc.function_of_mem hr
  exact ⟨f.name, hn⟩

/-- A name that resolves to a function has a routine with as many parameters. -/
theorem IsCompiled.routine_of_lookup {name : String} {arity : Nat}
    (h : env.functions.lookup name = some arity) :
    ∃ f ∈ Item.functions items, ∃ r ∈ p.routines, IsRoutine env f r ∧ f.name = name ∧
      r.name = some name ∧ r.arity = arity := by
  obtain ⟨f, hf, rfl, rfl⟩ := hc.arities name arity h
  obtain ⟨r, hr, hfr⟩ := hc.routine_of_mem hf
  have hfr' := hfr
  obtain ⟨n, -, hn, ha, -⟩ := hfr'
  exact ⟨f, hf, r, hr, hfr, rfl, hn, ha⟩

theorem IsCompiled.operand_allowed {name : String} (h : env.Names r.frame name) :
    (r.frame.operand name).Readable p r ∧ (r.frame.operand name).Writable p r := by
  unfold Frame.operand
  cases hs : r.frame.slot? name with
  | some n =>
    obtain ⟨h1, hlt⟩ := Frame.slot?_le hs
    have hle : r.frame.tempStart ≤ r.frame.returnSlot := Nat.le_add_right _ _
    exact ⟨⟨h1, by omega⟩, .inl ⟨h1, by omega⟩⟩
  | none =>
    have hm : name ∈ p.globals.map Prod.fst := by
      rcases h with h | h
      · rw [hs] at h; cases h
      · exact (hc.names name).mp h
    exact ⟨Program.Fits.mem_data_of_mem_globals hm, hm⟩

omit hc in
include hb in
/-- A function that is called with few arguments has a small frame. -/
theorem IsRoutine.small {f : Function} (hr : r ∈ p.routines) (hf : IsRoutine env f r)
    (ha : r.arity ≤ 2 ^ 16) : r.Small := by
  obtain ⟨n, hframe, -, harity, hcode, -⟩ := hf
  have hstores := hb r hr
  rw [hcode, Function.code, Op.stores_append] at hstores
  have hdecl := Expr.declaredAll_le_stores r.frame r.frame.tempStart n f.body
  have htemp := Expr.rowTemporaries_le_stores r.frame r.frame.tempStart n f.body
  obtain ⟨hnames, htemps⟩ := Frame.allocate_eq hframe
  unfold Routine.Small Frame.size Frame.returnSlot Frame.tempStart
  rw [hnames, htemps, List.length_append]
  omega

end

/-- What the operations of an expression need of the routine that they stand in. -/
structure Fitting (p : Program) (env : Resources) (r : Routine) : Prop where
  compiled : ∃ items pool, IsCompiled items pool p env
  stores : ∀ r ∈ p.routines, Op.stores r.code ≤ 2 ^ 16
  mem : r ∈ p.routines
  small : r.Small

section
variable {p : Program} {env : Resources} {r : Routine}

theorem Fitting.call (hfit : Fitting p env r) {name : String} {arity : Nat}
    (h : env.functions.lookup name = some arity) (ha : arity ≤ 2 ^ 16) :
    ∃ r' ∈ p.routines, r'.name = some name ∧ r'.Small := by
  obtain ⟨items, pool, hc⟩ := hfit.compiled
  obtain ⟨f, -, r', hr', hf, -, hn, harity⟩ := hc.routine_of_lookup h
  exact ⟨r', hr', hn, IsRoutine.small hfit.stores hr' hf (by omega)⟩

theorem Fitting.operand (hfit : Fitting p env r) {name : String} (h : env.Names r.frame name) :
    (r.frame.operand name).Readable p r ∧ (r.frame.operand name).Writable p r := by
  obtain ⟨items, pool, hc⟩ := hfit.compiled
  exact hc.operand_allowed h

theorem Fitting.constant (hfit : Fitting p env r) {tag : String} {value : Word}
    (h : (tag, value) ∈ env.constants) : (Operand.cell tag).Readable p r := by
  obtain ⟨items, pool, hc⟩ := hfit.compiled
  rw [hc.constants] at h
  exact List.mem_map_of_mem (List.mem_append_right _ h)

theorem Fitting.pass (hfit : Fitting p env r) {slot count : Nat} (hslot : 1 ≤ slot)
    (hcount : count ≤ 2 ^ 16) (ht : ∀ i < count, slot + i ≤ r.frame.returnSlot) :
    ∀ op ∈ passCode slot (r.frame.size + 1) count, op.Allowed p r := by
  intro op hop
  have hsmall := hfit.small
  unfold Routine.Small at hsmall
  obtain ⟨i, hi, rfl | rfl⟩ := mem_passCode hop
  · exact ⟨by omega, ht i hi⟩
  · exact .inr ⟨by omega, by omega⟩

mutual

theorem Expr.allowed_code (hfit : Fitting p env r) {slot n : Nat} (hslot : r.frame.tempStart ≤ slot) :
    ∀ {e : Expr}, e.Resolves env r.frame → slot + e.temporaries ≤ r.frame.returnSlot →
      (e.code r.frame slot n).Sublist r.code → ∀ op ∈ e.code r.frame slot n, op.Allowed p r
  | .literal _, hres, _, _ => by
    simp only [Expr.code, List.forall_mem_singleton]
    exact hfit.constant hres
  | .symbol _, ⟨_, _, hres⟩, _, _ => by
    simp only [Expr.code, List.forall_mem_singleton]
    exact hfit.constant hres
  | .reference _ _, hres, _, _ => by
    simp only [Expr.code, List.forall_mem_singleton]
    exact (hfit.operand hres).1
  | .declare _ value, hres, ht, hs => by
    simp only [Expr.code, List.forall_mem_append, List.forall_mem_singleton]
    exact ⟨Expr.allowed_code hfit hslot hres.1 ht ((List.sublist_append_left _ _).trans hs),
      (hfit.operand hres.2).2⟩
  | .assign _ indirect value, hres, ht, hs => by
    simp only [Expr.code, List.forall_mem_append, List.forall_mem_singleton]
    refine ⟨Expr.allowed_code hfit hslot hres.1 ht ((List.sublist_append_left _ _).trans hs), ?_⟩
    cases indirect with
    | false => exact (hfit.operand hres.2).2
    | true => exact (hfit.operand hres.2).1
  | .cond test yes no, hres, ht, hs => by
    rw [Expr.temporaries] at ht
    rw [Expr.code] at hs
    have hs₁ := (List.sublist_cons_self _ _).trans ((List.sublist_append_right _ _).trans hs)
    have hs₂ := (List.sublist_append_right _ _).trans hs₁
    have hs₃ := (List.sublist_cons_self _ _).trans ((List.sublist_cons_self _ _).trans hs₂)
    have hthen : .tag (thenTag n) ∈ r.code := hs₂.subset (by simp)
    have hend : .tag (endTag n) ∈ r.code := hs₃.subset (by simp)
    simp only [Expr.code, List.forall_mem_append, List.forall_mem_cons]
    exact ⟨Expr.allowed_code hfit hslot hres.1 (by omega) ((List.sublist_append_left _ _).trans hs),
      hthen,
      Expr.allowed_rowCode hfit hslot hres.2.1 (by omega) ((List.sublist_append_left _ _).trans hs₁),
      hend, trivial,
      Expr.allowed_rowCode hfit hslot hres.2.2 (by omega) ((List.sublist_append_left _ _).trans hs₃),
      trivial, List.forall_mem_nil _⟩
  | .loop test body, hres, ht, hs => by
    rw [Expr.temporaries] at ht
    rw [Expr.code] at hs
    have hs₁ := (List.sublist_cons_self _ _).trans hs
    have hs₂ := (List.sublist_append_right _ _).trans hs₁
    have hs₃ := (List.sublist_cons_self _ _).trans ((List.sublist_cons_self _ _).trans
      ((List.sublist_cons_self _ _).trans hs₂))
    have htop : .tag (topTag n) ∈ r.code := hs.subset (by simp)
    have hbody : .tag (bodyTag n) ∈ r.code := hs₂.subset (by simp)
    have hexit : .tag (exitTag n) ∈ r.code := hs₃.subset (by simp)
    simp only [Expr.code, List.forall_mem_append, List.forall_mem_cons]
    exact ⟨trivial,
      Expr.allowed_code hfit hslot hres.1 (by omega) ((List.sublist_append_left _ _).trans hs₁),
      hbody, hexit, trivial,
      Expr.allowed_rowCode hfit hslot hres.2 (by omega) ((List.sublist_append_left _ _).trans hs₃),
      htop, trivial, List.forall_mem_nil _⟩
  | .unary _ operand, hres, ht, hs => by
    simp only [Expr.code, List.forall_mem_append, List.forall_mem_singleton]
    exact ⟨Expr.allowed_code (e := operand) hfit hslot hres ht
      ((List.sublist_append_left _ _).trans hs), trivial⟩
  | .binary _ left right, hres, ht, hs => by
    rw [Expr.temporaries] at ht
    rw [Expr.code] at hs
    have hs₁ := (List.sublist_cons_self _ _).trans ((List.sublist_append_right _ _).trans hs)
    have hone : 1 ≤ r.frame.tempStart := Nat.le_add_right 1 _
    simp only [Expr.code, List.forall_mem_append, List.forall_mem_cons]
    exact ⟨Expr.allowed_code hfit hslot hres.1 (by omega) ((List.sublist_append_left _ _).trans hs),
      .inl ⟨by omega, by omega⟩,
      Expr.allowed_code hfit (by omega) hres.2 (by omega) ((List.sublist_append_left _ _).trans hs₁),
      trivial, ⟨by omega, by omega⟩, trivial, List.forall_mem_nil _⟩
  | .apply name arguments, hres, ht, hs => by
    rw [Expr.temporaries] at ht
    rw [Expr.code] at hs
    have hs₁ := (List.sublist_append_left _ _).trans hs
    have hone : 1 ≤ r.frame.tempStart := Nat.le_add_right 1 _
    have hcount : arguments.length ≤ 2 ^ 16 :=
      calc arguments.length ≤ Op.stores (Expr.argumentCode r.frame slot n arguments) :=
            Expr.length_le_stores r.frame slot n arguments
        _ ≤ Op.stores r.code := hs₁.countP_le
        _ ≤ 2 ^ 16 := hfit.stores r hfit.mem
    have hle : r.frame.tempStart ≤ r.frame.returnSlot := Nat.le_add_right _ _
    simp only [Expr.code, List.forall_mem_append, List.forall_mem_cons]
    refine ⟨Expr.allowed_argumentCode slot 0 hfit hslot rfl hres.2 ht hs₁,
      hfit.pass (by omega) hcount fun i hi => ?_, hfit.call hres.1 hcount, ⟨by omega, le_refl _⟩,
      List.forall_mem_nil _⟩
    have := Expr.lt_argumentTemporaries 0 hi
    omega

theorem Expr.allowed_rowCode (hfit : Fitting p env r) {slot n : Nat}
    (hslot : r.frame.tempStart ≤ slot) :
    ∀ {es : List Expr}, Expr.RowResolves env r.frame es →
      slot + Expr.rowTemporaries es ≤ r.frame.returnSlot →
      (Expr.rowCode r.frame slot n es).Sublist r.code →
      ∀ op ∈ Expr.rowCode r.frame slot n es, op.Allowed p r
  | [], _, _, _ => by simp [Expr.rowCode]
  | e :: es, hres, ht, hs => by
    rw [Expr.rowTemporaries] at ht
    simp only [Expr.rowCode, List.forall_mem_append]
    exact ⟨Expr.allowed_code hfit hslot hres.1 (by omega) ((List.sublist_append_left _ _).trans hs),
      Expr.allowed_rowCode hfit hslot hres.2 (by omega) ((List.sublist_append_right _ _).trans hs)⟩

theorem Expr.allowed_argumentCode (start kept : Nat) (hfit : Fitting p env r) {slot n : Nat}
    (hslot : r.frame.tempStart ≤ slot) (hk : slot = start + kept) :
    ∀ {es : List Expr}, Expr.RowResolves env r.frame es →
      start + Expr.argumentTemporaries kept es ≤ r.frame.returnSlot →
      (Expr.argumentCode r.frame slot n es).Sublist r.code →
      ∀ op ∈ Expr.argumentCode r.frame slot n es, op.Allowed p r
  | [], _, _, _ => by simp [Expr.argumentCode]
  | e :: es, hres, ht, hs => by
    rw [Expr.argumentTemporaries] at ht
    rw [Expr.argumentCode] at hs
    have hs₁ := (List.sublist_cons_self _ _).trans ((List.sublist_append_right _ _).trans hs)
    have hone : 1 ≤ r.frame.tempStart := Nat.le_add_right 1 _
    simp only [Expr.argumentCode, List.forall_mem_append, List.forall_mem_cons]
    exact ⟨Expr.allowed_code hfit hslot hres.1 (by omega) ((List.sublist_append_left _ _).trans hs),
      .inl ⟨by omega, by omega⟩,
      Expr.allowed_argumentCode start (kept + 1) hfit (by omega) (by omega) hres.2 (by omega) hs₁⟩

end

/-- The code of a function keeps to what its routine may refer to. -/
theorem Fitting.allowed (hfit : Fitting p env r) {f : Function} (hf : IsRoutine env f r) :
    ∀ op ∈ r.code, op.Allowed p r := by
  obtain ⟨n, hframe, -, -, hcode, hres⟩ := hf
  have htemps := (Frame.allocate_eq hframe).2
  have hs : (Expr.rowCode r.frame r.frame.tempStart n f.body).Sublist r.code := by
    rw [hcode]
    exact List.sublist_append_left _ _
  have hrow := Expr.allowed_rowCode hfit (le_refl _) hres (by rw [← htemps]; exact le_refl _) hs
  rw [hcode]
  simp only [Function.code, List.forall_mem_append, List.forall_mem_cons]
  exact ⟨hrow, hfit.mem, hfit.mem, List.forall_mem_nil _⟩

end

/-- A program that the generator makes, and whose routines are not too long, is well formed. -/
theorem IsCompiled.wellFormed {items : List Item} {pool : SymbolPool} {p : Program}
    {env : Resources} (hc : IsCompiled items pool p env)
    (hb : ∀ r ∈ p.routines, Op.stores r.code ≤ 2 ^ 16) : p.WellFormed := by
  refine ⟨hc.named, fun r hr => ?_, fun r hr hsmall => ?_⟩
  · rcases hr with rfl | hr
    · exact ⟨[.call entryPoint], .stop, rfl, .inr rfl⟩
    · obtain ⟨f, -, n, -, -, -, hcode, -⟩ := hc.function_of_mem hr
      refine ⟨Expr.rowCode r.frame r.frame.tempStart n f.body ++ [.yield], .ret, ?_, .inl rfl⟩
      rw [hcode, Function.code]
      simp
  · rcases hr with rfl | hr
    · have hentry : ∃ r ∈ p.routines, r.name = some entryPoint ∧ r.Small := by
        obtain ⟨f, -, r, hr, hf, -, hn, ha⟩ := hc.routine_of_lookup hc.entry
        exact ⟨r, hr, hn, IsRoutine.small hb hr hf (by omega)⟩
      exact List.forall_mem_cons.mpr ⟨hentry, List.forall_mem_singleton.mpr rfl⟩
    · obtain ⟨f, -, hf⟩ := hc.function_of_mem hr
      exact Fitting.allowed ⟨⟨items, pool, hc⟩, hb, hr, hsmall⟩ hf

/-- The routines of a program that fits are not too long. -/
theorem Program.Fits.stores_le {p : Program} {words : List Word} (hf : p.Fits words)
    (hn : ∀ r ∈ p.routines, ∃ name, r.name = some name) :
    ∀ r ∈ p.routines, Op.stores r.code ≤ 2 ^ 16 := by
  intro r hr
  obtain ⟨name, hname⟩ := hn r hr
  obtain ⟨-, -, -, -, hend⟩ := hf.placed_routine hr hname
  calc Op.stores r.code ≤ Op.words r.code := Op.stores_le_words _
    _ ≤ p.codeEnd := by omega
    _ ≤ words.length := hf.codeEnd_le
    _ ≤ 2 ^ 16 := hf.le

theorem IsCompiled.wellFormed_of_fits {items : List Item} {pool : SymbolPool} {p : Program}
    {env : Resources} {words : List Word} (hc : IsCompiled items pool p env) (hf : p.Fits words) :
    p.WellFormed :=
  hc.wellFormed (hf.stores_le hc.named)

end WordLisp

import WordLisp.Proofs.Correctness.Constructs

/-!
# The code of expressions follows their evaluation

`CodeFollows D items pool p env roof fuel`: for evaluations with at most `fuel`, the code of an
expression in the program `p` carries the store on as evaluation does, provided that the stack that
evaluation counts lies below `roof`. The proof is by induction on the fuel, since a loop evaluates
itself and a call the body of any function.
-/

namespace WordLisp

/-! ## Places -/

section
variable {items : List Item} {pool : SymbolPool} {p : Program} {env : Resources} {words : List Word}
  (hc : IsCompiled items pool p env) (hf : p.Fits words)
include hc

include hf

/-- A frame of a compiled function. -/
theorem IsCompiled.site {f : Function} {r : Routine} {roof : Int} {base : Nat}
    (hr : r ∈ p.routines) (hfr : IsRoutine env f r) (hsmall : r.Small)
    (hroom : (base + r.frame.size : Int) ≤ roof) : Site (.ofItems items pool) p roof f r base := by
  obtain ⟨n, halloc, -⟩ := hfr
  refine ⟨hc.wellFormed_of_fits hf, hr, hsmall, hf.nodup_code hr, (Frame.allocate_eq halloc).1, ?_, ?_,
    hroom⟩
  · rw [hc.globals]; rfl
  · intro tag value hmem hglobal
    have hdata := hf.nodup_data
    unfold Program.data at hdata
    rw [List.map_append] at hdata
    exact (List.nodup_append.mp hdata).2.2 tag hglobal tag (List.mem_map_of_mem hmem) rfl

end

theorem IsRoutine.frame_eq {env : Resources} {f : Function} {r : Routine} (h : IsRoutine env f r) :
    r.frame = f.frame := by
  obtain ⟨n, halloc, -⟩ := h
  obtain ⟨hnames, htemporaries⟩ := Frame.allocate_eq halloc
  unfold Function.frame Function.scope
  rw [← hnames, ← htemporaries]

/-! ## Arguments -/

/-- The parameters of a function are in its frame, behind the word that saves the base. -/
theorem Function.parameters_lt_size (f : Function) : f.parameters.length + 1 ≤ f.frame.size := by
  unfold Frame.size Frame.returnSlot Frame.tempStart Function.frame Function.scope
  rw [List.length_append]
  omega

/-- There are as many values as arguments, and the last one is the value that is left. -/
theorem evalArguments_eq [Device D] {c : Context} {scope : List String} {fuel : Nat} {es : List Expr}
    {s s' : Store D} {values : List Word} (h : evalArguments c fuel scope es s = some (values, s')) :
    values.length = es.length ∧ ∀ w, values.getLast? = some w → w = s'.value := by
  induction fuel generalizing es s values with
  | zero => simp [evalArguments] at h
  | succ fuel ih =>
    cases es with
    | nil =>
      simp only [evalArguments, Option.some.injEq, Prod.mk.injEq] at h
      obtain ⟨rfl, rfl⟩ := h
      exact ⟨rfl, fun w hw => by cases hw⟩
    | cons e es =>
      simp only [evalArguments] at h
      obtain ⟨s₁, -, h⟩ := Option.bind_eq_some_iff.mp h
      obtain ⟨⟨vs, s₂⟩, hvs, he⟩ := Option.map_eq_some_iff.mp h
      cases he
      obtain ⟨hlen, hlast⟩ := ih hvs
      refine ⟨congrArg Nat.succ hlen, fun w hw => ?_⟩
      cases vs with
      | cons v vs => exact hlast w (by rwa [List.getLast?_cons_cons] at hw)
      | nil =>
        cases hw
        obtain rfl : es = [] := List.eq_nil_of_length_eq_zero hlen.symm
        cases fuel with
        | zero => simp [evalArguments] at hvs
        | succ fuel =>
          simp only [evalArguments, Option.some.injEq, Prod.mk.injEq] at hvs
          rw [hvs.2]
          rfl

/-! ## The induction -/

/-- The code follows every evaluation with `fuel`. -/
structure CodeFollows (D : Type) [Device D] (items : List Item) (pool : SymbolPool) (p : Program)
    (env : Resources) (roof : Int) (fuel : Nat) : Prop where
  expr : ∀ {f : Function} {r : Routine} {base slot n : Nat} {e : Expr} {s s' : Store D},
    Site (.ofItems items pool) p roof f r base → e.Resolves env r.frame →
    r.frame.tempStart ≤ slot → slot + e.temporaries ≤ r.frame.returnSlot →
    (base + r.frame.size + s'.stack : Int) ≤ roof →
    eval (.ofItems items pool) fuel f.scope e s = some s' →
    Carries p roof r slot base (e.code r.frame slot n) s s'
  row : ∀ {f : Function} {r : Routine} {base slot n : Nat} {es : List Expr} {s s' : Store D},
    Site (.ofItems items pool) p roof f r base → Expr.RowResolves env r.frame es →
    r.frame.tempStart ≤ slot → slot + Expr.rowTemporaries es ≤ r.frame.returnSlot →
    (base + r.frame.size + s'.stack : Int) ≤ roof →
    evalRow (.ofItems items pool) fuel f.scope es s = some s' →
    Carries p roof r slot base (Expr.rowCode r.frame slot n es) s s'
  arguments : ∀ {f : Function} {r : Routine} {base n : Nat} {es : List Expr} {s s' : Store D}
    {values : List Word} (start kept : Nat),
    Site (.ofItems items pool) p roof f r base → Expr.RowResolves env r.frame es →
    r.frame.tempStart ≤ start →
    start + Expr.argumentTemporaries kept es ≤ r.frame.returnSlot →
    (base + r.frame.size + s'.stack : Int) ≤ roof →
    evalArguments (.ofItems items pool) fuel f.scope es s = some (values, s') →
    Stages p roof r (start + kept) base (Expr.argumentCode r.frame (start + kept) n es) s s' values

section
variable [Device D] {items : List Item} {pool : SymbolPool} {p : Program} {env : Resources}
  {words : List Word} {roof : Int} {fuel : Nat} {f : Function} {r : Routine} {base slot n : Nat}
  {s s' : Store D}

theorem CodeFollows.row_succ (ih : CodeFollows D items pool p env roof fuel)
    (hsite : Site (.ofItems items pool) p roof f r base) {es : List Expr}
    (hres : Expr.RowResolves env r.frame es) (hslot : r.frame.tempStart ≤ slot)
    (ht : slot + Expr.rowTemporaries es ≤ r.frame.returnSlot)
    (hroom : (base + r.frame.size + s'.stack : Int) ≤ roof)
    (h : evalRow (.ofItems items pool) (fuel + 1) f.scope es s = some s') :
    Carries p roof r slot base (Expr.rowCode r.frame slot n es) s s' := by
  cases es with
  | nil =>
    simp only [evalRow, Option.some.injEq] at h
    subst h
    exact carries_nil
  | cons e es =>
    simp only [evalRow] at h
    obtain ⟨s₁, he, h⟩ := Option.bind_eq_some_iff.mp h
    rw [Expr.rowTemporaries] at ht
    have hcount := (countsUp D _ _).row h
    exact (ih.expr hsite hres.1 hslot (by omega) (by omega) he).append
      (ih.row hsite hres.2 hslot (by omega) hroom h)

theorem CodeFollows.arguments_succ (ih : CodeFollows D items pool p env roof fuel)
    (hsite : Site (.ofItems items pool) p roof f r base) {start kept : Nat}
    {es : List Expr} {values : List Word} (hres : Expr.RowResolves env r.frame es)
    (hslot : r.frame.tempStart ≤ start)
    (ht : start + Expr.argumentTemporaries kept es ≤ r.frame.returnSlot)
    (hroom : (base + r.frame.size + s'.stack : Int) ≤ roof)
    (h : evalArguments (.ofItems items pool) (fuel + 1) f.scope es s = some (values, s')) :
    Stages p roof r (start + kept) base (Expr.argumentCode r.frame (start + kept) n es) s s'
      values := by
  cases es with
  | nil =>
    simp only [evalArguments, Option.some.injEq, Prod.mk.injEq] at h
    obtain ⟨rfl, rfl⟩ := h
    exact stages_nil
  | cons e es =>
    simp only [evalArguments] at h
    obtain ⟨s₁, he, h⟩ := Option.bind_eq_some_iff.mp h
    obtain ⟨⟨vs, s₂⟩, hvs, heq⟩ := Option.map_eq_some_iff.mp h
    cases heq
    rw [Expr.argumentTemporaries] at ht
    have hlt := hsite.slot_lt (n := start + kept) (by unfold Frame.size; omega)
    have hroom : (base + r.frame.size + s₂.stack : Int) ≤ roof := hroom
    have hcount : s₁.stack ≤ s₂.stack := (countsUp D _ _).arguments hvs
    rw [Expr.argumentCode]
    exact stages_cons (by omega) hlt (ih.expr hsite hres.1 (by omega) (by omega) (by omega) he)
      (ih.arguments start (kept + 1) hsite hres.2 hslot (by omega) hroom hvs)

/-- A call of a function, given its arguments and its body. -/
theorem CodeFollows.apply_succ (hc : IsCompiled items pool p env) (hf : p.Fits words)
    (ih : CodeFollows D items pool p env roof fuel)
    (hsite : Site (.ofItems items pool) p roof f r base) {name : String}
    {es : List Expr} (hres : (Expr.apply name es).Resolves env r.frame)
    (hslot : r.frame.tempStart ≤ slot)
    (ht : slot + (Expr.apply name es).temporaries ≤ r.frame.returnSlot)
    (hroom : (base + r.frame.size + s'.stack : Int) ≤ roof)
    (h : eval (.ofItems items pool) (fuel + 1) f.scope (.apply name es) s = some s') :
    Carries p roof r slot base ((Expr.apply name es).code r.frame slot n) s s' := by
  simp only [eval] at h
  obtain ⟨⟨values, s₁⟩, hvs, h⟩ := Option.bind_eq_some_iff.mp h
  obtain ⟨g, hg, h⟩ := Option.bind_eq_some_iff.mp h
  have hgname : g.name = name := by simpa using List.find?_some hg
  obtain ⟨callee, hmem, hcallee⟩ := hc.routine_of_mem (List.mem_of_find?_eq_some hg)
  split at h
  · next harity =>
    obtain ⟨s₂, hbody, rfl⟩ := Option.map_eq_some_iff.mp h
    have hcallee' := hcallee
    obtain ⟨k, halloc, hname, ha, hcode, hbres⟩ := hcallee'
    obtain ⟨hnames, htemps⟩ := Frame.allocate_eq halloc
    obtain ⟨hlen, hlast⟩ := evalArguments_eq hvs
    have hfind : p.find? name = some callee := hf.find?_eq hmem (hgname ▸ hname)
    intro v rest hbase hst hm
    -- the call stands in the code, so the frame that it makes is a small one
    have hsmall' : callee.Small := by
      have hcall : .call name ∈ r.code := hst.suffix.subset (by simp [Expr.code])
      obtain ⟨r', hr', hn', hsmall'⟩ := hsite.well.allowed r (.inr hsite.mem) hsite.small _ hcall
      rw [hf.find?_eq hr' hn'] at hfind
      cases hfind
      exact hsmall'
    have hcount : slot + values.length ≤ r.frame.returnSlot := by
      rw [Expr.temporaries] at ht
      by_cases h0 : values.length = 0
      · omega
      · have := Expr.lt_argumentTemporaries 0 (show values.length - 1 < es.length by omega)
        omega
    -- the frame of the callee, which has the arguments in it, is part of what evaluation counts
    have hsize : callee.frame.size = g.frame.size := congrArg Frame.size hcallee.frame_eq
    have harea : values.length + 1 ≤ callee.frame.size := by
      rw [← harity]
      exact hsize ▸ g.parameters_lt_size
    have hroom : (base + r.frame.size + (max s₁.stack (g.frame.size + s₂.stack) : Nat) : Int) ≤ roof :=
      hroom
    have hcallsite : Site (.ofItems items pool) p roof g callee (base + r.frame.size) :=
      hc.site hf hmem hcallee hsmall' (by push_cast; omega)
    have hargs := ih.arguments (n := n) slot 0 hsite hres.2 hslot ht (by omega) hvs
    have hrow := ih.row (n := k) hcallsite hbres le_rfl
      (by unfold Frame.returnSlot; rw [htemps]) (by push_cast; omega) hbody
    rw [Expr.code, ← hlen] at hst
    exact carries_call hfind hnames ha hcode hslot hcount (by omega) (by omega) hlast hargs
      hrow v rest hbase hst hm
  · cases h

theorem CodeFollows.expr_succ (hc : IsCompiled items pool p env) (hf : p.Fits words)
    (ih : CodeFollows D items pool p env roof fuel)
    (hsite : Site (.ofItems items pool) p roof f r base) {e : Expr}
    (hres : e.Resolves env r.frame) (hslot : r.frame.tempStart ≤ slot)
    (ht : slot + e.temporaries ≤ r.frame.returnSlot)
    (hroom : (base + r.frame.size + s'.stack : Int) ≤ roof)
    (h : eval (.ofItems items pool) (fuel + 1) f.scope e s = some s') :
    Carries p roof r slot base (e.code r.frame slot n) s s' := by
  cases e with
  | literal value =>
    simp only [eval, Option.some.injEq] at h
    subst h
    have hmem : (literalTag value, value) ∈ p.constants := hc.constants ▸ hres
    exact carries_load fun v _ hm => hm.constants _ _ hmem
  | symbol name =>
    obtain ⟨i, hi, hmem⟩ := hres
    simp only [eval] at h
    rw [show (Context.ofItems items pool).symbols = env.symbols from hc.symbols.symm, hi] at h
    cases h
    rw [hc.constants] at hmem
    exact carries_load fun v _ hm => hm.constants _ _ hmem
  | reference name indirect =>
    cases indirect with
    | false =>
      simp only [eval] at h
      obtain ⟨w, hw, rfl⟩ := Option.map_eq_some_iff.mp h
      exact carries_load fun v stale hm => hm.operand hsite hw stale
    | true =>
      simp only [eval] at h
      obtain ⟨a, ha, h⟩ := Option.bind_eq_some_iff.mp h
      exact carries_input (fun v stale hm => hm.operand hsite ha stale) h
  | declare name value =>
    simp only [eval] at h
    obtain ⟨s₁, hv, h⟩ := Option.bind_eq_some_iff.mp h
    rw [Store.stack_of_assign? h] at hroom
    exact (ih.expr hsite hres.1 hslot ht hroom hv).append (carries_assign hsite h)
  | assign name indirect value =>
    cases indirect with
    | false =>
      simp only [eval] at h
      obtain ⟨s₁, hv, h⟩ := Option.bind_eq_some_iff.mp h
      rw [Store.stack_of_assign? h] at hroom
      exact (ih.expr hsite hres.1 hslot ht hroom hv).append (carries_assign hsite h)
    | true =>
      simp only [eval] at h
      obtain ⟨s₁, hv, h⟩ := Option.bind_eq_some_iff.mp h
      obtain ⟨a, ha, h⟩ := Option.bind_eq_some_iff.mp h
      rw [Store.stack_of_output? h] at hroom
      exact (ih.expr hsite hres.1 hslot ht hroom hv).append
        (carries_output (fun v stale hm => hm.operand hsite ha stale) h)
  | cond test yes no =>
    simp only [eval] at h
    obtain ⟨s₁, htest, h⟩ := Option.bind_eq_some_iff.mp h
    rw [Expr.temporaries] at ht
    have hcount : s₁.stack ≤ s'.stack := by
      split at h
      · exact (countsUp D _ _).row h
      · exact (countsUp D _ _).row h
    refine carries_cond hsite.nodup (ih.expr hsite hres.1 hslot (by omega) (by omega) htest) ?_ ?_
    · intro h0
      rw [if_pos h0] at h
      exact ih.row hsite hres.2.1 hslot (by omega) hroom h
    · intro h0
      rw [if_neg h0] at h
      exact ih.row hsite hres.2.2 hslot (by omega) hroom h
  | loop test body =>
    simp only [eval] at h
    obtain ⟨s₁, htest, h⟩ := Option.bind_eq_some_iff.mp h
    have ht' := ht
    rw [Expr.temporaries] at ht'
    by_cases h0 : s₁.value = 0
    · rw [if_pos h0, Option.some.injEq] at h
      subst h
      exact carries_loop hsite.nodup (ih.expr hsite hres.1 hslot (by omega) hroom htest)
        (fun _ => rfl) fun h1 => absurd h0 h1
    · rw [if_neg h0] at h
      obtain ⟨s₂, hbody, h⟩ := Option.bind_eq_some_iff.mp h
      have hagain := (countsUp D _ _).expr h
      have hround := (countsUp D _ _).row hbody
      refine carries_loop hsite.nodup (ih.expr hsite hres.1 hslot (by omega) (by omega) htest)
        (fun h1 => absurd h1 h0) fun _ => ⟨s₂, ?_, ?_⟩
      · exact ih.row hsite hres.2 hslot (by omega) (by omega) hbody
      · exact ih.expr (e := .loop test body) hsite hres hslot ht hroom h
  | unary operator operand =>
    simp only [eval] at h
    obtain ⟨s₁, hv, rfl⟩ := Option.map_eq_some_iff.mp h
    have hroom₁ : (base + r.frame.size + s₁.stack : Int) ≤ roof := hroom
    exact (ih.expr (e := operand) hsite hres hslot ht hroom₁ hv).append carries_unary
  | binary operator left right =>
    simp only [eval] at h
    obtain ⟨s₁, hl, h⟩ := Option.bind_eq_some_iff.mp h
    obtain ⟨s₂, hr, rfl⟩ := Option.map_eq_some_iff.mp h
    rw [Expr.temporaries] at ht
    have hcount := (countsUp D _ _).expr hr
    have hroom₂ : (base + r.frame.size + s₂.stack : Int) ≤ roof := hroom
    exact carries_binary hslot (hsite.slot_lt (by unfold Frame.size; omega))
      (ih.expr hsite hres.1 hslot (by omega) (by omega) hl)
      (ih.expr hsite hres.2 (by omega) (by omega) hroom₂ hr)
  | apply name es => exact ih.apply_succ hc hf hsite hres hslot ht hroom h

/-- The code of a compiled program follows every evaluation. -/
theorem IsCompiled.codeFollows (hc : IsCompiled items pool p env) (hf : p.Fits words) (fuel : Nat) :
    CodeFollows D items pool p env roof fuel := by
  induction fuel with
  | zero =>
    refine ⟨fun _ _ _ _ _ h => ?_, fun _ _ _ _ _ h => ?_, fun _ _ _ _ _ _ _ h => ?_⟩
    · simp [eval] at h
    · simp [evalRow] at h
    · simp [evalArguments] at h
  | succ fuel ih =>
    refine ⟨fun hsite => ih.expr_succ hc hf hsite, fun hsite => ih.row_succ hsite, ?_⟩
    intro _ _ _ _ _ _ _ _ start kept hsite
    exact ih.arguments_succ hsite

end

end WordLisp

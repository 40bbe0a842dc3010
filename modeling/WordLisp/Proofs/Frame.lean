import Mathlib
import WordLisp.Frame

/-!
# Slots and the allocation of frames

A frame has a slot for each of its names, and different names have different slots. Allocation succeeds
exactly if no name repeats.

`Expr.preorder` lists an expression and all expressions within it, each in front of its own parts and
the parts in the order in which they stand in the text.

Main statement: the slots of a frame are numbered in the order of the parameters and then of the
declarations as preorder finds them, and the first name that comes up twice is what allocation reports.
-/

namespace WordLisp

/-! ## Slots -/

theorem Frame.slot?_isSome {frame : Frame} {name : String} :
    (frame.slot? name).isSome ↔ name ∈ frame.names := by
  unfold Frame.slot? List.idxOf?
  rw [Option.isSome_map, List.findIdx?_isSome]
  simp

theorem Frame.slot?_inj {frame : Frame} {x y : String} {n : Nat} (hx : frame.slot? x = some n)
    (hy : frame.slot? y = some n) : x = y := by
  unfold Frame.slot? List.idxOf? at hx hy
  obtain ⟨i, hi, hin⟩ := Option.map_eq_some_iff.mp hx
  obtain ⟨j, hj, hjn⟩ := Option.map_eq_some_iff.mp hy
  obtain ⟨_, hgi, -⟩ := List.findIdx?_eq_some_iff_getElem.mp hi
  obtain ⟨_, hgj, -⟩ := List.findIdx?_eq_some_iff_getElem.mp hj
  obtain rfl : i = j := by omega
  rw [← eq_of_beq hgi, ← eq_of_beq hgj]

theorem Frame.slot?_le {frame : Frame} {name : String} {n : Nat} (h : frame.slot? name = some n) :
    1 ≤ n ∧ n < frame.tempStart := by
  unfold Frame.slot? at h
  obtain ⟨i, hi, rfl⟩ := Option.map_eq_some_iff.mp h
  have hlt : i < frame.names.length := by
    unfold List.idxOf? at hi
    exact (List.findIdx?_eq_some_iff_getElem.mp hi).1
  unfold Frame.tempStart
  omega

/-! ## Allocation -/

theorem Frame.allocate_eq {f : Function} {frame : Frame} (h : Frame.allocate f = .ok frame) :
    frame.names = f.parameters ++ Expr.declaredAll f.body ∧
      frame.temporaries = Expr.rowTemporaries f.body := by
  unfold Frame.allocate at h
  simp only at h
  split at h
  · cases h
  · rw [← Except.ok.inj h]
    exact ⟨rfl, rfl⟩

theorem firstRepeat?_eq_none_iff {seen names : List String} (h : seen.Nodup) :
    firstRepeat? seen names = none ↔ (seen ++ names).Nodup := by
  induction names generalizing seen with
  | nil => simpa [firstRepeat?] using h
  | cons name names ih =>
    rw [firstRepeat?]
    by_cases hm : name ∈ seen
    · rw [if_pos hm]
      refine iff_of_false (by simp) fun hn => ?_
      exact (List.nodup_append.mp hn).2.2 name hm name (List.mem_cons_self ..) rfl
    · rw [if_neg hm, ih (List.nodup_cons.mpr ⟨hm, h⟩)]
      exact List.perm_middle.symm.nodup_iff

theorem Frame.allocate_isOk_iff {f : Function} : (∃ frame, Frame.allocate f = .ok frame) ↔
    (f.parameters ++ Expr.declaredAll f.body).Nodup := by
  rw [← List.nil_append (f.parameters ++ _), ← firstRepeat?_eq_none_iff List.nodup_nil]
  unfold Frame.allocate
  cases h : firstRepeat? [] (f.parameters ++ Expr.declaredAll f.body) <;> simp [h]

/-! ## Declarations in order -/

namespace Expr

/-- The expressions that an expression is made of, in the order of its text. -/
def children : Expr → List Expr
  | .literal _ | .symbol _ | .reference _ _ => []
  | .declare _ value | .assign _ _ value => [value]
  | .cond test yes no => test :: (yes ++ no)
  | .loop test body => test :: body
  | .unary _ operand => [operand]
  | .binary _ left right => [left, right]
  | .apply _ arguments => arguments

theorem sizeOf_lt_of_mem_children {e c : Expr} (h : c ∈ e.children) : sizeOf c < sizeOf e := by
  cases e with
  | literal _ | symbol _ | reference _ _ => cases h
  | declare _ value | assign _ _ value | unary _ operand =>
    rw [List.mem_singleton.mp h]
    simp
  | cond test yes no =>
    simp only [children, List.mem_cons, List.mem_append] at h
    rcases h with rfl | h | h
    · simp; omega
    · have := List.sizeOf_lt_of_mem h
      simp; omega
    · have := List.sizeOf_lt_of_mem h
      simp; omega
  | loop test body =>
    rcases List.mem_cons.mp h with rfl | h
    · simp; omega
    · have := List.sizeOf_lt_of_mem h
      simp; omega
  | binary _ left right =>
    simp only [children, List.mem_cons, List.not_mem_nil, or_false] at h
    rcases h with rfl | rfl <;> rw [Expr.binary.sizeOf_spec] <;> omega
  | apply _ arguments =>
    have : sizeOf c < sizeOf arguments := List.sizeOf_lt_of_mem h
    simp; omega

/-- An expression and all expressions within it, each in front of those that it is made of. -/
def preorder (e : Expr) : List Expr :=
  e :: e.children.attach.flatMap fun c => c.1.preorder
termination_by sizeOf e
decreasing_by exact sizeOf_lt_of_mem_children c.2

theorem preorder_eq (e : Expr) : e.preorder = e :: e.children.flatMap preorder := by
  rw [preorder]
  simp [List.flatMap_subtype]

/-- The name that an expression itself declares. -/
def declares? : Expr → Option String
  | .declare name _ => some name
  | _ => none

theorem declaredAll_eq_flatMap (es : List Expr) : declaredAll es = es.flatMap declared := by
  induction es with
  | nil => rfl
  | cons e es ih => rw [declaredAll, ih, List.flatMap_cons]

/-- Each expression declares its own name in front of the names that its parts declare. -/
theorem declared_eq_children (e : Expr) :
    e.declared = e.declares?.toList ++ e.children.flatMap declared := by
  cases e <;> simp [declared, declares?, children, declaredAll_eq_flatMap]

theorem declared_eq_preorder (e : Expr) : e.declared = e.preorder.filterMap declares? := by
  have ih : ∀ c ∈ e.children, c.declared = c.preorder.filterMap declares? := fun c hc =>
    declared_eq_preorder c
  have hown (es : List Expr) : (e :: es).filterMap declares? =
      e.declares?.toList ++ es.filterMap declares? := by
    cases h : e.declares? <;> simp [h]
  rw [preorder_eq, hown, List.filterMap_flatMap, declared_eq_children, List.flatMap_congr ih]
termination_by sizeOf e
decreasing_by exact sizeOf_lt_of_mem_children hc

theorem rowTemporaries_eq_max (es : List Expr) :
    rowTemporaries es = (es.map temporaries).max?.getD 0 := by
  induction es with
  | nil => rfl
  | cons e es ih =>
    rw [rowTemporaries, ih, List.map_cons, List.max?_cons]
    cases (es.map temporaries).max? <;> simp

end Expr

/-- The parameters of a function, and the names that its body declares, in order. -/
def Function.variableNames (f : Function) : List String :=
  f.parameters ++ (f.body.flatMap Expr.preorder).filterMap Expr.declares?

/-- The first of the names that repeats an earlier one. -/
def FirstRepeat (names : List String) (name : String) : Prop :=
  ∃ before after, names = before ++ name :: after ∧ name ∈ before ∧ before.Nodup

theorem firstRepeat?_of_some {seen names : List String} {name : String} (h : seen.Nodup)
    (hname : firstRepeat? seen names = some name) :
    ∃ before after, names = before ++ name :: after ∧ name ∈ seen ++ before ∧
      (seen ++ before).Nodup := by
  induction names generalizing seen with
  | nil => cases hname
  | cons first names ih =>
    rw [firstRepeat?] at hname
    split at hname
    · next hm =>
      cases hname
      exact ⟨[], names, rfl, by simpa using hm, by simpa using h⟩
    · next hm =>
      obtain ⟨before, after, rfl, hmem, hnodup⟩ := ih (List.nodup_cons.mpr ⟨hm, h⟩) hname
      have hperm : (first :: seen ++ before).Perm (seen ++ first :: before) :=
        List.perm_middle.symm
      exact ⟨first :: before, after, rfl, hperm.mem_iff.mp hmem, hperm.nodup_iff.mp hnodup⟩

/-- A name that stands at some place of a frame has the slot of that place. -/
theorem Frame.slot?_of_getElem? {frame : Frame} (hn : frame.names.Nodup) {i : Nat} {name : String}
    (h : frame.names[i]? = some name) : frame.slot? name = some (i + 1) := by
  obtain ⟨hi, rfl⟩ := List.getElem?_eq_some_iff.mp h
  unfold Frame.slot? List.idxOf?
  refine Option.map_eq_some_iff.mpr ⟨i, List.findIdx?_eq_some_iff_getElem.mpr ⟨hi, ?_, ?_⟩, rfl⟩
  · simp
  · intro j hj
    have hne : j ≠ i := by omega
    simpa [hn.getElem_inj_iff] using hne

theorem Function.variableNames_eq (f : Function) :
    f.variableNames = f.parameters ++ Expr.declaredAll f.body := by
  rw [Function.variableNames, Expr.declaredAll_eq_flatMap, List.filterMap_flatMap,
    List.flatMap_congr fun e _ => Expr.declared_eq_preorder e]

/-- Allocation fails exactly if a name repeats, and reports the first one that does. Otherwise the names
have the slots from one on, in order, other names have none, and the frame has room for these slots,
for as many intermediate values as any expression of the body needs, and for three words besides. -/
theorem allocate_exact (f : Function) :
    ((∃ e, Frame.allocate f = .error e) ↔ ¬ f.variableNames.Nodup) ∧
    (∀ e, Frame.allocate f = .error e → ∃ name, FirstRepeat f.variableNames name ∧ e = .redeclared name) ∧
    ∀ frame, Frame.allocate f = .ok frame →
      (∀ i name, f.variableNames[i]? = some name → frame.slot? name = some (i + 1)) ∧
      (∀ name, name ∉ f.variableNames → frame.slot? name = none) ∧
      frame.size = 1 + f.variableNames.length + (f.body.map Expr.temporaries).max?.getD 0 + 2 := by
  rw [f.variableNames_eq]
  refine ⟨?_, fun e he => ?_, fun frame hframe => ?_⟩
  · rw [← Frame.allocate_isOk_iff]
    cases Frame.allocate f <;> simp
  · unfold Frame.allocate at he
    simp only at he
    split at he
    · next name hname =>
      cases he
      obtain ⟨before, after, hsplit, hmem, hnodup⟩ := firstRepeat?_of_some List.nodup_nil hname
      exact ⟨name, ⟨before, after, hsplit, hmem, hnodup⟩, rfl⟩
    · cases he
  · obtain ⟨hnames, htemporaries⟩ := Frame.allocate_eq hframe
    have hnodup : frame.names.Nodup := hnames ▸ Frame.allocate_isOk_iff.mp ⟨frame, hframe⟩
    rw [← hnames]
    refine ⟨fun i name h => Frame.slot?_of_getElem? hnodup h, fun name hname => ?_, ?_⟩
    · rw [← Option.not_isSome_iff_eq_none, Frame.slot?_isSome]
      exact hname
    · unfold Frame.size Frame.returnSlot Frame.tempStart
      rw [htemporaries, Expr.rowTemporaries_eq_max]

/-- A function with declarations in the value of a declaration and in an argument. -/
def nestedFunction : Function :=
  ⟨"f", ["a"], [.declare "x" (.declare "y" (.literal 1)),
    .apply "g" [.reference "a" false, .binary .add (.declare "z" (.literal 2)) (.reference "x" false)]]⟩

theorem allocate_exact_nested :
    ∃ frame, Frame.allocate nestedFunction = .ok frame ∧ frame.slot? "x" = some 2 ∧
      frame.slot? "y" = some 3 ∧ frame.slot? "z" = some 4 ∧ frame.slot? "g" = none ∧ frame.size = 9 := by
  have hnames : nestedFunction.variableNames = ["a", "x", "y", "z"] := by
    simp only [nestedFunction, Function.variableNames, Expr.preorder_eq, Expr.children, List.flatMap_cons,
      List.flatMap_nil]
    rfl
  have hframe : Frame.allocate nestedFunction = .ok ⟨["a", "x", "y", "z"], 2⟩ := by rfl
  obtain ⟨-, -, hok⟩ := allocate_exact nestedFunction
  obtain ⟨hslots, hothers, hsize⟩ := hok _ hframe
  rw [hnames] at hslots hothers hsize
  exact ⟨_, hframe, hslots 1 "x" rfl, hslots 2 "y" rfl, hslots 3 "z" rfl, hothers "g" (by decide), hsize⟩

end WordLisp

import WordLisp.Proofs.Evaluator
import WordLisp.Proofs.View.Runs
import WordLisp.Proofs.View.WellFormed

/-!
# Code that does what evaluation does

`Mirrors p frame s v`: the view `v` of a function with the frame `frame` holds what the store `s`
holds. `Carries p roof r slot base code s s'`: from every such view, `code` leads to one that
mirrors `s'`, and leaves the callers and the intermediate values below `slot` as they are. How far
a run has come is said with `Arrives`, and each operation takes it one turn further.
-/

namespace WordLisp

/-- The view is in front of the operations `ops` of the routine `r`. -/
structure Stands (r : Routine) (ops : List Op) (v : View D) : Prop where
  routine : v.top.routine = r
  code : v.top.code = ops
  suffix : ops <:+ r.code

structure Mirrors (p : Program) (frame : Frame) (s : Store D) (v : View D) : Prop where
  value : v.left = s.value
  device : v.device = s.device
  globals : ∀ name ∈ p.globals.map Prod.fst, v.data name = s.globals name
  constants : ∀ tag value, (tag, value) ∈ p.constants → v.data tag = value
  locals : ∀ name n w, frame.slot? name = some n → s.locals name = some w → v.top.slots n = some w

/-- The intermediate values below `slot`, and the callers, are the same. -/
structure KeepsBelow (frame : Frame) (slot : Nat) (v v' : View D) : Prop where
  base : v'.top.base = v.top.base
  below : v'.below = v.below
  slots : ∀ n, frame.tempStart ≤ n → n < slot → v'.top.slots n = v.top.slots n

theorem KeepsBelow.refl (frame : Frame) (slot : Nat) (v : View D) : KeepsBelow frame slot v v :=
  ⟨rfl, rfl, fun _ _ _ => rfl⟩

theorem KeepsBelow.trans {frame : Frame} {slot : Nat} {v₁ v₂ v₃ : View D}
    (h : KeepsBelow frame slot v₁ v₂) (h' : KeepsBelow frame slot v₂ v₃) :
    KeepsBelow frame slot v₁ v₃ :=
  ⟨h'.base.trans h.base, h'.below.trans h.below,
    fun n h1 h2 => (h'.slots n h1 h2).trans (h.slots n h1 h2)⟩

theorem KeepsBelow.mono {frame : Frame} {slot slot' : Nat} {v v' : View D} (hle : slot ≤ slot')
    (h : KeepsBelow frame slot' v v') : KeepsBelow frame slot v v' :=
  ⟨h.base, h.below, fun n h1 h2 => h.slots n h1 (by omega)⟩

section
variable [Device D] (p : Program) (roof : Int) (r : Routine) (slot : Nat)

/-- From the view `v₀` the routine gets in front of `code`, with what the store `s` holds, and keeps
the intermediate values below `slot`. -/
def Arrives (v₀ : View D) (code : List Op) (s : Store D) : Prop :=
  ∃ v, v₀.Reaches p roof v ∧ Stands r code v ∧ Mirrors p r.frame s v ∧ KeepsBelow r.frame slot v₀ v

/-- The code turns the store `s` into the store `s'` in every frame at `base`. -/
def Carries (base : Nat) (code : List Op) (s s' : Store D) : Prop :=
  ∀ (v : View D) (rest : List Op), v.top.base = base → Stands r (code ++ rest) v →
    Mirrors p r.frame s v → Arrives p roof r slot v rest s'

end

theorem Stands.tail {r : Routine} {v : View D} {op : Op} {rest : List Op}
    (h : Stands r (op :: rest) v) : rest <:+ r.code :=
  (List.suffix_cons op rest).trans h.suffix

/-- A tag stands for the one place where it is. -/
theorem target_eq {a : Activation} {name : String} {ops post : List Op}
    (hn : (Listing.tagNames (Op.listing a.routine.code)).Nodup)
    (h : a.routine.code = ops ++ .tag name :: post) : a.target name = .tag name :: post := by
  have hnot : .tag name ∉ ops := by
    intro hm
    rw [h, Op.listing_append, Listing.tagNames_append] at hn
    refine (List.nodup_append.mp hn).2.2 name ?_ name (List.mem_cons_self ..) rfl
    exact Listing.mem_tagNames.mpr (List.mem_map_of_mem (f := Op.record) hm)
  unfold Activation.target
  rw [h]
  clear h hn
  induction ops with
  | nil => simp
  | cons op ops ih =>
    rw [List.cons_append, List.dropWhile_cons_of_pos]
    · exact ih fun hm => hnot (List.mem_cons_of_mem _ hm)
    · have : op ≠ .tag name := fun he => hnot (he ▸ List.mem_cons_self ..)
      simpa using this

namespace Arrives

section
variable [Device D] {p : Program} {roof : Int} {r : Routine} {base slot : Nat} {v₀ : View D}
  {rest : List Op} {s s' : Store D}

theorem refl (hst : Stands r rest v₀) (hm : Mirrors p r.frame s v₀) :
    Arrives p roof r slot v₀ rest s :=
  ⟨v₀, .refl v₀, hst, hm, .refl _ _ _⟩

theorem carry {code : List Op} (h : Arrives p roof r slot v₀ (code ++ rest) s)
    (hbase : v₀.top.base = base) (hc : Carries p roof r slot base code s s') :
    Arrives p roof r slot v₀ rest s' := by
  obtain ⟨v, hr, hst, hm, hk⟩ := h
  obtain ⟨v', hr', hst', hm', hk'⟩ := hc v rest (hk.base.trans hbase) hst hm
  exact ⟨v', hr.trans hr', hst', hm', hk.trans hk'⟩

/-- A turn after which only the code, the value and the device can be other ones. -/
theorem turn {op : Op} {code : List Op} {w : Word} {d : D}
    (h : Arrives p roof r slot v₀ (op :: rest) s) (hs : code <:+ r.code)
    (ht : ∀ v stale, Stands r (op :: rest) v → Mirrors p r.frame s v →
      v.turn p roof stale = .next { v with left := w, device := d, top := v.top.goto code }) :
    Arrives p roof r slot v₀ code { s with value := w, device := d } := by
  obtain ⟨v, hr, hst, hm, hk⟩ := h
  exact ⟨_, hr.trans (.single fun stale => ht v stale hst hm), ⟨hst.routine, rfl, hs⟩,
    ⟨rfl, rfl, hm.globals, hm.constants, hm.locals⟩, ⟨hk.base, hk.below, hk.slots⟩⟩

theorem tail_suffix {op : Op} (h : Arrives p roof r slot v₀ (op :: rest) s) : rest <:+ r.code := by
  obtain ⟨v, -, hst, -, -⟩ := h
  exact hst.tail

theorem tag {name : String} (h : Arrives p roof r slot v₀ (.tag name :: rest) s) :
    Arrives p roof r slot v₀ rest s := by
  obtain ⟨v, hr, hst, hm, hk⟩ := h
  exact ⟨{ v with top := v.top.goto rest },
    hr.trans (.skip (fun _ => View.turn_cons hst.code) (.refl _)), ⟨hst.routine, rfl, hst.tail⟩,
    ⟨hm.value, hm.device, hm.globals, hm.constants, hm.locals⟩, ⟨hk.base, hk.below, hk.slots⟩⟩

theorem fall {name : String} (h : Arrives p roof r slot v₀ (.branch name :: rest) s)
    (hv : s.value = 0) : Arrives p roof r slot v₀ rest s := by
  refine turn (w := s.value) (d := s.device) h h.tail_suffix fun v stale hst hm => ?_
  rw [View.turn_cons hst.code, ← hm.value, ← hm.device]
  exact if_pos (hm.value.trans hv)

section
variable (hn : (Listing.tagNames (Op.listing r.code)).Nodup) {name : String} {post : List Op}
  (hp : .tag name :: post <:+ r.code)
include hn hp

omit [Device D] in
theorem target {ops : List Op} {v : View D} (hst : Stands r ops v) :
    v.top.target name = .tag name :: post := by
  obtain ⟨ops, hops⟩ := hp
  exact target_eq (by rw [hst.routine]; exact hn) (by rw [hst.routine, hops])

/-- A jump leads to its tag. -/
theorem jump (h : Arrives p roof r slot v₀ (.jump name :: rest) s) :
    Arrives p roof r slot v₀ (.tag name :: post) s := by
  refine turn (w := s.value) (d := s.device) h hp fun v stale hst hm => ?_
  rw [View.turn_cons hst.code, ← hm.value, ← hm.device, ← target hn hp hst]
  rfl

theorem branch (h : Arrives p roof r slot v₀ (.branch name :: rest) s) (hv : s.value ≠ 0) :
    Arrives p roof r slot v₀ (.tag name :: post) s := by
  refine turn (w := s.value) (d := s.device) h hp fun v stale hst hm => ?_
  rw [View.turn_cons hst.code, ← target hn hp hst]
  refine (if_neg fun h0 => hv (hm.value.symm.trans h0)).trans ?_
  rw [← hm.value, ← hm.device]
  rfl

end

end

end Arrives

/-! ## Rows of operations -/

section
variable [Device D] {p : Program} {roof : Int} {r : Routine} {base slot : Nat} {s s₁ s' : Store D}

theorem carries_nil : Carries p roof r slot base [] s s := fun _ _ _ hst hm => .refl hst hm

theorem Carries.append {a b : List Op} (ha : Carries p roof r slot base a s s₁)
    (hb : Carries p roof r slot base b s₁ s') : Carries p roof r slot base (a ++ b) s s' := by
  intro v rest hbase hst hm
  rw [List.append_assoc] at hst
  exact ((Arrives.refl hst hm).carry hbase ha).carry hbase hb

/-- An operation after which only the value and the device can be other ones. -/
theorem carries_single {op : Op} {w : Word} {d : D}
    (ht : ∀ (v : View D) stale rest, Stands r (op :: rest) v → Mirrors p r.frame s v →
      v.turn p roof stale = .next { v with left := w, device := d, top := v.top.goto rest }) :
    Carries p roof r slot base [op] s { s with value := w, device := d } :=
  fun _ rest _ hst hm => .turn (.refl hst hm) hst.tail fun v stale => ht v stale rest

section
variable {x : Operand} {w : Word}
  (hx : ∀ (v : View D) stale, Mirrors p r.frame s v → v.value stale x = w)
include hx

theorem carries_load : Carries p roof r slot base [.load x false] s { s with value := w } := by
  refine carries_single (d := s.device) fun v stale rest hst hm => ?_
  rw [View.turn_cons hst.code]
  simp only [View.exec, View.load, View.value_goto, hx v stale hm, ← hm.device]

/-- A load through a pointer reads from the device. -/
theorem carries_input (h : s.input? w = some s') :
    Carries p roof r slot base [.load x true] s s' := by
  unfold Store.input? at h
  split at h
  · next hw =>
    cases h
    refine carries_single fun v stale rest hst hm => ?_
    rw [View.turn_cons hst.code]
    simp only [View.exec, View.load, View.value_goto, hx v stale hm, if_pos hw, ← hm.device]
  · cases h

/-- A store through a pointer writes to the device. -/
theorem carries_output (h : s.output? w = some s') :
    Carries p roof r slot base [.store x true] s s' := by
  unfold Store.output? at h
  split at h
  · next hw =>
    cases h
    refine carries_single (w := s.value) fun v stale rest hst hm => ?_
    rw [View.turn_cons hst.code]
    simp only [View.exec, View.store, View.value_goto, hx v stale hm, if_pos hw, ← hm.device,
      ← hm.value]
  · cases h

end

theorem carries_unary {operator : UnaryOp} :
    Carries p roof r slot base [.unary operator] s { s with value := operator.apply s.value } := by
  refine carries_single (d := s.device) fun v stale rest hst hm => ?_
  rw [View.turn_cons hst.code]
  simp only [View.exec, ← hm.value, ← hm.device]

end

/-! ## Variables -/

section
variable [Device D] {p : Program} {roof : Int} {r : Routine} {base slot : Nat} {v : View D}

/-- The routine `r` of the function `f` has a frame at `base`. -/
structure Site (c : Context) (p : Program) (roof : Int) (f : Function) (r : Routine) (base : Nat) :
    Prop where
  well : p.WellFormed
  mem : r ∈ p.routines
  small : r.Small
  nodup : (Listing.tagNames (Op.listing r.code)).Nodup
  names : r.frame.names = f.scope
  globals : c.globals = p.globals.map Prod.fst
  /-- No tag of a constant is the name of a global. -/
  apart : ∀ tag value, (tag, value) ∈ p.constants → tag ∉ p.globals.map Prod.fst
  room : (base + r.frame.size : Int) ≤ roof

variable {c : Context} {f : Function}

omit [Device D] in
theorem Site.slot_lt (h : Site c p roof f r base) {n : Nat} (hn : n < r.frame.size) :
    (base + n : Int) < roof := by
  have := h.room
  omega

omit [Device D] in
/-- The locals of the function are the names that have a slot. -/
theorem Site.mem_scope_iff (h : Site c p roof f r base) {name : String} :
    name ∈ f.scope ↔ (r.frame.slot? name).isSome := by
  rw [Frame.slot?_isSome, h.names]

omit [Device D] in
theorem Mirrors.operand (hsite : Site c p roof f r base) {s : Store D} {name : String} {w : Word}
    (hm : Mirrors p r.frame s v) (h : s.get? c f.scope name = some w) (stale : Nat → Word) :
    v.value stale (r.frame.operand name) = w := by
  unfold Store.get? at h
  unfold Frame.operand
  cases hs : r.frame.slot? name with
  | some n =>
    rw [if_pos (hsite.mem_scope_iff.mpr (by rw [hs]; rfl))] at h
    show (v.top.slots n).getD (stale n) = w
    rw [hm.locals name n w hs h]
    rfl
  | none =>
    rw [if_neg fun hin => by simpa [hs] using hsite.mem_scope_iff.mp hin] at h
    split at h
    · next hg =>
      cases h
      exact hm.globals name (hsite.globals ▸ hg)
    · cases h

/-- A store into the slot of a local assigns the local. -/
theorem carries_assignLocal (hsite : Site c p roof f r base) {s : Store D} {name : String} {n : Nat}
    (hn : r.frame.slot? name = some n) : Carries p roof r slot base [.store (.slot n) false] s
      { s with locals := Function.update s.locals name (some s.value) } := by
  intro v rest hbase hst hm
  obtain ⟨h1, hlt⟩ := Frame.slot?_le hn
  have hroom := hsite.slot_lt (n := n) (by unfold Frame.size Frame.returnSlot; omega)
  refine ⟨_, .single fun _ => View.turn_put hst.code (by rwa [hbase]), ⟨hst.routine, rfl, hst.tail⟩,
    ⟨hm.value, hm.device, hm.globals, hm.constants, ?_⟩, rfl, rfl, ?_⟩
  · intro x k w hx hw
    have hw : Function.update s.locals name (some s.value) x = some w := hw
    by_cases he : x = name
    · subst he
      rw [hn] at hx
      cases hx
      rw [Function.update_self] at hw
      rw [← hw, ← hm.value]
      exact Activation.slots_put_self _ _ _
    · rw [Function.update_of_ne he] at hw
      have hkn : k ≠ n := fun hkn => he (Frame.slot?_inj hx (hkn ▸ hn))
      exact (Activation.slots_put_of_ne _ hkn _).trans (hm.locals x k w hx hw)
  · intro k hk _
    exact Activation.slots_put_of_ne _ (by omega) _

/-- A store into the cell of a global assigns the global, and no constant. -/
theorem carries_assignGlobal (hsite : Site c p roof f r base) {s : Store D} {name : String}
    (hg : name ∈ p.globals.map Prod.fst) : Carries p roof r slot base [.store (.cell name) false] s
      { s with globals := Function.update s.globals name s.value } := by
  intro v rest _ hst hm
  refine ⟨_, .single fun _ => View.turn_cons hst.code, ⟨hst.routine, rfl, hst.tail⟩,
    ⟨hm.value, hm.device, ?_, ?_, hm.locals⟩, rfl, rfl, fun _ _ _ => rfl⟩
  · intro x hx
    show Function.update v.data name v.left x = Function.update s.globals name s.value x
    by_cases he : x = name
    · rw [he, Function.update_self, Function.update_self, hm.value]
    · rw [Function.update_of_ne he, Function.update_of_ne he]
      exact hm.globals x hx
  · intro tag value ht
    have hne : tag ≠ name := fun he => hsite.apart tag value ht (he ▸ hg)
    exact (Function.update_of_ne hne _ _).trans (hm.constants tag value ht)

/-- A store into a variable is an assignment. -/
theorem carries_assign (hsite : Site c p roof f r base) {s s' : Store D} {name : String}
    (h : s.assign? c f.scope name = some s') :
    Carries p roof r slot base [.store (r.frame.operand name) false] s s' := by
  unfold Store.assign? at h
  unfold Frame.operand
  cases hs : r.frame.slot? name with
  | some n =>
    rw [if_pos (hsite.mem_scope_iff.mpr (by rw [hs]; rfl))] at h
    cases h
    exact carries_assignLocal hsite hs
  | none =>
    rw [if_neg fun hin => by simpa [hs] using hsite.mem_scope_iff.mp hin] at h
    split at h
    · next hg =>
      cases h
      exact carries_assignGlobal hsite (hsite.globals ▸ hg)
    · cases h

end

end WordLisp

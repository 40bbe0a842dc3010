import WordLisp.Proofs.Code.Flows
import WordLisp.Proofs.View.Represents

/-!
# What a view knows

In a program whose code flows, every activation knows the slots that its remaining code loads,
except for variables (`View.Flows`). Every turn keeps that.
-/

namespace WordLisp

/-! ## How a view changes -/

/-- The shape of a view after an operation that goes on, with `rest` as the code behind the
operation. The words that it reads or computes are left open. -/
inductive View.Becomes (p : Program) (v : View D) (rest : List Op) : Op → View D → Prop where
  | tag (name : String) : Becomes p v rest (.tag name) { v with top := v.top.goto rest }
  | load (x : Operand) (indirect : Bool) (left : Word) (device : D) :
    Becomes p v rest (.load x indirect) { v with left, device, top := v.top.goto rest }
  | storeCell (tag : String) (data : String → Word) :
    Becomes p v rest (.store (.cell tag) false) { v with data, top := v.top.goto rest }
  | storeSlot (n : Nat) : Becomes p v rest (.store (.slot n) false)
    { v with top := (v.top.goto rest).put n v.left }
  | storeDevice (x : Operand) (device : D) :
    Becomes p v rest (.store x true) { v with device, top := v.top.goto rest }
  | yield (b : Activation) (below : List Activation) : v.below = b :: below →
    Becomes p v rest .yield { v with
      top := v.top.goto rest, below := b.put b.routine.frame.returnSlot v.left :: below }
  | unary (operator : UnaryOp) (left : Word) :
    Becomes p v rest (.unary operator) { v with left, top := v.top.goto rest }
  | binary (operator : BinaryOp) (left : Word) :
    Becomes p v rest (.binary operator) { v with left, top := v.top.goto rest }
  | swap (left right : Word) : Becomes p v rest .swap { v with left, right, top := v.top.goto rest }
  | fall (name : String) : Becomes p v rest (.branch name) { v with top := v.top.goto rest }
  | branch (name : String) :
    Becomes p v rest (.branch name) { v with top := v.top.goto (v.top.target name) }
  | jump (name : String) :
    Becomes p v rest (.jump name) { v with top := v.top.goto (v.top.target name) }
  | call (name : String) (r : Routine) : p.find? name = some r →
    Becomes p v rest (.call name) { v with
      top := v.top.enter r, below := (v.top.goto rest).forget :: v.below }
  | ret (b : Activation) (below : List Activation) : v.below = b :: below →
    Becomes p v rest .ret { v with top := b, below }

/-- The turn goes on with the view `v`. -/
def Turn.GoesOn (t : Turn D) (v : View D) : Prop := t = .next v ∨ t = .skip v

theorem Turn.GoesOn.of_ite {c : Prop} [Decidable c] {t t' : Turn D} {v : View D}
    (h : (if c then t else t').GoesOn v) : t.GoesOn v ∨ t'.GoesOn v := by
  split at h
  · exact .inl h
  · exact .inr h

theorem View.Becomes.of_turn [Device D] {p : Program} {roof : Int} {stale : Nat → Word}
    {v v' : View D} {op : Op} {rest : List Op} (hc : v.top.code = op :: rest)
    (ht : (v.turn p roof stale).GoesOn v') : View.Becomes p v rest op v' := by
  have hfault (e : Fault) (h : (Turn.fault e : Turn D).GoesOn v') : View.Becomes p v rest op v' := by
    rcases h with h | h <;> cases h
  have hastray (h : (Turn.astray : Turn D).GoesOn v') : View.Becomes p v rest op v' := by
    rcases h with h | h <;> cases h
  have hnext (u : View D) (hu : View.Becomes p v rest op u) (h : (Turn.next u).GoesOn v') :
      View.Becomes p v rest op v' := by
    rcases h with h | h <;> cases h
    exact hu
  rw [View.turn_cons hc] at ht
  cases op with
  | tag name =>
    rcases ht with ht | ht <;> cases ht
    exact .tag name
  | load x indirect =>
    cases indirect with
    | false => exact hnext _ (.load x false _ _) ht
    | true => exact ht.of_ite.elim (hnext _ (.load x true _ _)) hastray
  | store x indirect =>
    cases indirect with
    | false =>
      cases x with
      | cell tag => exact hnext _ (.storeCell tag _) ht
      | slot n => exact ht.of_ite.elim (hnext _ (.storeSlot n)) (hfault _)
    | true => exact ht.of_ite.elim (hnext _ (.storeDevice x _)) hastray
  | yield =>
    simp only [View.exec] at ht
    split at ht
    · exact hastray ht
    · next b below hb => exact hnext _ (.yield b below hb) ht
  | unary operator => exact hnext _ (.unary operator _) ht
  | binary operator => exact hnext _ (.binary operator _) ht
  | swap => exact hnext _ (.swap _ _) ht
  | branch name => exact ht.of_ite.elim (hnext _ (.fall name)) (hnext _ (.branch name))
  | jump name => exact hnext _ (.jump name) ht
  | stop => rcases ht with ht | ht <;> cases ht
  | call name =>
    simp only [View.exec, View.call] at ht
    split at ht
    · exact hastray ht
    · next r hr => exact ht.of_ite.elim (hfault _) (hnext _ (.call name r hr))
  | ret =>
    simp only [View.exec] at ht
    split at ht
    · exact hastray ht
    · next b below hb => exact hnext _ (.ret b below hb) ht

/-! ## Known slots -/

/-- What the topmost activation knows. -/
def View.knows (v : View D) : Spot → Prop
  | .slot n => v.top.slots n ≠ none
  | .caller => ∃ b below, v.below = b :: below ∧ b.slots b.routine.frame.returnSlot ≠ none

/-- What a caller knows once the called routine is back. -/
def Activation.awaits (a : Activation) : Spot → Prop
  | .slot n => n = a.routine.frame.returnSlot ∨ a.slots n ≠ none
  | .caller => False

/-- The number of parameters of a routine. -/
def Program.arity (p : Program) (name : String) : Nat := (p.find? name).elim 0 Routine.arity

/-- The routines of the program flow, each with the needs of its own tags. -/
def Program.Flows (p : Program) (need : Routine → String → Nat) : Prop :=
  ∀ r, p.Has r → Op.Flows r.frame p.arity (need r) (fun _ => False) r.code

theorem IsCompiled.flows {items : List Item} {pool : SymbolPool} {p : Program} {env : Resources}
    {words : List Word} (hc : IsCompiled items pool p env) (hf : p.Fits words) :
    ∃ need, p.Flows need := by
  have harity : env.Counts p.arity := by
    intro name count h
    obtain ⟨-, -, r, hr, -, -, hn, ha⟩ := hc.routine_of_lookup h
    unfold Program.arity
    rw [hf.find?_eq hr hn]
    exact ha
  have hall (r : Routine) :
      ∃ need, p.Has r → Op.Flows r.frame p.arity need (fun _ => False) r.code := by
    by_cases hr : r ∈ p.routines
    · obtain ⟨f, -, hfr⟩ := hc.function_of_mem hr
      obtain ⟨need, hneed⟩ := hfr.flows harity (hf.nodup_code hr)
      exact ⟨need, fun _ => hneed⟩
    · refine ⟨fun _ => 0, ?_⟩
      rintro (rfl | h)
      · exact Routine.boot_flows (harity _ _ hc.entry)
      · exact absurd h hr
  choose need hneed using hall
  exact ⟨need, hneed⟩

/-- Every activation knows what its remaining code loads. -/
structure View.Flows (p : Program) (need : Routine → String → Nat) (v : View D) : Prop where
  top : Op.Flows v.top.routine.frame p.arity (need v.top.routine) v.knows v.top.code
  below : ∀ b ∈ v.below, Op.Flows b.routine.frame p.arity (need b.routine) b.awaits b.code

namespace View.Flows

section
variable {p : Program} {need : Routine → String → Nat} {v : View D} {op : Op} {rest : List Op}

theorem start (hneed : p.Flows need) (device : D) : (View.start p device).Flows p need :=
  ⟨(hneed _ (.inl rfl)).mono fun _ => False.elim, fun _ hb => nomatch hb⟩

/-- Code that is jumped to flows if what its tag needs is known. -/
theorem target (hneed : p.Flows need) {a : Activation} (hr : p.Has a.routine) {name : String}
    (hmem : .tag name ∈ a.routine.code) {known : Spot → Prop}
    (hk : ∀ s, a.routine.frame.upTo (need a.routine name) s → known s) :
    Op.Flows a.routine.frame p.arity (need a.routine) known (a.target name) := by
  obtain ⟨rest, hrest⟩ := Program.Fits.dropWhile_ne_of_mem hmem
  have hsuffix : a.target name <:+ a.routine.code := List.dropWhile_suffix _
  unfold Activation.target at hsuffix ⊢
  rw [hrest] at hsuffix ⊢
  exact ⟨hk, (hneed _ hr).of_suffix hsuffix⟩

/-- Only the topmost activation and what is in the registers and outside has changed. -/
theorem of_top {v' : View D} (h : v.Flows p need) (hb : v'.below = v.below)
    (hr : v'.top.routine = v.top.routine) {known : Spot → Prop} (hk : ∀ s, known s → v'.knows s)
    (hf : Op.Flows v.top.routine.frame p.arity (need v.top.routine) known v'.top.code) :
    v'.Flows p need :=
  ⟨by rw [hr]; exact hf.mono hk, by rw [hb]; exact h.below⟩

/-- What the topmost activation knows depends on its slots and on its caller. -/
theorem knows_of_eq {v' : View D} (hb : v'.below = v.below) (hs : v'.top.slots = v.top.slots)
    (s : Spot) (h : v.knows s) : v'.knows s := by
  cases s with
  | slot n =>
    show v'.top.slots n ≠ none
    rw [hs]
    exact h
  | caller =>
    show ∃ b below, v'.below = b :: below ∧ _
    rw [hb]
    exact h

theorem knows_put {n : Nat} {w : Word} {code : List Op} (s : Spot)
    (h : Spot.add v.knows (.slot n) s) :
    ({ v with top := (v.top.goto code).put n w } : View D).knows s := by
  rcases h with rfl | h
  · show (Activation.put _ n w).slots n ≠ none
    rw [Activation.slots_put_self]
    exact Option.some_ne_none w
  · cases s with
    | caller => exact h
    | slot k =>
      show (Activation.put _ n w).slots k ≠ none
      by_cases hk : k = n
      · rw [hk, Activation.slots_put_self]
        exact Option.some_ne_none w
      · rw [Activation.slots_put_of_ne _ hk]
        exact h

/-- The called routine has given its value, which its caller then knows. -/
theorem of_yield {b : Activation} {below : List Activation} (h : v.Flows p need)
    (hb : v.below = b :: below)
    (hf : Op.Flows v.top.routine.frame p.arity (need v.top.routine) (Spot.add v.knows .caller) rest) :
    ({ v with top := v.top.goto rest, below := b.put b.routine.frame.returnSlot v.left :: below } :
      View D).Flows p need := by
  have hbelow := h.below
  rw [hb, List.forall_mem_cons] at hbelow
  refine ⟨hf.mono ?_, List.forall_mem_cons.mpr ⟨hbelow.1.mono ?_, hbelow.2⟩⟩
  · rintro s (rfl | hs)
    · exact ⟨_, _, rfl, by simp⟩
    · cases s with
      | slot n => exact hs
      | caller => exact ⟨_, _, rfl, by simp⟩
  · intro s hs
    cases s with
    | caller => exact hs
    | slot n =>
      by_cases hn : n = b.routine.frame.returnSlot
      · exact .inl hn
      · refine .inr ?_
        rw [Activation.slots_put_of_ne _ hn]
        exact hs.resolve_left hn

/-- A routine has been called. -/
theorem of_call {r : Routine} (h : v.Flows p need) (hneed : p.Flows need) (hr : r ∈ p.routines)
    (hf : Op.Flows v.top.routine.frame p.arity (need v.top.routine)
      (v.top.routine.frame.behindCall v.knows) rest) :
    ({ v with top := v.top.enter r, below := (v.top.goto rest).forget :: v.below } :
      View D).Flows p need := by
  refine ⟨(hneed r (.inr hr)).mono fun _ => False.elim,
    List.forall_mem_cons.mpr ⟨hf.mono fun s hs => ?_, h.below⟩⟩
  cases s with
  | caller => exact hs
  | slot n =>
    rcases hs with hs | ⟨hlt, hs⟩
    · exact .inl hs
    · refine .inr ?_
      show (if n < v.top.routine.frame.returnSlot then v.top.slots n else none) ≠ none
      rw [if_pos hlt]
      exact hs

/-- The called routine is back. -/
theorem of_ret {b : Activation} {below : List Activation} (h : v.Flows p need)
    (hb : v.below = b :: below) (hk : v.knows .caller) :
    ({ v with top := b, below } : View D).Flows p need := by
  have hbelow := h.below
  rw [hb, List.forall_mem_cons] at hbelow
  obtain ⟨b', below', hb', hslot⟩ := hk
  rw [hb] at hb'
  cases hb'
  refine ⟨hbelow.1.mono fun s hs => ?_, hbelow.2⟩
  cases s with
  | caller => exact hs.elim
  | slot n =>
    rcases hs with rfl | hs
    · exact hslot
    · exact hs

/-- An operation keeps that every activation knows what its code loads. -/
theorem becomes {v' : View D} (hw : p.WellFormed) (hneed : p.Flows need) (hs : v.top.Sits p)
    (h : v.Flows p need) (hc : v.top.code = op :: rest) (hv : View.Becomes p v rest op v') :
    v'.Flows p need := by
  have hf := h.top
  have ha := hw.allowed _ hs.has hs.small op (Represents.mem_code hs hc)
  rw [hc] at hf
  cases hv with
  | tag name => exact h.of_top rfl rfl (fun s hs => hf.1 s hs) hf.2
  | load x indirect left device =>
    cases x with
    | cell tag => exact h.of_top rfl rfl (knows_of_eq rfl rfl) hf
    | slot n => exact h.of_top rfl rfl (knows_of_eq rfl rfl) hf.2
  | storeCell tag data => exact h.of_top rfl rfl (knows_of_eq rfl rfl) hf
  | storeSlot n => exact h.of_top rfl rfl knows_put hf
  | storeDevice x device =>
    cases x with
    | cell tag => exact h.of_top rfl rfl (knows_of_eq rfl rfl) hf
    | slot n => exact h.of_top rfl rfl (knows_of_eq rfl rfl) hf.2
  | yield b below hb => exact h.of_yield hb hf
  | unary operator left | binary operator left | swap left right =>
    exact h.of_top rfl rfl (knows_of_eq rfl rfl) hf
  | fall name => exact h.of_top rfl rfl (knows_of_eq rfl rfl) hf.2
  | branch name | jump name =>
    exact h.of_top rfl rfl (knows_of_eq rfl rfl) (target hneed hs.has ha hf.1)
  | call name r hr => exact h.of_call hneed (List.mem_of_find?_eq_some hr) hf.2
  | ret b below hb => exact h.of_ret hb hf.1

end

end View.Flows

end WordLisp

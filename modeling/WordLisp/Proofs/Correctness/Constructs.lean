import WordLisp.Proofs.Correctness.Carries

/-!
# The code of conditionals, loops, operators and calls

For each kind of expression that has parts, the code around the parts carries a store on, provided
that the code of the parts does. The parts are arbitrary rows of operations here.
-/

namespace WordLisp

section
variable [Device D] {p : Program} {roof : Int} {r : Routine} {base slot : Nat} {s s₁ s₂ s' : Store D}

/-! ## Conditionals and loops -/

section
variable (hn : (Listing.tagNames (Op.listing r.code)).Nodup)
include hn

theorem carries_cond {test no yes : List Op} {thenTag endTag : String}
    (htest : Carries p roof r slot base test s s₁)
    (hno : s₁.value = 0 → Carries p roof r slot base no s₁ s')
    (hyes : s₁.value ≠ 0 → Carries p roof r slot base yes s₁ s') :
    Carries p roof r slot base
      (test ++ .branch thenTag ::
        (no ++ .jump endTag :: .tag thenTag :: (yes ++ [.tag endTag]))) s s' := by
  intro v rest hbase hst hm
  simp only [List.append_assoc, List.cons_append, List.nil_append] at hst
  have hthen : .tag thenTag :: (yes ++ .tag endTag :: rest) <:+ r.code := by
    refine .trans ?_ hst.suffix
    exact ((List.suffix_cons _ _).trans ((List.suffix_append no _).trans
      (List.suffix_cons _ _))).trans (List.suffix_append test _)
  have hend : .tag endTag :: rest <:+ r.code :=
    ((List.suffix_append yes _).trans (List.suffix_cons _ _)).trans hthen
  have h := (Arrives.refl hst hm).carry hbase htest
  by_cases h0 : s₁.value = 0
  · exact (((h.fall h0).carry hbase (hno h0)).jump hn hend).tag
  · exact ((h.branch hn hthen h0).tag.carry hbase (hyes h0)).tag

/-- A loop whose test fails ends, and another one begins again behind its body. -/
theorem carries_loop {test body : List Op} {top bodyTag exitTag : String}
    (htest : Carries p roof r slot base test s s₁) (hexit : s₁.value = 0 → s' = s₁)
    (hagain : s₁.value ≠ 0 → ∃ s₂, Carries p roof r slot base body s₁ s₂ ∧
      Carries p roof r slot base (.tag top :: (test ++ .branch bodyTag :: .jump exitTag ::
        .tag bodyTag :: (body ++ [.jump top, .tag exitTag]))) s₂ s') :
    Carries p roof r slot base (.tag top :: (test ++ .branch bodyTag :: .jump exitTag ::
      .tag bodyTag :: (body ++ [.jump top, .tag exitTag]))) s s' := by
  intro v rest hbase hst hm
  simp only [List.append_assoc, List.cons_append, List.nil_append] at hst hagain
  have hbody : .tag bodyTag :: (body ++ .jump top :: .tag exitTag :: rest) <:+ r.code := by
    refine .trans ?_ hst.tail
    exact ((List.suffix_cons _ _).trans (List.suffix_cons _ _)).trans (List.suffix_append test _)
  have hend : .tag exitTag :: rest <:+ r.code :=
    ((List.suffix_cons _ _).trans ((List.suffix_append body _).trans (List.suffix_cons _ _))).trans
      hbody
  have h := (Arrives.refl hst hm).tag.carry hbase htest
  by_cases h0 : s₁.value = 0
  · rw [hexit h0]
    exact ((h.fall h0).jump hn hend).tag
  · obtain ⟨s₂, hb, hl⟩ := hagain h0
    have h := ((h.branch hn hbody h0).tag.carry hbase hb).jump hn hst.suffix
    exact Arrives.carry (by simpa using h) hbase hl

end

/-! ## Operators -/

/-- A value is put into an intermediate slot. -/
theorem Arrives.keep {v₀ : View D} {rest : List Op}
    (h : Arrives p roof r slot v₀ (.store (.slot slot) false :: rest) s)
    (htemp : r.frame.tempStart ≤ slot) (hlt : (v₀.top.base + slot : Int) < roof) :
    ∃ v, v₀.Reaches p roof v ∧ Stands r rest v ∧ Mirrors p r.frame s v ∧
      KeepsBelow r.frame slot v₀ v ∧ v.top.slots slot = some s.value := by
  obtain ⟨v, hr, hst, hm, hk⟩ := h
  refine ⟨_, hr.trans (.single fun _ => View.turn_put hst.code (by rwa [hk.base])),
    ⟨hst.routine, rfl, hst.tail⟩, ⟨hm.value, hm.device, hm.globals, hm.constants, ?_⟩,
    ⟨hk.base, hk.below, ?_⟩, ?_⟩
  · intro name n w hn hw
    obtain ⟨-, hlt⟩ := Frame.slot?_le hn
    exact (Activation.slots_put_of_ne _ (by omega) _).trans (hm.locals name n w hn hw)
  · intro n h1 h2
    exact (Activation.slots_put_of_ne _ (by omega) _).trans (hk.slots n h1 h2)
  · rw [← hm.value]
    exact Activation.slots_put_self _ _ _

theorem carries_binary {left right : List Op} {operator : BinaryOp}
    (htemp : r.frame.tempStart ≤ slot) (hlt : (base + slot : Int) < roof)
    (hleft : Carries p roof r slot base left s s₁)
    (hright : Carries p roof r (slot + 1) base right s₁ s₂) :
    Carries p roof r slot base
      (left ++ .store (.slot slot) false ::
        (right ++ [.swap, .load (.slot slot) false, .binary operator]))
      s { s₂ with value := operator.apply s₁.value s₂.value } := by
  intro v rest hbase hst hm
  simp only [List.append_assoc, List.cons_append, List.nil_append] at hst
  obtain ⟨v₁, hr₁, hst₁, hm₁, hk₁, hslot⟩ :=
    ((Arrives.refl hst hm).carry hbase hleft).keep htemp (by rwa [hbase])
  obtain ⟨v₂, hr₂, hst₂, hm₂, hk₂⟩ := hright v₁ _ (hk₁.base.trans hbase) hst₁ hm₁
  have hslot : v₂.top.slots slot = some s₁.value :=
    (hk₂.slots slot htemp (Nat.lt_succ_self _)).trans hslot
  have hk := hk₁.trans (hk₂.mono (Nat.le_succ slot))
  -- the left operand comes back from its slot while the right one waits in the other register
  have h₃ : v₂.Reaches p roof { v₂ with
      left := s₁.value
      right := s₂.value
      top := v₂.top.goto (.binary operator :: rest) } := by
    refine .next (fun _ => View.turn_cons hst₂.code) (.single fun stale => ?_)
    rw [View.turn_cons rfl, ← hm₂.value]
    simp [View.exec, View.load, View.value, hslot, Activation.goto]
  have h₄ : v₂.Reaches p roof { v₂ with
      left := operator.apply s₁.value s₂.value
      right := s₂.value
      top := v₂.top.goto rest } := h₃.trans (.single fun _ => rfl)
  exact ⟨_, hr₁.trans (hr₂.trans h₄),
    ⟨hst₂.routine, rfl, ((List.suffix_cons _ _).trans (List.suffix_cons _ _)).trans hst₂.tail⟩,
    ⟨rfl, hm₂.device, hm₂.globals, hm₂.constants, hm₂.locals⟩, ⟨hk.base, hk.below, hk.slots⟩⟩

/-! ## Calls -/

variable {values : List Word}

/-- Like `Carries`, and the values are in the slots from `slot` on. -/
def Stages (p : Program) (roof : Int) (r : Routine) (slot base : Nat) (code : List Op)
    (s s' : Store D) (values : List Word) : Prop :=
  ∀ (v : View D) (rest : List Op), v.top.base = base → Stands r (code ++ rest) v →
    Mirrors p r.frame s v →
    ∃ v', v.Reaches p roof v' ∧ Stands r rest v' ∧ Mirrors p r.frame s' v' ∧
      KeepsBelow r.frame slot v v' ∧
      ∀ i w, values[i]? = some w → v'.top.slots (slot + i) = some w

theorem stages_nil : Stages p roof r slot base [] s s [] :=
  fun v _ _ hst hm => ⟨v, .refl v, hst, hm, .refl _ _ _, by simp⟩

theorem stages_cons {code codes : List Op} (htemp : r.frame.tempStart ≤ slot)
    (hlt : (base + slot : Int) < roof) (hcode : Carries p roof r slot base code s s₁)
    (hcodes : Stages p roof r (slot + 1) base codes s₁ s' values) :
    Stages p roof r slot base (code ++ .store (.slot slot) false :: codes) s s'
      (s₁.value :: values) := by
  intro v rest hbase hst hm
  simp only [List.append_assoc, List.cons_append] at hst
  obtain ⟨v₁, hr₁, hst₁, hm₁, hk₁, hslot⟩ :=
    ((Arrives.refl hst hm).carry hbase hcode).keep htemp (by rwa [hbase])
  obtain ⟨v₂, hr₂, hst₂, hm₂, hk₂, hvs⟩ := hcodes v₁ rest (hk₁.base.trans hbase) hst₁ hm₁
  refine ⟨v₂, hr₁.trans hr₂, hst₂, hm₂, hk₁.trans (hk₂.mono (Nat.le_succ slot)), ?_⟩
  intro i w hi
  cases i with
  | zero =>
    cases hi
    exact (hk₂.slots slot htemp (Nat.lt_succ_self _)).trans hslot
  | succ i =>
    rw [show slot + (i + 1) = slot + 1 + i by omega]
    exact hvs i w hi

/-- What passing arguments leaves as it is. -/
structure Passed (target : Nat) (v v' : View D) : Prop where
  base : v'.top.base = v.top.base
  below : v'.below = v.below
  data : v'.data = v.data
  device : v'.device = v.device
  slots : ∀ n < target, v'.top.slots n = v.top.slots n

/-- The values move to the slots from `target` on, and the last one stays in the register. -/
theorem reaches_pass {target count : Nat} {rest : List Op} {v : View D} (hcount : count ≤ values.length)
    (hapart : slot + count ≤ target) (hlt : (v.top.base + (target + count) : Int) ≤ roof)
    (hst : Stands r (passCode slot target count ++ rest) v)
    (hvs : ∀ i w, values[i]? = some w → v.top.slots (slot + i) = some w) :
    ∃ v', v.Reaches p roof v' ∧ Stands r rest v' ∧ Passed target v v' ∧
      v'.left = (values.take count).getLast?.getD v.left ∧
      ∀ i w, i < count → values[i]? = some w → v'.top.slots (target + i) = some w := by
  induction count generalizing rest with
  | zero => exact ⟨v, .refl v, hst, ⟨rfl, rfl, rfl, rfl, fun _ _ => rfl⟩, rfl, by simp⟩
  | succ count ih =>
    rw [passCode, List.append_assoc] at hst
    obtain ⟨v₁, hr₁, hst₁, hp₁, -, hvs₁⟩ := ih (by omega) (by omega) (by omega) hst
    have hget : values[count]? = some values[count] := List.getElem?_eq_getElem (by omega)
    have hload : v₁.top.slots (slot + count) = some values[count] :=
      (hp₁.slots _ (by omega)).trans (hvs count _ hget)
    have h₂ : v₁.Reaches p roof { v₁ with
        left := values[count]
        top := v₁.top.goto (.store (.slot (target + count)) false :: rest) } := by
      refine .single fun stale => ?_
      rw [View.turn_cons hst₁.code]
      simp [View.exec, View.load, View.value, hload]
    have h₃ := h₂.trans (.single fun _ => View.turn_put rfl (by
      show (v₁.top.base + (target + count : Nat) : Int) < roof
      rw [hp₁.base]
      omega))
    refine ⟨_, hr₁.trans h₃, ⟨hst₁.routine, rfl, (List.suffix_cons _ _).trans hst₁.tail⟩,
      ⟨hp₁.base, hp₁.below, hp₁.data, hp₁.device, ?_⟩, ?_, ?_⟩
    · intro n hn
      exact (Activation.slots_put_of_ne _ (by omega) _).trans (hp₁.slots n hn)
    · rw [List.take_add_one, hget, Option.toList_some, List.getLast?_concat, Option.getD_some]
    · intro i w hi hw
      by_cases he : i = count
      · subst he
        rw [hget] at hw
        cases hw
        exact Activation.slots_put_self _ _ _
      · exact (Activation.slots_put_of_ne _ (by omega) _).trans (hvs₁ i w (by omega) hw)

omit [Device D] in
/-- Arguments are passed above the variables, and the last of them is the value of the state. -/
theorem Passed.mirrors {target : Nat} {v v' : View D} (hp : Passed target v v')
    (hm : Mirrors p r.frame s v) (htarget : r.frame.tempStart ≤ target)
    (hleft : v'.left = values.getLast?.getD v.left)
    (hlast : ∀ w, values.getLast? = some w → w = s.value) : Mirrors p r.frame s v' := by
  refine ⟨?_, hp.device.trans hm.device, hp.data ▸ hm.globals, hp.data ▸ hm.constants, ?_⟩
  · rw [hleft, hm.value]
    cases hl : values.getLast? with
    | none => rfl
    | some w => exact hlast w hl
  · intro x n w hn hw
    obtain ⟨-, hlt⟩ := Frame.slot?_le hn
    exact (hp.slots n (by omega)).trans (hm.locals x n w hn hw)

theorem lookup_zip {keys : List String} {name : String} {w : Word}
    (h : (keys.zip values).lookup name = some w) :
    ∃ i, keys.idxOf? name = some i ∧ values[i]? = some w := by
  induction keys generalizing values with
  | nil => cases h
  | cons key keys ih =>
    cases values with
    | nil => cases h
    | cons value values =>
      rw [List.zip_cons_cons, List.lookup_cons] at h
      rw [List.idxOf?_cons]
      by_cases he : name = key
      · subst he
        simp at h
        exact ⟨0, by simp, by simp [h]⟩
      · rw [show (name == key) = false by simpa using he] at h
        obtain ⟨i, hi, hw⟩ := ih h
        refine ⟨i + 1, ?_, by simpa using hw⟩
        rw [if_neg (by simpa using Ne.symm he), hi]
        rfl

omit [Device D] in
/-- A called function finds its arguments in the slots of its parameters. -/
theorem mirrors_enter {f : Function} {v : View D} {callee : Routine} (hm : Mirrors p r.frame s v)
    (hroutine : v.top.routine = r) (hnames : callee.frame.names = f.scope)
    (harity : callee.arity = f.parameters.length) (below : List Activation)
    (hvs : ∀ i w, values[i]? = some w → v.top.slots (r.frame.size + 1 + i) = some w) :
    Mirrors p callee.frame (s.enter f values) { v with top := v.top.enter callee, below } := by
  refine ⟨hm.value, hm.device, hm.globals, hm.constants, ?_⟩
  intro name n w hn hw
  obtain ⟨i, hi, hiw⟩ := lookup_zip (show (f.parameters.zip values).lookup name = some w from hw)
  have hlt : i < f.parameters.length := (List.findIdx?_eq_some_iff_getElem.mp hi).1
  have hin : n = i + 1 := by
    unfold Frame.slot? List.idxOf? at hn
    rw [hnames, Function.scope, List.findIdx?_append, show List.findIdx? _ f.parameters = _ from hi]
      at hn
    cases hn
    rfl
  show (if 1 ≤ n ∧ n ≤ callee.arity then v.top.slots (v.top.routine.frame.size + n) else none) = _
  rw [if_pos (by omega), hroutine, hin, show r.frame.size + (i + 1) = r.frame.size + 1 + i by omega]
  exact hvs i w hiw

/-- A function that ends hands its value to the caller. -/
theorem reaches_return {callee : Routine} {v : View D} {a : Activation} {below : List Activation}
    (hst : Stands callee [.yield, .ret] v) (hbelow : v.below = a :: below) :
    v.Reaches p roof { v with top := a.put a.routine.frame.returnSlot v.left, below := below } := by
  have h₁ : v.Reaches p roof { v with
      top := v.top.goto [.ret]
      below := a.put a.routine.frame.returnSlot v.left :: below } := by
    refine .single fun _ => ?_
    rw [View.turn_cons hst.code]
    simp only [View.exec, hbelow]
  exact h₁.trans (.single fun _ => rfl)

/-- The caller takes the value out of its return slot. -/
theorem reaches_result {callee : Routine} {v : View D} {a : Activation} {below : List Activation}
    {rest : List Op} (hst : Stands callee [.yield, .ret] v) (hbelow : v.below = a :: below)
    (hcode : a.code = .load (.slot a.routine.frame.returnSlot) false :: rest) :
    v.Reaches p roof { v with
      top := (a.put a.routine.frame.returnSlot v.left).goto rest
      below := below } := by
  refine (reaches_return hst hbelow).trans (.single fun _ => ?_)
  have hcode : (a.put a.routine.frame.returnSlot v.left).code = _ := hcode
  rw [View.turn_cons hcode]
  simp [View.exec, View.load, View.value]

/-- A call runs the body of the function in a frame above that of the caller, and the caller gets
the last value there. -/
theorem carries_call {args body : List Op} {name : String} {f : Function} {callee : Routine}
    (hfind : p.find? name = some callee) (hnames : callee.frame.names = f.scope)
    (harity : callee.arity = f.parameters.length) (hcode : callee.code = body ++ [.yield, .ret])
    (hslot : r.frame.tempStart ≤ slot) (hsmall : slot + values.length ≤ r.frame.returnSlot)
    (hroom : (base + r.frame.size + callee.frame.size : Int) ≤ roof)
    (harea : (base + (r.frame.size + 1 + values.length) : Int) ≤ roof)
    (hlast : ∀ w, values.getLast? = some w → w = s₁.value)
    (hargs : Stages p roof r slot base args s s₁ values)
    (hbody : Carries p roof callee callee.frame.tempStart (base + r.frame.size) body
      (s₁.enter f values) s₂) :
    Carries p roof r slot base
      (args ++ (passCode slot (r.frame.size + 1) values.length ++
        [.call name, .load (.slot r.frame.returnSlot) false]))
      s (s₁.leave f s₂) := by
  intro v rest hbase hst hm
  have hsize : r.frame.size = r.frame.returnSlot + 2 := rfl
  simp only [List.append_assoc, List.cons_append, List.nil_append] at hst
  obtain ⟨v₁, hr₁, hst₁, hm₁, hk₁, hvs₁⟩ := hargs v _ hbase hst hm
  have harea : (v₁.top.base + ((r.frame.size + 1 : Nat) + values.length) : Int) ≤ roof := by
    rw [hk₁.base, hbase]
    exact_mod_cast harea
  obtain ⟨v₂, hr₂, hst₂, hp₂, hleft, hvs₂⟩ :=
    reaches_pass (p := p) le_rfl (by omega) harea hst₁ hvs₁
  have hbase₂ : v₂.top.base = base := hp₂.base.trans (hk₁.base.trans hbase)
  have htop : v₂.top.top = base + r.frame.size := by
    unfold Activation.top
    rw [hbase₂, hst₂.routine]
  have hm₂ : Mirrors p r.frame s₁ v₂ :=
    hp₂.mirrors hm₁ (by omega) (by rwa [List.take_length] at hleft) hlast
  -- the frame of the callee
  have hr₃ : v₂.Reaches p roof { v₂ with
      top := v₂.top.enter callee
      below := (v₂.top.goto (.load (.slot r.frame.returnSlot) false :: rest)).forget :: v₂.below } := by
    refine .single fun _ => View.turn_call hst₂.code hfind ?_ ?_
    · have : 0 < callee.frame.size := Nat.succ_pos _
      rw [htop]; push_cast; omega
    · rw [htop]; push_cast; exact hroom
  have hm₃ := mirrors_enter hm₂ hst₂.routine hnames harity
    ((v₂.top.goto (.load (.slot r.frame.returnSlot) false :: rest)).forget :: v₂.below)
    (fun i w hw => hvs₂ i w (List.getElem?_eq_some_iff.mp hw).1 hw)
  obtain ⟨v₄, hr₄, hst₄, hm₄, hk₄⟩ := hbody _ [.yield, .ret] htop
    ⟨rfl, hcode, by rw [hcode]⟩ hm₃
  have hr₅ : v₄.Reaches p roof _ := reaches_result hst₄ hk₄.below
    (show _ = Op.load (.slot v₂.top.routine.frame.returnSlot) false :: rest by rw [hst₂.routine]; rfl)
  -- the caller finds its own slots as they were
  have hslots : ∀ n, n < r.frame.returnSlot → ((((v₂.top.goto
      (.load (.slot r.frame.returnSlot) false :: rest)).forget).put
        v₂.top.routine.frame.returnSlot v₄.left).goto rest).slots n = v₁.top.slots n := by
    intro n hn
    rw [Activation.slots_goto, hst₂.routine, Activation.slots_put_of_ne _ (by omega),
      ← hp₂.slots n (by omega)]
    exact Activation.slots_forget_of_lt (by rw [Activation.routine_goto, hst₂.routine]; exact hn)
  refine ⟨_, hr₁.trans (hr₂.trans (hr₃.trans (hr₄.trans hr₅))), ⟨hst₂.routine, rfl, ?_⟩,
    ⟨hm₄.value, hm₄.device, hm₄.globals, hm₄.constants, ?_⟩, hbase₂.trans hbase.symm,
    hp₂.below.trans hk₁.below, ?_⟩
  · exact (List.suffix_cons _ _).trans hst₂.tail
  · intro x n w hn hw
    obtain ⟨-, hlt⟩ := Frame.slot?_le hn
    exact (hslots n (by omega)).trans (hm₁.locals x n w hn hw)
  · intro n h1 h2
    exact (hslots n (by omega)).trans (hk₁.slots n h1 h2)

end

end WordLisp

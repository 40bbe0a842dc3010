import WordLisp.Proofs.Machine.Runs
import WordLisp.Proofs.View.Represents

/-!
# Runs of views

`Reaches p roof v v'`: the view `v` becomes `v'` by turns that read nothing from slots that are not
known. A machine with the view `v` runs to one with the view `v'`. A machine that a program has
been loaded into has the view `View.start`.
-/

namespace WordLisp

open Machine

section
variable [Device D]

/-- Zero or more turns whose outcome does not depend on what the unknown slots hold. -/
inductive View.Reaches (p : Program) (roof : Int) : View D → View D → Prop where
  | refl (v : View D) : Reaches p roof v v
  | skip {v v₁ v₂ : View D} :
    (∀ stale, v.turn p roof stale = .skip v₁) → Reaches p roof v₁ v₂ → Reaches p roof v v₂
  | next {v v₁ v₂ : View D} :
    (∀ stale, v.turn p roof stale = .next v₁) → Reaches p roof v₁ v₂ → Reaches p roof v v₂

variable {p : Program} {words : List Word} {roof : Int}

theorem View.Reaches.trans {v₁ v₂ v₃ : View D} (h : Reaches p roof v₁ v₂)
    (h' : Reaches p roof v₂ v₃) : Reaches p roof v₁ v₃ := by
  induction h with
  | refl => exact h'
  | skip ht _ ih => exact .skip ht (ih h')
  | next ht _ ih => exact .next ht (ih h')

theorem View.Reaches.single {v v' : View D} (h : ∀ stale, v.turn p roof stale = .next v') :
    Reaches p roof v v' := .next h (.refl _)

theorem Represents.reaches (hw : p.WellFormed) (hf : p.Fits words) {v v' : View D} {m : Machine D}
    (h : Represents p words roof m v) (hr : v.Reaches p roof v') :
    ∃ m', Steps m m' ∧ Represents p words roof m' v' := by
  induction hr generalizing m with
  | refl => exact ⟨m, .refl m, h⟩
  | skip ht _ ih =>
    have ha := h.agrees_turn hw hf
    rw [ht] at ha
    exact ih ha
  | next ht _ ih =>
    have ha := h.agrees_turn hw hf
    rw [ht] at ha
    obtain ⟨m₁, hstep, h₁⟩ := ha
    obtain ⟨m', hs, h'⟩ := ih h₁
    exact ⟨m', .head hstep hs, h'⟩

/-- An instruction goes on or faults, unless it is the last one, or a pointer leads elsewhere than to
the device. -/
theorem Represents.turn_cases {m : Machine D} {v : View D} {op : Op} {rest : List Op}
    (hw : p.WellFormed) (hf : p.Fits words)
    (h : Represents p words roof m v) (hc : v.top.code = op :: rest)
    (htag : ∀ name, op ≠ .tag name) (hstop : op ≠ .stop) {stale : Nat → Word}
    (hp : ∀ x, op.Follows x → IsDeviceAddress (v.value stale x)) :
    (∃ v', v.turn p roof stale = .next v' ∧ ((∀ x, ¬ op.Follows x) → v'.device = v.device)) ∨
      ∃ e, v.turn p roof stale = .fault e := by
  have ha := hw.allowed _ h.sits.has h.sits.small op (Represents.mem_code h.sits hc)
  rw [View.turn_cons hc]
  cases op with
  | tag name => exact absurd rfl (htag name)
  | load x indirect =>
    cases indirect with
    | false => exact .inl ⟨_, rfl, fun _ => rfl⟩
    | true =>
      have hd : IsDeviceAddress (({ v with top := v.top.goto rest } : View D).value stale x) := by
        rw [View.value_goto]
        exact hp x (.inl rfl)
      exact .inl ⟨_, if_pos hd, fun hno => absurd (.inl rfl) (hno x)⟩
  | store x indirect =>
    cases indirect with
    | true =>
      have hd : IsDeviceAddress (({ v with top := v.top.goto rest } : View D).value stale x) := by
        rw [View.value_goto]
        exact hp x (.inr rfl)
      exact .inl ⟨_, if_pos hd, fun hno => absurd (.inr rfl) (hno x)⟩
    | false =>
      cases x with
      | cell tag => exact .inl ⟨_, rfl, fun _ => rfl⟩
      | slot n =>
        simp only [View.exec, View.store]
        split
        · exact .inl ⟨_, rfl, fun _ => rfl⟩
        · exact .inr ⟨_, rfl⟩
  | yield =>
    obtain ⟨b, below, hb, -⟩ := h.link_of_ne hc (by simp) (by simp)
    simp only [View.exec, hb]
    exact .inl ⟨_, rfl, fun _ => rfl⟩
  | ret =>
    obtain ⟨b, below, hb, -⟩ := h.link_of_ne hc (by simp) (by simp)
    simp only [View.exec, hb]
    exact .inl ⟨_, rfl, fun _ => rfl⟩
  | unary operator | binary operator | swap | jump tag => exact .inl ⟨_, rfl, fun _ => rfl⟩
  | branch tag =>
    simp only [View.exec]
    split <;> exact .inl ⟨_, rfl, fun _ => rfl⟩
  | stop => exact absurd rfl hstop
  | call name =>
    obtain ⟨r', hr', hn, -⟩ := ha
    simp only [View.exec, View.call, hf.find?_eq hr' hn]
    split
    · exact .inr ⟨_, rfl⟩
    · exact .inl ⟨_, rfl, fun _ => rfl⟩

end

/-! ## The start -/

theorem Program.Fits.nodup_data {p : Program} {words : List Word} (hf : p.Fits words) :
    (p.data.map Prod.fst).Nodup := by
  have hn := hf.nodup
  unfold Program.listing at hn
  rw [Listing.tagNames_append, Listing.tagNames_append, tagNames_dataListing] at hn
  exact (List.nodup_append.mp (List.nodup_append.mp hn).2.1).2.1

theorem Program.Fits.lookup_data {p : Program} {words : List Word} (hf : p.Fits words)
    {tag : String} {value : Word} (h : (tag, value) ∈ p.data) :
    p.data.lookup tag = some value :=
  Listing.lookup_of_mem hf.nodup_data h

theorem stackBase_eq : stackBase = cellAddress programCapacity := by decide

theorem stackBase_add : stackBase + entryFrameSize = cellAddress (programCapacity + 3) := by decide

theorem Program.position_start (p : Program) (device : D) :
    p.position (View.start p device).top = 0 := by
  show 0 + (Op.words Routine.boot.code - Op.words Routine.boot.code) = 0
  omega

theorem represents_start {p : Program} {words : List Word} (hf : p.Fits words) (m₀ : Machine D) :
    ∃ m, m₀.load words = .ok () m ∧ m.sliceSteps = m₀.sliceSteps ∧
      Represents p words m₀.memory.roof m (View.start p m₀.memory.device) := by
  obtain ⟨mem, hload, hroof, hdev, hcell⟩ := Memory.load_eq words hf.le m₀.memory
  refine ⟨{ m₀ with memory := mem, registers := {}, steps := 0 }, ?_, rfl, ?_⟩
  · unfold Machine.load
    simp only [bind, EStateM.bind, access, hload]
    rfl
  · have hsmall : Routine.boot.Small := by
      show 3 < 2 ^ 18
      omega
    refine ⟨?_, rfl, rfl, stackBase_eq, stackBase_add, hdev, hroof, fun k _ _ => hcell k, ?_,
      ⟨.inl rfl, hsmall, List.suffix_refl _, List.cons_ne_nil _ _⟩, ?_, ⟨rfl, rfl⟩⟩
    · rw [p.position_start]
      show programBase = cellAddress 0
      decide
    · intro tag htag
      obtain ⟨⟨tag, value⟩, hm, rfl⟩ := List.mem_map.mp htag
      obtain ⟨i, hi⟩ := List.mem_iff_getElem?.mp hm
      show mem.cell _ = (p.data.lookup tag).getD 0
      rw [hcell, List.getD_eq_getElem?_getD, (hf.place_data hi).2.2, hf.lookup_data hm]
    · intro n w h
      cases h

theorem length_le_of_load {words : List Word} {m m' : Machine D} (h : m.load words = .ok () m') :
    words.length ≤ programCapacity := by
  by_contra hgt
  have hload : Memory.load words m.memory = .error (.programTooLarge words.length) m.memory :=
    if_neg hgt
  unfold Machine.load at h
  simp only [bind, EStateM.bind, access, hload] at h
  cases h

theorem represents_of_load {p : Program} {words : List Word} (hf : p.Fits words) {m₀ m : Machine D}
    (h : m₀.load words = .ok () m) :
    m.sliceSteps = m₀.sliceSteps ∧
      Represents p words m₀.memory.roof m (View.start p m₀.memory.device) := by
  obtain ⟨m', hload, hm'⟩ := represents_start hf m₀
  rw [h] at hload
  cases hload
  exact hm'

end WordLisp

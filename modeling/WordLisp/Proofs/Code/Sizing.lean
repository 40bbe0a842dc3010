import WordLisp.Proofs.Code.Scoping
import WordLisp.Proofs.Code.Sites
import WordLisp.Proofs.Code.Slots

/-!
# The sizes of frames and the slots of code

The size of a frame comes from the count of intermediate values, `Expr.temporaries`, and the slots of
these values from the slot that each part of the generator hands on to the next.

Main statement: what a function addresses is permitted with the bounds of its frame, and each expression
within it stores into exactly as many slots for intermediate values as it was counted to need, from the
slot on that it is compiled at.
-/

namespace WordLisp

namespace Generator

/-! ## Calls -/

/-- One of the expressions is a call of a function with `n` parameters. -/
def Calls (g : Generator) (es : List Expr) (n : Nat) : Prop :=
  ∃ name arguments, .apply name arguments ∈ es ∧ g.functions.lookup name = some n

theorem calls_of_heeds {frame : Frame} {g : Generator} {es : List Expr}
    (h : ∀ part ∈ es, Heeds g.signature frame part) (name : String) (arguments : List Expr)
    (hm : .apply name arguments ∈ es) : g.Calls es arguments.length :=
  ⟨name, arguments, hm, h _ hm⟩

end Generator

/-! ## Measures -/

open Generator

/-- The offset is that of none of the cells that link a frame to those of its caller and of a called
function. -/
def Frame.SparesLinkage (frame : Frame) (offset : Int32) : Prop :=
  offset ≠ Int32.ofNat 0 ∧ offset ≠ Int32.ofNat (frame.size - 1) ∧ offset ≠ Int32.ofNat frame.size

/-- The code of an expression that is compiled at `slot` stores into as many slots from there on as the
expression was counted to need, and into no others that are for intermediate values. -/
structure Frame.Measures (frame : Frame) (passes : Nat → Prop) (slot : Nat) (e : Expr) (code : Listing) :
    Prop where
  confines : frame.Confines slot (slot + e.temporaries) passes code
  stores : ∀ s, slot ≤ s → s < slot + e.temporaries → .instruction (storeSlot s) ∈ code
  /-- Where all slots are different words, a store shows which slot it is for. -/
  stores_iff : frame.Numbered passes → ∀ s, frame.tempStart ≤ s → s < frame.size →
    (.instruction (storeSlot s) ∈ code ↔ slot ≤ s ∧ s < slot + e.temporaries)

section
variable {frame : Frame} {low high : Nat} {passes : Nat → Prop} {l : Listing}

theorem Frame.Confines.ne_neg_two (h : frame.Confines low high passes l) (hnum : frame.Numbered passes)
    (hhigh : high ≤ frame.returnSlot) (opcode : Opcode) : .instruction (.frame opcode (-2)) ∉ l := by
  intro hm
  obtain ⟨s, hs, hpermits⟩ := h _ _ hm
  exact ofNat_ne_neg_two (hpermits.lt hnum hhigh) hs.symm

theorem Frame.Confines.sparesLinkage (h : frame.Confines low high passes l) (hnum : frame.Numbered passes)
    (hlow : frame.tempStart ≤ low) (hhigh : high ≤ frame.returnSlot) {opcode : Opcode} {offset : Int32}
    (hm : .instruction (.frame opcode offset) ∈ l) : frame.SparesLinkage offset := by
  obtain ⟨s, rfl, hpermits⟩ := h _ _ hm
  obtain ⟨hzero, hreturn, hsize⟩ := hpermits.ne_linkage hlow hhigh
  have hlt := hpermits.lt hnum hhigh
  have hbound := hnum.size
  exact ⟨fun he => hzero (ofNat_inj hlt (by omega) he), fun he => hreturn (ofNat_inj hlt (by omega) he),
    fun he => hsize (ofNat_inj hlt hbound he)⟩

theorem Frame.Numbered.sparesLinkage_neg_two (hnum : frame.Numbered passes) :
    frame.SparesLinkage (-2) := by
  have hbound := hnum.size
  exact ⟨(ofNat_ne_neg_two (by omega)).symm, (ofNat_ne_neg_two (by omega)).symm,
    (ofNat_ne_neg_two hbound).symm⟩

theorem Frame.Confines.temporary_of_store (h : frame.Confines low high passes l)
    (hnum : frame.Numbered passes) (hhigh : high ≤ frame.returnSlot) {s : Nat}
    (hstart : frame.tempStart ≤ s) (hsize : s < frame.size) (hm : .instruction (storeSlot s) ∈ l) :
    low ≤ s ∧ s < high := by
  obtain ⟨k, hk, hpermits⟩ := h _ _ hm
  have hbound := hnum.size
  obtain rfl : s = k := ofNat_inj (by omega) (hpermits.lt hnum hhigh) hk
  exact hpermits.temporary hstart hsize

end

/-- Expressions are compiled into code that measures up to the count of their intermediate values. -/
theorem Generator.measures_expression {frame : Frame} {slot : Nat} {e : Expr} {g g' : Generator}
    {passes : Nat → Prop} (hpasses : ∀ n, g.Calls e.parts n → passes n)
    (hfits : slot + e.temporaries ≤ frame.returnSlot) (h : expression frame slot e g = .ok () g') :
    ∃ code, g'.code.toList = g.code.toList ++ code ∧ frame.Measures passes slot e code := by
  obtain ⟨hheeds, hcompletes⟩ := (compiles_expression g.signature frame slot g.nextTag e).ok rfl rfl h
  rw [← List.forall_mem_map (f := Prod.snd), Expr.map_snd_sites] at hheeds
  have hwithin := Expr.within_code frame slot g.nextTag (le_refl slot) e (le_refl _)
    fun name arguments hm => hpasses _ (calls_of_heeds hheeds name arguments hm)
  have hconfines := Op.confines_listing hwithin
  have hstores (s : Nat) (hle : slot ≤ s) (hlt : s < slot + e.temporaries) :
      .instruction (storeSlot s) ∈ Op.listing (e.code frame slot g.nextTag) :=
    List.mem_map.mpr ⟨_, Expr.store_mem_code frame slot g.nextTag hle e hlt, rfl⟩
  exact ⟨_, hcompletes.code, hconfines, hstores,
    fun hnum s hstart hsize => ⟨hconfines.temporary_of_store hnum hfits hstart hsize,
      fun hs => hstores s hs.1 hs.2⟩⟩

/-! ## Functions -/

/-- A function leaves its value in the return slot of its caller. -/
def Generator.epilogue : Listing :=
  [.instruction (.frame (.store .left .frame false) (-2)), .instruction (.nullary .ret)]

/-- The count of intermediate values, which frames are allocated by, agrees with the code. Up to its
epilogue, a function addresses variables, the intermediate values of its frame, the arguments of the
functions that it calls and their results, and it never addresses the cells that link frames. All
expressions within it are compiled at slots from which on there is room for what they were counted to
need, which is what their code stores into. -/
theorem slots_agree_with_count {f : Function} {frame : Frame} {g g' : Generator}
    (hframe : Frame.allocate f = .ok frame) (hrun : Generator.function f g = .ok () g') :
    ∃ body,
      g'.code.toList = g.code.toList ++
        .data (Int32.ofNat frame.size) :: .tag f.name :: (body ++ epilogue) ∧
      frame.Confines frame.tempStart frame.returnSlot (g.Calls (Expr.rowParts f.body)) body ∧
      (frame.Numbered (g.Calls (Expr.rowParts f.body)) →
        (∀ opcode, .instruction (.frame opcode (-2)) ∉ body) ∧
        ∀ opcode offset, .instruction (.frame opcode offset) ∈ body ++ epilogue →
          frame.SparesLinkage offset) ∧
      (Expr.rowSites frame.tempStart f.body).map Prod.snd = Expr.rowParts f.body ∧
      ∀ t e, (t, e) ∈ Expr.rowSites frame.tempStart f.body →
        t + e.temporaries ≤ frame.returnSlot ∧ Visited frame g g' t e ∧
        ∀ h h', h.functions = g.functions → expression frame t e h = .ok () h' →
          ∃ code, h'.code.toList = h.code.toList ++ code ∧
            frame.Measures (g.Calls (Expr.rowParts f.body)) t e code := by
  have htemporaries := (Frame.allocate_eq hframe).2
  obtain ⟨-, -, hheeds, -⟩ := completes_function hframe hrun
  have hfits : frame.tempStart + Expr.rowTemporaries f.body ≤ frame.returnSlot :=
    htemporaries ▸ le_refl _
  have hconfines := Op.confines_listing (Expr.within_rowCode frame frame.tempStart g.nextTag (le_refl _)
    f.body hfits (calls_of_heeds hheeds))
  refine ⟨_, ?_, hconfines, fun hnum => ⟨hconfines.ne_neg_two hnum (le_refl _), ?_⟩,
    Expr.map_snd_rowSites _ _, fun t e hsite => ?_⟩
  · rw [code_function hframe hrun, Function.code]
    simp only [Op.listing_cons, Op.listing_append]
    rfl
  · intro opcode offset hm
    rcases List.mem_append.mp hm with hm | hm
    · exact hconfines.sparesLinkage hnum (le_refl _) (le_refl _) hm
    · simp only [epilogue, List.mem_cons, List.not_mem_nil, or_false] at hm
      rcases hm with hm | hm
      · cases hm
        exact hnum.sparesLinkage_neg_two
      · cases hm
  · have hroom := (Expr.bounds_of_mem_rowSites frame.tempStart f.body hsite).2.trans hfits
    have hpart : e ∈ Expr.rowParts f.body :=
      Expr.map_snd_rowSites frame.tempStart f.body ▸ List.mem_map_of_mem hsite
    refine ⟨hroom, visited_function hframe hrun hsite, fun h h' hfunctions hx => ?_⟩
    refine measures_expression (fun n => ?_) hroom hx
    rintro ⟨name, arguments, hm, hlookup⟩
    exact ⟨name, arguments, Expr.parts_subset_of_mem_rowParts hpart hm, hfunctions ▸ hlookup⟩

/-- A call whose second argument is itself an operation. -/
def pairCall : Expr :=
  .apply "g" [.reference "a" false, .binary .add (.reference "a" false) (.reference "a" false)]

/-- A function that makes the call while it keeps an operand. -/
def callingFunction : Function := ⟨"f", ["a"], [.binary .add (.reference "a" false) pairCall]⟩

/-- Knows a function with two parameters. -/
def callingGenerator : Generator where
  functions := [("g", 2)]

/-- The operand is kept in slot two, so the call has the slots three and four. -/
theorem slots_agree_with_count_calling :
    ∃ frame g', Frame.allocate callingFunction = .ok frame ∧
      Generator.function callingFunction callingGenerator = .ok () g' ∧
      frame.tempStart = 2 ∧ frame.size = 7 ∧
      (∃ body, g'.code.toList = .data 7 :: .tag "f" :: (body ++ epilogue) ∧
        ∀ opcode offset, .instruction (.frame opcode offset) ∈ body ++ epilogue →
          frame.SparesLinkage offset) ∧
      ∃ h h' code, expression frame 3 pairCall h = .ok () h' ∧ h'.code.toList <+: g'.code.toList ∧
        h'.code.toList = h.code.toList ++ code ∧
        ∀ s, 2 ≤ s → s < 7 → (.instruction (storeSlot s) ∈ code ↔ s = 3 ∨ s = 4) := by
  have hframe : Frame.allocate callingFunction = .ok ⟨["a"], 3⟩ := by rfl
  obtain ⟨g', hrun⟩ : ∃ g', Generator.function callingFunction callingGenerator = .ok () g' :=
    ⟨_, rfl⟩
  obtain ⟨body, hcode, -, hlinkage, -, hsites⟩ := slots_agree_with_count hframe hrun
  have hnum : Frame.Numbered ⟨["a"], 3⟩ (callingGenerator.Calls (Expr.rowParts callingFunction.body)) := by
    refine ⟨by decide, ?_⟩
    rintro n ⟨name, arguments, -, hlookup⟩
    obtain rfl : 2 = n := by
      rw [callingGenerator, List.lookup_cons] at hlookup
      split at hlookup
      · exact Option.some.inj hlookup
      · cases hlookup
    decide
  have hsite : (3, pairCall) ∈ Expr.rowSites 2 callingFunction.body := by
    simp [callingFunction, Expr.rowSites, Expr.sites, pairCall]
  obtain ⟨-, ⟨h, h', hx, hfunctions, -, hpost⟩, hmeasures⟩ := hsites 3 pairCall hsite
  obtain ⟨code, happended, hm⟩ := hmeasures h h' hfunctions hx
  refine ⟨_, g', hframe, hrun, rfl, rfl, ⟨body, hcode, (hlinkage hnum).2⟩, h, h', code, hx, hpost,
    happended, fun s hs hlt => ?_⟩
  have htemporaries : pairCall.temporaries = 2 := by rfl
  rw [hm.stores_iff hnum s hs hlt, htemporaries]
  omega

end WordLisp

import WordLisp.Proofs.Code.Coherence
import WordLisp.Proofs.Listing.Printing

/-!
# Compiled programs are legible

The tags that the generator defines begin with a letter or an underscore, so that none of them reads
as a number, and the names that they are made of have only characters that tags may have. Together
with coherence this makes every record of a compiled listing legible.
-/

namespace WordLisp

/-! ## Tags -/

theorem isTagChar_of_isNameChar {c : Char} (h : isNameChar c) : isTagChar c := by
  rcases (Bool.or_eq_true _ _).mp h with hc | hc
  · exact isTagChar_of_isAlphanum hc
  · simp at hc
    rcases hc with rfl | rfl | rfl | rfl <;> decide

namespace Target

theorem legible_of_start {name : String} {c : Char} {cs : List Char} (hname : name.toList = c :: cs)
    (hc : isNameStart c) (hcs : ∀ c ∈ cs, isTagChar c) : (tag name).Legible := by
  show IsTagName name.toList ∧ Word.ofChars? name.toList = none
  rw [hname]
  exact ⟨⟨List.cons_ne_nil _ _, List.forall_mem_cons.mpr
    ⟨isTagChar_of_isNameChar (isNameChar_of_isNameStart hc), hcs⟩⟩, ofChars?_of_isNameStart hc cs⟩

theorem legible_of_isName {name : String} (h : isName name) : (tag name).Legible := by
  obtain ⟨c, cs, hname, hc, hcs⟩ := exists_of_isName h
  exact legible_of_start hname hc fun c hc => isTagChar_of_isNameChar (hcs c hc)

/-- A tag that begins with a fixed text. -/
theorem legible_stem {stem rest : String} {c : Char} {cs : List Char} (hstem : stem.toList = c :: cs)
    (hc : isNameStart c) (hcs : cs.all isTagChar) (hrest : ∀ c ∈ rest.toList, isTagChar c) :
    (tag (stem ++ rest)).Legible := by
  refine legible_of_start (by rw [String.toList_append, hstem, List.cons_append]) hc ?_
  exact List.forall_mem_append.mpr ⟨List.all_eq_true.mp hcs, hrest⟩

theorem legible_literalTag (value : Word) : (tag (literalTag value)).Legible :=
  legible_stem rfl (by decide) (by decide) fun _ => Word.isTagChar_of_mem_text

theorem legible_symbolTag {name : String} (h : isName name) : (tag (symbolTag name)).Legible :=
  legible_stem rfl (by decide) (by decide) fun c hc => isTagChar_of_isNameChar (isNameChar_of_mem h c hc)

theorem legible_of_mem_numberedTags {n : Nat} {name : String} (h : name ∈ numberedTags n) :
    (tag name).Legible := by
  have hdigits : ∀ c ∈ (Numeral.natural n).toList, isTagChar c := by
    intro c hc
    rw [Numeral.toList_natural] at hc
    exact isTagChar_of_isAlphanum (by simp [Char.isAlphanum, Numeral.isDigit_of_mem_toDigits hc])
  simp only [numberedTags, List.mem_cons, List.not_mem_nil, or_false] at h
  rcases h with rfl | rfl | rfl | rfl | rfl <;>
    exact legible_stem rfl (by decide) (by decide) hdigits

end Target

/-! ## Generators -/

namespace Generator

theorem IsConstant.legible {pool : SymbolPool} {tag : String} {value : Word}
    (h : IsConstant pool tag value) (hpool : ∀ name ∈ pool.names, isName name) :
    (Target.tag tag).Legible := by
  rcases h with rfl | ⟨name, i, rfl, hi, -⟩
  · exact Target.legible_literalTag value
  · have hmem : name ∈ pool.names := List.isSome_idxOf?.mp (Option.isSome_of_eq_some hi)
    exact Target.legible_symbolTag (hpool name hmem)

/-- All tags that a generator knows are legible, of whatever kind they are. -/
theorem Sorted.legible_of_knows {g : Generator} (hs : g.Sorted) {tag : String} (h : g.Knows tag) :
    (Target.tag tag).Legible := by
  rcases h with h | h | ⟨n, -, h⟩
  · exact Target.legible_of_isName (hs.names tag h)
  · obtain ⟨value, hc⟩ := hs.constants tag h
    exact hc.legible hs.symbols
  · exact Target.legible_of_mem_numberedTags h

theorem legible_of_program {items : List Item} {listing : Listing} {g : Generator}
    (hnames : ∀ item ∈ items, ∀ name ∈ item.names, isName name)
    (h : program items {} = .ok listing g) :
    (∀ name, .tag name ∈ listing → (Target.tag name).Legible) ∧
      ∀ name ∈ g.symbols.names, isName name := by
  have haccounts := (spends_program hnames).ok accounts_empty h
  refine ⟨fun name hm => haccounts.sorted.legible_of_knows (haccounts.known name ?_),
    haccounts.sorted.symbols⟩
  exact List.mem_append_left _ (List.mem_append_left _ (Listing.mem_tagNames.mpr hm))

end Generator

/-! ## Listings -/

theorem Listing.Coherent.legible {l : Listing} (hc : l.Coherent)
    (htags : ∀ name, .tag name ∈ l → (Target.tag name).Legible) : ∀ r ∈ l, r.Legible := by
  intro r hr
  cases r with
  | data value => trivial
  | tag name => exact (htags name hr).1
  | instruction i =>
    refine ⟨hc.shaped i hr, ?_⟩
    rintro opcode target rfl
    cases target with
    | offset value => trivial
    | tag name => exact htags name (mem_tagNames.mp (hc.targets opcode name hr))

theorem legible_of_compileWithSymbols {source : String} {listing : Listing} {pool : SymbolPool}
    (h : compileWithSymbols source = .ok (listing, pool)) :
    (∀ r ∈ listing, r.Legible) ∧ ∀ name ∈ pool.names, isName name := by
  obtain ⟨items, g, hparse, hrun, rfl⟩ := program_of_compileWithSymbols h
  obtain ⟨htags, hsymbols⟩ := Generator.legible_of_program (Item.isName_names_of_parse hparse) hrun
  obtain ⟨-, -, -, -, hcoherent, -⟩ := program_of_compiles (.inl (compilePlain_of_compileWithSymbols h))
  exact ⟨hcoherent.legible htags, hsymbols⟩

end WordLisp

import WordLisp.Proofs.Code.Scoping
import WordLisp.Proofs.Listing.Assembling
import WordLisp.Proofs.Source.Names

/-!
# Tags are defined once

A generator defines a tag for every global, function and constant, and numbered tags for conditionals
and loops. `Accounts past reserved g` says that all tags that are defined in the listings `past` or in
the code and data of `g` differ from each other and from the tags in `reserved`, which are yet to be
defined, and that `g` knows all of them. `Spends past before x after` says that the action `x` takes a
generator that has the tags `before` reserved to one that has `after` reserved, and that it leaves the
tags in order also if it fails. What is compiled needs no reserve: its tags are those of its code, which
have numbers of their own.

Main statement: over the whole life of a generator no tag is defined twice.
-/

namespace WordLisp

/-! ## Kinds of tags -/

/-- A name has no dot in it, and all other tags have. -/
theorem not_dot_of_isName {name : String} (h : isName name) : '.' ∉ name.toList := fun hm =>
  absurd (isNameChar_of_mem h _ hm) (by decide)

theorem Generator.IsConstant.dot_mem {pool : SymbolPool} {tag : String} {value : Word}
    (h : IsConstant pool tag value) : '.' ∈ tag.toList := by
  rcases h with rfl | ⟨name, i, rfl, -, -⟩ <;> simp [literalTag, symbolTag]

theorem dot_mem_of_mem_numberedTags {n : Nat} {tag : String} (h : tag ∈ numberedTags n) :
    '.' ∈ tag.toList := by
  simp only [numberedTags, List.mem_cons, List.not_mem_nil, or_false] at h
  rcases h with rfl | rfl | rfl | rfl | rfl <;> simp [thenTag, endTag, topTag, bodyTag, exitTag]

theorem Generator.IsConstant.not_mem_numberedTags {pool : SymbolPool} {tag : String} {value : Word}
    (h : IsConstant pool tag value) (n : Nat) : tag ∉ numberedTags n := by
  simp only [numberedTags, List.mem_cons, List.not_mem_nil, or_false]
  rcases h with rfl | ⟨name, i, rfl, -, -⟩ <;>
    simp [← String.toList_inj, literalTag, symbolTag, thenTag, endTag, topTag, bodyTag, exitTag]

theorem nodup_numberedTags (n : Nat) : (numberedTags n).Nodup := by
  simp [numberedTags, ← String.toList_inj, thenTag, endTag, topTag, bodyTag, exitTag]

/-- Different numbers have different tags. -/
theorem eq_of_mem_numberedTags {m n : Nat} {tag : String} (hm : tag ∈ numberedTags m)
    (hn : tag ∈ numberedTags n) : m = n := by
  have hinj {stem : String} (h : stem ++ Numeral.natural m = stem ++ Numeral.natural n) : m = n :=
    Numeral.natural_inj ((String.append_right_inj _).mp h)
  simp only [numberedTags, List.mem_cons, List.not_mem_nil, or_false] at hm hn
  rcases hm with rfl | rfl | rfl | rfl | rfl <;> rcases hn with h | h | h | h | h
  -- Tags of one kind have the same text in front of the number, others differ in that text.
  all_goals first
    | exact hinj h
    | simp [← String.toList_inj, thenTag, endTag, topTag, bodyTag, exitTag] at h

/-! ## Names of symbols -/

section
variable {name : String}

mutual

theorem Expr.symbol_mem_names : ∀ {e : Expr}, .symbol name ∈ e.parts → name ∈ e.names
  | .literal _, h | .reference _ _, h => by simp [Expr.parts] at h
  | .symbol _, h => by simpa [Expr.parts, Expr.names] using h
  | .declare _ value, h | .assign _ _ value, h | .unary _ value, h => by
    have h : .symbol name ∈ value.parts := by simpa [Expr.parts] using h
    simp [Expr.names, Expr.symbol_mem_names h]
  | .cond test yes no, h => by
    simp only [Expr.parts, List.mem_cons, reduceCtorEq, List.mem_append, false_or] at h
    rcases h with h | h | h
    · simp [Expr.names, Expr.symbol_mem_names h]
    · simp [Expr.names, Expr.symbol_mem_rowNames h]
    · simp [Expr.names, Expr.symbol_mem_rowNames h]
  | .loop test body, h => by
    simp only [Expr.parts, List.mem_cons, reduceCtorEq, List.mem_append, false_or] at h
    rcases h with h | h
    · simp [Expr.names, Expr.symbol_mem_names h]
    · simp [Expr.names, Expr.symbol_mem_rowNames h]
  | .binary _ left right, h => by
    simp only [Expr.parts, List.mem_cons, reduceCtorEq, List.mem_append, false_or] at h
    rcases h with h | h <;> simp [Expr.names, Expr.symbol_mem_names h]
  | .apply _ arguments, h => by
    have h : .symbol name ∈ Expr.rowParts arguments := by simpa [Expr.parts] using h
    simp [Expr.names, Expr.symbol_mem_rowNames h]

theorem Expr.symbol_mem_rowNames : ∀ {es : List Expr}, .symbol name ∈ Expr.rowParts es →
    name ∈ Expr.rowNames es
  | [], h => by cases h
  | _ :: _, h => by
    rcases List.mem_append.mp h with h | h
    · exact List.mem_append_left _ (Expr.symbol_mem_names h)
    · exact List.mem_append_right _ (Expr.symbol_mem_rowNames h)

end

end

/-! ## Tags of code -/

theorem Op.eq_tag_of_record {op : Op} {name : String} (h : op.record = .tag name) : op = .tag name := by
  cases op <;> cases h
  rfl

/-- The tags are all different, and are those of conditionals and loops with `k` numbers from `n` on. -/
structure Numbers (n k : Nat) (tags : List String) : Prop where
  nodup : tags.Nodup
  bounds : ∀ tag ∈ tags, ∃ m, n ≤ m ∧ m < n + k ∧ tag ∈ numberedTags m

namespace Numbers
variable {n i j : Nat} {a b : List String}

theorem nil (n : Nat) : Numbers n 0 [] := ⟨List.nodup_nil, List.forall_mem_nil _⟩

theorem append (ha : Numbers n i a) (hb : Numbers (n + i) j b) : Numbers n (i + j) (a ++ b) := by
  refine ⟨ha.nodup.append hb.nodup fun tag hta htb => ?_,
    List.forall_mem_append.mpr ⟨fun tag ht => ?_, fun tag ht => ?_⟩⟩
  · obtain ⟨m, -, hm, hmem⟩ := ha.bounds tag hta
    obtain ⟨m', hm', -, hmem'⟩ := hb.bounds tag htb
    have := eq_of_mem_numberedTags hmem hmem'
    omega
  · obtain ⟨m, hle, hlt, hmem⟩ := ha.bounds tag ht
    exact ⟨m, hle, by omega, hmem⟩
  · obtain ⟨m, hle, hlt, hmem⟩ := hb.bounds tag ht
    exact ⟨m, by omega, by omega, hmem⟩

theorem sublist (hb : Numbers n i b) (h : a.Sublist b) : Numbers n i a :=
  ⟨h.nodup hb.nodup, fun tag ht => hb.bounds tag (h.subset ht)⟩

/-- A conditional or loop has some of the tags with the first number. The rest is within it. -/
theorem fork {own : List String} (hown : own.Sublist (numberedTags n)) (ha : Numbers (n + 1) i a)
    (hb : b.Perm (own ++ a)) : Numbers n (1 + i) b := by
  have hfirst : Numbers n 1 own :=
    ⟨hown.nodup (nodup_numberedTags n), fun tag ht => ⟨n, le_refl n, by omega, hown.subset ht⟩⟩
  have hall := hfirst.append ha
  exact ⟨hb.nodup_iff.mpr hall.nodup, fun tag ht => hall.bounds tag (hb.mem_iff.mp ht)⟩

end Numbers

section
variable (frame : Frame)

open Listing (tagNames)

mutual

theorem Expr.numbers_code (slot n : Nat) : ∀ e : Expr,
    Numbers n e.forks (tagNames (Op.listing (e.code frame slot n)))
  | .literal _ | .symbol _ | .reference _ _ => .nil n
  | .declare _ value | .assign _ _ value | .unary _ value => by
    simpa [Expr.code, Expr.forks, tagNames, Op.record] using Expr.numbers_code slot n value
  | .cond test yes no => by
    have hparts := (Expr.numbers_code slot (n + 1) test).append ((Expr.numbers_rowCode slot _ no).append
      (Expr.numbers_rowCode slot _ yes))
    have hown : [thenTag n, endTag n].Sublist (numberedTags n) := by simp [numberedTags]
    have hforks : (Expr.cond test yes no).forks =
        1 + (test.forks + (Expr.rowForks no + Expr.rowForks yes)) := by
      simp only [Expr.forks]
      omega
    rw [hforks]
    refine hparts.fork hown (List.perm_iff_count.mpr fun tag => ?_)
    simp only [Expr.code, Op.listing_append, Op.listing_cons, Op.listing_nil, Op.record, tagNames,
      Listing.tagNames_append, List.count_append, List.count_cons, List.count_nil]
    omega
  | .loop test body => by
    have hparts := (Expr.numbers_code slot (n + 1) test).append (Expr.numbers_rowCode slot _ body)
    have hown : [topTag n, bodyTag n, exitTag n].Sublist (numberedTags n) := by simp [numberedTags]
    have hforks : (Expr.loop test body).forks = 1 + (test.forks + Expr.rowForks body) := by
      simp only [Expr.forks]
      omega
    rw [hforks]
    refine hparts.fork hown (List.perm_iff_count.mpr fun tag => ?_)
    simp only [Expr.code, Op.listing_append, Op.listing_cons, Op.listing_nil, Op.record, tagNames,
      Listing.tagNames_append, List.count_append, List.count_cons, List.count_nil]
    omega
  | .binary _ left right => by
    have hparts := (Expr.numbers_code slot n left).append (Expr.numbers_code (slot + 1) _ right)
    simpa [Expr.code, Expr.forks, tagNames, Op.record] using hparts
  | .apply _ arguments => by
    simpa [Expr.code, Expr.forks, tagNames, Op.record, tagNames_passCode] using
      Expr.numbers_argumentCode slot n arguments

theorem Expr.numbers_rowCode (slot n : Nat) : ∀ es : List Expr,
    Numbers n (Expr.rowForks es) (tagNames (Op.listing (Expr.rowCode frame slot n es)))
  | [] => .nil n
  | e :: es => by
    have hparts := (Expr.numbers_code slot n e).append (Expr.numbers_rowCode slot _ es)
    simpa [Expr.rowCode, Expr.rowForks] using hparts

theorem Expr.numbers_argumentCode (slot n : Nat) : ∀ es : List Expr,
    Numbers n (Expr.rowForks es) (tagNames (Op.listing (Expr.argumentCode frame slot n es)))
  | [] => .nil n
  | e :: es => by
    have hparts := (Expr.numbers_code slot n e).append (Expr.numbers_argumentCode (slot + 1) _ es)
    simpa [Expr.argumentCode, Expr.rowForks, tagNames, Op.record] using hparts

end

end

namespace Generator

/-! ## Tags in order -/

/-- The tag is one that the generator will not define again. -/
def Knows (g : Generator) (tag : String) : Prop :=
  g.declares tag ∨ tag ∈ g.constants ∨ ∃ n < g.nextTag, tag ∈ numberedTags n

/-- The tables of a generator hold what they are for. -/
structure Sorted (g : Generator) : Prop where
  names : ∀ name, g.declares name → isName name
  constants : ∀ tag ∈ g.constants, ∃ value, IsConstant g.symbols tag value
  symbols : ∀ name ∈ g.symbols.names, isName name

namespace Sorted
variable {g : Generator} (hs : g.Sorted)
include hs

theorem not_knows_name {name : String} (h : isName name) (hd : ¬ g.declares name) :
    ¬ g.Knows name := by
  rintro (h' | h' | ⟨n, -, h'⟩)
  · exact hd h'
  · obtain ⟨value, h'⟩ := hs.constants _ h'
    exact not_dot_of_isName h h'.dot_mem
  · exact not_dot_of_isName h (dot_mem_of_mem_numberedTags h')

theorem not_knows_constant {pool : SymbolPool} {tag : String} {value : Word}
    (h : IsConstant pool tag value) (hc : tag ∉ g.constants) : ¬ g.Knows tag := by
  rintro (h' | h' | ⟨n, -, h'⟩)
  · exact not_dot_of_isName (hs.names _ h') h.dot_mem
  · exact hc h'
  · exact h.not_mem_numberedTags n h'

theorem not_knows_numbered {tag : String} {m : Nat} (hm : g.nextTag ≤ m) (h : tag ∈ numberedTags m) :
    ¬ g.Knows tag := by
  rintro (h' | h' | ⟨n, hn, h'⟩)
  · exact not_dot_of_isName (hs.names _ h') (dot_mem_of_mem_numberedTags h)
  · obtain ⟨value, h'⟩ := hs.constants _ h'
    exact h'.not_mem_numberedTags _ h
  · have := eq_of_mem_numberedTags h' h
    omega

end Sorted

/-- The tags that are defined in the code and the data, and in listings that were taken out before. -/
def defined (past : Listing) (g : Generator) : List String :=
  Listing.tagNames (past ++ (g.code.toList ++ g.data.toList))

structure Accounts (past : Listing) (reserved : List String) (g : Generator) : Prop where
  nodup : (reserved ++ g.defined past).Nodup
  known : ∀ tag ∈ reserved ++ g.defined past, g.Knows tag
  sorted : g.Sorted

namespace Accounts
variable {past past' : Listing} {reserved reserved' : List String} {g g' : Generator}

/-- Tags may change their places and be given up. -/
theorem rearrange (h : Accounts past reserved g)
    (htags : (reserved' ++ g'.defined past').Subperm (reserved ++ g.defined past))
    (hknows : ∀ tag, g.Knows tag → g'.Knows tag) (hs : g'.Sorted) : Accounts past' reserved' g' := by
  refine ⟨?_, fun tag ht => hknows tag (h.known tag (htags.subset ht)), hs⟩
  obtain ⟨tags, hperm, hsub⟩ := htags
  exact hperm.nodup_iff.mp (hsub.nodup h.nodup)

theorem weaken (h : Accounts past reserved g) (hr : reserved'.Subperm reserved) :
    Accounts past reserved' g :=
  h.rearrange (hr.append (.refl _)) (fun _ => id) h.sorted

/-- Tags that were not known before may be reserved or defined. -/
theorem extend (h : Accounts past reserved g) {new : List String} (hnodup : new.Nodup)
    (hnew : ∀ tag ∈ new, ¬ g.Knows tag)
    (htags : (reserved' ++ g'.defined past).Perm (new ++ (reserved ++ g.defined past)))
    (hknows : ∀ tag, tag ∈ new ∨ g.Knows tag → g'.Knows tag) (hs : g'.Sorted) :
    Accounts past reserved' g' := by
  refine ⟨htags.nodup_iff.mpr ?_, fun tag ht => ?_, hs⟩
  · exact hnodup.append h.nodup fun tag ht ht' => hnew tag ht (h.known tag ht')
  · exact hknows tag ((List.mem_append.mp (htags.mem_iff.mp ht)).imp_right (h.known tag))

/-- A record that goes into the code takes its tag, if it is one, out of the reserve. -/
theorem push {r : Record} (h : Accounts past (Listing.tagNames [r] ++ reserved) g) :
    Accounts past reserved { g with code := g.code.push r } := by
  refine h.rearrange (List.Perm.subperm (List.perm_iff_count.mpr fun tag => ?_)) (fun _ => id)
    ⟨h.sorted.names, h.sorted.constants, h.sorted.symbols⟩
  simp only [defined, Array.toList_push, Listing.tagNames_append, List.count_append]
  omega

end Accounts

/-! ## Actions that keep the tags in order -/

structure Spends (past : Listing) (before : List String) (x : Action α) (after : α → List String) :
    Prop where
  ok : ∀ {g a g'}, Accounts past before g → x g = .ok a g' → Accounts past (after a) g'
  error : ∀ {g e g'}, Accounts past before g → x g = .error e g' → Accounts past [] g'

section
variable {past : Listing} {before : List String}

theorem Spends.bind {x : Action α} {f : α → Action β} {between : α → List String}
    {after : β → List String} (hx : Spends past before x between)
    (hf : ∀ a, Spends past (between a) (f a) after) : Spends past before (x >>= f) after := by
  constructor <;> intro g r g' hg h
  · obtain ⟨a, g₁, h₁, h₂⟩ := ok_of_bind h
    exact (hf a).ok (hx.ok hg h₁) h₂
  · rcases error_of_bind h with h₁ | ⟨a, g₁, h₁, h₂⟩
    · exact hx.error hg h₁
    · exact (hf a).error (hx.ok hg h₁) h₂

/-- What follows may look at the generator. -/
theorem Spends.get_bind {f : Generator → Action β} {after : β → List String}
    (hf : ∀ g, Spends past before (f g) after) : Spends past before (get >>= f) after :=
  ⟨fun {g _ _} hg h => (hf g).ok hg h, fun {g _ _} hg h => (hf g).error hg h⟩

theorem Spends.consequence {x : Action α} {after fewer : α → List String}
    (hx : Spends past before x after) (ha : ∀ a, (fewer a).Subperm (after a)) :
    Spends past before x fewer :=
  ⟨fun hg h => (hx.ok hg h).weaken (ha _), hx.error⟩

/-- An action that never fails. -/
theorem Spends.always {x : Action α} {after : α → List String} (value : Generator → α)
    (next : Generator → Generator) (h : ∀ g, x g = .ok (value g) (next g))
    (hnext : ∀ {g}, Accounts past before g → Accounts past (after (value g)) (next g)) :
    Spends past before x after := by
  constructor <;> intro g r g' hg hx <;> rw [h g] at hx <;> cases hx
  exact hnext hg

theorem spends_throw (e : SourceError) {after : α → List String} :
    Spends past before (throw e : Action α) after := by
  constructor <;> intro g r g' hg hx <;> cases hx
  exact hg.weaken (List.nil_subperm ..)

theorem spends_pure (a : α) : Spends past before (pure a) fun _ => before :=
  .always (fun _ => a) id (fun _ => rfl) id

theorem perm_of_data {g g' : Generator} {tag : String} {value : Word} (hcode : g'.code = g.code)
    (hdata : g'.data = (g.data.push (.tag tag)).push (.data value)) :
    (before ++ g'.defined past).Perm ([tag] ++ (before ++ g.defined past)) := by
  rw [List.perm_iff_count]
  intro name
  simp only [defined, hcode, hdata, Array.toList_push, Listing.tagNames_append, List.count_append,
    Listing.tagNames, List.count_nil]
  omega

end

/-! ## Functions -/

theorem Evolves.declares {g g' : Generator} (h : Evolves g g') {name : String} :
    g'.declares name = g.declares name := by
  unfold Generator.declares
  rw [h.globals, h.functions]

/-- What is known stays so. -/
theorem Evolves.knows {g g' : Generator} (h : Evolves g g') {tag : String} (hk : g.Knows tag) :
    g'.Knows tag := by
  obtain ⟨new, hnew⟩ := h.data
  rcases hk with hk | hk | ⟨n, hn, hk⟩
  · exact .inl (h.declares ▸ hk)
  · exact .inr (.inl (hnew.mem_constants.mpr (.inr hk)))
  · exact .inr (.inr ⟨n, by have := h.nextTag; omega, hk⟩)

section
variable {past : Listing} {reserved : List String} {g g' : Generator} {ops : List Op}
  {sites : List (Nat × Expr)}

theorem Writes.sorted (h : Writes g ops sites g')
    (hnames : ∀ slot name, (slot, .symbol name) ∈ sites → isName name) (hs : g.Sorted) : g'.Sorted := by
  obtain ⟨new, hnew⟩ := h.evolves.data
  refine ⟨fun name hd => hs.names name (h.evolves.declares ▸ hd), fun tag ht => ?_, fun name hm => ?_⟩
  · rcases hnew.mem_constants.mp ht with ⟨p, hp, rfl⟩ | ht
    · exact ⟨p.2, hnew.isConstant p hp⟩
    · obtain ⟨value, hc⟩ := hs.constants tag ht
      exact ⟨value, hc.mono h.evolves.symbols⟩
  · rcases h.symbols name hm with hm | ⟨slot, hm⟩
    · exact hs.symbols name hm
    · exact hnames slot name hm

/-- Code whose tags have numbers of their own keeps the tags in order, and so do the constants that come
with it. -/
theorem Accounts.writes {k : Nat} (h : Accounts past reserved g) (hw : Writes g ops sites g')
    (hnumbers : Numbers g.nextTag k (Listing.tagNames (Op.listing ops)))
    (hnames : ∀ slot name, (slot, .symbol name) ∈ sites → isName name) : Accounts past reserved g' := by
  obtain ⟨new, hnew⟩ := hw.evolves.data
  have hconstant : ∀ tag ∈ new.map Prod.fst, ∃ value, IsConstant g'.symbols tag value :=
    List.forall_mem_map.mpr fun p hp => ⟨p.2, hnew.isConstant p hp⟩
  have hnodup : (Listing.tagNames (Op.listing ops) ++ new.map Prod.fst).Nodup := by
    refine hnumbers.nodup.append hnew.nodup fun tag ht ht' => ?_
    obtain ⟨m, -, -, hm⟩ := hnumbers.bounds tag ht
    obtain ⟨value, hc⟩ := hconstant tag ht'
    exact hc.not_mem_numberedTags m hm
  refine h.extend hnodup (List.forall_mem_append.mpr ⟨fun tag ht => ?_, fun tag ht => ?_⟩)
    (List.perm_iff_count.mpr fun tag => ?_) (fun tag ht => ?_) (hw.sorted hnames h.sorted)
  · obtain ⟨m, hle, -, hm⟩ := hnumbers.bounds tag ht
    exact h.sorted.not_knows_numbered hle hm
  · obtain ⟨value, hc⟩ := hconstant tag ht
    exact h.sorted.not_knows_constant hc (hnew.disjoint ht)
  · simp only [defined, hw.code, hnew.data, Listing.tagNames_append, tagNames_dataListing,
      List.count_append]
    omega
  · rw [List.mem_append] at ht
    rcases ht with (ht | ht) | ht
    · rw [Listing.mem_tagNames] at ht
      obtain ⟨op, hop, hrecord⟩ := List.mem_map.mp ht
      obtain rfl := Op.eq_tag_of_record hrecord
      exact .inr (.inr (hw.numbered _ hop))
    · exact .inr (.inl (hnew.mem_constants.mpr (.inl (List.mem_map.mp ht))))
    · exact hw.evolves.knows ht

theorem Accounts.opened {f : Function} (h : Accounts past (f.name :: reserved) g) (frame : Frame) :
    Accounts past reserved (g.opened f frame) :=
  Accounts.push (r := .tag f.name) (Accounts.push (r := .data _) h)

theorem Accounts.closed (h : Accounts past reserved g) : Accounts past reserved g.closed :=
  Accounts.push (r := Op.ret.record) (Accounts.push (r := Op.yield.record) h)

theorem spends_function (before : List String) {f : Function}
    (hnames : ∀ name ∈ (Item.function f).names, isName name) :
    Spends past (f.name :: before) (function f) fun _ => before := by
  have hsymbols (frame : Frame) (slot : Nat) (name : String)
      (hm : (slot, .symbol name) ∈ Expr.rowSites frame.tempStart f.body) : isName name := by
    have hpart : .symbol name ∈ Expr.rowParts f.body :=
      Expr.map_snd_rowSites frame.tempStart f.body ▸ List.mem_map_of_mem (f := Prod.snd) hm
    exact hnames name (List.mem_cons_of_mem _ (List.mem_append_right _ (Expr.symbol_mem_rowNames hpart)))
  constructor <;> intro g r g' hg h <;> have hbuilding := building_function g f <;> rw [h] at hbuilding
  · cases hbuilding with
    | @built frame _ hframe _ hcompletes =>
      exact ((hg.opened frame).writes hcompletes.toWrites (Expr.numbers_rowCode frame _ g.nextTag f.body)
        (hsymbols frame)).closed
  · cases hbuilding with
    | unframed _ => exact hg.weaken (List.nil_subperm ..)
    | @broken frame done _ _ hframe _ hdone hwrites =>
      have hnumbers := Expr.numbers_rowCode frame frame.tempStart g.nextTag f.body
      obtain ⟨left, hleft⟩ := hdone
      rw [← hleft, Op.listing_append, Listing.tagNames_append] at hnumbers
      have hnumbers := hnumbers.sublist (List.sublist_append_left ..)
      exact ((hg.opened frame).writes hwrites hnumbers (hsymbols frame)).weaken (List.nil_subperm ..)

end

/-! ## Programs -/

section
variable {past : Listing}

/-- The tags of functions are reserved when the items are declared. -/
theorem spends_functions (before : List String) {items : List Item}
    (hnames : ∀ item ∈ items, ∀ name ∈ item.names, isName name) :
    Spends past ((Item.functions items).map Function.name ++ before) (items.forM fun item =>
      match item with
      | .function f => function f
      | .global _ _ => pure () : Action Unit) fun _ => before := by
  induction items with
  | nil => exact spends_pure ()
  | cons item items ih =>
    obtain ⟨hitem, hitems⟩ := List.forall_mem_cons.mp hnames
    cases item with
    | global name value => exact ih hitems
    | function f => exact (spends_function _ hitem).bind fun _ => ih hitems

theorem knows_of_declaring {g g' : Generator} {item : Item} (h : Declaring g item (.ok () g'))
    {tag : String} : g'.Knows tag ↔ tag = item.name ∨ g.Knows tag := by
  have hrest : g'.constants = g.constants ∧ g'.nextTag = g.nextTag := by cases h <;> exact ⟨rfl, rfl⟩
  simp only [Knows, h.declares_iff, hrest, or_assoc]

theorem sorted_of_declaring {g g' : Generator} {item : Item} (h : Declaring g item (.ok () g'))
    (hname : isName item.name) (hs : g.Sorted) : g'.Sorted := by
  refine ⟨fun name hd => ?_, ?_, ?_⟩
  · rcases h.declares_iff.mp hd with rfl | hd
    · exact hname
    · exact hs.names name hd
  · cases h <;> exact hs.constants
  · cases h <;> exact hs.symbols

theorem spends_declare {before : List String} {item : Item} (hname : isName item.name) :
    Spends past before (declare item) fun _ => (Item.functions [item]).map Function.name ++ before := by
  constructor <;> intro g r g' hg h <;> have hd := h ▸ declaring_declare g item
  · -- The tag of a global is defined at once, that of a function is reserved.
    have hnew : ∀ tag ∈ [item.name], ¬ g.Knows tag := by
      intro tag ht
      rw [List.mem_singleton.mp ht]
      exact hg.sorted.not_knows_name hname hd.condition.1
    refine hg.extend (List.nodup_singleton item.name) hnew ?_
      (fun tag ht => (knows_of_declaring hd).mpr (ht.imp_left List.mem_singleton.mp))
      (sorted_of_declaring hd hname hg.sorted)
    cases hd with
    | global _ => exact perm_of_data rfl rfl
    | function _ => exact .refl _
  · cases hd
    exact hg.weaken (List.nil_subperm ..)

theorem spends_declare_items {before : List String} {items : List Item}
    (hnames : ∀ item ∈ items, isName item.name) : Spends past before (items.forM declare)
      fun _ => (Item.functions items).map Function.name ++ before := by
  induction items generalizing before with
  | nil => exact spends_pure ()
  | cons item items ih =>
    obtain ⟨hname, hnames⟩ := List.forall_mem_cons.mp hnames
    refine ((spends_declare hname).bind fun _ => ih hnames).consequence fun _ => List.Perm.subperm ?_
    cases item with
    | global name value => exact .refl _
    | function f => exact List.perm_middle.symm

theorem spends_checkEntry {before : List String} : Spends past before checkEntry fun _ => before := by
  refine .get_bind fun g => ?_
  split
  · exact spends_throw _
  · exact spends_pure ()
  · exact spends_throw _

/-- What is taken out must not be defined again. -/
theorem spends_drain {before : List String} :
    Spends past before drain fun listing => Listing.tagNames listing ++ before := by
  refine .always (fun g => g.code.toList ++ g.data.toList) (fun g => { g with code := #[], data := #[] })
    (fun _ => rfl) fun {g} hg => hg.rearrange (List.Perm.subperm ?_) (fun _ => id)
      ⟨hg.sorted.names, hg.sorted.constants, hg.sorted.symbols⟩
  rw [List.perm_iff_count]
  intro tag
  simp only [defined, Listing.tagNames_append, List.count_append, Listing.tagNames, List.count_nil]
  omega

theorem spends_program {items : List Item} (hnames : ∀ item ∈ items, ∀ name ∈ item.names, isName name) :
    Spends past [] (program items) fun listing => Listing.tagNames listing ++ [] :=
  (spends_declare_items fun item hm => hnames item hm _ item.name_mem_names).bind fun _ =>
    spends_checkEntry.bind fun _ => (spends_functions [] hnames).bind fun _ => spends_drain.bind fun _ =>
      .always (fun _ => _) id (fun _ => rfl) id

end

/-! ## Whole lives -/

/-- What becomes of a generator. -/
structure Life where
  /-- The listings that came out. -/
  listings : List Listing
  /-- The generator at the end. -/
  last : Generator

/-- All records that have come out or that the generator still holds. -/
def Life.records (life : Life) : Listing :=
  life.listings.flatten ++ (life.last.code.toList ++ life.last.data.toList)

def Life.yielding (listing : Listing) (life : Life) : Life := ⟨listing :: life.listings, life.last⟩

/-- Compiles one program text after the other. A text that has no items does not reach the generator. -/
def compileEach : List String → Generator → Life
  | [], g => ⟨[], g⟩
  | source :: sources, g =>
    match Item.parse source with
    | .error _ => compileEach sources g
    | .ok items =>
      match program items g with
      | .error _ g' => compileEach sources g'
      | .ok listing g' => (compileEach sources g').yielding listing

theorem Accounts.taken {past listing : Listing} {g : Generator}
    (h : Accounts past (Listing.tagNames listing ++ []) g) : Accounts (past ++ listing) [] g := by
  refine h.rearrange (List.Perm.subperm ?_) (fun _ => id) h.sorted
  rw [List.perm_iff_count]
  intro tag
  simp only [defined, Listing.tagNames_append, List.count_append, List.count_nil]
  omega

theorem Accounts.compileEach (sources : List String) {past : Listing} {g : Generator}
    (hg : Accounts past [] g) :
    Accounts (past ++ (compileEach sources g).listings.flatten) [] (compileEach sources g).last := by
  fun_induction Generator.compileEach sources g generalizing past with
  | case1 g => simpa using hg
  | case2 g source sources e hparse ih => exact ih hg
  | case3 g source sources items hparse e g' hrun ih =>
    exact ih ((spends_program (Item.isName_names_of_parse hparse)).error hg hrun)
  | case4 g source sources items hparse listing g' hrun ih =>
    have htaken := ((spends_program (Item.isName_names_of_parse hparse)).ok hg hrun).taken
    simpa [Life.yielding] using ih htaken

theorem accounts_empty : Accounts [] [] {} := by
  refine ⟨List.nodup_nil, fun tag ht => ?_, fun name hd => ?_, fun tag ht => ?_, fun name hm => ?_⟩
  · cases ht
  · cases hd
  · cases ht
  · cases hm

/-- Over the whole life of a generator no tag is defined twice, and so every listing that comes out
has an offset for each of its tags. It may hold code that programs that failed have left behind. -/
theorem tags_unique (sources : List String) :
    (∀ tag, (compileEach sources {}).records.count (.tag tag) ≤ 1) ∧
      ∀ listing ∈ (compileEach sources {}).listings, ∃ table, listing.tags = .ok table := by
  have hunique : ∀ tag, (compileEach sources {}).records.count (.tag tag) ≤ 1 :=
    Listing.nodup_tagNames_iff.mp (accounts_empty.compileEach sources).nodup
  refine ⟨hunique, fun listing hl => ⟨_, Listing.tags_eq_ok_iff.mpr ⟨?_, rfl⟩⟩⟩
  have hsub : listing.Sublist (compileEach sources {}).records :=
    (List.sublist_flatten_of_mem hl).trans (List.sublist_append_left ..)
  exact Listing.nodup_tagNames_iff.mpr fun tag => (hsub.count_le _).trans (hunique tag)

-- The first text fails at the second expression of its function, and the second has no function.
example : (compileEach ["(FUNC main () 7 x)", "(INIT x 1)"] {}).listings.map Listing.tagNames =
    [["main", "lit.7", "x"]] := by cbv

end Generator

end WordLisp

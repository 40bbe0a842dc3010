import WordLisp.Proofs.Source.Scanning
import WordLisp.Source.Parser

/-!
# Scanning texts one behind the other

`Separates s` says that `s` is no part of any token and that nothing in front of it, be it an atom or a
comment, goes on behind it. The tokens of two texts with such an `s` between them are those of the
one followed by those of the other. A line ending separates, with or without a comment before it.
-/

namespace WordLisp

open Text

namespace Token

structure Separates (s : String) : Prop where
  stops (b : List Char) : Stops isAtomChar (s.toList ++ b)
  skip_eq (b : List Char) : skip (s.toList ++ b) = skip b
  skipComment_eq (start b : List Char) : skipComment start (s.toList ++ b) = skip b

theorem skipComment_append_of_inline {c : List Char} (hc : ∀ x ∈ c, x ≠ '\r' ∧ x ≠ '\n')
    (start b : List Char) : skipComment start (c ++ b) = skipComment start b := by
  induction c with
  | nil => rfl
  | cons x c ih =>
    obtain ⟨⟨hreturn, hfeed⟩, hc⟩ := List.forall_mem_cons.mp hc
    rw [List.cons_append, skipComment, if_neg hfeed, if_neg hreturn, ih hc]

theorem separates_lineFeed : Separates "\n" where
  stops _ := .cons (c := '\n') (by decide)
  skip_eq b := skip_separator (c := '\n') (by decide) b
  skipComment_eq start b := by
    rw [show "\n".toList = ['\n'] from rfl, List.singleton_append, skipComment, if_pos rfl]

theorem separates_carriageReturn : Separates "\r\n" where
  stops _ := .cons (c := '\r') (by decide)
  skip_eq b := by
    rw [show "\r\n".toList = ['\r', '\n'] from rfl, List.cons_append, skip_separator (by decide)]
    exact separates_lineFeed.skip_eq b
  skipComment_eq start b := by
    have hfeed : (['\n'] ++ b).head? = some '\n' := rfl
    rw [show "\r\n".toList = ['\r', '\n'] from rfl, List.cons_append, skipComment, if_neg (by decide),
      if_pos rfl, if_pos hfeed]
    exact separates_lineFeed.skip_eq b

theorem Separates.comment {s c : String} (h : Separates s)
    (hc : ∀ x ∈ c.toList, x ≠ '\r' ∧ x ≠ '\n') : Separates (";" ++ c ++ s) := by
  have htext (b : List Char) : (";" ++ c ++ s).toList ++ b = ';' :: (c.toList ++ (s.toList ++ b)) := by
    simp
  refine ⟨fun b => ?_, fun b => ?_, fun start b => ?_⟩
  · rw [htext]
    exact .cons (by decide)
  · rw [htext, skip, if_neg (by decide), if_pos rfl, skipComment_append_of_inline hc,
      h.skipComment_eq]
  · rw [htext, ← List.cons_append,
      skipComment_append_of_inline (List.forall_mem_cons.mpr ⟨by decide, hc⟩), h.skipComment_eq]

/-! ## Behind a text -/

-- What `skip` leaves begins with a `;` only where a comment runs into a lone carriage return, and
-- then the text behind could still make it a comment.
mutual

theorem skip_append {s : String} (hs : Separates s) (b : List Char) :
    ∀ a : List Char, (skip a).head? ≠ some ';' →
      skip (a ++ (s.toList ++ b)) = skip (skip a ++ (s.toList ++ b))
  | [], _ => rfl
  | c :: cs, h => by
    rw [skip] at h
    rw [List.cons_append, skip, skip]
    split at h
    · next hc =>
      rw [if_pos hc, if_pos hc]
      exact skip_append hs b cs h
    · next hc =>
      rw [if_neg hc, if_neg hc]
      split at h
      · next hcomment =>
        subst hcomment
        rw [if_pos rfl, if_pos rfl]
        exact skipComment_append hs b cs _ cs h
      · next hcomment =>
        rw [if_neg hcomment, if_neg hcomment, List.cons_append, skip, if_neg hc, if_neg hcomment]

theorem skipComment_append {s : String} (hs : Separates s) (b rest start : List Char) :
    ∀ a : List Char, (skipComment (';' :: rest) a).head? ≠ some ';' →
      skipComment start (a ++ (s.toList ++ b)) =
        skip (skipComment (';' :: rest) a ++ (s.toList ++ b))
  | [], _ => by
    rw [List.nil_append, hs.skipComment_eq, skipComment, List.nil_append, hs.skip_eq]
  | c :: cs, h => by
    rw [skipComment] at h
    rw [List.cons_append, skipComment, skipComment]
    split at h
    · next hc =>
      rw [if_pos hc, if_pos hc]
      exact skip_append hs b cs h
    · next hc =>
      rw [if_neg hc, if_neg hc]
      split at h
      · next hreturn =>
        rw [if_pos hreturn, if_pos hreturn]
        split at h
        · next hfeed =>
          have hfeed' : (cs ++ (s.toList ++ b)).head? = some '\n' := by simp [hfeed]
          rw [if_pos hfeed, if_pos hfeed']
          exact skip_append hs b cs h
        · exact absurd rfl h
      · next hreturn =>
        rw [if_neg hreturn, if_neg hreturn]
        exact skipComment_append hs b rest start cs h

end

theorem head?_of_scanFrom {position : Nat} {cs : List Char} {xs : List Token}
    (h : scanFrom position cs = .ok xs) : cs.head? ≠ some ';' := by
  intro hhead
  obtain ⟨rest, rfl⟩ := List.head?_eq_some_iff.mp hhead
  rw [scanFrom, if_neg (by decide), if_neg (by decide), if_neg (by decide)] at h
  cases h

section
variable {s : String} (hs : Separates s) (b : List Char)
include hs

/-- One token of the first text, if the tokens behind it are followed by those of the second. -/
theorem scanFrom_token {position : Nat} {rest : List Char} {token : Token} {xs : List Token}
    (h : (scanFrom (position + 1) (skip rest)).map (token :: ·) = .ok xs)
    (ih : ∀ {ys}, scanFrom (position + 1) (skip rest) = .ok ys →
      scanFrom (position + 1) (skip (skip rest ++ (s.toList ++ b))) =
        (scanFrom (position + 1 + ys.length) (skip b)).map (ys ++ ·)) :
    (scanFrom (position + 1) (skip (rest ++ (s.toList ++ b)))).map (token :: ·) =
      (scanFrom (position + xs.length) (skip b)).map (xs ++ ·) := by
  cases hrest : scanFrom (position + 1) (skip rest) with
  | error stray =>
    rw [hrest] at h
    cases h
  | ok ys =>
    rw [hrest] at h
    cases h
    rw [skip_append hs b rest (head?_of_scanFrom hrest), ih hrest, List.length_cons,
      Nat.add_right_comm]
    exact map_append [token] ys _

/-- Where the first text has no more tokens, the second begins. -/
theorem scanFrom_append {position : Nat} {cs : List Char} {xs : List Token}
    (h : scanFrom position cs = .ok xs) :
    scanFrom position (skip (cs ++ (s.toList ++ b))) =
      (scanFrom (position + xs.length) (skip b)).map (xs ++ ·) := by
  fun_induction scanFrom position cs generalizing xs with
  | case1 position =>
    cases h
    rw [List.nil_append, hs.skip_eq]
    show _ = (scanFrom position (skip b)).map id
    cases scanFrom position (skip b) <;> rfl
  | case2 position cs ih =>
    rw [List.cons_append, skip_token (by decide) (by decide), scanFrom, if_pos rfl]
    exact scanFrom_token hs b h ih
  | case3 position cs _ ih =>
    rw [List.cons_append, skip_token (by decide) (by decide), scanFrom, if_neg (by decide), if_pos rfl]
    exact scanFrom_token hs b h ih
  | case4 position c cs hl hr hc ih =>
    rw [List.cons_append, skip_atomChar hc, scanFrom, if_neg hl, if_neg hr, if_pos hc,
      (hs.stops b).takeWhile_append, (hs.stops b).dropWhile_append]
    exact scanFrom_token hs b h ih
  | case5 position c cs hl hr hc => cases h

end

/-! ## Positions -/

/-- The same character behind `n` more tokens. -/
def Stray.behind (n : Nat) (stray : Stray) : Stray := ⟨stray.position + n, stray.char⟩

theorem map_mapError (n : Nat) (token : Token) (x : Except Stray (List Token)) :
    (x.map (token :: ·)).mapError (Stray.behind n) = (x.mapError (Stray.behind n)).map (token :: ·) := by
  cases x <;> rfl

theorem scanFrom_add (position n : Nat) (cs : List Char) :
    scanFrom (position + n) cs = (scanFrom position cs).mapError (Stray.behind n) := by
  fun_induction scanFrom position cs with
  | case1 position =>
    rw [scanFrom]
    rfl
  | case2 position cs ih =>
    rw [scanFrom, if_pos rfl, map_mapError, ← ih, Nat.add_right_comm]
  | case3 position cs h ih =>
    rw [scanFrom, if_neg h, if_pos rfl, map_mapError, ← ih, Nat.add_right_comm]
  | case4 position c cs hl hr hc ih =>
    rw [scanFrom, if_neg hl, if_neg hr, if_pos hc, map_mapError, ← ih, Nat.add_right_comm]
  | case5 position c cs hl hr hc =>
    rw [scanFrom, if_neg hl, if_neg hr, if_neg hc]
    rfl

/-- The second text is scanned as if it stood alone, and only its positions move. -/
theorem scan_append {a s : String} {xs : List Token} (hs : Separates s) (ha : scan a = .ok xs)
    (b : String) :
    scan (a ++ s ++ b) = ((scan b).mapError (Stray.behind xs.length)).map (xs ++ ·) := by
  unfold scan at ha ⊢
  rw [String.toList_append, String.toList_append, List.append_assoc,
    skip_append hs b.toList a.toList (head?_of_scanFrom ha), scanFrom_append hs b.toList ha,
    scanFrom_add]

theorem ofSource_eq_ok_iff {s : String} {ts : List Token} : ofSource s = .ok ts ↔ scan s = .ok ts := by
  unfold ofSource
  cases scan s <;> simp

/-- A line ending separates the tokens of two texts, and a comment in front of it makes no difference. -/
theorem ofSource_lines {a b c ending : String} {xs : List Token}
    (hending : ending = "\n" ∨ ending = "\r\n") (hc : ∀ x ∈ c.toList, x ≠ '\r' ∧ x ≠ '\n')
    (ha : ofSource a = .ok xs) :
    ofSource (a ++ ending ++ b) = ofSource (a ++ ";" ++ c ++ ending ++ b) ∧
      (∀ ys, ofSource b = .ok ys → ofSource (a ++ ending ++ b) = .ok (xs ++ ys)) ∧
      ∀ e, ofSource b = .error e → ∃ position char, e = .stray position char ∧
        ofSource (a ++ ending ++ b) = .error (.stray (position + xs.length) char) := by
  have hs : Separates ending := by
    rcases hending with rfl | rfl
    · exact separates_lineFeed
    · exact separates_carriageReturn
  have hplain := scan_append hs (ofSource_eq_ok_iff.mp ha) b
  have hcommented := scan_append (hs.comment hc) (ofSource_eq_ok_iff.mp ha) b
  refine ⟨?_, fun ys hb => ?_, fun e hb => ?_⟩
  · unfold ofSource
    rw [hplain, ← hcommented]
    simp only [String.append_assoc]
  · rw [ofSource_eq_ok_iff, hplain, ofSource_eq_ok_iff.mp hb]
    rfl
  · unfold ofSource at hb ⊢
    cases hscan : scan b with
    | ok ys =>
      rw [hscan] at hb
      cases hb
    | error stray =>
      rw [hscan] at hb
      cases hb
      refine ⟨stray.position, stray.char, rfl, ?_⟩
      rw [hplain, hscan]
      rfl

/-- The first text ends within a comment. A blank character that is no separator stops the scan, and
its position counts the tokens in front of the line ending too. -/
theorem ofSource_lines_open :
    ofSource ("(f ; left open" ++ "\r\n" ++ "y)") =
        ofSource ("(f ; left open" ++ ";" ++ " (more" ++ "\r\n" ++ "y)") ∧
      ofSource ("(f ; left open" ++ "\r\n" ++ "y)") = .ok [.lparen, .atom "f", .atom "y", .rparen] ∧
      ofSource ("(f ; left open" ++ "\r\n" ++ "y\u00a0)") = .error (.stray 3 '\u00a0') := by
  have ha : ofSource "(f ; left open" = .ok [.lparen, .atom "f"] := by cbv
  have hc : ∀ x ∈ " (more".toList, x ≠ '\r' ∧ x ≠ '\n' := by simp
  obtain ⟨hcomment, hok, -⟩ := ofSource_lines (b := "y)") (.inr rfl) hc ha
  obtain ⟨-, -, herror⟩ := ofSource_lines (b := "y\u00a0)") (.inr rfl) hc ha
  obtain ⟨position, char, hstray, h⟩ := herror (.stray 1 '\u00a0') (by cbv)
  cases hstray
  exact ⟨hcomment, hok _ (by cbv), h⟩

end Token

end WordLisp

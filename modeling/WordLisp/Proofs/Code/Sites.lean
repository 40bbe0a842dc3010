import WordLisp.Proofs.Code.Basic

/-!
# Where expressions are compiled

`Expr.sites` lists the expressions within an expression, each with the slot that it is compiled at.

Main statement: what is at a site needs no slots that the whole does not need.
-/

namespace WordLisp

/-! ## Sites -/

mutual

/-- The expressions within an expression, itself included, with the slots that they are compiled at. -/
def Expr.sites (slot : Nat) : Expr → List (Nat × Expr)
  | .literal value => [(slot, .literal value)]
  | .symbol name => [(slot, .symbol name)]
  | .reference name indirect => [(slot, .reference name indirect)]
  | .declare name value => (slot, .declare name value) :: value.sites slot
  | .assign name indirect value => (slot, .assign name indirect value) :: value.sites slot
  | .cond test yes no =>
    (slot, .cond test yes no) :: (test.sites slot ++ (Expr.rowSites slot no ++ Expr.rowSites slot yes))
  | .loop test body => (slot, .loop test body) :: (test.sites slot ++ Expr.rowSites slot body)
  | .unary operator operand => (slot, .unary operator operand) :: operand.sites slot
  | .binary operator left right =>
    (slot, .binary operator left right) :: (left.sites slot ++ right.sites (slot + 1))
  | .apply name arguments => (slot, .apply name arguments) :: Expr.argumentSites slot arguments

def Expr.rowSites (slot : Nat) : List Expr → List (Nat × Expr)
  | [] => []
  | e :: es => e.sites slot ++ Expr.rowSites slot es

/-- Every argument is compiled one slot further on than the one before it. -/
def Expr.argumentSites (slot : Nat) : List Expr → List (Nat × Expr)
  | [] => []
  | e :: es => e.sites slot ++ Expr.argumentSites (slot + 1) es

end

mutual

theorem Expr.map_snd_sites (slot : Nat) : ∀ e : Expr, (e.sites slot).map Prod.snd = e.parts
  | .literal _ | .symbol _ | .reference _ _ => rfl
  | .declare _ value | .assign _ _ value => by
    simp [Expr.sites, Expr.parts, Expr.map_snd_sites slot value]
  | .cond test yes no => by
    simp [Expr.sites, Expr.parts, Expr.map_snd_sites slot test, Expr.map_snd_rowSites slot no,
      Expr.map_snd_rowSites slot yes]
  | .loop test body => by
    simp [Expr.sites, Expr.parts, Expr.map_snd_sites slot test, Expr.map_snd_rowSites slot body]
  | .unary _ operand => by simp [Expr.sites, Expr.parts, Expr.map_snd_sites slot operand]
  | .binary _ left right => by
    simp [Expr.sites, Expr.parts, Expr.map_snd_sites slot left, Expr.map_snd_sites (slot + 1) right]
  | .apply _ arguments => by
    simp [Expr.sites, Expr.parts, Expr.map_snd_argumentSites slot arguments]

theorem Expr.map_snd_rowSites (slot : Nat) : ∀ es : List Expr,
    (Expr.rowSites slot es).map Prod.snd = Expr.rowParts es
  | [] => rfl
  | e :: es => by
    simp [Expr.rowSites, Expr.rowParts, Expr.map_snd_sites slot e, Expr.map_snd_rowSites slot es]

theorem Expr.map_snd_argumentSites (slot : Nat) : ∀ es : List Expr,
    (Expr.argumentSites slot es).map Prod.snd = Expr.rowParts es
  | [] => rfl
  | e :: es => by
    simp [Expr.argumentSites, Expr.rowParts, Expr.map_snd_sites slot e,
      Expr.map_snd_argumentSites (slot + 1) es]

end

section
variable {t : Nat} {part : Expr}

mutual

/-- What is within an expression needs no slots that the expression itself does not. -/
theorem Expr.bounds_of_mem_sites (slot : Nat) : ∀ e : Expr, (t, part) ∈ e.sites slot →
    slot ≤ t ∧ t + part.temporaries ≤ slot + e.temporaries
  | .literal _, h | .symbol _, h | .reference _ _, h => by
    cases List.mem_singleton.mp h
    exact ⟨le_refl _, le_refl _⟩
  | .declare _ value, h | .assign _ _ value, h | .unary _ value, h => by
    rcases List.mem_cons.mp h with h | h
    · cases h
      exact ⟨le_refl _, le_refl _⟩
    · exact Expr.bounds_of_mem_sites slot value h
  | .cond test yes no, h => by
    simp only [Expr.sites, List.mem_cons, List.mem_append] at h
    rcases h with h | h | h | h
    · cases h
      exact ⟨le_refl _, le_refl _⟩
    · have := Expr.bounds_of_mem_sites slot test h
      rw [Expr.temporaries]
      omega
    · have := Expr.bounds_of_mem_rowSites slot no h
      rw [Expr.temporaries]
      omega
    · have := Expr.bounds_of_mem_rowSites slot yes h
      rw [Expr.temporaries]
      omega
  | .loop test body, h => by
    simp only [Expr.sites, List.mem_cons, List.mem_append] at h
    rcases h with h | h | h
    · cases h
      exact ⟨le_refl _, le_refl _⟩
    · have := Expr.bounds_of_mem_sites slot test h
      rw [Expr.temporaries]
      omega
    · have := Expr.bounds_of_mem_rowSites slot body h
      rw [Expr.temporaries]
      omega
  | .binary _ left right, h => by
    simp only [Expr.sites, List.mem_cons, List.mem_append] at h
    rcases h with h | h | h
    · cases h
      exact ⟨le_refl _, le_refl _⟩
    · have := Expr.bounds_of_mem_sites slot left h
      rw [Expr.temporaries]
      omega
    · have := Expr.bounds_of_mem_sites (slot + 1) right h
      rw [Expr.temporaries]
      omega
  | .apply _ arguments, h => by
    rcases List.mem_cons.mp h with h | h
    · cases h
      exact ⟨le_refl _, le_refl _⟩
    · exact Expr.bounds_of_mem_argumentSites slot 0 arguments h

theorem Expr.bounds_of_mem_rowSites (slot : Nat) : ∀ es : List Expr, (t, part) ∈ Expr.rowSites slot es →
    slot ≤ t ∧ t + part.temporaries ≤ slot + Expr.rowTemporaries es
  | [], h => by cases h
  | e :: es, h => by
    rw [Expr.rowTemporaries]
    rcases List.mem_append.mp h with h | h
    · have := Expr.bounds_of_mem_sites slot e h
      omega
    · have := Expr.bounds_of_mem_rowSites slot es h
      omega

theorem Expr.bounds_of_mem_argumentSites (start kept : Nat) : ∀ es : List Expr,
    (t, part) ∈ Expr.argumentSites (start + kept) es →
      start ≤ t ∧ t + part.temporaries ≤ start + Expr.argumentTemporaries kept es
  | [], h => by cases h
  | e :: es, h => by
    rw [Expr.argumentTemporaries]
    rcases List.mem_append.mp h with h | h
    · have := Expr.bounds_of_mem_sites (start + kept) e h
      omega
    · have := Expr.bounds_of_mem_argumentSites start (kept + 1) es h
      omega

end

end

end WordLisp

import Cssom.Proofs.Recovery.Nesting

/-!
# Where scans stop in a block

A scan over the rest of a declaration, of arguments, of a media list or of an unknown block stops in
the braces it started in. A scan over the rest of a rule does if a semicolon or a block is left
there; if not (`Unended`), it goes on through the closing brace (`passRule_inside`,
`passRule_unended`).
-/

namespace Cssom.Grammar

open Production Token

variable {close : Lexeme} {after : List Lexeme} {braces : Nat} {input : Input}

/-- Before the next closing brace there is neither a semicolon nor an opening brace. -/
def Unended (ahead : List Lexeme) : Prop :=
  ∀ lexeme ∈ ahead.takeWhile fun l => l.token.kind != .closeCurly,
    lexeme.token.kind ≠ .semicolon ∧ lexeme.token.kind ≠ .openCurly

instance : DecidablePred Unended := fun ahead =>
  inferInstanceAs (Decidable (∀ lexeme ∈ ahead.takeWhile fun l => l.token.kind != .closeCurly,
    lexeme.token.kind ≠ .semicolon ∧ lexeme.token.kind ≠ .openCurly))

/-- At a closing brace neither a semicolon nor a block is left. -/
theorem unended_of_close {lexeme : Lexeme} {rest : List Lexeme}
    (h : lexeme.token.kind = .closeCurly) : Unended (lexeme :: rest) := by
  intro l hl
  rw [List.takeWhile_cons, h] at hl
  exact absurd hl (by simp)

/-- Behind any other token neither is left just if it is none of them and none is left there. -/
theorem unended_cons {lexeme : Lexeme} {rest : List Lexeme}
    (h : lexeme.token.kind ≠ .closeCurly) : Unended (lexeme :: rest) ↔
      lexeme.token.kind ≠ .semicolon ∧ lexeme.token.kind ≠ .openCurly ∧ Unended rest := by
  have hk : (lexeme.token.kind != .closeCurly) = true := bne_iff_ne.2 h
  unfold Unended
  rw [List.takeWhile_cons, if_pos hk, List.forall_mem_cons, and_assoc]

/-- To move on leaves a round fewer to go. -/
theorem size_advance_le {rounds : Nat} (h : input.size ≤ rounds + 1) :
    input.advance.size ≤ rounds := by
  have : input.advance.size = input.size - 1 := rfl
  omega

/-- What is no brace leaves as many braces open as there were. -/
theorem bracesAfter_of_ne {depth : Nat} {kind : Kind} (ho : kind ≠ .openCurly)
    (hc : kind ≠ .closeCurly) : bracesAfter depth kind = depth := by
  cases kind <;> first | rfl | exact absurd rfl ho | exact absurd rfl hc

/-! ### The rest of a rule -/

/-- With a brace open, passing over the rest of a rule stops behind the brace that closes it. -/
theorem passRuleFrom_inside_brace (hclose : close.token.kind = .closeCurly) {rounds depth : Nat}
    (hr : input.size ≤ rounds) (h : Inside (close :: after) (braces + (depth + 1)) input) :
    Inside (close :: after) braces ((passRuleFrom rounds (depth + 1)).read input).rest := by
  induction rounds generalizing depth input with
  | zero =>
    have hpos := h.size_pos
    omega
  | succ rounds ih =>
    have hsize := size_advance_le hr
    rw [passRuleFrom]
    simp only [rest_read_bind, read_view, h.atEnd_eq, Bool.false_eq_true, if_false, read_skip]
    by_cases ho : input.view.kind = .openCurly
    · simp only [ho, bracesAfter, endsRule]
      exact ih hsize (h.advance_open hclose ho)
    · by_cases hc : input.view.kind = .closeCurly
      · have hadv := Inside.advance_close h hc
        simp only [hc, bracesAfter, endsRule]
        cases depth with
        | zero => exact hadv
        | succ depth => exact ih hsize hadv
      · simp only [bracesAfter_of_ne ho hc]
        exact ih hsize (h.advance hclose ho hc)

/-- The rest of a rule that ends in its block is passed over in it. -/
theorem passRuleFrom_inside (hclose : close.token.kind = .closeCurly) {rounds : Nat}
    (hr : input.size ≤ rounds) (h : Inside (close :: after) braces input)
    (hu : ¬ Unended input.ahead) :
    Inside (close :: after) braces ((passRuleFrom rounds 0).read input).rest := by
  induction rounds generalizing input with
  | zero =>
    have hpos := h.size_pos
    omega
  | succ rounds ih =>
    have hsize := size_advance_le hr
    obtain ⟨lexeme, rest, hahead, hk, _, hrest⟩ := exists_ahead_eq h.ahead_ne_nil
    rw [passRuleFrom]
    simp only [rest_read_bind, read_view, h.atEnd_eq, Bool.false_eq_true, if_false, read_skip]
    by_cases ho : input.view.kind = .openCurly
    · simp only [ho, bracesAfter, endsRule]
      exact passRuleFrom_inside_brace hclose hsize (h.advance_open hclose ho)
    · have hc : input.view.kind ≠ .closeCurly := by
        intro hc
        rw [hahead] at hu
        exact hu (unended_of_close (hk ▸ hc))
      have hadv := h.advance hclose ho hc
      simp only [bracesAfter_of_ne ho hc]
      by_cases hs : input.view.kind = .semicolon
      · simpa [hs, endsRule] using hadv
      · have hends : endsRule input.view.kind = false := by simp [endsRule, hs, hc]
        simp only [hends]
        refine ih hsize hadv ?_
        rw [hahead, unended_cons (hk ▸ hc)] at hu
        rw [hrest]
        exact fun hun => hu ⟨hk ▸ hs, hk ▸ ho, hun⟩

/-- With a semicolon or a block left, passing over the rest of a rule stops in the same braces. -/
theorem passRule_inside (hclose : close.token.kind = .closeCurly)
    (h : Inside (close :: after) braces input) (hu : ¬ Unended input.ahead) :
    Inside (close :: after) braces (passRule.read input).rest := by
  rw [passRule, rest_read_bind, read_view]
  exact passRuleFrom_inside hclose (Nat.le_refl _) h hu

/-- The cursor has left the brace opened last: fewer are open, or the block itself was left. -/
def Left (tail : List Lexeme) (braces : Nat) (input : Input) : Prop :=
  (∃ fewer < braces, Inside tail fewer input) ∨ Beyond tail input

/-- Taking the closing brace leaves the brace opened last. -/
theorem Inside.left_of_close (h : Inside (close :: after) braces input)
    (hc : input.view.kind = .closeCurly) : Left (close :: after) braces input.advance := by
  cases braces with
  | zero => exact Or.inr (h.beyond_of_close hc)
  | succ braces => exact Or.inl ⟨braces, Nat.lt_succ_self _, h.advance_close hc⟩

/-- The rest of a rule that finds no end in its block is passed over through the closing brace. -/
theorem passRuleFrom_unended (hclose : close.token.kind = .closeCurly) {rounds : Nat}
    (hr : input.size ≤ rounds) (h : Inside (close :: after) braces input)
    (hu : Unended input.ahead) :
    Left (close :: after) braces ((passRuleFrom rounds 0).read input).rest := by
  induction rounds generalizing input with
  | zero =>
    have hpos := h.size_pos
    omega
  | succ rounds ih =>
    have hsize := size_advance_le hr
    obtain ⟨lexeme, rest, hahead, hk, _, hrest⟩ := exists_ahead_eq h.ahead_ne_nil
    rw [passRuleFrom]
    simp only [rest_read_bind, read_view, h.atEnd_eq, Bool.false_eq_true, if_false, read_skip]
    by_cases hc : input.view.kind = .closeCurly
    · simpa [hc, bracesAfter, endsRule] using h.left_of_close hc
    · rw [hahead, unended_cons (hk ▸ hc), ← hk] at hu
      obtain ⟨hs, ho, hun⟩ := hu
      have hends : endsRule input.view.kind = false := by simp [endsRule, hs, hc]
      simp only [bracesAfter_of_ne ho hc, hends]
      exact ih hsize (h.advance hclose ho hc) (hrest ▸ hun)

/-- With neither left, passing over the rest of a rule goes on through the closing brace. -/
theorem passRule_unended (hclose : close.token.kind = .closeCurly)
    (h : Inside (close :: after) braces input) (hu : Unended input.ahead) :
    Left (close :: after) braces (passRule.read input).rest := by
  rw [passRule, rest_read_bind, read_view]
  exact passRuleFrom_unended hclose (Nat.le_refl _) h hu

/-! ### The rest of a declaration -/

/-- The rest of a declaration is passed over in its block. -/
theorem passDeclarationFrom_inside (hclose : close.token.kind = .closeCurly) {rounds depth : Nat}
    (hr : input.size ≤ rounds) (h : Inside (close :: after) (braces + depth) input) :
    Inside (close :: after) braces ((passDeclarationFrom rounds depth).read input).rest := by
  induction rounds generalizing depth input with
  | zero =>
    have hpos := h.size_pos
    omega
  | succ rounds ih =>
    have hsize := size_advance_le hr
    rw [passDeclarationFrom]
    simp only [rest_read_bind, read_view, h.atEnd_eq, Bool.false_or]
    by_cases hstop : (decide (depth = 0) && endsRule input.view.kind) = true
    · simp only [hstop, if_true, read_pure]
      rw [Bool.and_eq_true, decide_eq_true_iff] at hstop
      rw [hstop.1] at h
      exact h
    · simp only [hstop, Bool.false_eq_true, if_false, rest_read_bind, read_skip]
      by_cases ho : input.view.kind = .openCurly
      · simp only [ho, bracesAfter]
        exact ih hsize (h.advance_open hclose ho)
      · by_cases hc : input.view.kind = .closeCurly
        · obtain ⟨depth, rfl⟩ : ∃ d, depth = d + 1 := by
            refine ⟨depth - 1, ?_⟩
            have hne : depth ≠ 0 := by
              intro hzero
              exact hstop (by simp [hzero, hc, endsRule])
            omega
          simp only [hc, bracesAfter]
          exact ih hsize (Inside.advance_close h hc)
        · simp only [bracesAfter_of_ne ho hc]
          exact ih hsize (h.advance hclose ho hc)

/-- Passing over the rest of a declaration stops in the same braces. -/
theorem passDeclaration_inside (hclose : close.token.kind = .closeCurly)
    (h : Inside (close :: after) braces input) :
    Inside (close :: after) braces (passDeclaration.read input).rest := by
  rw [passDeclaration, rest_read_bind, read_view]
  exact passDeclarationFrom_inside hclose (Nat.le_refl _) h

/-! ### An unknown block -/

/-- To keep a token is to move on from it. -/
theorem read_keepToken (keepSpace : Bool) (input : Input) :
    ((keepToken keepSpace).read input).rest = input.advance := by
  rw [keepToken]
  simp only [rest_read_bind, read_view, read_skip, read_pure]

/-- With braces open, keeping the tokens of an unknown block stops behind the one that closes it. -/
theorem unknownBlockFrom_inside (hclose : close.token.kind = .closeCurly) {rounds depth : Nat}
    (kept : List Token) (hr : input.size ≤ rounds)
    (h : Inside (close :: after) (braces + (depth + 1)) input) :
    Inside (close :: after) braces
      ((unknownBlockFrom rounds (depth + 1) kept).read input).rest := by
  induction rounds generalizing depth kept input with
  | zero =>
    have hpos := h.size_pos
    omega
  | succ rounds ih =>
    have hsize := size_advance_le hr
    rw [unknownBlockFrom]
    simp only [rest_read_bind, read_view, h.atEnd_eq, Bool.false_eq_true, if_false, read_keepToken]
    by_cases ho : input.view.kind = .openCurly
    · simp only [ho, bracesAfter]
      exact ih _ hsize (h.advance_open hclose ho)
    · by_cases hc : input.view.kind = .closeCurly
      · have hadv := Inside.advance_close h hc
        simp only [hc, bracesAfter]
        cases depth with
        | zero => exact hadv
        | succ depth => exact ih _ hsize hadv
      · simp only [bracesAfter_of_ne ho hc]
        exact ih _ hsize (h.advance hclose ho hc)

end Cssom.Grammar

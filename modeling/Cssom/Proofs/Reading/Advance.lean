import Cssom.Parser.Basic

/-!
# What a run does to the input

A production only moves on: whatever it is put together from, the input after a run is the input
before it with the cursor some lexemes further (`run_input`). So the lexemes ahead after a run are
the last of those ahead before it, and no more of them (`ahead_run_suffix`, `size_run_le`).
-/

namespace Cssom

/-! ### Moving on by lexemes -/

namespace Input

/-- The input with the cursor so many significant tokens further. -/
def advanceBy : Nat → Input → Input
  | 0, input => input
  | count + 1, input => advanceBy count input.advance

/-- To move on by some tokens and then by more is to move on by all of them. -/
theorem advanceBy_add (m n : Nat) (input : Input) :
    advanceBy (m + n) input = advanceBy n (advanceBy m input) := by
  induction m generalizing input with
  | zero => rw [Nat.zero_add, advanceBy]
  | succ m ih => rw [Nat.succ_add, advanceBy, advanceBy, ih]

@[simp] theorem ahead_advanceBy (n : Nat) (input : Input) :
    (advanceBy n input).ahead = input.ahead.drop n := by
  induction n generalizing input with
  | zero => rfl
  | succ n ih => rw [advanceBy, ih, ahead_advance, List.drop_tail]

@[simp] theorem eof_advanceBy (n : Nat) (input : Input) : (advanceBy n input).eof = input.eof := by
  induction n generalizing input with
  | zero => rfl
  | succ n ih => rw [advanceBy, ih, eof_advance]

/-- Moving on by some tokens leaves as many fewer. -/
theorem size_advanceBy (n : Nat) (input : Input) : (advanceBy n input).size = input.size - n := by
  rw [size_eq, size_eq, ahead_advanceBy, List.length_drop]

/-- One input is another with the cursor at the same place or further on. -/
def Reaches (start stop : Input) : Prop :=
  ∃ n, stop = advanceBy n start

namespace Reaches

/-- An input reaches itself. -/
theorem refl (input : Input) : Reaches input input := ⟨0, rfl⟩

/-- An input reaches the next one. -/
theorem advance (input : Input) : Reaches input input.advance := ⟨1, rfl⟩

/-- What is reached from what is reached is reached. -/
theorem trans {a b c : Input} (hab : Reaches a b) (hbc : Reaches b c) : Reaches a c := by
  obtain ⟨m, rfl⟩ := hab
  obtain ⟨n, rfl⟩ := hbc
  exact ⟨m + n, (advanceBy_add m n a).symm⟩

/-- The lexemes ahead further on are the last of those ahead before. -/
theorem suffix {a b : Input} (h : Reaches a b) : b.ahead <:+ a.ahead := by
  obtain ⟨n, rfl⟩ := h
  rw [ahead_advanceBy]
  exact List.drop_suffix n a.ahead

/-- The end stays the same. -/
theorem eof_eq {a b : Input} (h : Reaches a b) : b.eof = a.eof := by
  obtain ⟨n, rfl⟩ := h
  exact eof_advanceBy n a

/-- Further on there are no more tokens ahead. -/
theorem size_le {a b : Input} (h : Reaches a b) : b.size ≤ a.size := by
  rw [b.size_eq, a.size_eq]
  exact h.suffix.length_le

/-- The tokens that are still to be read further on are the last of those before. -/
theorem tokens_suffix {a b : Input} (h : Reaches a b) : b.tokens <:+ a.tokens := by
  obtain ⟨n, rfl⟩ := h
  induction n generalizing a with
  | zero => exact List.suffix_refl _
  | succ n ih => exact (ih (a := a.advance)).trans ⟨_, a.tokens_advance⟩

end Reaches

/-! ### The end of the input -/

/-- An input has no tokens ahead just if no lexeme is. -/
theorem size_eq_zero_iff (input : Input) : input.size = 0 ↔ input.ahead = [] := by
  rw [input.size_eq, List.length_eq_zero_iff]

/-- The token under the cursor is of kind EOF at the end only. -/
theorem kind_view_eq_eof_iff (input : Input) : input.view.kind = .eof ↔ input.ahead = [] := by
  unfold View.kind view current
  rcases h : input.ahead with _ | ⟨lexeme, rest⟩
  · simpa using input.eof_kind
  · have hs := lexeme.significant
    have : lexeme.token.kind ≠ .eof := fun e => by simp [e, Token.Kind.isSignificant] at hs
    simpa using this

/-- An input has a token under the cursor just if some are ahead. -/
theorem hasTokens_iff (input : Input) : input.hasTokens = true ↔ 0 < input.size := by
  rw [input.size_eq, hasTokens]
  cases input.ahead <;> simp

end Input

namespace Parser

/-- A parser has a token under its cursor if its input has. -/
theorem hasTokens_eq (parser : Parser) : parser.hasTokens = parser.input.hasTokens := rfl

/-- A parser has a token under its cursor just if some are ahead. -/
theorem hasTokens_iff (parser : Parser) : parser.hasTokens = true ↔ 0 < parser.input.size :=
  parser.input.hasTokens_iff

/-- The token under the cursor is of kind EOF at the end only. -/
theorem kind_view_eq_eof_iff (parser : Parser) :
    parser.view.kind = .eof ↔ parser.hasTokens = false := by
  rw [view, Input.kind_view_eq_eof_iff, hasTokens, Input.hasTokens]
  simp

@[simp] theorem atEnd_view (parser : Parser) : parser.view.atEnd = !parser.hasTokens := by
  rw [View.atEnd, Bool.eq_iff_iff, beq_iff_eq, Bool.not_eq_true']
  exact parser.kind_view_eq_eof_iff

@[simp] theorem size_view (parser : Parser) : parser.view.size = parser.input.size := rfl

@[simp] theorem input_advance (parser : Parser) : parser.advance.input = parser.input.advance := rfl

@[simp] theorem input_report (parser : Parser) (diagnostic : Diagnostic) :
    (parser.report diagnostic).input = parser.input := rfl

@[simp] theorem input_openFrame (parser : Parser) : parser.openFrame.input = parser.input := rfl

@[simp] theorem input_closeFrame (parser : Parser) (entity : Option Entity) :
    (parser.closeFrame entity).input = parser.input := rfl

/-- What is seen hangs on the input only. -/
theorem view_congr {s t : Parser} (h : s.input = t.input) : s.view = t.view :=
  congrArg Input.view h

@[simp] theorem size_advance (parser : Parser) :
    parser.advance.input.size = parser.input.size - 1 := rfl

end Parser

/-! ### Runs -/

namespace Production

/-- A run leaves the cursor where it was or moves it on. -/
theorem run_input {α : Type} (p : Production α) (parser : Parser) :
    parser.input.Reaches (p.run parser).2.input := by
  induction p generalizing parser with
  | done result => exact .refl _
  | look next ih => exact ih _ _
  | advance next ih => exact (Input.Reaches.advance _).trans (ih parser.advance)
  | report diagnostic next ih => exact ih (parser.report diagnostic)
  | enclosed body entity next ihBody ih =>
    have hbody := ihBody parser.openFrame
    exact hbody.trans (ih _ ((body.run parser.openFrame).2.closeFrame _))

/-- After a run there are no more tokens ahead than before. -/
theorem size_run_le {α : Type} (p : Production α) (parser : Parser) :
    (p.run parser).2.input.size ≤ parser.input.size :=
  (p.run_input parser).size_le

end Production

end Cssom

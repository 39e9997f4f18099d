import Cssom.Proofs.Reading.Outcome

/-!
# Standing inside a block

The tokens of a block nest properly when every closer closes the bracket opened last. `Within` says
so of what is left of a block whose closing brace starts a tail, given the brackets open at the
cursor; of these only the braces matter for where a rule may end, and `Inside` counts them. Taking a
token that is no brace stays at the same count, an opening brace goes one deeper, and a closing one
comes back or, at the outermost count, is the brace that closes the block.
-/

namespace Cssom.Grammar

open Production Token

/-! ### Brackets -/

/-- The brackets open after a token, each as the kind that closes it, from the inside out. A closer
must close the innermost. -/
def openAfter (opened : List Kind) (kind : Kind) : Option (List Kind) :=
  match kind.closer? with
  | some closer => some (closer :: opened)
  | none =>
    if kind.isCloser then
      match opened with
      | expected :: outer => if expected = kind then some outer else none
      | [] => none
    else some opened

/-- A token opens a bracket, closes the innermost, or does neither. -/
theorem openAfter_eq_some_iff {opened opened' : List Kind} {kind : Kind} :
    openAfter opened kind = some opened' ↔
      (∃ closer, kind.closer? = some closer ∧ opened' = closer :: opened) ∨
        (kind.isCloser = true ∧ opened = kind :: opened') ∨
        (kind.closer? = none ∧ kind.isCloser = false ∧ opened' = opened) := by
  unfold openAfter
  rcases hopens : kind.closer? with _ | closer
  · rcases hcloses : kind.isCloser
    · simp [eq_comm]
    · rcases opened with _ | ⟨expected, outer⟩
      · simp
      · by_cases hexpected : expected = kind <;> simp [hexpected]
  · have hcloses : kind.isCloser = false := by
      cases kind <;> first | rfl | cases hopens
    simp [hcloses, eq_comm]

/-- Whether the token is one that scans of a block see as it is: no unfinished string, no spoiled
address, and no keyword of a statement, which goes on to a semicolon whatever braces it passes. -/
def isPlain (token : Token) : Bool :=
  token.kind != .badString && token.kind != .badUrl &&
    !(token.kind == .atKeyword &&
      [AtKeyword.importRule, .charset, .namespaceRule].contains (AtKeyword.ofName token.name))

/-- What is ahead of a cursor in a block: with these brackets open, plain tokens that nest properly,
up to a tail that starts with the brace that closes the block. -/
inductive Within (tail : List Lexeme) : List Kind → List Lexeme → Prop where
  | atTail : Within tail [] tail
  | token {opened opened' : List Kind} {lexeme : Lexeme} {rest : List Lexeme}
      (plain : isPlain lexeme.token = true)
      (step : openAfter opened lexeme.token.kind = some opened')
      (more : Within tail opened' rest) : Within tail opened (lexeme :: rest)

variable {close : Lexeme} {after : List Lexeme}

namespace Within

variable {opened : List Kind} {lexeme : Lexeme} {rest : List Lexeme}

/-- Within a block its closing brace at least is ahead. -/
theorem ne_nil (h : Within (close :: after) opened rest) : rest ≠ [] := by
  cases h <;> simp

/-- A token that is no closing brace leaves the rest of the block ahead. -/
theorem of_not_close (h : Within (close :: after) opened (lexeme :: rest))
    (hclose : close.token.kind = .closeCurly) (hk : lexeme.token.kind ≠ .closeCurly) :
    isPlain lexeme.token = true ∧ ∃ opened', openAfter opened lexeme.token.kind = some opened' ∧
      Within (close :: after) opened' rest := by
  cases h with
  | atTail => exact absurd hclose hk
  | token plain step more => exact ⟨plain, _, step, more⟩

/-- A closing brace closes the block, or the brace opened last. -/
theorem of_close (h : Within (close :: after) opened (lexeme :: rest))
    (hk : lexeme.token.kind = .closeCurly) :
    (opened = [] ∧ rest = after) ∨
      ∃ outer, opened = .closeCurly :: outer ∧ Within (close :: after) outer rest := by
  cases h with
  | atTail => exact Or.inl ⟨rfl, rfl⟩
  | token plain step more =>
    right
    rw [hk] at step
    rcases openAfter_eq_some_iff.1 step with ⟨_, hopens, _⟩ | ⟨_, hopened⟩ | ⟨_, hcloses, _⟩
    · cases hopens
    · exact ⟨_, hopened, more⟩
    · cases hcloses

end Within

/-- Bracket kinds other than braces. -/
theorem count_openAfter {opened opened' : List Kind} {kind : Kind}
    (h : openAfter opened kind = some opened') (ho : kind ≠ .openCurly)
    (hc : kind ≠ .closeCurly) : opened'.count .closeCurly = opened.count .closeCurly := by
  rcases openAfter_eq_some_iff.1 h with ⟨closer, hcloser, rfl⟩ | ⟨_, rfl⟩ | ⟨_, _, rfl⟩
  · have hne : closer ≠ .closeCurly := by
      rintro rfl
      cases kind <;> simp [Kind.closer?] at hcloser ho
    rw [List.count_cons_of_ne hne]
  · rw [List.count_cons_of_ne hc]
  · rfl

/-! ### Inputs inside a block -/

/-- The cursor stands in a block that a tail follows, with so many braces open, and the tokens ahead
start at different bytes. -/
structure Inside (tail : List Lexeme) (braces : Nat) (input : Input) : Prop where
  within : ∃ opened, Within tail opened input.ahead ∧ opened.count .closeCurly = braces
  nodup : input.offsets.Nodup

/-- The cursor has left a block: the brace that closes it was passed. -/
def Beyond (tail : List Lexeme) (input : Input) : Prop :=
  input.size < tail.length

/-- Where something is ahead its first lexeme is under the cursor, and the rest is ahead behind
it. -/
theorem exists_ahead_eq {input : Input} (h : input.ahead ≠ []) :
    ∃ lexeme rest, input.ahead = lexeme :: rest ∧ input.view.kind = lexeme.token.kind ∧
      input.view.token = lexeme.token ∧ input.advance.ahead = rest := by
  obtain ⟨lexeme, rest, hahead⟩ := List.exists_cons_of_ne_nil h
  refine ⟨lexeme, rest, hahead, ?_, ?_, ?_⟩
  · rw [View.kind, Input.view, Input.current, hahead]
  · rw [Input.view, Input.current, hahead]
  · rw [Input.ahead_advance, hahead, List.tail_cons]

namespace Inside

variable {braces : Nat} {input : Input}

/-- Inside of a block something is ahead. -/
theorem ahead_ne_nil (h : Inside (close :: after) braces input) : input.ahead ≠ [] := by
  obtain ⟨_, hw, _⟩ := h.within
  exact hw.ne_nil

/-- Inside of a block there are tokens. -/
theorem size_pos (h : Inside (close :: after) braces input) : 0 < input.size := by
  rw [input.size_eq]
  exact List.length_pos_iff.2 h.ahead_ne_nil

/-- Inside of a block the end is not under the cursor. -/
theorem kind_ne_eof (h : Inside (close :: after) braces input) : input.view.kind ≠ .eof := by
  obtain ⟨lexeme, rest, _, hk, _⟩ := exists_ahead_eq h.ahead_ne_nil
  rw [hk]
  intro e
  have hs := lexeme.significant
  rw [e] at hs
  exact absurd hs (by decide)

/-- Inside of a block the source is not at its end. -/
theorem atEnd_eq (h : Inside (close :: after) braces input) : input.view.atEnd = false :=
  beq_false_of_ne h.kind_ne_eof

/-- Inside of a block a token is under the cursor. -/
theorem hasTokens (h : Inside (close :: after) braces input) : input.hasTokens = true :=
  input.hasTokens_iff.2 h.size_pos

/-- The tokens of a block start at different bytes behind the cursor too. -/
theorem nodup_advance (h : Inside (close :: after) braces input) :
    input.advance.offsets.Nodup :=
  (Input.Reaches.advance input).nodup_offsets h.nodup

/-- Inside of a block a token that is no closing brace is plain. -/
theorem plain (hclose : close.token.kind = .closeCurly)
    (h : Inside (close :: after) braces input) (hc : input.view.kind ≠ .closeCurly) :
    isPlain input.view.token = true := by
  obtain ⟨opened, hw, _⟩ := h.within
  obtain ⟨lexeme, rest, hahead, hk, htok, _⟩ := exists_ahead_eq h.ahead_ne_nil
  rw [hahead] at hw
  rw [htok]
  exact (hw.of_not_close hclose (hk ▸ hc)).1

/-- Taking a token that is no brace stays in the same braces. -/
theorem advance (hclose : close.token.kind = .closeCurly)
    (h : Inside (close :: after) braces input) (ho : input.view.kind ≠ .openCurly)
    (hc : input.view.kind ≠ .closeCurly) : Inside (close :: after) braces input.advance := by
  refine ⟨?_, h.nodup_advance⟩
  obtain ⟨opened, hw, hcount⟩ := h.within
  obtain ⟨lexeme, rest, hahead, hk, _, hrest⟩ := exists_ahead_eq h.ahead_ne_nil
  rw [hahead] at hw
  obtain ⟨_, opened', hstep, hmore⟩ := hw.of_not_close hclose (hk ▸ hc)
  refine ⟨opened', hrest ▸ hmore, ?_⟩
  rw [count_openAfter hstep (hk ▸ ho) (hk ▸ hc), hcount]

/-- Taking an opening brace goes one brace deeper. -/
theorem advance_open (hclose : close.token.kind = .closeCurly)
    (h : Inside (close :: after) braces input) (ho : input.view.kind = .openCurly) :
    Inside (close :: after) (braces + 1) input.advance := by
  refine ⟨?_, h.nodup_advance⟩
  obtain ⟨opened, hw, hcount⟩ := h.within
  obtain ⟨lexeme, rest, hahead, hk, _, hrest⟩ := exists_ahead_eq h.ahead_ne_nil
  rw [hahead] at hw
  rw [hk] at ho
  obtain ⟨_, opened', hstep, hmore⟩ := hw.of_not_close hclose (by rw [ho]; decide)
  have hopen : .closeCurly :: opened = opened' := by
    rw [ho] at hstep
    exact Option.some.inj hstep
  refine ⟨opened', hrest ▸ hmore, ?_⟩
  rw [← hopen, List.count_cons_self, hcount]

/-- Taking a closing brace comes back from the brace opened last. -/
theorem advance_close (h : Inside (close :: after) (braces + 1) input)
    (hc : input.view.kind = .closeCurly) : Inside (close :: after) braces input.advance := by
  refine ⟨?_, h.nodup_advance⟩
  obtain ⟨opened, hw, hcount⟩ := h.within
  obtain ⟨lexeme, rest, hahead, hk, _, hrest⟩ := exists_ahead_eq h.ahead_ne_nil
  rw [hahead] at hw
  rcases hw.of_close (hk ▸ hc) with ⟨rfl, _⟩ | ⟨outer, rfl, hmore⟩
  · exact absurd hcount (by simp)
  · rw [List.count_cons_self, Nat.add_right_cancel_iff] at hcount
    exact ⟨outer, hrest ▸ hmore, hcount⟩

/-- With no braces open a closing brace is the one that closes the block. -/
theorem ahead_of_close (h : Inside (close :: after) 0 input)
    (hc : input.view.kind = .closeCurly) : input.ahead = close :: after := by
  obtain ⟨opened, hw, hcount⟩ := h.within
  obtain ⟨lexeme, rest, hahead, hk, _, _⟩ := exists_ahead_eq h.ahead_ne_nil
  rw [hahead] at hw
  rw [hahead]
  rw [hk] at hc
  cases hw with
  | atTail => rfl
  | token plain step more =>
    have hw : Within (close :: after) opened (lexeme :: rest) := .token plain step more
    rcases hw.of_close hc with ⟨rfl, _⟩ | ⟨outer, rfl, _⟩
    · rw [hc] at step
      exact absurd step (by simp [openAfter, Kind.closer?, Kind.isCloser])
    · exact absurd hcount (by simp)

/-- Behind the brace that closes the block the cursor has left it. -/
theorem beyond_of_close (h : Inside (close :: after) 0 input)
    (hc : input.view.kind = .closeCurly) : Beyond (close :: after) input.advance := by
  have hahead := h.ahead_of_close hc
  unfold Beyond
  rw [Input.size_eq, Input.ahead_advance, hahead]
  exact Nat.lt_succ_self _

end Inside

/-- Once a block was left it stays so. -/
theorem Beyond.of_reaches {tail : List Lexeme} {i j : Input} (h : Beyond tail i)
    (hr : i.Reaches j) : Beyond tail j :=
  Nat.lt_of_le_of_lt hr.size_le h

end Cssom.Grammar

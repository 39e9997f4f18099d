import Cssom.Token.Basic

/-!
# Lexemes

Productions read significant tokens. A *lexeme* is one of them with the trivia that stands before
it; of the trivia a production sees only the *spacing*: whether there is any, and whether any of it
is white space. `group` cuts a token list into lexemes and the trivia after the last of them, and
`ungroup_group` says that no token is lost.
-/

namespace Cssom

/-- What stands between a token and the significant one before it. -/
inductive Spacing where
  /-- Nothing. -/
  | none
  /-- White space, perhaps among comments. -/
  | space
  /-- Comments or markers of an HTML comment only. -/
  | comment
deriving DecidableEq, Inhabited

namespace Spacing

/-- The spacing that some trivia make. -/
def ofTrivia (trivia : List Token) : Spacing :=
  if trivia.any (·.kind == .whitespace) then space
  else if trivia.isEmpty then none
  else comment

/-- Whether anything stands there. -/
def isOpen (spacing : Spacing) : Bool :=
  spacing != none

end Spacing

/-- A significant token with what stands before it, none of which is significant. -/
structure Lexeme where
  lead : List Token
  token : Token
  significant : token.kind.isSignificant = true
  lead_insignificant : ∀ t ∈ lead, t.kind.isSignificant = false

namespace Lexeme

/-- The tokens of the lexeme, in order. -/
def tokens (lexeme : Lexeme) : List Token :=
  lexeme.lead ++ [lexeme.token]

/-- The spacing before the token. -/
def spacing (lexeme : Lexeme) : Spacing :=
  .ofTrivia lexeme.lead

/-- The lexeme with one more token of trivia in front. -/
def precede (token : Token) (h : token.kind.isSignificant = false) (lexeme : Lexeme) : Lexeme where
  lead := token :: lexeme.lead
  token := lexeme.token
  significant := lexeme.significant
  lead_insignificant := by
    intro t ht
    rcases List.mem_cons.1 ht with rfl | ht
    · exact h
    · exact lexeme.lead_insignificant t ht

/-- Tokens as lexemes, and the tokens after the last of them. -/
def group : List Token → List Lexeme × List Token
  | [] => ([], [])
  | token :: rest =>
    let (lexemes, trailing) := group rest
    if h : token.kind.isSignificant = true then
      (⟨[], token, h, fun _ ht => absurd ht List.not_mem_nil⟩ :: lexemes, trailing)
    else match lexemes with
      | [] => ([], token :: trailing)
      | next :: more => (next.precede token (Bool.eq_false_iff.2 h) :: more, trailing)

/-- Lexemes as the tokens they were cut from. -/
def ungroup (lexemes : List Lexeme) : List Token :=
  lexemes.flatMap tokens

/-- A token of trivia that comes before a lexeme is the first of its tokens. -/
theorem tokens_precede (token : Token) (h : token.kind.isSignificant = false) (lexeme : Lexeme) :
    (lexeme.precede token h).tokens = token :: lexeme.tokens := rfl

/-- Cut into lexemes and what follows the last of them, no token is lost, and none moves. -/
theorem ungroup_group (tokens : List Token) :
    ungroup (group tokens).1 ++ (group tokens).2 = tokens := by
  induction tokens with
  | nil => rfl
  | cons token rest ih =>
    by_cases h : token.kind.isSignificant = true
    · simpa [group, h, ungroup, Lexeme.tokens] using ih
    · rcases hg : group rest with ⟨_ | ⟨next, more⟩, trailing⟩
      · rw [hg] at ih
        simpa [group, h, hg, ungroup] using ih
      · rw [hg] at ih
        simpa [group, h, hg, ungroup, tokens_precede] using ih

/-- What follows the last lexeme is not significant. -/
theorem group_trailing (tokens : List Token) :
    ∀ t ∈ (group tokens).2, t.kind.isSignificant = false := by
  induction tokens with
  | nil => exact fun _ ht => absurd ht List.not_mem_nil
  | cons token rest ih =>
    by_cases h : token.kind.isSignificant = true
    · simpa [group, h] using ih
    · rcases hg : group rest with ⟨_ | ⟨next, more⟩, trailing⟩
      · rw [hg] at ih
        intro t ht
        have ht : t ∈ token :: trailing := by simpa [group, h, hg] using ht
        rcases List.mem_cons.1 ht with rfl | ht
        · exact Bool.eq_false_iff.2 h
        · exact ih t ht
      · rw [hg] at ih
        simpa [group, h, hg] using ih

end Lexeme

end Cssom

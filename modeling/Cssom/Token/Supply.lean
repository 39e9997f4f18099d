import Cssom.Token.Basic

/-!
# Supplies of tokens

A supply gives the tokens of a list up to the first token of kind EOF, and from then on the same
end over and over. The end is the last token of the list if that is of kind EOF; otherwise it is
an empty token where the last one stops.
-/

namespace Cssom.Token

/-- Tokens that are still to come, and the end after them. -/
structure Supply where
  pending : List Token
  eof : Token
  eof_kind : eof.kind = .eof

namespace Supply

/-- The end of a list of tokens. -/
def endOf (tokens : List Token) : { eof : Token // eof.kind = .eof } :=
  match tokens.getLast? with
  | none => ⟨endAt .origin, rfl⟩
  | some last =>
    if h : last.kind = .eof then ⟨last, h⟩ else ⟨endAt last.span.stop, rfl⟩

/-- The supply that a list of tokens makes. -/
def ofTokens (tokens : List Token) : Supply :=
  let eof := endOf tokens
  ⟨tokens.takeWhile (·.kind != .eof), eof.1, eof.2⟩

/-- The next token, and the supply after it. -/
def next (supply : Supply) : Token × Supply :=
  match supply.pending with
  | [] => (supply.eof, supply)
  | token :: rest => (token, { supply with pending := rest })

/-- The next so many tokens. -/
def take : Nat → Supply → List Token
  | 0, _ => []
  | count + 1, supply => supply.next.1 :: take count supply.next.2

end Supply

end Cssom.Token

import Cssom.Token.Lexeme
import Cssom.Token.Supply

/-!
# What a parser reads

An input holds the lexemes that are still to be read. The one *under the cursor* is the first of
them; after the last one the end of the source is under the cursor, and stays there however often
the cursor moves. `tokens_advance` says that moving takes exactly the tokens of one lexeme.
-/

namespace Cssom

/-- The unread part of a token list: its lexemes, what follows the last of them, and the end. -/
structure Input where
  ahead : List Lexeme
  trailing : List Token
  eof : Token
  /-- How many lexemes there are. -/
  size : Nat
  size_eq : size = ahead.length
  trailing_insignificant : ∀ t ∈ trailing, t.kind.isSignificant = false
  eof_kind : eof.kind = .eof

/-- What a production sees of its input: the token under the cursor, the spacing before it, the
significant token after it, and how many significant tokens there are from the cursor on. -/
structure View where
  token : Token
  spacing : Spacing
  next : Token
  size : Nat

namespace View

/-- The kind of the token under the cursor. -/
def kind (view : View) : Token.Kind :=
  view.token.kind

/-- Whether the end of the source is under the cursor. -/
def atEnd (view : View) : Bool :=
  view.token.kind == .eof

/-- Where the token under the cursor starts. -/
def position (view : View) : Position :=
  view.token.span.start

/-- The byte at which the token under the cursor starts. -/
def offset (view : View) : UInt32 :=
  view.token.span.start.offset

end View

namespace Input

/-- The input that a supply of tokens is. -/
def ofSupply (supply : Token.Supply) : Input where
  ahead := (Lexeme.group supply.pending).1
  trailing := (Lexeme.group supply.pending).2
  eof := supply.eof
  size := (Lexeme.group supply.pending).1.length
  size_eq := rfl
  trailing_insignificant := Lexeme.group_trailing supply.pending
  eof_kind := supply.eof_kind

/-- The input that a list of tokens is, up to its first token of kind EOF. -/
def ofTokens (tokens : List Token) : Input :=
  ofSupply (.ofTokens tokens)

/-- The tokens that are still to be read, trivia included. -/
def tokens (input : Input) : List Token :=
  Lexeme.ungroup input.ahead ++ input.trailing

/-- The token under the cursor. -/
def current (input : Input) : Token :=
  match input.ahead with
  | [] => input.eof
  | lexeme :: _ => lexeme.token

/-- The spacing before the token under the cursor. -/
def spacing (input : Input) : Spacing :=
  match input.ahead with
  | [] => .ofTrivia input.trailing
  | lexeme :: _ => lexeme.spacing

/-- The significant token after the one under the cursor. -/
def next (input : Input) : Token :=
  match input.ahead with
  | _ :: lexeme :: _ => lexeme.token
  | _ => input.eof

/-- What a production sees. -/
def view (input : Input) : View :=
  ⟨input.current, input.spacing, input.next, input.size⟩

/-- The tokens that come with the one under the cursor: the trivia before it and itself. The end
of the source comes with what follows the last lexeme. -/
def fetched (input : Input) : List Token :=
  match input.ahead with
  | [] => input.trailing
  | lexeme :: _ => lexeme.tokens

/-- What follows the last lexeme, as long as the cursor has not moved past it. -/
def trailingAfter (input : Input) : List Token :=
  if input.ahead.isEmpty then [] else input.trailing

/-- What follows the last lexeme is trivia. -/
theorem trailingAfter_insignificant (input : Input) :
    ∀ t ∈ input.trailingAfter, t.kind.isSignificant = false := by
  intro t ht
  unfold trailingAfter at ht
  split at ht
  · exact absurd ht List.not_mem_nil
  · exact input.trailing_insignificant t ht

/-- The input with the cursor on the next significant token. -/
def advance (input : Input) : Input where
  ahead := input.ahead.tail
  trailing := input.trailingAfter
  eof := input.eof
  size := input.size - 1
  size_eq := (congrArg (· - 1) input.size_eq).trans List.length_tail.symm
  trailing_insignificant := input.trailingAfter_insignificant
  eof_kind := input.eof_kind

/-- Whether there is a significant token under the cursor. -/
def hasTokens (input : Input) : Bool :=
  !input.ahead.isEmpty

@[simp] theorem ahead_advance (input : Input) : input.advance.ahead = input.ahead.tail := rfl

@[simp] theorem eof_advance (input : Input) : input.advance.eof = input.eof := rfl

/-- Moving takes the tokens that came with the one under the cursor. -/
theorem tokens_advance (input : Input) : input.fetched ++ input.advance.tokens = input.tokens := by
  rcases h : input.ahead with _ | ⟨lexeme, rest⟩
  · simp [fetched, tokens, advance, trailingAfter, h, Lexeme.ungroup]
  · simp [fetched, tokens, advance, trailingAfter, h, Lexeme.ungroup]

end Input

end Cssom

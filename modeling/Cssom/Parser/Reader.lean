import Cssom.Config
import Cssom.SyntaxTree.Builder
import Cssom.Token.Lexeme
import Cssom.Token.Supply

/-!
# Pulling tokens one at a time

A reader pulls tokens from a supply until one of them is no trivia; that one is then under its
cursor. To look at what follows the token under the cursor it pulls further tokens ahead of time and
keeps them, trivia included, in a queue, from which it takes before it takes from the supply. The
syntax tree takes a token when the cursor moves to it or over it, and not when it is queued.

A parser does not look at its tokens one by one, and has no queue; it shows what a reader of the
same tokens shows.
-/

namespace Cssom

/-- The spacing with one more token of trivia behind it. -/
def Spacing.widen (spacing : Spacing) (kind : Token.Kind) : Spacing :=
  if kind = .whitespace then .space
  else if spacing = .none then .comment
  else spacing

/-- A cursor over tokens that are pulled one at a time. -/
structure Reader where
  supply : Token.Supply
  /-- Tokens that were pulled ahead of time, in the order in which they were supplied. -/
  queue : List Token
  current : Token
  spacing : Spacing
  tree : Option SyntaxTree.Builder

namespace Reader

/-- The next token of any kind: the first of the queue, or else the next of the supply. -/
def takeNext (reader : Reader) : Token × Reader :=
  match reader.queue with
  | token :: rest => (token, { reader with queue := rest })
  | [] => (reader.supply.next.1, { reader with supply := reader.supply.next.2 })

/-- Takes a token into the tree, if one is kept. -/
def record (reader : Reader) (token : Token) : Reader :=
  { reader with tree := reader.tree.map (·.record token) }

/-! ### Moving the cursor -/

/-- How many tokens are left before the end. -/
def left (reader : Reader) : Nat :=
  reader.queue.length + reader.supply.pending.length

/-- Pulling a token of trivia leaves fewer tokens before the end. -/
theorem left_takeNext_lt (reader : Reader) (h : reader.takeNext.1.kind.isTrivia = true) :
    reader.takeNext.2.left < reader.left := by
  rcases reader with ⟨⟨pending, eof, heof⟩, queue, _, _, _⟩
  cases queue with
  | cons token rest => simp [takeNext, left]
  | nil =>
    cases pending with
    | cons token rest => simp [takeNext, left, Token.Supply.next]
    | nil =>
      have hkind : eof.kind.isTrivia = true := h
      rw [heof] at hkind
      exact absurd hkind (by decide)

/-- Goes on over trivia, and to the first token that is none. The end is not taken into the tree. -/
def pullFrom (reader : Reader) : Reader :=
  let token := reader.takeNext.1
  let rest := reader.takeNext.2
  if _h : token.kind.isTrivia = true then
    pullFrom ({ rest with spacing := rest.spacing.widen token.kind }.record token)
  else
    let rest := if token.kind = .eof then rest else rest.record token
    { rest with current := token }
termination_by reader.left
decreasing_by exact reader.left_takeNext_lt ‹_›

/-- Moves to the next token that is no trivia. -/
def pull (reader : Reader) : Reader :=
  pullFrom { reader with spacing := .none }

/-- The token under the cursor, and the reader moved on from it. -/
def advance (reader : Reader) : Token × Reader :=
  (reader.current, reader.pull)

/-! ### Looking ahead -/

/-- The first token in the queue that is no trivia. -/
def queued? (reader : Reader) : Option Token :=
  reader.queue.find? fun token => !token.kind.isTrivia

/-- Pulls a token ahead of time. -/
def enqueue (reader : Reader) : Reader :=
  { reader with
    supply := reader.supply.next.2
    queue := reader.queue ++ [reader.supply.next.1] }

/-- How many tokens may have to be queued until one of them is no trivia. -/
def unqueued (reader : Reader) : Nat :=
  if reader.queued?.isSome then 0 else reader.supply.pending.length + 1

/-- Queueing a token leaves fewer that may have to be queued. -/
theorem unqueued_enqueue_lt (reader : Reader) (h : reader.queued? = none) :
    reader.enqueue.unqueued < reader.unqueued := by
  have hbefore : reader.unqueued = reader.supply.pending.length + 1 := by
    rw [unqueued, h]
    rfl
  have hafter : reader.enqueue.queued? = [reader.supply.next.1].find? (!·.kind.isTrivia) := by
    rw [queued?, enqueue, List.find?_append, ← queued?, h, Option.none_or]
  rw [hbefore, unqueued, hafter]
  rcases reader with ⟨⟨pending, eof, heof⟩, _, _, _, _⟩
  cases pending with
  | nil =>
    have hkind : eof.kind.isTrivia = false := by rw [heof]; rfl
    simp [Token.Supply.next, hkind]
  | cons token rest =>
    rcases htoken : token.kind.isTrivia <;> simp [Token.Supply.next, enqueue, htoken]

/-- The first token behind the one under the cursor that is no trivia. -/
def peek (reader : Reader) : Token × Reader :=
  match _h : reader.queued? with
  | some token => (token, reader)
  | none => reader.enqueue.peek
termination_by reader.unqueued
decreasing_by exact reader.unqueued_enqueue_lt ‹_›

/-! ### Calls -/

/-- A reader at the first significant token of a list. -/
def ofTokens (tokens : List Token) (config : Config) : Reader :=
  pull ⟨.ofTokens tokens, [], .endAt .origin, .none, if config.keepTree then some .empty else none⟩

/-- What may be asked of a reader. -/
inductive Call where
  | advance
  | peek
deriving DecidableEq

/-- The answer to a call, and the reader after it. -/
def perform (reader : Reader) : Call → Token × Reader
  | .advance => reader.advance
  | .peek => reader.peek

/-- The reader after some calls. -/
def performAll (reader : Reader) (calls : List Call) : Reader :=
  calls.foldl (fun reader call => (reader.perform call).2) reader

/-- A call with its answer, and what the reader shows after it. -/
structure Step where
  call : Call
  answer : Token
  current : Token
  spacing : Spacing
  tree : Option SyntaxTree.Builder

/-- A call as a step. -/
def step (reader : Reader) (call : Call) : Step :=
  let (answer, next) := reader.perform call
  ⟨call, answer, next.current, next.spacing, next.tree⟩

/-- Calls as steps, one after the other. -/
def steps (reader : Reader) : List Call → List Step
  | [] => []
  | call :: rest => reader.step call :: (reader.perform call).2.steps rest

end Reader

end Cssom

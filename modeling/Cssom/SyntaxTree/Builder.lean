import Cssom.SyntaxTree.Basic

/-!
# Building a syntax tree

A builder takes tokens one by one while frames are opened and closed. The token that a production
starts at was taken before its frame was opened, and the token it stops before was taken while the
frame was still open: opening a frame may hand the last token over to it, and closing one may hand
its last token back. At the bottom is the frame of the whole source, which is closed last.
-/

namespace Cssom.SyntaxTree

/-- The frames that are open, each with its nodes so far, the newest node and frame first. -/
structure Builder where
  /-- Nodes of the innermost frame. -/
  top : List SyntaxTree
  /-- Nodes of the frames around it, from the inside out. -/
  below : List (List SyntaxTree)

namespace Builder

/-- A builder whose one frame, that of the whole source, has no nodes. -/
def empty : Builder := ⟨[], []⟩

instance : Inhabited Builder := ⟨empty⟩

/-- How many frames are open inside of that of the whole source. -/
def depth (builder : Builder) : Nat :=
  builder.below.length

/-- Takes a token into the innermost frame. -/
def record (builder : Builder) (token : Token) : Builder :=
  { builder with top := leaf token :: builder.top }

/-- Takes tokens one after the other. -/
def recordAll (builder : Builder) (tokens : List Token) : Builder :=
  tokens.foldl record builder

/-- Opens a frame. With `withLast` the token taken last, if it is the last node, moves into it. -/
def openFrame (builder : Builder) (withLast : Bool) : Builder :=
  match withLast, builder.top with
  | true, leaf token :: rest => ⟨[leaf token], rest :: builder.below⟩
  | _, top => ⟨[], top :: builder.below⟩

/-- Closes the innermost frame. With `leaveLast` the token taken last, if it is the last node, moves
out of it and follows it. That of the whole source stays open. -/
def closeFrame (builder : Builder) (entity : Option Entity) (leaveLast : Bool) : Builder :=
  match builder.below with
  | [] => builder
  | outer :: below =>
    match leaveLast, builder.top with
    | true, leaf token :: rest => ⟨leaf token :: frame entity rest.reverse :: outer, below⟩
    | _, top => ⟨frame entity top.reverse :: outer, below⟩

/-- Closes frames from the inside out, each without an entity, down to that of the whole source. -/
def collapse : List SyntaxTree → List (List SyntaxTree) → List SyntaxTree
  | top, [] => top.reverse
  | top, outer :: below => collapse (frame none top.reverse :: outer) below

/-- The tree of the whole source. -/
def finish (builder : Builder) (entity : Option Entity) : SyntaxTree :=
  frame entity (collapse builder.top builder.below)

/-- The tokens taken so far, in the order of the nodes they are in. -/
def tokens (builder : Builder) : List Token :=
  allTokens (builder.below.foldl (fun inner outer => outer.reverse ++ inner) builder.top.reverse)

end Builder

end Cssom.SyntaxTree

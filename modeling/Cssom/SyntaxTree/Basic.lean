import Cssom.Entity

/-!
# Syntax trees

A syntax tree keeps every token of a source, trivia included. Its inner nodes are *frames*, one for
each run of a production, with the entity that the production built if it built one.
-/

namespace Cssom

/-- A token, or what one run of a production covers. -/
inductive SyntaxTree where
  | leaf (token : Token)
  | frame (entity : Option Entity) (nodes : List SyntaxTree)
deriving Inhabited

namespace SyntaxTree

mutual

/-- The tokens of the tree, in order. -/
def tokens : SyntaxTree → List Token
  | leaf token => [token]
  | frame _ nodes => allTokens nodes

/-- The tokens of the trees, in order. -/
def allTokens : List SyntaxTree → List Token
  | [] => []
  | node :: rest => node.tokens ++ allTokens rest

end

/-- Nodes of the outermost frame. -/
def nodes : SyntaxTree → List SyntaxTree
  | leaf _ => []
  | frame _ nodes => nodes

/-- The entity of the outermost frame. -/
def entity? : SyntaxTree → Option Entity
  | leaf _ => none
  | frame entity _ => entity

/-- Whether the tree is a frame. -/
def isFrame : SyntaxTree → Bool
  | leaf _ => false
  | frame _ _ => true

/-- Frames that stand directly in the outermost frame. -/
def children (tree : SyntaxTree) : List SyntaxTree :=
  tree.nodes.filter isFrame

/-- The source text that the tree covers. -/
def source (tree : SyntaxTree) : String :=
  Token.spelling tree.tokens

@[simp] theorem allTokens_append (a b : List SyntaxTree) :
    allTokens (a ++ b) = allTokens a ++ allTokens b := by
  induction a with
  | nil => rfl
  | cons node rest ih => rw [List.cons_append, allTokens, allTokens, ih, List.append_assoc]

end SyntaxTree

end Cssom

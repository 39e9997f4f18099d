import Cssom.Proofs.Reading.Outcome
import Cssom.Proofs.SyntaxTree.Lossless

/-!
# The nodes that reading adds

Which nodes a production adds to the frame it runs in hangs on the input alone, as its result does:
`nodes` says what they are, from the token under the cursor before to the one before the cursor
after, and `run_tree` that every run that keeps a tree adds just these. So facts about trees are
facts about lists of nodes, which are put together where productions are (`nodes_bind`).
-/

namespace Cssom

open SyntaxTree

namespace Input

/-- The trivia that come with the token under the cursor, or with the end. -/
def lead (input : Input) : List Token :=
  match input.ahead with
  | [] => input.trailing
  | lexeme :: _ => lexeme.lead

/-- The first tokens that are fetched are the trivia before the cursor and the token under it. -/
theorem fetched_eq (input : Input) : input.fetched = input.lead ++ input.current? := by
  unfold fetched lead current? hasTokens current
  rcases input.ahead with _ | ⟨lexeme, rest⟩
  · exact (List.append_nil _).symm
  · rfl

/-- What the cursor passes over when it moves: the token under it, and the trivia after. -/
def passed (input : Input) : List Token :=
  input.current? ++ input.advance.lead

/-- Moving on passes over the first tokens from the cursor on. -/
theorem fromCursor_advance (input : Input) :
    input.passed ++ input.advance.fromCursor = input.fromCursor := by
  rw [passed, fromCursor_eq, fromCursor_eq, beyondCursor, beyondCursor, List.append_assoc,
    ← List.append_assoc input.advance.lead, ← fetched_eq, tokens_advance]

end Input

namespace Production

variable {α β : Type}

/-- The nodes that a production adds to the frame in which it reads an input. -/
def nodes {α : Type} : Production α → Input → List SyntaxTree
  | done _, _ => []
  | look next, input => (next input.view).nodes input
  | advance next, input => input.passed.map leaf ++ next.nodes input.advance
  | report _ next, input => next.nodes input
  | enclosed body entity next, input =>
    frame (entity (body.read input).result) (body.nodes input) ::
      (next (body.read input).result).nodes (body.read input).rest

@[simp] theorem nodes_pure (a : α) (input : Input) : (pure a : Production α).nodes input = [] := rfl

/-- One production after another adds its nodes after those of the first one. -/
theorem nodes_bind (p : Production α) (f : α → Production β) (input : Input) :
    (p >>= f).nodes input =
      p.nodes input ++ (f (p.read input).result).nodes (p.read input).rest := by
  change (p.bind f).nodes input = _
  induction p generalizing input with
  | done result => rfl
  | look next ih => exact ih _ f _
  | advance next ih => simp only [Production.bind, nodes, read, ih, List.append_assoc]
  | report diagnostic next ih => simp only [Production.bind, nodes, read, ih]
  | enclosed body entity next _ ih =>
    simp only [Production.bind, nodes, read, ih, List.cons_append]

@[simp] theorem nodes_view (input : Input) : view.nodes input = [] := rfl

@[simp] theorem nodes_kind (input : Input) : kind.nodes input = [] := rfl

@[simp] theorem nodes_skip (input : Input) : skip.nodes input = input.passed.map leaf :=
  List.append_nil _

@[simp] theorem nodes_take (input : Input) : take.nodes input = input.passed.map leaf :=
  List.append_nil _

@[simp] theorem nodes_complainAt (cause : Cause) (position : Position) (input : Input) :
    (complainAt cause position).nodes input = [] := rfl

@[simp] theorem nodes_enclosed (body : Production β) (entity : β → Option Entity) (input : Input) :
    (enclosed body entity pure).nodes input =
      [frame (entity (body.read input).result) (body.nodes input)] := rfl

@[simp] theorem nodes_inFrame (entity : α → Entity) (body : Production (Option α))
    (input : Input) : (inFrame entity body).nodes input =
      [frame ((body.read input).result.map entity) (body.nodes input)] := rfl

/-- The nodes cover what lies between the places of the cursor before and after. -/
theorem allTokens_nodes (p : Production α) (input : Input) :
    allTokens (p.nodes input) ++ (p.read input).rest.fromCursor = input.fromCursor := by
  induction p generalizing input with
  | done result => rfl
  | look next ih => exact ih _ input
  | advance next ih =>
    have hleaves : allTokens (input.passed.map leaf) = input.passed := by
      induction input.passed with
      | nil => rfl
      | cons t ts ih => exact congrArg (t :: ·) ih
    rw [nodes, read, allTokens_append, hleaves, List.append_assoc, ih, Input.fromCursor_advance]
  | report diagnostic next ih => exact ih input
  | enclosed body entity next ihBody ih =>
    rw [nodes, read, allTokens, SyntaxTree.tokens, List.append_assoc, ih, ihBody]

end Production

/-! ### What a run adds to a tree -/

namespace SyntaxTree.Builder

/-- The builder of these frames that a cursor has reached with these nodes, the newest first: the
token under the cursor is in the innermost frame already. -/
def reached (input : Input) (nodes : List SyntaxTree) (below : List (List SyntaxTree)) : Builder :=
  ⟨input.current?.map leaf ++ nodes, below⟩

/-- Taking what comes with the token under the cursor reaches that token. -/
theorem recordAll_fetched (builder : Builder) (input : Input) :
    builder.recordAll input.fetched =
      .reached input ((input.lead.map leaf).reverse ++ builder.top) builder.below := by
  have htop := top_recordAll builder input.fetched
  have hbelow := below_recordAll builder input.fetched
  have hone : input.current?.reverse = input.current? := by
    unfold Input.current?
    split <;> rfl
  rcases h : builder.recordAll input.fetched with ⟨top, below⟩
  rw [h] at htop hbelow
  change top = _ at htop
  change below = _ at hbelow
  rw [htop, hbelow, reached, Input.fetched_eq, List.reverse_append, hone, List.map_append,
    List.append_assoc, List.map_reverse]

variable (input : Input) (nodes : List SyntaxTree) (below : List (List SyntaxTree))

/-- Moving on adds what is passed over to the innermost frame. -/
theorem recordAll_reached : (reached input nodes below).recordAll input.advance.fetched =
    .reached input.advance ((input.passed.map leaf).reverse ++ nodes) below := by
  have hone : (input.current?.map leaf).reverse = input.current?.map leaf := by
    unfold Input.current?
    split <;> rfl
  rw [recordAll_fetched, Input.passed, List.map_append, List.reverse_append, hone,
    List.append_assoc]
  rfl

/-- A frame is opened around nothing. -/
theorem openFrame_reached : (reached input nodes below).openFrame input.hasTokens =
    .reached input [] (nodes :: below) := by
  unfold reached Input.current?
  rcases input.hasTokens <;> rfl

/-- Closing a frame makes one node of what it holds. -/
theorem closeFrame_reached (outer : List SyntaxTree) (entity : Option Entity) :
    (reached input nodes (outer :: below)).closeFrame entity input.hasTokens =
      .reached input (frame entity nodes.reverse :: outer) below := by
  unfold reached Input.current?
  rcases input.hasTokens <;> rfl

end SyntaxTree.Builder

namespace Production

variable {α : Type}

/-- A run that keeps a tree adds the nodes of the production to the frame it runs in. -/
theorem run_tree (p : Production α) {s : Parser} {newest : List SyntaxTree}
    {below : List (List SyntaxTree)} (h : s.tree = some (.reached s.input newest below)) :
    (p.run s).2.tree =
      some (.reached (p.read s.input).rest ((p.nodes s.input).reverse ++ newest) below) := by
  induction p generalizing s newest below with
  | done result => exact h
  | look next ih => exact ih _ h
  | advance next ih =>
    have hadvance : s.advance.tree =
        some (.reached s.advance.input ((s.input.passed.map leaf).reverse ++ newest) below) := by
      rw [Parser.advance, Parser.recordFetched, h, Option.map_some, Builder.recordAll_reached]
    rw [run, ih hadvance, nodes, List.reverse_append, List.append_assoc]
    rfl
  | report diagnostic next ih => exact ih h
  | enclosed body entity next ihBody ih =>
    have hopen : s.openFrame.tree = some (.reached s.openFrame.input [] (newest :: below)) := by
      rw [Parser.openFrame, h, Option.map_some, Parser.hasTokens, Builder.openFrame_reached]
    have hbody := ihBody hopen
    have hresult := body.run_result s.openFrame
    have hrest := body.run_rest s.openFrame
    rw [Parser.input_openFrame] at hbody hresult hrest
    have hclose (entity' : Option Entity) :
        ((body.run s.openFrame).2.closeFrame entity').tree =
          some (.reached (body.run s.openFrame).2.input
            (frame entity' (body.nodes s.input) :: newest) below) := by
      rw [Parser.closeFrame, hbody, Option.map_some, Parser.hasTokens, hrest,
        Builder.closeFrame_reached, List.append_nil, List.reverse_reverse]
    have hnext := ih (body.read s.input).result (hclose (entity (body.read s.input).result))
    rw [Parser.input_closeFrame, hrest] at hnext
    have hrun : (enclosed body entity next).run s =
        (next (body.run s.openFrame).1).run
          ((body.run s.openFrame).2.closeFrame (entity (body.run s.openFrame).1)) := rfl
    rw [hrun, hresult, hnext, nodes, List.reverse_cons, List.append_assoc]
    rfl

/-- Productions that run alike add the same nodes. -/
theorem nodes_of_run {p q : Production α} {input : Input}
    (h : ∀ s : Parser, s.input = input → p.run s = q.run s) : p.nodes input = q.nodes input := by
  let s : Parser := ⟨input, some (.reached input [] []), none, #[]⟩
  have hrun : p.run s = q.run s := h s rfl
  have hp : (p.run s).2.tree = _ := p.run_tree rfl
  have hq : (q.run s).2.tree = _ := q.run_tree rfl
  have hrest : (p.read input).rest = (q.read input).rest := by
    rw [← p.run_rest s, ← q.run_rest s, hrun]
  have hsame := hp.symm.trans ((congrArg (·.2.tree) hrun).trans hq)
  simpa [Builder.reached, s, hrest] using hsame

end Production

/-! ### The tree of a style sheet -/

/-- The tree of a style sheet: what stands before the first significant token, and the nodes that
reading adds. -/
theorem Stylesheet.syntaxTree_parse (tokens : List Token) {config : Config}
    (h : config.keepTree = true) : (Stylesheet.parse tokens config).2.syntaxTree =
      some (frame (some (.stylesheet (Stylesheet.parse tokens config).1))
        ((Input.ofTokens tokens).lead.map leaf ++
          (Grammar.stylesheet (.ofConfig config)).nodes (.ofTokens tokens))) := by
  have hstart : (Parser.ofTokens tokens config).tree = some
      (.reached (.ofTokens tokens) ((Input.ofTokens tokens).lead.map leaf).reverse []) := by
    rw [Parser.ofTokens, h]
    change some (Builder.empty.recordAll (Input.ofTokens tokens).fetched) = _
    rw [Builder.recordAll_fetched, Builder.empty, List.append_nil]
  have htree := (Grammar.stylesheet (.ofConfig config)).run_tree hstart
  have hend := Grammar.hasTokens_readStylesheet (.ofConfig config) (.ofTokens tokens config)
  have hinput : (Parser.ofTokens tokens config).input = .ofTokens tokens := rfl
  have hrest := (Grammar.stylesheet (.ofConfig config)).run_rest (.ofTokens tokens config)
  rw [hinput] at htree hrest
  rw [Parser.hasTokens] at hend
  rw [Parser.readStylesheet, hrest] at hend
  simp [Stylesheet.parse, Parser.readStylesheet, Parser.syntaxTree, htree, Builder.reached,
    Input.current?, hend, Builder.finish, Builder.collapse]

end Cssom

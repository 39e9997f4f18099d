import Cssom.Proofs.Reading.Moments
import Cssom.Proofs.SyntaxTree.Flatten

/-!
# Nothing is lost, doubled or misplaced

While a syntax tree is kept, its flat view is what was read so far: every token up to the one under
the cursor. What carries this through frames is that the token under the cursor, as long as there
is one, is the last node of the innermost frame (`Abreast`): a frame that is opened takes it over
and one that is closed gives it back. A frame then holds exactly the tokens from the one under the
cursor when it was opened to the one before the cursor when it was closed.
-/

namespace Cssom

namespace Input

/-- The tokens from the one under the cursor on. -/
def fromCursor (input : Input) : List Token :=
  match input.ahead with
  | [] => []
  | lexeme :: _ => lexeme.token :: input.advance.tokens

/-- The tokens that lie beyond the one under the cursor. -/
def beyondCursor (input : Input) : List Token :=
  input.advance.tokens

/-- The tokens from the cursor on are the one under it and those beyond it. -/
theorem fromCursor_of_hasTokens {input : Input} (h : input.hasTokens = true) :
    input.fromCursor = input.current :: input.beyondCursor := by
  unfold fromCursor current beyondCursor
  unfold hasTokens at h
  rcases hahead : input.ahead with _ | ⟨lexeme, rest⟩
  · simp [hahead] at h
  · rfl

/-- Nothing is ahead where there are no tokens. -/
theorem ahead_eq_nil {input : Input} (h : input.hasTokens = false) : input.ahead = [] := by
  unfold hasTokens at h
  simpa using h

/-- No token stands under the cursor at the end. -/
theorem fromCursor_of_not_hasTokens {input : Input} (h : input.hasTokens = false) :
    input.fromCursor = [] := by
  unfold fromCursor
  rw [ahead_eq_nil h]

/-- No token lies beyond the cursor at the end. -/
theorem beyondCursor_of_not_hasTokens {input : Input} (h : input.hasTokens = false) :
    input.beyondCursor = [] := by
  simp [beyondCursor, tokens, advance, trailingAfter, Lexeme.ungroup, ahead_eq_nil h]

/-- What comes with the token under the cursor, and then what lies beyond it. -/
theorem fetched_append_beyondCursor (input : Input) :
    input.fetched ++ input.beyondCursor = input.tokens :=
  input.tokens_advance

/-- As long as there is a token under the cursor, it is the last of those that come with it. -/
theorem fetched_of_hasTokens {input : Input} (h : input.hasTokens = true) :
    ∃ lead, input.fetched = lead ++ [input.current] := by
  unfold hasTokens at h
  unfold fetched current
  rcases hahead : input.ahead with _ | ⟨lexeme, rest⟩
  · simp [hahead] at h
  · exact ⟨lexeme.lead, rfl⟩

/-- The tokens of an input are those of its list up to the end marker. -/
theorem tokens_ofTokens (tokens : List Token) :
    (ofTokens tokens).tokens = tokens.takeWhile (·.kind != .eof) :=
  Lexeme.ungroup_group _

end Input

namespace SyntaxTree.Builder

/-- The builder holds the token under the cursor, if there is one, as the last node of its
innermost frame. -/
def Abreast (builder : Builder) (input : Input) : Prop :=
  input.hasTokens = true → ∃ rest, builder.top = leaf input.current :: rest

variable {builder : Builder} {input : Input}

/-- Taking what comes with the token under the cursor leaves that token as the last node. -/
theorem abreast_recordAll (builder : Builder) (input : Input) :
    (builder.recordAll input.fetched).Abreast input := by
  intro h
  obtain ⟨lead, hlead⟩ := Input.fetched_of_hasTokens h
  refine ⟨lead.reverse.map leaf ++ builder.top, ?_⟩
  rw [top_recordAll, hlead, List.reverse_append]
  rfl

/-- Opening a frame moves the token under the cursor into it, and nothing else. -/
theorem openFrame_of_abreast (h : builder.Abreast input) :
    ∃ outer, builder.openFrame input.hasTokens =
        ⟨if input.hasTokens then [leaf input.current] else [], outer :: builder.below⟩ ∧
      builder.topTokens =
        allTokens outer.reverse ++ if input.hasTokens then [input.current] else [] := by
  rcases htok : input.hasTokens
  · refine ⟨builder.top, ?_, ?_⟩
    · exact builder.openFrame_false
    · simp [topTokens]
  · obtain ⟨rest, hrest⟩ := h htok
    refine ⟨rest, ?_, ?_⟩
    · rcases builder with ⟨top, below⟩
      subst hrest
      rfl
    · rw [topTokens, hrest, allTokens_reverse_cons]
      rfl

/-- Closing a frame moves the token under the cursor out of it, and nothing else. -/
theorem closeFrame_of_abreast {outer : List SyntaxTree} {below : List (List SyntaxTree)}
    (h : builder.Abreast input) (hbelow : builder.below = outer :: below)
    (entity : Option Entity) :
    ∃ nodes, builder.closeFrame entity input.hasTokens =
        ⟨(if input.hasTokens then [leaf input.current] else []) ++ frame entity nodes :: outer,
          below⟩ ∧
      builder.topTokens =
        allTokens nodes ++ if input.hasTokens then [input.current] else [] := by
  rcases builder with ⟨top, _⟩
  subst hbelow
  rcases htok : input.hasTokens
  · refine ⟨top.reverse, rfl, ?_⟩
    simp [topTokens]
  · obtain ⟨rest, hrest⟩ := h htok
    change top = _ at hrest
    subst hrest
    refine ⟨rest.reverse, rfl, ?_⟩
    rw [topTokens, allTokens_reverse_cons]
    rfl

end SyntaxTree.Builder

namespace Input

/-- The token under the cursor, if there is one. -/
def current? (input : Input) : List Token :=
  if input.hasTokens then [input.current] else []

/-- The tokens from the cursor on are the one under it, if there is one, and those beyond it. -/
theorem fromCursor_eq (input : Input) :
    input.fromCursor = input.current? ++ input.beyondCursor := by
  unfold current?
  rcases h : input.hasTokens
  · rw [fromCursor_of_not_hasTokens h, beyondCursor_of_not_hasTokens h]
    rfl
  · exact fromCursor_of_hasTokens h

end Input

open SyntaxTree SyntaxTree.Builder

namespace Parser

/-- The parser keeps a tree, this one, whose last node is the token under the cursor. -/
structure Holds (parser : Parser) (builder : Builder) : Prop where
  tree_eq : parser.tree = some builder
  abreast : builder.Abreast parser.input

/-- One parser goes on from another in the same frame: no frame around it has changed, and the
tokens of the frame are those it had and those read since. -/
structure GoesOn (parser : Parser) (builder : Builder) (later : Parser) (next : Builder) : Prop
    where
  holds : later.Holds next
  below_eq : next.below = builder.below
  top_eq : next.topTokens ++ later.input.beyondCursor =
    builder.topTokens ++ parser.input.beyondCursor

variable {parser : Parser} {builder : Builder}

/-- A parser goes on from itself. -/
theorem GoesOn.refl (h : parser.Holds builder) : GoesOn parser builder parser builder :=
  ⟨h, rfl, rfl⟩

/-- Going on twice is going on. -/
theorem GoesOn.trans {middle later : Parser} {b₁ b₂ : Builder}
    (h₁ : GoesOn parser builder middle b₁) (h₂ : GoesOn middle b₁ later b₂) :
    GoesOn parser builder later b₂ :=
  ⟨h₂.holds, h₂.below_eq.trans h₁.below_eq, h₂.top_eq.trans h₁.top_eq⟩

/-- Moving on takes what comes with the next token into the same frame. -/
theorem goesOn_advance (h : parser.Holds builder) :
    GoesOn parser builder parser.advance (builder.recordAll parser.input.advance.fetched) where
  holds :=
    ⟨by rw [advance, recordFetched, h.tree_eq, Option.map_some], abreast_recordAll _ _⟩
  below_eq := below_recordAll _ _
  top_eq := by
    rw [topTokens_recordAll, List.append_assoc, input_advance,
      Input.fetched_append_beyondCursor, Input.beyondCursor]

/-- A report leaves the tree as it is. -/
theorem holds_report (h : parser.Holds builder) (diagnostic : Diagnostic) :
    (parser.report diagnostic).Holds builder :=
  ⟨h.tree_eq, h.abreast⟩

/-- A frame that is opened starts with the token under the cursor. -/
theorem holds_openFrame (h : parser.Holds builder) :
    ∃ outer inner, parser.openFrame.Holds inner ∧ inner.below = outer :: builder.below ∧
      inner.topTokens = parser.input.current? ∧
      builder.topTokens = allTokens outer.reverse ++ parser.input.current? := by
  obtain ⟨outer, hopen, htop⟩ := openFrame_of_abreast h.abreast
  refine ⟨outer, builder.openFrame parser.input.hasTokens, ⟨?_, ?_⟩, ?_, ?_, htop⟩
  · rw [openFrame, h.tree_eq, Option.map_some, hasTokens_eq]
  · intro htok
    rw [input_openFrame] at htok
    exact ⟨[], by rw [hopen, if_pos htok, input_openFrame]⟩
  · rw [hopen]
  · rw [hopen, topTokens, Input.current?]
    split <;> rfl

/-- A frame that is closed holds what it held without the token under the cursor, which follows
it. -/
theorem holds_closeFrame {outer : List SyntaxTree} {below : List (List SyntaxTree)}
    (h : parser.Holds builder) (hbelow : builder.below = outer :: below)
    (entity : Option Entity) :
    ∃ nodes closed, (parser.closeFrame entity).Holds closed ∧ closed.below = below ∧
      closed.newestFrame? = some (frame entity nodes) ∧
      builder.topTokens = allTokens nodes ++ parser.input.current? ∧
      closed.topTokens = allTokens outer.reverse ++ allTokens nodes ++ parser.input.current? := by
  obtain ⟨nodes, hclose, htop⟩ := closeFrame_of_abreast h.abreast hbelow entity
  refine ⟨nodes, builder.closeFrame entity parser.input.hasTokens, ⟨?_, ?_⟩, ?_, ?_, htop, ?_⟩
  · rw [closeFrame, h.tree_eq, Option.map_some, hasTokens_eq]
  · intro htok
    rw [input_closeFrame] at htok
    exact ⟨frame entity nodes :: outer, by rw [hclose, if_pos htok, input_closeFrame]; rfl⟩
  · rw [hclose]
  · rw [hclose, newestFrame?]
    split <;> rfl
  · rw [hclose, topTokens, Input.current?]
    split
    · rw [List.singleton_append, allTokens_reverse_cons, allTokens_reverse_cons]
      rfl
    · rw [List.nil_append, allTokens_reverse_cons, List.append_nil]
      rfl

/-- What a production reads in a frame of its own is what the frame holds when it is closed: the
tokens from the one under the cursor before to the one before the cursor after. -/
theorem enclosed_goesOn {later : Parser} (h : parser.Holds builder)
    (hbody : ∀ inner, parser.openFrame.Holds inner →
      ∃ next, GoesOn parser.openFrame inner later next) (entity : Option Entity) :
    ∃ closed nodes, GoesOn parser builder (later.closeFrame entity) closed ∧
      closed.newestFrame? = some (frame entity nodes) ∧
      allTokens nodes ++ later.input.fromCursor = parser.input.fromCursor := by
  obtain ⟨outer, inner, hinner, hbelow, htop, houter⟩ := holds_openFrame h
  obtain ⟨next, hnext⟩ := hbody inner hinner
  obtain ⟨nodes, closed, hclosed, hbelow', hframe, hnodes, hall⟩ :=
    holds_closeFrame hnext.holds (hnext.below_eq.trans hbelow) entity
  have hread : allTokens nodes ++ later.input.fromCursor = parser.input.fromCursor := by
    rw [Input.fromCursor_eq, ← List.append_assoc, ← hnodes, hnext.top_eq, htop,
      Input.fromCursor_eq, input_openFrame]
  refine ⟨closed, nodes, ⟨hclosed, hbelow', ?_⟩, hframe, hread⟩
  rw [hall, houter, List.append_assoc, List.append_assoc, input_closeFrame,
    ← Input.fromCursor_eq, hread, List.append_assoc, ← Input.fromCursor_eq]

end Parser

namespace Production

/-- A production goes on in the frame in which it starts. -/
theorem run_goesOn {α : Type} (p : Production α) {parser : Parser} {builder : Builder}
    (h : parser.Holds builder) :
    ∃ next, Parser.GoesOn parser builder (p.run parser).2 next := by
  induction p generalizing parser builder with
  | done result => exact ⟨builder, .refl h⟩
  | look next ih => exact ih _ h
  | advance next ih =>
    have hstep := Parser.goesOn_advance h
    obtain ⟨b, hb⟩ := ih hstep.holds
    exact ⟨b, hstep.trans hb⟩
  | report diagnostic next ih =>
    obtain ⟨b, hb⟩ := ih (Parser.holds_report h diagnostic)
    exact ⟨b, hb.holds, hb.below_eq, hb.top_eq⟩
  | enclosed body entity next ihBody ih =>
    obtain ⟨closed, _, hclosed, _⟩ := Parser.enclosed_goesOn h (fun _ hinner => ihBody hinner)
      (entity (body.run parser.openFrame).1)
    obtain ⟨b, hb⟩ := ih (body.run parser.openFrame).1 hclosed.holds
    exact ⟨b, hclosed.trans hb⟩

/-- Every frame that a run closes holds the tokens from the one under the cursor when it was opened
to the one before the cursor when it was closed, and is then the newest of the frame around it. -/
theorem frameRun_spec {α : Type} (p : Production α) {parser : Parser} {builder : Builder}
    (h : parser.Holds builder) : ∀ run ∈ p.frameRuns parser,
      ∃ before after node, run.opened.tree = some before ∧ run.closed.tree = some after ∧
        after.depth = before.depth ∧ after.newestFrame? = some node ∧
        node.tokens ++ run.closed.input.fromCursor = run.opened.input.fromCursor := by
  induction p generalizing parser builder with
  | done result => exact fun _ hr => absurd hr List.not_mem_nil
  | look next ih => exact ih _ h
  | advance next ih => exact ih (Parser.goesOn_advance h).holds
  | report diagnostic next ih => exact ih (Parser.holds_report h diagnostic)
  | enclosed body entity next ihBody ih =>
    obtain ⟨closed, nodes, hclosed, hframe, hread⟩ :=
      Parser.enclosed_goesOn h (fun _ hinner => body.run_goesOn hinner)
        (entity (body.run parser.openFrame).1)
    intro run hr
    rw [frameRuns, List.mem_append, List.mem_cons] at hr
    rcases hr with hr | rfl | hr
    · obtain ⟨_, inner, hinner, _⟩ := Parser.holds_openFrame h
      exact ihBody hinner run hr
    · refine ⟨builder, closed, frame _ nodes, h.tree_eq, hclosed.holds.tree_eq, ?_, hframe, hread⟩
      rw [depth, hclosed.below_eq, depth]
    · exact ih _ hclosed.holds run hr

end Production

/-! ### The tokens read so far -/

namespace Parser

/-- The parser keeps a tree whose flat view is what was read so far of these tokens: with what lies
beyond the cursor it is all of them. -/
def Keeps (tokens : List Token) (parser : Parser) : Prop :=
  ∃ builder, parser.Holds builder ∧ builder.tokens ++ parser.input.beyondCursor = tokens

variable {tokens : List Token} {parser : Parser}

/-- A parser that goes on keeps the tokens that were kept. -/
theorem keeps_goesOn {builder next : Builder} {later : Parser}
    (h : builder.tokens ++ parser.input.beyondCursor = tokens)
    (hon : GoesOn parser builder later next) : later.Keeps tokens := by
  refine ⟨next, hon.holds, ?_⟩
  rw [tokens_eq, hon.below_eq, List.append_assoc, hon.top_eq, ← List.append_assoc, ← tokens_eq, h]

/-- Moving on keeps the tokens. -/
theorem keeps_advance (h : parser.Keeps tokens) : parser.advance.Keeps tokens := by
  obtain ⟨builder, hb, htokens⟩ := h
  exact keeps_goesOn htokens (goesOn_advance hb)

/-- Opening a frame keeps the tokens. -/
theorem keeps_openFrame (h : parser.Keeps tokens) : parser.openFrame.Keeps tokens := by
  obtain ⟨builder, hb, htokens⟩ := h
  obtain ⟨outer, inner, hinner, hbelow, htop, houter⟩ := holds_openFrame hb
  have hsame : inner.tokens = builder.tokens := by
    rw [tokens_eq, tokens_eq, hbelow, outerTokens, htop, houter, List.append_assoc]
  exact ⟨inner, hinner, by rw [hsame, input_openFrame, htokens]⟩

/-- Closing a frame keeps the tokens. -/
theorem keeps_closeFrame (h : parser.Keeps tokens) (entity : Option Entity) :
    (parser.closeFrame entity).Keeps tokens := by
  obtain ⟨builder, hb, htokens⟩ := h
  rcases hbelow : builder.below with _ | ⟨outer, below⟩
  · -- the frame of the whole source stays open
    have hsame : builder.closeFrame entity parser.hasTokens = builder := by
      rw [Builder.closeFrame, hbelow]
    refine ⟨builder, ⟨?_, hb.abreast⟩, htokens⟩
    rw [closeFrame, hb.tree_eq, Option.map_some, hsame]
  · obtain ⟨nodes, closed, hclosed, hbelow', _, hnodes, hall⟩ := holds_closeFrame hb hbelow entity
    have hsame : closed.tokens = builder.tokens := by
      rw [tokens_eq, tokens_eq, hbelow', hbelow, outerTokens, hall, hnodes]
      simp only [List.append_assoc]
    exact ⟨closed, hclosed, by rw [hsame, input_closeFrame, htokens]⟩

/-- A parser starts with what comes with the first significant token. -/
theorem keeps_ofInput (input : Input) : (ofInput input true).Keeps input.tokens := by
  refine ⟨Builder.empty.recordAll input.fetched, ⟨rfl, abreast_recordAll _ _⟩, ?_⟩
  rw [tokens_eq, below_recordAll, topTokens_recordAll]
  exact Input.fetched_append_beyondCursor input

end Parser

namespace Production

variable {α : Type} {tokens : List Token} {parser : Parser}

/-- At every moment of a run the flat view of the tree is what was read so far. -/
theorem keeps_moments (p : Production α) (h : parser.Keeps tokens) :
    ∀ moment ∈ p.moments parser, moment.Keeps tokens :=
  moments_induct (fun _ h => Parser.keeps_advance h)
    (fun _ d h => h.imp fun _ hb => ⟨Parser.holds_report hb.1 d, hb.2⟩)
    (fun _ h => Parser.keeps_openFrame h) (fun _ e h => Parser.keeps_closeFrame h e) p parser h

/-- Every run keeps the tokens. -/
theorem keeps_run (p : Production α) (h : parser.Keeps tokens) : (p.run parser).2.Keeps tokens :=
  p.keeps_moments h _ (List.mem_of_getLast? (p.getLast?_moments parser))

end Production

namespace Parser

/-- The tokens read so far end with the one under the cursor; at the end they are all there are. -/
theorem keeps_iff_read {tokens : List Token} {parser : Parser} (h : parser.Keeps tokens) :
    ∃ builder read, parser.tree = some builder ∧
      builder.tokens = read ++ parser.input.current? ∧
      tokens = read ++ parser.input.fromCursor := by
  obtain ⟨builder, hb, rfl⟩ := h
  obtain ⟨outer, _, _, _, _, houter⟩ := holds_openFrame hb
  refine ⟨builder, outerTokens builder.below ++ allTokens outer.reverse, hb.tree_eq, ?_, ?_⟩
  · rw [tokens_eq, houter, List.append_assoc]
  · rw [tokens_eq, houter, Input.fromCursor_eq]
    simp only [List.append_assoc]

end Parser

end Cssom

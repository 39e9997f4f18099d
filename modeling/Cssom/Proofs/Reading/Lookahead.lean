import Cssom.Parser.Reader
import Cssom.Proofs.SyntaxTree.Lossless

/-!
# Looking ahead is not observed

A reader shows what a parser of the same tokens shows (`Reader.Shows`): its queue and its supply
together hold what the parser has not read, with the end in the queue if it was looked at already.
Moving on takes both to the same token, however much of what lies between was queued
(`Shows.advance`); looking ahead queues tokens and changes nothing of what is shown (`Shows.peek`).
So what a reader shows after some calls hangs on how many of them moved it (`Shows.performAll`), and
taking away those that looked ahead makes no difference (`looking_ahead_is_not_observed`).
-/

namespace Cssom

/-! ### Spacing -/

namespace Spacing

/-- The spacing with trivia behind it that are met one by one. -/
def widenAll (spacing : Spacing) (trivia : List Token) : Spacing :=
  trivia.foldl (fun spacing token => spacing.widen token.kind) spacing

/-- Trivia that are met one by one make the spacing that they make together, behind what was
there. -/
theorem widenAll_eq (spacing : Spacing) (trivia : List Token) : spacing.widenAll trivia =
    if trivia.any (·.kind == .whitespace) then .space
    else if trivia.isEmpty || spacing != .none then spacing
    else .comment := by
  unfold widenAll
  induction trivia generalizing spacing with
  | nil => rfl
  | cons token rest ih =>
    rw [List.foldl_cons, ih, widen]
    by_cases hkind : token.kind = .whitespace
    · simp [hkind]
    · cases spacing <;> simp [hkind]

/-- From nothing they make the spacing of the trivia. -/
theorem widenAll_none (trivia : List Token) : none.widenAll trivia = ofTrivia trivia := by
  rw [widenAll_eq, ofTrivia]
  simp

end Spacing

@[simp] theorem Token.Supply.eof_next (supply : Supply) : supply.next.2.eof = supply.eof := by
  rcases supply with ⟨_ | _, _, _⟩ <;> rfl

/-! ### The token under the cursor and what comes with it -/

namespace Input

/-- An input cut behind the token under its cursor: it starts with trivia, and that token or nothing
follows them. -/
inductive Cut (input : Input) : Prop
  | atEnd (trivia : List Token) (isTrivia : ∀ t ∈ trivia, t.kind.isTrivia = true)
    (tokens_eq : input.tokens = trivia) (current_eq : input.current = input.eof)
    (spacing_eq : input.spacing = .ofTrivia trivia) (fetched_eq : input.fetched = trivia)
    (rest_eq : input.advance.tokens = [])
  | atToken (trivia : List Token) (isTrivia : ∀ t ∈ trivia, t.kind.isTrivia = true)
    (not_trivia : input.current.kind.isTrivia = false)
    (tokens_eq : input.tokens = trivia ++ input.current :: input.advance.tokens)
    (spacing_eq : input.spacing = .ofTrivia trivia)
    (fetched_eq : input.fetched = trivia ++ [input.current])

/-- An input can be cut behind the token under its cursor. -/
theorem cut {input : Input} (h : ∀ t ∈ input.tokens, t.kind ≠ .eof) : input.Cut := by
  have htrivia {trivia : List Token} (hsub : ∀ t ∈ trivia, t ∈ input.tokens)
      (hs : ∀ t ∈ trivia, t.kind.isSignificant = false) :
      ∀ t ∈ trivia, t.kind.isTrivia = true := by
    intro t ht
    simpa [Token.Kind.isSignificant, h t (hsub t ht)] using hs t ht
  rcases hahead : input.ahead with _ | ⟨lexeme, rest⟩
  · have htokens : input.tokens = input.trailing := by
      rw [tokens, hahead]
      rfl
    refine .atEnd input.trailing (htrivia (fun t ht => htokens ▸ ht) input.trailing_insignificant)
      htokens ?_ ?_ ?_ ?_
    all_goals simp [current, spacing, fetched, tokens, advance, trailingAfter, hahead,
      Lexeme.ungroup]
  · have hcurrent : input.current = lexeme.token := by rw [current, hahead]
    have htokens : input.tokens = lexeme.lead ++ lexeme.token :: input.advance.tokens := by
      rw [← input.tokens_advance, fetched, hahead]
      simp [Lexeme.tokens]
    have hkind : lexeme.token.kind.isTrivia = false := by
      simpa using (Bool.and_eq_true_iff.1 lexeme.significant).1
    refine .atToken lexeme.lead
      (htrivia (fun t ht => by simp [htokens, ht]) lexeme.lead_insignificant)
      (hcurrent ▸ hkind) (hcurrent ▸ htokens) ?_ ?_
    · rw [spacing, hahead]
      rfl
    · rw [fetched, hahead, hcurrent]
      rfl

/-- The first token of an input that is no trivia is the one under its cursor. -/
theorem find?_tokens {input : Input} (h : ∀ t ∈ input.tokens, t.kind ≠ .eof) :
    (input.tokens.find? (!·.kind.isTrivia)).getD input.eof = input.current := by
  have hskip {trivia : List Token} (htrivia : ∀ t ∈ trivia, t.kind.isTrivia = true) :
      trivia.find? (!·.kind.isTrivia) = none := by
    refine List.find?_eq_none.2 fun t ht => ?_
    simp [htrivia t ht]
  cases cut h with
  | atEnd trivia htrivia htokens hcurrent => rw [htokens, hskip htrivia, hcurrent, Option.getD_none]
  | atToken trivia htrivia hkind htokens =>
    rw [htokens, List.find?_append, hskip htrivia, Option.none_or,
      List.find?_cons_of_pos (by simp [hkind]), Option.getD_some]

/-- The next token is the one that is current after a move. -/
theorem next_eq (input : Input) : input.next = input.advance.current := by
  rcases h : input.ahead with _ | ⟨_, _ | ⟨_, _⟩⟩ <;> simp [next, current, advance, h]

/-- Behind the last token comes the end. -/
theorem kind_next_of_size_le {input : Input} (h : input.size ≤ 1) : input.next.kind = .eof := by
  rw [input.size_eq] at h
  rcases hahead : input.ahead with _ | ⟨_, _ | ⟨_, _⟩⟩
  · simp [next, hahead, input.eof_kind]
  · simp [next, hahead, input.eof_kind]
  · simp [hahead] at h

end Input

namespace Reader

/-! ### What is left -/

/-- The tokens that the reader has not taken for good, up to the end: those of its queue and of its
supply, which is at its end if the end is in the queue. -/
structure Awaits (reader : Reader) (tokens : List Token) : Prop where
  stored : reader.queue ++ reader.supply.pending = tokens ∨
    reader.queue = tokens ++ [reader.supply.eof] ∧ reader.supply.pending = []
  kind_ne_eof : ∀ t ∈ tokens, t.kind ≠ .eof

variable {reader middle later : Reader} {token current : Token} {tokens : List Token}

/-- The next token is the first that is left, or else the end. -/
theorem takeNext_eq (h : reader.Awaits tokens) : ∃ supply queue,
    reader.takeNext =
        (tokens.headD reader.supply.eof, { reader with supply := supply, queue := queue }) ∧
      supply.eof = reader.supply.eof ∧
      Awaits { reader with supply := supply, queue := queue } tokens.tail := by
  have hkinds : ∀ t ∈ tokens.tail, t.kind ≠ .eof :=
    fun t ht => h.kind_ne_eof t (List.mem_of_mem_tail ht)
  rcases reader with ⟨⟨pending, eof, heof⟩, queue, current, spacing, tree⟩
  rcases h.stored with hall | ⟨hqueue, hpending⟩
  · obtain rfl : tokens = queue ++ pending := hall.symm
    cases queue with
    | cons token rest => exact ⟨⟨pending, eof, heof⟩, rest, rfl, rfl, .inl rfl, hkinds⟩
    | nil =>
      cases pending with
      | cons token rest => exact ⟨⟨rest, eof, heof⟩, [], rfl, rfl, .inl rfl, hkinds⟩
      | nil => exact ⟨⟨[], eof, heof⟩, [], rfl, rfl, .inl rfl, hkinds⟩
  · obtain rfl : queue = tokens ++ [eof] := hqueue
    obtain rfl : pending = [] := hpending
    cases tokens with
    | cons token rest =>
      exact ⟨⟨[], eof, heof⟩, rest ++ [eof], rfl, rfl, .inr ⟨rfl, rfl⟩, hkinds⟩
    | nil => exact ⟨⟨[], eof, heof⟩, [], rfl, rfl, .inl rfl, hkinds⟩

/-! ### Moving the cursor -/

/-- A reader that moved on from another: it shows this token behind this spacing, its tree took
these tokens, and those are left. -/
structure Moved (reader later : Reader) (current : Token) (spacing : Spacing)
    (taken tokens : List Token) : Prop where
  current_eq : later.current = current
  spacing_eq : later.spacing = spacing
  tree_eq : later.tree = reader.tree.map (·.recordAll taken)
  eof_eq : later.supply.eof = reader.supply.eof
  awaits : later.Awaits tokens

/-- To move on and then move on again is to move on. -/
theorem Moved.trans {current' : Token} {spacing spacing' : Spacing}
    {taken taken' tokens' : List Token} (h : Moved reader middle current spacing taken tokens)
    (h' : Moved middle later current' spacing' taken' tokens') :
    Moved reader later current' spacing' (taken ++ taken') tokens' where
  current_eq := h'.current_eq
  spacing_eq := h'.spacing_eq
  tree_eq := by
    rw [h'.tree_eq, h.tree_eq, Option.map_map]
    simp only [SyntaxTree.Builder.recordAll, List.foldl_append]
    rfl
  eof_eq := h'.eof_eq.trans h.eof_eq
  awaits := h'.awaits

/-- Over trivia the reader goes on, with them in its tree and in the spacing. -/
theorem pullFrom_trivia (h : reader.Awaits (token :: tokens))
    (htrivia : token.kind.isTrivia = true) : ∃ next : Reader,
      reader.pullFrom = next.pullFrom ∧
      Moved reader next reader.current (reader.spacing.widen token.kind) [token] tokens := by
  obtain ⟨supply, queue, htake, heof, hrest⟩ := takeNext_eq h
  let widened := reader.spacing.widen token.kind
  refine ⟨record ⟨supply, queue, reader.current, widened, reader.tree⟩ token, ?_, rfl, rfl, rfl,
    heof, hrest.stored, hrest.kind_ne_eof⟩
  rw [pullFrom, htake]
  exact dif_pos htrivia

/-- Trivia that are met are taken into the tree and widen the spacing. -/
theorem pullFrom_lead {lead : List Token} (hlead : ∀ t ∈ lead, t.kind.isTrivia = true)
    (h : reader.Awaits (lead ++ tokens)) : ∃ next : Reader,
      reader.pullFrom = next.pullFrom ∧
      Moved reader next reader.current (reader.spacing.widenAll lead) lead tokens := by
  induction lead generalizing reader with
  | nil => exact ⟨reader, rfl, rfl, rfl, Option.map_id'.symm, rfl, h⟩
  | cons token lead ih =>
    obtain ⟨htoken, hlead⟩ := List.forall_mem_cons.1 hlead
    obtain ⟨next, hnext, hmoved⟩ := pullFrom_trivia h htoken
    obtain ⟨last, hlast, hrest⟩ := ih hlead hmoved.awaits
    rw [hmoved.current_eq, hmoved.spacing_eq] at hrest
    exact ⟨last, hnext.trans hlast, hmoved.trans hrest⟩

/-- A token that is no trivia is the one under the cursor. -/
theorem pullFrom_significant (h : reader.Awaits (token :: tokens))
    (hkind : token.kind.isTrivia = false) :
    Moved reader reader.pullFrom token reader.spacing [token] tokens := by
  obtain ⟨supply, queue, htake, heof, hrest⟩ := takeNext_eq h
  have hne : token.kind ≠ .eof := h.kind_ne_eof token (.head _)
  have hpull : reader.pullFrom = { record ⟨supply, queue, reader.current, reader.spacing,
      reader.tree⟩ token with current := token } := by
    rw [pullFrom, htake]
    simp [hkind, hne]
  rw [hpull]
  exact ⟨rfl, rfl, rfl, heof, hrest.stored, hrest.kind_ne_eof⟩

/-- The end is under the cursor as well, but is not taken into the tree. -/
theorem pullFrom_end (h : reader.Awaits []) :
    Moved reader reader.pullFrom reader.supply.eof reader.spacing [] [] := by
  obtain ⟨supply, queue, htake, heof, hrest⟩ := takeNext_eq h
  have hkind := reader.supply.eof_kind
  have hpull : reader.pullFrom =
      ⟨supply, queue, reader.supply.eof, reader.spacing, reader.tree⟩ := by
    rw [pullFrom, htake]
    simp [hkind, Token.Kind.isTrivia]
  rw [hpull]
  exact ⟨rfl, rfl, Option.map_id'.symm, heof, hrest.stored, hrest.kind_ne_eof⟩

/-- With the tokens of an input left, pulling goes to where the input is. -/
theorem pull_input {input : Input} (h : reader.Awaits input.tokens)
    (heof : reader.supply.eof = input.eof) :
    Moved reader reader.pull input.current input.spacing input.fetched input.advance.tokens := by
  have hstart : Awaits { reader with spacing := .none } input.tokens := ⟨h.stored, h.kind_ne_eof⟩
  cases Input.cut h.kind_ne_eof with
  | atEnd trivia htrivia htokens hcurrent hspacing hfetched hrest =>
    rw [htokens, ← List.append_nil trivia] at hstart
    obtain ⟨next, hnext, hlead⟩ := pullFrom_lead htrivia hstart
    have hmoved := hlead.trans (pullFrom_end hlead.awaits)
    rw [hlead.eof_eq, hlead.spacing_eq, Spacing.widenAll_none, List.append_nil] at hmoved
    rw [pull, hnext, hcurrent, hspacing, hfetched, hrest, ← heof]
    exact ⟨hmoved.1, hmoved.2, hmoved.3, hmoved.4, hmoved.5⟩
  | atToken trivia htrivia hkind htokens hspacing hfetched =>
    obtain ⟨next, hnext, hlead⟩ := pullFrom_lead htrivia (htokens ▸ hstart)
    have hmoved := hlead.trans (pullFrom_significant hlead.awaits hkind)
    rw [hlead.spacing_eq, Spacing.widenAll_none] at hmoved
    rw [pull, hnext, hspacing, hfetched]
    exact ⟨hmoved.1, hmoved.2, hmoved.3, hmoved.4, hmoved.5⟩

/-! ### Looking ahead -/

/-- A reader that queued tokens only. -/
structure Queued (reader later : Reader) (tokens : List Token) : Prop where
  current_eq : later.current = reader.current
  spacing_eq : later.spacing = reader.spacing
  tree_eq : later.tree = reader.tree
  eof_eq : later.supply.eof = reader.supply.eof
  awaits : later.Awaits tokens

/-- Tokens that are queued are still awaited. -/
theorem awaits_enqueue (h : reader.Awaits tokens) (hnone : reader.queued? = none) :
    reader.enqueue.Awaits tokens := by
  refine ⟨?_, h.kind_ne_eof⟩
  rcases reader with ⟨⟨pending, eof, heof⟩, queue, current, spacing, tree⟩
  rcases h.stored with hall | ⟨hqueue, -⟩
  · cases pending with
    | cons token rest => exact .inl ((List.append_assoc queue [token] rest).trans hall)
    | nil => exact .inr ⟨congrArg (· ++ [eof]) ((List.append_nil queue).symm.trans hall), rfl⟩
  · obtain rfl : queue = tokens ++ [eof] := hqueue
    have hfound := List.find?_eq_none.1 hnone eof (by simp)
    rw [heof] at hfound
    exact absurd rfl hfound

/-- What the queue holds of tokens without trivia is the first of those left, or else the end. -/
theorem queued_eq_some (h : reader.Awaits tokens) (hsome : reader.queued? = some token) :
    (tokens.find? (!·.kind.isTrivia)).getD reader.supply.eof = token := by
  have hfound : reader.queue.find? (!·.kind.isTrivia) = some token := hsome
  rcases h.stored with hall | ⟨hqueue, -⟩
  · rw [← hall, List.find?_append, hfound]
    rfl
  · rw [hqueue, List.find?_append] at hfound
    rcases htokens : tokens.find? (!·.kind.isTrivia) with _ | first
    · have hkind : reader.supply.eof.kind.isTrivia = false := by
        rw [reader.supply.eof_kind]
        rfl
      simpa [htokens, hkind] using hfound
    · simpa [htokens] using hfound

/-- What is found is the first of the tokens left that is no trivia, or else the end. -/
theorem peek_eq (h : reader.Awaits tokens) :
    reader.peek.1 = (tokens.find? (!·.kind.isTrivia)).getD reader.supply.eof ∧
      Queued reader reader.peek.2 tokens := by
  induction reader using peek.induct with
  | case1 reader token hfound =>
    have hpeek : reader.peek = (token, reader) := by
      rw [peek]
      split <;> simp_all
    rw [hpeek]
    exact ⟨(queued_eq_some h hfound).symm, rfl, rfl, rfl, rfl, h⟩
  | case2 reader hnone ih =>
    have hpeek : reader.peek = reader.enqueue.peek := by
      rw [peek]
      split <;> simp_all
    rw [hpeek]
    obtain ⟨hanswer, hqueued⟩ := ih (awaits_enqueue h hnone)
    have heof : reader.enqueue.supply.eof = reader.supply.eof := reader.supply.eof_next
    rw [heof] at hanswer
    exact ⟨hanswer, hqueued.current_eq, hqueued.spacing_eq, hqueued.tree_eq,
      hqueued.eof_eq.trans heof, hqueued.awaits⟩

/-! ### Readers and parsers -/

/-- A reader shows what a parser shows: the token under the cursor, the spacing before it, and the
tree so far; and the same tokens are left. -/
structure Shows (reader : Reader) (parser : Parser) : Prop where
  current_eq : reader.current = parser.view.token
  spacing_eq : reader.spacing = parser.view.spacing
  tree_eq : reader.tree = parser.tree
  eof_eq : reader.supply.eof = parser.input.eof
  awaits : reader.Awaits parser.input.advance.tokens

variable {parser : Parser}

/-- A new reader shows what a new parser shows. -/
theorem shows_ofTokens (tokens : List Token) (config : Config) :
    (ofTokens tokens config).Shows (.ofTokens tokens config) := by
  have hstart : Awaits ⟨.ofTokens tokens, [], .endAt .origin, .none,
      if config.keepTree then some .empty else none⟩ (Input.ofTokens tokens).tokens := by
    rw [Input.tokens_ofTokens]
    exact ⟨.inl rfl, fun t ht => bne_iff_ne.1 (List.all_eq_true.1 List.all_takeWhile t ht)⟩
  have hmoved := pull_input hstart rfl
  exact ⟨hmoved.current_eq, hmoved.spacing_eq, hmoved.tree_eq, hmoved.eof_eq, hmoved.awaits⟩

namespace Shows

/-- To advance, a reader gives the token that the parser sees, and shows what the parser shows
behind it. -/
theorem advance (h : reader.Shows parser) : reader.advance.1 = parser.view.token ∧
    reader.advance.2.Shows parser.advance := by
  have hmoved := pull_input h.awaits h.eof_eq
  refine ⟨h.current_eq, hmoved.current_eq, hmoved.spacing_eq, ?_, hmoved.eof_eq.trans h.eof_eq,
    hmoved.awaits⟩
  rw [Reader.advance, hmoved.tree_eq, h.tree_eq]
  rfl

/-- To look ahead, a reader gives the token that the parser sees next, and shows what it did. -/
theorem peek (h : reader.Shows parser) : reader.peek.1 = parser.view.next ∧
    reader.peek.2.Shows parser := by
  obtain ⟨hanswer, hqueued⟩ := peek_eq h.awaits
  constructor
  · rw [hanswer, h.eof_eq]
    exact (Input.find?_tokens h.awaits.kind_ne_eof).trans parser.input.next_eq.symm
  · exact ⟨hqueued.current_eq.trans h.current_eq, hqueued.spacing_eq.trans h.spacing_eq,
      hqueued.tree_eq.trans h.tree_eq, hqueued.eof_eq.trans h.eof_eq, hqueued.awaits⟩

end Shows

/-! ### Runs of calls -/

/-- To perform calls and then more is to perform them all. -/
theorem performAll_append (reader : Reader) (calls more : List Call) :
    reader.performAll (calls ++ more) = (reader.performAll calls).performAll more :=
  List.foldl_append

/-- After some calls a reader shows what the parser shows as many moves further on. -/
theorem Shows.performAll (h : reader.Shows parser) (calls : List Call) :
    (reader.performAll calls).Shows (parser.advanceBy (calls.count .advance)) := by
  induction calls generalizing reader parser with
  | nil => exact h
  | cons call calls ih =>
    cases call with
    | advance =>
      rw [List.count_cons_self, Parser.advanceBy]
      exact ih h.advance.2
    | peek =>
      rw [List.count_cons_of_ne (by decide)]
      exact ih h.peek.2

/-- Readers that show the same answer a call alike. -/
theorem Shows.step_eq {other : Reader} (h : reader.Shows parser) (h' : other.Shows parser)
    (call : Call) : reader.step call = other.step call := by
  have hanswer : (reader.perform call).1 = (other.perform call).1 ∧ ∃ after : Parser,
      (reader.perform call).2.Shows after ∧ (other.perform call).2.Shows after := by
    cases call with
    | advance => exact ⟨h.advance.1.trans h'.advance.1.symm, _, h.advance.2, h'.advance.2⟩
    | peek => exact ⟨h.peek.1.trans h'.peek.1.symm, _, h.peek.2, h'.peek.2⟩
  obtain ⟨hsame, after, hshows, hshows'⟩ := hanswer
  simp only [step, hsame, hshows.current_eq, hshows'.current_eq, hshows.spacing_eq,
    hshows'.spacing_eq, hshows.tree_eq, hshows'.tree_eq]

/-- Readers that show the same take the same steps when they are moved, whatever one of them is
asked to look at in between. -/
theorem Shows.steps_filter {other : Reader} (h : reader.Shows parser) (h' : other.Shows parser)
    (calls : List Call) : (reader.steps calls).filter (·.call = .advance) =
      other.steps (calls.filter (· = .advance)) := by
  induction calls generalizing reader other parser with
  | nil => rfl
  | cons call calls ih =>
    cases call with
    | advance =>
      have hrest := ih h.advance.2 h'.advance.2
      rw [steps, List.filter_cons_of_pos (by rfl), List.filter_cons_of_pos (by rfl), steps,
        h.step_eq h']
      exact congrArg _ hrest
    | peek =>
      rw [steps, List.filter_cons_of_neg (by simp [step]), List.filter_cons_of_neg (by simp)]
      exact ih h.peek.2 h'

/-- Readers that show the same token, spacing and tree. -/
structure Alike (reader other : Reader) : Prop where
  current_eq : reader.current = other.current
  spacing_eq : reader.spacing = other.spacing
  tree_eq : reader.tree = other.tree

/-- Readers that show what one parser shows are alike. -/
theorem Shows.alike {other : Reader} (h : reader.Shows parser) (h' : other.Shows parser) :
    reader.Alike other where
  current_eq := h.current_eq.trans h'.current_eq.symm
  spacing_eq := h.spacing_eq.trans h'.spacing_eq.symm
  tree_eq := h.tree_eq.trans h'.tree_eq.symm

/-- A reader is asked to move on and to look ahead in any order. Without the calls to look ahead it
gives the same answers to the others, and shows the same token, spacing and tree after each of them
and in the end. Whatever it finds when it looks ahead is under the cursor after the next move,
however often it looked in between, and is the end if no significant token follows the one under the
cursor. It shows what a parser shows that moved on as often. -/
theorem looking_ahead_is_not_observed (tokens : List Token) (config : Config) (calls : List Call) :
    let reader := ofTokens tokens config
    let moves := calls.filter (· = .advance)
    let parser := (Parser.ofTokens tokens config).advanceBy (calls.count .advance)
    (reader.steps calls).filter (·.call = .advance) = reader.steps moves ∧
    (reader.performAll calls).Alike (reader.performAll moves) ∧
    (∀ looks, (reader.performAll calls).peek.1 =
      (reader.performAll (calls ++ List.replicate looks .peek ++ [.advance])).current) ∧
    (parser.input.size ≤ 1 → (reader.performAll calls).peek.1.kind = .eof) ∧
    (reader.performAll calls).Shows parser := by
  intro reader moves parser
  have hstart : reader.Shows (.ofTokens tokens config) := shows_ofTokens tokens config
  have hcalls := hstart.performAll calls
  have hmoves := hstart.performAll moves
  have hcount : moves.count .advance = calls.count .advance :=
    List.count_filter (by rfl)
  rw [hcount] at hmoves
  refine ⟨hstart.steps_filter hstart calls, hcalls.alike hmoves, fun looks => ?_, fun hsize => ?_,
    hcalls⟩
  · have hlater := hcalls.performAll (List.replicate looks .peek ++ [.advance])
    have hone : (List.replicate looks Call.peek ++ [Call.advance]).count Call.advance = 1 := by
      simp [List.count_replicate]
    rw [hone] at hlater
    rw [hcalls.peek.1, List.append_assoc, performAll_append, hlater.current_eq]
    exact parser.input.next_eq
  · rw [hcalls.peek.1]
    exact parser.input.kind_next_of_size_le hsize

end Reader

end Cssom

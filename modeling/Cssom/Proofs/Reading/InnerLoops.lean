import Cssom.Proofs.Reading.Progress

/-!
# The loops inside of productions

Besides the loops that read part after part, productions pass over tokens, collect the tokens of a
value, a selector list, a name or an unknown rule, and read chains and lists. Each of these loops
(`InnerLoop`) keeps a state from round to round and is given a number of rounds. A round that goes
on has taken a significant token (`InnerLoop.advances_round`), so a loop that is given a round for
each token ahead ends because one of its rounds ends it (`InnerLoop.runs`), and never because the
rounds are used up.
-/

namespace Cssom.Grammar

open Production

/-- The loops inside of productions, by what they keep from round to round and what they give. -/
inductive InnerLoop : Type → Type → Type 1 where
  | passRule : InnerLoop Nat Unit
  | passStatement : InnerLoop Unit Unit
  | passDeclaration : InnerLoop Nat Unit
  | passArguments : InnerLoop Nat Unit
  | passMedia (terminator : Token.Kind) : InnerLoop Nat Unit
  | value (terminators : List Token.Kind) : InnerLoop ValueReading ValueReading
  | selectors : InnerLoop SelectorList.Builder SelectorList.Builder
  | name : InnerLoop String String
  | pageSelector : InnerLoop String String
  | keys : InnerLoop KeyReading KeyReading
  | features (ctx : Context) : InnerLoop Medium (Option Medium)
  | media (ctx : Context) : InnerLoop (List Medium) (Option (List Medium))
  | chain (operand : Production (Option Condition)) (connector : Connector) :
      InnerLoop (List Condition) (Option Condition)
  | documentFunctions :
      InnerLoop (List DocumentFunction) (Option (List DocumentFunction))
  | unknownPreamble : InnerLoop (List Token) (List Token)
  | unknownBlock : InnerLoop (Nat × List Token) (List Token)

namespace InnerLoop

/-- The loop, given a number of rounds and what it starts from. -/
def code {σ β : Type} : InnerLoop σ β → Nat → σ → Production β
  | passRule, rounds, depth => passRuleFrom rounds depth
  | passStatement, rounds, _ => passStatementFrom rounds
  | passDeclaration, rounds, depth => passDeclarationFrom rounds depth
  | passArguments, rounds, depth => passArgumentsFrom rounds depth
  | passMedia terminator, rounds, depth => passMediaFrom terminator rounds depth
  | value terminators, rounds, reading => valueFrom terminators rounds reading
  | selectors, rounds, builder => selectorsFrom rounds builder
  | name, rounds, text => nameFrom rounds text
  | pageSelector, rounds, text => pageSelectorFrom rounds text
  | keys, rounds, reading => keysFrom rounds reading
  | features ctx, rounds, medium => featuresFrom ctx rounds medium
  | media ctx, rounds, list => mediaFrom ctx rounds list
  | chain operand connector, rounds, parts => chainFrom operand connector rounds parts
  | documentFunctions, rounds, functions => documentFunctionsFrom rounds functions
  | unknownPreamble, rounds, kept => unknownPreambleFrom rounds kept
  | unknownBlock, rounds, (depth, kept) => unknownBlockFrom rounds depth kept

/-- How many rounds the loop needs beyond those that take a token. The loops over lists between
commas look for what follows a comma only in the round after it. -/
def spare {σ β : Type} : InnerLoop σ β → Nat
  | media _ | documentFunctions => 1
  | _ => 0

/-- One round of the loop: what the loop gives if the round ends it, and else what it keeps. -/
def round {σ β : Type} : InnerLoop σ β → σ → Production (β ⊕ σ)
  | passRule, depth => do
    let view ← view
    if view.atEnd then pure (.inl ())
    else
      skip
      let depth := bracesAfter depth view.kind
      pure (if depth = 0 && endsRule view.kind then .inl () else .inr depth)
  | passStatement, _ => do
    let view ← view
    if view.atEnd then pure (.inl ())
    else
      skip
      pure (if view.kind = .semicolon then .inl () else .inr ())
  | passDeclaration, depth => do
    let view ← view
    if view.atEnd || (depth = 0 && endsRule view.kind) then pure (.inl ())
    else
      skip
      pure (.inr (bracesAfter depth view.kind))
  | passArguments, depth => do
    let view ← view
    if view.atEnd || depth = 0 then pure (.inl ())
    else
      skip
      pure (.inr (parensAfter depth view.kind))
  | passMedia terminator, depth => do
    let view ← view
    if view.atEnd || (depth = 0 && endsMedia terminator view.kind) then pure (.inl ())
    else
      skip
      pure (.inr (parensAfter depth view.kind))
  | value terminators, reading => do
    let view ← view
    let outside := reading.builder.depth = 0
    if view.atEnd || (outside && terminators.contains view.kind) then pure (.inl reading)
    else if outside && view.token.isMark '!' then .inr <$> takeImportance reading
    else .inr <$> takeValueToken reading
  | selectors, builder => do
    let view ← view
    if endsSelectors view.kind then pure (.inl builder)
    else
      skip
      pure (.inr (builder.feed view.token view.spacing).1)
  | name, text => do
    let view ← view
    if endsName view.kind || (!text.isEmpty && view.spacing.isOpen) then pure (.inl text)
    else
      skip
      pure (.inr (text ++ view.token.text))
  | pageSelector, text => do
    let view ← view
    if endsPreamble view.kind then pure (.inl text)
    else
      skip
      let separator := if view.spacing.isOpen && !text.isEmpty then " " else ""
      pure (.inr (text ++ separator ++ view.token.text))
  | keys, reading => do
    let view ← view
    if endsPreamble view.kind then pure (.inl reading)
    else
      skip
      pure (.inr (reading.feed view.token))
  | features ctx, medium => do
    let view ← view
    if view.token.isWord "and" then
      skip
      match ← feature ctx with
      | none => pure (.inl none)
      | some next => pure (.inr { medium with features := medium.features ++ [next] })
    else pure (.inl (some medium))
  | media ctx, list => do
    match ← medium ctx with
    | none => pure (.inl none)
    | some next =>
      if (← kind) = .comma then
        skip
        pure (.inr (list ++ [next]))
      else pure (.inl (some (list ++ [next])))
  | chain operand connector, parts => do
    let view ← view
    if Connector.ofToken? view.token = some connector then
      skip
      match ← operand with
      | none => pure (.inl none)
      | some part => pure (.inr (parts ++ [part]))
    else pure (.inl (some (connector.join parts)))
  | documentFunctions, functions => do
    match ← documentFunction with
    | none => pure (.inl none)
    | some function =>
      if (← kind) = .comma then
        skip
        pure (.inr (functions ++ [function]))
      else pure (.inl (some (functions ++ [function])))
  | unknownPreamble, kept => do
    let view ← view
    if endsUnknownPreamble view.kind then pure (.inl kept)
    else
      let tokens ← keepToken !kept.isEmpty
      pure (.inr (kept ++ tokens))
  | unknownBlock, (depth, kept) => do
    let view ← view
    if view.atEnd then pure (.inl kept)
    else
      let tokens ← keepToken true
      let depth := bracesAfter depth view.kind
      pure (if depth = 0 then .inl (kept ++ tokens) else .inr (depth, kept ++ tokens))

/-- The loop goes, from a state and a parser, in rounds that take tokens until one of them ends it,
to a result and a parser. -/
inductive Runs {σ β : Type} (loop : InnerLoop σ β) : σ → Parser → β × Parser → Prop where
  | over {state : σ} {s t : Parser} {result : β}
      (h : (loop.round state).run s = (.inl result, t)) : Runs loop state s (result, t)
  | on {state next : σ} {s t : Parser} {out : β × Parser}
      (h : (loop.round state).run s = (.inr next, t))
      (takes : t.input.size < s.input.size) (rest : Runs loop next t out) :
      Runs loop state s out

variable {σ β : Type}

/-- What the loop does after a round, given how many rounds are left. -/
def after (loop : InnerLoop σ β) (rounds : Nat) : β ⊕ σ → Production β
  | .inl result => pure result
  | .inr next => loop.code rounds next

/-- With a round more to go, the loop does a round and what comes after it. -/
theorem code_succ (loop : InnerLoop σ β) (rounds : Nat) (state : σ) :
    loop.code (rounds + 1) state = loop.round state >>= loop.after rounds := by
  cases loop with
  -- the loops that look at a token, and then stop or take it
  | passDeclaration | passArguments | passMedia | selectors | name | pageSelector | keys =>
    simp only [code, passDeclarationFrom, passArgumentsFrom, passMediaFrom, selectorsFrom,
      nameFrom, pageSelectorFrom, keysFrom, round, LawfulMonad.bind_assoc]
    refine bind_congr fun v => ?_
    split <;> rfl
  -- those that may also stop behind it
  | passRule | passStatement =>
    simp only [code, passRuleFrom, passStatementFrom, round, LawfulMonad.bind_assoc]
    refine bind_congr fun v => ?_
    split
    · rfl
    · rw [LawfulMonad.bind_assoc]
      refine bind_congr fun _ => ?_
      split <;> rfl
  | unknownPreamble =>
    simp only [code, unknownPreambleFrom, round, LawfulMonad.bind_assoc]
    refine bind_congr fun v => ?_
    split
    · rfl
    · rw [LawfulMonad.bind_assoc]
      rfl
  | unknownBlock =>
    obtain ⟨depth, kept⟩ := state
    simp only [code, unknownBlockFrom, round, LawfulMonad.bind_assoc]
    refine bind_congr fun v => ?_
    split
    · rfl
    · rw [LawfulMonad.bind_assoc]
      refine bind_congr fun tokens => ?_
      split <;> rfl
  | value =>
    simp only [code, valueFrom, round, LawfulMonad.bind_assoc]
    refine bind_congr fun v => ?_
    split
    · rfl
    · split <;> rw [bind_map_left] <;> rfl
  -- the loops over parts that follow a word
  | features | chain =>
    simp only [code, featuresFrom, chainFrom, round, LawfulMonad.bind_assoc]
    refine bind_congr fun v => ?_
    split
    · simp only [LawfulMonad.bind_assoc]
      refine bind_congr fun _ => bind_congr fun part => ?_
      cases part <;> rfl
    · rfl
  -- the loops over parts that a comma may follow
  | media | documentFunctions =>
    simp only [code, mediaFrom, documentFunctionsFrom, round, LawfulMonad.bind_assoc]
    refine bind_congr fun part => ?_
    cases part with
    | none => rfl
    | some part =>
      simp only [LawfulMonad.bind_assoc]
      refine bind_congr fun kind => ?_
      split <;> rfl

end InnerLoop

/-! ### A round takes a token -/

/-- A word is an identifier. -/
theorem kind_of_isWord {token : Token} {word : String} (h : token.isWord word = true) :
    token.kind = .ident := by
  rw [Token.isWord, Bool.and_eq_true, beq_iff_eq] at h
  exact h.1

/-- The words between the parts of a chain are identifiers. -/
theorem kind_of_ofToken? {token : Token} {connector : Connector}
    (h : Connector.ofToken? token = some connector) : token.kind = .ident := by
  unfold Connector.ofToken? at h
  split at h
  · next hword => exact kind_of_isWord hword
  · split at h
    · next hword => exact kind_of_isWord hword
    · exact absurd h (by simp)

namespace InnerLoop

variable {s : Parser}

/-- What stops at the end of the source, and else stops or takes a token, has taken one if it did
not stop. -/
theorem advances_unless {c : View → Prop} [∀ v, Decidable (c v)] {result : View → β}
    {p : View → Production (β ⊕ σ)} {next : σ} (hend : ∀ v : View, v.kind = .eof → c v)
    (hp : s.hasTokens = true → (p s.view).Advances s)
    (h : ((do
        let v ← view
        if c v then pure (.inl (result v)) else p v : Production (β ⊕ σ)).run s).1 = .inr next) :
    (do
      let v ← view
      if c v then pure (.inl (result v)) else p v : Production (β ⊕ σ)).Advances s := by
  rw [run_bind, run_view] at h
  refine .bind_right ?_
  rw [run_view]
  dsimp only at h ⊢
  split
  · next hc =>
    rw [if_pos hc] at h
    cases h
  · next hc => exact hp (Parser.hasTokens_of_kind rfl fun e => hc (hend _ e))

/-- What takes a word if there is one, and else stops, has taken a token if it did not stop. -/
theorem advances_word {c : View → Prop} [∀ v, Decidable (c v)] {result : View → β}
    {p : View → Unit → Production (β ⊕ σ)} {next : σ} (hword : ∀ v, c v → v.kind = .ident)
    (h : ((do
        let v ← view
        if c v then skip >>= p v else pure (.inl (result v)) : Production (β ⊕ σ)).run s).1 =
      .inr next) :
    (do
      let v ← view
      if c v then skip >>= p v else pure (.inl (result v)) : Production (β ⊕ σ)).Advances s := by
  rw [run_bind, run_view] at h
  refine .bind_right ?_
  rw [run_view]
  dsimp only at h ⊢
  split
  · next hc =>
    exact (advances_skip (Parser.hasTokens_of_kind (hword _ hc) (by decide))).bind_left _
  · next hc =>
    rw [if_neg hc] at h
    cases h

/-- What takes a comma if there is one, and else stops, has taken a token if it did not stop. -/
theorem advances_comma {result : β} {going next : σ}
    (h : ((do
        if (← kind) = .comma then
          skip
          pure (.inr going)
        else pure (.inl result) : Production (β ⊕ σ)).run s).1 = .inr next) :
    (do
      if (← kind) = .comma then
        skip
        pure (.inr going)
      else pure (.inl result) : Production (β ⊕ σ)).Advances s := by
  rw [run_bind, run_kind] at h
  refine .bind_right ?_
  rw [run_kind]
  dsimp only at h ⊢
  split
  · next hk => exact (advances_skip (Parser.hasTokens_of_kind hk (by decide))).bind_left _
  · next hk =>
    rw [if_neg hk] at h
    cases h

/-- To keep a token is to take it. -/
theorem advances_keepToken (keepSpace : Bool) (h : s.hasTokens = true) :
    (keepToken keepSpace).Advances s :=
  .bind_right ((advances_skip h).bind_left _)

/-- A mark of importance starts with a token that is taken. -/
theorem advances_takeImportance (reading : ValueReading) (h : s.hasTokens = true) :
    (takeImportance reading).Advances s :=
  (advances_skip h).bind_left _

/-- To read a token into a value is to take it. -/
theorem advances_takeValueToken (reading : ValueReading) (h : s.hasTokens = true) :
    (takeValueToken reading).Advances s :=
  .bind_right ((advances_skip h).bind_left _)

/-- A round that goes on has taken a significant token. -/
theorem advances_round (loop : InnerLoop σ β) {state next : σ}
    (h : ((loop.round state).run s).1 = .inr next) : (loop.round state).Advances s := by
  cases loop with
  | passRule | passStatement | passDeclaration | passArguments | passMedia =>
    refine advances_unless (fun v e => ?_) (fun htok => ?_) h
    · simp_all [View.atEnd, View.kind]
    · exact (advances_skip htok).bind_left _
  | selectors | name | pageSelector | keys =>
    refine advances_unless (fun v e => ?_) (fun htok => ?_) h
    · simp [e, endsSelectors, endsName, endsPreamble]
    · exact (advances_skip htok).bind_left _
  | unknownPreamble | unknownBlock =>
    refine advances_unless (fun v e => ?_) (fun htok => ?_) h
    · simp_all [View.atEnd, View.kind, endsUnknownPreamble]
    · exact (advances_keepToken _ htok).bind_left _
  | value =>
    refine advances_unless (fun v e => ?_) (fun htok => ?_) h
    · simp_all [View.atEnd, View.kind]
    · split
      · exact (advances_takeImportance _ htok).map _
      · exact (advances_takeValueToken _ htok).map _
  | features => exact advances_word (fun _ hword => kind_of_isWord hword) h
  | chain => exact advances_word (fun _ hword => kind_of_ofToken? hword) h
  | media | documentFunctions =>
    rw [round, run_bind] at h
    refine .bind_right ?_
    split
    · next hpart =>
      rw [hpart] at h
      cases h
    · next part hpart =>
      rw [hpart] at h
      exact advances_comma h

/-! ### Loops run in rounds -/

/-- At the end of the source a round ends the loop, with what the loop gives without any. -/
theorem run_round_at_end (loop : InnerLoop σ β) (hspare : loop.spare = 0) (state : σ)
    (h : s.input.size = 0) :
    (loop.round state).run s =
      (.inl ((loop.code 0 state).run s).1, ((loop.code 0 state).run s).2) := by
  have hend : s.view.kind = .eof := by
    rw [s.kind_view_eq_eof_iff, ← Bool.not_eq_true, s.hasTokens_iff]
    omega
  have hstop : s.view.atEnd = true := by simp_all [View.atEnd, View.kind]
  have hword : ∀ word, s.view.token.isWord word = false := fun word => by
    simp_all [Token.isWord, View.kind]
  cases loop with
  | media | documentFunctions => cases hspare
  | passRule | passStatement | passDeclaration | passArguments | passMedia | value |
    unknownBlock =>
    rw [round, run_bind, run_view]
    simp only [hstop, Bool.true_or, if_true]
    rfl
  | selectors | name | pageSelector | keys | unknownPreamble =>
    rw [round, run_bind, run_view]
    simp only [hend, endsSelectors, endsName, endsPreamble, endsUnknownPreamble, beq_self_eq_true,
      Bool.or_true, Bool.true_or, if_true]
    rfl
  | features | chain =>
    rw [round, run_bind, run_view]
    simp only [hword, Connector.ofToken?, Bool.false_eq_true, if_false, reduceCtorEq]
    rfl

/-- A loop that is given a round for each token ahead, and those that it needs besides, runs in
rounds that take tokens until one of them ends it. -/
theorem runs (loop : InnerLoop σ β) (rounds : Nat) (state : σ)
    (h : s.input.size + loop.spare ≤ rounds) :
    loop.Runs state s ((loop.code rounds state).run s) := by
  induction rounds generalizing state s with
  | zero =>
    have hend := loop.run_round_at_end (by omega) state (s := s) (by omega)
    exact .over hend
  | succ rounds ih =>
    rw [code_succ, run_bind]
    rcases hround : (loop.round state).run s with ⟨result | next, t⟩
    · exact .over hround
    · have hadv := loop.advances_round (congrArg Prod.fst hround)
      unfold Advances at hadv
      rw [hround] at hadv
      exact .on hround hadv (ih next (by dsimp only at hadv; omega))

end InnerLoop

end Cssom.Grammar

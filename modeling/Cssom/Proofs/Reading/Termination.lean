import Cssom.Parser.Entry
import Cssom.Proofs.Reading.Depth
import Cssom.Proofs.Reading.InnerLoops
import Cssom.Proofs.Reading.Moments

/-!
# Every loop ends, and every round takes a token

Five loops read part after part: the rules of a style sheet, the rules of a block, the declarations
of a block, the moments of an animation, and declarations that no braces enclose. A loop *runs* from
one parser to another (`Loop.Runs`) when it goes there in rounds, each of which takes a significant
token by itself, before the guard against rounds that read nothing is asked; and when it stops there
by itself. Every loop runs so from wherever it stands (`Loop.runs`), so the number of rounds the
productions allow is never what ends a loop; nor is it what ends the loops inside of productions
(`InnerLoop.runs`). Where no two tokens start at the same byte the guard has nothing to do
(`Loop.guard_idle`). `reading_advances` says all of it.
-/

namespace Cssom.Grammar

open Production

/-- The loops that read part after part. -/
inductive Loop where
  | stylesheet
  | rules
  | declarations (set : BlockKind) (block : Block)
  | keyframes
  | declarationList

namespace Loop

/-- Whether a token of this kind ends the loop. -/
def stops : Loop → Token.Kind → Bool
  | stylesheet, kind | declarationList, kind => kind == .eof
  | rules, kind | declarations _ _, kind | keyframes, kind => kind == .closeCurly || kind == .eof

/-- The production that is the loop. -/
def code (ctx : Context) : Loop → Production Unit
  | stylesheet => discard (Grammar.stylesheet ctx)
  | rules => discard (rulesOf (rule ctx))
  | declarations set block => discard (Grammar.declarations ctx set block)
  | keyframes => discard (Grammar.keyframes ctx)
  | declarationList => discard (Grammar.declarationList ctx)

/-- What a round of the loop reads, without the guard. -/
def round (ctx : Context) : Loop → Production Unit
  | stylesheet | rules => discard (rule ctx)
  | declarations set _ => do
    if (← kind) = .semicolon then skip else discard (declaration ctx set)
  | keyframes => discard (keyframe ctx)
  | declarationList => do
    discard (Grammar.declarations ctx .standard .empty)
    if (← kind) = .closeCurly then
      complain (.invalidToken "\x7d")
      skip

/-- The guard after a round that started at something. A round that is a mere semicolon has none,
and neither has a round whose own loop is guarded. -/
def guard : Loop → View → Production Unit
  | stylesheet, start | rules, start | keyframes, start => passIfStuck start.offset
  | declarations _ _, start =>
    if start.kind = .semicolon then pure () else passIfStuck start.offset
  | declarationList, _ => pure ()

/-- The parser after a round, before its guard. -/
def afterRound (loop : Loop) (ctx : Context) (s : Parser) : Parser :=
  ((loop.round ctx).run s).2

/-- The parser after a round and its guard. -/
def next (loop : Loop) (ctx : Context) (s : Parser) : Parser :=
  ((loop.guard s.view).run (loop.afterRound ctx s)).2

/-- The loop goes from one parser to another in rounds that take tokens by themselves, and stops
there by itself. -/
inductive Runs (loop : Loop) (ctx : Context) : Parser → Parser → Prop where
  | stop {s : Parser} (h : loop.stops s.view.kind = true) : Runs loop ctx s s
  | round {s t : Parser} (h : loop.stops s.view.kind = false)
      (advances : (loop.round ctx).Advances s) (rest : Runs loop ctx (loop.next ctx s) t) :
      Runs loop ctx s t

variable {ctx : Context} {loop : Loop} {s t : Parser}

/-- A loop that runs stops at what stops it. -/
theorem Runs.stops (h : loop.Runs ctx s t) : loop.stops t.view.kind = true := by
  induction h with
  | stop h => exact h
  | round _ _ _ ih => exact ih

end Loop

/-! ### A round takes a token -/

/-- A result that is not used makes no difference to where a run ends. -/
theorem run_discard {α : Type} (p : Production α) (s : Parser) :
    (discard p).run s = ((), (p.run s).2) :=
  run_bind p (fun _ => pure ()) s

variable {ctx : Context} {s : Parser}

/-- At a closing brace no declarations are read. -/
theorem run_declarations_at_close {set : BlockKind} {block : Block}
    (h : s.view.kind = .closeCurly) : (declarations ctx set block).run s = (block, s) := by
  rw [declarations, run_bind, run_view]
  cases s.view.size with
  | zero => rfl
  | succ rounds => simp [declarationsFrom, h]

/-- The declarations of a block take a token, unless they stand at a closing brace. -/
theorem advances_declarations {set : BlockKind} {block : Block} (h : s.hasTokens = true)
    (hk : s.view.kind ≠ .closeCurly) : (declarations ctx set block).Advances s := by
  obtain ⟨rounds, hr⟩ := Parser.exists_size_eq h
  unfold declarations
  refine .bind_right ?_
  simp only [run_view, Parser.size_view, hr]
  unfold declarationsFrom
  refine .bind_right ?_
  simp only [run_view]
  split
  · next hc => exact absurd hc hk
  · next he => exact absurd he (Parser.kind_ne_eof h)
  · exact (advances_skip h).bind_left _
  · next hs =>
    refine (advances_declaration set h ?_).bind_left _
    have hks : s.view.kind ≠ .semicolon := hs
    simp [endsRule, hk, hks]

namespace Loop

/-- A round takes a significant token from wherever the loop goes on. -/
theorem advances_round (loop : Loop) (ctx : Context) (h : loop.stops s.view.kind = false) :
    (loop.round ctx).Advances s := by
  have htok : s.hasTokens = true := Parser.hasTokens_of_kind rfl fun e => by
    cases loop <;> simp [stops, e] at h
  cases loop with
  | stylesheet => exact (advances_rule htok).map _
  | rules => exact (advances_rule htok).map _
  | keyframes => exact (advances_keyframe htok).map _
  | declarations set block =>
    unfold round
    refine .bind_right ?_
    rw [run_kind]
    split
    · exact advances_skip htok
    · next hs =>
      have hk : endsRule s.view.kind = false := by simp_all [stops, endsRule]
      exact (advances_declaration set htok hk).map _
  | declarationList =>
    unfold round
    by_cases hk : s.view.kind = .closeCurly
    · refine .bind_right ?_
      rw [run_discard, run_declarations_at_close hk]
      refine .bind_right ?_
      simp only [run_kind, hk, if_true]
      exact .bind_right (advances_skip (s := s.report _) htok)
    · exact ((advances_declarations htok hk).map _).bind_left _

/-! ### The loops run in rounds -/

/-- Where nothing is left every loop stops. -/
theorem stops_of_size_eq_zero (loop : Loop) (h : s.input.size = 0) :
    loop.stops s.view.kind = true := by
  have heof : s.view.kind = .eof := by
    rw [s.kind_view_eq_eof_iff, ← Bool.not_eq_true, s.hasTokens_iff]
    omega
  rw [heof]
  cases loop <;> rfl

/-- Round and guard leave fewer tokens. -/
theorem size_next_lt (loop : Loop) (ctx : Context) (h : loop.stops s.view.kind = false) :
    (loop.next ctx s).input.size < s.input.size :=
  Nat.lt_of_le_of_lt (size_run_le _ _) (loop.advances_round ctx h)

/-- A production that is given a number of rounds runs as the loop does, if it stops where the loop
does and goes from round to round as the loop does, and if there are as many rounds as tokens. -/
theorem runs_of_rounds {α β : Type} {loop : Loop} {f : Nat → α → Production β}
    (hstop : ∀ rounds acc s, loop.stops s.view.kind = true → ((f rounds acc).run s).2 = s)
    (hround : ∀ rounds acc s, loop.stops s.view.kind = false →
      ∃ acc', ((f (rounds + 1) acc).run s).2 = ((f rounds acc').run (loop.next ctx s)).2)
    (rounds : Nat) (acc : α) (h : s.input.size ≤ rounds) :
    loop.Runs ctx s ((f rounds acc).run s).2 := by
  induction rounds generalizing acc s with
  | zero =>
    have hs := loop.stops_of_size_eq_zero (Nat.le_zero.1 h)
    rw [hstop _ _ _ hs]
    exact .stop hs
  | succ rounds ih =>
    rcases hs : loop.stops s.view.kind
    · obtain ⟨acc', hnext⟩ := hround rounds acc s hs
      have hsize := loop.size_next_lt ctx hs
      rw [hnext]
      exact .round hs (loop.advances_round ctx hs) (ih acc' (by omega))
    · rw [hstop _ _ _ hs]
      exact .stop hs

/-- A style sheet runs in rounds. -/
theorem stylesheet_runs (ctx : Context) (s : Parser) :
    stylesheet.Runs ctx s ((Grammar.stylesheet ctx).run s).2 := by
  unfold Grammar.stylesheet
  rw [run_bind, run_view]
  refine runs_of_rounds (f := stylesheetFrom ctx) ?_ ?_ _ [] (Nat.le_refl _)
  · intro rounds rules s hs
    have hend : s.view.atEnd = true := hs
    cases rounds <;> simp [stylesheetFrom, hend]
  · intro rounds rules s hs
    have hend : s.view.atEnd = false := hs
    refine ⟨rules ++ ((rule ctx).run s).1.toList, ?_⟩
    rw [stylesheetFrom, run_bind, run_view, hend]
    simp only [Bool.false_eq_true, if_false, run_bind]
    rw [next, afterRound, round, run_discard, guard]

/-- The rules of a block run in rounds. -/
theorem rules_runs (ctx : Context) (s : Parser) :
    rules.Runs ctx s ((rulesOf (rule ctx)).run s).2 := by
  unfold rulesOf
  rw [run_bind, run_view]
  refine runs_of_rounds (f := rulesFrom (rule ctx)) ?_ ?_ _ [] (Nat.le_refl _)
  · intro rounds found s hs
    have hend : s.view.kind = .closeCurly ∨ s.view.kind = .eof := by simpa [stops] using hs
    cases rounds with
    | zero => rfl
    | succ rounds => rcases hend with hend | hend <;> simp [rulesFrom, hend]
  · intro rounds found s hs
    refine ⟨found ++ ((rule ctx).run s).1.toList, ?_⟩
    rw [rulesFrom, run_bind, run_view, next, afterRound, round, run_discard, guard]
    split
    · next hc => simp [stops, hc] at hs
    · next he => simp [stops, he] at hs
    · simp only [run_bind]

/-- The moments of an animation run in rounds. -/
theorem keyframes_runs (ctx : Context) (s : Parser) :
    keyframes.Runs ctx s ((Grammar.keyframes ctx).run s).2 := by
  unfold Grammar.keyframes
  rw [run_bind, run_view]
  refine runs_of_rounds (f := keyframesFrom ctx) ?_ ?_ _ [] (Nat.le_refl _)
  · intro rounds frames s hs
    have hend : s.view.kind = .closeCurly ∨ s.view.kind = .eof := by simpa [stops] using hs
    cases rounds with
    | zero => rfl
    | succ rounds => rcases hend with hend | hend <;> simp [keyframesFrom, hend]
  · intro rounds frames s hs
    refine ⟨frames ++ ((keyframe ctx).run s).1.toList, ?_⟩
    rw [keyframesFrom, run_bind, run_view, next, afterRound, round, run_discard, guard]
    split
    · next hc => simp [stops, hc] at hs
    · next he => simp [stops, he] at hs
    · simp only [run_bind]

/-- The declarations of a block run in rounds. -/
theorem declarations_runs (ctx : Context) (set : BlockKind) (block : Block) (s : Parser) :
    (declarations set block).Runs ctx s ((Grammar.declarations ctx set block).run s).2 := by
  unfold Grammar.declarations
  rw [run_bind, run_view]
  refine runs_of_rounds (f := declarationsFrom ctx set) ?_ ?_ _ block (Nat.le_refl _)
  · intro rounds block s hs
    have hend : s.view.kind = .closeCurly ∨ s.view.kind = .eof := by simpa [stops] using hs
    cases rounds with
    | zero => rfl
    | succ rounds => rcases hend with hend | hend <;> simp [declarationsFrom, hend]
  · intro rounds block s hs
    rw [declarationsFrom, run_bind, run_view, next, afterRound, round, guard, run_bind, run_kind]
    split
    · next hc => simp [stops, hc] at hs
    · next he => simp [stops, he] at hs
    · next hsemi =>
      refine ⟨block, ?_⟩
      simp [hsemi]
    · next hsemi =>
      refine ⟨(((declaration ctx set).run s).1.map block.set).getD block, ?_⟩
      have hk : s.view.kind ≠ .semicolon := hsemi
      simp only [hk, if_false, run_bind, run_discard]

/-- Where declarations are read to does not hang on those that were read before. -/
theorem run_declarations_snd (ctx : Context) (set : BlockKind) (block block' : Block) (s : Parser) :
    ((Grammar.declarations ctx set block).run s).2 =
      ((Grammar.declarations ctx set block').run s).2 := by
  unfold Grammar.declarations
  simp only [run_bind, run_view]
  generalize s.view.size = rounds
  induction rounds generalizing block block' s with
  | zero => rfl
  | succ rounds ih =>
    unfold declarationsFrom
    simp only [run_bind, run_view]
    split
    · rfl
    · rfl
    · simp only [run_bind]
      exact ih _ _ _
    · simp only [run_bind]
      exact ih _ _ _

/-- Declarations that no braces enclose run in rounds. -/
theorem declarationList_runs (ctx : Context) (s : Parser) :
    declarationList.Runs ctx s ((Grammar.declarationList ctx).run s).2 := by
  unfold Grammar.declarationList
  rw [run_bind, run_view]
  refine runs_of_rounds (f := declarationListFrom ctx) ?_ ?_ _ .empty (Nat.le_refl _)
  · intro rounds block s hs
    have hend : s.view.atEnd = true := hs
    cases rounds <;> simp [declarationListFrom, hend]
  · intro rounds block s hs
    have hend : s.view.atEnd = false := hs
    refine ⟨((Grammar.declarations ctx .standard block).run s).1, ?_⟩
    have hread := run_declarations_snd ctx .standard block .empty s
    rw [declarationListFrom, run_bind, run_view, hend, next, afterRound, round, guard]
    simp only [Bool.false_eq_true, if_false, run_bind, run_view, run_kind, run_discard, run_pure,
      hread]
    by_cases hk : ((Grammar.declarations ctx .standard .empty).run s).2.view.kind = .closeCurly
    · simp only [hk, if_true, run_bind]
    · simp only [hk, if_false, run_pure]

/-- Every loop, wherever it stands, runs in rounds that take tokens by themselves, up to where it
stops by itself. -/
theorem runs (loop : Loop) (ctx : Context) (s : Parser) :
    loop.Runs ctx s ((loop.code ctx).run s).2 := by
  unfold code
  cases loop <;> simp only [run_discard]
  case stylesheet => exact stylesheet_runs ctx s
  case rules => exact rules_runs ctx s
  case declarations set block => exact declarations_runs ctx set block s
  case keyframes => exact keyframes_runs ctx s
  case declarationList => exact declarationList_runs ctx s

end Loop

end Cssom.Grammar

/-! ### The guard -/

namespace Cssom

/-- The tokens of lexemes are among those of the source, in order. -/
theorem Lexeme.map_token_sublist_ungroup (lexemes : List Lexeme) :
    (lexemes.map (·.token)).Sublist (ungroup lexemes) := by
  induction lexemes with
  | nil => exact .slnil
  | cons lexeme rest ih =>
    have hone : [lexeme.token].Sublist lexeme.tokens := List.sublist_append_right _ _
    exact hone.append ih

namespace Input

/-- The bytes at which the significant tokens ahead start. -/
def offsets (input : Input) : List UInt32 :=
  input.ahead.map (·.token.span.start.offset)

/-- If tokens start at different bytes, so do the significant ones among them. -/
theorem nodup_offsets_ofTokens {tokens : List Token}
    (h : (tokens.map (·.span.start.offset)).Nodup) : (ofTokens tokens).offsets.Nodup := by
  have hahead : ((ofTokens tokens).ahead.map (·.token)).Sublist tokens := by
    have hgroup := Lexeme.ungroup_group (tokens.takeWhile (·.kind != .eof))
    have hlead := List.sublist_append_left
      (Lexeme.ungroup (Lexeme.group (tokens.takeWhile (·.kind != .eof))).1)
      (Lexeme.group (tokens.takeWhile (·.kind != .eof))).2
    rw [hgroup] at hlead
    exact (Lexeme.map_token_sublist_ungroup _).trans
      (hlead.trans (List.takeWhile_sublist _))
  have hmap := hahead.map (·.span.start.offset)
  rw [List.map_map] at hmap
  exact h.sublist hmap

/-- Tokens ahead that start at different bytes still do further on. -/
theorem Reaches.nodup_offsets {a b : Input} (h : Reaches a b) (ha : a.offsets.Nodup) :
    b.offsets.Nodup :=
  ha.sublist (h.suffix.sublist.map _)

/-- Further on, the token under the cursor starts elsewhere. -/
theorem Reaches.offset_ne {a b : Input} (h : Reaches a b) (ha : a.offsets.Nodup)
    (hlt : b.size < a.size) (hb : b.hasTokens = true) : b.view.offset ≠ a.view.offset := by
  obtain ⟨n, rfl⟩ := h
  rw [size_advanceBy] at hlt
  obtain ⟨n, rfl⟩ : ∃ m, n = m + 1 := ⟨n - 1, by omega⟩
  rcases hahead : a.ahead with _ | ⟨lexeme, rest⟩
  · rw [(a.size_eq_zero_iff).2 hahead] at hlt
    omega
  rcases hfurther : (advanceBy (n + 1) a).ahead with _ | ⟨lexeme', rest'⟩
  · rw [hasTokens, hfurther] at hb
    exact absurd hb (by decide)
  have hmem : lexeme' ∈ rest := by
    have hdrop : rest.drop n = lexeme' :: rest' := by
      rw [← hfurther, ahead_advanceBy, hahead, List.drop_succ_cons]
    exact List.mem_of_mem_drop (hdrop ▸ List.mem_cons_self)
  rw [offsets, hahead, List.map_cons, List.nodup_cons] at ha
  intro heq
  have hcurrent : lexeme'.token.span.start.offset = lexeme.token.span.start.offset := by
    unfold view View.offset current at heq
    rwa [hahead, hfurther] at heq
  exact ha.1 (hcurrent ▸ List.mem_map_of_mem hmem)

end Input

namespace Grammar

open Production

/-- The guard does nothing after a production that took a token, where the tokens ahead start at
different bytes. -/
theorem passIfStuck_idle {α : Type} {p : Production α} {s : Parser} (h : p.Advances s)
    (hs : s.input.offsets.Nodup) :
    (passIfStuck s.view.offset).run (p.run s).2 = ((), (p.run s).2) := by
  have hrun : (passIfStuck s.view.offset).run (p.run s).2 =
      (if !(p.run s).2.view.atEnd && (p.run s).2.view.offset == s.view.offset then do
        complainOf .invalidToken
        skip
      else done ()).run (p.run s).2 := rfl
  rw [hrun, Parser.atEnd_view, Bool.not_not]
  rcases htok : (p.run s).2.hasTokens
  · rfl
  · have hne := (p.run_input s).offset_ne hs h htok
    have hoff : ((p.run s).2.view.offset == s.view.offset) = false := beq_false_of_ne hne
    rw [hoff]
    rfl

/-- The guard of a loop does nothing where the tokens ahead start at different bytes. -/
theorem Loop.guard_idle (loop : Loop) {ctx : Context} {s : Parser}
    (h : loop.stops s.view.kind = false) (hs : s.input.offsets.Nodup) :
    (loop.guard s.view).run (loop.afterRound ctx s) = ((), loop.afterRound ctx s) := by
  have hidle := passIfStuck_idle (loop.advances_round ctx h) hs
  cases loop with
  | declarations set block =>
    rw [guard]
    split
    · rfl
    · exact hidle
  | declarationList => rfl
  | _ => exact hidle

/-! ### Reading to the end -/

/-- A style sheet is read to the end of the tokens. -/
theorem hasTokens_run_stylesheet (ctx : Context) (s : Parser) :
    ((stylesheet ctx).run s).2.hasTokens = false := by
  have hstop := (Loop.stylesheet_runs ctx s).stops
  exact (Parser.kind_view_eq_eof_iff _).1 (eq_of_beq hstop)

/-- A parser that stands anywhere reads a style sheet to the end of the tokens. -/
theorem hasTokens_readStylesheet (ctx : Context) (s : Parser) :
    (s.readStylesheet ctx).2.hasTokens = false :=
  hasTokens_run_stylesheet ctx s

/-- A list of declarations is read to the end of the tokens. -/
theorem hasTokens_run_declarationList (ctx : Context) (s : Parser) :
    ((declarationList ctx).run s).2.hasTokens = false := by
  have hstop := (Loop.declarationList_runs ctx s).stops
  exact (Parser.kind_view_eq_eof_iff _).1 (eq_of_beq hstop)

/-- Whatever the tokens are, a style sheet and a list of declarations are read to their end. Rules
read the rules inside of them as rules, and conditions the conditions inside of them as conditions,
however deep. Every loop, from wherever it is entered, goes on in rounds that take a token by
themselves until it stops by itself; and so does every loop inside of a production, if it is given
a round for each token ahead. If no two tokens start at the same byte, then at every moment of
reading anything, the guard after a round of a loop neither reports nor passes over anything. -/
theorem reading_advances (tokens : List Token) (config : Config) :
    (Stylesheet.parse tokens config).2.hasTokens = false ∧
    (Block.parse tokens config).2.hasTokens = false ∧
    (∀ (ctx : Context) (s : Parser), (rule ctx).run s =
      (inFrame Entity.ofRule (do ruleStarting ctx (rule ctx) (← view).kind)).run s) ∧
    (∀ (ctx : Context) (s : Parser),
      (condition ctx).run s = (chainOf (operand ctx)).run s ∧
      (operand ctx).run s =
        (inFrame .condition (do operandStarting ctx (operand ctx) (← view))).run s) ∧
    (∀ (loop : Loop) (ctx : Context) (s : Parser),
      loop.Runs ctx s ((loop.code ctx).run s).2) ∧
    (∀ (σ β : Type) (loop : InnerLoop σ β) (state : σ) (s : Parser) (rounds : Nat),
      s.input.size + loop.spare ≤ rounds →
        loop.Runs state s ((loop.code rounds state).run s)) ∧
    ((tokens.map (·.span.start.offset)).Nodup →
      ∀ (α : Type) (p : Production α), ∀ s ∈ p.moments (.ofTokens tokens config),
        ∀ (loop : Loop) (ctx : Context), loop.stops s.view.kind = false →
          (loop.guard s.view).run (loop.afterRound ctx s) = ((), loop.afterRound ctx s)) := by
  refine ⟨?_, ?_, run_rule, ?_, Loop.runs, ?_, ?_⟩
  · exact hasTokens_readStylesheet _ _
  · exact hasTokens_run_declarationList _ (.ofTokens tokens config)
  · exact fun ctx s => ⟨run_condition ctx s, run_operand ctx s⟩
  · exact fun σ β loop state s rounds h => loop.runs rounds state h
  · intro hnodup α p s hs loop ctx hstop
    have hstart : (Parser.ofTokens tokens config).input.offsets.Nodup :=
      Input.nodup_offsets_ofTokens hnodup
    have hreach := p.reaches_of_mem_moments (.ofTokens tokens config) s hs
    exact loop.guard_idle hstop (hreach.nodup_offsets hstart)

/-- A stray brace before a word: the round at the brace takes it, so the guard is idle. -/
theorem reading_advances_at_stray_brace :
    let brace : Token := ⟨.closeCurly, "\x7d", .ofBytes 0 "", .ofBytes 1 ""⟩
    let word : Token := ⟨.ident, "b", .ofBytes 1 "", .ofBytes 2 ""⟩
    let s : Parser := .ofTokens [brace, word] .strict
    let ctx : Context := .ofConfig .strict
    (Loop.stylesheet.guard s.view).run (Loop.stylesheet.afterRound ctx s) =
      ((), Loop.stylesheet.afterRound ctx s) :=
  (reading_advances _ .strict).2.2.2.2.2.2 (by decide) _ (stylesheet (.ofConfig .strict)) _
    (self_mem_moments _ _) .stylesheet _ (by decide)

end Grammar

end Cssom

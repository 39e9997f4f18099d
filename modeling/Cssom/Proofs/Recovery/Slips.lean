import Cssom.Proofs.Recovery.Preludes

/-!
# When a rule slips out of its block

A malformed rule is passed over through the next semicolon or closing brace. In a block that brace
may be the one that closes the block, and then the rules after the block are read into it.
`RuleSlips` says when: a rule other than one for media, read up to where its block should open,
finds neither a semicolon nor a block before the next closing brace; or the rules of its own block
slip. `Escapes` says that a production leaves the braces it started in exactly then. Here it is
shown of the parts that all rules share, of animations, and of loops.
-/

namespace Cssom.Grammar

open Production Token

variable {ctx : Context} {close : Lexeme} {after : List Lexeme} {braces : Nat} {input : Input}

/-! ### Preludes -/

/-- What the block of a rule holds. -/
inductive Body where
  /-- Rules; and if no block is found, none of the rest is passed over. -/
  | media
  /-- Rules. -/
  | rules
  /-- Moments of an animation. -/
  | moments
  /-- Declarations, or nothing that is read. -/
  | other
deriving DecidableEq

/-- Reads the rule of an at-keyword, after that, up to where its block should open. An unknown rule
is left as it is. -/
def atPrelude (ctx : Context) : AtKeyword → Production Body
  | .media => do
    let _ ← if (← kind) = .openCurly then pure MediaList.empty else mediaList ctx .openCurly
    pure .media
  | .keyframes => return if (← animationName).isSome then .moments else .other
  | .page => do
    let _ ← pageSelectorFrom (← view).size ""
    pure .other
  | .supports => return if (← supportsCondition ctx).isSome then .rules else .other
  | .document => do
    let functions ← documentFunctionsFrom ((← view).size + 1) []
    pure (if functions.isSome then .rules else .other)
  | _ => pure .other

/-- Reads a rule up to where its block should open. -/
def prelude (ctx : Context) : Production Body := do
  let view ← view
  match view.kind with
  | .atKeyword =>
    skip
    atPrelude ctx (AtKeyword.ofName view.token.name)
  | .openCurly | .string | .badString | .url | .badUrl | .closeCurly | .closeParen
  | .closeBracket => pure .other
  | _ =>
    let _ ← selectorList
    pure .other

/-- What is left where the block of a rule should open. -/
def afterPrelude (ctx : Context) (input : Input) : Input :=
  ((prelude ctx).read input).rest

/-- What the block of a rule would hold. -/
def body (ctx : Context) (input : Input) : Body :=
  ((prelude ctx).read input).result

/-! ### Slipping -/

/-- A moment of an animation slips, or one after it. -/
inductive MomentsSlip (ctx : Context) : Input → Prop where
  | here {input : Input} (goes : Loop.keyframes.stops input.view.kind = false)
      (unended : Unended input.ahead) : MomentsSlip ctx input
  | later {input : Input} (goes : Loop.keyframes.stops input.view.kind = false)
      (slips : MomentsSlip ctx ((keyframe ctx).read input).rest) : MomentsSlip ctx input

mutual

/-- The rule that starts here slips out of the block it stands in. -/
inductive RuleSlips (ctx : Context) : Input → Prop where
  | unended {input : Input} (hbody : body ctx input ≠ .media)
      (unended : Unended (afterPrelude ctx input).ahead) : RuleSlips ctx input
  | rules {input : Input} (hbody : body ctx input = .media ∨ body ctx input = .rules)
      (opens : (afterPrelude ctx input).view.kind = .openCurly)
      (slips : RulesSlip ctx (afterPrelude ctx input).advance) : RuleSlips ctx input
  | moments {input : Input} (hbody : body ctx input = .moments)
      (opens : (afterPrelude ctx input).view.kind = .openCurly)
      (slips : MomentsSlip ctx (afterPrelude ctx input).advance) : RuleSlips ctx input

/-- Of the rules from here to the next closing brace one slips. -/
inductive RulesSlip (ctx : Context) : Input → Prop where
  | here {input : Input} (goes : Loop.rules.stops input.view.kind = false)
      (slips : RuleSlips ctx input) : RulesSlip ctx input
  | later {input : Input} (goes : Loop.rules.stops input.view.kind = false)
      (slips : RulesSlip ctx ((rule ctx).read input).rest) : RulesSlip ctx input

end

/-! ### Where blocks are looked for -/

/-- A production stops in the braces it started in, unless something happens; and then it leaves
them. -/
def Escapes (slips : Prop) (close : Lexeme) (after : List Lexeme) (braces : Nat) (rest : Input) :
    Prop :=
  (slips → Left (close :: after) braces rest) ∧ (¬ slips → Inside (close :: after) braces rest)

/-- A production escapes just the same where the same slips. -/
theorem Escapes.congr {slips slips' : Prop} {rest : Input}
    (h : Escapes slips close after braces rest) (hiff : slips ↔ slips') :
    Escapes slips' close after braces rest :=
  ⟨fun hs => h.1 (hiff.2 hs), fun hs => h.2 fun hslips => hs (hiff.1 hslips)⟩

/-- The rest of a rule is passed over through the closing brace if no semicolon and no block comes
before it. -/
theorem escapes_passRule (hclose : close.token.kind = .closeCurly)
    (h : Inside (close :: after) braces input) :
    Escapes (Unended input.ahead) close after braces (passRule.read input).rest :=
  ⟨passRule_unended hclose h, passRule_inside hclose h⟩

/-- Where a block opens it comes before the next closing brace. -/
theorem not_unended_of_open (h : Inside (close :: after) braces input)
    (ho : input.view.kind = .openCurly) : ¬ Unended input.ahead := by
  intro hu
  obtain ⟨lexeme, rest, hahead, hk, _⟩ := exists_ahead_eq h.ahead_ne_nil
  rw [hahead, unended_cons (by rw [← hk, ho]; decide)] at hu
  exact hu.2.1 (hk ▸ ho)

/-- Where no block opens the rest of the rule is passed over. -/
theorem read_blockOpening_of_ne (ho : input.view.kind ≠ .openCurly) :
    (blockOpening.read input).result = false ∧
      (blockOpening.read input).rest = (passRule.read input).rest := by
  rw [blockOpening, read_bind]
  simp only [read_kind, ho, if_false, result_read_bind, rest_read_bind, read_complainOf, read_pure,
    and_self]

/-- Where a block of declarations is looked for. -/
theorem escapes_declarationBlock (ctx : Context) (set : BlockKind)
    (hclose : close.token.kind = .closeCurly) (h : Inside (close :: after) braces input) :
    Escapes (Unended input.ahead) close after braces
      ((declarationBlock ctx set).read input).rest := by
  by_cases ho : input.view.kind = .openCurly
  · exact ⟨fun hu => absurd hu (not_unended_of_open h ho),
      fun _ => declarationBlock_inside set hclose h ho⟩
  · obtain ⟨hresult, hrest⟩ := read_blockOpening_of_ne ho
    rw [declarationBlock, rest_read_bind, hresult, hrest]
    exact escapes_passRule hclose h

/-! ### Leaving blocks -/

/-- To leave fewer braces is to leave more. -/
theorem Left.mono {tail : List Lexeme} {fewer : Nat} {rest : Input} (h : Left tail fewer rest)
    (hle : fewer ≤ braces) : Left tail braces rest := by
  rcases h with ⟨n, hn, hin⟩ | hbeyond
  · exact Or.inl ⟨n, Nat.lt_of_lt_of_le hn hle, hin⟩
  · exact Or.inr hbeyond

/-- Whatever happens, the braces are kept or left. -/
theorem Escapes.or {slips : Prop} {rest : Input} (h : Escapes slips close after braces rest) :
    Inside (close :: after) braces rest ∨ Left (close :: after) braces rest := by
  by_cases hs : slips
  · exact Or.inr (h.1 hs)
  · exact Or.inl (h.2 hs)

/-- Behind the brace that closes a block of rules: in the braces around it, unless a rule in it
slipped; then that brace was taken before, and another one is taken now. -/
theorem escapes_blockClosing {slips : Prop}
    (h : Escapes slips close after (braces + 1) input)
    (hstop : input.view.kind = .closeCurly ∨ input.view.kind = .eof) :
    Escapes slips close after braces (blockClosing.read input).rest := by
  rw [blockClosing, read_skipIf]
  refine ⟨fun hs => ?_, fun hs => ?_⟩
  · rcases h.1 hs with ⟨fewer, hlt, hin⟩ | hbeyond
    · have hc := hstop.resolve_right hin.kind_ne_eof
      rw [if_pos hc]
      exact (hin.left_of_close hc).mono (Nat.le_of_lt_succ hlt)
    · refine Or.inr (hbeyond.of_reaches ?_)
      split
      · exact .advance _
      · exact .refl _
  · have hin := h.2 hs
    have hc := hstop.resolve_right hin.kind_ne_eof
    rw [if_pos hc]
    exact hin.advance_close hc

/-! ### Animations -/

/-- A token that is neither a brace nor a semicolon makes no difference to what is left before the
closing brace. -/
theorem unended_advance (h : Inside (close :: after) braces input)
    (hc : input.view.kind ≠ .closeCurly) (ho : input.view.kind ≠ .openCurly)
    (hs : input.view.kind ≠ .semicolon) : Unended input.advance.ahead ↔ Unended input.ahead := by
  obtain ⟨lexeme, rest, hahead, hk, _, hrest⟩ := exists_ahead_eq h.ahead_ne_nil
  rw [hrest, hahead, unended_cons (hk ▸ hc), ← hk]
  exact ⟨fun hu => ⟨hs, ho, hu⟩, fun hu => hu.2.2⟩

/-- Keys end before a semicolon or a brace, so none is passed with them. -/
theorem unended_keysFrom (hclose : close.token.kind = .closeCurly) (rounds : Nat)
    (reading : KeyReading) (h : Inside (close :: after) braces input) :
    Unended ((keysFrom rounds reading).read input).rest.ahead ↔ Unended input.ahead := by
  induction rounds generalizing reading input with
  | zero => exact Iff.rfl
  | succ rounds ih =>
    rw [keysFrom]
    simp only [rest_read_bind, read_view]
    by_cases hends : endsPreamble input.view.kind = true
    · simp only [hends, if_true, read_pure]
    · simp only [hends, Bool.false_eq_true, if_false, rest_read_bind, read_skip]
      simp only [endsPreamble, Bool.or_eq_true, beq_iff_eq, not_or] at hends
      rw [ih _ (h.advance hclose hends.1.1.1 hends.1.1.2)]
      exact unended_advance h hends.1.1.2 hends.1.1.1 hends.1.2

/-- A moment of an animation leaves its block if it finds neither a block of its own nor an end. -/
theorem escapes_keyframe (hclose : close.token.kind = .closeCurly)
    (h : Inside (close :: after) braces input) :
    Escapes (Unended input.ahead) close after braces ((keyframe ctx).read input).rest := by
  have hkeys := (stays_keysFrom input.size .start).inside hclose h
  have hblock := (escapes_declarationBlock ctx .standard hclose hkeys).congr
    (unended_keysFrom hclose input.size .start h)
  have hrest : ((keyframe ctx).read input).rest = ((declarationBlock ctx .standard).read
      ((keysFrom input.size .start).read input).rest).rest := by
    rw [keyframe, read_inFrame]
    simp only [rest_read_bind, read_view]
    have hsize : input.view.size = input.size := rfl
    rw [hsize]
    split <;> simp only [rest_read_bind, read_complainAt] <;>
      cases ((declarationBlock ctx .standard).read
        ((keysFrom input.size .start).read input).rest).result <;> rfl
  rw [hrest]
  exact hblock

/-! ### Loops in blocks -/

/-- A loop that runs only moves on. -/
theorem Loop.Runs.reaches {loop : Loop} {s t : Parser} (h : loop.Runs ctx s t) :
    s.input.Reaches t.input := by
  induction h with
  | stop => exact .refl _
  | round _ _ _ ih =>
    exact ((run_input _ _).trans (run_input _ _)).trans ih

/-- A loop up to a closing brace slips if one of its rounds does. -/
theorem escapes_of_runs {loop : Loop} {α : Type} {p : Production α}
    {roundSlips slips : Input → Prop} (bound : Nat)
    (hstops : ∀ k, loop.stops k = (k == .closeCurly || k == .eof))
    (hround : ∀ s, loop.stops s.view.kind = false →
      (loop.afterRound ctx s).input = (p.read s.input).rest)
    (hslips : ∀ i, slips i ↔ loop.stops i.view.kind = false ∧
      (roundSlips i ∨ slips (p.read i).rest))
    (hspec : ∀ braces i, i.size ≤ bound → Inside (close :: after) braces i →
      i.view.kind ≠ .closeCurly →
      Escapes (roundSlips i) close after braces (p.read i).rest)
    {s t : Parser} (hruns : loop.Runs ctx s t) (hs : s.input.size ≤ bound)
    (h : Inside (close :: after) braces s.input) :
    Escapes (slips s.input) close after braces t.input := by
  induction hruns generalizing braces with
  | @stop s hstop =>
    have hno : ¬ slips s.input := by
      intro hslip
      have hgoes := ((hslips _).1 hslip).1
      rw [Parser.view] at hstop
      rw [hstop] at hgoes
      exact absurd hgoes (by decide)
    exact ⟨fun hslip => absurd hslip hno, fun _ => h⟩
  | @round s t hgoes advances rest ih =>
    have hc : s.input.view.kind ≠ .closeCurly := by
      intro hc
      rw [hstops, Parser.view, hc] at hgoes
      exact absurd hgoes (by decide)
    have hnext : (loop.next ctx s).input = (p.read s.input).rest := by
      rw [Loop.next, loop.guard_idle hgoes h.nodup]
      exact hround s hgoes
    have hsize : (loop.next ctx s).input.size ≤ bound := by
      have := loop.size_next_lt ctx hgoes
      omega
    have hfirst := hspec braces s.input hs h hc
    rw [← hnext] at hfirst
    refine ⟨fun hslip => ?_, fun hno => ?_⟩
    · rcases ((hslips _).1 hslip).2 with hround | hlater
      · rcases hfirst.1 hround with ⟨fewer, hlt, hin⟩ | hbeyond
        · rcases (ih hsize hin).or with hstay | hleft
          · exact Or.inl ⟨fewer, hlt, hstay⟩
          · exact hleft.mono (Nat.le_of_lt hlt)
        · exact Or.inr (hbeyond.of_reaches rest.reaches)
      · rw [← hnext] at hlater
        rcases hfirst.or with hin | hleft
        · exact (ih hsize hin).1 hlater
        · rcases hleft with ⟨fewer, hlt, hin⟩ | hbeyond
          · exact ((ih hsize hin).1 hlater).mono (Nat.le_of_lt hlt)
          · exact Or.inr (hbeyond.of_reaches rest.reaches)
    · have hround : ¬ roundSlips s.input := fun hr => hno ((hslips _).2 ⟨hgoes, Or.inl hr⟩)
      have hlater : ¬ slips (loop.next ctx s).input := by
        rw [hnext]
        exact fun hl => hno ((hslips _).2 ⟨hgoes, Or.inr hl⟩)
      exact (ih hsize (hfirst.2 hround)).2 hlater

/-- Moments slip where the first of them does, or one after it. -/
theorem momentsSlip_iff (i : Input) : MomentsSlip ctx i ↔
    Loop.keyframes.stops i.view.kind = false ∧
      (Unended i.ahead ∨ MomentsSlip ctx ((keyframe ctx).read i).rest) := by
  constructor
  · intro h
    cases h with
    | here goes unended => exact ⟨goes, Or.inl unended⟩
    | later goes slips => exact ⟨goes, Or.inr slips⟩
  · rintro ⟨goes, unended | slips⟩
    · exact .here goes unended
    · exact .later goes slips

/-- Rules slip where the first of them does, or one after it. -/
theorem rulesSlip_iff (i : Input) : RulesSlip ctx i ↔
    Loop.rules.stops i.view.kind = false ∧
      (RuleSlips ctx i ∨ RulesSlip ctx ((rule ctx).read i).rest) := by
  constructor
  · intro h
    cases h with
    | here goes slips => exact ⟨goes, Or.inl slips⟩
    | later goes slips => exact ⟨goes, Or.inr slips⟩
  · rintro ⟨goes, slips | slips⟩
    · exact .here goes slips
    · exact .later goes slips

/-- The moments of an animation stop before the brace that closes them, unless one slips. -/
theorem escapes_keyframes (ctx : Context) (hclose : close.token.kind = .closeCurly)
    (h : Inside (close :: after) braces input) :
    Escapes (MomentsSlip ctx input) close after braces ((keyframes ctx).read input).rest ∧
      (((keyframes ctx).read input).rest.view.kind = .closeCurly ∨
        ((keyframes ctx).read input).rest.view.kind = .eof) := by
  have hruns := Loop.keyframes_runs ctx (.ofInput input false)
  have hrest : ((keyframes ctx).run (.ofInput input false)).2.input =
      ((keyframes ctx).read input).rest := run_rest _ _
  rw [← hrest]
  refine ⟨?_, ?_⟩
  · refine escapes_of_runs input.size (fun _ => rfl) ?_ momentsSlip_iff ?_ hruns
      (Nat.le_refl _) h
    · intro s _
      rw [Loop.afterRound, Loop.round, run_discard]
      exact run_rest _ _
    · exact fun braces i _ hin _ => escapes_keyframe hclose hin
  · have hstop := hruns.stops
    simpa [Loop.stops, Parser.view] using hstop

end Cssom.Grammar

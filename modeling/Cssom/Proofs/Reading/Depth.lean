import Cssom.Proofs.Reading.Progress

/-!
# How deep rules and conditions go

Rules, and the parts of a condition, hold others of their kind. They are read to a depth, and each
takes a token before it goes deeper (`Deepens`); so a depth beyond the number of tokens ahead is
never met. A rule is therefore read by looking at its first token and reading the rules inside of it
in the same way (`run_rule`), and so is a condition (`run_operand`, `run_condition`).
-/

namespace Cssom.Grammar

open Production

variable {ctx : Context} {bound : Nat}

/-- Two productions run alike on every parser with fewer tokens ahead than a bound. -/
def AgreeBelow {α : Type} (bound : Nat) (p q : Production α) : Prop :=
  ∀ s : Parser, s.input.size < bound → p.run s = q.run s

namespace AgreeBelow

variable {α β : Type} {p q : Production α}

/-- A production runs as it does. -/
theorem refl (bound : Nat) (p : Production α) : AgreeBelow bound p p := fun _ _ => rfl

/-- Steps that run alike, one after the other, run alike. -/
theorem bind {f g : α → Production β} (hp : AgreeBelow bound p q)
    (hf : ∀ a, AgreeBelow bound (f a) (g a)) : AgreeBelow bound (p >>= f) (q >>= g) := by
  intro s hs
  rw [run_bind, run_bind, hp s hs]
  exact hf _ _ (Nat.lt_of_le_of_lt (q.size_run_le s) hs)

/-- What comes after the same step may be compared behind it. -/
theorem bind_same {f g : α → Production β} (hf : ∀ a, AgreeBelow bound (f a) (g a)) :
    AgreeBelow bound (p >>= f) (p >>= g) :=
  (refl bound p).bind hf

/-- What runs alike does so in a frame of the syntax tree. -/
theorem inFrame {entity : α → Entity} {p q : Production (Option α)} (h : AgreeBelow bound p q) :
    AgreeBelow bound (inFrame entity p) (inFrame entity q) := by
  intro s hs
  rw [run_inFrame, run_inFrame, h s.openFrame hs]

end AgreeBelow

/-! ### Reading to a depth -/

/-- A production that is read to a depth, and as a whole to a depth that is never met. It goes one
less deep inside of itself, and takes a token before it does: what it reads in its frame hangs on
how it reads itself only where fewer tokens are ahead. -/
structure Deepens {α : Type} (entity : α → Entity)
    (body : Production (Option α) → View → Production (Option α))
    (within : Nat → Production (Option α)) (whole : Production (Option α)) : Prop where
  succ (depth : Nat) :
    within (depth + 1) = inFrame entity (do body (within depth) (← view))
  whole_eq : whole = (do within ((← view).size + 1))
  agree {bound : Nat} {p q : Production (Option α)} (h : AgreeBelow bound p q) {s : Parser}
    (hs : s.input.size ≤ bound) : (body p s.view).run s = (body q s.view).run s

namespace Deepens

variable {α : Type} {entity : α → Entity}
  {body : Production (Option α) → View → Production (Option α)}
  {within : Nat → Production (Option α)} {whole : Production (Option α)}

/-- The depth makes no difference beyond the number of tokens ahead. -/
theorem within_agree (h : Deepens entity body within whole) (bound : Nat) {d d' : Nat}
    (hd : bound ≤ d) (hd' : bound ≤ d') : AgreeBelow bound (within d) (within d') := by
  induction bound generalizing d d' with
  | zero => exact fun s hs => absurd hs (Nat.not_lt_zero _)
  | succ bound ih =>
    intro s hs
    obtain ⟨d, rfl⟩ : ∃ e, d = e + 1 := ⟨d - 1, by omega⟩
    obtain ⟨d', rfl⟩ : ∃ e, d' = e + 1 := ⟨d' - 1, by omega⟩
    have hbody := h.agree (s := s.openFrame)
      (ih (Nat.le_of_succ_le_succ hd) (Nat.le_of_succ_le_succ hd')) (Nat.le_of_lt_succ hs)
    simp only [h.succ, run_inFrame, run_bind, run_view]
    rw [hbody]

/-- The whole is read to a depth beyond the number of tokens ahead. -/
theorem run_whole_eq (h : Deepens entity body within whole) (s : Parser) :
    whole.run s = (within (s.input.size + 1)).run s := by
  rw [h.whole_eq, run_bind, run_view, Parser.size_view]

/-- Where fewer tokens are ahead, reading to a depth is reading the whole. -/
theorem agree_whole (h : Deepens entity body within whole) (depth : Nat) :
    AgreeBelow depth (within depth) whole := by
  intro s hs
  rw [h.run_whole_eq]
  exact h.within_agree (s.input.size + 1) hs (Nat.le_refl _) s (Nat.lt_succ_self _)

/-- The whole reads what it finds of its kind inside of it as wholes. -/
theorem run_whole (h : Deepens entity body within whole) (s : Parser) :
    whole.run s = (inFrame entity (do body whole (← view))).run s := by
  have hbody := h.agree (s := s.openFrame) (h.agree_whole s.input.size) (Nat.le_refl _)
  rw [h.run_whole_eq, h.succ]
  simp only [run_inFrame, run_bind, run_view]
  rw [hbody]

end Deepens

/-! ### Rules -/

section

variable {r r' : Production (Option Rule)}

/-- Rules that are read alike are read alike in a list that was begun. -/
theorem rulesFrom_agree (h : AgreeBelow bound r r') (rounds : Nat) (rules : List Rule) :
    AgreeBelow bound (rulesFrom r rounds rules) (rulesFrom r' rounds rules) := by
  induction rounds generalizing rules with
  | zero => exact .refl _ _
  | succ rounds ih =>
    unfold rulesFrom
    refine .bind_same fun v => ?_
    split
    · exact .refl _ _
    · exact .refl _ _
    · exact h.bind fun parsed => .bind_same fun _ => ih _

/-- Rules that are read alike are read alike in a list. -/
theorem rulesOf_agree (h : AgreeBelow bound r r') :
    AgreeBelow bound (rulesOf r) (rulesOf r') :=
  .bind_same fun _ => rulesFrom_agree h _ _

/-- Rules that are read alike are read alike in a block. -/
theorem ruleBlock_agree (h : AgreeBelow bound r r') :
    AgreeBelow bound (ruleBlock r) (ruleBlock r') := by
  refine .bind_same fun opened => ?_
  split
  · exact (rulesOf_agree h).bind fun _ => .refl _ _
  · exact .refl _ _

/-- Rules that are read alike are read alike in a rule for media. -/
theorem mediaRule_agree (h : AgreeBelow bound r r') :
    AgreeBelow bound (mediaRule ctx r) (mediaRule ctx r') := by
  refine .bind_same fun media => .bind_same fun v => ?_
  split
  · exact .bind_same fun _ => (rulesOf_agree h).bind fun _ => .refl _ _
  · exact .refl _ _
  · exact .refl _ _

/-- Rules that are read alike are read alike in a rule with a condition. -/
theorem supportsRule_agree (h : AgreeBelow bound r r') :
    AgreeBelow bound (supportsRule ctx r) (supportsRule ctx r') := by
  refine .bind_same fun condition => ?_
  split
  · exact .refl _ _
  · exact (ruleBlock_agree h).bind fun _ => .refl _ _

/-- Rules that are read alike are read alike in a rule for documents. -/
theorem documentRule_agree (h : AgreeBelow bound r r') :
    AgreeBelow bound (documentRule r) (documentRule r') := by
  refine .bind_same fun v => .bind_same fun functions => ?_
  split
  · exact .refl _ _
  · exact (ruleBlock_agree h).bind fun _ => .refl _ _

/-- An at-rule reads its keyword before any rule inside of it. -/
theorem run_atRule_agree (h : AgreeBelow bound r r') {s : Parser} (hs : s.input.size ≤ bound)
    (htok : s.hasTokens = true) : (atRule ctx r).run s = (atRule ctx r').run s := by
  have hpos := s.hasTokens_iff.1 htok
  have hrest : s.advance.input.size < bound := by rw [Parser.size_advance]; omega
  unfold atRule
  rw [run_bind, run_bind, run_take]
  cases AtKeyword.ofName s.view.token.name with
  | media => exact mediaRule_agree h _ hrest
  | supports => exact supportsRule_agree h _ hrest
  | document => exact documentRule_agree h _ hrest
  | _ => rfl

/-- A rule takes a token before any rule inside of it. -/
theorem run_ruleStarting_agree (ctx : Context) (h : AgreeBelow bound r r') {s : Parser}
    (hs : s.input.size ≤ bound) : (ruleStarting ctx r s.view.kind).run s =
      (ruleStarting ctx r' s.view.kind).run s := by
  cases hk : s.view.kind with
  | atKeyword => exact run_atRule_agree h hs (Parser.hasTokens_of_kind hk (by decide))
  | _ => rfl

end

/-- Rules are read to a depth, and a rule to one that is never met. -/
theorem deepens_rule (ctx : Context) : Deepens Entity.ofRule
    (fun inner view => ruleStarting ctx inner view.kind) (ruleWithin ctx) (rule ctx) where
  succ _ := rfl
  whole_eq := rfl
  agree := run_ruleStarting_agree ctx

/-- Below a depth, reading rules to that depth is reading rules. -/
theorem ruleWithin_agree_rule (ctx : Context) (depth : Nat) :
    AgreeBelow depth (ruleWithin ctx depth) (rule ctx) :=
  (deepens_rule ctx).agree_whole depth

/-- Reading a rule to a depth beyond the number of tokens ahead is reading a rule. -/
theorem run_ruleWithin {depth : Nat} {s : Parser} (h : s.input.size < depth) :
    (ruleWithin ctx depth).run s = (rule ctx).run s :=
  ruleWithin_agree_rule ctx depth s h

/-- A rule is what its first token starts, and so are the rules inside of it. -/
theorem run_rule (ctx : Context) (s : Parser) : (rule ctx).run s =
    (inFrame Entity.ofRule (do ruleStarting ctx (rule ctx) (← view).kind)).run s :=
  (deepens_rule ctx).run_whole s

/-- Rules are read one by one, however deep rules go in them. -/
theorem run_rules (ctx : Context) (s : Parser) :
    (rules ctx).run s = (rulesOf (rule ctx)).run s := by
  rw [rules, run_bind, run_view, Parser.size_view]
  exact rulesOf_agree (ruleWithin_agree_rule ctx _) s (Nat.lt_succ_self _)

/-! ### Conditions -/

/-- Reads the part of a chain that starts with what is under the cursor, given how the parts inside
of it are read. -/
def operandStarting (ctx : Context) (inner : Production (Option Condition)) (view : View) :
    Production (Option Condition) :=
  match view.kind with
  | .openParen => do
    skip
    match ← chainOf inner with
    | none => pure none
    | some inner =>
      skipIf .closeParen
      pure (some (.group inner))
  | .ident =>
    if startsNegation view then do
      skip
      match ← inner with
      | none => pure none
      | some inner => pure (some (.negation inner))
    else declarationCondition ctx
  | _ => pure none

section

variable {r r' : Production (Option Condition)}

/-- A chain that was begun, whose parts are read alike, is read alike. -/
theorem chainFrom_agree (h : AgreeBelow bound r r') (connector : Connector) (rounds : Nat)
    (parts : List Condition) : AgreeBelow bound (chainFrom r connector rounds parts)
      (chainFrom r' connector rounds parts) := by
  induction rounds generalizing parts with
  | zero => exact .refl _ _
  | succ rounds ih =>
    unfold chainFrom
    refine .bind_same fun v => ?_
    split
    · refine .bind_same fun _ => h.bind fun part => ?_
      cases part with
      | none => exact .refl _ _
      | some part => exact ih _
    · exact .refl _ _

/-- A chain whose parts are read alike is read alike. -/
theorem chainOf_agree (h : AgreeBelow bound r r') :
    AgreeBelow bound (chainOf r) (chainOf r') := by
  unfold chainOf
  refine .inFrame (h.bind fun first => ?_)
  cases first with
  | none => exact .refl _ _
  | some first =>
    refine .bind_same fun v => ?_
    cases Connector.ofToken? v.token with
    | none => exact .refl _ _
    | some connector => exact chainFrom_agree h connector _ _

/-- A part takes a parenthesis, or the word that reverses it, before any part inside of it. -/
theorem run_operandStarting_agree (ctx : Context) (h : AgreeBelow bound r r') {s : Parser}
    (hs : s.input.size ≤ bound) : (operandStarting ctx r s.view).run s =
      (operandStarting ctx r' s.view).run s := by
  have hrest (htok : s.hasTokens = true) : s.advance.input.size < bound := by
    have hpos := s.hasTokens_iff.1 htok
    rw [Parser.size_advance]
    omega
  unfold operandStarting
  cases hk : s.view.kind with
  | openParen =>
    have htok := Parser.hasTokens_of_kind hk (by decide)
    exact (chainOf_agree h).bind (fun inner => .refl _ _) _ (hrest htok)
  | ident =>
    have htok := Parser.hasTokens_of_kind hk (by decide)
    dsimp only
    split
    · exact h.bind (fun inner => .refl _ _) _ (hrest htok)
    · rfl
  | _ => rfl

end

/-- Parts of chains are read to a depth, and a part to one that is never met. -/
theorem deepens_operand (ctx : Context) :
    Deepens .condition (operandStarting ctx) (operandWithin ctx) (operand ctx) where
  succ _ := rfl
  whole_eq := rfl
  agree := run_operandStarting_agree ctx

/-- A part of a chain is what is under the cursor starts, and so are the parts inside of it. -/
theorem run_operand (ctx : Context) (s : Parser) : (operand ctx).run s =
    (inFrame .condition (do operandStarting ctx (operand ctx) (← view))).run s :=
  (deepens_operand ctx).run_whole s

/-- A condition is a chain of parts, however deep conditions go in them. -/
theorem run_condition (ctx : Context) (s : Parser) :
    (condition ctx).run s = (chainOf (operand ctx)).run s := by
  rw [condition, run_bind, run_view, Parser.size_view]
  exact chainOf_agree ((deepens_operand ctx).agree_whole _) s (Nat.lt_succ_self _)

end Cssom.Grammar

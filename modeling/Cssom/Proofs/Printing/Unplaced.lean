import Cssom.Proofs.Printing.Stylesheet

/-!
# Reading without places

The tokens that a rule of an unknown name was kept in have places, which are others in a print than
in its source. `unplacedWithin` reads a rule and does away with the places. Doing so rule by rule,
inside of groups too, comes to the same as doing so at the end (`keywordRule_map`, `allRules_map`);
so what is known of reading groups and style sheets back holds of this reading as well.
-/

namespace Cssom

/-! ### Rules without places -/

namespace Rule

/-- To do something to all rules is to do it to each. -/
theorem mapAll_eq_map {f : Property → Property} {g : Token → Token} (rules : List Rule) :
    mapAll f g rules = rules.map (mapParts f g) := by
  induction rules with
  | nil => rfl
  | cons rule rest ih => rw [mapAll, ih, List.map_cons]

@[simp] theorem unplaced_media (list : MediaList) (rules : List Rule) :
    (media list rules).unplaced = media list (rules.map unplaced) := by
  rw [unplaced, mapParts, mapAll_eq_map]

@[simp] theorem unplaced_supports (condition : Condition) (rules : List Rule) :
    (supports condition rules).unplaced = supports condition (rules.map unplaced) := by
  rw [unplaced, mapParts, mapAll_eq_map, Condition.mapProperties_id]

@[simp] theorem unplaced_document (functions : List DocumentFunction) (rules : List Rule) :
    (document functions rules).unplaced = document functions (rules.map unplaced) := by
  rw [unplaced, mapParts, mapAll_eq_map]

/-- The places of tokens are not printed. -/
theorem spelling_unplaced (ts : List Token) :
    Token.spelling (ts.map Token.unplaced) = Token.spelling ts := by
  rw [Token.spelling, Token.spelling, List.map_map]
  rfl

mutual

/-- No place is printed. -/
theorem render_unplaced : (r : Rule) → r.unplaced.render = r.render
  | media list rules => by
    rw [unplaced, mapParts, render, render, renderAll_unplaced rules]
  | supports condition rules => by
    rw [unplaced, mapParts, render, render, renderAll_unplaced rules, Condition.mapProperties_id]
  | document functions rules => by
    rw [unplaced, mapParts, render, render, renderAll_unplaced rules]
  | unknown ⟨_, _, block⟩ => by
    cases block <;>
      simp [mapParts, render, UnknownRule.mapTokens, UnknownRule.render, spelling_unplaced]
  | style _ _ | fontFace _ | keyframes _ _ | importRule _ _ | charset _ | namespaceRule _ _
  | page _ _ | viewport _ | keyframe _ => by simp [mapParts]

/-- The texts of rules are the same without places. -/
theorem renderAll_unplaced : (rules : List Rule) →
    renderAll (mapAll id Token.unplaced rules) = renderAll rules
  | [] => rfl
  | rule :: rest => by
    rw [mapAll, renderAll, renderAll, renderAll_unplaced rest]
    exact congrArg (· :: renderAll rest) (render_unplaced rule)

end

/-- A rule that holds no rules holds none without its places. -/
theorem nested?_unplaced {r : Rule} (h : r.nested? = none) : r.unplaced.nested? = none := by
  cases r <;> first | rfl | exact absurd h (by simp [nested?])

end Rule

namespace Grammar

open Production Token Input

variable {ctx : Context} {config : Config}

/-! ### Doing something to each item -/

section

variable {α : Type} (f : α → α) (item : Production (Option α))

/-- To do something to each item as it is read is to do it to all items at the end. -/
theorem itemsFrom_map (stops : Kind → Bool) (rounds : Nat) (items : List α) :
    itemsFrom stops (Option.map f <$> item) rounds (items.map f) =
      List.map f <$> itemsFrom stops item rounds items := by
  induction rounds generalizing items with
  | zero => rfl
  | succ rounds ih =>
    unfold itemsFrom
    rw [map_bind]
    refine congrArg (view >>= ·) (funext fun view => ?_)
    split
    · rw [map_pure]
    · rw [map_bind, bind_map_left]
      refine congrArg (item >>= ·) (funext fun parsed => ?_)
      rw [map_bind, ← ih, List.map_append]
      cases parsed <;> rfl

end

section

variable (rule : Production (Option Rule)) (f : Rule → Rule)

/-- To do something to each rule of a block as it is read is to do it to all of them at the end. -/
theorem rulesOf_map : rulesOf (Option.map f <$> rule) = List.map f <$> rulesOf rule := by
  unfold rulesOf
  rw [map_bind]
  refine congrArg (view >>= ·) (funext fun view => ?_)
  rw [rulesFrom_eq, rulesFrom_eq]
  exact itemsFrom_map f rule endsItems view.size []

/-- To do something to each rule between braces as it is read is to do it to all of them at the
end. -/
theorem ruleBlock_map : ruleBlock (Option.map f <$> rule) =
    Option.map (List.map f) <$> ruleBlock rule := by
  unfold ruleBlock
  rw [map_bind, rulesOf_map]
  refine congrArg (blockOpening >>= ·) (funext fun opened => ?_)
  split
  · simp only [map_bind, bind_map_left, map_pure, Option.map_some]
  · rw [map_pure, Option.map_none]

end

section

variable (rule : Production (Option Rule))

/-- The rules in a block for media may lose their places as they are read. -/
theorem mediaBlock_map (list : MediaList) : mediaBlock (Option.map Rule.unplaced <$> rule) list =
    Option.map Rule.unplaced <$> mediaBlock rule list := by
  unfold mediaBlock
  rw [map_bind, rulesOf_map]
  refine congrArg (view >>= ·) (funext fun view => ?_)
  split <;> simp only [map_bind, bind_map_left, map_pure, Option.map_some, Option.map_none,
    Rule.unplaced_media, List.map_nil]

/-- The rules in a rule for media may lose their places as they are read. -/
theorem mediaRule_map (ctx : Context) : mediaRule ctx (Option.map Rule.unplaced <$> rule) =
    Option.map Rule.unplaced <$> mediaRule ctx rule := by
  unfold mediaRule
  rw [map_bind]
  exact congrArg (mediaPrelude ctx >>= ·) (funext fun list => mediaBlock_map rule list)

/-- The rules in a rule with a condition may lose their places as they are read. -/
theorem supportsRule_map (ctx : Context) : supportsRule ctx (Option.map Rule.unplaced <$> rule) =
    Option.map Rule.unplaced <$> supportsRule ctx rule := by
  unfold supportsRule
  rw [map_bind]
  refine congrArg (supportsCondition ctx >>= ·) (funext fun parsed => ?_)
  rcases parsed with _ | condition
  · simp only [map_bind, map_pure, Option.map_none]
  · rw [ruleBlock_map]
    simp [Function.comp_def]

/-- The rules in a rule for documents may lose their places as they are read. -/
theorem documentRule_map : documentRule (Option.map Rule.unplaced <$> rule) =
    Option.map Rule.unplaced <$> documentRule rule := by
  unfold documentRule
  rw [map_bind]
  refine congrArg (view >>= ·) (funext fun view => ?_)
  rw [map_bind]
  refine congrArg (documentFunctionsFrom (view.size + 1) [] >>= ·) (funext fun parsed => ?_)
  rcases parsed with _ | functions
  · simp only [map_bind, map_pure, Option.map_none]
  · rw [ruleBlock_map]
    simp [Function.comp_def]

/-- Behind the at-keyword of a group, the places may be done away with in the rules inside. -/
theorem keywordRule_map (ctx : Context) {keyword : AtKeyword} (hholds : holdsRules keyword = true) :
    keywordRule ctx (Option.map Rule.unplaced <$> rule) keyword =
      Option.map Rule.unplaced <$> keywordRule ctx rule keyword := by
  cases keyword with
  | media => exact mediaRule_map rule ctx
  | supports => exact supportsRule_map rule ctx
  | document => exact documentRule_map rule
  | _ => exact absurd hholds (by decide)

end

/-! ### Reading rules without places -/

/-- Reads a rule in which rules may go so deep, and does away with the places of its tokens. -/
def unplacedWithin (ctx : Context) (depth : Nat) : Production (Option Rule) :=
  Option.map Rule.unplaced <$> ruleWithin ctx depth

/-- Rules without places take a token, to whatever depth they may go. -/
theorem advancing_unplacedWithin (ctx : Context) : Advancing (unplacedWithin ctx) :=
  fun depth s hs => (advancing_ruleWithin ctx depth s hs).map _

/-- Rules without places are read by what their at-keyword says, if they hold rules. -/
theorem readsKeyword_unplacedWithin {keyword : AtKeyword} (hholds : holdsRules keyword = true) :
    ReadsKeyword ctx (unplacedWithin ctx) keyword := by
  intro depth i hkind hkeyword
  have hknown : keyword ≠ .unknown := by
    rintro rfl
    exact absurd hholds (by decide)
  have hread : (ruleWithin ctx (depth + 1)).read i = _ :=
    readsKeyword_ruleWithin hknown depth i hkind hkeyword
  unfold unplacedWithin
  rw [keywordRule_map _ ctx hholds, read_map, read_map, hread]

/-- The places may be done away with rule by rule. -/
theorem allRules_map (ctx : Context) :
    allRules (unplacedWithin ctx) = List.map Rule.unplaced <$> allRules (ruleWithin ctx) := by
  have hrule : anyRule (unplacedWithin ctx) =
      Option.map Rule.unplaced <$> anyRule (ruleWithin ctx) := by
    unfold anyRule unplacedWithin
    rw [map_bind]
  unfold allRules
  rw [map_bind, hrule]
  exact congrArg (view >>= ·) (funext fun view => itemsFrom_map _ _ _ view.size [])

end Grammar

end Cssom

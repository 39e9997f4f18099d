import Cssom.Parser.Entry
import Cssom.Proofs.Printing.Condition
import Cssom.Proofs.Reading.Values

/-!
# The normal form of conditions

What is read as a condition is flat: a chain has two parts or more, none of them a chain itself, and
every part that another one follows is in parentheses, perhaps behind some `not`. And it is as long
as it can be: the word that would go on with it does not follow (`conditions_are_flat`). Both hang
on where a declaration stops, which is before a token that ends values and never before a word.
-/

namespace Cssom

open Production Token

namespace Condition

/-! ### Flat conditions -/

/-- Whether the condition is a declaration, a group or the reverse of something, and no chain. -/
def isPart : Condition → Bool
  | declaration _ => true
  | group _ => true
  | negation _ => true
  | _ => false

/-- Whether the condition is in parentheses, perhaps behind some `not`. -/
def isClosed : Condition → Bool
  | group _ => true
  | negation inner => inner.isClosed
  | _ => false

/-- The parts of a flat chain: two or more, none of them a chain, and all but the last one
closed. -/
structure FlatParts (parts : List Condition) : Prop where
  long : 2 ≤ parts.length
  isPart : ∀ c ∈ parts, c.isPart = true
  isClosed : ∀ c ∈ parts.dropLast, c.isClosed = true

/-- The condition is none of a kind that is never read: there is something to it, its declaration
has a value, no chain stands behind its `not`, and a chain has flat parts. -/
def IsFlat : Condition → Prop
  | empty => False
  | declaration property => property.value.isSome = true
  | group _ => True
  | negation inner => inner.isPart = true
  | conjunction parts => FlatParts parts
  | disjunction parts => FlatParts parts

mutual

/-- The condition, and all conditions inside of it. -/
def nodes : Condition → List Condition
  | empty => [empty]
  | declaration property => [declaration property]
  | group inner => group inner :: inner.nodes
  | negation inner => negation inner :: inner.nodes
  | conjunction parts => conjunction parts :: allNodes parts
  | disjunction parts => disjunction parts :: allNodes parts

/-- The conditions, and all conditions inside of them. -/
def allNodes : List Condition → List Condition
  | [] => []
  | part :: rest => part.nodes ++ allNodes rest

end

/-- The condition is flat, and so are all conditions inside of it. -/
def IsNormal (c : Condition) : Prop :=
  ∀ node ∈ c.nodes, node.IsFlat

/-- The word that would go on with the condition is not this token: `and` after a conjunction, `or`
after a disjunction, and both of them after anything else. -/
def IsWholeBefore : Condition → Token → Prop
  | conjunction _, token => token.isWord "and" = false
  | disjunction _, token => token.isWord "or" = false
  | _, token => token.isWord "and" = false ∧ token.isWord "or" = false

variable {c : Condition}

/-- The conditions inside of some conditions are those inside of each. -/
theorem allNodes_eq_flatMap (parts : List Condition) : allNodes parts = parts.flatMap nodes := by
  induction parts with
  | nil => rfl
  | cons part parts ih => rw [allNodes, ih, List.flatMap_cons]

/-- A condition is one of those inside of it. -/
theorem mem_nodes (c : Condition) : c ∈ c.nodes := by
  cases c <;> exact List.mem_cons_self

/-- A normal condition is flat. -/
theorem IsNormal.flat (h : c.IsNormal) : c.IsFlat :=
  h c c.mem_nodes

/-- A declaration with a value is normal. -/
theorem isNormal_declaration {property : Property} (h : property.value.isSome = true) :
    (declaration property).IsNormal := by
  intro node hnode
  rw [List.mem_singleton.1 hnode]
  exact h

/-- A normal condition in parentheses is normal. -/
theorem isNormal_group (h : c.IsNormal) : (group c).IsNormal :=
  List.forall_mem_cons.2 ⟨trivial, h⟩

/-- The reverse of a normal condition is normal, unless that is a chain. -/
theorem isNormal_negation (h : c.IsNormal) (hpart : c.isPart = true) : (negation c).IsNormal :=
  List.forall_mem_cons.2 ⟨hpart, h⟩

/-- What is reversed in a normal condition is normal. -/
theorem IsNormal.of_negation (h : (negation c).IsNormal) : c.IsNormal :=
  fun node hnode => h node (List.mem_cons_of_mem _ hnode)

/-- A chain of flat parts is normal if its parts are. -/
theorem isNormal_join {connector : Grammar.Connector} {parts : List Condition}
    (h : FlatParts parts) (hparts : ∀ c ∈ parts, c.IsNormal) : (connector.join parts).IsNormal := by
  have hinner : ∀ node ∈ allNodes parts, node.IsFlat := by
    intro node hnode
    rw [allNodes_eq_flatMap, List.mem_flatMap] at hnode
    obtain ⟨c, hc, hnode⟩ := hnode
    exact hparts c hc node hnode
  cases connector with
  | and => exact List.forall_mem_cons.2 ⟨h, hinner⟩
  | or => exact List.forall_mem_cons.2 ⟨h, hinner⟩

/-- A part that does not go on up to a token that ends values is closed. -/
theorem isClosed_of_not_isOpen (h : c.IsNormal) (hpart : c.isPart = true)
    (hopen : c.isOpen = false) : c.isClosed = true := by
  induction c using Condition.rec (motive_2 := fun _ => True) with
  | declaration property => exact absurd hopen (by simp [isOpen])
  | group inner => rfl
  | negation inner ih => exact ih h.of_negation h.flat hopen
  | empty | conjunction | disjunction => exact absurd hpart (by simp [isPart])
  | nil | cons => trivial

end Condition

namespace Grammar

variable {ctx : Context} {i : Input} {c : Condition} {connector : Connector}

/-! ### Connectors -/

/-- No token goes on with a chain that its connector does not follow. -/
theorem isWholeBefore_join {parts : List Condition} {connector : Connector} {token : Token}
    (h : Connector.ofToken? token ≠ some connector) :
    (connector.join parts).IsWholeBefore token := by
  cases connector with
  | and =>
    show token.isWord "and" = false
    rw [Bool.eq_false_iff]
    intro hword
    exact h (by rw [Connector.ofToken?, if_pos hword])
  | or =>
    show token.isWord "or" = false
    rw [Bool.eq_false_iff]
    intro hword
    have hand : token.isWord "and" = false := isWord_eq_false hword (by decide)
    exact h (by rw [Connector.ofToken?, hand, hword]; rfl)

/-- No token goes on with a part of a chain that no connector follows. -/
theorem isWholeBefore_of_isPart {token : Token} (hpart : c.isPart = true)
    (h : Connector.ofToken? token = none) : c.IsWholeBefore token := by
  have hwords : token.isWord "and" = false ∧ token.isWord "or" = false := by
    unfold Connector.ofToken? at h
    split at h
    · exact absurd h (by simp)
    split at h
    · exact absurd h (by simp)
    · next hand hor => exact ⟨Bool.eq_false_iff.2 hand, Bool.eq_false_iff.2 hor⟩
  cases c with
  | declaration | group | negation => exact hwords
  | empty | conjunction | disjunction => exact absurd hpart (by simp [Condition.isPart])

/-! ### Reading chains -/

/-- A part of a chain as it is read: normal, and with its value read up to the end of it. -/
structure IsOperand (c : Condition) (rest : Input) : Prop where
  isPart : c.isPart = true
  isNormal : c.IsNormal
  follows : FollowsOperand c rest.view.kind

/-- What is read as a part of a chain, in which conditions may go so deep, is one. -/
def ReadsOperands (ctx : Context) (depth : Nat) : Prop :=
  ∀ i : Input, (operandWithin ctx depth).Yields i fun result rest => ∀ c,
    result = some c → IsOperand c rest

/-- The condition is normal, and nothing goes on with it. -/
def IsWhole (c : Condition) (rest : Input) : Prop :=
  c.IsNormal ∧ c.IsWholeBefore rest.view.token

/-- A part of a chain that a connector follows is closed. -/
theorem IsOperand.isClosed {connector : Connector} (h : IsOperand c i)
    (hconnector : Connector.ofToken? i.view.token = some connector) : c.isClosed = true :=
  Condition.isClosed_of_not_isOpen h.isNormal h.isPart (closed_of_connector h.follows hconnector)

/-- Closed parts before a last one are those of a flat chain. -/
theorem flatParts_concat {before : List Condition} {last : Condition} (hne : before ≠ [])
    (hbefore : ∀ c ∈ before, c.isPart = true ∧ c.isClosed = true) (hlast : last.isPart = true) :
    Condition.FlatParts (before ++ [last]) where
  long := by
    have hpos := List.length_pos_iff.2 hne
    rw [List.length_append, List.length_singleton]
    omega
  isPart := by
    intro c hc
    rcases List.mem_append.1 hc with hc | hc
    · exact (hbefore c hc).1
    · rwa [List.mem_singleton.1 hc]
  isClosed := by
    rw [List.dropLast_concat]
    exact fun c hc => (hbefore c hc).2

/-- What was read of a chain: closed parts, and a last one, under way to being followed. -/
structure ChainSoFar (connector : Connector) (before : List Condition) (last : Condition)
    (rest : Input) : Prop where
  closed : ∀ c ∈ before, c.isPart = true ∧ c.isClosed = true
  normal : ∀ c ∈ before, c.IsNormal
  last : IsOperand last rest
  long : before ≠ [] ∨ Connector.ofToken? rest.view.token = some connector

namespace ChainSoFar

variable {before : List Condition} {last part : Condition}

/-- A chain that its connector does not follow is whole. -/
theorem isWhole (h : ChainSoFar connector before last i)
    (hnone : Connector.ofToken? i.view.token ≠ some connector) :
    IsWhole (connector.join (before ++ [last])) i := by
  have hflat := flatParts_concat (h.long.resolve_right hnone) h.closed h.last.isPart
  refine ⟨Condition.isNormal_join hflat ?_, isWholeBefore_join hnone⟩
  intro c hc
  rcases List.mem_append.1 hc with hc | hc
  · exact h.normal c hc
  · rw [List.mem_singleton.1 hc]
    exact h.last.isNormal

/-- A connector and one more part go on with a chain. -/
theorem concat {rest : Input} (h : ChainSoFar connector before last i)
    (hconnector : Connector.ofToken? i.view.token = some connector) (hpart : IsOperand part rest) :
    ChainSoFar connector (before ++ [last]) part rest where
  closed := by
    intro c hc
    rcases List.mem_append.1 hc with hc | hc
    · exact h.closed c hc
    · rw [List.mem_singleton.1 hc]
      exact ⟨h.last.isPart, h.last.isClosed hconnector⟩
  normal := by
    intro c hc
    rcases List.mem_append.1 hc with hc | hc
    · exact h.normal c hc
    · rw [List.mem_singleton.1 hc]
      exact h.last.isNormal
  last := hpart
  long := Or.inl (List.append_ne_nil_of_right_ne_nil _ (List.cons_ne_nil _ _))

end ChainSoFar

/-- Reading on in a chain gives a condition that is normal and that nothing goes on with. -/
theorem chainFrom_gives_whole {depth : Nat} (hoperand : ReadsOperands ctx depth) (rounds : Nat)
    {before : List Condition} {last : Condition} (h : ChainSoFar connector before last i)
    (hsize : i.size ≤ rounds) :
    (chainFrom (operandWithin ctx depth) connector rounds (before ++ [last])).Yields i
      fun result rest => ∀ c, result = some c → IsWhole c rest := by
  induction rounds generalizing before last i with
  | zero =>
    apply Yields.some
    apply h.isWhole
    have heof : i.view.kind = .eof :=
      i.kind_view_eq_eof_iff.2 (i.size_eq_zero_iff.1 (Nat.le_zero.1 hsize))
    rw [Connector.ofToken?_of_kind (by rw [heof]; decide)]
    simp
  | succ rounds ih =>
    unfold chainFrom
    apply Yields.view
    split
    · next hconnector =>
      apply Yields.skip
      apply Yields.bind (hoperand _)
      intro parsed rest hreach hparsed
      rcases parsed with _ | part
      · exact .none
      have hle := hreach.size_le
      have hadvance : i.advance.size = i.size - 1 := rfl
      exact ih (h.concat hconnector (hparsed part rfl)) (by omega)
    · next hnone => exact .some (h.isWhole hnone)

/-- What is read as a chain is whole. -/
theorem chainOf_gives_whole {depth : Nat} (hoperand : ReadsOperands ctx depth) :
    (chainOf (operandWithin ctx depth)).Yields i
      fun result rest => ∀ c, result = some c → IsWhole c rest := by
  unfold chainOf
  apply Yields.inFrame
  apply Yields.bind (hoperand i)
  intro parsed rest _ hparsed
  rcases parsed with _ | first
  · exact .none
  have hfirst := hparsed first rfl
  apply Yields.view
  rcases hconnector : Connector.ofToken? rest.view.token with _ | connector
  · exact .some ⟨hfirst.isNormal, isWholeBefore_of_isPart hfirst.isPart hconnector⟩
  · refine @chainFrom_gives_whole ctx rest connector depth hoperand rest.size [] first ?_
      (Nat.le_refl _)
    exact ⟨List.forall_mem_nil _, List.forall_mem_nil _, hfirst, Or.inr hconnector⟩

/-! ### Reading parts -/

/-- A declaration that is read as a condition is a part of a chain, and stops where its value
does. -/
theorem declarationCondition_gives_operand : (declarationCondition ctx).Yields i
    fun result rest => ∀ c, result = some c → IsOperand c rest := by
  unfold declarationCondition
  apply Yields.take
  apply Yields.kind
  split
  · exact .none
  apply Yields.skip
  apply Yields.bind value_ends
  intro parsed rest _ hend
  rcases parsed.value with _ | v
  · exact .none
  simp only
  split
  · exact .none
  · exact .some ⟨rfl, Condition.isNormal_declaration rfl, fun _ => hend⟩

/-- What is read as a part of a chain is no chain, and it is normal. -/
theorem operand_is_normal (depth : Nat) : ReadsOperands ctx depth := by
  induction depth with
  | zero => exact fun _ => .none
  | succ depth ih =>
    intro i
    unfold operandWithin
    apply Yields.inFrame
    apply Yields.view
    split
    · apply Yields.skip
      apply Yields.bind (chainOf_gives_whole ih)
      intro parsed rest _ hparsed
      rcases parsed with _ | inner
      · exact .none
      apply Yields.bind_any
      intro _ rest' _
      apply Yields.some
      exact ⟨rfl, Condition.isNormal_group (hparsed inner rfl).1,
        fun hopen => absurd hopen (by simp [Condition.isOpen])⟩
    · split
      · apply Yields.skip
        apply Yields.bind (ih _)
        intro parsed rest _ hparsed
        rcases parsed with _ | inner
        · exact .none
        have hinner := hparsed inner rfl
        apply Yields.some
        exact ⟨rfl, Condition.isNormal_negation hinner.isNormal hinner.isPart, hinner.follows⟩
      · exact declarationCondition_gives_operand
    · exact .none

/-- What is read as a condition is whole. -/
theorem condition_gives_whole : (condition ctx).Yields i
    fun result rest => ∀ c, result = some c → IsWhole c rest :=
  .view (chainOf_gives_whole (operand_is_normal _))

/-- The condition of a rule is normal, unless its block starts at once and there is none. -/
theorem supportsRule_is_normal {rule : Production (Option Rule)} :
    (supportsRule ctx rule).Yields i fun result _ => ∀ c rules,
      result = some (.supports c rules) →
        if i.view.kind = .openCurly then c = .empty else c.IsNormal := by
  have hprelude : (supportsCondition ctx).Yields i fun result _ => ∀ c, result = some c →
      if i.view.kind = .openCurly then c = .empty else c.IsNormal := by
    unfold supportsCondition
    apply Yields.kind
    split
    · exact .some rfl
    · exact condition_gives_whole.mono fun _ _ h c hc => (h c hc).1
  unfold supportsRule
  apply Yields.bind hprelude
  intro parsed rest _ hparsed
  rcases parsed with _ | c
  · refine .bind_any fun _ _ _ => .bind_any fun _ _ _ => .pure ?_
    exact fun _ _ h => absurd h (by simp)
  · apply Yields.bind_any
    intro block _ _
    apply Yields.pure
    intro d rules hd
    obtain ⟨_, _, hsame⟩ := Option.map_eq_some_iff.1 hd
    obtain ⟨rfl, _⟩ := Rule.supports.inj hsame
    exact hparsed c rfl

end Grammar

/-- The condition that a text holds was read from its tokens. -/
theorem exists_parse_of_ofText {text : String} {c : Condition} (h : Condition.ofText text = .ok c) :
    ∃ tokens, (Condition.parse tokens .strict).1 = some c := by
  unfold Condition.ofText at h
  rcases hscan : Token.scan text none with _ | tokens
  · rw [hscan] at h
    exact absurd h (by simp [Bind.bind, Except.bind])
  have hsole : soleResult text (Condition.parse tokens .strict) = .ok c := by
    rwa [hscan] at h
  refine ⟨tokens, ?_⟩
  unfold soleResult at hsole
  split at hsole
  · next result parser hresult =>
    split at hsole
    · exact absurd hsole (by simp)
    · rw [hresult, Except.ok.inj hsole]
  · exact absurd hsole (by simp)

/-- Whatever is read as a condition is flat, and so is all inside of it; the word that would go on
with it does not follow. The same holds of the condition of a rule, and of a text. -/
theorem conditions_are_flat (ctx : Context) (parser : Parser) :
    (∀ c, ((Grammar.condition ctx).run parser).1 = some c →
      c.IsNormal ∧ c.IsWholeBefore ((Grammar.condition ctx).run parser).2.view.token) ∧
    (∀ rule c rules, ((Grammar.supportsRule ctx rule).run parser).1 = some (.supports c rules) →
      if parser.view.kind = .openCurly then c = .empty else c.IsNormal) ∧
    (∀ tokens config c, (Condition.parse tokens config).1 = some c →
      c.IsNormal ∧ c.IsWholeBefore (Condition.parse tokens config).2.view.token) ∧
    ∀ text c, Condition.ofText text = .ok c → c.IsNormal := by
  have hcondition : ∀ (ctx : Context) (parser : Parser) (c : Condition),
      ((Grammar.condition ctx).run parser).1 = some c →
        c.IsNormal ∧ c.IsWholeBefore ((Grammar.condition ctx).run parser).2.view.token := by
    intro ctx parser c hc
    rw [run_result] at hc
    have hrest : ((Grammar.condition ctx).run parser).2.view =
        ((Grammar.condition ctx).read parser.input).rest.view :=
      congrArg Input.view (run_rest _ _)
    rw [hrest]
    exact Grammar.condition_gives_whole c hc
  refine ⟨hcondition ctx parser, ?_, fun tokens config => hcondition _ _, ?_⟩
  · intro rule c rules hc
    rw [run_result] at hc
    exact Grammar.supportsRule_is_normal c rules hc
  · intro text c hc
    obtain ⟨tokens, hparsed⟩ := exists_parse_of_ofText hc
    exact (hcondition _ _ c hparsed).1

/-- Parts in parentheses behind `not` may be followed, and a brace ends the chain. -/
theorem conditions_are_flat_before_a_block :
    let token (kind : Token.Kind) (text : String) (start : UInt32) : Token :=
      ⟨kind, text, ⟨⟨start, ""⟩, ⟨start + 1, ""⟩⟩⟩
    let closed : List Token :=
      [token .ident "not" 0, token .openParen "(" 1, token .ident "a" 2, token .colon ":" 3,
        token .ident "b" 4, token .closeParen ")" 5]
    let tokens := closed ++ [token .ident "AND" 6] ++ closed ++ [token .openCurly "\x7b" 7]
    let ctx := Context.ofConfig .strict
    let parser := Parser.ofTokens tokens .strict
    let part : Condition := .negation (.group (.declaration ⟨"a", some ⟨"b"⟩, false, false⟩))
    let whole : Condition := .conjunction [part, part]
    (((Grammar.condition ctx).run parser).1 = some whole ∧
      ((Grammar.supportsRule ctx (pure none)).run parser).1 = some (.supports whole []) ∧
      (Condition.parse tokens .strict).1 = some whole ∧
      Condition.ofText "not (a: b)" = .ok part) ∧
    (whole.IsNormal ∧ whole.IsWholeBefore ((Grammar.condition ctx).run parser).2.view.token) ∧
    (if parser.view.kind = .openCurly then whole = .empty else whole.IsNormal) ∧
    (whole.IsNormal ∧ whole.IsWholeBefore (Condition.parse tokens .strict).2.view.token) ∧
    part.IsNormal := by
  intro token closed tokens ctx parser part whole
  have hcondition : ((Grammar.condition ctx).run parser).1 = some whole := by decide +kernel
  have hrule : ((Grammar.supportsRule ctx (pure none)).run parser).1 =
      some (.supports whole []) := by
    have hany : ((Grammar.supportsRule ctx (pure none)).run parser).1.any
        (·.same (.supports whole [])) = true := by decide +kernel
    obtain ⟨rule, hrule, hsame⟩ := (Option.any_eq_true _ _).1 hany
    rw [hrule]
    cases rule with
    | supports c rules =>
      rcases rules with _ | ⟨r, rules⟩
      · rw [Rule.same, Bool.and_eq_true, beq_iff_eq] at hsame
        rw [hsame.1]
      · simp [Rule.same, Rule.sameAll] at hsame
    | _ => simp [Rule.same] at hsame
  have hparse : (Condition.parse tokens .strict).1 = some whole := by decide +kernel
  have htext : Condition.ofText "not (a: b)" = .ok part := by decide +kernel
  obtain ⟨h₁, h₂, h₃, h₄⟩ := conditions_are_flat ctx parser
  exact ⟨⟨hcondition, hrule, hparse, htext⟩, h₁ _ hcondition, h₂ _ _ _ hrule,
    h₃ _ _ _ hparse, h₄ _ _ htext⟩

end Cssom

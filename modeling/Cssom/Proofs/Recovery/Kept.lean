import Cssom.Proofs.SyntaxTree.Rules
import Mathlib.Data.List.TakeWhile

/-!
# What a reading without reports keeps

A reading is quiet if it reports nothing. What such a reading started, it kept: every attempt at a
rule, a moment of an animation or a declaration built what it was for, and what was built is, in
order, what the result holds (`Yields`, `Kept`). What holds of quiet readings (`IfQuiet`) is put
together where productions are; what follows a report need not be looked at.
-/

namespace Cssom

open SyntaxTree Production

/-! ### Texts of tokens -/

/-- The tokens ahead have texts, as those of a source do. -/
def Input.Worded (input : Input) : Prop :=
  ∀ lexeme ∈ input.ahead, lexeme.token.text ≠ ""

namespace Input

variable {i j : Input}

/-- Tokens have texts further on too. -/
theorem Worded.of_reaches (h : i.Worded) (hreach : i.Reaches j) : j.Worded :=
  fun lexeme hmem => h lexeme (hreach.suffix.subset hmem)

/-- Where there is a token under the cursor its text is not empty. -/
theorem Worded.text_ne (h : i.Worded) (hahead : i.ahead ≠ []) : i.view.token.text ≠ "" := by
  obtain ⟨lexeme, rest, hcons⟩ := List.exists_cons_of_ne_nil hahead
  change i.current.text ≠ ""
  unfold current
  rw [hcons]
  exact h lexeme (hcons ▸ List.mem_cons_self)

/-- Tokens have texts behind whatever was read. -/
theorem Worded.read {α : Type} (h : i.Worded) (p : Production α) : (p.read i).rest.Worded :=
  h.of_reaches (p.read_reaches i)

/-- An input of tokens with texts has such ahead. -/
theorem worded_ofTokens {tokens : List Token} (h : ∀ t ∈ tokens, t.kind ≠ .eof → t.text ≠ "") :
    (ofTokens tokens).Worded := by
  intro lexeme hmem
  have hgroup := Lexeme.ungroup_group (tokens.takeWhile (·.kind != .eof))
  have htoken : lexeme.token ∈ tokens.takeWhile (·.kind != .eof) := by
    rw [← hgroup]
    refine List.mem_append_left _ (List.mem_flatMap.2 ⟨lexeme, hmem, ?_⟩)
    exact List.mem_append_right _ List.mem_cons_self
  have hkind : lexeme.token.kind ≠ .eof := by simpa using List.mem_takeWhile_imp htoken
  exact h _ ((List.takeWhile_sublist _).subset htoken) hkind

end Input

/-! ### Quiet readings -/

namespace Production

variable {α β : Type}

/-- Something holds of the result and of the attempts of a reading, if that reports nothing. -/
def IfQuiet (p : Production α) (input : Input) (K : α → List Attempt → Prop) : Prop :=
  (p.read input).reports = [] → K (p.read input).result (p.attempts input)

namespace IfQuiet

variable {input : Input} {p q : Production α} {K : α → List Attempt → Prop}
  {K' : β → List Attempt → Prop}

/-- What holds of quiet readings may be weakened. -/
theorem imp {K'' : α → List Attempt → Prop} (h : p.IfQuiet input K)
    (hK : ∀ a as, K a as → K'' a as) : p.IfQuiet input K'' :=
  fun hquiet => hK _ _ (h hquiet)

/-- To give a result starts nothing. -/
theorem pure {a : α} (h : K a []) : (Pure.pure a : Production α).IfQuiet input K :=
  fun _ => h

/-- If steps are quiet, one after the other, so is each of them. -/
theorem bind {f : α → Production β} (hp : p.IfQuiet input K)
    (hf : K (p.read input).result (p.attempts input) →
      (f (p.read input).result).IfQuiet (p.read input).rest
        fun b bs => K' b (p.attempts input ++ bs)) : (p >>= f).IfQuiet input K' := by
  intro hquiet
  rw [reports_read_bind, List.append_eq_nil_iff] at hquiet
  rw [result_read_bind, attempts_bind]
  exact hf (hp hquiet.1) hquiet.2

/-- After something that opens no frame. -/
theorem after_frameless {f : α → Production β} (hp : p.Frameless)
    (hf : (f (p.read input).result).IfQuiet (p.read input).rest K') :
    (p >>= f).IfQuiet input K' := by
  refine bind (K := fun _ _ => True) (fun _ => trivial) fun _ => ?_
  rw [attempts_of_frameless hp]
  exact hf

/-- To look is quiet, and what is done then is asked. -/
theorem view {f : View → Production β} (hf : (f input.view).IfQuiet input K') :
    (Production.view >>= f).IfQuiet input K' :=
  hf

/-- To move on is quiet, and what is done then is asked. -/
theorem skip {f : Unit → Production β} (hf : (f ()).IfQuiet input.advance K') :
    (Production.skip >>= f).IfQuiet input K' :=
  hf

/-- Of a choice both ways are asked. -/
theorem ite {c : Prop} [Decidable c] (hp : c → p.IfQuiet input K) (hq : ¬c → q.IfQuiet input K) :
    (if c then p else q).IfQuiet input K := by
  split
  · next h => exact hp h
  · next h => exact hq h

/-- What was reported is not quiet. -/
theorem complainAt (cause : Cause) (position : Position) (f : Unit → Production β) :
    (Production.complainAt cause position >>= f).IfQuiet input K' :=
  bind (K := fun _ _ => False) (fun h => absurd h (List.cons_ne_nil _ _)) False.elim

/-- What follows a report is never quiet. -/
theorem complain (cause : Cause) (f : Unit → Production β) :
    (Production.complain cause >>= f).IfQuiet input K' :=
  bind (K := fun _ _ => False) (fun h => absurd h (List.cons_ne_nil _ _)) False.elim

/-- What follows a report of what is under the cursor is never quiet. -/
theorem complainOf (cause : String → Cause) (f : Unit → Production β) :
    (Production.complainOf cause >>= f).IfQuiet input K' :=
  bind (K := fun _ _ => False) (fun h => absurd h (List.cons_ne_nil _ _)) False.elim

/-- A frame is an attempt before those inside of it. -/
theorem inFrame {p : Production (Option α)} {entity : α → Entity}
    {K : Option α → List Attempt → Prop}
    (h : p.IfQuiet input fun a? as => K a? (.ofFrame p (·.map entity) input :: as)) :
    (Production.inFrame entity p).IfQuiet input K := by
  intro hquiet
  rw [read_inFrame] at hquiet ⊢
  rw [attempts_inFrame]
  exact h hquiet

end IfQuiet

end Production

/-! ### What attempts gave -/

/-- The attempt gave a rule: it read it from where it started, or read a moment of an animation. -/
inductive Attempt.GaveRule (ctx : Context) (a : Attempt) : Rule → Prop where
  | rule {r : Rule} (built : a.built = some (.ofRule r))
      (result : ((Grammar.rule ctx).read a.start).result = some r) : GaveRule ctx a r
  | keyframe {frame : Keyframe} (built : a.built = some (.ofKeyframe frame))
      (result : ((Grammar.keyframe ctx).read a.start).result = some frame) :
      GaveRule ctx a (.keyframe frame)

/-- The attempt gave a declaration: it read it from where it started, in some kind of block. -/
structure Attempt.GaveDeclaration (ctx : Context) (a : Attempt) (property : Property) : Prop where
  built : a.built = some (.declaration property)
  result : ∃ set, ((Grammar.declaration ctx set).read a.start).result = some property

/-- Every attempt at a rule or a declaration built one, and these are, in order, those given. -/
structure Yields (ctx : Context) (starts : List Attempt) (rules : List Rule)
    (properties : List Property) : Prop where
  rules_built : ∀ a ∈ starts, a.AtRule → a.isRule = true
  declarations_built : ∀ a ∈ starts, a.AtDeclaration → a.isDeclaration = true
  rules : List.Forall₂ (Attempt.GaveRule ctx) (starts.filter Attempt.isRule) rules
  declarations : List.Forall₂ (Attempt.GaveDeclaration ctx)
    (starts.filter Attempt.isDeclaration) properties

namespace Yields

variable {ctx : Context} {as bs : List Attempt} {rules rules' : List Rule}
  {properties properties' : List Property}

/-- Attempts at parts only. -/
theorem of_parts (h : ∀ a ∈ as, ∀ e, a.aim e → e.IsPart) : Yields ctx as [] [] := by
  have hrule : ∀ a ∈ as, ¬a.AtRule := fun a ha ⟨r, hr⟩ => h a ha _ hr
  have hdeclaration : ∀ a ∈ as, ¬a.AtDeclaration := fun a ha ⟨p, hp⟩ => h a ha _ hp
  have hrules : as.filter Attempt.isRule = [] :=
    List.filter_eq_nil_iff.2 fun a ha hbuilt => hrule a ha (a.atRule_of_isRule hbuilt)
  have hdeclarations : as.filter Attempt.isDeclaration = [] :=
    List.filter_eq_nil_iff.2 fun a ha hbuilt =>
      hdeclaration a ha (a.atDeclaration_of_isDeclaration hbuilt)
  refine ⟨fun a ha hat => absurd hat (hrule a ha), fun a ha hat => absurd hat (hdeclaration a ha),
    ?_, ?_⟩
  · rw [hrules]
    exact .nil
  · rw [hdeclarations]
    exact .nil

/-- Where nothing is started nothing is given. -/
theorem nil : Yields ctx [] [] [] :=
  of_parts fun _ ha => absurd ha List.not_mem_nil

/-- What is given by some attempts and then by others is given by all. -/
theorem append (ha : Yields ctx as rules properties) (hb : Yields ctx bs rules' properties') :
    Yields ctx (as ++ bs) (rules ++ rules') (properties ++ properties') where
  rules_built a hmem := (List.mem_append.1 hmem).elim (ha.rules_built a) (hb.rules_built a)
  declarations_built a hmem :=
    (List.mem_append.1 hmem).elim (ha.declarations_built a) (hb.declarations_built a)
  rules := by
    rw [List.filter_append]
    exact List.rel_append ha.rules hb.rules
  declarations := by
    rw [List.filter_append]
    exact List.rel_append ha.declarations hb.declarations

/-- An attempt that gave a rule, and those inside of it. -/
theorem rule {a : Attempt} {r : Rule} (hgave : a.GaveRule ctx r) (haim : ¬a.AtDeclaration)
    (h : Yields ctx as rules properties) : Yields ctx (a :: as) (r :: rules) properties := by
  have hbuilt : ∃ r, a.built = some (.rule r) := by
    cases hgave with
    | rule hbuilt => exact ⟨_, hbuilt⟩
    | keyframe hbuilt => exact ⟨_, hbuilt⟩
  have hrule : a.isRule = true := by
    obtain ⟨r, hr⟩ := hbuilt
    rw [Attempt.isRule, hr]
  have hdeclaration : a.isDeclaration = false := by
    obtain ⟨r, hr⟩ := hbuilt
    rw [Attempt.isDeclaration, hr]
  refine ⟨?_, ?_, ?_, ?_⟩
  · exact List.forall_mem_cons.2 ⟨fun _ => hrule, h.rules_built⟩
  · exact List.forall_mem_cons.2 ⟨fun hat => absurd hat haim, h.declarations_built⟩
  · rw [List.filter_cons, hrule]
    exact .cons hgave h.rules
  · rw [List.filter_cons, hdeclaration]
    exact h.declarations

/-- An attempt that gave a declaration, and those inside of it. -/
theorem declaration {a : Attempt} {p : Property} (hgave : a.GaveDeclaration ctx p)
    (haim : ¬a.AtRule) (h : Yields ctx as rules properties) :
    Yields ctx (a :: as) rules (p :: properties) := by
  have hrule : a.isRule = false := by rw [Attempt.isRule, hgave.built]
  have hdeclaration : a.isDeclaration = true := by rw [Attempt.isDeclaration, hgave.built]
  refine ⟨?_, ?_, ?_, ?_⟩
  · exact List.forall_mem_cons.2 ⟨fun hat => absurd hat haim, h.rules_built⟩
  · exact List.forall_mem_cons.2 ⟨fun _ => hdeclaration, h.declarations_built⟩
  · rw [List.filter_cons, hrule]
    exact h.rules
  · rw [List.filter_cons, hdeclaration]
    exact .cons hgave h.declarations

end Yields

/-! ### What blocks are made of -/

namespace Block

variable {p q : Property} {block : Block} {after : List Property}

/-- A property that is set is in the block. -/
theorem mem_set (block : Block) (p : Property) : p ∈ (block.set p).properties := by
  suffices h : ∀ properties : List Property, p ∈ setIn p properties from h block.properties
  intro properties
  induction properties with
  | nil => exact List.mem_singleton_self p
  | cons r rest ih =>
    rw [setIn]
    split
    · exact List.mem_cons_self
    · exact List.mem_cons_of_mem r ih

/-- A declaration stays when another name is declared. -/
theorem mem_set_of_mem (h : p ∈ block.properties) (hname : q.name ≠ p.name) :
    p ∈ (block.set q).properties := by
  suffices hin : ∀ properties : List Property, p ∈ properties → p ∈ setIn q properties from
    hin block.properties h
  intro properties hmem
  induction hmem with
  | head rest =>
    rw [setIn, if_neg (Ne.symm hname)]
    exact List.mem_cons_self
  | tail r hrest ih =>
    rw [setIn]
    split
    · exact List.mem_cons_of_mem q hrest
    · exact List.mem_cons_of_mem r ih

/-- A property stays in a block if none of its name is set after it. -/
theorem mem_foldl_set (h : p ∈ block.properties) (hnames : ∀ q ∈ after, q.name ≠ p.name) :
    p ∈ (after.foldl set block).properties := by
  induction after generalizing block with
  | nil => exact h
  | cons q after ih =>
    obtain ⟨hq, hafter⟩ := List.forall_mem_cons.1 hnames
    exact ih (mem_set_of_mem h hq) hafter

/-- The block is what becomes of putting declarations in one by one. Each of them is in the block,
unless a later one has its name. -/
structure MadeOf (block : Block) (group : List Property) : Prop where
  put : group.foldl set .empty = block
  held : ∀ before p after, group = before ++ p :: after →
    p ∈ block.properties ∨ ∃ q ∈ after, q.name = p.name

/-- A block is made of what was put in. -/
theorem madeOf_foldl_set (group : List Property) : (group.foldl set .empty).MadeOf group := by
  refine ⟨rfl, ?_⟩
  rintro before p after rfl
  by_cases hover : ∃ q ∈ after, q.name = p.name
  · exact .inr hover
  · left
    rw [List.foldl_append, List.foldl_cons]
    exact mem_foldl_set (mem_set _ p) fun q hq hname => hover ⟨q, hq, hname⟩

end Block

/-! ### What keeps attempts -/

/-- Every attempt built what it was for. The rules are, in order, those given; the declarations fall
into groups, one for each block, and each block is made of its group. -/
def Kept (ctx : Context) (starts : List Attempt) (rules : List Rule) (blocks : List Block) : Prop :=
  ∃ groups : List (List Property), Yields ctx starts rules groups.flatten ∧
    List.Forall₂ Block.MadeOf blocks groups

namespace Kept

variable {ctx : Context} {as bs : List Attempt} {rules rules' : List Rule}
  {blocks blocks' : List Block}

/-- Attempts at rules that hold no declarations are kept in these. -/
theorem of_yields (h : Yields ctx as rules []) : Kept ctx as rules [] :=
  ⟨[], h, .nil⟩

/-- Declarations that were put into a block one by one. -/
theorem of_declarations {properties : List Property} (h : Yields ctx as [] properties) :
    Kept ctx as [] [properties.foldl Block.set .empty] := by
  refine ⟨[properties], ?_, .cons (Block.madeOf_foldl_set _) .nil⟩
  rw [List.flatten_singleton]
  exact h

/-- What is kept of some attempts and then of others is kept of all. -/
theorem append (ha : Kept ctx as rules blocks) (hb : Kept ctx bs rules' blocks') :
    Kept ctx (as ++ bs) (rules ++ rules') (blocks ++ blocks') := by
  obtain ⟨groups, hyields, hblocks⟩ := ha
  obtain ⟨groups', hyields', hblocks'⟩ := hb
  refine ⟨groups ++ groups', ?_, List.rel_append hblocks hblocks'⟩
  rw [List.flatten_append]
  exact hyields.append hyields'

/-- Parts of a rule before the rest of it make no difference. -/
theorem after_parts (h : Kept ctx bs rules blocks) (has : ∀ a ∈ as, ∀ e, a.aim e → e.IsPart) :
    Kept ctx (as ++ bs) rules blocks :=
  (of_yields (.of_parts has)).append h

end Kept

/-- Attempts that gave some rules, the rules inside of these, and the declarations of them all. -/
def KeptRules (ctx : Context) (starts : List Attempt) (rules : List Rule) : Prop :=
  Kept ctx starts (Rule.everyRule rules) ((Rule.everyRule rules).filterMap Rule.declarations?)

namespace KeptRules

variable {ctx : Context} {as bs : List Attempt} {rules rules' : List Rule}

/-- Where nothing is started nothing is kept. -/
theorem nil : KeptRules ctx [] [] :=
  .of_yields .nil

/-- Rules that are kept, and then others, are kept. -/
theorem append (ha : KeptRules ctx as rules) (hb : KeptRules ctx bs rules') :
    KeptRules ctx (as ++ bs) (rules ++ rules') := by
  rw [KeptRules, Rule.everyRule_append, List.filterMap_append]
  exact Kept.append ha hb

/-- An attempt that gave a rule, and those that what is inside of the rule was kept in. -/
theorem of_gave {a : Attempt} {r : Rule} (hgave : a.GaveRule ctx r) (haim : ¬a.AtDeclaration)
    (h : Kept ctx as (Rule.everyRule r.inner) (r.withInner.filterMap Rule.declarations?)) :
    KeptRules ctx (a :: as) [r] := by
  obtain ⟨groups, hyields, hblocks⟩ := h
  have hevery : Rule.everyRule [r] = r.withInner := List.append_nil _
  refine ⟨groups, ?_, ?_⟩
  · rw [hevery, r.withInner_eq]
    exact hyields.rule hgave haim
  · rw [hevery]
    exact hblocks

end KeptRules

/-- A rule was given, and all that was started after it was started is kept inside of it. -/
def KeptInside (ctx : Context) (r? : Option Rule) (starts : List Attempt) : Prop :=
  ∃ r, r? = some r ∧
    Kept ctx starts (Rule.everyRule r.inner) (r.withInner.filterMap Rule.declarations?)

namespace KeptInside

variable {ctx : Context} {as : List Attempt} {r : Rule}

/-- A rule of declarations. -/
theorem of_block {block : Block} (h : Kept ctx as [] [block]) (hinner : r.inner = [])
    (hblock : r.declarations? = some block) : KeptInside ctx (some r) as := by
  refine ⟨r, rfl, ?_⟩
  rw [r.withInner_eq, hinner, Rule.everyRule, List.filterMap_cons, hblock]
  exact h

/-- A rule that holds other rules. -/
theorem of_rules (h : KeptRules ctx as r.inner) (hblock : r.declarations? = none) :
    KeptInside ctx (some r) as := by
  refine ⟨r, rfl, ?_⟩
  rw [r.withInner_eq, List.filterMap_cons, hblock]
  exact h

/-- A rule that holds neither rules nor declarations. -/
theorem of_parts (h : ∀ a ∈ as, ∀ e, a.aim e → e.IsPart) (hinner : r.inner = [])
    (hblock : r.declarations? = none) : KeptInside ctx (some r) as := by
  refine of_rules ?_ hblock
  rw [hinner]
  exact .of_yields (.of_parts h)

/-- A rule after parts of it. -/
theorem after_parts {r? : Option Rule} {bs : List Attempt} (h : KeptInside ctx r? bs)
    (has : ∀ a ∈ as, ∀ e, a.aim e → e.IsPart) : KeptInside ctx r? (as ++ bs) := by
  obtain ⟨r, hr, hkept⟩ := h
  exact ⟨r, hr, hkept.after_parts has⟩

end KeptInside

end Cssom

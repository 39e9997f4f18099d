import Cssom.Proofs.SyntaxTree.Frames

/-!
# What frames are opened for

A frame whose production gave nothing has no entity, so the tree does not tell what the production
was to build. The *attempts* of a reading do: for each frame, in the order in which they start,
where it was opened, what entities its production may build, and what it built. Values, selector
lists, media lists and conditions are read without any attempt at a rule or a declaration
(`Production.AimsOnly`); so the frames of rules are opened where rules are read and nowhere else.
-/

namespace Cssom

open SyntaxTree Production

/-- A frame that was opened: where, what its production may build, and what it built. -/
structure Attempt where
  start : Input
  aim : Entity → Prop
  built : Option Entity
  aim_of_built : ∀ e, built = some e → aim e

namespace Entity

/-- Parts of rules other than declarations: neither rules nor declarations. -/
def IsPart : Entity → Prop
  | rule _ | declaration _ => False
  | _ => True

end Entity

namespace Attempt

/-- The production may build a rule, or a moment of an animation. -/
def AtRule (a : Attempt) : Prop :=
  ∃ r, a.aim (.rule r)

/-- The production may build a declaration. -/
def AtDeclaration (a : Attempt) : Prop :=
  ∃ p, a.aim (.declaration p)

/-- Whether a rule was built, or a moment of an animation. -/
def isRule (a : Attempt) : Bool :=
  match a.built with
  | some (.rule _) => true
  | _ => false

/-- Whether a declaration was built. -/
def isDeclaration (a : Attempt) : Bool :=
  match a.built with
  | some (.declaration _) => true
  | _ => false

/-- A frame that built a rule was opened for one. -/
theorem atRule_of_isRule {a : Attempt} (h : a.isRule = true) : a.AtRule := by
  unfold isRule at h
  split at h
  · next r hr => exact ⟨r, a.aim_of_built _ hr⟩
  · cases h

/-- A frame that built a declaration was opened for one. -/
theorem atDeclaration_of_isDeclaration {a : Attempt} (h : a.isDeclaration = true) :
    a.AtDeclaration := by
  unfold isDeclaration at h
  split at h
  · next p hp => exact ⟨p, a.aim_of_built _ hp⟩
  · cases h

/-- The frame of a production, opened on an input. -/
def ofFrame {β : Type} (body : Production β) (entity : β → Option Entity) (input : Input) :
    Attempt where
  start := input
  aim e := ∃ b, entity b = some e
  built := entity (body.read input).result
  aim_of_built _ h := ⟨_, h⟩

end Attempt

namespace Production

variable {α β : Type}

/-- The frames that are opened while an input is read, in the order in which they start. -/
def attempts {α : Type} : Production α → Input → List Attempt
  | done _, _ => []
  | look next, input => (next input.view).attempts input
  | advance next, input => next.attempts input.advance
  | report _ next, input => next.attempts input
  | enclosed body entity next, input =>
    .ofFrame body entity input :: (body.attempts input ++
      (next (body.read input).result).attempts (body.read input).rest)

/-- One production after another opens its frames after those of the first one. -/
theorem attempts_bind (p : Production α) (f : α → Production β) (input : Input) :
    (p >>= f).attempts input =
      p.attempts input ++ (f (p.read input).result).attempts (p.read input).rest := by
  change (p.bind f).attempts input = _
  induction p generalizing input with
  | done result => rfl
  | look next ih => exact ih _ f _
  | advance next ih => exact ih f _
  | report diagnostic next ih => exact ih f _
  | enclosed body entity next _ ih =>
    simp only [Production.bind, attempts, read, ih, List.cons_append, List.append_assoc]

@[simp] theorem attempts_enclosed (body : Production β) (entity : β → Option Entity)
    (input : Input) : (enclosed body entity pure).attempts input =
      .ofFrame body entity input :: body.attempts input :=
  congrArg (List.cons _) (List.append_nil _)

@[simp] theorem attempts_inFrame (entity : α → Entity) (body : Production (Option α))
    (input : Input) : (inFrame entity body).attempts input =
      .ofFrame body (·.map entity) input :: body.attempts input :=
  attempts_enclosed body _ input

/-- The frames that are opened are those that are added to the tree. -/
theorem map_built_attempts (p : Production α) (input : Input) :
    (p.attempts input).map Attempt.built = (allFrames (p.nodes input)).map entity? := by
  induction p generalizing input with
  | done result => rfl
  | look next ih => exact ih _ input
  | advance next ih => simp only [attempts, nodes, allFrames_append, allFrames_leaves, ih,
      List.nil_append]
  | report diagnostic next ih => exact ih input
  | enclosed body entity next ihBody ih =>
    simp only [attempts, nodes, allFrames, frames, List.map_cons, List.map_append, ihBody, ih,
      List.cons_append]
    rfl

/-- A production that opens no frame makes no attempt. -/
theorem attempts_of_frameless {p : Production α} (h : p.Frameless) (input : Input) :
    p.attempts input = [] := by
  have hframes : allFrames (p.nodes input) = [] :=
    List.eq_nil_iff_forall_not_mem.2 fun f hf => h input f hf
  rw [← List.map_eq_nil_iff (f := Attempt.built), map_built_attempts, hframes, List.map_nil]

/-- Whatever frames are opened, however deep, may be for such entities only. -/
def AimsOnly {α : Type} (p : Production α) (ok : Entity → Prop) : Prop :=
  ∀ input, ∀ a ∈ p.attempts input, ∀ e, a.aim e → ok e

namespace AimsOnly

variable {ok : Entity → Prop} {p q : Production α}

/-- A production that opens no frame opens none for anything but such entities. -/
theorem of_frameless (h : p.Frameless) : p.AimsOnly ok := by
  intro input a ha
  rw [attempts_of_frameless h] at ha
  exact absurd ha List.not_mem_nil

/-- Giving a result opens no frame. -/
theorem pure (a : α) : (Pure.pure a : Production α).AimsOnly ok :=
  of_frameless (.pure a)

/-- Skipping opens no frame. -/
theorem skip : Production.skip.AimsOnly ok :=
  of_frameless .skip

/-- One production after another opens frames only for what either opens them for. -/
theorem bind {f : α → Production β} (hp : p.AimsOnly ok) (hf : ∀ a, (f a).AimsOnly ok) :
    (p >>= f).AimsOnly ok := by
  intro input a ha
  rw [attempts_bind, List.mem_append] at ha
  exact ha.elim (hp _ a) (hf _ _ a)

/-- A choice opens frames only for what either branch opens them for. -/
theorem ite {c : Prop} [Decidable c] (hp : p.AimsOnly ok) (hq : q.AimsOnly ok) :
    (if c then p else q).AimsOnly ok := by
  split
  · exact hp
  · exact hq

/-- Looking at what comes next opens no frame. -/
theorem view {f : View → Production α} (hf : ∀ v, (f v).AimsOnly ok) :
    (Production.view >>= f).AimsOnly ok :=
  fun input => hf input.view input

/-- Looking at the next kind opens no frame. -/
theorem kind {f : Token.Kind → Production α} (hf : ∀ k, (f k).AimsOnly ok) :
    (Production.kind >>= f).AimsOnly ok :=
  fun input => hf input.view.kind input

/-- A frame is for what its production may build, and so are those inside. -/
theorem enclosed {body : Production β} {entity : β → Option Entity} (hbody : body.AimsOnly ok)
    (hentity : ∀ b e, entity b = some e → ok e) :
    (Production.enclosed body entity Pure.pure).AimsOnly ok := by
  intro input a ha
  rw [attempts_enclosed, List.mem_cons] at ha
  rcases ha with rfl | ha
  · exact fun e ⟨b, hb⟩ => hentity b e hb
  · exact hbody input a ha

/-- A frame for results of one sort is for what they are made into. -/
theorem inFrame {body : Production (Option α)} {entity : α → Entity} (hbody : body.AimsOnly ok)
    (hentity : ∀ a, ok (entity a)) : (Production.inFrame entity body).AimsOnly ok := by
  refine hbody.enclosed fun a? e he => ?_
  obtain ⟨a, -, rfl⟩ := Option.map_eq_some_iff.1 he
  exact hentity a

/-- The frames that are added have such entities only. -/
theorem opensOnly (h : p.AimsOnly ok) : p.OpensOnly fun entity => ∀ e, entity = some e → ok e := by
  intro input f hf e he
  have hmem : f.entity? ∈ (p.attempts input).map Attempt.built := by
    rw [map_built_attempts]
    exact List.mem_map_of_mem hf
  obtain ⟨a, ha, hbuilt⟩ := List.mem_map.1 hmem
  exact h input a ha e (a.aim_of_built e (hbuilt.trans he))

/-- Productions of parts open no frame for a rule. -/
theorem isNoRule (h : p.AimsOnly Entity.IsPart) : p.OpensOnly Entity.IsNoRule :=
  fun input f hf _ hr => h.opensOnly input f hf _ hr

end AimsOnly

end Production

namespace Grammar

variable {ctx : Context}

/-! ### Parts of rules -/

open Entity

/-- A selector list opens frames for parts of rules only. -/
theorem aims_selectorList : selectorList.AimsOnly IsPart :=
  .enclosed (.view fun _ => .bind (.of_frameless (opens_selectorsFrom _ _)) fun _ => .pure _)
    fun _ _ he => Option.some.inj he ▸ trivial

/-- A value opens frames for parts of rules only. -/
theorem aims_value (terminators : List Token.Kind) : (value terminators).AimsOnly IsPart := by
  refine .enclosed (.view fun _ => .bind (.of_frameless (opens_valueFrom _ _ _)) fun _ => .pure _)
    fun parsed e he => ?_
  obtain ⟨value, -, rfl⟩ := Option.map_eq_some_iff.1 he
  trivial

/-- A media feature opens frames for parts of rules only. -/
theorem aims_feature : (feature ctx).AimsOnly IsPart := by
  have hvalue (feature : Feature) : (featureValue feature).AimsOnly IsPart :=
    .kind fun _ => .ite
      (.bind .skip fun _ => .bind (aims_value _) fun _ => .ite (.pure _) (.pure _)) (.pure _)
  refine .inFrame (.kind fun _ => .ite (.pure _) ?_) fun _ => trivial
  refine .bind .skip fun _ => .kind fun _ => .ite (.pure _)
    (.bind (.of_frameless .take) fun name => ?_)
  split
  · exact .pure _
  · refine .bind (hvalue _) fun whole => ?_
    split
    · exact .pure _
    · exact .kind fun _ => .ite (.bind .skip fun _ => .pure _) (.pure _)

/-- Media features open frames for parts of rules only. -/
theorem aims_features (medium : Medium) : (features ctx medium).AimsOnly IsPart := by
  have hfrom (rounds : Nat) (medium : Medium) :
      (featuresFrom ctx rounds medium).AimsOnly IsPart := by
    induction rounds generalizing medium with
    | zero => exact .pure _
    | succ rounds ih =>
      refine .view fun v => .ite (.bind .skip fun _ => .bind aims_feature fun next => ?_) (.pure _)
      split
      · exact .pure _
      · exact ih _
  exact .view fun _ => hfrom _ _

/-- A medium opens frames for parts of rules only. -/
theorem aims_medium : (medium ctx).AimsOnly IsPart := by
  have htyped (reversed guarded : Bool) : (typedMedium ctx reversed guarded).AimsOnly IsPart :=
    .view fun _ => .ite (.pure _) (.bind .skip fun _ => aims_features _)
  refine .inFrame (.view fun v => ?_) fun _ => trivial
  split
  · exact .ite (.bind .skip fun _ => htyped _ _)
      (.ite (.bind .skip fun _ => htyped _ _) (htyped _ _))
  · refine .bind aims_feature fun first => ?_
    split
    · exact .pure _
    · exact aims_features _
  · exact .pure _

/-- A media list opens frames for parts of rules only. -/
theorem aims_mediaList (terminator : Token.Kind) : (mediaList ctx terminator).AimsOnly IsPart := by
  have hfrom (rounds : Nat) (media : List Medium) :
      (mediaFrom ctx rounds media).AimsOnly IsPart := by
    induction rounds generalizing media with
    | zero => exact .pure _
    | succ rounds ih =>
      refine .bind aims_medium fun next => ?_
      split
      · exact .pure _
      · exact .kind fun _ => .ite (.bind .skip fun _ => ih _) (.pure _)
  refine .enclosed (.view fun _ => .bind (hfrom _ _) fun media => .view fun v => ?_)
    fun _ _ he => Option.some.inj he ▸ trivial
  split
  · exact .pure _
  · exact .bind (.of_frameless (opens_passMedia _)) fun _ => .pure _

/-- The media of an import open frames for parts of rules only. -/
theorem aims_importMedia : (importMedia ctx).AimsOnly IsPart := by
  refine .kind fun k => ?_
  split
  · exact .pure _
  · exact .pure _
  · exact aims_mediaList _

/-- The prelude of a media rule opens frames for parts of rules only. -/
theorem aims_mediaPrelude : (mediaPrelude ctx).AimsOnly IsPart :=
  .kind fun _ => .ite (.pure _) (aims_mediaList _)

/-- A condition opens frames for parts of rules only. -/
theorem aims_condition : (condition ctx).AimsOnly IsPart := by
  have hdeclaration : (declarationCondition ctx).AimsOnly IsPart := by
    refine .bind (.of_frameless .take) fun name => .kind fun _ => .ite (.pure _) ?_
    refine .bind .skip fun _ => .bind (aims_value _) fun parsed => ?_
    split
    · exact .pure _
    · exact .ite (.pure _) (.pure _)
  have hchain {operand : Production (Option Condition)} (h : operand.AimsOnly IsPart) :
      (chainOf operand).AimsOnly IsPart := by
    have hfrom (connector : Connector) (rounds : Nat) (parts : List Condition) :
        (chainFrom operand connector rounds parts).AimsOnly IsPart := by
      induction rounds generalizing parts with
      | zero => exact .pure _
      | succ rounds ih =>
        refine .view fun v => .ite (.bind .skip fun _ => .bind h fun part => ?_) (.pure _)
        split
        · exact .pure _
        · exact ih _
    refine .inFrame (.bind h fun first => ?_) fun _ => trivial
    split
    · exact .pure _
    · refine .view fun v => ?_
      split
      · exact .pure _
      · exact hfrom _ _ _
  have hoperand (depth : Nat) : (operandWithin ctx depth).AimsOnly IsPart := by
    induction depth with
    | zero => exact .pure _
    | succ depth ih =>
      refine .inFrame (.view fun v => ?_) fun _ => trivial
      split
      · refine .bind .skip fun _ => .bind (hchain ih) fun inner => ?_
        split
        · exact .pure _
        · exact .bind (.of_frameless (.skipIf _)) fun _ => .pure _
      · refine .ite (.bind .skip fun _ => .bind ih fun inner => ?_) hdeclaration
        split
        · exact .pure _
        · exact .pure _
      · exact .pure _
  exact .view fun _ => hchain (hoperand _)

/-- The condition of a supports rule opens frames for parts of rules only. -/
theorem aims_supportsCondition : (supportsCondition ctx).AimsOnly IsPart :=
  .kind fun _ => .ite (.pure _) aims_condition

/-! ### Productions that open no frame for a rule -/

/-- A selector list opens no frame in which a rule is built. -/
theorem opens_selectorList : selectorList.OpensOnly IsNoRule :=
  aims_selectorList.isNoRule

/-- A declaration has a frame, in which frames are opened for parts only. -/
theorem declaration_in_frame (ctx : Context) (set : BlockKind) :
    ∃ body : Production (Option Property),
      declaration ctx set = inFrame .declaration body ∧ body.AimsOnly IsPart := by
  have habandon : abandonDeclaration.AimsOnly IsPart := .of_frameless opens_abandonDeclaration
  have hvalue (name : String) (property : Property) :
      (declarationValue ctx name property).AimsOnly IsPart := by
    refine .bind (aims_value _) fun parsed => ?_
    split
    · exact .bind (.of_frameless (.complain _)) fun _ => habandon
    · exact .ite (.bind (.of_frameless (.complain _)) fun _ => habandon)
        (.bind (.of_frameless (.skipIf _)) fun _ => .pure _)
  refine ⟨_, rfl, .view fun start => .bind (.of_frameless opens_declarationName) fun name => ?_⟩
  refine .ite (.view fun v => .ite ?_ habandon)
    (.bind (.of_frameless (opens_property _ _ _)) fun property => .view fun v => ?_)
  · exact .bind (.of_frameless (.complainOf _)) fun _ => habandon
  · exact .ite (.bind .skip fun _ => hvalue _ _)
      (.bind (.of_frameless (.complain _)) fun _ => habandon)

/-- A declaration opens no frame in which a rule is built. -/
theorem opens_declaration (set : BlockKind) : (declaration ctx set).OpensOnly IsNoRule := by
  obtain ⟨body, hbody, haims⟩ := declaration_in_frame ctx set
  rw [hbody]
  refine .inFrame haims.isNoRule fun property r hr => ?_
  obtain ⟨property, -, hproperty⟩ := Option.map_eq_some_iff.1 hr
  cases hproperty

/-- Declarations open no frame in which a rule is built. -/
theorem opens_declarations (set : BlockKind) (block : Block) :
    (declarations ctx set block).OpensOnly IsNoRule := by
  have hfrom (rounds : Nat) (block : Block) :
      (declarationsFrom ctx set rounds block).OpensOnly IsNoRule := by
    induction rounds generalizing block with
    | zero => exact .pure _
    | succ rounds ih =>
      refine .view fun v => ?_
      split
      · exact .pure _
      · exact .pure _
      · exact .bind .skip fun _ => ih _
      · exact .bind (opens_declaration _) fun _ => .bind (.passIfStuck _) fun _ => ih _
  exact .view fun _ => hfrom _ _

/-- A declaration block opens no frame in which a rule is built. -/
theorem opens_declarationBlock (set : BlockKind) :
    (declarationBlock ctx set).OpensOnly IsNoRule :=
  .bind opens_blockOpening fun _ => .ite
    (.bind (opens_declarations _ _) fun _ => .bind opens_blockClosing fun _ => .pure _) (.pure _)

end Grammar

end Cssom

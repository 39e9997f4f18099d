import Cssom.Proofs.SyntaxTree.Shows

/-!
# Every rule is shown by its frame

What each production of a rule adds to the tree is what its result holds: of blocks of declarations,
of style rules and of statements by what their parts built; of groups and animations from what holds
of the rules and moments inside of them, by induction on the number of tokens ahead. Whatever the
tokens are, the frames of rules in the tree of a style sheet and the rules of the style sheet
correspond one to one (`tree_shows_the_rules`).
-/

namespace Cssom

open SyntaxTree Production

namespace Grammar

variable {ctx : Context} {R : SyntaxTree → Rule → Prop} {input : Input}

/-! ### Declarations -/

/-- A frame builds its entity, if it has one. -/
theorem built_frame (entity : Option Entity) (nodes : List SyntaxTree) :
    built [frame entity nodes] = entity.toList := by
  cases entity <;> rfl

/-- The declarations of a block are what was put into it, one after the other. -/
theorem built_declarations (ctx : Context) (set : BlockKind) (block : Block) (input : Input) :
    ∃ properties : List Property,
      built ((declarations ctx set block).nodes input) = properties.map .declaration ∧
      ((declarations ctx set block).read input).result = properties.foldl Block.set block := by
  suffices hfrom : ∀ rounds block input, ∃ properties : List Property,
      built ((declarationsFrom ctx set rounds block).nodes input) = properties.map .declaration ∧
      ((declarationsFrom ctx set rounds block).read input).result =
        properties.foldl Block.set block from hfrom input.size block input
  intro rounds
  induction rounds with
  | zero => exact fun block input => ⟨[], rfl, rfl⟩
  | succ rounds ih =>
    intro block input
    unfold declarationsFrom
    simp only [nodes_bind, nodes_view, List.nil_append, result_read_bind, read_view]
    split
    · exact ⟨[], rfl, rfl⟩
    · exact ⟨[], rfl, rfl⟩
    · obtain ⟨properties, hbuilt, hresult⟩ := ih block input.advance
      refine ⟨properties, ?_, hresult⟩
      rw [nodes_bind, built_append, built_of_frameless .skip, List.nil_append]
      exact hbuilt
    · simp only [nodes_bind, built_append, result_read_bind, built_of_frameless (.passIfStuck _),
        List.nil_append]
      have hone : built ((declaration ctx set).nodes input) =
          (((declaration ctx set).read input).result.map Entity.declaration).toList := by
        rw [declaration, nodes_inFrame, read_inFrame, built_frame]
      rw [hone]
      cases ((declaration ctx set).read input).result with
      | none => exact ih block _
      | some property =>
        obtain ⟨properties, hbuilt, hresult⟩ := ih (block.set property)
          ((passIfStuck input.view.offset).read ((declaration ctx set).read input).rest).rest
        exact ⟨property :: properties, congrArg (Entity.declaration property :: ·) hbuilt, hresult⟩

/-- What the frames of a declaration block built are its declarations, and the block is these put in
one by one. -/
theorem built_declarationBlock (set : BlockKind) {block : Block}
    (h : ((declarationBlock ctx set).read input).result = some block) :
    ∃ properties : List Property,
      built ((declarationBlock ctx set).nodes input) = properties.map .declaration ∧
      properties.foldl Block.set .empty = block := by
  rw [declarationBlock, result_read_bind] at h
  rw [declarationBlock, nodes_bind, built_append, built_of_frameless opens_blockOpening,
    List.nil_append]
  cases hopened : (blockOpening.read input).result with
  | false => simp [hopened] at h
  | true =>
    simp only [hopened, if_true, result_read_bind, read_pure, Option.some.injEq] at h
    obtain ⟨properties, hbuilt, hresult⟩ :=
      built_declarations ctx set .empty (blockOpening.read input).rest
    refine ⟨properties, ?_, hresult.symm.trans h⟩
    simp only [if_true, nodes_bind, built_append, hbuilt, built_of_frameless opens_blockClosing,
      nodes_pure, List.append_nil]

/-! ### Rules without rules inside -/

/-- A production that opens no frame for a rule, and gives rules without rules inside. -/
theorem fillsOrDrops_of_opensOnly {p : Production (Option Rule)} (h : p.OpensOnly Entity.IsNoRule)
    (hsome : ∀ r, (p.read input).result = some r →
      r.inner = [] ∧ SyntaxTree.Holds (p.nodes input) r) :
    FillsOrDrops R (p.nodes input) (p.read input).result := by
  have hruleless := Ruleless.of_opensOnly h input
  cases hresult : (p.read input).result with
  | none => exact hruleless
  | some r =>
    obtain ⟨hinner, hholds⟩ := hsome r hresult
    exact .of_ruleless hruleless hinner hholds

/-- A block that is checked opens no frame in which a rule is built. -/
theorem opens_checkedBlock {α : Type} (valid : Bool) (cause : Cause) (position : Position)
    (make : Block → α) :
    (checkedBlock ctx valid cause position make).OpensOnly Entity.IsNoRule := by
  have hblock : (blockIf ctx valid make).OpensOnly Entity.IsNoRule := by
    refine .bind (opens_declarationBlock _) fun block => ?_
    split
    · exact .pure _
    · exact .pure _
  exact .ite (.bind (.complainAt _ _) fun _ => hblock) hblock

/-- A style rule opens no frame in which a rule is built. -/
theorem opens_styleRule : (styleRule ctx).OpensOnly Entity.IsNoRule := by
  rw [styleRule_eq]
  exact .view fun _ => .bind opens_selectorList fun _ => opens_checkedBlock _ _ _ _

/-- What a block of declarations after something else built is what a rule of declarations holds. -/
theorem holds_of_declarations {nodes : List SyntaxTree} {before : List Entity}
    {properties : List Property} {r : Rule} {block : Block}
    (hbuilt : built nodes = before ++ properties.map .declaration)
    (hbefore : ∀ e ∈ before, e.rule? = none ∧ e.declaration? = none)
    (hblock : properties.foldl Block.set .empty = block) (hr : r.declarations? = some block)
    (hinner : r.inner = []) (hselectors : ∀ list block, r = .style list block →
      before.filterMap Entity.selectors? = [list]) : SyntaxTree.Holds nodes r := by
  have hrules : before.filterMap Entity.rule? = [] :=
    List.filterMap_eq_nil_iff.2 fun e he => (hbefore e he).1
  have hdeclarations : before.filterMap Entity.declaration? = [] :=
    List.filterMap_eq_nil_iff.2 fun e he => (hbefore e he).2
  have hnone {α : Type} {f : Entity → Option α} (hf : ∀ p, f (.declaration p) = none) :
      (properties.map Entity.declaration).filterMap f = [] := by
    simp [List.filterMap_map, hf]
  refine ⟨?_, ?_, ?_, ?_, ?_⟩
  · rw [hbuilt, List.filterMap_append, hrules, hnone fun _ => rfl, hinner]
    rfl
  · intro block' hblock'
    have hid : (properties.map Entity.declaration).filterMap Entity.declaration? = properties := by
      simp [List.filterMap_map, Function.comp_def, Entity.declaration?]
    rw [hbuilt, List.filterMap_append, hdeclarations, hid, List.nil_append, hblock]
    exact Option.some.inj (hr.symm.trans hblock')
  · intro list block' hstyle
    rw [hbuilt, List.filterMap_append, hnone fun _ => rfl, List.append_nil]
    exact hselectors list block' hstyle
  · intro list hlist
    cases r <;> simp [Rule.media?, Rule.declarations?] at hlist hr
  · intro c hc
    cases r <;> simp [Rule.condition?, Rule.declarations?] at hc hr

/-- A block after something that was found valid or not is read in any case, and used if that was
valid. -/
theorem read_checkedBlock {α : Type} (valid : Bool) (cause : Cause) (position : Position)
    (make : Block → α) (input : Input) :
    (checkedBlock ctx valid cause position make).nodes input =
        (declarationBlock ctx .standard).nodes input ∧
      ((checkedBlock ctx valid cause position make).read input).result =
        ((declarationBlock ctx .standard).read input).result.bind
          fun block => if valid then some (make block) else none := by
  have hused (used : Bool) : (blockIf ctx used make).nodes input =
        (declarationBlock ctx .standard).nodes input ∧
      ((blockIf ctx used make).read input).result =
        ((declarationBlock ctx .standard).read input).result.bind
          fun block => if used then some (make block) else none := by
    rw [blockIf, nodes_bind, result_read_bind]
    cases ((declarationBlock ctx .standard).read input).result with
    | none => exact ⟨List.append_nil _, rfl⟩
    | some block => exact ⟨List.append_nil _, rfl⟩
  cases valid with
  | true => exact hused true
  | false => exact hused false

/-- A style rule adds its selector list and then its block. -/
theorem nodes_styleRule : (styleRule ctx).nodes input = selectorList.nodes input ++
    (declarationBlock ctx .standard).nodes (selectorList.read input).rest := by
  rw [styleRule_eq, nodes_bind, nodes_bind]
  exact congrArg (selectorList.nodes input ++ ·) (read_checkedBlock _ _ _ _ _).1

/-- A style rule is its selector list, if that is valid, and its block. -/
theorem result_styleRule : ((styleRule ctx).read input).result =
    ((declarationBlock ctx .standard).read (selectorList.read input).rest).result.bind fun block =>
      if (selectorList.read input).result.valid then
        some (.style (selectorList.read input).result.list block) else none := by
  rw [styleRule_eq, result_read_bind, result_read_bind]
  exact (read_checkedBlock _ _ _ _ _).2

/-- A style rule is filled by what it reads, or is dropped. -/
theorem fillsOrDrops_styleRule : FillsOrDrops R ((styleRule ctx).nodes input)
    ((styleRule ctx).read input).result := by
  refine fillsOrDrops_of_opensOnly opens_styleRule fun r hr => ?_
  rw [result_styleRule, Option.bind_eq_some_iff] at hr
  obtain ⟨block, hblock, hr⟩ := hr
  obtain ⟨properties, hbuilt, hfold⟩ := built_declarationBlock .standard hblock
  have hselectors : built (selectorList.nodes input) =
      [.selector (selectorList.read input).result.list] := by
    rw [selectorList, nodes_enclosed, read_enclosed, built_frame]
    rfl
  split at hr
  · cases hr
    have hnodes : built ((styleRule ctx).nodes input) =
        [.selector (selectorList.read input).result.list] ++
          properties.map Entity.declaration := by
      rw [nodes_styleRule, built_append, hselectors, hbuilt]
    refine ⟨rfl, holds_of_declarations hnodes ?_ hfold rfl rfl ?_⟩
    · intro e he
      rw [List.mem_singleton.1 he]
      exact ⟨rfl, rfl⟩
    · rintro list block' ⟨rfl, rfl⟩
      rfl
  · cases hr

/-- A rule that is nothing but a block of declarations, after tokens without frames. -/
theorem fillsOrDrops_blockRule (set : BlockKind) {make : Block → Rule}
    (hmake : ∀ block, (make block).declarations? = some block)
    (hinner : ∀ block, (make block).inner = [])
    (hstyle : ∀ block list block', make block ≠ .style list block') :
    FillsOrDrops R ((blockRule ctx set make).nodes input)
      ((blockRule ctx set make).read input).result := by
  have hopens : (blockRule ctx set make).OpensOnly Entity.IsNoRule :=
    .bind (opens_declarationBlock _) fun _ => .pure _
  refine fillsOrDrops_of_opensOnly hopens fun r hr => ?_
  rw [blockRule, result_read_bind, read_pure, Option.map_eq_some_iff] at hr
  obtain ⟨block, hblock, rfl⟩ := hr
  obtain ⟨properties, hbuilt, hfold⟩ := built_declarationBlock set hblock
  have hnodes : built ((blockRule ctx set make).nodes input) =
      [] ++ properties.map Entity.declaration := by
    rw [blockRule, nodes_bind, nodes_pure, List.append_nil, hbuilt, List.nil_append]
  refine ⟨hinner block, holds_of_declarations hnodes nofun hfold (hmake block) (hinner block) ?_⟩
  exact fun list block' h => absurd h (hstyle block list block')

/-- A page rule is filled by what it reads, or is dropped. -/
theorem fillsOrDrops_pageRule : FillsOrDrops R ((pageRule ctx).nodes input)
    ((pageRule ctx).read input).result := by
  unfold pageRule
  simp only [nodes_bind, nodes_view, List.nil_append, result_read_bind, read_view]
  exact .prepend (allFrames_of_frameless (opens_pageSelectorFrom _ _) _)
    (fillsOrDrops_blockRule _ (fun _ => rfl) (fun _ => rfl) nofun)

/-- A rule that builds nothing but itself. -/
theorem fillsOrDrops_of_frameless {p : Production (Option Rule)}
    (h : p.Frameless) (hsome : ∀ r, (p.read input).result = some r →
      r.inner = [] ∧ r.declarations? = none ∧ r.media? = none ∧ r.condition? = none) :
    FillsOrDrops R (p.nodes input) (p.read input).result := by
  refine fillsOrDrops_of_opensOnly (fun input f hf => absurd hf ?_) fun r hr => ?_
  · rw [allFrames_of_frameless h]
    exact List.not_mem_nil
  obtain ⟨hinner, hdeclarations, hmedia, hcondition⟩ := hsome r hr
  have hbuilt : built (p.nodes input) = [] := built_of_frameless h input
  refine ⟨hinner, ?_, ?_, ?_, ?_, ?_⟩
  · rw [hbuilt, hinner]
    rfl
  · exact fun block hblock => absurd (hdeclarations.symm.trans hblock) nofun
  · rintro list block rfl
    cases hdeclarations
  · exact fun list hlist => absurd (hmedia.symm.trans hlist) nofun
  · exact fun c hc => absurd (hcondition.symm.trans hc) nofun

/-- A statement that is abandoned gives nothing. -/
theorem result_abandonStatement : (abandonStatement.read input).result = none := by
  simp only [abandonStatement, result_read_bind, read_pure]

/-- A charset rule is filled by what it reads, or is dropped. -/
theorem fillsOrDrops_charsetStatement : FillsOrDrops R (charsetStatement.nodes input)
    (charsetStatement.read input).result := by
  refine fillsOrDrops_of_frameless opens_charsetStatement fun r hr => ?_
  rw [charsetStatement, result_read_bind, read_view] at hr
  split at hr
  · simp only [result_read_bind, read_pure, Option.some.injEq] at hr
    rw [← hr]
    exact ⟨rfl, rfl, rfl, rfl⟩
  · exact absurd (result_abandonStatement.symm.trans hr) nofun

/-- A namespace rule is filled by what it reads, or is dropped. -/
theorem fillsOrDrops_namespaceStatement : FillsOrDrops R (namespaceStatement.nodes input)
    (namespaceStatement.read input).result := by
  refine fillsOrDrops_of_frameless opens_namespaceStatement fun r hr => ?_
  rw [namespaceStatement_eq, result_read_bind, namespaceAddress, result_read_bind] at hr
  split at hr
  · exact absurd (result_abandonStatement.symm.trans hr) nofun
  · simp only [result_read_bind, read_pure, Option.some.injEq] at hr
    rw [← hr]
    exact ⟨rfl, rfl, rfl, rfl⟩

/-- An unknown rule is filled by what it reads, or is dropped. -/
theorem fillsOrDrops_unknownRule (name : String) (position : Position) :
    FillsOrDrops R ((unknownRule ctx name position).nodes input)
      ((unknownRule ctx name position).read input).result := by
  refine fillsOrDrops_of_frameless (opens_unknownRule _ _) fun r hr => ?_
  unfold unknownRule at hr
  split at hr
  · simp only [result_read_bind, read_pure, Option.some.injEq] at hr
    rw [← hr]
    exact ⟨rfl, rfl, rfl, rfl⟩
  · simp only [result_read_bind, read_pure] at hr
    cases hr

/-- A media list builds just itself. -/
theorem built_mediaList (terminator : Token.Kind) :
    built ((mediaList ctx terminator).nodes input) =
      [.mediaList ((mediaList ctx terminator).read input).result] := by
  rw [mediaList, nodes_enclosed, read_enclosed, built_frame]
  rfl

/-- The media of an import were built, unless there are none. -/
theorem built_importMedia (ctx : Context) (input : Input) :
    built ((importMedia ctx).nodes input) = [.mediaList ((importMedia ctx).read input).result] ∨
      built ((importMedia ctx).nodes input) = [] ∧
        ((importMedia ctx).read input).result = .empty := by
  rw [importMedia, nodes_bind, nodes_kind, List.nil_append, result_read_bind, read_kind]
  split
  · exact Or.inr ⟨rfl, rfl⟩
  · exact Or.inr ⟨rfl, rfl⟩
  · exact Or.inl (built_mediaList _)

/-- An import opens no frame in which a rule is built. -/
theorem opens_importStatement : (importStatement ctx).OpensOnly Entity.IsNoRule := by
  refine .bind opens_location fun href => ?_
  split
  · exact opens_abandonStatement
  · exact .bind aims_importMedia.isNoRule fun _ => .bind opens_passStatement fun _ => .pure _

/-- An import is filled by what it reads, or is dropped. -/
theorem fillsOrDrops_importStatement : FillsOrDrops R ((importStatement ctx).nodes input)
    ((importStatement ctx).read input).result := by
  refine fillsOrDrops_of_opensOnly opens_importStatement fun r hr => ?_
  rw [importStatement, result_read_bind] at hr
  cases hhref : (location.read input).result with
  | none =>
    rw [hhref] at hr
    exact absurd (result_abandonStatement.symm.trans hr) nofun
  | some href =>
    simp only [hhref, result_read_bind, read_pure, Option.some.injEq] at hr
    have hbuilt : built ((importStatement ctx).nodes input) =
        built ((importMedia ctx).nodes (location.read input).rest) := by
      simp only [importStatement, nodes_bind, hhref, built_append, nodes_pure, List.append_nil,
        built_of_frameless opens_location, built_of_frameless opens_passStatement, List.nil_append]
    subst hr
    refine ⟨rfl, ?_, nofun, nofun, ?_, nofun⟩
    · rcases built_importMedia ctx (location.read input).rest with h | ⟨h, _⟩ <;>
        rw [hbuilt, h] <;> rfl
    · rintro list ⟨⟩
      rcases built_importMedia ctx (location.read input).rest with h | ⟨h, hempty⟩
      · exact Or.inl (by rw [hbuilt, h]; rfl)
      · exact Or.inr ⟨by rw [hbuilt, h]; rfl, hempty⟩

/-! ### Moments of animations -/

/-- What a moment of an animation adds, once it is known what its body adds. -/
theorem grows_of_body {body : Production (Option Keyframe)}
    (hR : ∀ f frame, Shows f (.keyframe frame) → R f (.keyframe frame))
    (h : FillsOrDrops R (body.nodes input) ((body.read input).result.map Rule.keyframe)) :
    Grows R ((inFrame Entity.ofKeyframe body).nodes input)
      (((inFrame Entity.ofKeyframe body).read input).result.toList.map Rule.keyframe) := by
  have hgrows := Grows.of_fills h fun r hr hshows => by
    obtain ⟨frame, -, rfl⟩ := Option.map_eq_some_iff.1 hr
    exact hR _ frame hshows
  rw [Option.map_map, Option.toList_map] at hgrows
  rw [nodes_inFrame, read_inFrame]
  exact hgrows

/-- A moment of an animation that is its keys, if these are valid, and its block. -/
theorem fillsOrDrops_moment {p : Production (Option Keyframe)} {valid : Bool} {keys : List String}
    (h : p.nodes input = (declarationBlock ctx .standard).nodes input ∧
      (p.read input).result = ((declarationBlock ctx .standard).read input).result.bind
        fun block => if valid then some ⟨keys, block⟩ else none) :
    FillsOrDrops R (p.nodes input) ((p.read input).result.map Rule.keyframe) := by
  have hruleless : Ruleless ((declarationBlock ctx .standard).nodes input) :=
    .of_opensOnly (opens_declarationBlock _) _
  rw [h.1, h.2]
  cases hblock : ((declarationBlock ctx .standard).read input).result with
  | none => exact hruleless
  | some block =>
    obtain ⟨properties, hbuilt, hfold⟩ := built_declarationBlock .standard hblock
    cases valid with
    | false => exact hruleless
    | true =>
      have hnodes : built ((declarationBlock ctx .standard).nodes input) =
          [] ++ properties.map Entity.declaration := hbuilt
      exact .of_ruleless hruleless rfl
        (holds_of_declarations hnodes nofun hfold rfl rfl nofun)

/-- Reading a moment of an animation adds it, or nothing if it is dropped. -/
theorem grows_keyframe (ctx : Context)
    (hR : ∀ f frame, Shows f (.keyframe frame) → R f (.keyframe frame)) (input : Input) :
    Grows R ((keyframe ctx).nodes input)
      (((keyframe ctx).read input).result.toList.map Rule.keyframe) := by
  refine grows_of_body hR ?_
  rw [nodes_bind, nodes_view, List.nil_append, nodes_bind, result_read_bind, read_view,
    result_read_bind]
  refine .prepend (allFrames_of_frameless (opens_keysFrom _ _) _) ?_
  exact fillsOrDrops_moment (read_checkedBlock _ _ _ _ _)

/-- A loop that reads part after part adds what its parts add, and gives them in order. The parts
are read at places of which something is known that does not hang on the tokens passed. -/
theorem grows_loop {α β : Type} (f : Nat → List α → Production β) {item : Production (Option α)}
    (give : List α → β) (wrap : α → Rule) (Known : Input → Prop)
    (hknown : ∀ {i j : Input}, Known i → i.Reaches j → Known j)
    (hitem : ∀ input, Known input →
      Grows R (item.nodes input) ((item.read input).result.toList.map wrap))
    (hzero : ∀ found, f 0 found = pure (give found))
    (hsucc : ∀ rounds found, ∃ next, f (rounds + 1) found = view >>= next ∧
      ∀ v, next v = pure (give found) ∨ ∃ before, next v = do
        let parsed ← item
        passIfStuck before
        f rounds (found ++ parsed.toList))
    (rounds : Nat) (found : List α) (input : Input) (h : Known input) : ∃ more,
      ((f rounds found).read input).result = give (found ++ more) ∧
      Grows R ((f rounds found).nodes input) (more.map wrap) := by
  have hstop {found : List α} {p : Production β} {input : Input} (hp : p = pure (give found)) :
      ∃ more, (p.read input).result = give (found ++ more) ∧
        Grows R (p.nodes input) (more.map wrap) := by
    subst hp
    exact ⟨[], by rw [read_pure, List.append_nil], .of_allFrames_eq_nil rfl⟩
  induction rounds generalizing found input with
  | zero => exact hstop (hzero found)
  | succ rounds ih =>
    obtain ⟨next, hnext, hround⟩ := hsucc rounds found
    rw [hnext, result_read_bind, nodes_bind, nodes_view, List.nil_append, read_view]
    rcases hround input.view with hend | ⟨before, hgoes⟩
    · exact hstop hend
    · have hreach := (item.read_reaches input).trans ((passIfStuck before).read_reaches _)
      obtain ⟨more, hresult, hgrows⟩ := ih (found ++ (item.read input).result.toList) _
        (hknown h hreach)
      refine ⟨(item.read input).result.toList ++ more, ?_, ?_⟩
      · simp only [hgoes, result_read_bind, hresult, List.append_assoc]
      · simp only [hgoes, nodes_bind, List.map_append]
        exact (hitem input h).append
          (hgrows.after_frameless (allFrames_of_frameless (.passIfStuck _) _))

/-- The moments of an animation are what reading them adds. -/
theorem grows_keyframes (ctx : Context)
    (hR : ∀ f frame, Shows f (.keyframe frame) → R f (.keyframe frame)) (input : Input) :
    Grows R ((keyframes ctx).nodes input)
      (((keyframes ctx).read input).result.map Rule.keyframe) := by
  obtain ⟨more, hresult, hgrows⟩ := grows_loop (keyframesFrom ctx) id Rule.keyframe (fun _ => True)
    (fun _ _ => trivial) (fun input _ => grows_keyframe ctx hR input) (fun _ => rfl)
    (fun rounds found => ⟨_, rfl, fun v => by
      split
      · exact Or.inl rfl
      · exact Or.inl rfl
      · exact Or.inr ⟨v.offset, rfl⟩⟩) input.size [] input trivial
  rw [keyframes, nodes_bind, nodes_view, List.nil_append, result_read_bind, read_view]
  exact hresult ▸ hgrows

/-- An animation is filled by its moments, or is dropped. -/
theorem fillsOrDrops_keyframesRule (ctx : Context)
    (hR : ∀ f frame, Shows f (.keyframe frame) → R f (.keyframe frame)) (input : Input) :
    FillsOrDrops R ((keyframesRule ctx).nodes input) ((keyframesRule ctx).read input).result := by
  rw [keyframesRule, nodes_bind, result_read_bind]
  refine .prepend (allFrames_of_frameless opens_animationName _) ?_
  cases (animationName.read input).result with
  | none =>
    refine fillsOrDrops_of_opensOnly ?_ fun r hr => ?_
    · exact .bind (.complainOf _) fun _ => .bind opens_passRule fun _ => .pure _
    · simp only [result_read_bind, read_pure] at hr
      cases hr
  | some name =>
    dsimp only
    generalize (animationName.read input).rest = input
    rw [nodes_bind, result_read_bind]
    cases (blockOpening.read input).result with
    | false => exact .prepend (allFrames_of_frameless opens_blockOpening _) List.filter_nil
    | true =>
      simp only [if_true, nodes_bind, result_read_bind, read_pure, nodes_pure, List.append_nil]
      have hopening : Ruleless (blockOpening.nodes input) := .of_opensOnly opens_blockOpening _
      exact .of_grows hopening ((grows_keyframes ctx hR _).before_frameless
        (allFrames_of_frameless opens_blockClosing _)) rfl nofun nofun

/-! ### Rules with rules inside -/

section

variable {start : Input} {bound : Nat}

/-- Reading a rule from a place behind some start with so few tokens ahead adds the rule, or nothing
if it is dropped. -/
def RuleGrows (R : SyntaxTree → Rule → Prop) (ctx : Context) (start : Input) (bound : Nat) : Prop :=
  ∀ input, start.Reaches input ∧ input.size < bound →
    Grows R ((rule ctx).nodes input) ((rule ctx).read input).result.toList

/-- The rules inside of a rule are those whose frames were added. -/
theorem grows_rulesOf (hrule : RuleGrows R ctx start bound) {input : Input}
    (h : start.Reaches input ∧ input.size < bound) :
    Grows R ((rulesOf (rule ctx)).nodes input) ((rulesOf (rule ctx)).read input).result := by
  obtain ⟨more, hresult, hgrows⟩ := grows_loop (rulesFrom (rule ctx)) id id
    (fun input => start.Reaches input ∧ input.size < bound)
    (fun h hreach => ⟨h.1.trans hreach, Nat.lt_of_le_of_lt hreach.size_le h.2⟩)
    (fun input h => by rw [List.map_id]; exact hrule input h) (fun _ => rfl)
    (fun rounds found => ⟨_, rfl, fun v => by
      split
      · exact Or.inl rfl
      · exact Or.inl rfl
      · exact Or.inr ⟨v.offset, rfl⟩⟩) input.size [] input h
  rw [rulesOf, nodes_bind, nodes_view, List.nil_append, result_read_bind, read_view]
  rw [List.map_id] at hgrows
  exact hresult ▸ hgrows

/-- A block of rules adds its rules, if a brace opens it. -/
theorem grows_ruleBlock (hrule : RuleGrows R ctx start bound) {input : Input}
    (h : start.Reaches input ∧ input.size < bound) :
    Grows R ((ruleBlock (rule ctx)).nodes input)
      (((ruleBlock (rule ctx)).read input).result.getD []) := by
  have hopening := allFrames_of_frameless opens_blockOpening input
  rw [ruleBlock, nodes_bind, result_read_bind]
  cases (blockOpening.read input).result with
  | false => exact .of_allFrames_eq_nil (by rw [allFrames_append, hopening]; rfl)
  | true =>
    have hreach := blockOpening.read_reaches input
    have hrules := grows_rulesOf hrule ⟨h.1.trans hreach, Nat.lt_of_le_of_lt hreach.size_le h.2⟩
    simp only [if_true, nodes_bind, result_read_bind, read_pure, nodes_pure, List.append_nil,
      Option.getD_some]
    exact (hrules.before_frameless
      (allFrames_of_frameless opens_blockClosing _)).after_frameless hopening

/-- The media before a block were built, unless there are none. -/
theorem built_mediaPrelude (ctx : Context) (input : Input) :
    built ((mediaPrelude ctx).nodes input) = [.mediaList ((mediaPrelude ctx).read input).result] ∨
      built ((mediaPrelude ctx).nodes input) = [] ∧
        ((mediaPrelude ctx).read input).result = .empty := by
  rw [mediaPrelude, nodes_bind, nodes_kind, List.nil_append, result_read_bind, read_kind]
  split
  · exact Or.inr ⟨rfl, rfl⟩
  · exact Or.inl (built_mediaList _)

/-- A media rule is filled by what it reads, if that is so of the rules inside of it. -/
theorem fillsOrDrops_mediaRule (hrule : RuleGrows R ctx start bound) {input : Input}
    (h : start.Reaches input ∧ input.size < bound) :
    FillsOrDrops R ((mediaRule ctx (rule ctx)).nodes input)
      ((mediaRule ctx (rule ctx)).read input).result := by
  have hprelude : Ruleless ((mediaPrelude ctx).nodes input) :=
    .of_opensOnly aims_mediaPrelude.isNoRule _
  have hbuilt := built_mediaPrelude ctx input
  have hreach := (mediaPrelude ctx).read_reaches input
  rw [mediaRule, nodes_bind, result_read_bind]
  generalize (mediaPrelude ctx).read input = media at hbuilt hreach
  have hfills {inside : List SyntaxTree} {rules : List Rule} (hinside : Grows R inside rules) :
      Fills R ((mediaPrelude ctx).nodes input ++ inside) (.media media.result rules) := by
    refine .of_grows hprelude hinside rfl ?_ nofun
    rintro list ⟨⟩
    exact hbuilt
  rw [mediaBlock, nodes_bind, nodes_view, List.nil_append, result_read_bind, read_view]
  split
  · have hbehind := hreach.trans (.advance _)
    have hinside := grows_rulesOf hrule
      ⟨h.1.trans hbehind, Nat.lt_of_le_of_lt hbehind.size_le h.2⟩
    simp only [nodes_bind, result_read_bind, read_skip, read_pure, nodes_pure, List.append_nil]
    refine hfills (.after_frameless ?_ (allFrames_of_frameless .skip _))
    exact hinside.before_frameless (allFrames_of_frameless opens_blockClosing _)
  · simp only [result_read_bind, read_pure]
    exact hprelude.append (.of_opensOnly
      (.bind (.complain _) fun _ => .bind .skip fun _ => .pure _) _)
  · simp only [result_read_bind, read_pure]
    exact hfills (.of_allFrames_eq_nil rfl)

/-- The condition before a block was built, unless the block starts at once. -/
theorem built_supportsCondition {c : Condition} {input : Input}
    (h : ((supportsCondition ctx).read input).result = some c) :
    built ((supportsCondition ctx).nodes input) = [.condition c] ∨
      built ((supportsCondition ctx).nodes input) = [] ∧ c = .empty := by
  rw [supportsCondition, result_read_bind, read_kind] at h
  rw [supportsCondition, nodes_bind, nodes_kind, List.nil_append, read_kind]
  split at h
  · next hk =>
    rw [if_pos hk]
    exact Or.inr ⟨rfl, (Option.some.inj h).symm⟩
  · next hk =>
    rw [if_neg hk]
    left
    rw [condition, result_read_bind, read_view, chainOf, read_inFrame] at h
    rw [condition, nodes_bind, nodes_view, List.nil_append, read_view, chainOf, nodes_inFrame,
      built_frame, h]
    rfl

/-- A supports rule is filled by what it reads, if that is so of the rules inside of it. -/
theorem fillsOrDrops_supportsRule (hrule : RuleGrows R ctx start bound) {input : Input}
    (h : start.Reaches input ∧ input.size < bound) :
    FillsOrDrops R ((supportsRule ctx (rule ctx)).nodes input)
      ((supportsRule ctx (rule ctx)).read input).result := by
  have hprelude : Ruleless ((supportsCondition ctx).nodes input) :=
    .of_opensOnly aims_supportsCondition.isNoRule _
  have hreach := (supportsCondition ctx).read_reaches input
  rw [supportsRule, nodes_bind, result_read_bind]
  cases hresult : ((supportsCondition ctx).read input).result with
  | none =>
    simp only [result_read_bind, read_pure]
    exact hprelude.append (.of_opensOnly
      (.bind (.complainOf _) fun _ => .bind opens_passRule fun _ => .pure _) _)
  | some c =>
    have hinside := grows_ruleBlock hrule
      ⟨h.1.trans hreach, Nat.lt_of_le_of_lt hreach.size_le h.2⟩
    simp only [nodes_bind, result_read_bind, read_pure, nodes_pure, List.append_nil]
    cases hrules : ((ruleBlock (rule ctx)).read
        ((supportsCondition ctx).read input).rest).result with
    | none =>
      rw [hrules] at hinside
      exact hprelude.append hinside.ruleless
    | some rules =>
      rw [hrules] at hinside
      refine .of_grows hprelude hinside rfl nofun ?_
      rintro _ ⟨⟩
      exact built_supportsCondition hresult

/-- A document rule is filled by what it reads, if that is so of the rules inside of it. -/
theorem fillsOrDrops_documentRule (hrule : RuleGrows R ctx start bound) {input : Input}
    (h : start.Reaches input ∧ input.size < bound) :
    FillsOrDrops R ((documentRule (rule ctx)).nodes input)
      ((documentRule (rule ctx)).read input).result := by
  have hprelude : Ruleless ((documentFunctionsFrom (input.view.size + 1) []).nodes input) :=
    .of_opensOnly (opens_documentFunctionsFrom _ _) _
  have hreach := (documentFunctionsFrom (input.view.size + 1) []).read_reaches input
  rw [documentRule, nodes_bind, nodes_view, List.nil_append, nodes_bind, result_read_bind,
    read_view, result_read_bind]
  dsimp only
  cases ((documentFunctionsFrom (input.view.size + 1) []).read input).result with
  | none =>
    simp only [result_read_bind, read_pure]
    exact hprelude.append (.of_opensOnly
      (.bind (.complainOf _) fun _ => .bind opens_passRule fun _ => .pure _) _)
  | some functions =>
    have hinside := grows_ruleBlock hrule
      ⟨h.1.trans hreach, Nat.lt_of_le_of_lt hreach.size_le h.2⟩
    simp only [nodes_bind, result_read_bind, read_pure, nodes_pure, List.append_nil]
    cases hrules : ((ruleBlock (rule ctx)).read
        ((documentFunctionsFrom (input.view.size + 1) []).read input).rest).result with
    | none =>
      rw [hrules] at hinside
      exact hprelude.append hinside.ruleless
    | some rules =>
      rw [hrules] at hinside
      exact .of_grows hprelude hinside rfl nofun nofun

/-! ### Rules -/

/-- An at-rule is filled by what it reads, if that is so of the rules inside of it. -/
theorem fillsOrDrops_atRule (hrule : RuleGrows R ctx start bound)
    (hR : ∀ f frame, Shows f (.keyframe frame) → R f (.keyframe frame)) {input : Input}
    (hreach : start.Reaches input) (hsize : input.size ≤ bound) (htok : 0 < input.size) :
    FillsOrDrops R ((atRule ctx (rule ctx)).nodes input)
      ((atRule ctx (rule ctx)).read input).result := by
  have h : start.Reaches input.advance ∧ input.advance.size < bound := by
    refine ⟨hreach.trans (.advance _), ?_⟩
    change input.size - 1 < bound
    omega
  rw [atRule, nodes_bind, result_read_bind, read_take]
  refine .prepend (allFrames_of_frameless .take _) ?_
  dsimp only
  cases AtKeyword.ofName input.view.token.name with
  | media => exact fillsOrDrops_mediaRule hrule h
  | fontFace => exact fillsOrDrops_blockRule _ (fun _ => rfl) (fun _ => rfl) nofun
  | keyframes => exact fillsOrDrops_keyframesRule ctx hR _
  | importRule => exact fillsOrDrops_importStatement
  | charset => exact fillsOrDrops_charsetStatement
  | namespaceRule => exact fillsOrDrops_namespaceStatement
  | page => exact fillsOrDrops_pageRule
  | supports => exact fillsOrDrops_supportsRule hrule h
  | viewport => exact fillsOrDrops_blockRule _ (fun _ => rfl) (fun _ => rfl) nofun
  | document => exact fillsOrDrops_documentRule hrule h
  | unknown => exact fillsOrDrops_unknownRule _ _

/-- A rule that is abandoned is dropped. -/
theorem fillsOrDrops_abandonRule (cause : String → Cause) (input : Input) :
    FillsOrDrops R ((abandonRule cause).nodes input) ((abandonRule cause).read input).result := by
  refine fillsOrDrops_of_opensOnly ?_ fun r hr => ?_
  · exact .bind (.complainOf _) fun _ => .bind opens_passRule fun _ => .pure _
  · simp only [abandonRule, result_read_bind, read_pure] at hr
    cases hr

/-- A rule is filled by what it reads, whatever it starts with, if that is so of the rules inside of
it. -/
theorem fillsOrDrops_ruleStarting (hrule : RuleGrows R ctx start bound)
    (hR : ∀ f frame, Shows f (.keyframe frame) → R f (.keyframe frame)) {input : Input}
    (hreach : start.Reaches input) (hsize : input.size ≤ bound) :
    FillsOrDrops R ((ruleStarting ctx (rule ctx) input.view.kind).nodes input)
      ((ruleStarting ctx (rule ctx) input.view.kind).read input).result := by
  unfold ruleStarting
  split
  · exact List.filter_nil
  · next hk =>
    have htok : input.ahead ≠ [] := by
      rw [ne_eq, ← input.kind_view_eq_eof_iff, hk]
      decide
    refine fillsOrDrops_atRule hrule hR hreach hsize (Nat.pos_of_ne_zero ?_)
    rwa [ne_eq, input.size_eq_zero_iff]
  · exact fillsOrDrops_abandonRule _ _
  all_goals first | exact fillsOrDrops_abandonRule _ _ | exact fillsOrDrops_styleRule

/-- A rule adds one frame, around what its body adds. -/
theorem nodes_rule (ctx : Context) (input : Input) : (rule ctx).nodes input =
    [frame (((rule ctx).read input).result.map Entity.ofRule)
      ((ruleStarting ctx (rule ctx) input.view.kind).nodes input)] := by
  rw [nodes_of_run fun s _ => run_rule ctx s, nodes_inFrame, read_rule]
  rfl

/-- A frame stands for a rule: it is what reading a rule somewhere behind some start adds, and that
is the rule read there; or the rule is a moment of an animation. -/
inductive StandsFor (ctx : Context) (start : Input) : SyntaxTree → Rule → Prop where
  | rule {input : Input} {f : SyntaxTree} {r : Rule} (reaches : start.Reaches input)
      (result : ((rule ctx).read input).result = some r) (nodes : (rule ctx).nodes input = [f]) :
      StandsFor ctx start f r
  | moment (f : SyntaxTree) (frame : Keyframe) : StandsFor ctx start f (.keyframe frame)

/-- Wherever a rule is read, the frame that is added shows it and stands for it, and so do those
inside. -/
theorem ruleGrows (ctx : Context) (start : Input) (bound : Nat) :
    RuleGrows (fun f r => Shows f r ∧ StandsFor ctx start f r) ctx start bound := by
  induction bound with
  | zero => exact fun input h => absurd h.2 (Nat.not_lt_zero _)
  | succ bound ih =>
    intro input h
    have hfills := fillsOrDrops_ruleStarting ih (fun f frame hshows => ⟨hshows, .moment f frame⟩)
      h.1 (Nat.le_of_lt_succ h.2)
    rw [nodes_rule, read_rule]
    refine .of_fills hfills fun r hr hshows => ⟨hshows, .rule h.1 ?_ ?_⟩
    · rw [read_rule, hr]
    · rw [nodes_rule, read_rule, hr]
      rfl

/-- A style sheet grows by its rules, each of which stands for its frame. -/
theorem grows_stylesheet (ctx : Context) (start : Input) :
    Grows (fun f r => Shows f r ∧ StandsFor ctx start f r) ((stylesheet ctx).nodes start)
      ((stylesheet ctx).read start).result.rules := by
  obtain ⟨more, hresult, hgrows⟩ := grows_loop (stylesheetFrom ctx) Stylesheet.mk id
    (fun input => start.Reaches input) (fun h hreach => h.trans hreach)
    (fun input h => by
      rw [List.map_id]
      exact ruleGrows ctx start (input.size + 1) input ⟨h, Nat.lt_succ_self _⟩)
    (fun _ => rfl) (fun rounds found => ⟨_, rfl, fun v => by
      split
      · exact Or.inl rfl
      · exact Or.inr ⟨v.offset, rfl⟩⟩) start.size [] start (.refl start)
  rw [stylesheet, nodes_bind, nodes_view, List.nil_append, result_read_bind, read_view]
  rw [List.map_id] at hgrows
  exact hresult ▸ hgrows

end

end Grammar

/-- The tree of a style sheet: a frame for the whole source, in which the frames of rules show the
rules of the style sheet. -/
theorem Stylesheet.exists_tree (tokens : List Token) {config : Config}
    (h : config.keepTree = true) : ∃ nodes,
      (Stylesheet.parse tokens config).2.syntaxTree =
        some (frame (some (.stylesheet (Stylesheet.parse tokens config).1)) nodes) ∧
      Grows (fun f r => Shows f r ∧ Grammar.StandsFor (.ofConfig config) (.ofTokens tokens) f r)
        nodes (Stylesheet.parse tokens config).1.rules := by
  have hresult : (Stylesheet.parse tokens config).1 =
      ((Grammar.stylesheet (.ofConfig config)).read (.ofTokens tokens)).result :=
    run_result _ (.ofTokens tokens config)
  refine ⟨_, Stylesheet.syntaxTree_parse tokens h, ?_⟩
  rw [hresult]
  exact (Grammar.grows_stylesheet _ _).after_frameless (allFrames_leaves _)

/-- With a tree kept, on whatever tokens: what the frames directly inside of the root built are the
rules of the style sheet, without what is inside of them. The frames of rules directly inside of the
root show these rules, one by one; and all frames of rules in the tree, however deep, show all the
rules of the style sheet, however deep, one by one in the order in which they start. -/
theorem tree_shows_the_rules (tokens : List Token) (config : Config)
    (h : config.keepTree = true) :
    ∃ tree, (Stylesheet.parse tokens config).2.syntaxTree = some tree ∧
      (built tree.nodes).filterMap Entity.rule? =
        (Stylesheet.parse tokens config).1.rules.map Rule.emptied ∧
      List.Forall₂ Shows (tree.nodes.filter isRule) (Stylesheet.parse tokens config).1.rules ∧
      List.Forall₂ Shows (tree.frames.filter isRule)
        (Rule.everyRule (Stylesheet.parse tokens config).1.rules) := by
  obtain ⟨nodes, htree, hgrows⟩ := Stylesheet.exists_tree tokens h
  refine ⟨_, htree, ?_, hgrows.direct, ?_⟩
  · have hbuilt := congrArg (List.filterMap Entity.rule?) hgrows.built_eq
    rw [List.filterMap_map] at hbuilt
    exact hbuilt.trans (congrFun List.filterMap_eq_map' _)
  · exact hgrows.every.imp fun f r hfr => hfr.1

/-- The tree of a group of two rules, of which the second is dropped. -/
theorem tree_shows_the_rules_of_a_group :
    let source := "@media x \x7b a \x7b b: c \x7d ] \x7b \x7d \x7d"
    let parsed := Stylesheet.parse (Token.tokenize source none)
      { Config.strict with keepTree := true }
    ∃ tree, parsed.2.syntaxTree = some tree ∧
      (built tree.nodes).filterMap Entity.rule? = parsed.1.rules.map Rule.emptied ∧
      List.Forall₂ Shows (tree.nodes.filter isRule) parsed.1.rules ∧
      List.Forall₂ Shows (tree.frames.filter isRule) (Rule.everyRule parsed.1.rules) :=
  tree_shows_the_rules _ _ rfl

end Cssom

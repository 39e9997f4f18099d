import Cssom.Proofs.Recovery.Kept

/-!
# Nothing is dropped silently

Where a rule, a moment of an animation or a declaration is given up, that was reported before. So a
quiet reading keeps all that it started: of every production of a rule it is shown what it gives on
an input that it reads quietly, and that its attempts are kept in that; of groups by induction on
how deep rules may go.
-/

namespace Cssom

open SyntaxTree Production

namespace Grammar

variable {ctx : Context} {input : Input}

/-- Where the end is not under the cursor something is ahead. -/
theorem ahead_ne_nil_of_kind (h : input.view.kind ≠ .eof) : input.ahead ≠ [] :=
  mt input.kind_view_eq_eof_iff.2 h

/-! ### Declarations -/

/-- Texts put together are not empty unless both are. -/
theorem append_ne_empty {s t : String} (h : s ≠ "" ∨ t ≠ "") : s ++ t ≠ "" := by
  intro hempty
  have hboth : s.toList = [] ∧ t.toList = [] := by
    rw [← List.append_eq_nil_iff, ← String.toList_append, hempty]
    rfl
  rcases h with h | h
  · exact h (String.toList_eq_nil_iff.1 hboth.1)
  · exact h (String.toList_eq_nil_iff.1 hboth.2)

/-- A name that was begun is not empty. -/
theorem result_nameFrom_ne {rounds : Nat} {name : String} (h : name ≠ "") :
    ((nameFrom rounds name).read input).result ≠ "" := by
  induction rounds generalizing name input with
  | zero => exact h
  | succ rounds ih =>
    rw [nameFrom, result_read_bind, read_view]
    split
    · exact h
    · rw [result_read_bind]
      exact ih (append_ne_empty (.inl h))

/-- A name is empty only where no token was taken. -/
theorem rest_declarationName (htext : input.view.token.text ≠ "")
    (h : (declarationName.read input).result.isEmpty = true) :
    (declarationName.read input).rest = input := by
  change ((nameFrom input.size "").read input).result.isEmpty = true at h
  change ((nameFrom input.size "").read input).rest = input
  cases hsize : input.size with
  | zero => rfl
  | succ rounds =>
    rw [hsize, nameFrom, result_read_bind, read_view] at h
    rw [nameFrom, rest_read_bind, read_view]
    split at h
    · next hends => rw [if_pos hends, read_pure]
    · rw [result_read_bind] at h
      exact absurd (String.isEmpty_iff.1 h) (result_nameFrom_ne (append_ne_empty (.inr htext)))

/-- The value of a declaration, read without a report, gives the declaration. -/
theorem some_of_declarationValue (name : String) (property : Property) :
    (declarationValue ctx name property).IfQuiet input fun p? _ => ∃ p, p? = some p := by
  refine .bind (K := fun _ _ => True) (fun _ => trivial) fun _ => ?_
  split
  · exact .complain _ _
  · refine .ite (fun _ => .complain _ _) fun _ => ?_
    exact .after_frameless (.skipIf _) (.pure ⟨_, rfl⟩)

/-- Without a report a declaration is given. -/
theorem some_of_declaration (set : BlockKind) (hworded : input.Worded) (htok : input.ahead ≠ []) :
    (declaration ctx set).IfQuiet input fun p? _ => ∃ p, p? = some p := by
  refine .inFrame (.view (.after_frameless opens_declarationName (.ite (fun hempty => ?_) ?_)))
  · -- The name is empty, so the cursor has not moved, and something is under it.
    rw [rest_declarationName (hworded.text_ne htok) hempty]
    refine .view (.ite (fun _ => .complainOf _ _) fun hend => absurd ?_ hend)
    rw [Bool.not_eq_true', View.atEnd]
    exact beq_false_of_ne (mt input.kind_view_eq_eof_iff.1 htok)
  · refine fun _ => .after_frameless (opens_property _ _ _) (.view (.ite (fun _ => ?_) ?_))
    · exact .skip (some_of_declarationValue _ _)
    · exact fun _ => .complain _ _

/-- Without a report a declaration is given, and nothing else was started. -/
theorem quiet_declaration (set : BlockKind) (hworded : input.Worded) (htok : input.ahead ≠ []) :
    (declaration ctx set).IfQuiet input fun p? as => ∃ p, p? = some p ∧ Yields ctx as [] [p] := by
  intro hquiet
  obtain ⟨p, hp⟩ := some_of_declaration set hworded htok hquiet
  obtain ⟨body, hbody, haims⟩ := declaration_in_frame ctx set
  refine ⟨p, hp, ?_⟩
  rw [hbody, attempts_inFrame]
  refine .declaration ⟨?_, set, hp⟩ ?_ (.of_parts (haims input))
  · rw [hbody, read_inFrame] at hp
    exact congrArg (Option.map Entity.declaration) hp
  · rintro ⟨r, p?, hr⟩
    cases p? <;> cases hr

/-- Without a report the declarations that were started are put into the block, one by one. -/
theorem quiet_declarations (set : BlockKind) (block : Block) (hworded : input.Worded) :
    (declarations ctx set block).IfQuiet input fun block' as =>
      ∃ properties : List Property, block' = properties.foldl Block.set block ∧
        Yields ctx as [] properties := by
  suffices hfrom : ∀ rounds block input, input.Worded →
      (declarationsFrom ctx set rounds block).IfQuiet input fun block' as =>
        ∃ properties : List Property, block' = properties.foldl Block.set block ∧
          Yields ctx as [] properties from
    .view (hfrom input.size block input hworded)
  intro rounds
  induction rounds with
  | zero => exact fun block input _ => .pure ⟨[], rfl, .nil⟩
  | succ rounds ih =>
    intro block input hworded
    refine .view ?_
    split
    · exact .pure ⟨[], rfl, .nil⟩
    · exact .pure ⟨[], rfl, .nil⟩
    · exact .skip (ih block _ (hworded.of_reaches (.advance _)))
    · next heof _ =>
      refine .bind (quiet_declaration set hworded (ahead_ne_nil_of_kind heof))
        fun ⟨p, hp, hyields⟩ => ?_
      rw [hp]
      refine .after_frameless (.passIfStuck _) ((ih _ _ ((hworded.read _).read _)).imp ?_)
      rintro block' as ⟨properties, hresult, hrest⟩
      exact ⟨p :: properties, hresult, hyields.append hrest⟩

/-! ### Blocks of declarations -/

/-- A brace that is looked for without a report is there. -/
theorem quiet_blockOpening :
    blockOpening.IfQuiet input fun opened as => opened = true ∧ as = [] :=
  .view (.ite (fun _ => .skip (.pure ⟨rfl, rfl⟩)) fun _ => .complainOf _ _)

/-- A block of declarations, read without a report, is given and kept. -/
theorem quiet_declarationBlock (set : BlockKind) (hworded : input.Worded) :
    (declarationBlock ctx set).IfQuiet input fun block? as =>
      ∃ block, block? = some block ∧ Kept ctx as [] [block] := by
  refine .bind quiet_blockOpening fun ⟨hopened, hnone⟩ => ?_
  rw [hopened, hnone]
  refine .bind (quiet_declarations set .empty (hworded.read _)) fun ⟨properties, hblock, h⟩ => ?_
  refine .after_frameless opens_blockClosing (.pure ⟨_, rfl, ?_⟩)
  rw [hblock, List.append_nil]
  exact .of_declarations h

/-- What is made of a block after something that was found valid or not. If that was not valid, it
was reported before the block is read. -/
theorem quiet_checkedBlock {α : Type} (valid : Bool) (cause : Cause) (position : Position)
    (make : Block → α) (hworded : input.Worded) :
    (checkedBlock ctx valid cause position make).IfQuiet input fun a? as =>
      ∃ block, a? = some (make block) ∧ Kept ctx as [] [block] := by
  refine .ite (fun _ => .complainAt _ _ _) fun hvalid => ?_
  refine .bind (quiet_declarationBlock .standard hworded) fun ⟨block, hblock, h⟩ => ?_
  rw [hblock]
  refine .pure ⟨block, ?_, ?_⟩
  · rw [if_pos (by simpa using hvalid)]
  · rw [List.append_nil]
    exact h

/-! ### Rules without rules inside -/

/-- After parts of a rule. -/
theorem IfQuiet.after_parts {α : Type} {p : Production α} {f : α → Production (Option Rule)}
    (hp : p.AimsOnly Entity.IsPart)
    (hf : (f (p.read input).result).IfQuiet (p.read input).rest (KeptInside ctx)) :
    (p >>= f).IfQuiet input (KeptInside ctx) :=
  .bind (K := fun _ _ => True) (fun _ => trivial) fun _ =>
    hf.imp fun _ _ h => h.after_parts (hp input)

/-- A style rule, read without a report, is kept. -/
theorem quiet_styleRule (hworded : input.Worded) :
    (styleRule ctx).IfQuiet input (KeptInside ctx) := by
  rw [styleRule_eq]
  refine .view (IfQuiet.after_parts aims_selectorList ?_)
  refine (quiet_checkedBlock _ _ _ _ (hworded.read _)).imp ?_
  rintro _ as ⟨block, rfl, h⟩
  exact .of_block h rfl rfl

/-- A rule that is a block of declarations, read without a report, is kept. -/
theorem quiet_blockRule (set : BlockKind) {make : Block → Rule}
    (hinner : ∀ block, (make block).inner = [])
    (hmake : ∀ block, (make block).declarations? = some block) (hworded : input.Worded) :
    (blockRule ctx set make).IfQuiet input (KeptInside ctx) := by
  refine .bind (quiet_declarationBlock set hworded) fun ⟨block, hblock, h⟩ => ?_
  rw [hblock]
  refine .pure ?_
  rw [List.append_nil]
  exact .of_block h (hinner block) (hmake block)

/-- A page rule, read without a report, is kept. -/
theorem quiet_pageRule (hworded : input.Worded) :
    (pageRule ctx).IfQuiet input (KeptInside ctx) :=
  .view (.after_frameless (opens_pageSelectorFrom _ _)
    (quiet_blockRule .standard (fun _ => rfl) (fun _ => rfl) (hworded.read _)))

/-- An import, read without a report, is kept. -/
theorem quiet_importStatement : (importStatement ctx).IfQuiet input (KeptInside ctx) := by
  refine .after_frameless opens_location ?_
  split
  · exact .complainOf _ _
  · refine IfQuiet.after_parts aims_importMedia (.after_frameless opens_passStatement ?_)
    exact .pure (.of_parts nofun rfl rfl)

/-- An encoding, read without a report, is kept. -/
theorem quiet_charsetStatement : charsetStatement.IfQuiet input (KeptInside ctx) := by
  refine .view (.ite (fun _ => .skip (.after_frameless opens_passStatement ?_)) ?_)
  · exact .pure (.of_parts nofun rfl rfl)
  · exact fun _ => .complainOf _ _

/-- A namespace, read without a report, is kept. -/
theorem quiet_namespaceStatement : namespaceStatement.IfQuiet input (KeptInside ctx) := by
  rw [namespaceStatement_eq]
  refine .after_frameless opens_namespaceLabel (.after_frameless opens_location ?_)
  split
  · exact .complainOf _ _
  · exact .after_frameless opens_passStatement (.pure (.of_parts nofun rfl rfl))

/-- An unknown rule, read without a report, is kept. It would be reported if it were not. -/
theorem quiet_unknownRule (name : String) (position : Position) :
    (unknownRule ctx name position).IfQuiet input (KeptInside ctx) := by
  by_cases hkeep : ctx.config.keepUnknownRules = true
  · intro _
    rw [attempts_of_frameless (opens_unknownRule name position)]
    simp only [unknownRule, hkeep, if_true, result_read_bind, read_pure]
    exact .of_parts nofun rfl rfl
  · rw [unknownRule, if_neg hkeep]
    exact .complainAt _ _ _

/-! ### Rules one after the other -/

/-- A loop that reads part after part, as far as there are tokens ahead, keeps them all if each of
them is given. The parts are read at places of which something is known that does not hang on the
tokens passed. -/
theorem quiet_loop {α β : Type} (ctx : Context) (f : Nat → List α → Production β)
    {item : Production (Option α)} (give : List α → β) (wrap : α → Rule) (Known : Input → Prop)
    (hknown : ∀ {i j : Input}, Known i → i.Reaches j → Known j)
    (hitem : ∀ input, Known input → input.ahead ≠ [] →
      item.IfQuiet input fun a? as => ∃ a, a? = some a ∧ KeptRules ctx as [wrap a])
    (hzero : ∀ found, f 0 found = pure (give found))
    (hsucc : ∀ rounds found, ∃ next, f (rounds + 1) found = view >>= next ∧
      ∀ v, next v = pure (give found) ∨ v.kind ≠ .eof ∧ ∃ before, next v = do
        let parsed ← item
        passIfStuck before
        f rounds (found ++ parsed.toList))
    (rounds : Nat) (found : List α) (input : Input) (h : Known input) :
    (f rounds found).IfQuiet input fun b as =>
      ∃ more, b = give (found ++ more) ∧ KeptRules ctx as (more.map wrap) := by
  have hstop (found : List α) (input : Input) : (pure (give found) : Production β).IfQuiet input
      fun b as => ∃ more, b = give (found ++ more) ∧ KeptRules ctx as (more.map wrap) :=
    .pure ⟨[], by rw [List.append_nil], .nil⟩
  induction rounds generalizing found input with
  | zero =>
    rw [hzero]
    exact hstop found input
  | succ rounds ih =>
    obtain ⟨next, hnext, hround⟩ := hsucc rounds found
    rw [hnext]
    refine .view ?_
    rcases hround input.view with hend | ⟨heof, before, hgoes⟩
    · rw [hend]
      exact hstop found input
    · rw [hgoes]
      refine .bind (hitem input h (ahead_ne_nil_of_kind heof)) fun ⟨a, ha, hfirst⟩ => ?_
      have hreach := (item.read_reaches input).trans ((passIfStuck before).read_reaches _)
      rw [ha]
      refine .after_frameless (.passIfStuck _) ((ih _ _ (hknown h hreach)).imp ?_)
      rintro b as ⟨more, hresult, hmore⟩
      refine ⟨a :: more, ?_, hfirst.append hmore⟩
      rw [hresult, List.append_assoc]
      rfl

/-- A frame whose production gives a rule, or a moment of an animation, is kept in that if all that
is started inside of it is kept inside. -/
theorem quiet_inFrame {α : Type} {body : Production (Option α)} {entity : α → Entity}
    (wrap : α → Rule) (hentity : ∀ a p, entity a ≠ .declaration p)
    (hgave : ∀ a, (body.read input).result = some a →
      (Attempt.ofFrame body (·.map entity) input).GaveRule ctx (wrap a))
    (h : body.IfQuiet input fun a? as => KeptInside ctx (a?.map wrap) as) :
    (inFrame entity body).IfQuiet input fun a? as =>
      ∃ a, a? = some a ∧ KeptRules ctx as [wrap a] := by
  refine .inFrame fun hquiet => ?_
  obtain ⟨r, hr, hkept⟩ := h hquiet
  obtain ⟨a, ha, rfl⟩ := Option.map_eq_some_iff.1 hr
  refine ⟨a, ha, .of_gave (hgave a ha) ?_ hkept⟩
  rintro ⟨p, a?, hp⟩
  obtain ⟨a', -, hp⟩ := Option.map_eq_some_iff.1 hp
  exact hentity a' p hp

/-! ### Animations -/

/-- A moment of an animation, read without a report, is given and kept. -/
theorem quiet_keyframe (hworded : input.Worded) : (keyframe ctx).IfQuiet input fun frame? as =>
    ∃ frame, frame? = some frame ∧ KeptRules ctx as [.keyframe frame] := by
  refine quiet_inFrame Rule.keyframe nofun (fun frame hframe => .keyframe ?_ ?_) ?_
  · exact congrArg (Option.map Entity.ofKeyframe) hframe
  · rw [Attempt.ofFrame, keyframe, read_inFrame]
    exact hframe
  · refine .view (.after_frameless (opens_keysFrom _ _) ?_)
    refine (quiet_checkedBlock _ _ _ _ (hworded.read _)).imp ?_
    rintro _ as ⟨block, rfl, h⟩
    exact .of_block h rfl rfl

/-- The moments of an animation, read without a report, are given and kept. -/
theorem quiet_keyframes (hworded : input.Worded) : (keyframes ctx).IfQuiet input fun frames as =>
    KeptRules ctx as (frames.map .keyframe) := by
  refine .view ((quiet_loop ctx (keyframesFrom ctx) id Rule.keyframe Input.Worded .of_reaches
    (fun _ h _ => quiet_keyframe h) (fun _ => rfl) (fun rounds found => ⟨_, rfl, fun v => ?_⟩)
    _ _ _ hworded).imp ?_)
  · split
    · exact .inl rfl
    · exact .inl rfl
    · next heof => exact .inr ⟨heof, v.offset, rfl⟩
  · rintro _ as ⟨more, rfl, h⟩
    exact h

/-- An animation, read without a report, is kept. -/
theorem quiet_keyframesRule (hworded : input.Worded) :
    (keyframesRule ctx).IfQuiet input (KeptInside ctx) := by
  refine .after_frameless opens_animationName ?_
  split
  · exact .complainOf _ _
  · refine .bind quiet_blockOpening fun ⟨hopened, hnone⟩ => ?_
    rw [hopened, hnone]
    refine .bind (quiet_keyframes ((hworded.read _).read _)) fun h => ?_
    refine .after_frameless opens_blockClosing (.pure ?_)
    rw [List.append_nil]
    exact .of_rules h rfl

/-! ### Groups -/

section

variable {rule : Production (Option Rule)} {bound : Nat}

/-- Wherever words and so few tokens are ahead, a rule is given and kept without a report. -/
def RuleKept (ctx : Context) (rule : Production (Option Rule)) (bound : Nat) : Prop :=
  ∀ input : Input, input.Worded → input.size < bound → input.ahead ≠ [] →
    rule.IfQuiet input fun r? as => ∃ r, r? = some r ∧ KeptRules ctx as [r]

/-- The rules of a block, read without a report, are kept if rules are. -/
theorem quiet_rulesOf (hrule : RuleKept ctx rule bound) (hworded : input.Worded)
    (hsize : input.size < bound) : (rulesOf rule).IfQuiet input fun rules as =>
      KeptRules ctx as rules := by
  refine .view ((quiet_loop ctx (rulesFrom rule) id id (fun i => i.Worded ∧ i.size < bound)
    (fun h hreach => ⟨h.1.of_reaches hreach, Nat.lt_of_le_of_lt hreach.size_le h.2⟩)
    (fun i h => hrule i h.1 h.2) (fun _ => rfl) (fun rounds found => ⟨_, rfl, fun v => ?_⟩)
    _ _ _ ⟨hworded, hsize⟩).imp ?_)
  · split
    · exact .inl rfl
    · exact .inl rfl
    · next heof => exact .inr ⟨heof, v.offset, rfl⟩
  · rintro _ as ⟨more, rfl, h⟩
    rwa [List.map_id] at h

/-- A block of rules, read without a report, is kept if rules are. -/
theorem quiet_ruleBlock (hrule : RuleKept ctx rule bound) (hworded : input.Worded)
    (hsize : input.size < bound) : (ruleBlock rule).IfQuiet input fun rules? as =>
      ∃ rules, rules? = some rules ∧ KeptRules ctx as rules := by
  refine .bind quiet_blockOpening fun ⟨hopened, hnone⟩ => ?_
  rw [hopened, hnone]
  refine .bind (quiet_rulesOf hrule (hworded.read _)
    (Nat.lt_of_le_of_lt (blockOpening.size_read_le _) hsize)) fun h => ?_
  refine .after_frameless opens_blockClosing (.pure ⟨_, rfl, ?_⟩)
  rw [List.append_nil]
  exact h

/-- The block of a rule for media, read without a report, is kept if rules are. -/
theorem quiet_mediaBlock (media : MediaList) (hrule : RuleKept ctx rule bound)
    (hworded : input.Worded) (hsize : input.size < bound) :
    (mediaBlock rule media).IfQuiet input (KeptInside ctx) := by
  refine .view ?_
  split
  · have hreach := Input.Reaches.advance input
    refine .skip (.bind (quiet_rulesOf hrule (hworded.of_reaches hreach)
      (Nat.lt_of_le_of_lt hreach.size_le hsize)) fun h => ?_)
    refine .after_frameless opens_blockClosing (.pure ?_)
    rw [List.append_nil]
    exact .of_rules h rfl
  · exact .complain _ _
  · exact .complainOf _ _

/-- A rule for media, read without a report, is kept if rules are. -/
theorem quiet_mediaRule (hrule : RuleKept ctx rule bound) (hworded : input.Worded)
    (hsize : input.size < bound) : (mediaRule ctx rule).IfQuiet input (KeptInside ctx) :=
  IfQuiet.after_parts aims_mediaPrelude (quiet_mediaBlock _ hrule (hworded.read _)
    (Nat.lt_of_le_of_lt ((mediaPrelude ctx).size_read_le _) hsize))

/-- A group that is a block of rules, once the rest of it is read. -/
theorem quiet_group {make : List Rule → Rule} (hinner : ∀ rules, (make rules).inner = rules)
    (hmake : ∀ rules, (make rules).declarations? = none) (hrule : RuleKept ctx rule bound)
    (hworded : input.Worded) (hsize : input.size < bound) :
    (do return (← ruleBlock rule).map make : Production (Option Rule)).IfQuiet input
      (KeptInside ctx) := by
  refine .bind (quiet_ruleBlock hrule hworded hsize) fun ⟨rules, hrules, h⟩ => ?_
  rw [hrules]
  refine .pure (.of_rules ?_ (hmake rules))
  rw [List.append_nil, hinner]
  exact h

/-- A rule with a condition, read without a report, is kept if rules are. -/
theorem quiet_supportsRule (hrule : RuleKept ctx rule bound) (hworded : input.Worded)
    (hsize : input.size < bound) : (supportsRule ctx rule).IfQuiet input (KeptInside ctx) := by
  refine IfQuiet.after_parts aims_supportsCondition ?_
  split
  · exact .complainOf _ _
  · exact quiet_group (fun _ => rfl) (fun _ => rfl) hrule (hworded.read _)
      (Nat.lt_of_le_of_lt ((supportsCondition ctx).size_read_le _) hsize)

/-- A rule for documents, read without a report, is kept if rules are. -/
theorem quiet_documentRule (hrule : RuleKept ctx rule bound) (hworded : input.Worded)
    (hsize : input.size < bound) : (documentRule rule).IfQuiet input (KeptInside ctx) := by
  refine .view (.after_frameless (opens_documentFunctionsFrom _ _) ?_)
  split
  · exact .complainOf _ _
  · exact quiet_group (fun _ => rfl) (fun _ => rfl) hrule (hworded.read _)
      (Nat.lt_of_le_of_lt (size_read_le _ _) hsize)

/-! ### Rules -/

/-- An at-rule, read without a report, is kept if rules are. -/
theorem quiet_atRule (hrule : RuleKept ctx rule bound) (hworded : input.Worded)
    (htok : input.ahead ≠ []) (hsize : input.size ≤ bound) :
    (atRule ctx rule).IfQuiet input (KeptInside ctx) := by
  have hworded' : input.advance.Worded := hworded.of_reaches (.advance _)
  have hsize' : input.advance.size < bound := by
    have hpos := Nat.pos_of_ne_zero (mt input.size_eq_zero_iff.1 htok)
    change input.size - 1 < bound
    omega
  refine .after_frameless .take ?_
  rw [read_take]
  split
  · exact quiet_mediaRule hrule hworded' hsize'
  · exact quiet_blockRule _ (fun _ => rfl) (fun _ => rfl) hworded'
  · exact quiet_keyframesRule hworded'
  · exact quiet_importStatement
  · exact quiet_charsetStatement
  · exact quiet_namespaceStatement
  · exact quiet_pageRule hworded'
  · exact quiet_supportsRule hrule hworded' hsize'
  · exact quiet_blockRule _ (fun _ => rfl) (fun _ => rfl) hworded'
  · exact quiet_documentRule hrule hworded' hsize'
  · exact quiet_unknownRule _ _

/-- What any token starts, read without a report, is kept if rules are. -/
theorem quiet_ruleStarting (hrule : RuleKept ctx rule bound) (hworded : input.Worded)
    (htok : input.ahead ≠ []) (hsize : input.size ≤ bound) :
    (ruleStarting ctx rule input.view.kind).IfQuiet input (KeptInside ctx) := by
  unfold ruleStarting
  split
  · next heof => exact absurd (input.kind_view_eq_eof_iff.1 heof) htok
  · exact quiet_atRule hrule hworded htok hsize
  all_goals first | exact .complainOf _ _ | exact quiet_styleRule hworded

end

/-- Without a report a rule that may go so deep is given, with all that was started inside of it. -/
theorem ruleKept (ctx : Context) (depth : Nat) : RuleKept ctx (ruleWithin ctx depth) depth := by
  induction depth with
  | zero => exact fun input _ hsize => absurd hsize (Nat.not_lt_zero _)
  | succ depth ih =>
    intro input hworded hsize htok
    refine quiet_inFrame id nofun (fun r hr => .rule ?_ ?_) ?_
    · exact congrArg (Option.map Entity.ofRule) hr
    · rw [Attempt.ofFrame, ← read_of_run_eq (run_ruleWithin hsize), ruleWithin, read_inFrame]
      exact hr
    · refine .view ((quiet_ruleStarting ih hworded htok (Nat.le_of_lt_succ hsize)).imp ?_)
      rintro r? as h
      rwa [Option.map_id]

/-- A rule, read without a report, is given and kept. -/
theorem quiet_rule (hworded : input.Worded) (htok : input.ahead ≠ []) :
    (rule ctx).IfQuiet input fun r? as => ∃ r, r? = some r ∧ KeptRules ctx as [r] :=
  .view (ruleKept ctx _ input hworded (Nat.lt_succ_self _) htok)

/-! ### Whole sources -/

/-- Without a report a style sheet holds all that was started. -/
theorem quiet_stylesheet (hworded : input.Worded) :
    (stylesheet ctx).IfQuiet input fun sheet as => KeptRules ctx as sheet.rules := by
  refine .view ((quiet_loop ctx (stylesheetFrom ctx) Stylesheet.mk id Input.Worded .of_reaches
    (fun _ h htok => quiet_rule h htok) (fun _ => rfl) (fun rounds found => ⟨_, rfl, fun v => ?_⟩)
    _ _ _ hworded).imp ?_)
  · split
    · exact .inl rfl
    · next hend => exact .inr ⟨fun heof => hend (beq_iff_eq.2 heof), v.offset, rfl⟩
  · rintro _ as ⟨more, rfl, h⟩
    rwa [List.map_id] at h

/-- Without a report a list of declarations holds all that was started. -/
theorem quiet_declarationList (hworded : input.Worded) :
    (declarationList ctx).IfQuiet input fun block as =>
      Kept ctx as [] [block] := by
  suffices hfrom : ∀ rounds block input, input.Worded →
      (declarationListFrom ctx rounds block).IfQuiet input fun block' as =>
        ∃ properties : List Property, block' = properties.foldl Block.set block ∧
          Yields ctx as [] properties by
    refine .view ((hfrom input.size .empty input hworded).imp ?_)
    rintro _ as ⟨properties, rfl, h⟩
    exact .of_declarations h
  intro rounds
  induction rounds with
  | zero => exact fun block input _ => .pure ⟨[], rfl, .nil⟩
  | succ rounds ih =>
    intro block input hworded
    refine .view (.ite (fun _ => .pure ⟨[], rfl, .nil⟩) fun _ => ?_)
    refine .bind (quiet_declarations .standard block hworded) fun ⟨properties, hblock, h⟩ => ?_
    refine .view (.ite (fun _ => .complain _ _) fun _ => ?_)
    refine (ih _ _ (hworded.read _)).imp ?_
    rintro block' as ⟨more, hmore, hrest⟩
    refine ⟨properties ++ more, ?_, h.append hrest⟩
    rw [List.foldl_append, ← hblock]
    exact hmore

end Grammar

namespace Production

variable {α : Type} {p : Production (Option α)} {s : Parser}

/-- A run that gives nothing has reported why. -/
def SaysWhy (p : Production (Option α)) (s : Parser) : Prop :=
  (p.run s).1 = none →
    ∃ d ds, (p.run s).2.diagnostics.toList = s.diagnostics.toList ++ d :: ds

/-- What gives something on every quiet reading reports something where it gives nothing. -/
theorem SaysWhy.of_ifQuiet {K : α → List Attempt → Prop}
    (h : p.IfQuiet s.input fun a? as => ∃ a, a? = some a ∧ K a as) : p.SaysWhy s := by
  intro hnone
  rw [run_result] at hnone
  rw [(p.run_eq_read s).2.2]
  have hreports : (p.read s.input).reports ≠ [] := by
    intro hquiet
    obtain ⟨a, ha, -⟩ := h hquiet
    exact absurd (hnone.symm.trans ha) nofun
  obtain ⟨d, ds, hds⟩ := List.exists_cons_of_ne_nil hreports
  exact ⟨d, ds, by rw [hds]⟩

end Production

/-- Nothing is dropped silently, however forgiving a parser is, as long as tokens have texts. Where
a token is under the cursor, reading a rule, a moment of an animation or a declaration of any block
either gives one or adds to the diagnostics. So where a whole style sheet, or a list of
declarations, was read without any diagnostic, every attempt at a rule, a moment or a declaration
gave one: the rules and moments given are, one by one and in order, those of the style sheet at
whatever depth; the declarations given fall into groups, one for each block, and a declaration is in
the block of its group unless a later one of the group has its name. -/
theorem nothing_is_dropped_silently :
    (∀ (ctx : Context) (s : Parser), s.input.Worded → s.hasTokens = true →
      (Grammar.rule ctx).SaysWhy s ∧ (Grammar.keyframe ctx).SaysWhy s ∧
        ∀ set, (Grammar.declaration ctx set).SaysWhy s) ∧
    ∀ (config : Config) (tokens : List Token), (∀ t ∈ tokens, t.kind ≠ .eof → t.text ≠ "") →
      ((Stylesheet.parse tokens config).2.diagnostics = #[] →
        let rules := Rule.everyRule (Stylesheet.parse tokens config).1.rules
        Kept (.ofConfig config)
          ((Grammar.stylesheet (.ofConfig config)).attempts (.ofTokens tokens))
          rules (rules.filterMap Rule.declarations?)) ∧
      ((Block.parse tokens config).2.diagnostics = #[] →
        Kept (.ofConfig config)
          ((Grammar.declarationList (.ofConfig config)).attempts (.ofTokens tokens))
          [] [(Block.parse tokens config).1]) := by
  refine ⟨fun ctx s hworded htok => ?_, fun config tokens htexts => ?_⟩
  · have hahead : s.input.ahead ≠ [] :=
      mt s.input.size_eq_zero_iff.2 (Nat.pos_iff_ne_zero.1 (s.input.hasTokens_iff.1 htok))
    exact ⟨.of_ifQuiet (Grammar.quiet_rule hworded hahead),
      .of_ifQuiet (Grammar.quiet_keyframe hworded),
      fun set => .of_ifQuiet (Grammar.quiet_declaration set hworded hahead)⟩
  · have hworded := Input.worded_ofTokens htexts
    constructor
    · intro hquiet
      rw [Stylesheet.parse_result]
      refine Grammar.quiet_stylesheet hworded ?_
      rw [← Stylesheet.parse_reports, hquiet]
    · intro hquiet
      have hrun :=
        run_eq_read (Grammar.declarationList (.ofConfig config)) (.ofTokens tokens config)
      rw [Block.parse, hrun.1]
      refine Grammar.quiet_declarationList hworded ?_
      have hnone := hrun.2.2
      rwa [← Block.parse, hquiet, eq_comm] at hnone

/-- A closing brace, where nothing can start; and a style sheet in which a declaration is
overwritten, and declarations outside of any block, both read without a diagnostic. -/
theorem nothing_is_dropped_silently_once :
    let ctx := Context.ofConfig .strict
    let token (kind : Token.Kind) (text : String) (start : UInt32) : Token :=
      ⟨kind, text, ⟨⟨start, ""⟩, ⟨start + 1, ""⟩⟩⟩
    let brace := Parser.ofTokens [token .closeCurly "\x7d" 0] .strict
    let declared := [token .ident "width" 2, token .colon ":" 3, token .number "1" 4,
      token .semicolon ";" 5, token .ident "width" 6, token .colon ":" 7, token .number "2" 8]
    let tokens := token .ident "a" 0 :: token .openCurly "\x7b" 1 :: declared
    let sheet := (Stylesheet.parse tokens .strict).1
    ((Grammar.rule ctx).SaysWhy brace ∧ ((Grammar.rule ctx).run brace).1 = none ∧
      (Grammar.keyframe ctx).SaysWhy brace ∧ ((Grammar.keyframe ctx).run brace).1 = none ∧
      (Grammar.declaration ctx .standard).SaysWhy brace ∧
      ((Grammar.declaration ctx .standard).run brace).1 = none) ∧
    Kept ctx ((Grammar.stylesheet ctx).attempts (.ofTokens tokens)) (Rule.everyRule sheet.rules)
      ((Rule.everyRule sheet.rules).filterMap Rule.declarations?) ∧
    Kept ctx ((Grammar.declarationList ctx).attempts (.ofTokens declared)) []
      [(Block.parse declared .strict).1] := by
  intro ctx token brace declared tokens sheet
  obtain ⟨hloud, hkept⟩ := nothing_is_dropped_silently
  have hworded : brace.input.Worded := Input.worded_ofTokens (by decide)
  obtain ⟨hrule, hkeyframe, hdeclaration⟩ := hloud ctx brace hworded (by decide)
  refine ⟨⟨hrule, by decide, hkeyframe, by decide, hdeclaration .standard, by decide⟩, ?_, ?_⟩
  · exact (hkept .strict tokens (by decide)).1 (by decide)
  · exact (hkept .strict declared (by decide)).2 (by decide)

end Cssom

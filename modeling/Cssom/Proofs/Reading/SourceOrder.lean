import Cssom.Parser.Entry
import Cssom.Proofs.Reading.Silent
import Cssom.Proofs.Token.Pieces

/-!
# Reports in the order of the source

Most is reported at the token under the cursor, but a style rule, a moment of an animation, a
declaration and a rule of unknown name report something where they started, after more was read. A
production *reports from* a place that it remembers if, wherever it is read behind that place, it
reports at that place or at tokens that it stands before, and never goes back
(`Production.ReportsFrom`). Where a place is remembered nothing is reported until it is used, since
only silent productions are read in between; so all productions report in order, and what a style
sheet or a list of declarations reports comes in the order of the source (`reports_in_order`).
-/

namespace Cssom

/-! ### Places of an input -/

namespace Input

variable {i j : Input}

/-- Where the significant tokens ahead start, and where the end is. -/
def places (input : Input) : List Position :=
  input.ahead.map (·.token.span.start) ++ [input.eof.span.start]

/-- The tokens ahead start one behind the other, as those of a source do. -/
def Ordered (input : Input) : Prop :=
  input.places.Pairwise fun a b => a.offset ≤ b.offset

/-- The places ahead further on are the last of those ahead before. -/
theorem places_suffix (h : i.Reaches j) : j.places <:+ i.places := by
  obtain ⟨before, hbefore⟩ := h.suffix
  refine ⟨before.map (·.token.span.start), ?_⟩
  rw [places, places, h.eof_eq, ← hbefore, List.map_append, List.append_assoc]

/-- What starts one behind the other still does further on. -/
theorem Ordered.of_reaches (h : i.Ordered) (hreach : i.Reaches j) : j.Ordered :=
  h.sublist (places_suffix hreach).sublist

/-- The first place ahead is that of the cursor. -/
theorem places_eq_cons (input : Input) : ∃ rest, input.places = input.view.position :: rest := by
  unfold places View.position view current
  cases input.ahead with
  | nil => exact ⟨[], rfl⟩
  | cons lexeme rest => exact ⟨_, rfl⟩

/-- The cursor stands at one of the places ahead. -/
theorem position_mem_places (input : Input) : input.view.position ∈ input.places := by
  obtain ⟨rest, hrest⟩ := input.places_eq_cons
  rw [hrest]
  exact List.mem_cons_self

/-- The cursor never moves back. -/
theorem Ordered.offset_le (h : i.Ordered) (hreach : i.Reaches j) :
    i.view.offset ≤ j.view.offset := by
  have hmem := (places_suffix hreach).subset j.position_mem_places
  obtain ⟨rest, hrest⟩ := i.places_eq_cons
  unfold Ordered at h
  rw [hrest] at h hmem
  rcases List.mem_cons.1 hmem with heq | hmem
  · exact UInt32.le_of_eq (congrArg Position.offset heq).symm
  · exact (List.pairwise_cons.1 h).1 _ hmem

end Input

/-! ### Reports that climb -/

/-- Diagnostics between two places, none of which stands before the one in front of it. -/
def Climbs : Position → List Diagnostic → Position → Prop
  | start, [], stop => start.offset ≤ stop.offset
  | start, d :: ds, stop => start.offset ≤ d.position.offset ∧ Climbs d.position ds stop

namespace Climbs

variable {a b c : Position} {ds es : List Diagnostic}

/-- What climbs from a place climbs from any place before it. -/
theorem from_before (hab : a.offset ≤ b.offset) (h : Climbs b ds c) : Climbs a ds c := by
  cases ds with
  | nil => exact UInt32.le_trans hab h
  | cons d ds => exact ⟨UInt32.le_trans hab h.1, h.2⟩

/-- Reports that climb, and then others from where these stop, climb. -/
theorem append (h : Climbs a ds b) (h' : Climbs b es c) : Climbs a (ds ++ es) c := by
  induction ds generalizing a with
  | nil => exact h'.from_before h
  | cons d ds ih => exact ⟨h.1, ih h.2⟩

/-- Reports that climb stand no earlier than where they start. -/
theorem le_of_mem (h : Climbs a ds b) : ∀ d ∈ ds, a.offset ≤ d.position.offset := by
  induction ds generalizing a with
  | nil => exact List.forall_mem_nil _
  | cons d ds ih =>
    exact List.forall_mem_cons.2 ⟨h.1, fun e he => UInt32.le_trans h.1 (ih h.2 e he)⟩

/-- Of reports that climb none stands before one in front of it. -/
theorem pairwise (h : Climbs a ds b) :
    ds.Pairwise fun d e => d.position.offset ≤ e.position.offset := by
  induction ds generalizing a with
  | nil => exact .nil
  | cons d ds ih => exact .cons h.2.le_of_mem (ih h.2)

end Climbs

/-! ### Productions that report in order -/

namespace Production

variable {α β : Type} {p q : Production α} {place : Position}

/-- Read from behind a place that is remembered, the production reports there or at tokens ahead,
and in order. -/
def ReportsFrom (p : Production α) (place : Position) : Prop :=
  ∀ i : Input, i.Ordered → place.offset ≤ i.view.offset →
    Climbs place (p.read i).reports (p.read i).rest.view.position ∧
      ∀ d ∈ (p.read i).reports, d.position = place ∨ d.position ∈ i.places

/-- Wherever it is read, the production reports at tokens ahead, and in order. -/
def ReportsInOrder (p : Production α) : Prop :=
  ∀ place, p.ReportsFrom place

namespace ReportsFrom

/-- What is silent reports from any place. -/
theorem of_silent (h : p.Silent) : p.ReportsFrom place := by
  intro i hi hplace
  rw [h i]
  exact ⟨UInt32.le_trans hplace (hi.offset_le (p.read_reaches i)), List.forall_mem_nil _⟩

/-- To give a result reports from any place. -/
theorem pure (a : α) : (Pure.pure a : Production α).ReportsFrom place :=
  of_silent (.pure a)

/-- A report at a place that was remembered is one from that place. -/
theorem complainAt (cause : Cause) (place : Position) :
    (Production.complainAt cause place).ReportsFrom place := by
  refine fun i _ hplace => ⟨⟨UInt32.le_refl _, hplace⟩, ?_⟩
  exact fun d hd => .inl (congrArg Diagnostic.position (List.mem_singleton.1 hd))

/-- What was reported moves the place on. -/
theorem bind {f : α → Production β} (hp : p.ReportsFrom place) (hf : ∀ a, (f a).ReportsInOrder) :
    (p >>= f).ReportsFrom place := by
  intro i hi hplace
  have hreach := p.read_reaches i
  obtain ⟨hclimbs, hplaced⟩ := hp i hi hplace
  obtain ⟨hclimbs', hplaced'⟩ := hf (p.read i).result (p.read i).rest.view.position _
    (hi.of_reaches hreach) (UInt32.le_refl _)
  rw [read_bind]
  refine ⟨hclimbs.append hclimbs', fun d hd => ?_⟩
  rcases List.mem_append.1 hd with hd | hd
  · exact hplaced d hd
  · right
    apply (Input.places_suffix hreach).subset
    rcases hplaced' d hd with heq | hmem
    · exact heq ▸ Input.position_mem_places _
    · exact hmem

/-- After what is silent the place may still be used. -/
theorem after {f : α → Production β} (hp : p.Silent) (hf : ∀ a, (f a).ReportsFrom place) :
    (p >>= f).ReportsFrom place := by
  intro i hi hplace
  have hreach := p.read_reaches i
  obtain ⟨hclimbs, hplaced⟩ := hf (p.read i).result _ (hi.of_reaches hreach)
    (UInt32.le_trans hplace (hi.offset_le hreach))
  rw [read_bind, hp i]
  exact ⟨hclimbs, fun d hd => (hplaced d hd).imp_right fun hmem =>
    (Input.places_suffix hreach).subset hmem⟩

/-- A choice between what reports from a place reports from it. -/
theorem ite {c : Prop} [Decidable c] (hp : p.ReportsFrom place) (hq : q.ReportsFrom place) :
    (if c then p else q).ReportsFrom place := by
  split
  · exact hp
  · exact hq

/-- Remembers the place of the token under the cursor, whether that is taken or not. -/
theorem remember {f : β → Production α} {first : Production β} (mark : β → Position)
    (hfirst : first.Silent) (hmark : ∀ i, mark (first.read i).result = i.view.position)
    (hf : ∀ b, (f b).ReportsFrom (mark b)) : (first >>= f).ReportsFrom place := by
  intro i hi hplace
  have hreach := first.read_reaches i
  have hbehind : (mark (first.read i).result).offset ≤ (first.read i).rest.view.offset := by
    rw [hmark]
    exact hi.offset_le hreach
  obtain ⟨hclimbs, hplaced⟩ := hf _ _ (hi.of_reaches hreach) hbehind
  rw [read_bind, hfirst i]
  rw [hmark] at hclimbs hplaced
  refine ⟨hclimbs.from_before hplace, fun d hd => .inr ?_⟩
  rcases hplaced d hd with heq | hmem
  · exact heq ▸ i.position_mem_places
  · exact (Input.places_suffix hreach).subset hmem

end ReportsFrom

namespace ReportsInOrder

/-- To give a result reports in order. -/
theorem pure (a : α) : (Pure.pure a : Production α).ReportsInOrder :=
  fun _ => .pure a

/-- Steps that report in order, one after the other, do. -/
theorem bind {f : α → Production β} (hp : p.ReportsInOrder) (hf : ∀ a, (f a).ReportsInOrder) :
    (p >>= f).ReportsInOrder :=
  fun place => (hp place).bind hf

/-- A step that reports in order does so behind a silent one. -/
theorem after {f : α → Production β} (hp : p.Silent) (hf : ∀ a, (f a).ReportsInOrder) :
    (p >>= f).ReportsInOrder :=
  fun place => .after hp fun a => hf a place

/-- A choice between what reports in order reports in order. -/
theorem ite {c : Prop} [Decidable c] (hp : p.ReportsInOrder) (hq : q.ReportsInOrder) :
    (if c then p else q).ReportsInOrder :=
  fun place => (hp place).ite (hq place)

/-- To look reports in order if what is done then does. -/
theorem view {f : View → Production β} (hf : ∀ v, (f v).ReportsInOrder) :
    (Production.view >>= f).ReportsInOrder :=
  after (fun _ => rfl) hf

/-- To look at the kind reports in order if what is done then does. -/
theorem kind {f : Token.Kind → Production β} (hf : ∀ k, (f k).ReportsInOrder) :
    (Production.kind >>= f).ReportsInOrder :=
  after (fun _ => rfl) hf

/-- To move on reports in order if what is done then does. -/
theorem skip {f : Unit → Production β} (hf : (f ()).ReportsInOrder) :
    (Production.skip >>= f).ReportsInOrder :=
  after .skip fun _ => hf

/-- Remembers the place of the token under the cursor. -/
theorem fromHere {f : View → Production α} (hf : ∀ v, (f v).ReportsFrom v.position) :
    (Production.view >>= f).ReportsInOrder :=
  fun _ => .remember View.position (fun _ => rfl) (fun _ => rfl) hf

/-- Takes the token under the cursor, and remembers its place. -/
theorem fromTaken {f : Token → Production α} (hf : ∀ t, (f t).ReportsFrom t.span.start) :
    (take >>= f).ReportsInOrder :=
  fun _ => .remember (·.span.start) .take (fun _ => rfl) hf

/-- A report at the cursor is in order. -/
theorem complain (cause : Cause) : (Production.complain cause).ReportsInOrder :=
  fromHere fun v => .complainAt cause v.position

/-- A report of what is under the cursor is in order. -/
theorem complainOf (cause : String → Cause) : (Production.complainOf cause).ReportsInOrder :=
  fromHere fun v => .complainAt (cause v.token.text) v.position

/-- The guard of a loop reports in order. -/
theorem passIfStuck (before : UInt32) : (Production.passIfStuck before).ReportsInOrder :=
  view fun _ => ite (bind (complainOf _) fun _ => after .skip fun _ => pure ()) (pure _)

/-- A frame of the syntax tree keeps reports in order. -/
theorem inFrame {body : Production (Option α)} (entity : α → Entity) (h : body.ReportsInOrder) :
    (Production.inFrame entity body).ReportsInOrder := by
  intro place i hi hplace
  rw [read_inFrame]
  exact h place i hi hplace

end ReportsInOrder

end Production

namespace Grammar

open Production

variable {ctx : Context} {set : BlockKind}

/-! ### Declarations -/

/-- An unknown name is reported where its declaration started: nothing is reported while the name
is read. -/
theorem inOrder_declaration : (declaration ctx set).ReportsInOrder := by
  have habandon : abandonDeclaration.ReportsInOrder := fun _ => .of_silent silent_abandonDeclaration
  have hproperty (name : String) (place : Position) :
      (property ctx set name place).ReportsFrom place := by
    refine .ite (.pure _) ?_
    split
    · exact .pure _
    · exact .bind (.complainAt _ _) fun _ => .pure _
  have hvalue (name : String) (property : Property) :
      (declarationValue ctx name property).ReportsInOrder := by
    refine .after (silent_value _) fun parsed => ?_
    split
    · exact .bind (.complain _) fun _ => habandon
    · exact .ite (.bind (.complain _) fun _ => habandon)
        (.after (.skipIf _) fun _ => .pure _)
  refine .inFrame _ (.fromHere fun start => .after silent_declarationName fun name => .ite ?_ ?_)
  · exact (ReportsInOrder.view fun _ => .ite (.bind (.complainOf _) fun _ => habandon) habandon)
      start.position
  · refine .bind (hproperty _ _) fun property => .view fun _ => .ite (.skip (hvalue _ _)) ?_
    exact .bind (.complain _) fun _ => habandon

/-- The declarations of a block report in order. -/
theorem inOrder_declarations (block : Block) : (declarations ctx set block).ReportsInOrder := by
  have hfrom (rounds : Nat) (block : Block) :
      (declarationsFrom ctx set rounds block).ReportsInOrder := by
    induction rounds generalizing block with
    | zero => exact .pure _
    | succ rounds ih =>
      refine .view fun v => ?_
      split
      · exact .pure _
      · exact .pure _
      · exact .skip (ih _)
      · exact .bind inOrder_declaration fun _ => .bind (.passIfStuck _) fun _ => ih _
  exact .view fun _ => hfrom _ _

/-- A list of declarations reports in order. -/
theorem inOrder_declarationList : (declarationList ctx).ReportsInOrder := by
  have hfrom (rounds : Nat) (block : Block) :
      (declarationListFrom ctx rounds block).ReportsInOrder := by
    induction rounds generalizing block with
    | zero => exact .pure _
    | succ rounds ih =>
      exact .view fun _ => .ite (.pure _) (.bind (inOrder_declarations _) fun _ => .view fun _ =>
        .ite (.bind (.complain _) fun _ => .skip (ih _)) (ih _))
  exact .view fun _ => hfrom _ _

/-! ### Blocks -/

/-- The opening brace of a block, or what stands in its place, is reported in order. -/
theorem inOrder_blockOpening : blockOpening.ReportsInOrder :=
  .kind fun _ => .ite (.skip (.pure _))
    (.bind (.complainOf _) fun _ => .after silent_passRule fun _ => .pure _)

/-- A block of declarations reports in order. -/
theorem inOrder_declarationBlock : (declarationBlock ctx set).ReportsInOrder :=
  .bind inOrder_blockOpening fun _ => .ite
    (.bind (inOrder_declarations _) fun _ => .after (.skipIf _) fun _ => .pure _) (.pure _)

/-- What was found not to be valid is reported where it started, before its block is read. -/
theorem reportsFrom_checkedBlock {α : Type} (valid : Bool) (cause : Cause) (place : Position)
    (make : Block → α) : (checkedBlock ctx valid cause place make).ReportsFrom place := by
  have hused : (blockIf ctx valid make).ReportsInOrder := by
    refine .bind inOrder_declarationBlock fun block => ?_
    split
    · exact .pure _
    · exact .pure _
  exact .ite (.bind (.complainAt _ _) fun _ => hused) (hused _)

/-- A rule that is a block of declarations reports in order. -/
theorem inOrder_blockRule (set : BlockKind) (make : Block → Rule) :
    (blockRule ctx set make).ReportsInOrder :=
  .bind inOrder_declarationBlock fun _ => .pure _

/-! ### Rules of declarations -/

/-- A style rule reports in order. -/
theorem inOrder_styleRule : (styleRule ctx).ReportsInOrder := by
  rw [styleRule_eq]
  exact .fromHere fun _ => .after silent_selectorList fun _ => reportsFrom_checkedBlock _ _ _ _

/-- A moment of an animation reports in order. -/
theorem inOrder_keyframe : (keyframe ctx).ReportsInOrder := by
  rw [keyframe_eq]
  exact .inFrame _ (.fromHere fun _ => .after (silent_keysFrom _ _) fun _ =>
    reportsFrom_checkedBlock _ _ _ _)

/-- A page rule reports in order. -/
theorem inOrder_pageRule : (pageRule ctx).ReportsInOrder :=
  .view fun _ => .after (silent_pageSelectorFrom _ _) fun _ => inOrder_blockRule _ _

/-- An animation reports in order. -/
theorem inOrder_keyframesRule : (keyframesRule ctx).ReportsInOrder := by
  have hfrom (rounds : Nat) (frames : List Keyframe) :
      (keyframesFrom ctx rounds frames).ReportsInOrder := by
    induction rounds generalizing frames with
    | zero => exact .pure _
    | succ rounds ih =>
      refine .view fun v => ?_
      split
      · exact .pure _
      · exact .pure _
      · exact .bind inOrder_keyframe fun _ => .bind (.passIfStuck _) fun _ => ih _
  refine .after silent_animationName fun name => ?_
  split
  · exact .bind (.complainOf _) fun _ => .after silent_passRule fun _ => .pure _
  · refine .bind inOrder_blockOpening fun _ => .ite ?_ (.pure _)
    exact .view fun _ => .bind (hfrom _ _) fun _ => .after (.skipIf _) fun _ => .pure _

/-! ### Statements and rules of unknown names -/

/-- A statement that is passed over reports in order. -/
theorem inOrder_abandonStatement : abandonStatement.ReportsInOrder :=
  .bind (.complainOf _) fun _ => .after silent_passStatement fun _ => .pure _

/-- An import reports in order. -/
theorem inOrder_importStatement : (importStatement ctx).ReportsInOrder := by
  refine .after silent_location fun href => ?_
  split
  · exact inOrder_abandonStatement
  · exact .after silent_importMedia fun _ => .after silent_passStatement fun _ => .pure _

/-- An encoding reports in order. -/
theorem inOrder_charsetStatement : charsetStatement.ReportsInOrder :=
  .view fun _ => .ite (.skip (.after silent_passStatement fun _ => .pure _))
    inOrder_abandonStatement

/-- A namespace reports in order. -/
theorem inOrder_namespaceStatement : namespaceStatement.ReportsInOrder := by
  rw [namespaceStatement_eq]
  refine .after silent_namespaceLabel fun label => .after silent_location fun uri => ?_
  split
  · exact inOrder_abandonStatement
  · exact .after silent_passStatement fun _ => .pure _

/-- A rule of unknown name is reported at its keyword, and not kept then; one that is kept is not
reported. -/
theorem reportsFrom_unknownRule (name : String) (place : Position) :
    (unknownRule ctx name place).ReportsFrom place :=
  .ite (.of_silent (.view fun _ => .bind (silent_unknownPreambleFrom _ _) fun _ =>
      .bind silent_unknownBlock fun _ => .pure _))
    (.bind (.complainAt _ _) fun _ => .after silent_passRule fun _ => .pure _)

/-! ### Rules with rules inside -/

section

variable {p : Production (Option Rule)} (hrule : p.ReportsInOrder)
include hrule

/-- The rules of a block report in order if rules do. -/
theorem inOrder_rulesOf : (rulesOf p).ReportsInOrder := by
  have hfrom (rounds : Nat) (rules : List Rule) : (rulesFrom p rounds rules).ReportsInOrder := by
    induction rounds generalizing rules with
    | zero => exact .pure _
    | succ rounds ih =>
      refine .view fun v => ?_
      split
      · exact .pure _
      · exact .pure _
      · exact .bind hrule fun _ => .bind (.passIfStuck _) fun _ => ih _
  exact .view fun _ => hfrom _ _

/-- A block of rules reports in order if rules do. -/
theorem inOrder_ruleBlock : (ruleBlock p).ReportsInOrder :=
  .bind inOrder_blockOpening fun _ => .ite
    (.bind (inOrder_rulesOf hrule) fun _ => .after (.skipIf _) fun _ => .pure _) (.pure _)

/-- A rule for media reports in order if rules do. -/
theorem inOrder_mediaRule : (mediaRule ctx p).ReportsInOrder := by
  refine .after silent_mediaPrelude fun media => .view fun v => ?_
  split
  · exact .skip (.bind (inOrder_rulesOf hrule) fun _ => .after (.skipIf _) fun _ => .pure _)
  · exact .bind (.complain _) fun _ => .skip (.pure _)
  · exact .bind (.complainOf _) fun _ => .pure _

/-- A rule with a condition reports in order if rules do. -/
theorem inOrder_supportsRule : (supportsRule ctx p).ReportsInOrder := by
  refine .after silent_supportsCondition fun condition => ?_
  split
  · exact .bind (.complainOf _) fun _ => .after silent_passRule fun _ => .pure _
  · exact .bind (inOrder_ruleBlock hrule) fun _ => .pure _

/-- A rule for documents reports in order if rules do. -/
theorem inOrder_documentRule : (documentRule p).ReportsInOrder := by
  refine .view fun v => .after (silent_documentFunctionsFrom _ _) fun functions => ?_
  split
  · exact .bind (.complainOf _) fun _ => .after silent_passRule fun _ => .pure _
  · exact .bind (inOrder_ruleBlock hrule) fun _ => .pure _

/-- An at-rule reports in order if rules do. -/
theorem inOrder_atRule : (atRule ctx p).ReportsInOrder := by
  refine .fromTaken fun keyword => ?_
  split
  · exact inOrder_mediaRule hrule _
  · exact inOrder_blockRule _ _ _
  · exact inOrder_keyframesRule _
  · exact inOrder_importStatement _
  · exact inOrder_charsetStatement _
  · exact inOrder_namespaceStatement _
  · exact inOrder_pageRule _
  · exact inOrder_supportsRule hrule _
  · exact inOrder_blockRule _ _ _
  · exact inOrder_documentRule hrule _
  · exact reportsFrom_unknownRule _ _

/-- What any token starts reports in order if rules do. -/
theorem inOrder_ruleStarting (kind : Token.Kind) : (ruleStarting ctx p kind).ReportsInOrder := by
  have habandon (cause : String → Cause) : (abandonRule cause).ReportsInOrder :=
    .bind (.complainOf _) fun _ => .after silent_passRule fun _ => .pure _
  unfold ruleStarting
  split
  · exact .pure _
  · exact inOrder_atRule hrule
  · exact habandon _
  all_goals first | exact habandon _ | exact inOrder_styleRule

end

/-- A rule reports in order, to any depth. -/
theorem inOrder_ruleWithin (ctx : Context) (depth : Nat) :
    (ruleWithin ctx depth).ReportsInOrder := by
  induction depth with
  | zero => exact .pure _
  | succ depth ih => exact .inFrame _ (.view fun _ => inOrder_ruleStarting ih _)

/-- A style sheet reports in order. -/
theorem inOrder_stylesheet (ctx : Context) : (stylesheet ctx).ReportsInOrder := by
  have hfrom (rounds : Nat) (rules : List Rule) :
      (stylesheetFrom ctx rounds rules).ReportsInOrder := by
    induction rounds generalizing rules with
    | zero => exact .pure _
    | succ rounds ih =>
      exact .view fun _ => .ite (.pure _) (.bind (.view fun _ => inOrder_ruleWithin _ _) fun _ =>
        .bind (.passIfStuck _) fun _ => ih _)
  exact .view fun _ => hfrom _ _

end Grammar

/-! ### Tokens of a source -/

namespace Token

/-- Tokens that follow each other in less than 4 GiB start one behind the other. -/
theorem ordered_place (file : String) (offset : Nat) (ps : List (Kind × String))
    (hsmall : offset + bytes ps < 2 ^ 32) :
    (place file offset ps).Pairwise fun a b => a.span.start.offset ≤ b.span.start.offset := by
  induction ps generalizing offset with
  | nil => exact List.pairwise_singleton _ _
  | cons p ps ih =>
    have hbytes : bytes (p :: ps) = p.2.utf8ByteSize + bytes ps := rfl
    rw [place, List.pairwise_cons]
    refine ⟨fun t ht => ?_, ih _ (by omega)⟩
    obtain ⟨n, hlow, hhigh, hn⟩ := start_of_mem_place file _ ps t ht
    change UInt32.ofNat offset ≤ t.span.start.offset
    rw [hn, UInt32.le_iff_toNat_le, UInt32.toNat_ofNat', UInt32.toNat_ofNat',
      Nat.mod_eq_of_lt (by omega), Nat.mod_eq_of_lt (by omega)]
    omega

/-- In a source of less than 4 GiB the tokens start one behind the other. -/
theorem ordered_tokenize (source : String) (file : Option String)
    (h : source.utf8ByteSize < 2 ^ 32) :
    (tokenize source file).Pairwise fun a b => a.span.start.offset ≤ b.span.start.offset := by
  refine ordered_place _ 0 _ ?_
  rw [bytes_pieces]
  omega

/-- A significant token is no trivia. -/
theorem isTrivia_of_significant {kind : Kind} (h : kind.isSignificant = true) :
    kind.isTrivia = false := by
  cases kind <;> first | rfl | exact absurd h (by decide)

end Token

/-- The places of a whole source are those of its significant tokens and its end. -/
theorem Input.places_tokenize (source : String) (file : Option String) :
    ∃ read : List Token, read.Sublist (Token.tokenize source file) ∧
      (∀ t ∈ read, t.kind.isTrivia = false) ∧
      (ofTokens (Token.tokenize source file)).places = read.map (·.span.start) := by
  obtain ⟨ts, eof, htokens, heof, -, htake⟩ := Token.tokenize_eq source file
  have hlast : (ofTokens (Token.tokenize source file)).eof = eof := by
    change (Token.Supply.endOf (Token.tokenize source file)).1 = _
    rw [htokens]
    unfold Token.Supply.endOf
    simp [heof]
  have hahead : (ofTokens (Token.tokenize source file)).ahead = (Lexeme.group ts).1 := by
    rw [← htake]
    rfl
  refine ⟨(Lexeme.group ts).1.map (·.token) ++ [eof], ?_, ?_, ?_⟩
  · have hlead := List.sublist_append_left (Lexeme.ungroup (Lexeme.group ts).1) (Lexeme.group ts).2
    rw [Lexeme.ungroup_group] at hlead
    rw [htokens]
    exact ((Lexeme.map_token_sublist_ungroup _).trans hlead).append (.refl _)
  · intro t ht
    rcases List.mem_append.1 ht with ht | ht
    · obtain ⟨lexeme, -, rfl⟩ := List.mem_map.1 ht
      exact Token.isTrivia_of_significant lexeme.significant
    · rw [List.mem_singleton.1 ht, heof]
      rfl
  · rw [places, hahead, hlast, List.map_append, List.map_map]
    rfl

/-- Diagnostics of tokens: none stands before the one in front of it, and each stands where a token
starts that is no trivia. -/
structure Diagnostic.InOrder (tokens : List Token) (ds : List Diagnostic) : Prop where
  order : ds.Pairwise fun d e => d.position.offset ≤ e.position.offset
  placed : ∀ d ∈ ds, ∃ t ∈ tokens, t.kind.isTrivia = false ∧ d.position = t.span.start

/-- What is reported of a source, by a production that reports in order. -/
theorem Production.ReportsInOrder.tokenize {α : Type} {p : Production α} (h : p.ReportsInOrder)
    {source : String} (file : Option String) (hsmall : source.utf8ByteSize < 2 ^ 32) :
    Diagnostic.InOrder (Token.tokenize source file)
      (p.read (.ofTokens (Token.tokenize source file))).reports := by
  obtain ⟨read, hsublist, htrivia, hplaces⟩ := Input.places_tokenize source file
  have hordered : (Input.ofTokens (Token.tokenize source file)).Ordered := by
    rw [Input.Ordered, hplaces, List.pairwise_map]
    exact (Token.ordered_tokenize source file hsmall).sublist hsublist
  obtain ⟨hclimbs, hplaced⟩ := h _ _ hordered (UInt32.le_refl _)
  refine ⟨hclimbs.pairwise, fun d hd => ?_⟩
  have hmem : d.position ∈ (Input.ofTokens (Token.tokenize source file)).places := by
    rcases hplaced d hd with heq | hmem
    · exact heq ▸ Input.position_mem_places _
    · exact hmem
  rw [hplaces] at hmem
  obtain ⟨t, ht, hposition⟩ := List.mem_map.1 hmem
  exact ⟨t, hsublist.subset ht, htrivia t ht, hposition.symm⟩

/-- Whatever is wrong with a source of less than 4 GiB, it is reported in the order of the source,
and at the start of a token that is no trivia, or of the token of the end; whether the source is
read as a style sheet or as declarations that no braces enclose. -/
theorem reports_in_order (source : String) (file : Option String) (config : Config)
    (hsmall : source.utf8ByteSize < 2 ^ 32) :
    let tokens := Token.tokenize source file
    Diagnostic.InOrder tokens (Stylesheet.parse tokens config).2.diagnostics.toList ∧
      Diagnostic.InOrder tokens (Block.parse tokens config).2.diagnostics.toList := by
  intro tokens
  have hblock : (Block.parse tokens config).2.diagnostics.toList =
      ((Grammar.declarationList (.ofConfig config)).read (.ofTokens tokens)).reports :=
    (Production.run_eq_read _ (.ofTokens tokens config)).2.2
  rw [Stylesheet.parse_reports, hblock]
  exact ⟨(Grammar.inOrder_stylesheet _).tokenize file hsmall,
    Grammar.inOrder_declarationList.tokenize file hsmall⟩

/-- A selector that is not valid before a block whose only declaration is a name that is not known,
and a rule of unknown name after it. -/
theorem reports_in_order_of_dropped_rules :
    let tokens := Token.tokenize "[ \x7bx\x7d @y;" none
    "[ \x7bx\x7d @y;".utf8ByteSize < 2 ^ 32 ∧
    Diagnostic.InOrder tokens (Stylesheet.parse tokens .strict).2.diagnostics.toList ∧
    (Stylesheet.parse tokens .strict).2.diagnostics.toList.map
      (fun d => (d.cause, d.position.offset)) =
      [(.invalidSelector "[", 0), (.unknownDeclarationName "x", 3), (.colonMissing "x", 4),
        (.unknownAtRule "y", 6)] :=
  ⟨by decide +kernel, (reports_in_order _ none .strict (by decide +kernel)).1, by decide +kernel⟩

end Cssom

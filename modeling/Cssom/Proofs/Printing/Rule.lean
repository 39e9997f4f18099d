import Cssom.Proofs.Printing.Group
import Cssom.Proofs.Printing.Keyframe
import Cssom.Proofs.Printing.Selector
import Cssom.Proofs.Printing.SingleSpaced
import Cssom.Proofs.Reading.Erasure

/-!
# Rules are read back

Whatever rule a plain source holds, at any depth, is read back from its print before any token
(`rule_reads_back`), where rules of unknown names and values that the grammar refuses are dropped. A
style rule is read by its first token, which stays what it was; any other rule is known by its
at-keyword, which is printed in its normal spelling (`ruleReadsBack_of_body`).
-/

namespace Cssom.Grammar

open Production Token Input

variable {config : Config} {ctx : Context} {i j : Input}

/-! ### Pages -/

/-- What is printed before a token of the selector of a page. -/
def pageGap (selector : String) (view : View) : String :=
  if view.spacing.isOpen && !selector.isEmpty then " " else ""

/-- The selector of a page once the token under the cursor was read. -/
def selectorAfter (selector : String) (view : View) : String :=
  selector ++ pageGap selector view ++ view.token.text

/-- The selector of a page is read token by token, up to what ends it. -/
theorem pageSelectorFrom_eq (rounds : Nat) (selector : String) :
    pageSelectorFrom rounds selector = tokensUntil endsPreamble selectorAfter rounds selector := by
  induction rounds generalizing selector with
  | zero => rfl
  | succ rounds ih =>
    unfold pageSelectorFrom tokensUntil
    simp only [ih]
    rfl

/-- Before a token of the selector of a page a blank is printed where trivia stood, but for the
start. -/
theorem toList_pageGap {lead src : List Piece} {p : Piece} (h : i.Faces lead p src)
    (selector : String) :
    (pageGap selector i.view).toList = spell (gapOf selector.isEmpty lead) := by
  rw [pageGap, h.spacing, isOpen_spacingOf, gapOf]
  rcases lead.isEmpty <;> rcases selector.isEmpty <;> rfl

/-- The selector of a page shows the tokens that were taken, with single blanks between them. -/
theorem records_selectorAfter : Records selectorAfter String.isEmpty String.toList spell where
  nil := rfl
  append := spell_append
  shows_step selector i lead src p hfaces := by
    rw [selectorAfter, String.toList_append, String.toList_append, toList_pageGap hfaces,
      hfaces.text, spell_append, spell_cons, spell_nil, List.append_nil, List.append_assoc]
  not_fresh selector view hne := by
    rw [Bool.eq_false_iff, Ne, String.isEmpty_iff, ← String.toList_eq_nil_iff, selectorAfter,
      String.toList_append]
    simp [hne]

/-- Reads the selector of a page. -/
def pageSelector : Production String := do
  pageSelectorFrom (← view).size ""

/-- A page rule is its selector and its block. -/
theorem pageRule_eq (ctx : Context) : pageRule ctx = pageSelector >>= fun selector =>
    blockRule ctx .standard (.page (if selector.isEmpty then none else some selector)) :=
  (LawfulMonad.bind_assoc _ _ _).symm

/-- What is printed of the selector of a page before its block. -/
def pagePrefix (selector : String) : String :=
  if selector.isEmpty then "" else selector ++ " "

/-- What is read as the selector of a page is its tokens, with single blanks between them. -/
theorem pageSelector_yields (hplain : Plain i.pieces) :
    pageSelector.Yields i fun selector rest => ∃ src ps, selector.toList = spell ps ∧
      i.pieces = src ++ rest.pieces ∧ SingleSpaced true src ps ∧
        ∀ k ∈ kinds src, endsPreamble k = false := by
  unfold pageSelector
  apply Yields.view
  rw [pageSelectorFrom_eq]
  exact records_selectorAfter.yields rfl hplain _ ""

/-- Tokens with single blanks between them are read as the selector of a page before a brace. -/
theorem pageSelector_gives {selector : String} {src ps tail : List Piece}
    (hspaced : SingleSpaced true src ps) (hgoes : ∀ k ∈ kinds src, endsPreamble k = false)
    (hshown : selector.toList = spell ps) (hahead : j.Ahead (ps ++ tail))
    (htail : headKind tail = .openCurly) : pageSelector.Gives j selector tail := by
  have hends : endsPreamble (headKind tail) = true := by
    rw [htail]
    rfl
  rw [← hspaced.kinds_eq] at hgoes
  obtain ⟨final, hfinal, hgives⟩ := records_selectorAfter.gives hspaced.again hgoes hends
    hahead.holds hahead.offsets j.view.size (Nat.le_refl _) "" rfl
  obtain rfl : final = selector := String.toList_inj.1 (hfinal.trans hshown.symm)
  rw [← pageSelectorFrom_eq] at hgives
  exact .view hgives

/-- The selector of a page, read up to its block, is read back before a brace. -/
theorem pageSelector_prints (hplain : Plain i.pieces)
    (hopen : (pageSelector.read i).rest.view.kind = .openCurly) :
    ∃ ps, PreludePrints pageSelector (pageSelector.read i).result
      (pagePrefix (pageSelector.read i).result) ps := by
  obtain ⟨src, ps, hshown, hpieces, hspaced, hgoes⟩ := pageSelector_yields hplain
  generalize (pageSelector.read i).result = selector at hshown ⊢
  generalize (pageSelector.read i).rest = rest at hopen hpieces
  by_cases hps : ps = []
  · obtain rfl : selector = "" := String.toList_eq_nil_iff.1 (by rw [hshown, hps, spell_nil])
    refine ⟨[], rfl, fun _ hqs => hqs, fun j tail hahead htail => ?_⟩
    exact pageSelector_gives hspaced hgoes hshown (by rwa [hps]) htail
  · rw [hpieces] at hplain
    have hbrace : headKind rest.pieces = .openCurly := by rw [← rest.kind_view, hopen]
    have hlegible := hspaced.legible hplain
      (fun _ _ _ => (Reaches.refl rest).exists_significant (by rw [hopen]; simp))
      (not_opensString (by rw [hbrace]; simp)) hps
    have hne : selector.isEmpty = false := by
      rw [Bool.eq_false_iff, Ne, String.isEmpty_iff, ← String.toList_eq_nil_iff, hshown]
      exact hspaced.spell_ne_nil hps
    refine ⟨ps ++ [blank], ?_, fun qs hqs => ?_, fun j tail hahead htail => ?_⟩
    · rw [spell_append, ← hshown, pagePrefix, hne, if_neg Bool.false_ne_true, String.toList_append]
      rfl
    · rw [List.append_assoc]
      exact hlegible.append_blank hqs
    · rw [List.append_assoc] at hahead
      have hread := pageSelector_gives hspaced hgoes hshown hahead (by
        rw [headKind_append (areTrivia_singleton rfl), htail])
      exact hread.of_append (areTrivia_singleton rfl)

/-! ### Rules of declarations -/

/-- A block of declarations is read where a brace opens it. -/
theorem declarationBlock_opens (ctx : Context) (set : BlockKind) :
    (declarationBlock ctx set).Yields i fun result _ => ∀ block, result = some block →
      i.view.kind = .openCurly := by
  have hopens : blockOpening.Yields i fun opened _ => opened = true → i.view.kind = .openCurly := by
    unfold blockOpening
    apply Yields.kind
    split
    · next hkind => exact Yields.bind_any fun _ _ _ => .pure fun _ => hkind
    · apply Yields.bind_any
      intro _ _ _
      apply Yields.bind_any
      intro _ _ _
      exact .pure fun h => absurd h Bool.false_ne_true
  unfold declarationBlock
  apply Yields.bind hopens
  intro opened rest _ hopened
  split
  · next hopen =>
    apply Yields.bind_any
    intro _ _ _
    apply Yields.bind_any
    intro _ _ _
    exact .some (hopened hopen)
  · exact .none

/-- A rule that is nothing but a block of declarations is read back behind its at-keyword. -/
theorem blockRule_reads_back (hconfig : config.keepInvalidValues = false) {set : BlockKind}
    {make : Block → Rule} (hplain : Plain i.pieces) :
    (blockRule (.ofConfig config) set make).Yields i fun result _ => ∀ r, result = some r →
      ∃ block, r = make block ∧
        BodyReadsBack (fun _ => blockRule (.ofConfig config) set make) r block.renderBraced := by
  unfold blockRule
  apply Yields.bind (declarationBlock_reads_back hconfig hplain)
  intro parsed rest _ hparsed
  rcases parsed with _ | block
  · exact .none
  obtain ⟨bs, hbs⟩ := hparsed block rfl
  apply Yields.some
  refine ⟨block, rfl, bs, hbs.spell, hbs.legible, trivial, ?_⟩
  intro bound input tail hahead _ hsize
  apply Gives.bind (hbs.gives bound input tail hahead trivial hsize)
  intro rest _ hrest
  exact .pure hrest

/-- The text of a rule for pages, behind its at-keyword. -/
def pageText (selector : String) (block : Block) : String :=
  pagePrefix selector ++ block.renderBraced

/-- A rule for pages is read back behind its at-keyword. -/
theorem pageRule_reads_back (hconfig : config.keepInvalidValues = false) (hplain : Plain i.pieces) :
    (pageRule (.ofConfig config)).Yields i fun result _ => ∀ r, result = some r →
      ∃ selector block, r = .page (if selector.isEmpty then none else some selector) block ∧
        BodyReadsBack (fun _ => pageRule (.ofConfig config)) r (pageText selector block) := by
  rw [pageRule_eq]
  refine Yields.bind (Q := fun selector rest => rest = (pageSelector.read i).rest ∧
    selector = (pageSelector.read i).result) ⟨rfl, rfl⟩ fun selector rest hreach hread => ?_
  obtain ⟨rfl, hselector⟩ := hread
  unfold blockRule
  apply Yields.bind ((declarationBlock_opens _ _).and
    (declarationBlock_reads_back hconfig (hreach.plain hplain)))
  intro parsed rest' _ hparsed
  obtain ⟨hopens, hblock⟩ := hparsed
  rcases parsed with _ | block
  · exact .none
  obtain ⟨ps, hps⟩ := pageSelector_prints hplain (hopens block rfl)
  obtain ⟨bs, hbs⟩ := hblock block rfl
  rw [← hselector] at hps
  apply Yields.some
  refine ⟨selector, block, rfl, ps ++ bs, ?_, hps.legible _ hbs.legible, trivial, ?_⟩
  · rw [spell_append, hps.spell, hbs.spell, pageText, String.toList_append]
  · intro bound input tail hahead _ _
    rw [List.append_assoc] at hahead
    have hopen : headKind (bs ++ tail) = .openCurly := by
      rw [hbs.headKind_append]
      exact hbs.starts
    apply Gives.bind (hps.gives input _ hahead hopen)
    intro rest _ hrest
    apply Gives.bind (hbs.gives (rest.size + 1) rest tail hrest trivial (Nat.lt_succ_self _))
    intro rest' _ hrest'
    exact .pure hrest'

/-! ### At-keywords -/

/-- The name that the at-keyword of a rule is printed with. -/
def printedName : AtKeyword → String
  | .media => "media"
  | .fontFace => "font-face"
  | .keyframes => "keyframes"
  | .importRule => "import"
  | .charset => "charset"
  | .namespaceRule => "namespace"
  | .page => "page"
  | .supports => "supports"
  | .viewport => "viewport"
  | .document => "document"
  | .unknown => ""

/-- Reads the rule of an at-keyword that means something. -/
def keywordRule (ctx : Context) (rule : Production (Option Rule)) :
    AtKeyword → Production (Option Rule)
  | .media => mediaRule ctx rule
  | .fontFace => blockRule ctx .fontFace .fontFace
  | .keyframes => keyframesRule ctx
  | .importRule => importStatement ctx
  | .charset => charsetStatement
  | .namespaceRule => namespaceStatement
  | .page => pageRule ctx
  | .supports => supportsRule ctx rule
  | .viewport => blockRule ctx .viewport .viewport
  | .document => documentRule rule
  | .unknown => pure none

/-- The piece of an at-keyword, as it is printed. -/
def keywordPiece (keyword : AtKeyword) : Piece :=
  (.atKeyword, "@" ++ printedName keyword)

/-- What is printed in front of the text of a rule: its at-keyword, and a blank. -/
def keywordPrefix (keyword : AtKeyword) : String :=
  "@" ++ printedName keyword ++ " "

/-- An animation is printed behind its at-keyword. -/
theorem render_keyframes (name : String) (frames : List Keyframe) :
    (Rule.keyframes name frames).render =
      keywordPrefix .keyframes ++ keyframesText name frames := by
  rw [show keywordPrefix .keyframes = "@keyframes " from rfl]
  simp only [Rule.render, keyframesText, String.append_assoc]

/-- An import is printed behind its at-keyword. -/
theorem render_importRule (href : String) (media : MediaList) :
    (Rule.importRule href media).render = keywordPrefix .importRule ++ importText href media := by
  rw [show keywordPrefix .importRule = "@import " from rfl]
  simp only [Rule.render, importText, String.append_assoc]
  rfl

/-- An encoding is printed behind its at-keyword. -/
theorem render_charset (encoding : String) :
    (Rule.charset encoding).render = keywordPrefix .charset ++ charsetText encoding := by
  rw [show keywordPrefix .charset = "@charset " from rfl]
  simp only [Rule.render, charsetText, String.append_assoc]

/-- A namespace is printed behind its at-keyword. -/
theorem render_namespaceRule (label : Option String) (uri : String) :
    (Rule.namespaceRule label uri).render =
      keywordPrefix .namespaceRule ++ namespaceText label uri := by
  rw [show keywordPrefix .namespaceRule = "@namespace " from rfl]
  rcases label with _ | label <;> simp only [Rule.render, namespaceText, String.append_assoc]

/-- A rule for documents is printed behind its at-keyword. -/
theorem render_document (functions : List DocumentFunction) (rules : List Rule) :
    (Rule.document functions rules).render =
      keywordPrefix .document ++ documentText functions rules := by
  rw [show keywordPrefix .document = "@document " from rfl]
  simp only [Rule.render, documentText, String.append_assoc]

/-- At-keywords that mean something are legible. -/
theorem legible_keyword {keyword : AtKeyword} (h : keyword ≠ .unknown) :
    Legible [keywordPiece keyword] := by
  have hparen : '(' ∉ (keywordPiece keyword).2.toList ∧ '\\' ∉ (keywordPiece keyword).2.toList := by
    cases keyword <;> exact ⟨by decide, by decide⟩
  refine .of_first ?_ rfl rfl (.of_not_mem hparen.2) fun ho => hparen.1 ho.mem
  cases keyword <;> first | rfl | exact absurd rfl h

/-- An at-keyword is known again by the name it is printed with. -/
theorem ofName_printedName {keyword : AtKeyword} {t : Token} (hkind : t.kind = .atKeyword)
    (htext : t.text = (keywordPiece keyword).2) : AtKeyword.ofName t.name = keyword := by
  have hname : t.name = printedName keyword := by
    rw [Token.name, hkind, htext]
    simp [keywordPiece]
  rw [hname]
  cases keyword <;> rfl

/-- An at-rule is read as one of an unknown name, or as what its at-keyword says. -/
theorem atRule_eq (ctx : Context) (rule : Production (Option Rule)) :
    atRule ctx rule = take >>= fun token =>
      if AtKeyword.ofName token.name = .unknown then
        unknownRule ctx token.name token.span.start
      else keywordRule ctx rule (AtKeyword.ofName token.name) := by
  unfold atRule
  refine congrArg (take >>= ·) (funext fun token => ?_)
  rcases AtKeyword.ofName token.name <;> rfl

/-- Behind an at-keyword of this kind, rules are read by what it says, within a smaller bound. -/
def ReadsKeyword (ctx : Context) (p : Nat → Production (Option Rule)) (keyword : AtKeyword) :
    Prop :=
  ∀ depth (i : Input), i.view.kind = .atKeyword → AtKeyword.ofName i.view.token.name = keyword →
    (p (depth + 1)).read i = (keywordRule ctx (p depth) keyword).read i.advance

/-- A rule that starts with an at-keyword is an at-rule. -/
theorem read_ruleWithin_atRule (ctx : Context) (depth : Nat) (hkind : i.view.kind = .atKeyword) :
    (ruleWithin ctx (depth + 1)).read i = (atRule ctx (ruleWithin ctx depth)).read i := by
  rw [ruleWithin, read_inFrame, read_bind, read_view]
  simp [hkind, ruleStarting]

/-- Rules of any depth are read by what their at-keyword says. -/
theorem readsKeyword_ruleWithin {keyword : AtKeyword} (hknown : keyword ≠ .unknown) :
    ReadsKeyword ctx (ruleWithin ctx) keyword := by
  intro depth i hkind hkeyword
  rw [read_ruleWithin_atRule ctx depth hkind, atRule_eq, read_bind, read_take, hkeyword,
    if_neg hknown]
  rfl

/-- What is read back behind an at-keyword is read back as a rule. -/
theorem ruleReadsBack_of_body {p : Nat → Production (Option Rule)} {keyword : AtKeyword}
    (hknown : keyword ≠ .unknown) (hp : ReadsKeyword ctx p keyword) {r : Rule} {text : String}
    {placed : Prop}
    (h : BodyReadsBack (fun bound => keywordRule ctx (p bound) keyword) r text placed)
    {gap : String} (hgap : gap = " " ∨ gap = "  ")
    (hrender : r.render = "@" ++ printedName keyword ++ gap ++ text) :
    RuleReadsBack p r placed := by
  obtain ⟨ps, hps⟩ := h
  refine ⟨keywordPiece keyword :: (.whitespace, gap) :: ps, ?_, ?_, rfl, ?_⟩
  · rw [spell_cons, spell_cons, hps.spell, hrender]
    simp [keywordPiece, String.toList_append]
  · have hkeyword := legible_keyword hknown
    have hone : " ".toList = [' '] := rfl
    have htwo : "  ".toList = [' ', ' '] := rfl
    rcases hgap with rfl | rfl
    · exact hkeyword.append_spaces hps.legible hone List.mem_cons_self (List.forall_mem_nil _)
    · refine hkeyword.append_spaces hps.legible htwo List.mem_cons_self fun c hc => ?_
      rw [List.mem_singleton.1 hc]
      rfl
  · intro bound input tail hahead _ hsize
    have hahead : input.Ahead (keywordPiece keyword :: (.whitespace, gap) :: (ps ++ tail))
      placed := hahead
    have hbody := (hahead.advance rfl).tail rfl
    have hlt := hahead.size rfl
    obtain ⟨n, rfl⟩ : ∃ n, bound = n + 1 := ⟨bound - 1, by omega⟩
    have hkind : input.view.kind = .atKeyword := hahead.kind
    have hkeyword := ofName_printedName hkind (hahead.text rfl)
    exact (hps.gives n input.advance tail hbody trivial (by omega)).congr
      (hp n input hkind hkeyword)

/-- A rule of an unknown name is dropped, unless those are kept. -/
theorem unknownRule_none (hconfig : config.keepUnknownRules = false) (name : String)
    (position : Position) : (unknownRule (.ofConfig config) name position).Yields i
      fun result _ => result = none := by
  unfold unknownRule
  simp only [Context.ofConfig, hconfig, Bool.false_eq_true, if_false]
  apply Yields.bind_any
  intro _ _ _
  apply Yields.bind_any
  intro _ _ _
  exact .pure rfl

/-! ### Rules without rules inside -/

/-- Whether rules with this at-keyword hold rules. -/
def holdsRules : AtKeyword → Bool
  | .media | .supports | .document => true
  | _ => false

/-- A rule without rules inside, in which no tokens were kept, and which is read back. -/
structure SingleReadsBack (ctx : Context) (r : Rule) : Prop where
  nested : r.nested? = none
  unplaced : r.unplaced = r
  reads : RuleReadsBack (ruleWithin ctx) r

/-- A rule whose text behind its at-keyword is read back is read back, if it holds no rules. -/
theorem SingleReadsBack.of_body (keyword : AtKeyword) (hknown : keyword ≠ .unknown) {r : Rule}
    (hnested : r.nested? = none) (hunplaced : r.unplaced = r) {text : String}
    (h : BodyReadsBack (fun bound => keywordRule ctx (ruleWithin ctx bound) keyword) r text)
    (hrender : r.render = "@" ++ printedName keyword ++ " " ++ text) : SingleReadsBack ctx r :=
  ⟨hnested, hunplaced,
    ruleReadsBack_of_body hknown (readsKeyword_ruleWithin hknown) h (Or.inl rfl) hrender⟩

/-- A rule that was read behind its at-keyword, and that holds no rules, is read back. -/
theorem single_reads_back (hconfig : config.keepInvalidValues = false)
    (rule : Production (Option Rule)) {keyword : AtKeyword} (hholds : holdsRules keyword = false)
    (hplain : Plain i.pieces) :
    (keywordRule (.ofConfig config) rule keyword).Yields i fun result _ => ∀ r, result = some r →
      SingleReadsBack (.ofConfig config) r := by
  cases keyword with
  | media | supports | document => exact absurd hholds (by decide)
  | fontFace =>
    refine (blockRule_reads_back hconfig hplain).mono fun result _ h r hr => ?_
    obtain ⟨block, rfl, hbody⟩ := h r hr
    exact .of_body .fontFace (by simp) rfl (by simp [Rule.mapParts]) hbody rfl
  | keyframes =>
    refine (keyframesRule_reads_back hconfig hplain).mono fun result _ h r hr => ?_
    obtain ⟨name, frames, rfl, hbody⟩ := h r hr
    exact .of_body .keyframes (by simp) rfl (by simp [Rule.mapParts]) hbody (render_keyframes _ _)
  | importRule =>
    refine (importStatement_reads_back hplain).mono fun result _ h r hr => ?_
    obtain ⟨href, media, rfl, hbody⟩ := h r hr
    exact .of_body .importRule (by simp) rfl (by simp [Rule.mapParts]) hbody
      (render_importRule _ _)
  | charset =>
    refine (charsetStatement_reads_back hplain).mono fun result _ h r hr => ?_
    obtain ⟨encoding, rfl, hbody⟩ := h r hr
    exact .of_body .charset (by simp) rfl (by simp [Rule.mapParts]) hbody (render_charset _)
  | namespaceRule =>
    refine (namespaceStatement_reads_back hplain).mono fun result _ h r hr => ?_
    obtain ⟨label, uri, rfl, hbody⟩ := h r hr
    exact .of_body .namespaceRule (by simp) rfl (by simp [Rule.mapParts]) hbody
      (render_namespaceRule _ _)
  | page =>
    refine (pageRule_reads_back hconfig hplain).mono fun result _ h r hr => ?_
    obtain ⟨selector, block, rfl, hbody⟩ := h r hr
    refine .of_body .page (by simp) rfl (by simp [Rule.mapParts]) hbody ?_
    rw [show "@" ++ printedName .page ++ " " = "@page " from rfl]
    rcases hselector : selector.isEmpty <;>
      simp [Rule.render, pageText, pagePrefix, hselector, String.append_assoc]
  | viewport =>
    refine (blockRule_reads_back hconfig hplain).mono fun result _ h r hr => ?_
    obtain ⟨block, rfl, hbody⟩ := h r hr
    exact .of_body .viewport (by simp) rfl (by simp [Rule.mapParts]) hbody rfl
  | unknown => exact .none

/-! ### Rules in groups -/

/-- A rule that is put together from rules of some sort that hold no rules: what stands before the
block of a group is read back. -/
inductive Grown (config : Config) (P : Rule → Prop) : Rule → Prop where
  | single {r : Rule} (hnested : r.nested? = none) (h : P r) : Grown config P r
  | media {list : MediaList} {rules : List Rule} (hlist : MediaPrints config list)
      (hrules : ∀ r ∈ rules, Grown config P r) : Grown config P (.media list rules)
  | supports {condition : Condition} {rules : List Rule}
      (hcondition : ConditionPrints config condition) (hrules : ∀ r ∈ rules, Grown config P r) :
      Grown config P (.supports condition rules)
  | document {functions : List DocumentFunction} {rules : List Rule}
      (hfunctions : FunctionsPrint functions) (hrules : ∀ r ∈ rules, Grown config P r) :
      Grown config P (.document functions rules)

/-- A group of rules that are read back is read back, and so is whatever holds it. -/
theorem Grown.reads_back {p : Nat → Production (Option Rule)} (hp : Advancing p)
    (hkeyword : ∀ keyword : AtKeyword, holdsRules keyword = true →
      ReadsKeyword (.ofConfig config) p keyword) {r : Rule}
    (h : Grown config (RuleReadsBack p) r) : RuleReadsBack p r := by
  induction h with
  | single _ h => exact h
  | media hlist _ ih =>
    refine ruleReadsBack_of_body (by simp) (hkeyword .media rfl)
      (mediaBody_reads_back hp hlist ih) (Or.inl rfl) ?_
    rw [show "@" ++ printedName .media ++ " " = "@media " from rfl]
    simp only [Rule.render, mediaText, mediaPrefix, String.append_assoc]
  | @supports condition _ hcondition _ ih =>
    rcases hempty : condition.isEmpty
    · refine ruleReadsBack_of_body (by simp) (hkeyword .supports rfl)
        (supportsBody_reads_back hp hcondition ih) (Or.inl rfl) ?_
      rw [show "@" ++ printedName .supports ++ " " = "@supports " from rfl]
      simp only [Rule.render, supportsText, conditionPrefix, hempty, Bool.false_eq_true,
        if_false, String.append_assoc]
    · refine ruleReadsBack_of_body (by simp) (hkeyword .supports rfl)
        (supportsBody_reads_back hp hcondition ih) (Or.inr rfl) ?_
      rw [show "@" ++ printedName .supports ++ "  " = "@supports " ++ " " from rfl]
      have hnone : condition = .empty := by
        cases condition <;> first | rfl | exact absurd hempty (by simp [Condition.isEmpty])
      rw [hnone]
      rfl
  | document hfunctions _ ih =>
    exact ruleReadsBack_of_body (by simp) (hkeyword .document rfl)
      (documentBody_reads_back hp hfunctions ih fun _ => trivial) (Or.inl rfl) (render_document _ _)

/-- A rule that was read behind an at-keyword that means something is of a sort that holds of all
that are read back, or a group of rules that were read. -/
theorem keywordRule_grown (hconfig : config.keepInvalidValues = false) {P : Rule → Prop}
    (hP : ∀ r, SingleReadsBack (.ofConfig config) r → P r) {rule : Production (Option Rule)}
    (hrule : Offers (Grown config P) rule) (keyword : AtKeyword) (hplain : Plain i.pieces) :
    (keywordRule (.ofConfig config) rule keyword).Yields i fun result _ => ∀ r, result = some r →
      Grown config P r := by
  rcases hholds : holdsRules keyword
  · refine (single_reads_back hconfig rule hholds hplain).mono fun result _ h r hr => ?_
    exact .single (h r hr).nested (hP r (h r hr))
  · cases keyword with
    | media =>
      refine (mediaRule_yields hrule hplain).mono fun result _ h r hr => ?_
      obtain ⟨list, rules, rfl, hlist, hrules⟩ := h r hr
      exact .media hlist hrules
    | supports =>
      refine (supportsRule_yields hconfig hrule hplain).mono fun result _ h r hr => ?_
      obtain ⟨condition, rules, rfl, hcondition, hrules⟩ := h r hr
      exact .supports hcondition hrules
    | document =>
      refine (documentRule_yields hrule hplain).mono fun result _ h r hr => ?_
      obtain ⟨functions, rules, rfl, hfunctions, hrules⟩ := h r hr
      exact .document hfunctions hrules
    | _ => exact absurd hholds (by decide)

/-! ### Style rules -/

/-- The kinds of tokens that a style rule starts with. -/
def startsStyle : Kind → Bool
  | .eof | .atKeyword | .openCurly | .string | .badString | .url | .badUrl | .closeCurly
  | .closeParen | .closeBracket => false
  | _ => true

/-- A rule is a style rule where its first token is one that starts such. -/
theorem ruleStarting_style {k : Kind} (h : startsStyle k = true)
    (rule : Production (Option Rule)) : ruleStarting ctx rule k = styleRule ctx := by
  cases k <;> first | rfl | exact absurd h (by decide)

/-- A rule is a style rule, or that of an at-keyword, or there is none. -/
theorem ruleStarting_cases (ctx : Context) (rule : Production (Option Rule)) (k : Kind) :
    startsStyle k = true ∨ k = .atKeyword ∨ ruleStarting ctx rule k = pure none ∨
      ∃ cause, ruleStarting ctx rule k = abandonRule cause := by
  cases k with
  | eof => exact Or.inr (Or.inr (Or.inl rfl))
  | atKeyword => exact Or.inr (Or.inl rfl)
  | openCurly => exact Or.inr (Or.inr (Or.inr ⟨_, rfl⟩))
  | string | badString | url | badUrl | closeCurly | closeParen | closeBracket =>
    exact Or.inr (Or.inr (Or.inr ⟨_, rfl⟩))
  | _ => exact Or.inl rfl

/-- A rule that is passed over gives nothing. -/
theorem abandonRule_none {P : Rule → Prop} (cause : String → Cause) :
    (abandonRule cause).Yields i fun result _ => ∀ r, result = some r → P r := by
  unfold abandonRule
  exact .abandons

/-- A valid selector list and a block that are read back are read back as a style rule. -/
theorem ruleReadsBack_of_style {k : Kind} (hstarts : startsStyle k = true)
    {parsed : ParsedSelectors} (hvalid : parsed.valid = true)
    (hselectors : ReadsBack (fun _ => selectorList) (· = k) (endsSelectors · = true) parsed
      parsed.list.render) {block : Block}
    (hblock : ReadsBack (fun _ => declarationBlock ctx .standard) (· = .openCurly) (fun _ => True)
      (some block) block.renderBraced) :
    RuleReadsBack (ruleWithin ctx) (.style parsed.list block) := by
  obtain ⟨ss, hss⟩ := hselectors
  obtain ⟨bs, hbs⟩ := hblock
  have hhead : ∀ tail : List Piece, headKind (ss ++ blank :: bs ++ tail) = k := by
    intro tail
    rw [List.append_assoc, hss.headKind_append]
    exact hss.starts
  refine ⟨ss ++ blank :: bs, ?_, hss.legible.append_blank hbs.legible, ?_, ?_⟩
  · rw [spell_append, hss.spell, spell_cons, hbs.spell, Rule.render, String.toList_append,
      String.toList_append, List.append_assoc]
    rfl
  · have hkind := hhead []
    rw [List.append_nil] at hkind
    rw [hkind]
    cases k <;> first | rfl | exact absurd hstarts (by decide)
  · intro bound input tail hahead _ hsize
    obtain ⟨n, rfl⟩ : ∃ n, bound = n + 1 := ⟨bound - 1, by omega⟩
    unfold ruleWithin
    apply Gives.inFrame
    apply Gives.view
    rw [hahead.kind, hhead tail, ruleStarting_style hstarts]
    rw [List.append_assoc] at hahead
    have hopen : endsSelectors (headKind (blank :: bs ++ tail)) = true := by
      have hbrace : headKind (blank :: bs ++ tail) = headKind bs := hbs.headKind_append tail
      rw [hbrace, hbs.starts]
      rfl
    unfold styleRule
    apply Gives.view
    apply Gives.bind (hss.gives (input.size + 1) input _ hahead hopen (Nat.lt_succ_self _))
    intro rest _ hrest
    simp only [hvalid, Bool.not_true, Bool.false_eq_true, if_false, if_true]
    apply Gives.bind (hbs.gives (rest.size + 1) rest tail (hrest.tail rfl) trivial
      (Nat.lt_succ_self _))
    intro rest' _ hrest'
    exact .pure hrest'

/-- A style rule that is read from a plain source is read back. -/
theorem styleRule_reads_back (hconfig : config.keepInvalidValues = false)
    (hstarts : startsStyle i.view.kind = true) (hplain : Plain i.pieces) :
    (styleRule (.ofConfig config)).Yields i fun result _ => ∀ r, result = some r →
      SingleReadsBack (.ofConfig config) r := by
  rw [styleRule_eq]
  apply Yields.view
  apply Yields.bind (selectors_read_back hplain)
  intro parsed rest hreach hparsed
  refine checkedBlock_reads_back hconfig (hreach.plain hplain) ?_
  intro block hvalid hblock
  exact ⟨rfl, by simp [Rule.mapParts],
    ruleReadsBack_of_style hstarts hvalid (hparsed hvalid) hblock⟩

/-! ### Rules -/

/-- Whatever rule was read is put together from rules of a sort that holds of all that are read back
and of the rules of unknown names that are kept. -/
theorem rule_grown (hinvalid : config.keepInvalidValues = false) {P : Rule → Prop}
    (hP : ∀ r, SingleReadsBack (.ofConfig config) r → P r)
    (hunknown : ∀ i : Input, Plain i.pieces → i.view.kind = .atKeyword →
      AtKeyword.ofName i.view.token.name = .unknown →
      (unknownRule (.ofConfig config) i.view.token.name i.view.token.span.start).Yields i.advance
        fun result _ => ∀ r, result = some r → r.nested? = none ∧ P r) (depth : Nat) :
    Offers (Grown config P) (ruleWithin (.ofConfig config) depth) := by
  induction depth with
  | zero =>
    intro i _
    exact .none
  | succ depth ih =>
    intro i hplain
    unfold ruleWithin
    apply Yields.inFrame
    apply Yields.view
    rcases ruleStarting_cases (.ofConfig config) (ruleWithin (.ofConfig config) depth) i.view.kind
      with hstyle | hkeyword | hnone | ⟨cause, habandoned⟩
    · rw [ruleStarting_style hstyle]
      refine (styleRule_reads_back hinvalid hstyle hplain).mono fun result _ h r hr => ?_
      exact .single (h r hr).nested (hP r (h r hr))
    · rw [hkeyword]
      change (atRule (.ofConfig config) _).Yields i _
      rw [atRule_eq]
      apply Yields.take
      split
      · next hname =>
        refine (hunknown i hplain hkeyword hname).mono fun result _ h r hr => ?_
        exact .single (h r hr).1 (h r hr).2
      · exact keywordRule_grown hinvalid hP ih _ ((Reaches.advance i).plain hplain)
    · rw [hnone]
      exact .none
    · rw [habandoned]
      exact abandonRule_none cause

/-- Whatever rule was read is read back from its print. -/
theorem rule_reads_back (hunknown : config.keepUnknownRules = false)
    (hinvalid : config.keepInvalidValues = false) (depth : Nat) :
    Offers (RuleReadsBack (ruleWithin (.ofConfig config)))
      (ruleWithin (.ofConfig config) depth) := by
  intro i hplain
  refine (rule_grown hinvalid (fun _ h => h.reads) ?_ depth i hplain).mono
    fun result _ h r hr => (h r hr).reads_back (advancing_ruleWithin _) ?_
  · intro i _ _ _
    refine (unknownRule_none hunknown _ _).mono fun result _ hdropped r hr => ?_
    rw [hdropped] at hr
    exact absurd hr (by simp)
  · rintro keyword hholds
    exact readsKeyword_ruleWithin (by rintro rfl; exact absurd hholds (by decide))

end Cssom.Grammar

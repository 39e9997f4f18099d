import Cssom.Declaration.Grammar
import Cssom.Proofs.Printing.Parts
import Cssom.Proofs.Printing.Value
import Cssom.Proofs.Reading.Names
import Cssom.Proofs.Reading.Termination
import Cssom.Proofs.Token.Adjacent
import Cssom.Proofs.Token.Recut
import Cssom.Rule.Body

/-!
# Declarations are read back

The name of a declaration is printed as it stood or in small letters, and stands for the same
property then (`propertyOf_name`). So a declaration is read back from its print
(`declaration_reads_back`), and a block from those of its declarations, no two of which have the
same name (`declarationBlock_reads_back`).
-/

namespace Cssom

/-! ### The properties that names stand for -/

namespace Vocabulary

/-- A name that is found is spelled as it stands, or in small letters, and its spelling is spelled
like itself. One that is not found is not there in small letters either, unless it is custom. -/
def SpellsAlike (spelling : String → Option String) (name : String) : Prop :=
  (∃ spelled, spelling name = some spelled ∧ spelling spelled = some spelled ∧
    (spelled = name ∨ spelled = Text.lower name)) ∨
  (spelling name = none ∧ (Property.isCustom name = false → spelling (Text.lower name) = none))

/-- A name that is looked up in a table is spelled as it stands or in small letters. -/
theorem spellsAlike_lookUp (table : List String) (name : String) :
    SpellsAlike (lookUp table) name := by
  rcases h : lookUp table name with _ | spelled
  · right
    rw [lookUp_lower]
    exact ⟨h, fun _ => h⟩
  · left
    have hspelled := eq_lower_of_lookUp h
    refine ⟨spelled, h, ?_, Or.inr hspelled⟩
    rw [hspelled, lookUp_lower, h, hspelled]

/-- The name of a standard property is spelled as it stands or in small letters. -/
theorem spellsAlike_standardProperty (name : String) : SpellsAlike standardProperty name := by
  have hlong : (Text.lower name).toList.length = name.toList.length := by simp
  rcases hcustom : Property.isCustom name && decide (2 < name.toList.length)
  · have hplain : standardProperty name = lookUp properties name := by
      rw [standardProperty, hcustom, if_neg Bool.false_ne_true]
    have hsmall : standardProperty (Text.lower name) = lookUp properties (Text.lower name) := by
      rw [standardProperty, isCustom_lower, hlong, hcustom, if_neg Bool.false_ne_true]
    rcases h : lookUp properties name with _ | spelled
    · right
      rw [hplain, hsmall, lookUp_lower]
      exact ⟨h, fun _ => h⟩
    · left
      have hspelled := eq_lower_of_lookUp h
      refine ⟨spelled, hplain.trans h, ?_, Or.inr hspelled⟩
      rw [hspelled, hsmall, lookUp_lower, h, hspelled]
  · have hname : standardProperty name = some name := by
      rw [standardProperty, hcustom, if_pos rfl]
    exact Or.inl ⟨name, hname, hname, Or.inl rfl⟩

/-- A name in the vocabulary is spelled as it stands or in small letters, whichever block it is
looked up for. -/
theorem spellsAlike_standard (set : BlockKind) (name : String) :
    SpellsAlike (standard.property set) name := by
  cases set with
  | standard => exact spellsAlike_standardProperty name
  | fontFace => exact spellsAlike_lookUp fontDescriptors name
  | viewport => exact spellsAlike_lookUp viewportDescriptors name

end Vocabulary

namespace Grammar

open Production Token Input

/-- The name of a placeholder is the name as it stands or in small letters, and names the same
placeholder. -/
theorem placeholder_name (name : String) :
    ((Property.placeholder name).name = name ∨ (Property.placeholder name).name = Text.lower name) ∧
      Property.placeholder (Property.placeholder name).name = .placeholder name := by
  rcases hcustom : Property.isCustom name
  · have hname : Property.placeholder name = ⟨Text.lower name, none, false, false⟩ := by
      rw [Property.placeholder, hcustom]
      rfl
    rw [hname]
    refine ⟨Or.inr rfl, ?_⟩
    rw [Property.placeholder, Vocabulary.isCustom_lower, hcustom, Text.lower_lower]
    rfl
  · have hname : Property.placeholder name = ⟨name, none, false, false⟩ := by
      rw [Property.placeholder, hcustom]
      rfl
    rw [hname]
    exact ⟨Or.inl rfl, hname⟩

/-- The name of a property is the one it was found by, as it stands or in small letters, and stands
for the same property. -/
theorem propertyOf_name (config : Config) (set : BlockKind) (name : String) :
    ((propertyOf (.ofConfig config) set name).name = name ∨
      (propertyOf (.ofConfig config) set name).name = Text.lower name) ∧
    propertyOf (.ofConfig config) set (propertyOf (.ofConfig config) set name).name =
      propertyOf (.ofConfig config) set name := by
  rcases hplaceholders : config.takesPlaceholders
  · have hof : ∀ name, propertyOf (.ofConfig config) set name =
        ((Vocabulary.standard.property set name).map .ofName).getD (.placeholder name) := by
      intro name
      rw [propertyOf, Context.ofConfig, hplaceholders]
      rfl
    rcases Vocabulary.spellsAlike_standard set name with
      ⟨spelled, hname, hspelled, hcase⟩ | ⟨hname, hlower⟩
    · have hproperty : propertyOf (.ofConfig config) set name = .ofName spelled := by
        rw [hof, hname]
        rfl
      rw [hproperty]
      refine ⟨hcase, ?_⟩
      rw [show (Property.ofName spelled).name = spelled from rfl, hof, hspelled]
      rfl
    · have hproperty : propertyOf (.ofConfig config) set name = .placeholder name := by
        rw [hof, hname]
        rfl
      rw [hproperty]
      refine ⟨(placeholder_name name).1, ?_⟩
      have hagain : Vocabulary.standard.property set (Property.placeholder name).name = none := by
        rcases hcustom : Property.isCustom name
        · rw [Property.placeholder, hcustom]
          exact hlower hcustom
        · rw [Property.placeholder, hcustom]
          exact hname
      rw [hof, hagain]
      exact (placeholder_name name).2
  · have hof : ∀ name, propertyOf (.ofConfig config) set name = .placeholder name := by
      intro name
      rw [propertyOf, Context.ofConfig, hplaceholders]
      rfl
    rw [hof name]
    refine ⟨(placeholder_name name).1, ?_⟩
    rw [hof]
    exact (placeholder_name name).2

variable {ctx : Context} {set : BlockKind} {i j : Input}

/-- A property is found without a move, and nothing but its name is reported. -/
theorem read_property (ctx : Context) (set : BlockKind) (name : String) (position : Position)
    (i : Input) : ∃ reports, (property ctx set name position).read i =
      ⟨propertyOf ctx set name, i, reports⟩ ∧ ∀ d ∈ reports, d.IsMild := by
  unfold property propertyOf
  split
  · exact ⟨[], rfl, List.forall_mem_nil _⟩
  · rcases ctx.vocabulary.property? set name with _ | found
    · refine ⟨[⟨.unknownDeclarationName name, position⟩], rfl, ?_⟩
      intro d hd
      rw [List.mem_singleton.1 hd]
      exact ⟨name, rfl⟩
    · exact ⟨[], rfl, List.forall_mem_nil _⟩

/-! ### Names -/

/-- Whether a name that was begun ends at a token. -/
def stopsName (name : String) (view : View) : Bool :=
  endsName view.kind || (!name.isEmpty && view.spacing.isOpen)

/-- Where a name stops nothing is read. -/
theorem read_nameFrom_stops (rounds : Nat) {name : String} (h : stopsName name i.view = true) :
    (nameFrom rounds name).read i = ⟨name, i, []⟩ := by
  rcases rounds with _ | rounds
  · rfl
  · unfold stopsName at h
    rw [nameFrom, read_bind, read_view]
    simp only [h, if_true]
    rfl

/-- Where a name goes on the token under the cursor is added to it. -/
theorem read_nameFrom_token (rounds : Nat) {name : String} (h : stopsName name i.view = false) :
    (nameFrom (rounds + 1) name).read i =
      (nameFrom rounds (name ++ i.view.token.text)).read i.advance := by
  unfold stopsName at h
  rw [nameFrom, read_bind, read_view]
  simp only [h, Bool.false_eq_true, if_false]
  rw [read_bind, read_skip]
  rfl

/-- The tokens of a name: significant ones that do not end it. -/
def AreName (ps : List Piece) : Prop :=
  ∀ p ∈ ps, p.1.isSignificant = true ∧ endsName p.1 = false

/-- A name goes on over tokens that nothing separates, behind trivia if it is yet to begin. -/
theorem nameFrom_adjacent (rounds : Nat) (hlexes : Lexes i.pieces []) (name : String) :
    (nameFrom rounds name).Yields i fun final rest =>
      ∃ lead ps, i.pieces = lead ++ (ps ++ rest.pieces) ∧ AreTrivia lead ∧
        (name.isEmpty = false → lead = []) ∧ final.toList = name.toList ++ spell ps ∧
          AreName ps := by
  have hstay : ∃ lead ps, i.pieces = lead ++ (ps ++ i.pieces) ∧ AreTrivia lead ∧
      (name.isEmpty = false → lead = []) ∧ name.toList = name.toList ++ spell ps ∧ AreName ps :=
    ⟨[], [], rfl, areTrivia_nil, fun _ => rfl, (List.append_nil _).symm, List.forall_mem_nil _⟩
  induction rounds generalizing name i with
  | zero => exact .pure hstay
  | succ rounds ih =>
    rcases hstops : stopsName name i.view
    case true =>
      unfold Production.Yields
      rw [read_nameFrom_stops (rounds + 1) hstops]
      exact hstay
    unfold Production.Yields
    rw [read_nameFrom_token rounds hstops]
    unfold stopsName at hstops
    rcases i.faces_cases with ⟨_, hkind, _⟩ | ⟨lead, p, src, hpieces, hlead, hp, hfaces⟩
    · rw [hkind] at hstops
      exact absurd hstops (by simp [endsName])
    rw [Bool.or_eq_false_iff, hfaces.kind, hfaces.spacing, isOpen_spacingOf] at hstops
    rw [hpieces] at hlexes
    obtain ⟨_, hfirst, hbehind⟩ := lexes_append.1 hlexes
    have hnext : (name ++ i.view.token.text).isEmpty = false := by
      rw [Bool.eq_false_iff, Ne, String.isEmpty_iff, ← String.toList_eq_nil_iff,
        String.toList_append, hfaces.text]
      simp [ne_nil_of_first hfirst]
    obtain ⟨between, ps, hsplit, _, hnone, hfinal, hps⟩ := ih (i := i.advance)
      (hfaces.advance ▸ hbehind) (name ++ i.view.token.text)
      ⟨[], [], rfl, areTrivia_nil, fun _ => rfl, (List.append_nil _).symm, List.forall_mem_nil _⟩
    rw [hnone hnext, hfaces.advance, List.nil_append] at hsplit
    refine ⟨lead, p :: ps, by rw [hpieces, hsplit]; rfl, hlead, fun hbegun => ?_, ?_, ?_⟩
    · rw [hbegun] at hstops
      simpa using hstops.2
    · rw [hfinal, String.toList_append, hfaces.text, spell_cons, List.append_assoc]
    · exact List.forall_mem_cons.2 ⟨⟨hp, hstops.1⟩, hps⟩

/-- The tokens of a name are read up to its colon. -/
theorem gives_nameFrom {ps : List Piece} (hps : AreName ps) (rounds : Nat) (name : String)
    (tail : List Piece) (hholds : j.Holds name.isEmpty (ps ++ (.colon, ":") :: tail))
    (hoffsets : j.offsets.Nodup) (hsize : j.size ≤ rounds) :
    (nameFrom rounds name).Gives j (name ++ String.ofList (spell ps)) ((.colon, ":") :: tail) := by
  induction ps generalizing rounds name j with
  | nil =>
    have hahead : j.Ahead ((.colon, ":") :: tail) := Ahead.of_holds hholds fun _ => hoffsets
    have hname : name ++ String.ofList (spell []) = name := by
      rw [spell_nil, String.ofList_nil, String.append_empty]
    have hstops : stopsName name j.view = true := by
      rw [stopsName, hahead.kind]
      rfl
    rw [hname]
    exact .of_read (read_nameFrom_stops rounds hstops) hahead
  | cons p ps ih =>
    unfold AreName at hps
    rw [List.forall_mem_cons] at hps
    have hspaced : Spaced name.isEmpty [] p.1 [] := by
      rcases name.isEmpty
      · exact Or.inr ⟨rfl, Or.inr (Or.inl ⟨rfl, Or.inl rfl⟩)⟩
      · exact Or.inl ⟨rfl, rfl⟩
    have hnone : j.Holds name.isEmpty ([] ++ p :: (ps ++ (.colon, ":") :: tail)) := hholds
    obtain ⟨before, hfaces, hbefore⟩ := hnone.faces hspaced hps.1.1
    have hstops : stopsName name j.view = false := by
      rw [stopsName, hfaces.kind, hps.1.2, Bool.false_or]
      rcases hfresh : name.isEmpty
      · rw [hfaces.spacing, hbefore hfresh]
        rfl
      · rfl
    obtain ⟨n, rfl⟩ : ∃ n, rounds = n + 1 := ⟨rounds - 1, by have := hfaces.size; omega⟩
    have hread := read_nameFrom_token n hstops
    have hnext := ih hps.2 n (name ++ j.view.token.text) (holds_advance hfaces)
      ((Reaches.advance j).nodup_offsets hoffsets) (by have := hfaces.size; omega)
    have hname : name ++ j.view.token.text ++ String.ofList (spell ps) =
        name ++ String.ofList (spell (p :: ps)) := by
      rw [spell_cons, String.ofList_append, String.ofList_toList, hfaces.text, String.append_assoc]
    rw [hname] at hnext
    exact hnext.congr hread

/-- What is spelled like some pieces, as they stand or in small letters, is cut into them. -/
theorem pieces_of_spelled {ps : List Piece} (h : Lexes ps []) {name spelled : String}
    (hname : name.toList = spell ps) (hspelled : spelled = name ∨ spelled = Text.lower name) :
    pieces spelled.toList = ps ∨ pieces spelled.toList = ps.map lowerPiece := by
  rcases hspelled with rfl | rfl
  · have hcut := pieces_of_lexes h
    rw [List.append_nil, pieces_nil, List.append_nil, ← hname] at hcut
    exact Or.inl hcut
  · have hcut := pieces_of_lexes h.lower
    rw [List.append_nil, pieces_nil, List.append_nil, spell_lower, ← hname,
      ← Text.toList_lower] at hcut
    exact Or.inr hcut

/-- The tokens of a name that was read up to its colon. -/
theorem exists_name (hlexes : Lexes i.pieces [])
    (hcolon : (declarationName.read i).rest.view.kind = .colon) :
    ∃ lead ps rest, i.pieces = lead ++ (ps ++ rest) ∧ AreName ps ∧
      (declarationName.read i).result.toList = spell ps ∧
      ∀ stage, shutFrom stage (spell rest) = false := by
  have hreads : declarationName.Yields i fun final rest =>
      ∃ lead ps, i.pieces = lead ++ (ps ++ rest.pieces) ∧ AreTrivia lead ∧
        ("".isEmpty = false → lead = []) ∧ final.toList = "".toList ++ spell ps ∧ AreName ps :=
    .view (nameFrom_adjacent i.view.size hlexes "")
  obtain ⟨lead, ps, hpieces, _, _, htext, hps⟩ := hreads
  refine ⟨lead, ps, _, hpieces, hps, htext, fun stage => ?_⟩
  obtain ⟨gap, more, hrest, hgap, _⟩ :=
    @faces_of_significant (declarationName.read i).rest (by rw [hcolon]; rfl)
  rw [hpieces] at hlexes
  have hbehind := (lexes_append.1 (lexes_append.1 hlexes).2).2
  rw [hrest] at hbehind ⊢
  have hpiece : (declarationName.read i).rest.view.token.piece = (.colon, ":") := by
    have hfirst := (lexes_append.1 hbehind).2.1
    have hkind : (declarationName.read i).rest.view.token.piece.1 = .colon := hcolon
    rw [hkind] at hfirst
    exact Prod.ext hkind (String.toList_inj.1 (toList_of_spelling hfirst rfl))
  rw [hpiece] at hbehind ⊢
  exact shutFrom_colon hgap hbehind

/-- All tokens of a name are intact. -/
def IntactName (name : String) : Prop :=
  ∀ p ∈ pieces name.toList, IsIntact p

instance (name : String) : Decidable (IntactName name) :=
  inferInstanceAs (Decidable (∀ p ∈ pieces name.toList, _ ∧ _))

/-- A name that was read up to its colon is printed, as it stands or in small letters. -/
theorem name_prints (hlexes : Lexes i.pieces [])
    (hcolon : (declarationName.read i).rest.view.kind = .colon)
    (hne : (declarationName.read i).result.isEmpty = false) {spelled : String}
    (hspelled : spelled = (declarationName.read i).result ∨
      spelled = Text.lower (declarationName.read i).result) (hintact : IntactName spelled) :
    ∃ ps, spell ps = spelled.toList ∧ Legible ps ∧ AreName ps := by
  obtain ⟨lead, ps, rest, hpieces, hps, hspell, hshut⟩ := exists_name hlexes hcolon
  rw [hpieces] at hlexes
  have hbehind := (lexes_append.1 hlexes).2
  have hcut := pieces_of_spelled (lexes_append.1 hbehind).1.alone hspell hspelled
  unfold IntactName at hintact
  have hnil : ps ≠ [] := by
    rintro rfl
    rw [spell_nil, String.toList_eq_nil_iff] at hspell
    rw [hspell] at hne
    cases hne
  have hlegible : Legible ps := by
    refine legible_adjacent hbehind (fun p hp => ⟨(hps p hp).1, ?_⟩) hshut hnil
    rcases hcut with hcut | hcut <;> rw [hcut] at hintact
    · exact hintact p hp
    · exact isIntact_lowerPiece.1 (hintact _ (List.mem_map_of_mem hp))
  rcases hspelled with rfl | rfl
  · exact ⟨ps, hspell.symm, hlegible, hps⟩
  · refine ⟨ps.map lowerPiece, ?_, hlegible.lower, ?_⟩
    · rw [spell_lower, ← hspell, Text.toList_lower]
    · intro p hp
      obtain ⟨q, hq, rfl⟩ := List.mem_map.1 hp
      exact hps q hq

/-- The names of a source without backslashes and unfinished strings are intact. -/
theorem intactName_of_plain (hplain : Plain i.pieces)
    (hcolon : (declarationName.read i).rest.view.kind = .colon) {spelled : String}
    (hspelled : spelled = (declarationName.read i).result ∨
      spelled = Text.lower (declarationName.read i).result) : IntactName spelled := by
  obtain ⟨lead, ps, rest, hpieces, _, hspell, _⟩ := exists_name hplain.lexes hcolon
  have hbehind := hplain.lexes
  rw [hpieces] at hbehind
  have hintact : ∀ p ∈ ps, IsIntact p := fun p hp => by
    have hmem : p ∈ i.pieces := by
      rw [hpieces]
      exact List.mem_append_right _ (List.mem_append_left _ hp)
    exact ⟨hplain.strings p hmem, fun hslash => hplain.regular.slash (hslash ▸ hmem)⟩
  intro p hp
  rcases pieces_of_spelled (lexes_append.1 (lexes_append.1 hbehind).2).1.alone hspell hspelled with
    hcut | hcut <;> rw [hcut] at hp
  · exact hintact p hp
  · obtain ⟨q, hq, rfl⟩ := List.mem_map.1 hp
    exact isIntact_lowerPiece.2 (hintact q hq)

/-! ### Declarations -/

/-- A declaration is printed as its name, a colon and its value. -/
theorem render_assign (property : Property) (v : Value) (important : Bool) :
    (property.assign v important).render = property.name ++ ": " ++ declaredText v important := by
  have hrender : (property.assign v important).render =
      property.name ++ ":" ++ (" " ++ v.text) ++ (if important then " !important" else "") := rfl
  rw [hrender, declaredText, ← String.toList_inj]
  simp

/-- A declaration is read back before any token. -/
def DeclarationReadsBack (ctx : Context) (set : BlockKind) (property : Property) : Prop :=
  ReadsBack (fun _ => declaration ctx set) (endsName · = false) (fun _ => True) (some property)
    (property.render ++ ";")

/-- What ends declarations ends values in parentheses too. -/
theorem declarationEnd_subset : declarationEnd ⊆ parenthesizedEnd := by
  decide

/-- The value of a declaration, and its semicolon, are read behind the colon. -/
theorem gives_declarationValue {v : Value} {important : Bool} {name : String}
    {property : Property} {vs tail : List Piece}
    (hvs : ReadsAs (fun _ => value declarationEnd) (fun _ => True) (EndsValue declarationEnd)
      ⟨some v, important, true⟩ (declaredText v important) vs)
    (hahead : j.Ahead (vs ++ (.semicolon, ";") :: tail)) :
    (declarationValue ctx name property).Gives j (some (property.assign v important)) tail := by
  have hread := hvs.gives (j.size + 1) j _ hahead (Or.inr rfl) (Nat.lt_succ_self _)
  apply Gives.bind hread
  intro rest _ hrest
  simp only [Bool.not_true, Bool.false_and, Bool.false_eq_true, if_false]
  apply Gives.bind (Gives.skipIf rfl hrest)
  intro rest' _ hrest'
  exact .pure hrest'

/-- A declaration is read from its name, its value and the marks behind them. -/
theorem declarationReadsBack_of_name {config : Config} {spelled : String} {property : Property}
    (hproperty : propertyOf (.ofConfig config) set spelled = property)
    (hname : property.name = spelled) {qs : List Piece}
    (hspell : spell qs = spelled.toList) (hlegible : Legible qs) (htokens : AreName qs)
    {v : Value} {important : Bool} {vs : List Piece}
    (hvs : ReadsAs (fun _ => value declarationEnd) (fun _ => True) (EndsValue declarationEnd)
      ⟨some v, important, true⟩ (declaredText v important) vs) :
    DeclarationReadsBack (.ofConfig config) set (property.assign v important) := by
  have hhead : headKind (qs ++ [(.colon, ":")] ++ blank :: vs ++ [(.semicolon, ";")]) =
      headKind qs := by
    obtain ⟨q, rest, rfl, hq⟩ := hlegible.head
    rw [List.cons_append, List.cons_append, List.cons_append, headKind_cons hq, headKind_cons hq]
  refine ⟨qs ++ [(.colon, ":")] ++ blank :: vs ++ [(.semicolon, ";")], ?_, ?_, ?_, ?_⟩
  · rw [render_assign, hname]
    simp [hspell, hvs.spell, blank]
  · exact ((hlegible.append_mark alone_colon rfl).append_blank hvs.legible).append_mark
      alone_semicolon rfl
  · rw [hhead]
    obtain ⟨q, rest, rfl, hq⟩ := hlegible.head
    rw [headKind_cons hq]
    exact (htokens q List.mem_cons_self).2
  · intro _ input tail hahead _ _
    have hpieces : qs ++ [(.colon, ":")] ++ blank :: vs ++ [(.semicolon, ";")] ++ tail =
        qs ++ (.colon, ":") :: blank :: (vs ++ (.semicolon, ";") :: tail) := by
      simp
    rw [hpieces] at hahead
    have hread := gives_nameFrom htokens input.size "" _ hahead.holds (hahead.offsets trivial)
      (Nat.le_refl _)
    have hresult : "" ++ String.ofList (spell qs) = spelled := by
      rw [hspell, String.ofList_toList, String.empty_append]
    rw [hresult] at hread
    have hne : spelled.isEmpty = false := by
      rw [Bool.eq_false_iff, Ne, String.isEmpty_iff, ← String.toList_eq_nil_iff, ← hspell]
      exact hlegible.spell_ne_nil
    apply Gives.inFrame
    apply Gives.view
    apply Gives.bind (p := declarationName) (Gives.view hread)
    intro rest _ hrest
    simp only [hne, Bool.false_eq_true, if_false]
    obtain ⟨reports, hfound, hmild⟩ :=
      read_property (.ofConfig config) set spelled input.view.position rest
    apply Gives.step hfound hmild
    apply Gives.view
    simp only [hrest.kind, headKind_cons (p := ((.colon, ":") : Piece)) rfl, if_true]
    apply Gives.skip
    rw [hproperty]
    exact gives_declarationValue hvs ((hrest.advance rfl).tail rfl)

/-- A declaration that is passed over gives nothing. -/
theorem abandonDeclaration_none :
    abandonDeclaration.Yields i fun result _ => result = none := by
  unfold abandonDeclaration
  apply Yields.bind_any
  intro _ rest _
  apply Yields.bind_any
  intro _ rest' _
  exact .pure rfl

/-- How a declaration was read: from a name before a colon, and from what is behind that as a value,
which was accepted, or kept all the same. -/
structure Declared (ctx : Context) (set : BlockKind) (i : Input) (property : Property) : Prop where
  colon : (declarationName.read i).rest.view.kind = .colon
  named : (declarationName.read i).result.isEmpty = false
  valued : ∃ v parsed,
    ((value declarationEnd).read (declarationName.read i).rest.advance).result = parsed ∧
      parsed.value = some v ∧ (parsed.valid = true ∨ ctx.config.keepInvalidValues = true) ∧
      property = (propertyOf ctx set (declarationName.read i).result).assign v parsed.important

/-- Every declaration that is given was read so. -/
theorem declaration_declared : (declaration ctx set).Yields i fun result _ => ∀ property,
    result = some property → Declared ctx set i property := by
  have habandoned : ∀ {rest : Input}, abandonDeclaration.Yields rest fun result _ =>
      ∀ property, result = some property → Declared ctx set i property := by
    intro rest
    refine abandonDeclaration_none.mono fun result _ hresult property hproperty => ?_
    rw [hresult] at hproperty
    cases hproperty
  unfold declaration
  apply Yields.inFrame
  apply Yields.view
  refine Yields.bind (Q := fun name rest => rest = (declarationName.read i).rest ∧
    name = (declarationName.read i).result) ⟨rfl, rfl⟩ fun name rest _ hname => ?_
  obtain ⟨rfl, rfl⟩ := hname
  split
  · apply Yields.view
    split
    · exact Yields.bind_any fun _ _ _ => habandoned
    · exact habandoned
  next hne =>
  obtain ⟨reports, hfound, _⟩ := read_property ctx set (declarationName.read i).result
    i.view.position (declarationName.read i).rest
  apply Yields.step hfound
  apply Yields.view
  split
  case isFalse => exact Yields.bind_any fun _ _ _ => habandoned
  next hcolon =>
  apply Yields.skip
  refine Yields.bind (Q := fun parsed _ => ((value declarationEnd).read
    (declarationName.read i).rest.advance).result = parsed) rfl fun parsed rest _ hparsed => ?_
  rcases hvalue : parsed.value with _ | v
  · exact Yields.bind_any fun _ _ _ => habandoned
  dsimp only
  split
  · exact Yields.bind_any fun _ _ _ => habandoned
  next haccepted =>
  apply Yields.bind_any
  intro _ rest' _
  apply Yields.some
  exact ⟨hcolon, Bool.eq_false_iff.2 hne, v, parsed, hparsed, hvalue, by
    simpa [or_iff_not_imp_left] using haccepted, rfl⟩

/-- The text of a value, with its mark, is read as that value. -/
def ValueReadsBack (v : Value) (important : Bool) : Prop :=
  ReadsBack (fun _ => value declarationEnd) (fun _ => True) (EndsValue declarationEnd)
    ⟨some v, important, true⟩ (declaredText v important)

namespace Declared

variable {config : Config} {property : Property}

/-- A value that had to be accepted is read back, if no backslash is a token by itself. -/
theorem value_reads_back (h : Declared ctx set i property)
    (hconfig : ctx.config.keepInvalidValues = false) (hregular : Regular i.pieces) :
    ∀ v ∈ property.value, ValueReadsBack v property.important := by
  obtain ⟨v, ⟨value, important, valid⟩, hparsed, rfl, haccepted, rfl⟩ := h.valued
  have hbehind : Regular (declarationName.read i).rest.advance.pieces :=
    ((declarationName.read_reaches i).trans (Reaches.advance _)).regular hregular
  have hreads := @Grammar.value_reads_back declarationEnd _ True declarationEnd_subset hbehind
  unfold Production.Yields at hreads
  rw [hparsed] at hreads
  obtain rfl : valid = true := haccepted.resolve_right (by rw [hconfig]; decide)
  obtain ⟨_, v', hv', hprints⟩ := hreads rfl
  intro w hw
  obtain rfl := Option.some.inj (show some v = some w from hw)
  obtain rfl := Option.some.inj hv'
  exact hprints

/-- The name of a declaration is the one that was read, as it stands or in small letters. -/
theorem name_eq (h : Declared (.ofConfig config) set i property) :
    property.name = (declarationName.read i).result ∨
      property.name = Text.lower (declarationName.read i).result := by
  obtain ⟨v, parsed, _, _, _, rfl⟩ := h.valued
  exact (propertyOf_name config set (declarationName.read i).result).1

/-- A declaration is read back if its name is intact and its value is read back. -/
theorem reads_back (h : Declared (.ofConfig config) set i property) (hlexes : Lexes i.pieces [])
    (hname : IntactName property.name)
    (hvalue : ∀ v ∈ property.value, ValueReadsBack v property.important) :
    DeclarationReadsBack (.ofConfig config) set property := by
  obtain ⟨qs, hspell, hlegible, htokens⟩ := name_prints hlexes h.colon h.named h.name_eq hname
  obtain ⟨v, parsed, _, _, _, rfl⟩ := h.valued
  obtain ⟨vs, hvs⟩ : ValueReadsBack v parsed.important := hvalue v rfl
  have hagain := (propertyOf_name config set (declarationName.read i).result).2
  exact declarationReadsBack_of_name hagain rfl hspell hlegible htokens hvs

end Declared

/-- A declaration of a plain source is read back, if its value must be one. -/
theorem declaration_reads_back {config : Config} (hconfig : config.keepInvalidValues = false)
    (hplain : Plain i.pieces) :
    (declaration (.ofConfig config) set).Yields i fun result _ => ∀ property,
      result = some property → DeclarationReadsBack (.ofConfig config) set property :=
  declaration_declared.mono fun _ _ hdeclared property hproperty =>
    let h := hdeclared property hproperty
    h.reads_back hplain.lexes (intactName_of_plain hplain h.colon h.name_eq)
      (h.value_reads_back hconfig hplain.regular)

/-! ### Blocks of declarations -/

/-- No two declarations of a block have the same name, and something holds of all of them: that they
are read back, or what makes them so. -/
structure BlockHolds (R : Property → Prop) (block : Block) : Prop where
  names : (block.properties.map Property.name).Nodup
  declarations : ∀ property ∈ block.properties, R property

variable {R : Property → Prop}

/-- Anything holds of the declarations of the empty block. -/
theorem blockHolds_empty : BlockHolds R .empty :=
  ⟨List.nodup_nil, List.forall_mem_nil _⟩

/-- What a block holds after a property is set was set, or was there before. -/
theorem mem_setIn {property q : Property} {properties : List Property}
    (h : q ∈ Block.setIn property properties) : q = property ∨ q ∈ properties := by
  induction properties with
  | nil => exact Or.inl (List.mem_singleton.1 h)
  | cons p properties ih =>
    rw [Block.setIn] at h
    split at h
    · exact (List.mem_cons.1 h).imp_right (List.mem_cons_of_mem _)
    · rcases List.mem_cons.1 h with rfl | h
      · exact Or.inr List.mem_cons_self
      · exact (ih h).imp_right (List.mem_cons_of_mem _)

/-- Where the name is new the property comes last. -/
theorem setIn_of_not_mem {property : Property} {properties : List Property}
    (h : property.name ∉ properties.map Property.name) :
    Block.setIn property properties = properties ++ [property] := by
  induction properties with
  | nil => rfl
  | cons p properties ih =>
    rw [List.map_cons, List.mem_cons, not_or] at h
    rw [Block.setIn, if_neg (Ne.symm h.1), ih h.2, List.cons_append]

/-- A property whose name is in a block already leaves the names there as they are. -/
theorem names_setIn_of_mem {property : Property} {properties : List Property}
    (h : property.name ∈ properties.map Property.name) :
    (Block.setIn property properties).map Property.name = properties.map Property.name := by
  induction properties with
  | nil => exact absurd h List.not_mem_nil
  | cons p properties ih =>
    rw [Block.setIn]
    split
    · next hname => rw [List.map_cons, List.map_cons, hname]
    · next hname =>
      rw [List.map_cons, List.mem_cons] at h
      rw [List.map_cons, List.map_cons, ih (h.resolve_left (Ne.symm hname))]

/-- What holds of the declarations of a block holds with one more of which it holds. -/
theorem BlockHolds.declare {block : Block} {property : Property} (h : BlockHolds R block)
    (hproperty : R property) : BlockHolds R (block.set property) where
  names := by
    by_cases hmem : property.name ∈ block.properties.map Property.name
    · rw [Block.set, names_setIn_of_mem hmem]
      exact h.names
    · rw [Block.set, setIn_of_not_mem hmem, List.map_append, List.map_singleton]
      refine List.nodup_append.2 ⟨h.names, by simp, ?_⟩
      rintro name hname _ hlast rfl
      exact hmem (List.mem_singleton.1 hlast ▸ hname)
  declarations q hq := by
    rcases mem_setIn hq with rfl | hq
    · exact hproperty
    · exact h.declarations q hq

section Reading

/-! What holds of every declaration that is read from inputs of some sort, to which all belong that
are reached from one, holds of the blocks that are read from them. -/

variable {P : Input → Prop} (hreaches : ∀ {a b : Input}, a.Reaches b → P a → P b)
  (hdeclaration : ∀ {i : Input}, P i → (declaration ctx set).Yields i fun result _ =>
    ∀ property, result = some property → R property)
include hreaches hdeclaration

/-- What holds of each declaration that is read holds of the block that is read. -/
theorem declarationsFrom_holds (rounds : Nat) {block : Block} (hi : P i)
    (hblock : BlockHolds R block) :
    (declarationsFrom ctx set rounds block).Yields i fun block _ => BlockHolds R block := by
  induction rounds generalizing block i with
  | zero => exact .pure hblock
  | succ rounds ih =>
    unfold declarationsFrom
    apply Yields.view
    split
    · exact .pure hblock
    · exact .pure hblock
    · exact .skip (ih (hreaches (Reaches.advance i) hi) hblock)
    · apply Yields.bind (hdeclaration hi)
      intro parsed rest hreach hparsed
      apply Yields.bind_any
      intro _ rest' hreach'
      apply ih (hreaches (hreach.trans hreach') hi)
      rcases parsed with _ | property
      · exact hblock
      · exact hblock.declare (hparsed property rfl)

end Reading

/-- The blank before the first of some pieces may be left out. -/
theorem ahead_join {pss : List (List Piece)} {tail : List Piece}
    (h : j.Ahead (pss.flatMap (blank :: ·) ++ tail)) :
    j.Ahead ([blank].intercalate pss ++ tail) := by
  rcases pss with _ | ⟨ps, pss⟩
  · exact h
  · rw [join_cons]
    exact h.tail rfl

/-- What follows the declarations of a block. -/
def EndsBlock (k : Kind) : Prop :=
  k = .closeCurly ∨ k = .eof

/-- Declarations between blanks are read into a block that has none of their names. -/
theorem gives_declarationsFrom {properties : List Property} {pss : List (List Piece)}
    (h : List.Forall₂ (fun property ps => ReadsAs (fun _ => declaration ctx set)
      (endsName · = false) (fun _ => True) (some property) (property.render ++ ";") ps)
      properties pss) (rounds : Nat) (block : Block) {tail : List Piece}
    (hnames : ((block.properties ++ properties).map Property.name).Nodup)
    (hahead : j.Ahead ([blank].intercalate pss ++ tail)) (hend : EndsBlock (headKind tail))
    (hsize : j.size ≤ rounds) :
    (declarationsFrom ctx set rounds block).Gives j ⟨block.properties ++ properties⟩ tail := by
  induction h generalizing rounds block j with
  | nil =>
    rw [List.append_nil]
    rcases rounds with _ | rounds
    · exact .pure hahead
    · unfold declarationsFrom
      apply Gives.view
      have hkind : j.view.kind = headKind tail := hahead.kind
      rcases hend with hend | hend <;>
      · rw [hkind, hend]
        exact .pure hahead
  | @cons property ps properties pss hps _ ih =>
    rw [join_cons, List.append_assoc] at hahead
    have hkind : endsName j.view.kind = false := by
      rw [hahead.kind, hps.headKind_append]
      exact hps.starts
    have hends : endsRule j.view.kind = false := by
      rcases hk : j.view.kind <;> rw [hk] at hkind <;> first | rfl | exact absurd hkind (by decide)
    have htokens : (Parser.ofInput j false).hasTokens = true :=
      Parser.hasTokens_of_kind rfl fun heof => by
        rw [show j.view.kind = .eof from heof] at hkind
        exact absurd hkind (by decide)
    have hadvances : (declaration ctx set).Advances (.ofInput j false) :=
      advances_declaration set htokens hends
    have hnew : property.name ∉ block.properties.map Property.name := by
      rw [List.map_append, List.map_cons] at hnames
      intro hmem
      exact (List.nodup_append.1 hnames).2.2 _ hmem _ List.mem_cons_self rfl
    obtain ⟨n, rfl⟩ : ∃ n, rounds = n + 1 := by
      refine ⟨rounds - 1, ?_⟩
      have := size_read_lt hadvances
      omega
    have hset : block.set property = ⟨block.properties ++ [property]⟩ := by
      rw [Block.set, setIn_of_not_mem hnew]
    unfold declarationsFrom
    apply Gives.view
    split
    · next hclose => rw [hclose] at hends; exact absurd hends (by decide)
    · next heof => rw [heof] at hkind; exact absurd hkind (by decide)
    · next hsemicolon => rw [hsemicolon] at hends; exact absurd hends (by decide)
    · apply Gives.guarded hadvances (hahead.offsets trivial)
        (hps.gives (j.size + 1) j _ hahead trivial (Nat.lt_succ_self _))
      intro rest _ hrest hlt
      have hnext := ih n (block.set property) (by rw [hset]; simpa using hnames)
        (ahead_join hrest) (by omega)
      rw [hset] at hnext
      rw [Option.map_some, Option.getD_some, hset]
      simpa using hnext

/-- A brace is read where it stands. -/
theorem gives_blockOpening {tail : List Piece} {placed : Prop}
    (h : j.Ahead ((.openCurly, "\x7b") :: tail) placed) :
    blockOpening.Gives j true tail placed := by
  unfold blockOpening
  apply Gives.kind
  rw [h.kind, headKind_cons rfl]
  apply Gives.skip
  exact .pure (h.advance rfl)

/-- Texts between blanks, behind a blank. -/
theorem flatMap_blank {ls : List (List Char)} (h : ls ≠ []) :
    ls.flatMap (' ' :: ·) = ' ' :: [' '].intercalate ls := by
  induction ls with
  | nil => exact absurd rfl h
  | cons l ls ih =>
    rcases ls with _ | ⟨l', ls⟩
    · rw [List.flatMap_singleton, List.intercalate_singleton]
    · rw [List.flatMap_cons, ih (List.cons_ne_nil _ _), List.intercalate_cons_cons]
      simp

/-- A block in braces is printed as its declarations in braces, each with its semicolon. -/
theorem renderBraced_eq (block : Block) : block.renderBraced =
    Rule.braced (block.properties.map fun property => property.render ++ ";") := by
  rw [Block.renderBraced, Rule.braced, ← String.toList_inj, Block.isEmpty, Block.render]
  rcases block.properties with _ | ⟨p, properties⟩
  · rfl
  · have hne : ((p :: properties).map fun property => (property.render ++ ";").toList) ≠ [] := by
      simp
    have hblanks := flatMap_blank hne
    simp only [List.isEmpty_cons, Bool.false_eq_true, if_false, String.toList_append,
      String.toList_intercalate, String.toList_join, List.map_map, List.flatMap_map,
      Function.comp_def] at hblanks ⊢
    rw [show (" " : String).toList = [' '] from rfl]
    simp only [List.singleton_append]
    rw [hblanks]
    simp

/-- A block whose declarations are read back is read back. -/
theorem BlockHolds.reads_back {block : Block}
    (h : BlockHolds (DeclarationReadsBack ctx set) block) :
    ReadsBack (fun _ => declarationBlock ctx set) (· = .openCurly) (fun _ => True) (some block)
      block.renderBraced := by
  obtain ⟨pss, hpss⟩ := exists_readsAs h.declarations
  obtain ⟨hlegible, hspell⟩ := legible_of_forall₂ hpss
  refine ⟨bracedPieces pss, ?_, legible_braced hlegible, rfl, ?_⟩
  · rw [spell_braced hspell, renderBraced_eq]
  · intro _ input tail hahead _ _
    rw [bracedPieces, List.cons_append, List.append_assoc] at hahead
    apply Gives.bind (gives_blockOpening hahead)
    intro rest _ hrest
    have hdeclarations := gives_declarationsFrom hpss rest.view.size .empty
      (by simpa [Block.empty] using h.names) (ahead_join hrest) (Or.inl rfl) (Nat.le_refl _)
    apply Gives.bind (p := Grammar.declarations ctx set .empty) (Gives.view hdeclarations)
    intro rest' _ hrest'
    apply Gives.bind (Gives.skipIf rfl (hrest'.tail rfl))
    intro rest'' _ hrest''
    exact .pure hrest''

/-- A block of declarations that was read is read back from its print. -/
theorem declarationBlock_reads_back {config : Config}
    (hconfig : config.keepInvalidValues = false) (hplain : Plain i.pieces) :
    (declarationBlock (.ofConfig config) set).Yields i fun result _ => ∀ block,
      result = some block → ReadsBack (fun _ => declarationBlock (.ofConfig config) set)
        (· = .openCurly) (fun _ => True) (some block) block.renderBraced := by
  unfold declarationBlock
  apply Yields.bind_any
  intro opened rest hreach
  split
  · apply Yields.bind (p := declarations (.ofConfig config) set .empty)
      (Yields.view (declarationsFrom_holds Reaches.plain (declaration_reads_back hconfig) _
        (hreach.plain hplain) blockHolds_empty))
    intro block rest' _ hblock
    apply Yields.bind_any
    intro _ rest'' _
    apply Yields.some
    exact hblock.reads_back
  · exact .none

end Grammar

end Cssom

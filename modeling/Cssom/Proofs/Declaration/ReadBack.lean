import Cssom.Proofs.Printing.Declaration
import Cssom.Proofs.Printing.Sources

/-!
# Which declarations are read back

The declarations that a source lists are printed so that they are read back, under any configuration
(`declaration_lists_read_back`), if nothing takes in the mark that is printed behind it: no name
ends in an unfinished string or in a backslash by itself, and each value is one by itself, which one
that leaves a bracket open is not. Values that had to be accepted are, unless the source has a
backslash by itself.
-/

namespace Cssom

open Production Token Grammar

/-- The text of a value, with its mark, is by itself read as that value. -/
structure StandsAlone (v : Value) (important : Bool) : Prop where
  slash : ∀ t ∈ tokenize (declaredText v important) none, t.kind = .delim → t.text ≠ "\\"
  read : ((value declarationEnd).run
    (.ofTokens (tokenize (declaredText v important) none) .strict)).1 = ⟨some v, important, true⟩

/-- A value stands alone if no backslash of its text is a token by itself, and the text, read to its
end, is the value again and accepted. -/
theorem standsAlone_iff {v : Value} {important : Bool} : StandsAlone v important ↔
    (∀ t ∈ tokenize (declaredText v important) none, t.kind = .delim → t.text ≠ "\\") ∧
      ((value declarationEnd).run
        (.ofTokens (tokenize (declaredText v important) none) .strict)).1 =
          ⟨some v, important, true⟩ :=
  ⟨fun h => ⟨h.slash, h.read⟩, fun ⟨hslash, hread⟩ => ⟨hslash, hread⟩⟩

instance (v : Value) (important : Bool) : Decidable (StandsAlone v important) :=
  decidable_of_iff _ standsAlone_iff.symm

/-- A value that stands alone is read back. -/
theorem StandsAlone.reads_back {v : Value} {important : Bool} (h : StandsAlone v important) :
    ValueReadsBack v important := by
  have hparsed := (@value_reads_back declarationEnd _ True declarationEnd_subset
    (regular_tokenize h.slash)).run (s := .ofTokens _ .strict)
  rw [h.read] at hparsed
  obtain ⟨_, v', hv', hreads⟩ := hparsed rfl
  obtain rfl := Option.some.inj hv'
  exact hreads

namespace Grammar

variable {ctx : Context} {i j : Input} {R : Property → Prop}

/-- If each declaration that is read has a property in common, so have all those of a list. -/
theorem declarationListFrom_holds {P : Input → Prop}
    (hreaches : ∀ {a b : Input}, a.Reaches b → P a → P b)
    (hdeclaration : ∀ {i : Input}, P i → (declaration ctx .standard).Yields i fun result _ =>
      ∀ property, result = some property → R property)
    (rounds : Nat) {block : Block} (hi : P i) (hblock : BlockHolds R block) :
    (declarationListFrom ctx rounds block).Yields i fun block _ => BlockHolds R block := by
  induction rounds generalizing block i with
  | zero => exact .pure hblock
  | succ rounds ih =>
    unfold declarationListFrom
    apply Yields.view
    split
    · exact .pure hblock
    · apply Yields.bind (p := declarations ctx .standard block)
        (Yields.view (declarationsFrom_holds hreaches hdeclaration _ hi hblock))
      intro read rest hreach hread
      apply Yields.view
      split
      · apply Yields.bind_any
        intro _ rest' hreach'
        exact .skip (ih (hreaches ((hreach.trans hreach').trans (Input.Reaches.advance _)) hi)
          hread)
      · exact ih (hreaches hreach hi) hread

/-- Nothing is read where nothing is left. -/
theorem gives_declarationListFrom_end (rounds : Nat) (block : Block) (h : j.Ahead []) :
    (declarationListFrom ctx rounds block).Gives j block [] := by
  rcases rounds with _ | rounds
  · exact .pure h
  · have hatEnd : j.view.atEnd = true := beq_iff_eq.2 h.kind
    unfold declarationListFrom
    apply Gives.view
    rw [hatEnd]
    exact .pure h

/-- Declarations between blanks are read as a list, if there is any. -/
theorem gives_declarationListFrom {property : Property} {properties : List Property}
    {pss : List (List Piece)}
    (hpss : List.Forall₂ (fun property ps => ReadsAs (fun _ => declaration ctx .standard)
      (endsName · = false) (fun _ => True) (some property) (property.render ++ ";") ps)
      (property :: properties) pss)
    (hnames : ((property :: properties).map Property.name).Nodup)
    (hj : j.Ahead ([blank].intercalate pss)) :
    (declarationListFrom ctx j.size .empty).Gives j ⟨property :: properties⟩ [] := by
  have hread := @gives_declarationsFrom _ _ j _ _ hpss j.view.size .empty [] hnames
    (by rwa [List.append_nil]) (Or.inr rfl) (Nat.le_refl _)
  have hkind : endsName j.view.kind = false := by
    cases hpss with
    | cons hps _ =>
      rw [hj.kind, join_cons, hps.headKind_append]
      exact hps.starts
  have hne : j.view.kind ≠ .eof := fun heof => by
    rw [heof] at hkind
    cases hkind
  have hatEnd : j.view.atEnd = false := beq_eq_false_iff_ne.2 hne
  obtain ⟨n, hn⟩ : ∃ n, j.size = n + 1 := by
    rcases j.faces_cases with ⟨_, heof, _⟩ | ⟨_, _, _, _, _, _, hfaces⟩
    · exact absurd heof hne
    · exact ⟨_, hfaces.size⟩
  rw [hn]
  unfold declarationListFrom
  apply Gives.view
  simp only [hatEnd, Bool.false_eq_true, if_false]
  apply Gives.bind (p := declarations ctx .standard .empty) (Gives.view hread)
  intro rest _ hrest
  have hend : rest.view.kind ≠ .closeCurly := by
    rw [hrest.kind]
    decide
  apply Gives.view
  simp only [hend, if_false]
  exact gives_declarationListFrom_end n _ hrest

/-- A block of declarations that are read back is read from its print. -/
theorem exists_printed_block {block : Block}
    (h : BlockHolds (DeclarationReadsBack ctx .standard) block) :
    ∃ ps, spell ps = block.render.toList ∧ Lexes ps [] ∧
      ∀ j : Input, j.Ahead ps → (declarationList ctx).Gives j block [] := by
  obtain ⟨pss, hpss⟩ := exists_readsAs h.declarations
  obtain ⟨hlegible, hspell⟩ := legible_of_forall₂ hpss
  refine ⟨[blank].intercalate pss, ?_, ?_, fun j hj => ?_⟩
  · rw [spell_join, hspell, Block.render, String.toList_intercalate]
    rfl
  · rcases pss with _ | ⟨ps, pss⟩
    · trivial
    · have hseparates : Separates [blank] := fun _ _ hps hqs => hps.append_blank hqs
      exact (legible_join hseparates hlegible (List.cons_ne_nil _ _)).lexes [] (Or.inl rfl)
  · obtain ⟨properties⟩ := block
    apply Gives.view
    rcases properties with _ | ⟨property, properties⟩
    · cases hpss
      exact gives_declarationListFrom_end _ _ hj
    · exact gives_declarationListFrom hpss h.names hj

/-- What is read of a list of declarations was read from somewhere in it. -/
theorem declarationList_declared : (declarationList ctx).Yields i fun block _ =>
    BlockHolds (fun property => ∃ rest, i.Reaches rest ∧ Declared ctx .standard rest property)
      block :=
  .view (declarationListFrom_holds (fun hreach hrest => hrest.trans hreach)
    (fun {rest} hrest => declaration_declared.mono fun _ _ hdeclared property hproperty =>
      ⟨rest, hrest, hdeclared property hproperty⟩) _ (.refl i) blockHolds_empty)

end Grammar

/-- What is listed as declarations in a source is printed so that it is read back, under the same
configuration, if each name is intact and each value is one by itself; where values must be accepted
and no backslash is a token by itself, they are. -/
theorem declaration_lists_read_back (source : String) (file file' : Option String) (config : Config)
    (tokens : List Token) (hscan : Token.scan source file = .ok tokens) (block : Block)
    (hblock : (Block.parse tokens config).1 = block)
    (hnames : ∀ p ∈ block.properties, IntactName p.name)
    (hvalues : (config.keepInvalidValues = false ∧
        ∀ t ∈ tokens, t.kind = .delim → t.text ≠ "\\") ∨
      ∀ p ∈ block.properties, ∀ v ∈ p.value, StandsAlone v p.important)
    (hsmall : block.render.utf8ByteSize < 2 ^ 32) :
    ∃ again, Token.scan block.render file' = .ok again ∧ (Block.parse again config).1 = block ∧
      (Block.parse again config).2.rest = [] := by
  rw [scan_eq_tokenize, Except.ok.injEq] at hscan
  subst hscan
  have hlexes := lexes_tokenize source file
  have hread := (@declarationList_declared (.ofConfig config) _).run
    (s := .ofTokens (tokenize source file) config)
  rw [show ((declarationList (.ofConfig config)).run (.ofTokens (tokenize source file) config)).1 =
    block from hblock] at hread
  have hprints : BlockHolds (DeclarationReadsBack (.ofConfig config) .standard) block := by
    refine ⟨hread.names, fun p hp => ?_⟩
    obtain ⟨rest, hreach, hdeclared⟩ := hread.declarations p hp
    obtain ⟨before, hbefore⟩ := hreach.pieces
    refine hdeclared.reads_back ?_ (hnames p hp) fun v hv => ?_
    · exact (lexes_append.1 (hbefore ▸ hlexes)).2
    · rcases hvalues with ⟨hconfig, hslash⟩ | halone
      · exact hdeclared.value_reads_back hconfig (hreach.regular (regular_tokenize hslash)) v hv
      · exact (halone p hp v hv).reads_back
  obtain ⟨ps, hspell, hprinted, hgives⟩ := exists_printed_block hprints
  have hahead := @ahead_tokenize _ file' _ True hspell hprinted fun _ => hsmall
  exact ⟨_, scan_eq_tokenize _ _, run_of_gives (hgives _ hahead) config⟩

/-- A value that is kept although its mark stands in the middle, a name of marks and a string, and
one with an escape; but a backslash that ends a name escapes the colon behind it. -/
theorem declaration_lists_read_back_kept :
    let source := "*\"x;\":a!important/**/b;\\;y:\x7b(c);\x7d"
    let kept := (Block.parse (tokenize source none) .tolerant).1
    let slashed := (Block.parse (tokenize "x\\\n: y" none) .strict).1
    (kept.render = "*\"x;\": a b !important; \\;y: \x7b(c);\x7d;" ∧
      ∃ again, Token.scan kept.render none = .ok again ∧ (Block.parse again .tolerant).1 = kept ∧
        (Block.parse again .tolerant).2.rest = []) ∧
    slashed.render = "x\\: y;" ∧ ¬ (∀ p ∈ slashed.properties, IntactName p.name) ∧
      (Block.parse (tokenize slashed.render none) .strict).1 ≠ slashed := by
  intro source kept slashed
  refine ⟨⟨by decide +kernel, ?_⟩, by decide +kernel⟩
  exact declaration_lists_read_back source none none .tolerant _ (scan_eq_tokenize _ _) kept rfl
    (by decide +kernel) (Or.inr (by decide +kernel)) (by decide +kernel)

end Cssom

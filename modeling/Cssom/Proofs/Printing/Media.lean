import Cssom.Media.Grammar
import Cssom.Proofs.Printing.Lists
import Cssom.Proofs.Printing.Value

/-!
# Media lists are read back

The names of types and features are printed in small letters, in which they are found again. A
medium whose type goes without saying is printed without it, and read as what names features alone
(`medium_reads_back`). A list that could not be read was replaced by `not all`, which can
(`mediaList_reads_back`).
-/

namespace Cssom.Grammar

open Production Token Input

variable {config : Config} {ctx : Context} {i j : Input} {placed : Prop}

/-! ### Features -/

/-- A feature has the spelling under which it is standard; any other may be kept in small
letters. -/
theorem featureOf_eq (config : Config) (name : String) : featureOf (.ofConfig config) name =
    ((Vocabulary.standardFeature name).map fun spelling => ⟨spelling, none⟩).or
      (if config.keepUnknownFeatures then some ⟨Text.lower name, none⟩ else none) := by
  have hfeature : (Context.ofConfig config).vocabulary.feature? name =
      (Vocabulary.standardFeature name).map fun spelling => ⟨spelling, none⟩ := rfl
  rw [featureOf, hfeature]
  rcases Vocabulary.standardFeature name with _ | spelling
  · rfl
  · rfl

/-- The spelling of a standard feature is in small letters. -/
theorem eq_lower_of_standardFeature {name spelled : String}
    (h : Vocabulary.standardFeature name = some spelled) : spelled = Text.lower name := by
  obtain ⟨found, hfound⟩ : ∃ found : Bool, Vocabulary.standardFeature name =
      if found then some (Text.lower name) else none := ⟨_, rfl⟩
  rw [hfound] at h
  split at h
  · exact (Option.some.inj h).symm
  · exact absurd h (by simp)

/-- A feature is found in small letters as it is found in others. -/
theorem standardFeature_lower (name : String) :
    Vocabulary.standardFeature (Text.lower name) = Vocabulary.standardFeature name := by
  unfold Vocabulary.standardFeature
  rw [Text.lower_lower]

/-- A feature is found by its name in small letters too, and has that name. -/
theorem featureOf_lower {name : String} {f : Feature}
    (h : featureOf (.ofConfig config) name = some f) :
    f = ⟨Text.lower name, none⟩ ∧ featureOf (.ofConfig config) (Text.lower name) = some f := by
  have hlower : featureOf (.ofConfig config) (Text.lower name) =
      featureOf (.ofConfig config) name := by
    rw [featureOf_eq, featureOf_eq, standardFeature_lower, Text.lower_lower]
  refine ⟨?_, hlower.trans h⟩
  rw [featureOf_eq] at h
  rcases hname : Vocabulary.standardFeature name with _ | spelled
  · rw [hname, Option.map_none, Option.none_or] at h
    split at h
    · exact (Option.some.inj h).symm
    · exact absurd h (by simp)
  · rw [hname, Option.map_some, Option.some_or] at h
    rw [← eq_lower_of_standardFeature hname]
    exact (Option.some.inj h).symm

/-- A feature is read back before any token. -/
def FeatureReadsBack (ctx : Context) (f : Feature) (placed : Prop := True) : Prop :=
  ReadsBack (fun _ => feature ctx) (· = .openParen) (fun _ => True) (some f) f.render placed

/-- A closing parenthesis that is ahead closes a feature. -/
theorem gives_closeFeature {f : Feature} {tail : List Piece}
    (h : j.Ahead ((.closeParen, ")") :: tail) placed) :
    (closeFeature f).Gives j (some f) tail placed := by
  unfold closeFeature
  apply Gives.kind
  rw [h.kind, headKind_cons rfl, if_pos rfl]
  apply Gives.skip
  exact .pure (h.advance rfl)

/-- A feature is read from its name on, which is found, and what stands behind the name. -/
theorem gives_feature {name : String} {named whole : Feature} {behind tail : List Piece}
    (hnamed : featureOf ctx name = some named)
    (h : j.Ahead ((.openParen, "(") :: (.ident, name) :: (behind ++ (.closeParen, ")") :: tail))
      placed)
    (hvalue : ∀ input : Input, input.Ahead (behind ++ (.closeParen, ")") :: tail) placed →
      (featureValue named).Gives input (some whole) ((.closeParen, ")") :: tail) placed) :
    (feature ctx).Gives j (some whole) tail placed := by
  have hname := h.advance rfl
  apply Gives.inFrame
  apply Gives.kind
  rw [h.kind, headKind_cons rfl, if_neg (by simp)]
  apply Gives.skip
  apply Gives.kind
  rw [hname.kind, headKind_cons rfl, if_neg (by simp)]
  apply Gives.take
  rw [hname.text rfl, hnamed]
  apply Gives.bind (hvalue _ (hname.advance rfl))
  intro rest _ hrest
  exact gives_closeFeature hrest

/-- A feature without a value is read back. -/
theorem bareFeature_reads_back {name : String} (hlegible : Legible [(.ident, name)])
    (hname : featureOf ctx name = some ⟨name, none⟩) :
    FeatureReadsBack ctx ⟨name, none⟩ placed := by
  refine ⟨[(.openParen, "("), (.ident, name), (.closeParen, ")")], ?_, ?_, rfl, ?_⟩
  · simp [Feature.render]
  · exact .cons_alone alone_openParen (hlegible.append_mark alone_closeParen rfl)
  · intro _ input tail hahead _ _
    have hpieces : input.Ahead ((.openParen, "(") :: (.ident, name) ::
        ([] ++ (.closeParen, ")") :: tail)) placed := hahead
    refine gives_feature hname hpieces fun rest hrest => ?_
    unfold featureValue
    apply Gives.kind
    rw [List.nil_append] at hrest
    rw [hrest.kind, headKind_cons rfl, if_neg (by simp)]
    exact .pure hrest

/-- A feature with a value is read back. -/
theorem valuedFeature_reads_back {name : String} {parsed : ParsedValue} {v : Value}
    (hlegible : Legible [(.ident, name)]) (hname : featureOf ctx name = some ⟨name, none⟩)
    (hvalue : parsed.value = some v) (hvalid : parsed.valid = true)
    (himportant : parsed.important = false)
    (hparsed : ReadsBack (fun _ => value parenthesizedEnd) (fun _ => True)
      (EndsValue parenthesizedEnd) parsed (declaredText v parsed.important) placed) :
    FeatureReadsBack ctx ⟨name, some v⟩ placed := by
  obtain ⟨vs, hvs⟩ := hparsed
  refine ⟨(.openParen, "(") :: ([(.ident, name)] ++ [(.colon, ":")] ++ blank :: vs ++
    [(.closeParen, ")")]), ?_, ?_, rfl, ?_⟩
  · have hspell := hvs.spell
    rw [himportant, declaredText, if_neg Bool.false_ne_true, String.append_empty] at hspell
    simp [Feature.render, hspell, blank]
  · apply Legible.cons_alone alone_openParen
    exact ((hlegible.append_mark alone_colon rfl).append_blank hvs.legible).append_mark
      alone_closeParen rfl
  · intro _ input tail hahead _ _
    have hpieces : (.openParen, "(") :: ([(.ident, name)] ++ [(.colon, ":")] ++ blank :: vs ++
        [(.closeParen, ")")]) ++ tail = ((.openParen, "(") : Piece) :: (.ident, name) ::
          ((.colon, ":") :: blank :: vs ++ (.closeParen, ")") :: tail) := by
      simp
    rw [hpieces] at hahead
    refine gives_feature hname hahead fun rest hrest => ?_
    unfold featureValue
    apply Gives.kind
    rw [hrest.kind, List.cons_append, headKind_cons rfl, if_pos rfl]
    apply Gives.skip
    have hread := hvs.gives (rest.advance.size + 1) rest.advance _ ((hrest.advance rfl).tail rfl)
      (Or.inr rfl) (Nat.lt_succ_self _)
    apply Gives.bind hread
    intro rest' _ hrest'
    rw [hvalid, himportant, hvalue]
    exact .pure hrest'

/-- A feature that was read is read back from its print. -/
theorem feature_reads_back (hregular : Regular i.pieces) :
    (feature (.ofConfig config)).Yields i fun result _ => ∀ f,
      result = some f → FeatureReadsBack (.ofConfig config) f placed := by
  unfold feature
  apply Yields.inFrame
  apply Yields.kind
  split
  · exact .none
  apply Yields.skip
  apply Yields.kind
  split
  · exact .none
  next hident =>
  have hident : i.advance.view.kind = .ident := by simpa using hident
  have hadvance : Regular i.advance.pieces := (Reaches.advance i).regular hregular
  apply Yields.take
  rcases hfound : featureOf (.ofConfig config) i.advance.view.token.text with _ | named
  · exact .none
  obtain ⟨rfl, hagain⟩ := featureOf_lower hfound
  have hlegible := (legible_word hadvance hident).2
  refine Yields.bind (Q := fun whole _ => ∀ f, whole = some f →
    FeatureReadsBack (.ofConfig config) f placed) ?_ fun whole rest _ hwhole => ?_
  · unfold featureValue
    apply Yields.kind
    split
    · apply Yields.skip
      have hbehind := (Reaches.advance _).regular ((Reaches.advance _).regular hadvance)
      apply Yields.bind (value_reads_back (List.Subset.refl _) hbehind)
      intro parsed rest _ hparsed
      split
      · exact .none
      next hsound =>
      have hsound : parsed.valid = true ∧ parsed.important = false := by
        rcases hv : parsed.valid <;> rcases hi : parsed.important <;> simp_all
      obtain ⟨_, v, hv, hreads⟩ := hparsed hsound.1
      refine .pure fun f hf => ?_
      rw [← Option.some.inj hf, hv]
      exact valuedFeature_reads_back hlegible hagain hv hsound.1 hsound.2 hreads
    · apply Yields.some
      exact bareFeature_reads_back hlegible hagain
  · rcases whole with _ | f
    · exact .none
    unfold closeFeature
    apply Yields.kind
    split
    · apply Yields.skip
      apply Yields.some
      exact hwhole f rfl
    · exact .none

/-! ### Media -/

/-- A medium is read back before any token but a word. -/
def MediumReadsBack (ctx : Context) (m : Medium) (placed : Prop := True) : Prop :=
  ReadsBack (fun _ => medium ctx) (fun k => k = .ident ∨ k = .openParen) (· ≠ .ident) (some m)
    m.render placed

/-- The pieces of features are those of each. -/
abbrev FeaturesReadAs (ctx : Context) (fs : List Feature) (pss : List (List Piece))
    (placed : Prop := True) : Prop :=
  List.Forall₂ (fun f ps => ReadsAs (fun _ => feature ctx) (· = .openParen) (fun _ => True) (some f)
    f.render ps placed) fs pss

/-- Features, each behind the word `and`. -/
def chained (pss : List (List Piece)) : List Piece :=
  pss.flatMap (wordSeparator "and" ++ ·)

/-- Features that are ahead, each behind the word `and`, are read into the medium. -/
theorem gives_featuresFrom {fs : List Feature} {pss : List (List Piece)}
    (h : FeaturesReadAs ctx fs pss placed) (rounds : Nat) (m : Medium) {tail : List Piece}
    (hahead : j.Ahead (chained pss ++ tail) placed) (hend : headKind tail ≠ .ident)
    (hsize : j.size ≤ rounds) : (featuresFrom ctx rounds m).Gives j
      (some { m with features := m.features ++ fs }) tail placed := by
  induction h generalizing rounds m j with
  | nil =>
    have hword : j.view.token.isWord "and" = false := by
      apply isWord_of_kind
      rw [hahead.kind]
      exact hend
    rw [List.append_nil]
    rcases rounds with _ | rounds
    · exact .pure hahead
    · unfold featuresFrom
      apply Gives.view
      rw [hword]
      exact .pure hahead
  | @cons f ps fs pss hps _ ih =>
    have hpieces : chained (ps :: pss) ++ tail =
        blank :: (.ident, "and") :: blank :: (ps ++ (chained pss ++ tail)) := by
      simp [chained, wordSeparator]
    rw [hpieces] at hahead
    have hand : j.Ahead ((.ident, "and") :: blank :: (ps ++ (chained pss ++ tail))) placed :=
      hahead.tail rfl
    have hword : j.view.token.isWord "and" = true := by
      rw [isWord_of_ahead hand]
      decide
    have hfeature : j.advance.Ahead (ps ++ (chained pss ++ tail)) placed :=
      (hand.advance rfl).tail rfl
    have hlt := hand.size rfl
    obtain ⟨n, rfl⟩ : ∃ n, rounds = n + 1 := ⟨rounds - 1, by omega⟩
    unfold featuresFrom
    apply Gives.view
    rw [if_pos hword]
    apply Gives.skip
    apply Gives.bind (hps.gives (j.advance.size + 1) _ _ hfeature trivial (Nat.lt_succ_self _))
    intro rest hreach hrest
    have hle := hreach.size_le
    have hnext := ih n { m with features := m.features ++ [f] } hrest (by omega)
    simpa using hnext

/-- Features alone are a medium whose type goes without saying. -/
theorem implicitMedium_reads_back {fs : List Feature} (hne : fs ≠ [])
    (hfs : ∀ f ∈ fs, FeatureReadsBack ctx f placed) :
    MediumReadsBack ctx ⟨"all", false, false, fs⟩ placed := by
  obtain ⟨pss, hpss⟩ := exists_readsAs hfs
  obtain ⟨hlegible, hspell⟩ := legible_of_forall₂ hpss
  rcases hpss with _ | @⟨f, ps, fs, pss, hps, hmore⟩
  · exact absurd rfl hne
  refine ⟨(wordSeparator "and").intercalate (ps :: pss), ?_, ?_, ?_, ?_⟩
  · rw [spell_join, hspell, Medium.render, String.toList_intercalate]
    rfl
  · exact legible_join (separates_word legible_and) hlegible (List.cons_ne_nil _ _)
  · rw [join_cons, hps.headKind_append]
    exact Or.inr hps.starts
  · intro _ input tail hahead hend _
    rw [join_cons, List.append_assoc] at hahead
    have hkind : input.view.kind = .openParen := by
      rw [hahead.kind, hps.headKind_append]
      exact hps.starts
    apply Gives.inFrame
    apply Gives.view
    rw [hkind]
    apply Gives.bind (hps.gives (input.size + 1) _ _ hahead trivial (Nat.lt_succ_self _))
    intro rest _ hrest
    exact Gives.view (gives_featuresFrom hmore rest.view.size _ hrest hend (Nat.le_refl _))

/-- Whether a word may be the type of a medium, given what stands before it. -/
def IsTypeName (typeName : String) (modified : Bool) : Prop :=
  Text.lower typeName = typeName ∧ Text.sameLetters typeName "and" = false ∧
    (modified = false →
      Text.sameLetters typeName "not" = false ∧ Text.sameLetters typeName "only" = false)

/-- What is printed before the type of a medium. -/
def modifierPieces (reversed guarded : Bool) : List Piece :=
  if reversed then [(.ident, "not"), blank] else if guarded then [(.ident, "only"), blank] else []

/-- A type that is ahead is read with the features behind it. -/
theorem gives_typedMedium {typeName : String} {reversed guarded : Bool} {fs : List Feature}
    {pss : List (List Piece)} {tail : List Piece} (h : FeaturesReadAs ctx fs pss placed)
    (hname : Text.lower typeName = typeName) (hand : Text.sameLetters typeName "and" = false)
    (hahead : j.Ahead ((.ident, typeName) :: (chained pss ++ tail)) placed)
    (hend : headKind tail ≠ .ident) : (typedMedium ctx reversed guarded).Gives j
      (some ⟨typeName, reversed, guarded, fs⟩) tail placed := by
  have hword : j.view.token.isWord "and" = false := by
    rw [isWord_of_ahead hahead]
    exact hand
  have hkind : j.view.kind = .ident := hahead.kind
  unfold typedMedium
  apply Gives.view
  rw [if_neg (by simp [hkind, hword])]
  apply Gives.skip
  rw [hahead.text rfl, hname]
  exact Gives.view (gives_featuresFrom h _ ⟨typeName, reversed, guarded, []⟩ (hahead.advance rfl)
    hend (Nat.le_refl _))

/-- A medium that names its type is read back. -/
theorem typedMedium_reads_back {m : Medium} (hlegible : Legible [(.ident, m.typeName)])
    (hname : IsTypeName m.typeName (m.reversed || m.guarded))
    (hone : (m.reversed && m.guarded) = false) (himplicit : m.isImplicit = false)
    (hfs : ∀ f ∈ m.features, FeatureReadsBack ctx f placed) : MediumReadsBack ctx m placed := by
  obtain ⟨pss, hpss⟩ := exists_readsAs hfs
  obtain ⟨hlegibles, hspell⟩ := legible_of_forall₂ hpss
  obtain ⟨typeName, reversed, guarded, fs⟩ := m
  obtain ⟨hlower, hand, hunmodified⟩ := hname
  simp only at hlegible hlower hand hunmodified hone hpss
  have hhead : Legible (modifierPieces reversed guarded ++ [(.ident, typeName)]) := by
    unfold modifierPieces
    split
    · exact legible_not.append_blank hlegible
    · split
      · exact legible_only.append_blank hlegible
      · exact hlegible
  have hjoined := legible_join (separates_word legible_and)
    (List.forall_mem_cons.2 ⟨hhead, hlegibles⟩) (List.cons_ne_nil _ _)
  refine ⟨_, ?_, hjoined, ?_, ?_⟩
  · have htype : spell (modifierPieces reversed guarded ++ [(.ident, typeName)]) =
        ((if reversed then "not " else if guarded then "only " else "") ++ typeName).toList := by
      rcases reversed <;> rcases guarded <;> simp [modifierPieces, blank]
    rw [spell_join, List.map_cons, hspell, Medium.render, himplicit, htype,
      String.toList_intercalate]
    rfl
  · left
    rw [join_cons, modifierPieces]
    rcases reversed <;> rcases guarded <;> rfl
  · intro _ input tail hahead hend _
    have hpieces : (wordSeparator "and").intercalate ((modifierPieces reversed guarded ++
        [(.ident, typeName)]) :: pss) ++ tail =
          modifierPieces reversed guarded ++ (.ident, typeName) :: (chained pss ++ tail) := by
      rw [join_cons, chained]
      simp
    rw [hpieces] at hahead
    apply Gives.inFrame
    apply Gives.view
    rcases reversed
    · rcases guarded
      · have hkind : input.view.kind = .ident := hahead.kind
        obtain ⟨hnot, honly⟩ := hunmodified rfl
        rw [hkind]
        simp only [isWord_of_ahead hahead, hnot, honly, Bool.false_eq_true, if_false]
        exact gives_typedMedium hpss hlower hand hahead hend
      · have honly : input.Ahead ((.ident, "only") :: blank :: (.ident, typeName) ::
            (chained pss ++ tail)) placed := hahead
        have hkind : input.view.kind = .ident := honly.kind
        rw [hkind]
        simp only [isWord_of_ahead honly, show Text.sameLetters "only" "not" = false by decide,
          show Text.sameLetters "only" "only" = true by decide, Bool.false_eq_true, if_false,
          if_true]
        apply Gives.skip
        exact gives_typedMedium hpss hlower hand ((honly.advance rfl).tail rfl) hend
    · have hguarded : guarded = false := by simpa using hone
      have hnot : input.Ahead ((.ident, "not") :: blank :: (.ident, typeName) ::
          (chained pss ++ tail)) placed := hahead
      have hkind : input.view.kind = .ident := hnot.kind
      rw [hkind, hguarded]
      simp only [isWord_of_ahead hnot, show Text.sameLetters "not" "not" = true by decide, if_true]
      apply Gives.skip
      exact gives_typedMedium hpss hlower hand ((hnot.advance rfl).tail rfl) hend

/-- The features behind a type are read back, and nothing else of the medium changes. -/
theorem featuresFrom_read_back (rounds : Nat) (m : Medium) (hregular : Regular i.pieces) :
    (featuresFrom (.ofConfig config) rounds m).Yields i fun result _ => ∀ m', result = some m' →
      ∃ fs, m' = { m with features := m.features ++ fs } ∧
        ∀ f ∈ fs, FeatureReadsBack (.ofConfig config) f placed := by
  have hdone : ∀ m' : Medium, some m = some m' →
      ∃ fs, m' = { m with features := m.features ++ fs } ∧
        ∀ f ∈ fs, FeatureReadsBack (.ofConfig config) f placed := by
    intro m' hm'
    refine ⟨[], ?_, List.forall_mem_nil _⟩
    rw [List.append_nil, ← Option.some.inj hm']
  induction rounds generalizing m i with
  | zero => exact .pure hdone
  | succ rounds ih =>
    unfold featuresFrom
    apply Yields.view
    split
    · have hadvance := (Reaches.advance i).regular hregular
      apply Yields.skip
      apply Yields.bind (feature_reads_back hadvance)
      intro parsed rest hreach hparsed
      rcases parsed with _ | f
      · exact .none
      refine (ih { m with features := m.features ++ [f] } (hreach.regular hadvance) ?_).mono ?_
      · intro m' hm'
        refine ⟨[], ?_, List.forall_mem_nil _⟩
        rw [List.append_nil, ← Option.some.inj hm']
      · intro result _ hresult m' hm'
        obtain ⟨fs, rfl, hfs⟩ := hresult m' hm'
        refine ⟨f :: fs, ?_, List.forall_mem_cons.2 ⟨hparsed f rfl, hfs⟩⟩
        simp
    · exact .pure hdone

/-- The features that are read into a medium are read back. -/
theorem features_read_back (placed : Prop) (m : Medium) (hregular : Regular i.pieces) :
    (features (.ofConfig config) m).Yields i fun result _ => ∀ m', result = some m' →
      ∃ fs, m' = { m with features := m.features ++ fs } ∧
        ∀ f ∈ fs, FeatureReadsBack (.ofConfig config) f placed :=
  .view (featuresFrom_read_back _ m hregular)

/-- A medium with the type and the features that it was read with is read back. -/
theorem medium_reads_back_of_type {m : Medium} (hlegible : Legible [(.ident, m.typeName)])
    (hname : IsTypeName m.typeName (m.reversed || m.guarded))
    (hone : (m.reversed && m.guarded) = false)
    (hfs : ∀ f ∈ m.features, FeatureReadsBack ctx f placed) : MediumReadsBack ctx m placed := by
  rcases himplicit : m.isImplicit
  · exact typedMedium_reads_back hlegible hname hone himplicit hfs
  · obtain ⟨typeName, reversed, guarded, fs⟩ := m
    simp only [Medium.isImplicit, Bool.and_eq_true, beq_iff_eq, Bool.not_eq_true',
      List.isEmpty_eq_false_iff] at himplicit
    obtain ⟨⟨⟨rfl, hne⟩, rfl⟩, rfl⟩ := himplicit
    exact implicitMedium_reads_back hne hfs

/-- A medium with a type is read back, if that type is no word that would come before one. -/
theorem typedMedium_yields {reversed guarded : Bool} (hregular : Regular i.pieces)
    (hone : (reversed && guarded) = false)
    (hword : (reversed || guarded) = false → i.view.token.isWord "not" = false ∧
      i.view.token.isWord "only" = false) :
    (typedMedium (.ofConfig config) reversed guarded).Yields i fun result _ => ∀ m,
      result = some m → MediumReadsBack (.ofConfig config) m placed := by
  unfold typedMedium
  apply Yields.view
  split
  · exact .none
  next htype =>
  rw [Bool.or_eq_true, not_or, decide_eq_true_eq, not_not] at htype
  obtain ⟨hkind, hand⟩ := htype
  have hsame : ∀ keyword, i.view.token.isWord keyword =
      Text.sameLetters i.view.token.text keyword := by
    intro keyword
    rw [Token.isWord, show i.view.token.kind = .ident from hkind]
    rfl
  rw [hsame, Bool.not_eq_true] at hand
  apply Yields.skip
  refine (features_read_back placed _ ((Reaches.advance i).regular hregular)).mono ?_
  intro result _ hresult m hm
  obtain ⟨fs, rfl, hfs⟩ := hresult m hm
  refine medium_reads_back_of_type (legible_word hregular hkind).2 ⟨?_, ?_, ?_⟩ hone ?_
  · exact Text.lower_lower _
  · simp only [sameLetters_lower, hand]
  · intro hmodified
    obtain ⟨hnot, honly⟩ := hword hmodified
    rw [hsame] at hnot honly
    simp only [sameLetters_lower, hnot, honly, and_self]
  · exact hfs

/-- A medium that was read is read back from its print. -/
theorem medium_reads_back (hregular : Regular i.pieces) :
    (medium (.ofConfig config)).Yields i fun result _ => ∀ m,
      result = some m → MediumReadsBack (.ofConfig config) m placed := by
  have hadvance := (Reaches.advance i).regular hregular
  unfold medium
  apply Yields.inFrame
  apply Yields.view
  split
  · split
    · exact .skip (typedMedium_yields hadvance rfl fun h => absurd h (by decide))
    · next hnot =>
      split
      · exact .skip (typedMedium_yields hadvance rfl fun h => absurd h (by decide))
      · next honly =>
        refine typedMedium_yields hregular rfl fun _ => ?_
        exact ⟨Bool.eq_false_iff.2 hnot, Bool.eq_false_iff.2 honly⟩
  · apply Yields.bind (feature_reads_back hregular)
    intro parsed rest hreach hparsed
    rcases parsed with _ | first
    · exact .none
    refine (features_read_back placed _ (hreach.regular hregular)).mono ?_
    intro result _ hresult m hm
    obtain ⟨fs, rfl, hfs⟩ := hresult m hm
    apply implicitMedium_reads_back (List.append_ne_nil_of_left_ne_nil (List.cons_ne_nil _ _) _)
    exact List.forall_mem_cons.2 ⟨hparsed first rfl, hfs⟩
  · exact .none

/-! ### Media lists -/

/-- A media list is read back before the token that should follow it. -/
def MediaReadsBack (ctx : Context) (terminator : Kind) (list : MediaList)
    (placed : Prop := True) : Prop :=
  ReadsBack (fun _ => mediaList ctx terminator) (fun k => k = .ident ∨ k = .openParen)
    (· = terminator) list list.render placed

/-- A list of media that are read back is read back. -/
theorem mediaReadsBack_of_media {terminator : Kind} {ms : List Medium} (hne : ms ≠ [])
    (hms : ∀ m ∈ ms, MediumReadsBack ctx m placed) (hword : terminator ≠ .ident)
    (hcomma : terminator ≠ .comma) : MediaReadsBack ctx terminator ⟨ms⟩ placed := by
  obtain ⟨pss, hpss⟩ := exists_readsAs hms
  obtain ⟨hlegible, hspell⟩ := legible_of_forall₂ hpss
  have hnil : pss ≠ [] := by
    rintro rfl
    rcases hpss with _ | _
    exact hne rfl
  refine ⟨commaSeparator.intercalate pss, ?_, legible_join separates_comma hlegible hnil, ?_, ?_⟩
  · rw [spell_join, hspell, MediaList.render, String.toList_intercalate]
    rfl
  · rcases hpss with _ | ⟨hps, _⟩
    · exact absurd rfl hnil
    · rw [join_cons, hps.headKind_append]
      exact hps.starts
  · intro _ input tail hahead hend _
    have hread := gives_separatedFrom (by simp) hpss hne (input.view.size + 1) [] hahead
      (by rw [hend]; exact hword) (by rw [hend]; exact hcomma) (Nat.lt_succ_self _)
    rw [← mediaFrom_eq] at hread
    apply Gives.enclosed
    apply Gives.view
    apply Gives.bind hread
    intro rest _ hrest
    apply Gives.view
    rw [hrest.kind, if_pos hend]
    exact .pure hrest

/-- A media list that was read is not empty, and is read back from its print. -/
theorem mediaList_reads_back (placed : Prop) {terminator : Kind} (hregular : Regular i.pieces)
    (hword : terminator ≠ .ident) (hcomma : terminator ≠ .comma) :
    (mediaList (.ofConfig config) terminator).Yields i fun list _ =>
      list.isEmpty = false ∧ MediaReadsBack (.ofConfig config) terminator list placed := by
  have hnever : MediaReadsBack (.ofConfig config) terminator .unreadable placed := by
    refine mediaReadsBack_of_media (List.cons_ne_nil _ _) ?_ hword hcomma
    intro m hm
    rw [List.mem_singleton.1 hm]
    refine medium_reads_back_of_type ?_ ⟨?_, ?_, ?_⟩ rfl (List.forall_mem_nil _)
    · exact legible_identifier (by decide)
    · decide
    · decide
    · exact fun h => absurd h (by decide)
  unfold mediaList
  apply Yields.enclosed
  apply Yields.view
  rw [mediaFrom_eq]
  apply Yields.bind (separatedFrom_yields (fun _ _ => Reaches.regular)
    (fun _ => medium_reads_back) _ hregular (List.forall_mem_nil _))
  intro media rest _ hmedia
  apply Yields.view
  split
  · next ms hms =>
    have hfound : media = some ms := by
      split at hms
      · exact hms
      · exact absurd hms (by simp)
    obtain ⟨hreads, hne⟩ := hmedia ms hfound
    have hne := hne (Or.inl (Nat.succ_pos _))
    refine .pure ⟨?_, mediaReadsBack_of_media hne hreads hword hcomma⟩
    simpa [MediaList.isEmpty] using hne
  · apply Yields.bind_any
    intro _ rest' _
    exact .pure ⟨rfl, hnever⟩

end Cssom.Grammar

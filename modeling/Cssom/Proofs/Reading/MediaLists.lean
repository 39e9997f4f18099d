import Cssom.Parser.Entry
import Cssom.Proofs.Printing.Media
import Cssom.Proofs.Printing.Parts
import Cssom.Proofs.Printing.Sources
import Cssom.Proofs.Reading.Values
import Cssom.Proofs.Recovery.Brackets
import Cssom.Proofs.Token.Scan

/-!
# What media lists are

A media list derives from a grammar of its significant tokens: media between commas, each a type
with features or features alone. The productions read just that. What they read derives, up to
where they stopped (`feature_sound`, `medium_sound`, `media_sound`), and they read what derives if
nothing that goes on with it follows (`feature_complete`, `medium_complete`, `media_complete`). A
list is read as a whole or is `not all` (`media_lists_are_whole`).
-/

namespace Cssom

open Production Token

/-! ### The grammar -/

/-- A feature may have a name that the vocabulary in common use has; under a configuration that
keeps unknown features, any. -/
def IsFeatureName (config : Config) (name : String) : Prop :=
  (Vocabulary.standard.feature? name).isSome = true ∨ config.keepUnknownFeatures = true

/-- A feature: a name in parentheses, perhaps with a colon and a value, whose tokens nest. -/
inductive Feature.Derives (config : Config) : List Seen → Feature → Prop
  | bare {opening name closing : Seen} (hopening : opening.1.kind = .openParen)
      (hname : name.1.kind = .ident) (known : IsFeatureName config name.1.text)
      (hclosing : closing.1.kind = .closeParen) :
      Derives config [opening, name, closing] ⟨Text.lower name.1.text, none⟩
  | valued {opening name colon closing : Seen} {v : List Seen}
      (hopening : opening.1.kind = .openParen) (hname : name.1.kind = .ident)
      (known : IsFeatureName config name.1.text) (hcolon : colon.1.kind = .colon) (hne : v ≠ [])
      (hvalue : NestsUnder [] v) (hclosing : closing.1.kind = .closeParen) :
      Derives config (opening :: name :: colon :: (v ++ [closing]))
        ⟨Text.lower name.1.text, some ⟨textOf v⟩⟩

/-- Features, each after the word `and`. -/
inductive FeaturesDerive (config : Config) : List Seen → List Feature → Prop
  | nil : FeaturesDerive config [] []
  | cons {word : Seen} {used more : List Seen} {feature : Feature} {features : List Feature}
      (hword : word.1.isWord "and" = true) (hfeature : feature.Derives config used)
      (hfeatures : FeaturesDerive config more features) :
      FeaturesDerive config (word :: (used ++ more)) (feature :: features)

/-- Whether a token may be the type of a medium: any identifier but `and`. -/
def IsTypeWord (token : Token) : Prop :=
  token.kind = .ident ∧ token.isWord "and" = false

/-- A medium: a type, perhaps after `not` or `only`, or a feature, and the features after. A leading
`not` or `only` is no type. -/
inductive Medium.Derives (config : Config) : List Seen → Medium → Prop
  | reversed {word typeWord : Seen} {more : List Seen} {features : List Feature}
      (hword : word.1.isWord "not" = true) (htype : IsTypeWord typeWord.1)
      (hfeatures : FeaturesDerive config more features) :
      Derives config (word :: typeWord :: more)
        ⟨Text.lower typeWord.1.text, true, false, features⟩
  | guarded {word typeWord : Seen} {more : List Seen} {features : List Feature}
      (hword : word.1.isWord "only" = true) (htype : IsTypeWord typeWord.1)
      (hfeatures : FeaturesDerive config more features) :
      Derives config (word :: typeWord :: more)
        ⟨Text.lower typeWord.1.text, false, true, features⟩
  | typed {typeWord : Seen} {more : List Seen} {features : List Feature}
      (htype : IsTypeWord typeWord.1) (hnot : typeWord.1.isWord "not" = false)
      (honly : typeWord.1.isWord "only" = false) (hfeatures : FeaturesDerive config more features) :
      Derives config (typeWord :: more) ⟨Text.lower typeWord.1.text, false, false, features⟩
  | featured {used more : List Seen} {feature : Feature} {features : List Feature}
      (hfeature : feature.Derives config used) (hfeatures : FeaturesDerive config more features) :
      Derives config (used ++ more) ⟨"all", false, false, feature :: features⟩

/-- A media list: media between commas, one at least. -/
inductive MediaDerive (config : Config) : List Seen → List Medium → Prop
  | single {used : List Seen} {medium : Medium} (hmedium : medium.Derives config used) :
      MediaDerive config used [medium]
  | cons {used more : List Seen} {comma : Seen} {medium : Medium} {media : List Medium}
      (hmedium : medium.Derives config used) (hcomma : comma.1.kind = .comma)
      (hmedia : MediaDerive config more media) :
      MediaDerive config (used ++ comma :: more) (medium :: media)

/-- A medium derives from some tokens. -/
theorem Medium.Derives.ne_nil {config : Config} {used : List Seen} {m : Medium}
    (h : m.Derives config used) : used ≠ [] := by
  cases h with
  | featured hfeature =>
    cases hfeature <;> simp
  | _ => simp

/-- A media list derives from some tokens. -/
theorem MediaDerive.ne_nil {config : Config} {used : List Seen} {media : List Medium}
    (h : MediaDerive config used media) : used ≠ [] := by
  cases h with
  | single hmedium => exact hmedium.ne_nil
  | cons => simp

namespace Grammar

variable {config : Config} {i : Input}

/-! ### Reading what derives, and nothing else -/

/-- Whatever the production gives derives from the tokens that it took. -/
def IsSound {α : Type} (D : List Seen → α → Prop) (p : Production (Option α)) : Prop :=
  ∀ i : Input, p.Yields i fun result rest => ∀ a, result = some a →
    ∃ used, i.seen = used ++ rest.seen ∧ D used a

/-- The production gives what derives from the tokens ahead, and stops behind them, where what
follows is as it should be. The tokens ahead have texts. -/
def IsComplete {α : Type} (D : List Seen → α → Prop) (follows : Token → Prop)
    (p : Production (Option α)) : Prop :=
  ∀ (i : Input) (used more : List Seen) (a : α), D used a → i.Worded → i.seen = used ++ more →
    (∀ rest : Input, rest.seen = more → follows rest.view.token) →
      p.Yields i fun result rest => result = some a ∧ rest.seen = more

/-! ### Features -/

/-- A token of a kind other than that of the end is the next one ahead. -/
theorem seen_of_kind {k : Kind} (hkind : i.view.kind = k) (hk : k ≠ .eof) :
    i.seen = (i.view.token, i.view.spacing) :: i.advance.seen :=
  Input.seen_eq_cons (by rw [hkind]; exact hk)

/-- A feature is found just if its name is one, and then it is the one of that name in small
letters. -/
theorem featureOf_eq_some_iff {name : String} {f : Feature} :
    featureOf (.ofConfig config) name = some f ↔
      IsFeatureName config name ∧ f = ⟨Text.lower name, none⟩ := by
  have hknown : (featureOf (.ofConfig config) name).isSome = true ↔ IsFeatureName config name := by
    rw [featureOf_eq, Option.isSome_or, Bool.or_eq_true]
    refine or_congr Iff.rfl ?_
    split <;> simp_all
  constructor
  · intro h
    exact ⟨hknown.1 (by rw [h]; rfl), (featureOf_lower h).1⟩
  · rintro ⟨hname, rfl⟩
    obtain ⟨f, hf⟩ := Option.isSome_iff_exists.1 (hknown.2 hname)
    rw [hf, (featureOf_lower hf).1]

/-- What follows the name of a feature: nothing, or a colon and tokens that nest. -/
theorem featureValue_sound {named : Feature} : (featureValue named).Yields i fun result rest =>
    ∀ f, result = some f → (i.seen = rest.seen ∧ f = named) ∨
      ∃ colon v, i.seen = colon :: (v ++ rest.seen) ∧ colon.1.kind = .colon ∧ v ≠ [] ∧
        NestsUnder [] v ∧ f = { named with value := some ⟨textOf v⟩ } := by
  unfold featureValue
  apply Yields.kind
  split
  · next hcolon =>
    apply Yields.skip
    apply Yields.bind (value_sound (T := parenthesizedEnd) (by decide))
    intro parsed rest _ hparsed
    split
    · exact .none
    next hgood =>
    have hgood : parsed.valid = true ∧ parsed.important = false := by
      simpa only [Bool.or_eq_true, not_or, Bool.not_eq_true', Bool.not_eq_false,
        Bool.not_eq_true] using hgood
    obtain ⟨v, marks, hseen, hne, hnests, hmarks, _, hvalue⟩ := hparsed hgood.1
    obtain rfl : marks = [] := by
      rw [hgood.2] at hmarks
      cases hmarks
      rfl
    have hnests : NestsUnder [] v := nestsUnder_iff.2 hnests
    apply Yields.some
    refine Or.inr ⟨(i.view.token, i.view.spacing), v, ?_, hcolon, hne, hnests, by rw [hvalue]⟩
    rw [seen_of_kind hcolon (by decide), hseen, List.nil_append]
  · exact .some (Or.inl ⟨rfl, rfl⟩)

/-- What closes a feature is a closing parenthesis. -/
theorem closeFeature_sound {whole : Feature} : (closeFeature whole).Yields i fun result rest =>
    ∀ f, result = some f → f = whole ∧
      ∃ closing, i.seen = closing :: rest.seen ∧ closing.1.kind = .closeParen := by
  unfold closeFeature
  apply Yields.kind
  split
  · next hclosing =>
    apply Yields.skip
    apply Yields.some
    exact ⟨rfl, (i.view.token, i.view.spacing), seen_of_kind hclosing (by decide), hclosing⟩
  · exact .none

/-- A feature starts with an opening parenthesis. -/
theorem exists_opening {used : List Seen} {f : Feature} (h : f.Derives config used) :
    ∃ opening more, used = opening :: more ∧ opening.1.kind = .openParen := by
  cases h with
  | bare hopening => exact ⟨_, _, rfl, hopening⟩
  | valued hopening => exact ⟨_, _, rfl, hopening⟩

/-- A feature that is read derives from the tokens that it took. -/
theorem feature_sound : IsSound (fun used f => f.Derives config used)
    (feature (.ofConfig config)) := by
  intro i
  unfold feature
  apply Yields.inFrame
  apply Yields.kind
  split
  · exact .none
  next hopening =>
  apply Yields.skip
  apply Yields.kind
  split
  · exact .none
  next hname =>
  rw [ne_eq, not_not] at hopening hname
  apply Yields.take
  rcases hfound : featureOf (.ofConfig config) i.advance.view.token.text with _ | named
  · exact .none
  obtain ⟨hknown, rfl⟩ := featureOf_eq_some_iff.1 hfound
  have hseen : i.seen = (i.view.token, i.view.spacing) ::
      (i.advance.view.token, i.advance.view.spacing) :: i.advance.advance.seen := by
    rw [seen_of_kind hopening (by decide), seen_of_kind hname (by decide)]
  apply Yields.bind featureValue_sound
  intro whole rest _ hwhole
  rcases whole with _ | whole
  · exact .none
  refine closeFeature_sound.mono fun result behind hresult f hf => ?_
  obtain ⟨rfl, closing, hrest, hclosing⟩ := hresult f hf
  rcases hwhole f rfl with ⟨hsame, rfl⟩ | ⟨colon, v, hvalued, hcolon, hne, hnests, rfl⟩
  · have hbare := @Feature.Derives.bare config (i.view.token, i.view.spacing)
      (i.advance.view.token, i.advance.view.spacing) closing hopening hname hknown hclosing
    exact ⟨_, by rw [hseen, hsame, hrest]; rfl, hbare⟩
  · have hvalued' := @Feature.Derives.valued config (i.view.token, i.view.spacing)
      (i.advance.view.token, i.advance.view.spacing) colon closing v hopening hname hknown hcolon
      hne hnests hclosing
    exact ⟨_, by rw [hseen, hvalued, hrest]; simp, hvalued'⟩

/-- A feature is closed where a closing parenthesis is ahead. -/
theorem closeFeature_complete {whole : Feature} {closing : Seen} {more : List Seen}
    (hclosing : closing.1.kind = .closeParen) (hseen : i.seen = closing :: more) :
    (closeFeature whole).Yields i fun result rest => result = some whole ∧ rest.seen = more := by
  obtain ⟨htoken, _, hadvance⟩ := Input.view_of_seen hseen
  have hkind : i.view.kind = .closeParen := (congrArg Token.kind htoken).trans hclosing
  unfold closeFeature
  apply Yields.kind
  rw [if_pos hkind]
  exact .skip (.pure ⟨rfl, hadvance⟩)

/-- A feature is read from its name on, which is found, what stands behind the name, and the closing
parenthesis. -/
theorem feature_complete_of_value {opening name closing : Seen} {whole : Feature}
    {behind more : List Seen} (hopening : opening.1.kind = .openParen)
    (hname : name.1.kind = .ident) (hknown : IsFeatureName config name.1.text)
    (hclosing : closing.1.kind = .closeParen) (hseen : i.seen = opening :: name :: behind)
    (hvalue : (featureValue ⟨Text.lower name.1.text, none⟩).Yields i.advance.advance
      fun result rest => result = some whole ∧ rest.seen = closing :: more) :
    (feature (.ofConfig config)).Yields i fun result rest =>
      result = some whole ∧ rest.seen = more := by
  obtain ⟨htoken, _, hadvance⟩ := Input.view_of_seen hseen
  obtain ⟨htoken', _, _⟩ := Input.view_of_seen hadvance
  have hkind : i.view.kind = .openParen := (congrArg Token.kind htoken).trans hopening
  have hkind' : i.advance.view.kind = .ident := (congrArg Token.kind htoken').trans hname
  unfold feature
  apply Yields.inFrame
  apply Yields.kind
  rw [if_neg (by simp [hkind])]
  apply Yields.skip
  apply Yields.kind
  rw [if_neg (by simp [hkind'])]
  apply Yields.take
  rw [htoken', featureOf_eq_some_iff.2 ⟨hknown, rfl⟩]
  apply Yields.bind hvalue
  rintro _ rest _ ⟨rfl, hrest⟩
  exact closeFeature_complete hclosing hrest

/-- A feature that derives from the tokens ahead is read, whatever follows it. -/
theorem feature_complete : IsComplete (fun used f => f.Derives config used) (fun _ => True)
    (feature (.ofConfig config)) := by
  intro i used more f hderives hworded hseen _
  cases hderives with
  | @bare opening name closing hopening hname hknown hclosing =>
    refine feature_complete_of_value hopening hname hknown hclosing hseen ?_
    have hbehind := (Input.view_of_seen (Input.view_of_seen hseen).2.2).2.2
    have hkind : i.advance.advance.view.kind = .closeParen :=
      (Input.kind_of_seen hbehind).trans hclosing
    unfold featureValue
    apply Yields.kind
    rw [if_neg (by simp [hkind])]
    exact .pure ⟨rfl, hbehind⟩
  | @valued opening name colon closing v hopening hname hknown hcolon hne hnests hclosing =>
    refine feature_complete_of_value hopening hname hknown hclosing hseen ?_
    have hbehind := (Input.view_of_seen (Input.view_of_seen hseen).2.2).2.2
    obtain ⟨htoken, _, hadvance⟩ := Input.view_of_seen hbehind
    have hkind : i.advance.advance.view.kind = .colon := (congrArg Token.kind htoken).trans hcolon
    rw [List.append_eq, List.append_assoc] at hadvance
    have hvalue : i.advance.advance.advance.Worded := hworded.of_reaches
      ((Input.Reaches.advance _).trans ((Input.Reaches.advance _).trans (Input.Reaches.advance _)))
    have hend : ∀ rest : Input, rest.seen = closing :: more →
        EndsValue parenthesizedEnd rest.view.kind := by
      intro rest hrest
      have hclose : rest.view.kind = .closeParen :=
        (Input.kind_of_seen hrest).trans hclosing
      rw [hclose]
      exact Or.inr rfl
    unfold featureValue
    apply Yields.kind
    rw [if_pos hkind]
    apply Yields.skip
    apply Yields.bind (value_complete (nestsUnder_iff.1 hnests) hne .absent
      (List.forall_mem_nil _) hvalue hadvance hend)
    rintro parsed rest _ ⟨hrest, rfl⟩
    exact .pure ⟨rfl, hrest⟩

/-! ### Media -/

/-- Features read on after a medium are added to its own. -/
theorem featuresFrom_sound (rounds : Nat) (m : Medium) :
    (featuresFrom (.ofConfig config) rounds m).Yields i fun result rest => ∀ m', result = some m' →
      ∃ used features, i.seen = used ++ rest.seen ∧ FeaturesDerive config used features ∧
        m' = { m with features := m.features ++ features } := by
  have hnone : ∀ (m : Medium) (i : Input), ∃ used features, i.seen = used ++ i.seen ∧
      FeaturesDerive config used features ∧
        m = { m with features := m.features ++ features } :=
    fun m i => ⟨[], [], rfl, .nil, by rw [List.append_nil]⟩
  induction rounds generalizing i m with
  | zero => exact .some (hnone m i)
  | succ rounds ih =>
    unfold featuresFrom
    apply Yields.view
    split
    · next hword =>
      apply Yields.skip
      apply Yields.bind (feature_sound _)
      intro parsed rest _ hparsed
      rcases parsed with _ | f
      · exact .none
      obtain ⟨used, hused, hderives⟩ := hparsed f rfl
      refine (ih { m with features := m.features ++ [f] }).mono ?_
      intro result behind hresult m' hm
      obtain ⟨more, features, hmore, hfeatures, rfl⟩ := hresult m' hm
      refine ⟨_, f :: features, ?_, @FeaturesDerive.cons config (i.view.token, i.view.spacing) _ _
        _ _ hword hderives hfeatures, by simp⟩
      have hident : i.view.kind = .ident := kind_of_isWord hword
      rw [seen_of_kind hident (by decide), hused, hmore]
      simp
    · exact .some (hnone m i)

/-- Features that derive from the tokens ahead are read into the medium, if no `and` follows
them. -/
theorem featuresFrom_complete {used : List Seen} {features : List Feature}
    (hderives : FeaturesDerive config used features) (rounds : Nat) (m : Medium) {more : List Seen}
    (hworded : i.Worded) (hseen : i.seen = used ++ more) (hsize : i.size ≤ rounds)
    (hmore : ∀ rest : Input, rest.seen = more → rest.view.token.isWord "and" = false) :
    (featuresFrom (.ofConfig config) rounds m).Yields i fun result rest =>
      result = some { m with features := m.features ++ features } ∧ rest.seen = more := by
  induction hderives generalizing i m rounds with
  | nil =>
    rw [List.append_nil]
    rcases rounds with _ | rounds
    · exact .pure ⟨rfl, hseen⟩
    · unfold featuresFrom
      apply Yields.view
      rw [if_neg (by rw [hmore i hseen]; decide)]
      exact .pure ⟨rfl, hseen⟩
  | @cons word used more' feature features hword hfeature _ ih =>
    obtain ⟨htoken, _, hadvance⟩ := Input.view_of_seen hseen
    obtain ⟨n, rfl⟩ : ∃ n, rounds = n + 1 := by
      rw [← i.length_seen, hseen, List.cons_append, List.length_cons] at hsize
      exact ⟨rounds - 1, by omega⟩
    have hless : i.advance.size ≤ n := by
      have hadvanced : i.advance.size = i.size - 1 := rfl
      omega
    rw [List.append_eq, List.append_assoc] at hadvance
    have hworded' : i.advance.Worded := hworded.of_reaches (.advance _)
    unfold featuresFrom
    apply Yields.view
    rw [if_pos (htoken ▸ hword)]
    apply Yields.skip
    apply Yields.bind (feature_complete _ _ _ _ hfeature hworded' hadvance fun _ _ => trivial)
    rintro _ rest hreach ⟨rfl, hrest⟩
    have hnext := ih n { m with features := m.features ++ [feature] } (hworded'.of_reaches hreach)
      hrest (Nat.le_trans hreach.size_le hless)
    simpa using hnext

/-- A medium that is read with its type derives from the tokens behind that. -/
theorem typedMedium_sound (reversed guarded : Bool) :
    (typedMedium (.ofConfig config) reversed guarded).Yields i fun result rest => ∀ m,
      result = some m → ∃ more features,
        i.seen = (i.view.token, i.view.spacing) :: (more ++ rest.seen) ∧
          IsTypeWord i.view.token ∧ FeaturesDerive config more features ∧
            m = ⟨Text.lower i.view.token.text, reversed, guarded, features⟩ := by
  unfold typedMedium
  apply Yields.view
  split
  · exact .none
  next htype =>
  rw [Bool.or_eq_true, not_or, decide_eq_true_eq, ne_eq, not_not] at htype
  have htype : IsTypeWord i.view.token := ⟨htype.1, Bool.eq_false_iff.2 htype.2⟩
  apply Yields.skip
  refine Yields.view ((featuresFrom_sound _ _).mono fun result rest hresult m hm => ?_)
  obtain ⟨more, features, hmore, hfeatures, rfl⟩ := hresult m hm
  exact ⟨more, features, by rw [seen_of_kind htype.1 (by decide), hmore], htype, hfeatures, rfl⟩

/-- A medium that is read derives from the tokens that it took. -/
theorem medium_sound : IsSound (fun used m => m.Derives config used)
    (medium (.ofConfig config)) := by
  intro i
  unfold medium
  apply Yields.inFrame
  apply Yields.view
  split
  · next hident =>
    have hseen := seen_of_kind hident (by decide)
    split
    · next hnot =>
      refine .skip ((typedMedium_sound true false).mono fun result rest hresult m hm => ?_)
      obtain ⟨more, features, hmore, htype, hfeatures, rfl⟩ := hresult m hm
      have hderives := @Medium.Derives.reversed config (i.view.token, i.view.spacing)
        (i.advance.view.token, i.advance.view.spacing) more features hnot htype hfeatures
      exact ⟨_, by rw [hseen, hmore]; rfl, hderives⟩
    next hnot =>
    split
    · next honly =>
      refine .skip ((typedMedium_sound false true).mono fun result rest hresult m hm => ?_)
      obtain ⟨more, features, hmore, htype, hfeatures, rfl⟩ := hresult m hm
      have hderives := @Medium.Derives.guarded config (i.view.token, i.view.spacing)
        (i.advance.view.token, i.advance.view.spacing) more features honly htype hfeatures
      exact ⟨_, by rw [hseen, hmore]; rfl, hderives⟩
    next honly =>
    refine (typedMedium_sound false false).mono fun result rest hresult m hm => ?_
    obtain ⟨more, features, hmore, htype, hfeatures, rfl⟩ := hresult m hm
    have hderives := @Medium.Derives.typed config (i.view.token, i.view.spacing) more features
      htype (Bool.eq_false_iff.2 hnot) (Bool.eq_false_iff.2 honly) hfeatures
    exact ⟨_, by rw [hmore]; rfl, hderives⟩
  · apply Yields.bind (feature_sound i)
    intro parsed rest _ hparsed
    rcases parsed with _ | f
    · exact .none
    obtain ⟨used, hused, hfeature⟩ := hparsed f rfl
    refine Yields.view ((featuresFrom_sound _ _).mono fun result behind hresult m hm => ?_)
    obtain ⟨more, features, hmore, hfeatures, rfl⟩ := hresult m hm
    refine ⟨used ++ more, by rw [hused, hmore, List.append_assoc], ?_⟩
    exact .featured hfeature hfeatures
  · exact .none

/-- A medium with a type is read from the tokens it derives from, if no `and` follows it. -/
theorem typedMedium_complete (reversed guarded : Bool) {typeWord : Seen}
    {used more : List Seen} {features : List Feature} (htype : IsTypeWord typeWord.1)
    (hfeatures : FeaturesDerive config used features) (hworded : i.Worded)
    (hseen : i.seen = typeWord :: (used ++ more))
    (hmore : ∀ rest : Input, rest.seen = more → rest.view.token.isWord "and" = false) :
    (typedMedium (.ofConfig config) reversed guarded).Yields i fun result rest =>
      result = some ⟨Text.lower typeWord.1.text, reversed, guarded, features⟩ ∧
        rest.seen = more := by
  obtain ⟨htoken, _, hadvance⟩ := Input.view_of_seen hseen
  have hkind : i.view.kind = .ident := (congrArg Token.kind htoken).trans htype.1
  unfold typedMedium
  apply Yields.view
  rw [if_neg (by simp [hkind, htoken, htype.2]), htoken]
  apply Yields.skip
  exact .view (featuresFrom_complete hfeatures _ ⟨_, reversed, guarded, []⟩
    (hworded.of_reaches (.advance _)) hadvance (Nat.le_refl _) hmore)

/-- A medium that derives from the tokens ahead is read, if no `and` follows it. -/
theorem medium_complete : IsComplete (fun used m => m.Derives config used)
    (fun token => token.isWord "and" = false) (medium (.ofConfig config)) := by
  intro i used more m hderives hworded hseen hmore
  have hworded' : i.advance.Worded := hworded.of_reaches (.advance _)
  unfold medium
  apply Yields.inFrame
  apply Yields.view
  cases hderives with
  | @reversed word typeWord used features hword htype hfeatures =>
    obtain ⟨htoken, _, hadvance⟩ := Input.view_of_seen hseen
    have hkind : i.view.kind = .ident := (congrArg Token.kind htoken).trans (kind_of_isWord hword)
    rw [hkind]
    simp only [htoken, hword, if_true]
    exact .skip (typedMedium_complete true false htype hfeatures hworded' hadvance hmore)
  | @guarded word typeWord used features hword htype hfeatures =>
    obtain ⟨htoken, _, hadvance⟩ := Input.view_of_seen hseen
    have hkind : i.view.kind = .ident := (congrArg Token.kind htoken).trans (kind_of_isWord hword)
    have hnot : word.1.isWord "not" = false := isWord_eq_false hword (by decide)
    rw [hkind]
    simp only [htoken, hword, hnot, Bool.false_eq_true, if_false, if_true]
    exact .skip (typedMedium_complete false true htype hfeatures hworded' hadvance hmore)
  | @typed typeWord used features htype hnot honly hfeatures =>
    obtain ⟨htoken, _, _⟩ := Input.view_of_seen hseen
    have hkind : i.view.kind = .ident := (congrArg Token.kind htoken).trans htype.1
    rw [hkind]
    simp only [htoken, hnot, honly, Bool.false_eq_true, if_false]
    exact typedMedium_complete false false htype hfeatures hworded hseen hmore
  | @featured used used' feature features hfeature hfeatures =>
    rw [List.append_assoc] at hseen
    have hkind : i.view.kind = .openParen := by
      obtain ⟨opening, _, rfl, hopening⟩ := exists_opening hfeature
      exact (Input.kind_of_seen hseen).trans hopening
    rw [hkind]
    apply Yields.bind (feature_complete i _ _ _ hfeature hworded hseen fun _ _ => trivial)
    rintro _ rest hreach ⟨rfl, hrest⟩
    exact .view (featuresFrom_complete hfeatures _ ⟨"all", false, false, [feature]⟩
      (hworded.of_reaches hreach) hrest (Nat.le_refl _) hmore)

/-! ### Media lists -/

/-- Media that are read derive from the tokens that they took. -/
theorem media_sound (rounds : Nat) (before : List Medium) (hsize : i.size < rounds) :
    (mediaFrom (.ofConfig config) rounds before).Yields i fun result rest => ∀ ms,
      result = some ms → ∃ used media, i.seen = used ++ rest.seen ∧
        MediaDerive config used media ∧ ms = before ++ media := by
  induction rounds generalizing i before with
  | zero => exact absurd hsize (Nat.not_lt_zero _)
  | succ rounds ih =>
    unfold mediaFrom
    apply Yields.bind (medium_sound i)
    intro parsed rest hreach hparsed
    rcases parsed with _ | m
    · exact .none
    obtain ⟨used, hused, hmedium⟩ := hparsed m rfl
    apply Yields.kind
    split
    · next hcomma =>
      have hseen := seen_of_kind hcomma (by decide)
      have hless : rest.advance.size < rounds := by
        have hle := hreach.size_le
        have hadvanced : rest.advance.size = rest.size - 1 := rfl
        have hlength := congrArg List.length hseen
        rw [rest.length_seen, List.length_cons] at hlength
        omega
      refine .skip ((ih (before ++ [m]) hless).mono fun result behind hresult ms hms => ?_)
      obtain ⟨more, media, hmore, hmedia, rfl⟩ := hresult ms hms
      have hderives := @MediaDerive.cons config used more (rest.view.token, rest.view.spacing) m
        media hmedium hcomma hmedia
      refine ⟨_, m :: media, ?_, hderives, by simp⟩
      rw [hused, hseen, hmore]
      simp
    · exact .some ⟨used, [m], hused, .single hmedium, rfl⟩

/-- Media that derive from the tokens ahead are read, if neither `and` nor a comma follows them. -/
theorem media_complete {used more : List Seen} {media : List Medium}
    (hderives : MediaDerive config used media) (rounds : Nat) (before : List Medium)
    (hworded : i.Worded) (hseen : i.seen = used ++ more) (hsize : i.size < rounds)
    (hmore : ∀ rest : Input, rest.seen = more →
      rest.view.token.isWord "and" = false ∧ rest.view.kind ≠ .comma) :
    (mediaFrom (.ofConfig config) rounds before).Yields i fun result rest =>
      result = some (before ++ media) ∧ rest.seen = more := by
  induction hderives generalizing i rounds before with
  | @single used medium hmedium =>
    obtain ⟨n, rfl⟩ : ∃ n, rounds = n + 1 := ⟨rounds - 1, by omega⟩
    unfold mediaFrom
    apply Yields.bind (medium_complete _ _ _ _ hmedium hworded hseen fun rest h => (hmore rest h).1)
    rintro _ rest _ ⟨rfl, hrest⟩
    apply Yields.kind
    rw [if_neg (hmore rest hrest).2]
    exact .pure ⟨rfl, hrest⟩
  | @cons used more' comma medium media hmedium hcomma _ ih =>
    obtain ⟨n, rfl⟩ : ∃ n, rounds = n + 1 := ⟨rounds - 1, by omega⟩
    rw [List.append_assoc] at hseen
    have hnone : ∀ rest : Input, rest.seen = comma :: more' ++ more →
        rest.view.token.isWord "and" = false := by
      intro rest hrest
      rw [(Input.view_of_seen hrest).1, Token.isWord, hcomma]
      rfl
    unfold mediaFrom
    apply Yields.bind (medium_complete _ _ _ _ hmedium hworded hseen hnone)
    rintro _ rest hreach ⟨rfl, hrest⟩
    obtain ⟨htoken, _, hadvance⟩ := Input.view_of_seen hrest
    have hkind : rest.view.kind = .comma := (congrArg Token.kind htoken).trans hcomma
    apply Yields.kind
    rw [if_pos hkind]
    apply Yields.skip
    have hless : rest.advance.size < n := by
      have hle := hreach.size_le
      have hadvanced : rest.advance.size = rest.size - 1 := rfl
      have hlength := congrArg List.length hrest
      rw [rest.length_seen, List.cons_append, List.length_cons] at hlength
      omega
    have hnext := ih n (before ++ [medium])
      ((hworded.of_reaches hreach).of_reaches (.advance _)) hadvance hless
    simpa using hnext

/-- A list whose tokens derive from the grammar is read as what they derive, to the end. -/
theorem mediaList_complete {media : List Medium} (hworded : i.Worded)
    (hderives : MediaDerive config i.seen media) :
    (mediaList (.ofConfig config) .eof).Yields i fun list rest =>
      list = ⟨media⟩ ∧ rest.seen = [] := by
  have hmore : ∀ rest : Input, rest.seen = [] →
      rest.view.token.isWord "and" = false ∧ rest.view.kind ≠ .comma := by
    intro rest hrest
    have heof : rest.view.kind = .eof := Input.seen_eq_nil_iff.1 hrest
    exact ⟨Input.isWord_of_kind (by rw [heof]; decide), by rw [heof]; decide⟩
  unfold mediaList
  apply Yields.enclosed
  apply Yields.view
  apply Yields.bind (media_complete hderives _ [] hworded (List.append_nil _).symm
    (Nat.lt_succ_self _) hmore)
  rintro _ rest _ ⟨rfl, hrest⟩
  apply Yields.view
  rw [if_pos (Input.seen_eq_nil_iff.1 hrest)]
  exact .pure ⟨rfl, hrest⟩

/-- A list whose tokens do not derive from the grammar is `not all`. -/
theorem mediaList_unreadable (h : ∀ media, ¬ MediaDerive config i.seen media) :
    (mediaList (.ofConfig config) .eof).Yields i fun list _ => list = .unreadable := by
  unfold mediaList
  apply Yields.enclosed
  apply Yields.view
  apply Yields.bind (media_sound _ [] (Nat.lt_succ_self _))
  intro media rest _ hmedia
  apply Yields.view
  split
  · next ms hms =>
    exfalso
    split at hms
    · next heof =>
      obtain ⟨used, media, hseen, hderives, _⟩ := hmedia ms hms
      rw [Input.seen_eq_nil_iff.2 heof, List.append_nil] at hseen
      exact h media (hseen ▸ hderives)
    · cases hms
  · exact .bind_any fun _ _ _ => .pure rfl

end Grammar

/-- What is read of tokens with texts, as a whole. -/
theorem run_wholeMediaList (config : Config) (parser : Parser) (hworded : parser.input.Worded) :
    let parsed := (Grammar.wholeMediaList (.ofConfig config)).run parser
    (parser.rest = [] → parsed.1 = .empty) ∧
    (∀ media, MediaDerive config parser.rest media → parsed.1 = ⟨media⟩ ∧ parsed.2.rest = []) ∧
    (parser.rest ≠ [] → (∀ media, ¬ MediaDerive config parser.rest media) →
      parsed.1 = .unreadable) := by
  intro parsed
  have hatEnd : parser.input.view.atEnd = true ↔ parser.rest = [] := by
    rw [View.atEnd, beq_iff_eq]
    exact Input.seen_eq_nil_iff.symm
  have hlist : ∀ {Q : MediaList → Input → Prop}, parser.rest ≠ [] →
      (Grammar.mediaList (.ofConfig config) .eof).Yields parser.input Q →
        Q parsed.1 parsed.2.input := by
    intro Q hne hyields
    refine Yields.run (.view ?_)
    rwa [if_neg (mt hatEnd.1 hne)]
  refine ⟨fun hempty => ?_, fun media hmedia => ?_, fun hne hnone => ?_⟩
  · have hyields : (Grammar.wholeMediaList (.ofConfig config)).Yields parser.input
        fun list _ => list = .empty := by
      refine .view ?_
      rw [if_pos (hatEnd.2 hempty)]
      exact .pure rfl
    exact hyields.run
  · exact hlist hmedia.ne_nil (Grammar.mediaList_complete hworded hmedia)
  · exact hlist hne (Grammar.mediaList_unreadable hnone)

/-- The media list of a source is read as what its significant tokens derive, all of them taken, or
as no media if there are none; if they do not derive from the grammar it is read as `not all`, and
of what could be read nothing is left. -/
theorem media_lists_are_whole (source : String) (file : Option String) (config : Config)
    (tokens : List Token) (hscan : Token.scan source file = .ok tokens) :
    let significant := (Parser.ofTokens tokens config).rest
    let parsed := MediaList.parse tokens config
    (significant = [] → parsed.1 = .empty) ∧
    (∀ media, MediaDerive config significant media → parsed.1 = ⟨media⟩ ∧ parsed.2.rest = []) ∧
    (significant ≠ [] → (∀ media, ¬ MediaDerive config significant media) →
      parsed.1 = ⟨[⟨"all", true, false, []⟩]⟩) := by
  rw [Token.scan_eq_tokenize, Except.ok.injEq] at hscan
  subst hscan
  exact run_wholeMediaList config (.ofTokens _ config) (worded_tokenize source file)

/-- A comment is no list, a feature in capital letters is one, and a medium before what is none is
dropped. -/
theorem media_lists_are_whole_or_dropped :
    let tokens (source : String) : List Token := Token.tokenize source none
    let rest (source : String) := (Parser.ofTokens (tokens source) .strict).rest
    let parsed (source : String) := MediaList.parse (tokens source) .strict
    (rest "/**/" = [] ∧ (parsed "/**/").1 = .empty) ∧
    (∃ media, MediaDerive .strict (rest "(GRID: 1 2)") media ∧
      (parsed "(GRID: 1 2)").1 = ⟨media⟩ ∧ (parsed "(GRID: 1 2)").2.rest = []) ∧
    (rest "print, ;" ≠ [] ∧ (∀ media, ¬ MediaDerive .strict (rest "print, ;") media) ∧
      (parsed "print, ;").1 = ⟨[⟨"all", true, false, []⟩]⟩) := by
  intro tokens rest parsed
  have hwhole (source : String) := media_lists_are_whole source none .strict (tokens source)
    (Token.scan_eq_tokenize source none)
  have hempty : rest "/**/" = [] := by decide +kernel
  have hne : rest "print, ;" ≠ [] := by decide +kernel
  have hleft : (parsed "print, ;").2.rest ≠ [] := by decide +kernel
  have hnone : ∀ media, ¬ MediaDerive .strict (rest "print, ;") media :=
    fun media h => hleft ((hwhole "print, ;").2.1 media h).2
  let token (kind : Token.Kind) (text : String) (start stop : UInt32) : Token :=
    ⟨kind, text, ⟨⟨start, Position.inlineFile⟩, ⟨stop, Position.inlineFile⟩⟩⟩
  have hrest : rest "(GRID: 1 2)" =
      [(token .openParen "(" 0 1, .none), (token .ident "GRID" 1 5, .none),
        (token .colon ":" 5 6, .none), (token .number "1" 7 8, .space),
        (token .number "2" 9 10, .space), (token .closeParen ")" 10 11, .none)] := by
    decide +kernel
  have hderives : MediaDerive .strict (rest "(GRID: 1 2)")
      [⟨"all", false, false, [⟨"grid", some ⟨"1 2"⟩⟩]⟩] := by
    let value : List Seen := [(token .number "1" 7 8, .space), (token .number "2" 9 10, .space)]
    have hvalue : NestsUnder [] value :=
      .token (by decide) (fun _ => by decide) rfl
        (.token (by decide) (fun _ => by decide) rfl .done)
    have hname : Feature.mk "grid" (some ⟨"1 2"⟩) = ⟨Text.lower "GRID", some ⟨textOf value⟩⟩ := by
      decide +kernel
    have hfeature : Feature.Derives .strict (rest "(GRID: 1 2)") ⟨"grid", some ⟨"1 2"⟩⟩ := by
      rw [hrest, hname]
      exact @Feature.Derives.valued .strict (token .openParen "(" 0 1, .none)
        (token .ident "GRID" 1 5, .none) (token .colon ":" 5 6, .none)
        (token .closeParen ")" 10 11, .none) value rfl rfl (Or.inl (by decide +kernel)) rfl
        (List.cons_ne_nil _ _) hvalue rfl
    have hmedium := Medium.Derives.featured hfeature .nil
    rw [List.append_nil] at hmedium
    exact .single hmedium
  exact ⟨⟨hempty, (hwhole "/**/").1 hempty⟩,
    ⟨_, hderives, (hwhole "(GRID: 1 2)").2.1 _ hderives⟩,
    hne, hnone, (hwhole "print, ;").2.2 hne hnone⟩

end Cssom

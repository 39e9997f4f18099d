import Cssom.Proofs.Printing.Declaration
import Cssom.Proofs.Printing.Lists
import Cssom.Proofs.Printing.Statement

/-!
# Animations are read back

The keys of a moment are percentages, and stay as they are when they are read again
(`gives_keysFrom`). So a moment is read back from its print (`keyframe_reads_back`), and an
animation from that of its moments and its name, which is printed as an identifier or as a string
(`animationName_reads_back`, `keyframesRule_reads_back`).
-/

namespace Cssom.Grammar

open Production Token Input

variable {config : Config} {ctx : Context} {i j : Input} {placed : Prop}

/-! ### Keys -/

/-- A key that is legible, and in its normal spelling. -/
structure IsKey (key : String) : Prop where
  legible : Legible [(.percentage, key)]
  normal : Keyframe.normalKey key = key

/-- Nothing is trimmed from what has no blanks. -/
theorem trimEnd_of_blankless {cs : List Char} (h : ∀ c ∈ cs, Text.isBlank c = false) :
    Text.trimEnd (Text.trimStart cs) = cs := by
  have hdrop : ∀ {ds : List Char}, (∀ c ∈ ds, Text.isBlank c = false) →
      ds.dropWhile Text.isBlank = ds := by
    intro ds hds
    rcases ds with _ | ⟨d, ds⟩
    · rfl
    · rw [List.dropWhile_cons_of_neg]
      rw [hds d List.mem_cons_self]
      exact Bool.false_ne_true
  rw [Text.trimStart, hdrop h, Text.trimEnd, hdrop, List.reverse_reverse]
  intro c hc
  exact h c (List.mem_reverse.1 hc)

/-- A token of a plain source that holds no breaks has no blanks to be trimmed. -/
theorem trim_of_plain {k : Kind} {t : String} {src : List Piece} (h : Plain ((k, t) :: src))
    (hk : k.isSignificant = true) (hholds : holdsBreaks k = false) : Text.trim t = t := by
  have hspace := not_space_of_mem h.first_eq hk hholds h.slash_head
  rw [Text.trim, trimEnd_of_blankless, String.ofList_toList]
  intro c hc
  rw [Bool.eq_false_iff]
  intro hblank
  have hfound := h.blanks c (by rw [spell_cons]; exact List.mem_append_left _ hc) hblank
  rw [hspace c hc] at hfound
  exact Bool.false_ne_true hfound

/-- A percentage is neither of the words that stand for one. -/
theorem not_sameLetters_of_percentage {key word : String}
    (hfirst : first key.toList = (.percentage, key.toList.length))
    (hword : (first (Text.lower word).toList).1 = .ident) : Text.sameLetters key word = false := by
  rw [Bool.eq_false_iff]
  intro hsame
  have hlower : Text.lower key = Text.lower word := eq_of_beq hsame
  rw [← hlower, Text.toList_lower, first_lower, hfirst] at hword
  exact absurd hword (by simp)

/-- A percentage without blanks around it is a key in its normal spelling. -/
theorem normalKey_of_percentage {key : String} (htrim : Text.trim key = key)
    (hfirst : first key.toList = (.percentage, key.toList.length)) :
    Keyframe.normalKey key = key := by
  have hfrom := @not_sameLetters_of_percentage key "from" hfirst rfl
  have hto := @not_sameLetters_of_percentage key "to" hfirst rfl
  unfold Keyframe.normalKey
  simp only [htrim, hfrom, hto, Bool.false_eq_true, if_false]

/-- The key that `from` stands for is a key. -/
theorem isKey_start : IsKey "0%" where
  legible := .of_first rfl rfl rfl (.of_not_mem (by simp)) fun ho => absurd ho.mem (by decide)
  normal := by decide

/-- The key that `to` stands for is a key. -/
theorem isKey_end : IsKey "100%" where
  legible := .of_first rfl rfl rfl (.of_not_mem (by simp)) fun ho => absurd ho.mem (by decide)
  normal := by decide

/-- A key of a plain source is printed as a percentage that it stands for. -/
theorem isKey_normalKey (hplain : Plain i.pieces) (h : KeyReading.isKey i.view.token = true) :
    IsKey (Keyframe.normalKey i.view.token.text) := by
  have hkind : i.view.kind = .percentage ∨ i.view.kind = .ident ∧
      (Text.sameLetters i.view.token.text "from" = true ∨
        Text.sameLetters i.view.token.text "to" = true) := by
    rw [KeyReading.isKey, Token.isWord, Token.isWord, Bool.or_eq_true, Bool.or_eq_true,
      Bool.and_eq_true, Bool.and_eq_true, beq_iff_eq, beq_iff_eq] at h
    rcases h with (hkind | ⟨hkind, hword⟩) | ⟨hkind, hword⟩
    · exact Or.inl hkind
    · exact Or.inr ⟨hkind, Or.inl hword⟩
    · exact Or.inr ⟨hkind, Or.inr hword⟩
  rcases hkind with hkind | ⟨hkind, hword⟩
  · have hsource := plain_of_kind hplain hkind rfl
    have hlegible := legible_of_regular hsource.regular rfl rfl (by simp)
    have hfirst := (hlegible.lexes [] (Or.inl rfl)).1
    rw [spell_nil, List.append_nil, List.append_nil] at hfirst
    have hnormal := normalKey_of_percentage (trim_of_plain hsource rfl rfl) hfirst
    rw [hnormal]
    exact ⟨hlegible, hnormal⟩
  · have hsource := plain_of_kind hplain hkind rfl
    have htrim : Text.trim i.view.token.text = i.view.token.text :=
      trim_of_plain hsource rfl rfl
    unfold Keyframe.normalKey
    simp only [htrim]
    split
    · exact isKey_start
    · next hfrom =>
      rw [if_pos (hword.resolve_left hfrom)]
      exact isKey_end

/-- The keys of a reading are keys, and there is one where the last thing read was a key. -/
structure KeysRead (reading : KeyReading) : Prop where
  keys : ∀ key ∈ reading.keys, IsKey key
  some : reading.expectKey = false → reading.keys ≠ []

/-- One more token of a plain source leaves the keys of a reading keys. -/
theorem KeysRead.feed {reading : KeyReading} (h : KeysRead reading) (hplain : Plain i.pieces) :
    KeysRead (reading.feed i.view.token) := by
  unfold KeyReading.feed
  simp only
  split
  · next hkey =>
    rw [Bool.and_eq_true] at hkey
    constructor
    · intro key hmem
      rcases List.mem_append.1 hmem with hmem | hmem
      · exact h.keys key hmem
      · rw [List.mem_singleton.1 hmem]
        exact isKey_normalKey hplain hkey.1
    · intro _
      exact List.append_ne_nil_of_right_ne_nil _ (List.cons_ne_nil _ _)
  · split
    · exact ⟨h.keys, fun hexpect => absurd hexpect (by simp)⟩
    · exact ⟨h.keys, h.some⟩

/-- The keys that are read from a plain source are keys. -/
theorem keysFrom_read (rounds : Nat) {reading : KeyReading} (hplain : Plain i.pieces)
    (h : KeysRead reading) :
    (keysFrom rounds reading).Yields i fun reading _ => KeysRead reading := by
  induction rounds generalizing reading i with
  | zero => exact .pure h
  | succ rounds ih =>
    unfold keysFrom
    apply Yields.view
    split
    · exact .pure h
    · apply Yields.skip
      exact ih ((Reaches.advance i).plain hplain) (h.feed hplain)

/-- A reading that took a key. -/
def withKey (reading : KeyReading) (key : String) : KeyReading :=
  ⟨reading.keys ++ [key], reading.text ++ key, false, reading.valid⟩

/-- A key is taken where one must follow. -/
theorem gives_key {key : String} (hkey : IsKey key) {reading final : KeyReading}
    (hexpect : reading.expectKey = true) {rounds : Nat} {mid after : List Piece}
    (hahead : j.Ahead ((.percentage, key) :: mid))
    (hmore : (keysFrom rounds (withKey reading key)).Gives j.advance final after) :
    (keysFrom (rounds + 1) reading).Gives j final after := by
  have hkind : j.view.token.kind = .percentage := hahead.kind
  have hfeed : reading.feed j.view.token = withKey reading key := by
    have hisKey : KeyReading.isKey j.view.token = true := by
      rw [KeyReading.isKey, hkind]
      rfl
    unfold KeyReading.feed
    simp only [hisKey, hexpect, Bool.and_self, if_true]
    rw [hahead.text rfl, hkey.normal]
    rfl
  unfold keysFrom
  apply Gives.view
  rw [hahead.kind, headKind_cons rfl]
  apply Gives.skip
  rw [hfeed]
  exact hmore

/-- The comma after a key is taken. -/
theorem gives_keyComma {reading final : KeyReading} (hexpect : reading.expectKey = false)
    {rounds : Nat} {mid after : List Piece} (hahead : j.Ahead ((.comma, ",") :: mid))
    (hmore : (keysFrom rounds ⟨reading.keys, reading.text ++ ",", true, reading.valid⟩).Gives
      j.advance final after) : (keysFrom (rounds + 1) reading).Gives j final after := by
  have hkind : j.view.token.kind = .comma := hahead.kind
  have hfeed : reading.feed j.view.token =
      ⟨reading.keys, reading.text ++ ",", true, reading.valid⟩ := by
    unfold KeyReading.feed
    simp only [hexpect, Bool.and_false, Bool.false_eq_true, if_false, hkind, and_self, if_true]
    rw [hahead.text rfl]
  unfold keysFrom
  apply Gives.view
  rw [hahead.kind, headKind_cons rfl]
  apply Gives.skip
  rw [hfeed]
  exact hmore

/-- The pieces of a key. -/
def keyPieces (key : String) : List Piece :=
  [(.percentage, key)]

/-- More keys are read behind commas. -/
theorem gives_moreKeys {keys : List String} (hkeys : ∀ key ∈ keys, IsKey key) (rounds : Nat)
    {reading : KeyReading} (hvalid : reading.valid = true) (hexpect : reading.expectKey = false)
    {tail : List Piece}
    (hahead : j.Ahead ((keys.map keyPieces).flatMap (commaSeparator ++ ·) ++ tail))
    (hend : endsPreamble (headKind tail) = true) (hsize : j.size ≤ rounds) :
    ∃ text, (keysFrom rounds reading).Gives j ⟨reading.keys ++ keys, text, false, true⟩ tail := by
  induction keys generalizing rounds reading j with
  | nil =>
    have hsame : reading = ⟨reading.keys ++ [], reading.text, false, true⟩ := by
      rw [List.append_nil, ← hexpect, ← hvalid]
    refine ⟨reading.text, ?_⟩
    rw [← hsame]
    rcases rounds with _ | rounds
    · exact .pure hahead
    · unfold keysFrom
      apply Gives.view
      rw [hahead.kind]
      simp only [List.map_nil, List.flatMap_nil, List.nil_append, hend, if_true]
      exact .pure hahead
  | cons key keys ih =>
    rw [List.forall_mem_cons] at hkeys
    have hcomma : j.Ahead ((.comma, ",") :: blank :: (.percentage, key) ::
        ((keys.map keyPieces).flatMap (commaSeparator ++ ·) ++ tail)) := hahead
    have hkey := (hcomma.advance rfl).tail rfl
    obtain ⟨n, rfl⟩ : ∃ n, rounds = n + 1 + 1 := by
      have := hcomma.size rfl
      have := hkey.size rfl
      exact ⟨rounds - 2, by omega⟩
    have hlater : j.advance.advance.size ≤ n := by
      have := hcomma.size rfl
      have := hkey.size rfl
      omega
    obtain ⟨text, hmore⟩ := @ih j.advance.advance hkeys.2 n
      (withKey ⟨reading.keys, reading.text ++ ",", true, reading.valid⟩ key) hvalid rfl
      (hkey.advance rfl) hlater
    refine ⟨text, gives_keyComma hexpect hcomma (gives_key hkeys.1 rfl hkey ?_)⟩
    rw [withKey, List.append_assoc, List.singleton_append] at hmore
    exact hmore

/-- Keys that are printed are read back. -/
theorem gives_keysFrom {keys : List String} (hkeys : ∀ key ∈ keys, IsKey key) (hne : keys ≠ [])
    {tail : List Piece}
    (hahead : j.Ahead (commaSeparator.intercalate (keys.map keyPieces) ++ tail))
    (hend : endsPreamble (headKind tail) = true) :
    ∃ text, (keysFrom j.size .start).Gives j ⟨keys, text, false, true⟩ tail := by
  obtain ⟨key, keys, rfl⟩ := List.exists_cons_of_ne_nil hne
  rw [List.forall_mem_cons] at hkeys
  rw [List.map_cons, join_cons, List.append_assoc] at hahead
  have hsize := hahead.size rfl
  obtain ⟨text, hmore⟩ := @gives_moreKeys j.advance keys hkeys.2 j.advance.size
    (withKey .start key) rfl rfl tail (hahead.advance rfl) hend (Nat.le_refl _)
  rw [hsize]
  exact ⟨text, gives_key hkeys.1 rfl hahead hmore⟩

/-! ### Moments -/

/-- A moment is read back before any token. -/
def KeyframeReadsBack (ctx : Context) (frame : Keyframe) (placed : Prop := True) : Prop :=
  ReadsBack (fun _ => keyframe ctx) (· = .percentage) (fun _ => True) (some frame) frame.render
    placed

/-- A moment that has keys and a block that is read back is read back. -/
theorem keyframeReadsBack_of_block {frame : Keyframe} (hkeys : ∀ key ∈ frame.keys, IsKey key)
    (hne : frame.keys ≠ []) (hblock : ReadsBack (fun _ => declarationBlock ctx .standard)
      (· = .openCurly) (fun _ => True) (some frame.declarations) frame.declarations.renderBraced) :
    KeyframeReadsBack ctx frame := by
  obtain ⟨bs, hbs⟩ := hblock
  have hkeysLegible : Legible (commaSeparator.intercalate (frame.keys.map keyPieces)) := by
    apply legible_join separates_comma
    · intro ps hps
      obtain ⟨key, hkey, rfl⟩ := List.mem_map.1 hps
      exact (hkeys key hkey).legible
    · exact fun hnil => hne (List.map_eq_nil_iff.1 hnil)
  have hspell : ∀ key, spell (keyPieces key) = key.toList := by
    intro key
    simp [keyPieces]
  refine ⟨commaSeparator.intercalate (frame.keys.map keyPieces) ++ blank :: bs, ?_,
    hkeysLegible.append_blank hbs.legible, ?_, ?_⟩
  · rw [spell_append, spell_join, spell_cons, hbs.spell, Keyframe.render, List.map_map]
    simp [String.toList_append, String.toList_intercalate, Function.comp_def, hspell, blank,
      commaSeparator]
  · obtain ⟨key, keys, hcons⟩ := List.exists_cons_of_ne_nil hne
    rw [hcons, List.map_cons, join_cons]
    rfl
  · intro _ input tail hahead _ _
    rw [List.append_assoc] at hahead
    have hend : endsPreamble (headKind (blank :: bs ++ tail)) = true := by
      have hhead : headKind (blank :: bs ++ tail) = .openCurly := by
        rw [show headKind (blank :: bs ++ tail) = headKind (bs ++ tail) from rfl,
          hbs.headKind_append, hbs.starts]
      rw [hhead]
      rfl
    obtain ⟨text, hread⟩ := gives_keysFrom hkeys hne hahead hend
    apply Gives.inFrame
    apply Gives.view
    apply Gives.bind hread
    intro rest _ hrest
    simp only [KeyReading.isValid]
    apply Gives.bind (hbs.gives (rest.size + 1) rest tail (hrest.tail rfl) trivial
      (Nat.lt_succ_self _))
    intro rest' _ hrest'
    exact .pure hrest'

/-- A property of all that is made of blocks with some property, for a block that is used only if
something is valid. -/
theorem checkedBlock_yields {α : Type} {valid : Bool} {cause : Cause} {position : Position}
    {make : Block → α} {P : α → Prop} {Q : Block → Prop}
    (hread : ∀ rest, i.Reaches rest → (declarationBlock ctx .standard).Yields rest
      fun result _ => ∀ block, result = some block → Q block)
    (hmake : ∀ block, valid = true → Q block → P (make block)) :
    (checkedBlock ctx valid cause position make).Yields i fun result _ =>
      ∀ a, result = some a → P a := by
  have hused : ∀ rest : Input, i.Reaches rest →
      (blockIf ctx valid make).Yields rest fun result _ => ∀ a, result = some a → P a := by
    intro rest hreach
    apply Yields.bind (hread rest hreach)
    intro block? _ _ hblock
    rcases block? with _ | block
    · exact .none
    rcases hvalid : valid
    · exact .none
    apply Yields.some
    exact hmake block hvalid (hblock block rfl)
  unfold checkedBlock
  dsimp only
  split
  · apply Yields.bind_any
    intro _ rest hreach
    exact hused rest hreach
  · exact hused i (.refl i)

/-- A block that is used only if something is valid is read back where it is. -/
theorem checkedBlock_reads_back (hconfig : config.keepInvalidValues = false)
    (hplain : Plain i.pieces) {α : Type} {valid : Bool} {cause : Cause} {position : Position}
    {make : Block → α} {P : α → Prop} (hmake : ∀ block, valid = true →
      ReadsBack (fun _ => declarationBlock (.ofConfig config) .standard) (· = .openCurly)
        (fun _ => True) (some block) block.renderBraced → P (make block)) :
    (checkedBlock (.ofConfig config) valid cause position make).Yields i fun result _ =>
      ∀ a, result = some a → P a :=
  checkedBlock_yields (fun _ hreach => declarationBlock_reads_back hconfig (hreach.plain hplain))
    hmake

/-- A moment that was read is read back from its print. -/
theorem keyframe_reads_back (hconfig : config.keepInvalidValues = false) (hplain : Plain i.pieces) :
    (keyframe (.ofConfig config)).Yields i fun result _ => ∀ frame, result = some frame →
      KeyframeReadsBack (.ofConfig config) frame := by
  have hstart : KeysRead .start := ⟨List.forall_mem_nil _, fun h => absurd h (by decide)⟩
  rw [keyframe_eq]
  apply Yields.inFrame
  apply Yields.view
  apply Yields.bind (keysFrom_read i.view.size hplain hstart)
  intro reading rest hreach hreading
  refine checkedBlock_reads_back hconfig (hreach.plain hplain) ?_
  intro block hvalid hblock
  rw [KeyReading.isValid, Bool.and_eq_true, Bool.not_eq_true'] at hvalid
  exact keyframeReadsBack_of_block hreading.keys (hreading.some hvalid.2) hblock

/-! ### Names -/

/-- A name, printed as an identifier or as a string, is read back. -/
def NameReadsBack (name : String) (placed : Prop := True) : Prop :=
  ReadsBack (fun _ => animationName) (fun _ => True) (fun _ => True) (some name)
    (Rule.animationName name) placed

/-- A name that is an identifier is read back as it stands. -/
theorem nameReadsBack_of_identifier {name : String} (h : isIdentifier name = true) :
    NameReadsBack name placed := by
  refine ⟨[(.ident, name)], ?_, legible_identifier h, trivial, ?_⟩
  · rw [Rule.animationName, if_pos h, spell_cons, spell_nil, List.append_nil]
  · intro _ input tail hahead _ _
    have hahead : input.Ahead ((.ident, name) :: tail) placed := hahead
    unfold animationName
    apply Gives.view
    rw [hahead.kind, headKind_cons rfl]
    apply Gives.skip
    rw [hahead.text rfl]
    exact .pure (hahead.advance rfl)

/-- A name of one line that is no identifier is read back as a string. -/
theorem nameReadsBack_of_string {name : String} (h : isIdentifier name = false)
    (hline : OneLine name) : NameReadsBack name placed := by
  refine ⟨[(.string, Text.stringLiteral name)], ?_, .of_alone (alone_stringLiteral hline), trivial,
    ?_⟩
  · rw [Rule.animationName, h, if_neg Bool.false_ne_true, spell_cons, spell_nil, List.append_nil]
  · intro _ input tail hahead _ _
    have hahead : input.Ahead ((.string, Text.stringLiteral name) :: tail) placed := hahead
    have hcontents : input.view.token.contents = name :=
      contents_stringLiteral hahead.kind (hahead.text rfl)
    unfold animationName
    apply Gives.view
    rw [hahead.kind, headKind_cons rfl]
    apply Gives.skip
    rw [hcontents]
    exact .pure (hahead.advance rfl)

/-- The name of an animation that was read is read back from its print. -/
theorem animationName_reads_back (hplain : Plain i.pieces) :
    animationName.Yields i fun result _ => ∀ name, result = some name → NameReadsBack name := by
  unfold animationName
  apply Yields.view
  split
  · next hkind =>
    have hsource := plain_of_kind hplain hkind rfl
    have hidentifier := isIdentifier_of_first hsource.first_eq
    rw [String.ofList_toList] at hidentifier
    apply Yields.skip
    apply Yields.some
    exact nameReadsBack_of_identifier hidentifier
  · next hkind =>
    have hsource := plain_of_kind hplain hkind rfl
    apply Yields.skip
    apply Yields.some
    rcases h : isIdentifier i.view.token.contents
    · exact nameReadsBack_of_string h (oneLine_contents hsource hkind)
    · exact nameReadsBack_of_identifier h
  · exact .none

/-! ### Animations -/

/-- The moments that are read from a plain source are read back. -/
theorem keyframes_yields (hconfig : config.keepInvalidValues = false) (hplain : Plain i.pieces) :
    (keyframes (.ofConfig config)).Yields i fun frames _ => ∀ frame ∈ frames,
      KeyframeReadsBack (.ofConfig config) frame := by
  unfold keyframes
  apply Yields.view
  rw [keyframesFrom_eq]
  exact itemsFrom_yields (fun _ => keyframe_reads_back hconfig) _ hplain (List.forall_mem_nil _)

/-- The moments of an animation are read behind the brace that opens its block. -/
theorem gives_keyframes {frames : List Keyframe} {pss : List (List Piece)}
    (h : List.Forall₂ (fun frame ps => ReadsAs (fun _ => keyframe ctx) (· = .percentage)
      (fun _ => True) (some frame) frame.render ps placed) frames pss)
    (hplaced : frames ≠ [] → placed) {tail : List Piece}
    (hahead : j.Ahead (pss.flatMap (blank :: ·) ++ blank :: (.closeCurly, "\x7d") :: tail) placed) :
    (keyframes ctx).Gives j frames ((.closeCurly, "\x7d") :: tail) placed := by
  have hstarts : ∀ k : Kind, k = .percentage → endsItems k = false := by
    rintro k rfl
    rfl
  have hitems := gives_blockItems hstarts (fun _ hs => advances_keyframe hs) h hplaced hahead
    (Nat.lt_succ_self j.size)
  rw [← keyframesFrom_eq] at hitems
  exact .view hitems

/-- The text of an animation, behind its at-keyword. -/
def keyframesText (name : String) (frames : List Keyframe) : String :=
  Rule.animationName name ++ " " ++ Rule.braced (frames.map Keyframe.render)

/-- An animation is read back behind its at-keyword, where its name and its moments are. -/
theorem keyframesBody_reads_back {name : String} (hname : NameReadsBack name placed)
    {frames : List Keyframe} (hframes : ∀ frame ∈ frames, KeyframeReadsBack ctx frame placed)
    (hplaced : frames ≠ [] → placed) : BodyReadsBack (fun _ => keyframesRule ctx)
      (.keyframes name frames) (keyframesText name frames) placed := by
  obtain ⟨ns, hns⟩ := hname
  obtain ⟨pss, hpss⟩ := exists_readsAs hframes
  obtain ⟨hlegible, hspell⟩ := legible_of_forall₂ hpss
  refine ⟨ns ++ blank :: bracedPieces pss, ?_,
    hns.legible.append_blank (legible_braced hlegible), trivial, ?_⟩
  · rw [spell_append, hns.spell, spell_cons, spell_braced hspell, keyframesText,
      String.toList_append, String.toList_append, List.append_assoc]
    rfl
  · intro bound input tail hahead _ _
    rw [List.append_assoc] at hahead
    unfold keyframesRule
    apply Gives.bind (hns.gives (input.size + 1) input _ hahead trivial (Nat.lt_succ_self _))
    intro rest _ hrest
    have hbrace : rest.Ahead (bracedPieces pss ++ tail) placed := hrest.tail rfl
    rw [bracedPieces, List.cons_append, List.append_assoc] at hbrace
    apply Gives.bind (gives_blockOpening hbrace)
    intro rest' _ hrest'
    rw [if_pos rfl]
    apply Gives.bind (gives_keyframes hpss hplaced hrest')
    intro rest'' _ hrest''
    apply Gives.bind (Gives.skipIf rfl hrest'')
    intro _ _ hlast
    exact .pure hlast

/-- An animation that was read is read back behind its at-keyword. -/
theorem keyframesRule_reads_back (hconfig : config.keepInvalidValues = false)
    (hplain : Plain i.pieces) :
    (keyframesRule (.ofConfig config)).Yields i fun result _ => ∀ r, result = some r →
      ∃ name frames, r = .keyframes name frames ∧
        BodyReadsBack (fun _ => keyframesRule (.ofConfig config)) r
          (keyframesText name frames) := by
  unfold keyframesRule
  apply Yields.bind (animationName_reads_back hplain)
  intro parsed rest hreach hparsed
  rcases parsed with _ | name
  · exact .abandons
  apply Yields.bind_any
  intro opened rest' hreach'
  split
  case isFalse => exact .none
  apply Yields.bind (keyframes_yields hconfig ((hreach.trans hreach').plain hplain))
  intro frames _ _ hframes
  apply Yields.bind_any
  intro _ _ _
  apply Yields.some
  exact ⟨name, frames, rfl,
    keyframesBody_reads_back (hparsed name rfl) hframes fun _ => trivial⟩

end Cssom.Grammar

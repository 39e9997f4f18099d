import Cssom.Parser.Entry
import Cssom.Proofs.Reading.LikeRules

/-!
# What places are read for

Places serve diagnostics, with one exception: the guard of a loop takes two tokens for one when they
start at the same byte. So token lists of the same kinds and texts are read as the same style sheet
wherever their tokens stand, as long as the significant tokens of both start at equal bytes in the
same cases (`sheet_ignores_places`). Tokens of one source all start at different bytes; those of
several sources, put together, need not.
-/

namespace Cssom

open Production

/-- Tokens of the same kind and text. -/
def Token.Similar (t u : Token) : Prop :=
  t.kind = u.kind ∧ t.text = u.text

/-! ### Lexemes of the same kinds and texts -/

/-- Trivia of the same kinds make the same spacing. -/
theorem Spacing.ofTrivia_congr {ts us : List Token} (h : ts.map Token.kind = us.map Token.kind) :
    ofTrivia ts = ofTrivia us := by
  have hany (ts : List Token) :
      ts.any (·.kind == .whitespace) = (ts.map Token.kind).any (· == .whitespace) := by
    rw [List.any_map]
    rfl
  have hempty (ts : List Token) : ts.isEmpty = (ts.map Token.kind).isEmpty := by
    rw [List.isEmpty_map]
  rw [ofTrivia, ofTrivia, hany, hany us, hempty, hempty us, h]

namespace Lexeme

/-- Lexemes of similar tokens, after trivia of the same kinds. -/
structure Similar (a b : Lexeme) : Prop where
  token : a.token.Similar b.token
  lead : a.lead.map Token.kind = b.lead.map Token.kind

/-- Similar tokens are cut into similar lexemes, and trivia of the same kinds follow these. -/
theorem group_similar {ts us : List Token} (h : List.Forall₂ Token.Similar ts us) :
    List.Forall₂ Similar (group ts).1 (group us).1 ∧
      (group ts).2.map Token.kind = (group us).2.map Token.kind := by
  induction h with
  | nil => exact ⟨.nil, rfl⟩
  | @cons t u ts us hfirst _ ih =>
    obtain ⟨hlexemes, htrailing⟩ := ih
    by_cases ht : t.kind.isSignificant = true
    · have hu : u.kind.isSignificant = true := hfirst.1 ▸ ht
      simp only [group, ht, hu, dite_true]
      exact ⟨.cons ⟨hfirst, rfl⟩ hlexemes, htrailing⟩
    · have hu : ¬u.kind.isSignificant = true := hfirst.1 ▸ ht
      simp only [group, ht, hu]
      rcases hgt : group ts with ⟨_ | ⟨a, as⟩, trailing⟩ <;>
        rcases hgu : group us with ⟨_ | ⟨b, bs⟩, trailing'⟩ <;>
        rw [hgt, hgu] at hlexemes htrailing
      · exact ⟨.nil, congrArg₂ List.cons hfirst.1 htrailing⟩
      · cases hlexemes
      · cases hlexemes
      · obtain ⟨hlexeme, hrest⟩ := List.forall₂_cons.1 hlexemes
        have hlead : (a.precede t (Bool.eq_false_iff.2 ht)).Similar
            (b.precede u (Bool.eq_false_iff.2 hu)) :=
          ⟨hlexeme.token, congrArg₂ List.cons hfirst.1 hlexeme.lead⟩
        exact ⟨.cons hlead hrest, htrailing⟩

end Lexeme

namespace Token.Supply

/-- Similar tokens stay so up to the first of kind EOF. -/
theorem takeWhile_similar {ts us : List Token} (h : List.Forall₂ Token.Similar ts us) :
    List.Forall₂ Token.Similar (ts.takeWhile (·.kind != .eof))
      (us.takeWhile (·.kind != .eof)) := by
  induction h with
  | nil => exact .nil
  | cons hfirst _ ih =>
    rw [List.takeWhile_cons, List.takeWhile_cons, hfirst.1]
    split
    · exact .cons hfirst ih
    · exact .nil

/-- Similar tokens end in tokens of the same text. -/
theorem text_endOf_similar {ts us : List Token} (h : List.Forall₂ Token.Similar ts us) :
    (endOf ts).1.text = (endOf us).1.text := by
  have hreverse := List.rel_reverse h
  unfold endOf
  rw [List.getLast?_eq_head?_reverse, List.getLast?_eq_head?_reverse]
  generalize ts.reverse = last, us.reverse = last' at hreverse ⊢
  cases hreverse with
  | nil => rfl
  | @cons t u _ _ hlast _ =>
    by_cases ht : t.kind = .eof
    · have hu : u.kind = .eof := hlast.1 ▸ ht
      simp only [List.head?_cons, ht, hu, dite_true]
      exact hlast.2
    · have hu : u.kind ≠ .eof := hlast.1 ▸ ht
      simp only [List.head?_cons, ht, hu, dite_false]
      rfl

end Token.Supply

/-! ### Places that meet in the same cases -/

/-- Two lists have equal members in the same cases. -/
def Coincide {α β : Type} (as : List α) (bs : List β) : Prop :=
  ∀ i j : Nat, as[i]? = as[j]? ↔ bs[i]? = bs[j]?

/-- Where no member of a list is equal to another, equal members are at equal indices. -/
theorem getElem?_eq_iff_of_nodup {α : Type} {as : List α} (h : as.Nodup) (i j : Nat) :
    as[i]? = as[j]? ↔ i = j ∨ as.length ≤ i ∧ as.length ≤ j := by
  rcases Nat.lt_or_ge i as.length with hi | hi
  · rw [List.getElem?_inj hi h]
    exact ⟨.inl, fun hij => hij.resolve_right fun hle => Nat.not_lt_of_le hle.1 hi⟩
  · rw [List.getElem?_eq_none hi, eq_comm, List.getElem?_eq_none_iff]
    constructor
    · exact fun hj => .inr ⟨hi, hj⟩
    · rintro (rfl | ⟨_, hj⟩)
      · exact hi
      · exact hj

/-- Lists of the same length, in none of which a member is equal to another. -/
theorem Coincide.of_nodup {α β : Type} {as : List α} {bs : List β} (ha : as.Nodup) (hb : bs.Nodup)
    (hlength : as.length = bs.length) : Coincide as bs := by
  intro i j
  rw [getElem?_eq_iff_of_nodup ha, getElem?_eq_iff_of_nodup hb, hlength]

namespace Likeness

/-- Readings of tokens that start at the bytes of two lists, in order. They may differ in all that
has to do with places. -/
def moved {as bs : List UInt32} (h : Coincide as bs) : Likeness where
  span _ _ := True
  position _ _ := True
  offset a b := ∃ k : Nat, as[k]? = some a ∧ bs[k]? = some b
  property := id
  token := Token.unplaced
  quiet := false
  position_start _ := trivial
  meets := by
    rintro a b a' b' ⟨k, hak, hbk⟩ ⟨l, hal, hbl⟩
    have hkl := h k l
    rw [hak, hbk, hal, hbl] at hkl
    simpa using hkl
  token_eq _ _ _ _ _ := rfl
  name_property _ := rfl
  assign_property _ _ _ := rfl

variable {ts us : List Token}

/-- Similar tokens whose places meet in the same cases are alike as inputs. -/
theorem moved_inputs (hsimilar : List.Forall₂ Token.Similar ts us)
    (hplaces : Coincide (Input.ofTokens ts).offsets (Input.ofTokens us).offsets) :
    (moved hplaces).Inputs (.ofTokens ts) (.ofTokens us) := by
  obtain ⟨hlexemes, htrailing⟩ :=
    Lexeme.group_similar (Token.Supply.takeWhile_similar hsimilar)
  refine ⟨List.forall₂_iff_zip.2 ⟨hlexemes.length_eq, fun hmem => ?_⟩,
    Spacing.ofTrivia_congr htrailing, Token.Supply.text_endOf_similar hsimilar, trivial⟩
  have hlexeme := (List.forall₂_iff_zip.1 hlexemes).2 hmem
  obtain ⟨k, hk⟩ := List.mem_iff_getElem?.1 hmem
  obtain ⟨ha, hb⟩ := List.getElem?_zip_eq_some.1 hk
  have hoffset (ts : List Token) {a : Lexeme} (h : (Input.ofTokens ts).ahead[k]? = some a) :
      (Input.ofTokens ts).offsets[k]? = some a.token.span.start.offset := by
    rw [Input.offsets, List.getElem?_map, h]
    rfl
  exact ⟨hlexeme.token.1, hlexeme.token.2, trivial, ⟨k, hoffset ts ha, hoffset us hb⟩,
    Spacing.ofTrivia_congr hlexeme.lead⟩

/-- A context goes with itself, as long as nothing is left out. -/
theorem Contexts.refl {L : Likeness} (hquiet : L.quiet = false) (ctx : Context) :
    L.Contexts ctx ctx where
  keepInvalidValues := rfl
  keepUnknownRules := rfl
  feature _ := rfl
  property set name a b hposition := by
    refine .ite .rfl (.pure rfl) ?_
    split
    · exact .pure rfl
    · exact .bindEq (.complainAt (leavesOut_of_not_quiet hquiet _) hposition) fun _ => .pure rfl
  condition _ := rfl

end Likeness

/-- Places serve diagnostics only, apart from the guard of loops: whatever the configuration, token
lists of the same kinds and texts, whose significant tokens start at equal bytes in the same cases,
are read as the same style sheet, and the same causes are reported in the same order. -/
theorem sheet_ignores_places (config : Config) {ts us : List Token}
    (hsimilar : List.Forall₂ Token.Similar ts us)
    (hplaces : Coincide (Input.ofTokens ts).offsets (Input.ofTokens us).offsets) :
    (Stylesheet.parse ts config).1.same (Stylesheet.parse us config).1 = true ∧
    (Stylesheet.parse ts config).2.diagnostics.toList.map Diagnostic.cause =
      (Stylesheet.parse us config).2.diagnostics.toList.map Diagnostic.cause := by
  have halike := Grammar.alike_stylesheet (.refl (L := .moved hplaces) rfl (.ofConfig config))
    _ _ (Likeness.moved_inputs hsimilar hplaces)
  rw [Stylesheet.parse_result, Stylesheet.parse_result, Stylesheet.parse_reports,
    Stylesheet.parse_reports]
  refine ⟨Stylesheet.same_of_mapParts halike.result, ?_⟩
  have hall (d : Diagnostic) : (!(Likeness.moved hplaces).leavesOut d.cause) = true := by
    rw [Likeness.leavesOut_of_not_quiet rfl, Bool.not_false]
  have hcauses := halike.reports.map_cause
  rwa [List.filter_eq_self.2 fun d _ => hall d] at hcauses

/-- A rule of an unknown name, kept from two sources put together: where the tokens stand makes no
difference, as long as no two of them start at the same byte. -/
theorem sheet_ignores_places_of_two_files :
    let tokens (a b : UInt32) (file : String) : List Token :=
      [⟨.atKeyword, "@a", ⟨⟨a, ""⟩, ⟨a + 2, ""⟩⟩⟩, ⟨.semicolon, ";", ⟨⟨a + 2, ""⟩, ⟨a + 3, ""⟩⟩⟩,
        ⟨.closeCurly, "\x7d", ⟨⟨b, file⟩, ⟨b + 1, file⟩⟩⟩]
    (Stylesheet.parse (tokens 0 3 "") .tolerant).1.same
        (Stylesheet.parse (tokens 7 0 "other") .tolerant).1 = true ∧
      (Stylesheet.parse (tokens 0 3 "") .tolerant).2.diagnostics.toList.map Diagnostic.cause =
        (Stylesheet.parse (tokens 7 0 "other") .tolerant).2.diagnostics.toList.map
          Diagnostic.cause :=
  sheet_ignores_places .tolerant (.cons ⟨rfl, rfl⟩ (.cons ⟨rfl, rfl⟩ (.cons ⟨rfl, rfl⟩ .nil)))
    (.of_nodup (by decide) (by decide) (by decide))

/-- Two rules that start at the same byte, each of its own file: the guard takes the start of the
second for that of the first and passes over it. -/
example :
    let rules (second : UInt32) : List Token :=
      [⟨.ident, "a", ⟨⟨0, "a"⟩, ⟨1, "a"⟩⟩⟩, ⟨.openCurly, "\x7b", ⟨⟨1, "a"⟩, ⟨2, "a"⟩⟩⟩,
        ⟨.closeCurly, "\x7d", ⟨⟨2, "a"⟩, ⟨3, "a"⟩⟩⟩, ⟨.ident, "b", ⟨⟨second, "b"⟩, ⟨4, "b"⟩⟩⟩,
        ⟨.openCurly, "\x7b", ⟨⟨4, "b"⟩, ⟨5, "b"⟩⟩⟩, ⟨.closeCurly, "\x7d", ⟨⟨5, "b"⟩, ⟨6, "b"⟩⟩⟩]
    (Stylesheet.parse (rules 0) .strict).1.same (Stylesheet.parse (rules 3) .strict).1 = false := by
  decide

end Cssom

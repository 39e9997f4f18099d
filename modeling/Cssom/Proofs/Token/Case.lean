import Cssom.Proofs.Token.Apart

/-!
# Tokens in small letters

No form tells capital letters from small ones. So a text is cut into tokens in the same places, and
of the same kinds, when its letters are made small (`first_lower`).
-/

namespace Cssom

/-! ### Capital letters -/

namespace Text

/-- The letters that have a small form. -/
def capitals : List Char :=
  (List.range 26).map fun i => Char.ofNat (65 + i)

/-- A character is small already, or a capital. -/
theorem toLower_eq_or_mem (c : Char) : c.toLower = c ∨ c ∈ capitals := by
  by_cases h : c.val ≥ 'A'.val ∧ c.val ≤ 'Z'.val
  · right
    have hlow : 65 ≤ c.toNat := h.1
    have hhigh : c.toNat ≤ 90 := h.2
    refine List.mem_map.2 ⟨c.toNat - 65, List.mem_range.2 (by omega), ?_⟩
    rw [show 65 + (c.toNat - 65) = c.toNat by omega, Char.ofNat_toNat]
  · left
    exact dif_neg h

/-- A test that treats the capitals like their small forms treats every letter so. -/
theorem toLower_congr {α : Type} [DecidableEq α] {f : Char → α}
    (h : (capitals.all fun c => f c.toLower == f c) = true) (c : Char) : f c.toLower = f c := by
  rcases toLower_eq_or_mem c with hc | hc
  · rw [hc]
  · exact eq_of_beq (List.all_eq_true.1 h c hc)

/-- Small letters stay as they are. -/
theorem map_toLower_map_toLower (cs : List Char) :
    (cs.map Char.toLower).map Char.toLower = cs.map Char.toLower := by
  rw [List.map_map]
  exact List.map_congr_left fun c _ => toLower_congr (f := Char.toLower) (by decide) c

/-- Small letters are not made smaller. -/
theorem lower_lower (s : String) : lower (lower s) = lower s := by
  rw [lower, toList_lower, map_toLower_map_toLower, lower]

end Text

/-! ### Patterns that do not tell capitals from small letters -/

namespace Pattern

/-- Whether no test in the pattern tells a capital from its small form. -/
def isCaseless : Pattern → Bool
  | one accepts => Text.capitals.all fun c => accepts c.toLower == accepts c
  | nothing | atEnd => true
  | seq first second => first.isCaseless && second.isCaseless
  | alt preferred fallback => preferred.isCaseless && fallback.isCaseless
  | many unit | few unit => unit.isCaseless

/-- A place with the text that is left in small letters. -/
def lowerPlace (a : Place) : Place :=
  (a.1, a.2.map Char.toLower)

/-- A pattern repeated as often as it matches does not tell capitals, if the pattern does not. -/
theorem endsMany_lower {step : Place → List Place}
    (h : ∀ a, step (lowerPlace a) = (step a).map lowerPlace) (rounds : List Char) (a : Place) :
    endsMany step (rounds.map Char.toLower) (lowerPlace a) =
      (endsMany step rounds a).map lowerPlace := by
  induction rounds generalizing a with
  | nil => rfl
  | cons c rounds ih =>
    rw [List.map_cons, endsMany, endsMany, h, List.flatMap_map, List.map_append, List.map_flatMap]
    simp only [ih, List.map_cons, List.map_nil]

/-- A pattern repeated as seldom as will do does not tell capitals, if the pattern does not. -/
theorem endsFew_lower {step : Place → List Place}
    (h : ∀ a, step (lowerPlace a) = (step a).map lowerPlace) (rounds : List Char) (a : Place) :
    endsFew step (rounds.map Char.toLower) (lowerPlace a) =
      (endsFew step rounds a).map lowerPlace := by
  induction rounds generalizing a with
  | nil => rfl
  | cons c rounds ih =>
    rw [List.map_cons, endsFew, endsFew, h, List.flatMap_map, List.map_cons, List.map_flatMap]
    simp only [ih]

/-- A caseless pattern ends in small letters where it ends in any. -/
theorem ends_lower {p : Pattern} (h : p.isCaseless = true) (a : Place) :
    p.ends (lowerPlace a) = (p.ends a).map lowerPlace := by
  induction p generalizing a with
  | one accepts =>
    rcases a with ⟨n, _ | ⟨c, s⟩⟩
    · rfl
    · have hc : accepts c.toLower = accepts c :=
        Text.toLower_congr h c
      rw [lowerPlace, List.map_cons, ends, ends, hc]
      split <;> rfl
  | nothing => rfl
  | atEnd =>
    rcases a with ⟨n, _ | ⟨c, s⟩⟩ <;> rfl
  | seq first second ihFirst ihSecond =>
    rw [isCaseless, Bool.and_eq_true] at h
    rw [ends, ends, ihFirst h.1, List.flatMap_map, List.map_flatMap]
    exact List.flatMap_congr fun b _ => ihSecond h.2 b
  | alt preferred fallback ihPreferred ihFallback =>
    rw [isCaseless, Bool.and_eq_true] at h
    rw [ends, ends, ihPreferred h.1, ihFallback h.2, List.map_append]
  | many unit ih => exact endsMany_lower (fun a => ih h a) a.2 a
  | few unit ih => exact endsFew_lower (fun a => ih h a) a.2 a

/-- A caseless pattern takes as many characters in small letters as in any. -/
theorem length?_lower {p : Pattern} (h : p.isCaseless = true) (s : List Char) :
    p.length? (s.map Char.toLower) = p.length? s := by
  have hends := ends_lower h (0, s)
  rw [length?_eq_head?, length?_eq_head?]
  rw [show ((0, s.map Char.toLower) : Place) = lowerPlace (0, s) from rfl, hends, List.head?_map,
    Option.map_map]
  rfl

end Pattern

namespace Token

open Pattern

/-- No form tells capitals from small letters. -/
theorem forms_caseless : ∀ form ∈ forms, form.2.isCaseless = true :=
  List.all_eq_true.1 (by rfl)

/-- The first token of a text in small letters is that of the text. -/
theorem first_lower (s : List Char) : first (s.map Char.toLower) = first s := by
  rw [first_eq_firstFrom, first_eq_firstFrom, firstFrom, firstFrom]
  congr 1
  have hall := forms_caseless
  generalize forms = table at hall
  induction table with
  | nil => rfl
  | cons form table ih =>
    rw [List.forall_mem_cons] at hall
    rw [List.findSome?_cons, List.findSome?_cons, length?_lower hall.1, ih hall.2]

end Token

end Cssom

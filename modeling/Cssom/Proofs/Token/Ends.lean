import Cssom.Token.Pattern
import Mathlib.Data.List.Basic

/-!
# Where patterns end

Every end of a pattern splits the text it starts on (`splits_of_mem_ends`). Whether a pattern always
takes something shows in how it is put together (`takesSome`, `lt_of_mem_ends`), and a pattern that
does is repeated until it fails and not until its rounds run out (`ends_many`). How much was taken
before makes no difference to what a pattern takes (`ends_further`).
-/

namespace Cssom.Pattern

/-- The second place is further on in the same text. -/
def Splits (a b : Place) : Prop :=
  ∃ taken, a.2 = taken ++ b.2 ∧ b.1 = a.1 + taken.length

namespace Splits

/-- A place is as far on as itself. -/
theorem refl (a : Place) : Splits a a := ⟨[], rfl, rfl⟩

/-- A place further on than one further on is further on. -/
theorem trans {a b c : Place} (hab : Splits a b) (hbc : Splits b c) : Splits a c := by
  obtain ⟨s, hs, hn⟩ := hab
  obtain ⟨t, ht, hm⟩ := hbc
  refine ⟨s ++ t, ?_, ?_⟩
  · rw [hs, ht, List.append_assoc]
  · rw [hm, hn, List.length_append, Nat.add_assoc]

/-- Further on no fewer characters were taken. -/
theorem le {a b : Place} (h : Splits a b) : a.1 ≤ b.1 := by
  obtain ⟨taken, _, hn⟩ := h
  omega

/-- What was taken and what is left are as long together everywhere. -/
theorem length_eq {a b : Place} (h : Splits a b) : a.1 + a.2.length = b.1 + b.2.length := by
  obtain ⟨taken, hs, hn⟩ := h
  rw [hs, hn, List.length_append, Nat.add_assoc]

end Splits

/-- Every end of a pattern repeated as often as it matches is further on, if those of the pattern
are. -/
theorem splits_of_mem_endsMany {unit : Place → List Place}
    (hunit : ∀ a, ∀ b ∈ unit a, Splits a b) (rounds : List Char) (a : Place) :
    ∀ b ∈ endsMany unit rounds a, Splits a b := by
  induction rounds generalizing a with
  | nil =>
    intro b hb
    rw [endsMany, List.mem_singleton] at hb
    exact hb ▸ .refl a
  | cons _ rounds ih =>
    intro b hb
    rw [endsMany, List.mem_append, List.mem_flatMap, List.mem_singleton] at hb
    rcases hb with ⟨m, hm, hb⟩ | rfl
    · exact (hunit a m hm).trans (ih m b hb)
    · exact .refl b

/-- Every end of a pattern repeated as seldom as will do is further on, if those of the pattern
are. -/
theorem splits_of_mem_endsFew {unit : Place → List Place}
    (hunit : ∀ a, ∀ b ∈ unit a, Splits a b) (rounds : List Char) (a : Place) :
    ∀ b ∈ endsFew unit rounds a, Splits a b := by
  induction rounds generalizing a with
  | nil =>
    intro b hb
    rw [endsFew, List.mem_singleton] at hb
    exact hb ▸ .refl a
  | cons _ rounds ih =>
    intro b hb
    rw [endsFew, List.mem_cons, List.mem_flatMap] at hb
    rcases hb with rfl | ⟨m, hm, hb⟩
    · exact .refl b
    · exact (hunit a m hm).trans (ih m b hb)

/-- A pattern ends further on in the text it starts on. -/
theorem splits_of_mem_ends (p : Pattern) (a : Place) : ∀ b ∈ p.ends a, Splits a b := by
  induction p generalizing a with
  | one accepts =>
    rcases a with ⟨n, _ | ⟨c, s⟩⟩
    · exact fun _ hb => absurd hb List.not_mem_nil
    · intro b hb
      rw [ends] at hb
      split at hb
      · rw [List.mem_singleton] at hb
        exact ⟨[c], by simp [hb], by simp [hb]⟩
      · exact absurd hb List.not_mem_nil
  | nothing =>
    intro b hb
    rw [ends, List.mem_singleton] at hb
    exact hb ▸ .refl a
  | atEnd =>
    intro b hb
    rw [ends] at hb
    split at hb
    · rw [List.mem_singleton] at hb
      exact hb ▸ .refl a
    · exact absurd hb List.not_mem_nil
  | seq first second ihFirst ihSecond =>
    intro b hb
    rw [ends, List.mem_flatMap] at hb
    obtain ⟨m, hm, hb⟩ := hb
    exact (ihFirst a m hm).trans (ihSecond m b hb)
  | alt preferred fallback ihPreferred ihFallback =>
    intro b hb
    rw [ends, List.mem_append] at hb
    rcases hb with hb | hb
    · exact ihPreferred a b hb
    · exact ihFallback a b hb
  | many unit ih => exact splits_of_mem_endsMany (fun a => ih a) a.2 a
  | few unit ih => exact splits_of_mem_endsFew (fun a => ih a) a.2 a

/-! ### Patterns that take something -/

/-- Whether the pattern never matches the empty text. -/
def takesSome : Pattern → Bool
  | one _ => true
  | nothing | atEnd | many _ | few _ => false
  | seq first second => first.takesSome || second.takesSome
  | alt preferred fallback => preferred.takesSome && fallback.takesSome

/-- A pattern that takes something ends further on than it starts. -/
theorem lt_of_mem_ends (p : Pattern) (h : p.takesSome = true) (a : Place) :
    ∀ b ∈ p.ends a, a.1 < b.1 := by
  induction p generalizing a with
  | one accepts =>
    rcases a with ⟨n, _ | ⟨c, s⟩⟩
    · exact fun _ hb => absurd hb List.not_mem_nil
    · intro b hb
      rw [ends] at hb
      split at hb
      · rw [List.mem_singleton] at hb
        simp [hb]
      · exact absurd hb List.not_mem_nil
  | nothing | atEnd | many | few => simp [takesSome] at h
  | seq first second ihFirst ihSecond =>
    intro b hb
    rw [ends, List.mem_flatMap] at hb
    obtain ⟨m, hm, hb⟩ := hb
    have hfirst := (first.splits_of_mem_ends a m hm).le
    have hsecond := (second.splits_of_mem_ends m b hb).le
    rw [takesSome, Bool.or_eq_true] at h
    rcases h with h | h
    · exact Nat.lt_of_lt_of_le (ihFirst h a m hm) hsecond
    · exact Nat.lt_of_le_of_lt hfirst (ihSecond h m b hb)
  | alt preferred fallback ihPreferred ihFallback =>
    intro b hb
    rw [takesSome, Bool.and_eq_true] at h
    rw [ends, List.mem_append] at hb
    rcases hb with hb | hb
    · exact ihPreferred h.1 a b hb
    · exact ihFallback h.2 a b hb

/-- What is left after a unit that takes something is shorter. -/
theorem length_lt_of_mem_ends (p : Pattern) (h : p.takesSome = true) {a b : Place}
    (hb : b ∈ p.ends a) : b.2.length < a.2.length := by
  have hlen := (p.splits_of_mem_ends a b hb).length_eq
  have hlt := p.lt_of_mem_ends h a b hb
  omega

/-! ### Repetition -/

/-- As many rounds as there are characters are enough for a pattern that takes something. -/
theorem endsMany_eq_of_le {unit : Pattern} (h : unit.takesSome = true)
    {rounds rounds' : List Char} {a : Place} (hr : a.2.length ≤ rounds.length)
    (hr' : a.2.length ≤ rounds'.length) :
    endsMany (fun p => unit.ends p) rounds a = endsMany (fun p => unit.ends p) rounds' a := by
  induction rounds generalizing rounds' a with
  | nil =>
    have hnil : unit.ends a = [] := by
      rw [List.eq_nil_iff_forall_not_mem]
      intro b hb
      have := unit.length_lt_of_mem_ends h hb
      simp only [List.length_nil] at hr
      omega
    cases rounds' <;> simp [endsMany, hnil]
  | cons _ rounds ih =>
    cases rounds' with
    | nil =>
      have hnil : unit.ends a = [] := by
        rw [List.eq_nil_iff_forall_not_mem]
        intro b hb
        have := unit.length_lt_of_mem_ends h hb
        simp only [List.length_nil] at hr'
        omega
      simp [endsMany, hnil]
    | cons _ rounds' =>
      simp only [List.length_cons] at hr hr'
      rw [endsMany, endsMany]
      congr 1
      refine List.flatMap_congr fun b hb => ?_
      have := unit.length_lt_of_mem_ends h hb
      exact ih (by omega) (by omega)

/-- A repetition goes on with itself after a unit, and ends where it stands last of all. -/
theorem ends_many {unit : Pattern} (h : unit.takesSome = true) (a : Place) :
    (many unit).ends a = (unit.ends a).flatMap (many unit).ends ++ [a] := by
  rcases a with ⟨n, _ | ⟨c, s⟩⟩
  · have hnil : unit.ends (n, []) = [] := by
      rw [List.eq_nil_iff_forall_not_mem]
      intro b hb
      exact absurd (unit.length_lt_of_mem_ends h hb) (Nat.not_lt_zero _)
    rw [ends, endsMany, hnil]
    rfl
  · rw [ends, endsMany]
    congr 1
    refine List.flatMap_congr fun b hb => ?_
    have := unit.length_lt_of_mem_ends h hb
    rw [ends]
    exact endsMany_eq_of_le h (by simp only [List.length_cons] at this; omega) (Nat.le_refl _)

/-! ### Counting from elsewhere -/

/-- The same place, with more characters taken before it. -/
def further (m : Nat) (a : Place) : Place :=
  (m + a.1, a.2)

/-- Repeating a pattern as often as it matches makes no difference between places further on. -/
theorem endsMany_further {unit : Place → List Place} {m : Nat}
    (hunit : ∀ a, unit (further m a) = (unit a).map (further m)) (rounds : List Char) (a : Place) :
    endsMany unit rounds (further m a) = (endsMany unit rounds a).map (further m) := by
  induction rounds generalizing a with
  | nil => rfl
  | cons _ rounds ih =>
    rw [endsMany, endsMany, hunit, List.map_append, List.map_flatMap, List.flatMap_map]
    simp only [ih, List.map_cons, List.map_nil]

/-- Repeating a pattern as seldom as will do makes no difference between places further on. -/
theorem endsFew_further {unit : Place → List Place} {m : Nat}
    (hunit : ∀ a, unit (further m a) = (unit a).map (further m)) (rounds : List Char) (a : Place) :
    endsFew unit rounds (further m a) = (endsFew unit rounds a).map (further m) := by
  induction rounds generalizing a with
  | nil => rfl
  | cons _ rounds ih =>
    rw [endsFew, endsFew, hunit, List.map_cons, List.map_flatMap, List.flatMap_map]
    simp only [ih]

/-- The ends of a pattern are the same wherever characters are counted from. -/
theorem ends_further (p : Pattern) (m : Nat) (a : Place) :
    p.ends (further m a) = (p.ends a).map (further m) := by
  induction p generalizing a with
  | one accepts =>
    rcases a with ⟨n, _ | ⟨c, s⟩⟩
    · rfl
    · by_cases hc : accepts c = true <;> simp [further, ends, hc, Nat.add_assoc]
  | nothing => rfl
  | atEnd =>
    rcases a with ⟨n, _ | ⟨c, s⟩⟩ <;> rfl
  | seq first second ihFirst ihSecond =>
    rw [ends, ends, ihFirst, List.map_flatMap, List.flatMap_map]
    simp only [ihSecond]
  | alt preferred fallback ihPreferred ihFallback =>
    rw [ends, ends, ihPreferred, ihFallback, List.map_append]
  | many unit ih => exact endsMany_further (fun a => ih a) a.2 a
  | few unit ih => exact endsFew_further (fun a => ih a) a.2 a

end Cssom.Pattern

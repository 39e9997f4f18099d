/-!
# Patterns of characters

A pattern says which texts a token may consist of, and in which order its ways to match are tried.
`ends` is the meaning of a pattern: the ends it can reach from a place, the preferred one first.
`seek` finds the first end from which a continuation succeeds, and looks no further; it is what
runs. `seek_eq_findSome?` says that the two agree.
-/

namespace Cssom

/-- Patterns of characters, with preferences among their ways to match. -/
inductive Pattern where
  /-- One character that a test accepts. -/
  | one (accepts : Char → Bool)
  /-- The empty text. -/
  | nothing
  /-- The empty text, at the end of the input only. -/
  | atEnd
  /-- One pattern, then another. -/
  | seq (first second : Pattern)
  /-- One pattern, or else another. -/
  | alt (preferred fallback : Pattern)
  /-- A pattern over and over, as often as it matches, giving back one at a time. -/
  | many (unit : Pattern)
  /-- A pattern over and over, as seldom as will do. -/
  | few (unit : Pattern)

namespace Pattern

/-- A place in the input: how many characters were taken, and what is left. -/
abbrev Place := Nat × List Char

/-- The continuation of a match: what is made of the place a pattern ended at, if anything. -/
abbrev Next (β : Type) := Nat → List Char → Option β

/-- Repeats a pattern as often as it matches before going on. The first list bounds the rounds: no
unit is empty, so there are not more of them than characters. -/
def seekMany {β : Type} (unit : Nat → List Char → Next β → Option β) :
    List Char → Nat → List Char → Next β → Option β
  | [], n, s, k => k n s
  | _ :: rounds, n, s, k =>
    match unit n s fun m r => seekMany unit rounds m r k with
    | some b => some b
    | none => k n s

/-- Goes on as soon as that succeeds, and repeats a pattern only where it does not. -/
def seekFew {β : Type} (unit : Nat → List Char → Next β → Option β) :
    List Char → Nat → List Char → Next β → Option β
  | [], n, s, k => k n s
  | _ :: rounds, n, s, k =>
    match k n s with
    | some b => some b
    | none => unit n s fun m r => seekFew unit rounds m r k

/-- The answer of the continuation at the first end of the pattern, in order of preference, at
which it has one. -/
def seek {β : Type} : Pattern → Nat → List Char → Next β → Option β
  | one _, _, [], _ => none
  | one accepts, n, c :: s, k => if accepts c then k (n + 1) s else none
  | nothing, n, s, k => k n s
  | atEnd, n, s, k => if s.isEmpty then k n s else none
  | seq first second, n, s, k => first.seek n s fun m r => second.seek m r k
  | alt preferred fallback, n, s, k =>
    match preferred.seek n s k with
    | some b => some b
    | none => fallback.seek n s k
  | many unit, n, s, k => seekMany (fun n s k => unit.seek n s k) s n s k
  | few unit, n, s, k => seekFew (fun n s k => unit.seek n s k) s n s k

/-- How many characters the preferred match of the pattern takes. -/
def length? (p : Pattern) (s : List Char) : Option Nat :=
  p.seek 0 s fun n _ => some n

/-- Whether some match of the pattern takes the whole text. -/
def covers (p : Pattern) (s : List Char) : Bool :=
  ((seq p atEnd).length? s).isSome

/-! ### The ends of a pattern -/

/-- Ends of a pattern repeated as often as it matches, the farthest first. -/
def endsMany (unit : Place → List Place) : List Char → Place → List Place
  | [], place => [place]
  | _ :: rounds, place => (unit place).flatMap (endsMany unit rounds) ++ [place]

/-- Ends of a pattern repeated as seldom as will do, the nearest first. -/
def endsFew (unit : Place → List Place) : List Char → Place → List Place
  | [], place => [place]
  | _ :: rounds, place => place :: (unit place).flatMap (endsFew unit rounds)

/-- Where a pattern can end when it starts at a place, in order of preference. -/
def ends : Pattern → Place → List Place
  | one _, (_, []) => []
  | one accepts, (n, c :: s) => if accepts c then [(n + 1, s)] else []
  | nothing, place => [place]
  | atEnd, place => if place.2.isEmpty then [place] else []
  | seq first second, place => (first.ends place).flatMap fun p => second.ends p
  | alt preferred fallback, place => preferred.ends place ++ fallback.ends place
  | many unit, place => endsMany (fun p => unit.ends p) place.2 place
  | few unit, place => endsFew (fun p => unit.ends p) place.2 place

/-- To search what is found in turn from each is to search from each in turn. -/
theorem findSome?_flatMap {α β γ : Type} (l : List α) (f : α → List β) (g : β → Option γ) :
    (l.flatMap f).findSome? g = l.findSome? fun a => (f a).findSome? g := by
  induction l with
  | nil => rfl
  | cons a l ih =>
    rw [List.flatMap_cons, List.findSome?_append, ih, List.findSome?_cons]
    cases (f a).findSome? g <;> rfl

/-- Greedy repetition seeks through the ends that it lists, the furthest first. -/
theorem seekMany_eq_findSome? {β : Type} {unit : Nat → List Char → Next β → Option β}
    {step : Place → List Place}
    (hunit : ∀ n s k, unit n s k = (step (n, s)).findSome? fun p => k p.1 p.2)
    (rounds : List Char) (n : Nat) (s : List Char) (k : Next β) :
    seekMany unit rounds n s k = (endsMany step rounds (n, s)).findSome? fun p => k p.1 p.2 := by
  induction rounds generalizing n s with
  | nil => cases h : k n s <;> simp [seekMany, endsMany, h]
  | cons _ rounds ih =>
    rw [seekMany, hunit, endsMany, List.findSome?_append, findSome?_flatMap]
    simp only [ih]
    rcases List.findSome? _ _ with _ | b
    · cases h : k n s <;> simp [h]
    · rfl

/-- Reluctant repetition seeks through the ends that it lists, the nearest first. -/
theorem seekFew_eq_findSome? {β : Type} {unit : Nat → List Char → Next β → Option β}
    {step : Place → List Place}
    (hunit : ∀ n s k, unit n s k = (step (n, s)).findSome? fun p => k p.1 p.2)
    (rounds : List Char) (n : Nat) (s : List Char) (k : Next β) :
    seekFew unit rounds n s k = (endsFew step rounds (n, s)).findSome? fun p => k p.1 p.2 := by
  induction rounds generalizing n s with
  | nil => cases h : k n s <;> simp [seekFew, endsFew, h]
  | cons _ rounds ih =>
    rw [seekFew, hunit, endsFew, List.findSome?_cons, findSome?_flatMap]
    simp only [ih]
    cases k n s <;> rfl

/-- The search finds what the first end that serves the continuation gives. -/
theorem seek_eq_findSome? {β : Type} (p : Pattern) (n : Nat) (s : List Char) (k : Next β) :
    p.seek n s k = (p.ends (n, s)).findSome? fun q => k q.1 q.2 := by
  induction p generalizing n s k with
  | one accepts =>
    cases s with
    | nil => rfl
    | cons c s =>
      by_cases h : accepts c
      · cases hk : k (n + 1) s <;> simp [seek, ends, h, hk]
      · simp [seek, ends, h]
  | nothing => cases hk : k n s <;> simp [seek, ends, hk]
  | atEnd =>
    by_cases h : s.isEmpty
    · cases hk : k n s <;> simp [seek, ends, h, hk]
    · simp [seek, ends, h]
  | seq first second ih₁ ih₂ =>
    rw [seek, ih₁, ends, findSome?_flatMap]
    simp only [ih₂]
  | alt preferred fallback ih₁ ih₂ =>
    rw [seek, ih₁, ih₂, ends, List.findSome?_append]
    rcases List.findSome? _ (preferred.ends (n, s)) with _ | b <;> rfl
  | many unit ih => exact seekMany_eq_findSome? (fun n s k => ih n s k) s n s k
  | few unit ih => exact seekFew_eq_findSome? (fun n s k => ih n s k) s n s k

/-- A pattern matches up to the first of its ends. -/
theorem length?_eq_head? (p : Pattern) (s : List Char) :
    p.length? s = (p.ends (0, s)).head?.map Prod.fst := by
  rw [length?, seek_eq_findSome?]
  cases p.ends (0, s) <;> rfl

/-! ### Common patterns -/

/-- The pattern, or nothing. -/
def opt (p : Pattern) : Pattern :=
  alt p nothing

/-- The pattern once or more often. -/
def oneOrMore (p : Pattern) : Pattern :=
  seq p (many p)

/-- The pattern up to so many times, as often as it matches. -/
def upTo : Nat → Pattern → Pattern
  | 0, _ => nothing
  | n + 1, p => opt (seq p (upTo n p))

/-- Exactly this character. -/
def char (c : Char) : Pattern :=
  one (· == c)

/-- Exactly these characters, one after the other. -/
def chars : List Char → Pattern
  | [] => nothing
  | [c] => char c
  | c :: rest => seq (char c) (chars rest)

/-- Exactly this text. -/
def literal (s : String) : Pattern :=
  chars s.toList

/-- One of these characters. -/
def oneOf (s : String) : Pattern :=
  one fun c => s.toList.contains c

/-- A character other than these. -/
def noneOf (s : String) : Pattern :=
  one fun c => !s.toList.contains c

end Pattern

end Cssom

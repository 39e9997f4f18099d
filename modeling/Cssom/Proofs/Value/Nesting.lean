import Cssom.Proofs.Reading.Values

/-!
# Brackets around tokens

Of a list of tokens, without any reading: the brackets that are open behind it (`openBehind`), the
tokens in it that stand outside of brackets (`outermost`), and how much of it comes before the first
of these that ends a value (`untilEnd`). Tokens nest before what ends a value just if they close all
that they open and none that stands outside ends the value or starts a mark (`nestsBefore_iff`).
-/

namespace Cssom.Grammar

open Production Token

variable {T opened opened' inner outer : List Kind} {kind : Kind} {seen : Seen} {v w : List Seen}

/-! ### Open brackets -/

/-- Brackets further out make no difference to a token that opens or closes one of these. -/
theorem openAfter_append (h : openAfter inner kind = some opened) (outer : List Kind) :
    openAfter (inner ++ outer) kind = some (opened ++ outer) := by
  rw [openAfter_eq_some_iff] at h ⊢
  rcases h with ⟨closer, hcloser, rfl⟩ | ⟨hcloses, rfl⟩ | ⟨hopens, hcloses, rfl⟩
  · exact Or.inl ⟨closer, hcloser, rfl⟩
  · exact Or.inr (Or.inl ⟨hcloses, rfl⟩)
  · exact Or.inr (Or.inr ⟨hopens, hcloses, rfl⟩)

/-- A token opens or closes one of the inner brackets, unless there are none and it closes the first
of the outer ones. -/
theorem openAfter_append_cases (h : openAfter (inner ++ outer) kind = some opened) :
    (∃ opened', openAfter inner kind = some opened' ∧ opened = opened' ++ outer) ∨
      (inner = [] ∧ kind.isCloser = true ∧ outer = kind :: opened) := by
  simp only [openAfter_eq_some_iff] at h ⊢
  rcases h with ⟨closer, hcloser, rfl⟩ | ⟨hcloses, hopened⟩ | ⟨hopens, hcloses, rfl⟩
  · exact Or.inl ⟨closer :: inner, Or.inl ⟨closer, hcloser, rfl⟩, rfl⟩
  · rcases List.append_eq_cons_iff.1 hopened with ⟨rfl, rfl⟩ | ⟨rest, rfl, rfl⟩
    · exact Or.inr ⟨rfl, hcloses, rfl⟩
    · exact Or.inl ⟨rest, Or.inr (Or.inl ⟨hcloses, rfl⟩), rfl⟩
  · exact Or.inl ⟨inner, Or.inr (Or.inr ⟨hopens, hcloses, rfl⟩), rfl⟩

/-- The parentheses open after a token are those that are counted. -/
theorem count_closeParen_openAfter (h : openAfter opened kind = some opened') :
    opened'.count .closeParen = parensAfter (opened.count .closeParen) kind := by
  rcases openAfter_eq_some_iff.1 h with ⟨closer, hcloser, rfl⟩ | ⟨hcloses, rfl⟩ |
    ⟨hopens, hcloses, rfl⟩
  · cases kind <;> cases hcloser <;> simp [parensAfter]
  · cases kind <;> cases hcloses <;> simp [parensAfter]
  · cases kind <;> simp_all [Kind.closer?, Kind.isCloser, parensAfter]

/-- The brackets open behind tokens, if they nest where these brackets are open before them. -/
def openBehind (opened : List Kind) (v : List Seen) : Option (List Kind) :=
  v.foldlM (fun opened seen => openAfter opened seen.1.kind) opened

/-- The brackets open behind tokens are those that the first leaves to the rest. -/
theorem openBehind_cons (opened : List Kind) (seen : Seen) (v : List Seen) :
    openBehind opened (seen :: v) =
      (openAfter opened seen.1.kind).bind fun opened => openBehind opened v := rfl

/-- The brackets open behind two lists are those that the first leaves to the second. -/
theorem openBehind_append (opened : List Kind) (v w : List Seen) :
    openBehind opened (v ++ w) = (openBehind opened v).bind fun opened => openBehind opened w :=
  List.foldlM_append ..

/-- Tokens nest just if the first does, and the rest behind it. -/
theorem openBehind_cons_eq_some_iff : openBehind opened (seen :: v) = some opened' ↔
    ∃ between, openAfter opened seen.1.kind = some between ∧
      openBehind between v = some opened' := by
  rw [openBehind_cons, Option.bind_eq_some_iff]

/-- Two lists nest just if the first does, and the second behind it. -/
theorem openBehind_append_eq_some_iff : openBehind opened (v ++ w) = some opened' ↔
    ∃ between, openBehind opened v = some between ∧ openBehind between w = some opened' := by
  rw [openBehind_append, Option.bind_eq_some_iff]

/-- Brackets further out make no difference to tokens that nest without them. -/
theorem openBehind_append_outer (h : openBehind inner v = some opened) (outer : List Kind) :
    openBehind (inner ++ outer) v = some (opened ++ outer) := by
  induction v generalizing inner with
  | nil =>
    cases h
    rfl
  | cons seen v ih =>
    obtain ⟨between, hstep, hmore⟩ := openBehind_cons_eq_some_iff.1 h
    exact openBehind_cons_eq_some_iff.2 ⟨_, openAfter_append hstep outer, ih hmore⟩

/-! ### Tokens outside of brackets -/

/-- The tokens met while no bracket is open, where these are open before the first. What closes none
of them leaves them open. -/
def outermost : List Kind → List Seen → List Seen
  | _, [] => []
  | opened, seen :: more =>
    let rest := outermost ((openAfter opened seen.1.kind).getD opened) more
    if opened.isEmpty then seen :: rest else rest

/-- What is true of the outermost tokens is true of the first, if it is one, and of the rest. -/
theorem forall_outermost_cons {P : Seen → Prop} (h : openAfter opened seen.1.kind = some opened') :
    (∀ s ∈ outermost opened (seen :: v), P s) ↔
      (opened = [] → P seen) ∧ ∀ s ∈ outermost opened' v, P s := by
  rw [outermost, h, Option.getD_some]
  rcases opened with _ | ⟨closer, opened⟩ <;> simp

/-- What is true of the outermost tokens of two lists is true of those of each. -/
theorem forall_outermost_append {P : Seen → Prop} (h : openBehind opened v = some opened') :
    (∀ s ∈ outermost opened (v ++ w), P s) ↔
      (∀ s ∈ outermost opened v, P s) ∧ ∀ s ∈ outermost opened' w, P s := by
  induction v generalizing opened with
  | nil =>
    cases h
    simp [outermost]
  | cons seen v ih =>
    obtain ⟨between, hstep, hmore⟩ := openBehind_cons_eq_some_iff.1 h
    rw [List.cons_append, forall_outermost_cons hstep, forall_outermost_cons hstep, ih hmore,
      and_assoc]

/-- A token outside of brackets is among those that are. -/
theorem mem_outermost {before after : List Seen} (h : openBehind opened before = some []) :
    seen ∈ outermost opened (before ++ seen :: after) := by
  by_contra hnot
  have hall : ∀ s ∈ outermost opened (before ++ seen :: after), s ≠ seen :=
    fun s hs heq => hnot (heq ▸ hs)
  have hbehind := ((forall_outermost_append h).1 hall).2
  rw [outermost] at hbehind
  exact hbehind seen List.mem_cons_self rfl

/-- Tokens nest before the end of a value just if they close what they open, none is broken, and
none outside of brackets ends the value or starts its mark. -/
theorem nestsBefore_iff : NestsBefore T opened v ↔ openBehind opened v = some [] ∧
    (∀ seen ∈ v, seen.1.kind ≠ .badString ∧ seen.1.kind ≠ .badUrl) ∧
    ∀ seen ∈ outermost opened v, seen.1.kind ∉ T ∧ seen.1.isMark '!' = false := by
  constructor
  · intro h
    induction h with
    | done => exact ⟨rfl, List.forall_mem_nil _, List.forall_mem_nil _⟩
    | token finished outside step _ ih =>
      obtain ⟨hclosed, hfinished, houter⟩ := ih
      exact ⟨openBehind_cons_eq_some_iff.2 ⟨_, step, hclosed⟩,
        List.forall_mem_cons.2 ⟨finished, hfinished⟩,
        (forall_outermost_cons step).2 ⟨outside, houter⟩⟩
  · rintro ⟨hclosed, hfinished, houter⟩
    induction v generalizing opened with
    | nil =>
      cases hclosed
      exact .done
    | cons seen v ih =>
      obtain ⟨between, hstep, hmore⟩ := openBehind_cons_eq_some_iff.1 hclosed
      obtain ⟨hfirst, hrest⟩ := List.forall_mem_cons.1 hfinished
      obtain ⟨houtside, hinside⟩ := (forall_outermost_cons hstep).1 houter
      exact .token hfirst houtside hstep (ih hmore hrest hinside)

/-! ### Up to the end of a value -/

/-- The tokens before the first that ends a value, met while no bracket is open, where these are
open before the first; and that token with all behind it. -/
def untilEnd (T : List Kind) : List Kind → List Seen → List Seen × List Seen
  | _, [] => ([], [])
  | opened, seen :: more =>
    if opened.isEmpty && T.contains seen.1.kind then ([], seen :: more)
    else
      let (taken, left) := untilEnd T ((openAfter opened seen.1.kind).getD opened) more
      (seen :: taken, left)

/-- Up to the end of a value comes nothing, or the first token and what follows it up to there. -/
theorem untilEnd_cons (opened : List Kind) (seen : Seen) (more : List Seen) :
    untilEnd T opened (seen :: more) =
      if opened.isEmpty && T.contains seen.1.kind then ([], seen :: more)
      else
        (seen :: (untilEnd T ((openAfter opened seen.1.kind).getD opened) more).1,
          (untilEnd T ((openAfter opened seen.1.kind).getD opened) more).2) := rfl

/-- What comes before the end of a value and what comes behind are all tokens. -/
theorem untilEnd_append_eq (opened : List Kind) (v : List Seen) :
    (untilEnd T opened v).1 ++ (untilEnd T opened v).2 = v := by
  induction v generalizing opened with
  | nil => rfl
  | cons seen v ih =>
    rw [untilEnd_cons]
    split
    · rfl
    · exact congrArg (seen :: ·) (ih _)

/-- Whether tokens may end a value here: nothing follows, or one of a kind that does. -/
def EndsHere (T : List Kind) (more : List Seen) : Prop :=
  ∀ seen ∈ more.head?, seen.1.kind ∈ T

instance (T : List Kind) (more : List Seen) : Decidable (EndsHere T more) :=
  inferInstanceAs (Decidable (∀ seen ∈ more.head?, seen.1.kind ∈ T))

/-- What comes before the end of a value is told by where it ends: behind tokens that nest, of which
none outside of brackets ends it. -/
theorem untilEnd_of_nested {more : List Seen} (hclosed : openBehind opened v = some [])
    (houter : ∀ seen ∈ outermost opened v, seen.1.kind ∉ T) (hmore : EndsHere T more) :
    untilEnd T opened (v ++ more) = (v, more) := by
  induction v generalizing opened with
  | nil =>
    obtain rfl : opened = [] := Option.some.inj hclosed
    rcases more with _ | ⟨seen, more⟩
    · rfl
    · have hkind : seen.1.kind ∈ T := hmore seen rfl
      rw [List.nil_append, untilEnd_cons, List.contains_iff_mem.2 hkind]
      rfl
  | cons seen v ih =>
    obtain ⟨between, hstep, hrest⟩ := openBehind_cons_eq_some_iff.1 hclosed
    obtain ⟨hfirst, hinside⟩ := (forall_outermost_cons hstep).1 houter
    have hgoes : (opened.isEmpty && T.contains seen.1.kind) = false := by
      rw [Bool.and_eq_false_iff, or_iff_not_imp_left, Bool.not_eq_false, List.isEmpty_iff,
        Bool.eq_false_iff, Ne, List.contains_iff_mem]
      exact hfirst
    rw [List.cons_append, untilEnd_cons, hgoes, hstep, Option.getD_some, ih hrest hinside]
    rfl

/-- Before the end of a value none ends it that stands outside of brackets, and if all brackets are
closed there, one that does or nothing follows. -/
theorem ends_untilEnd {opened' : List Kind}
    (hbehind : openBehind opened (untilEnd T opened v).1 = some opened') :
    (∀ seen ∈ outermost opened (untilEnd T opened v).1, seen.1.kind ∉ T) ∧
      (opened' = [] → EndsHere T (untilEnd T opened v).2) := by
  induction v generalizing opened with
  | nil => exact ⟨List.forall_mem_nil _, fun _ seen hseen => by cases hseen⟩
  | cons seen v ih =>
    rw [untilEnd_cons] at hbehind ⊢
    split
    · next hends =>
      obtain ⟨_, hkind⟩ := Bool.and_eq_true_iff.1 hends
      refine ⟨List.forall_mem_nil _, fun _ first hfirst => ?_⟩
      cases hfirst
      exact List.contains_iff_mem.1 hkind
    · next hgoes =>
      rw [if_neg hgoes] at hbehind
      obtain ⟨between, hstep, hrest⟩ := openBehind_cons_eq_some_iff.1 hbehind
      rw [hstep, Option.getD_some] at hrest ⊢
      obtain ⟨hinside, hends⟩ := ih hrest
      refine ⟨(forall_outermost_cons hstep).2 ⟨?_, hinside⟩, hends⟩
      rintro rfl hkind
      exact hgoes (List.contains_iff_mem.2 hkind)

end Cssom.Grammar

import Cssom.Proofs.Printing.Steps
import Cssom.Proofs.Token.Shape
import Cssom.Selector.Grammar

/-!
# Selectors are read back

The normal spelling of a selector list differs from the source in what stands between its tokens
only: it is what the builder would have written anyway. So reading it again takes the builder
through the same states (`selectors_read_back`).
-/

namespace Cssom.SelectorList.Builder

open Token

variable {b : Builder}

/-- Whether nothing was read. -/
def fresh (b : Builder) : Bool :=
  b.finished.isEmpty && b.current.isEmpty

/-- The text of the list so far. -/
def written (b : Builder) : List Char :=
  (String.intercalate ", " (b.finished ++ [b.current])).toList

/-- Whether the text ends in a blank that stands before the next token. -/
def pending (b : Builder) : Bool :=
  b.afterCombinator || (b.current.isEmpty && !b.finished.isEmpty)

/-- The blank at the end of the text. -/
def blanks (b : Builder) : List Char :=
  if b.pending then [' '] else []

/-- A current selector that does not end in a combinator does not end in a blank either, and one
that does is not empty. -/
structure Tidy (b : Builder) : Prop where
  after : b.afterCombinator = true → b.current.isEmpty = false
  last : b.afterCombinator = false →
    ∀ c, b.current.toList.getLast? = some c → Text.isBlank c = false

/-- The text so far is that of the selectors before the last comma, the comma, and the current
selector. -/
theorem written_eq (b : Builder) : b.written =
    (if b.finished.isEmpty then [] else
      (String.intercalate ", " b.finished).toList ++ [',', ' ']) ++ b.current.toList := by
  unfold written
  rcases hf : b.finished with _ | ⟨s, more⟩
  · simp
  · rw [String.intercalate_append_of_ne_nil (List.cons_ne_nil _ _) (List.cons_ne_nil _ _)]
    simp [String.toList_append]

/-- What is put at the end of the current selector is put at the end of the text. -/
theorem written_current {b' : Builder} {more : List Char} (hfinished : b'.finished = b.finished)
    (hcurrent : b'.current.toList = b.current.toList ++ more) : b'.written = b.written ++ more := by
  rw [written_eq, written_eq, hfinished, hcurrent, List.append_assoc]

/-- A comma between selectors is written with a blank behind it. -/
theorem written_finishSelector : b.finishSelector.written = b.written ++ [',', ' '] := by
  have hfinish : b.finishSelector.finished = b.finished ++ [b.current] := rfl
  have hcurrent : b.finishSelector.current = "" := rfl
  rw [written_eq, hfinish, hcurrent]
  simp [written]

/-! ### Feeding a token -/

variable {t u : Token} {s : Spacing}

/-- Whether the token is a comma between selectors. -/
def separates (b : Builder) (t : Token) : Prop :=
  t.kind = .comma ∧ b.closers = []

/-- The combinator that the token is, outside of brackets. -/
def combines? (b : Builder) (t : Token) : Option Char :=
  if b.closers.isEmpty then combinator? t else none

instance (b : Builder) (t : Token) : Decidable (b.separates t) :=
  inferInstanceAs (Decidable (_ ∧ _))

/-- A comma between selectors finishes the one before it. -/
theorem feed_of_separates (h : b.separates t) : (b.feed t s).1 = b.finishSelector := by
  unfold feed
  rw [if_pos ⟨h.1, by rw [h.2]; rfl⟩]

/-- The builder after a token that is no comma between selectors. -/
def after (b : Builder) (t : Token) (s : Spacing) : Builder :=
  match b.combines? t with
  | some c => b.writeCombinator c
  | none => b.writePart t s

/-- A token that separates no selectors is added to the current one, and its bracket to those that
are open. -/
theorem feed_of_not_separates (h : ¬ b.separates t) : (b.feed t s).1 =
    { b.after t s with
      closers := (track b.closers t.kind).1
      valid := (b.after t s).valid && (track b.closers t.kind).2 } := by
  unfold feed
  rw [if_neg]
  · unfold after combines?
    rcases b.closers.isEmpty <;> rfl
  · rintro ⟨hkind, hnested⟩
    exact h ⟨hkind, by simpa using hnested⟩

/-- A combinator is a delimiter outside of brackets, and no blank. -/
theorem of_combines {c : Char} (h : b.combines? t = some c) :
    b.closers = [] ∧ t.kind = .delim ∧ t.text.toList.head? = some c ∧ Text.isBlank c = false := by
  unfold combines? combinator? at h
  split at h
  · next hclosers =>
    have hmem := List.mem_of_find?_eq_some h
    have hmark := List.find?_some h
    simp only [Token.isMark, Bool.and_eq_true, beq_iff_eq] at hmark
    have hall : ∀ c ∈ ['>', '+', '~'], ¬ Text.isBlank c = true := List.any_eq_false.1 (by decide)
    exact ⟨List.isEmpty_iff.1 hclosers, hmark.1, hmark.2, Bool.eq_false_iff.2 (hall c hmem)⟩
  · exact absurd h (by simp)

/-- What is printed before a token of a selector list. -/
def gap (b : Builder) (t : Token) (s : Spacing) : List Piece :=
  if b.fresh then []
  else if b.pending then [blank]
  else if b.separates t then []
  else if (b.combines? t).isSome then [blank]
  else
    match s with
    | .none => []
    | .space => [blank]
    | .comment => [emptyComment]

/-- What is printed before a token may stand there. -/
theorem spaced_gap (b : Builder) (t : Token) (lead : List Piece) :
    Spaced b.fresh lead t.kind (b.gap t (spacingOf lead)) := by
  unfold gap
  rcases hfresh : b.fresh
  · refine Or.inr ⟨rfl, ?_⟩
    simp only [Bool.false_eq_true, if_false]
    split
    · exact Or.inl rfl
    · split
      · next h => exact Or.inr (Or.inl ⟨rfl, Or.inr h.1⟩)
      · split
        · exact Or.inl rfl
        · unfold spacingOf
          split
          · next h =>
            refine Or.inr (Or.inl ⟨rfl, Or.inl ?_⟩)
            rcases lead with _ | ⟨p, lead⟩
            · rfl
            · split at h
              · exact absurd h (by decide)
              · exact absurd h (by simp)
          · exact Or.inl rfl
          · next h =>
            refine Or.inr (Or.inr ⟨rfl, ?_, ?_⟩)
            · rintro rfl
              exact absurd h (by decide)
            · intro p hp hwhite
              rw [if_pos] at h
              · exact absurd h (by decide)
              · exact List.any_eq_true.2 ⟨p, hp, beq_iff_eq.2 hwhite⟩
  · exact Or.inl ⟨rfl, rfl⟩

/-- A builder does not tell tokens of the same kind and text apart, nor trivia from what is printed
for them. -/
theorem feed_congr (hkind : u.kind = t.kind) (htext : u.text = t.text) {s' : Spacing}
    (hs : b.fresh = false → s' = spacingOf (b.gap t s)) : (b.feed u s').1 = (b.feed t s).1 := by
  by_cases hsep : b.separates t
  · rw [feed_of_separates hsep, feed_of_separates (by rwa [separates, hkind])]
  have hcombines : b.combines? u = b.combines? t := by
    simp only [combines?, combinator?, Token.isMark, hkind, htext]
  rw [feed_of_not_separates hsep, feed_of_not_separates (by rwa [separates, hkind]), hkind]
  have hafter : b.after u s' = b.after t s := by
    unfold after
    rw [hcombines]
    rcases hcomb : b.combines? t with _ | c
    · simp only [writePart, htext]
      rcases hopen : b.current.isEmpty || b.afterCombinator
      · have hcurrent := (Bool.or_eq_false_iff.1 hopen)
        have hfresh : b.fresh = false := by rw [fresh, hcurrent.1, Bool.and_false]
        have hpending : b.pending = false := by rw [pending, hcurrent.1, hcurrent.2]; rfl
        have hspacing := hs hfresh
        simp only [gap, hfresh, hpending, hsep, hcomb, Option.isSome_none, Bool.false_eq_true,
          if_false] at hspacing
        have hsame : s' = s := by
          rw [hspacing]
          cases s <;> rfl
        rw [hsame]
      · rfl
    · rfl
  rw [hafter]

/-! ### What is written for a token -/

/-- What a token of a plain source looks like: a comma and a delimiter are single characters, and
none ends in a blank. -/
structure Neat (t : Token) : Prop where
  ne_nil : t.text.toList ≠ []
  comma : t.kind = .comma → t.text.toList = [',']
  delim : t.kind = .delim → t.text.toList.length = 1
  last : ∀ c, t.text.toList.getLast? = some c → Text.isBlank c = false

/-- What a builder refused once it never accepts. -/
theorem valid_of_feed (h : (b.feed t s).1.valid = true) : b.valid = true := by
  by_cases hsep : b.separates t
  · rw [feed_of_separates hsep] at h
    simp only [finishSelector, Bool.and_eq_true] at h
    exact h.1.1
  · rw [feed_of_not_separates hsep] at h
    simp only [after, Bool.and_eq_true] at h
    have hafter := h.1
    split at hafter
    · simp only [writeCombinator, Bool.and_eq_true] at hafter
      exact hafter.1.1
    · exact hafter

/-- A spoiled address is never accepted. -/
theorem accepts_of_feed (h : (b.feed t s).1.valid = true) : t.kind ≠ .badUrl := by
  intro hkind
  have hsep : ¬ b.separates t := fun hsep => absurd (hsep.1.symm.trans hkind) (by decide)
  rw [feed_of_not_separates hsep, hkind] at h
  simp [track] at h

/-- A function leaves its parenthesis to be closed. -/
theorem closers_of_function (hkind : t.kind = .function) :
    (b.feed t s).1.closers = .closeParen :: b.closers := by
  have hsep : ¬ b.separates t := fun hsep => absurd (hsep.1.symm.trans hkind) (by decide)
  rw [feed_of_not_separates hsep, hkind]
  rfl

/-- What is printed for a token, behind a builder, is what the token adds to the text. -/
def Adds (b : Builder) (t : Token) (s : Spacing) (sep : List Piece) : Prop :=
  ∀ shown, shown ++ b.blanks = b.written →
    shown ++ (spell sep ++ t.text.toList) ++ (b.feed t s).1.blanks = (b.feed t s).1.written

/-- Nothing is trimmed from the end of what does not end in a blank. -/
theorem trimEnd_eq {cs : List Char} (h : ∀ c, cs.getLast? = some c → Text.isBlank c = false) :
    Text.trimEnd cs = cs := by
  unfold Text.trimEnd
  rcases hcs : cs.reverse with _ | ⟨c, rest⟩
  · rw [List.reverse_eq_nil_iff.1 hcs]
    rfl
  · have hlast : cs.getLast? = some c := by
      rw [← List.head?_reverse, hcs]
      rfl
    rw [List.dropWhile_cons_of_neg (by rw [h c hlast]; decide), ← hcs, List.reverse_reverse]

/-- A current selector that does not end in a combinator has no blank at its end. -/
theorem blanks_of_closed (hcurrent : b.current.isEmpty = false)
    (hafter : b.afterCombinator = false) :
    b.blanks = [] ∧ b.fresh = false ∧ b.pending = false := by
  have hpending : b.pending = false := by
    rw [pending, hcurrent, hafter]
    rfl
  refine ⟨?_, ?_, hpending⟩
  · rw [blanks, hpending]
    rfl
  · rw [fresh, hcurrent, Bool.and_false]

/-- Where the builder stands that took a divider, something was read of the current selector, and no
combinator last. -/
theorem closed_of_separates (h : b.separates t) (hvalid : (b.feed t s).1.valid = true) :
    b.current.isEmpty = false ∧ b.afterCombinator = false := by
  rw [feed_of_separates h] at hvalid
  simp only [finishSelector, Bool.and_eq_true, Bool.not_eq_true'] at hvalid
  exact ⟨hvalid.1.2, hvalid.2⟩

/-- Nothing is printed before a comma. -/
theorem gap_of_separates (h : b.separates t) (hvalid : (b.feed t s).1.valid = true) :
    b.gap t s = [] := by
  obtain ⟨hcurrent, hafter⟩ := closed_of_separates h hvalid
  obtain ⟨_, hfresh, hpending⟩ := blanks_of_closed hcurrent hafter
  simp [gap, hfresh, hpending, h]

/-- A comma adds itself to the text, and the blank behind it. -/
theorem adds_separator (h : b.separates t) (hvalid : (b.feed t s).1.valid = true)
    (htext : t.text.toList = [',']) : b.Adds t s [] := by
  obtain ⟨hcurrent, hafter⟩ := closed_of_separates h hvalid
  obtain ⟨hblanks, _, _⟩ := blanks_of_closed hcurrent hafter
  have hpending : b.finishSelector.pending = true := by simp [pending, finishSelector]
  intro shown hshown
  rw [hblanks, List.append_nil] at hshown
  rw [feed_of_separates h, htext, hshown, written_finishSelector, blanks, hpending]
  simp

/-- A combinator that is accepted follows a selector that does not end in one. -/
theorem closed_of_combines {c : Char} (hcomb : b.combines? t = some c)
    (hvalid : (b.feed t s).1.valid = true) :
    ¬ b.separates t ∧ b.current.isEmpty = false ∧ b.afterCombinator = false := by
  obtain ⟨_, hkind, _⟩ := of_combines hcomb
  have hsep : ¬ b.separates t := fun h => absurd (h.1.symm.trans hkind) (by decide)
  rw [feed_of_not_separates hsep, after, hcomb] at hvalid
  simp only [writeCombinator, Bool.and_eq_true, Bool.not_eq_true'] at hvalid
  exact ⟨hsep, hvalid.1.1.2, hvalid.1.2⟩

/-- A combinator is printed behind a blank. -/
theorem gap_of_combines {c : Char} (hcomb : b.combines? t = some c)
    (hvalid : (b.feed t s).1.valid = true) : b.gap t s = [blank] := by
  obtain ⟨hsep, hcurrent, hafter⟩ := closed_of_combines hcomb hvalid
  obtain ⟨_, hfresh, hpending⟩ := blanks_of_closed hcurrent hafter
  simp [gap, hfresh, hpending, hsep, hcomb]

/-- The builder behind a combinator. -/
theorem feed_of_combines {c : Char} (hcomb : b.combines? t = some c) :
    (b.feed t s).1.finished = b.finished ∧ (b.feed t s).1.afterCombinator = true ∧
      (b.feed t s).1.current.toList = Text.trimEnd b.current.toList ++ [' ', c, ' '] := by
  obtain ⟨_, hkind, _⟩ := of_combines hcomb
  have hsep : ¬ b.separates t := fun h => absurd (h.1.symm.trans hkind) (by decide)
  rw [feed_of_not_separates hsep, after, hcomb]
  exact ⟨rfl, rfl, String.toList_ofList⟩

/-- Behind a combinator the current selector is not empty. -/
theorem isEmpty_of_combines {c : Char} (hcomb : b.combines? t = some c) :
    (b.feed t s).1.current.isEmpty = false := by
  rw [Bool.eq_false_iff, Ne, String.isEmpty_iff, ← String.toList_eq_nil_iff,
    (feed_of_combines hcomb).2.2]
  simp

/-- Before a combinator the text is trimmed, and a blank is put there. -/
theorem adds_combinator {c : Char} (hcomb : b.combines? t = some c)
    (hvalid : (b.feed t s).1.valid = true) (htext : t.text.toList = [c]) {sep : List Piece}
    (hsep : Text.trimEnd b.current.toList ++ [' '] = b.current.toList ++ spell sep) :
    b.Adds t s sep := by
  obtain ⟨_, hcurrent, hafter⟩ := closed_of_combines hcomb hvalid
  obtain ⟨hblanks, _, _⟩ := blanks_of_closed hcurrent hafter
  obtain ⟨hfinished, hcombined, hwritten⟩ := feed_of_combines (s := s) hcomb
  have hmore : (b.feed t s).1.current.toList = b.current.toList ++ (spell sep ++ [c, ' ']) := by
    rw [hwritten, ← List.append_assoc, ← hsep, List.append_assoc]
    rfl
  intro shown hshown
  rw [hblanks, List.append_nil] at hshown
  rw [written_current hfinished hmore, htext, hshown, blanks, pending, hcombined]
  simp

/-- What is printed before any other token is what the builder writes there. -/
theorem spell_gap (hsep : ¬ b.separates t) (hcomb : b.combines? t = none)
    (hb : b.afterCombinator = true → b.current.isEmpty = false) :
    spell (b.gap t s) = b.blanks ++
      (if b.current.isEmpty || b.afterCombinator then "" else separator s).toList := by
  rcases hcurrent : b.current.isEmpty
  · rcases hafter : b.afterCombinator
    · obtain ⟨hblanks, hfresh, hpending⟩ := blanks_of_closed hcurrent hafter
      rw [hblanks]
      simp only [gap, hfresh, hpending, hsep, hcomb, Option.isSome_none, Bool.false_eq_true,
        if_false]
      cases s <;> rfl
    · have hpending : b.pending = true := by rw [pending, hafter]; rfl
      have hfresh : b.fresh = false := by rw [fresh, hcurrent, Bool.and_false]
      simp [gap, hfresh, blanks, hpending, blank]
  · have hafter : b.afterCombinator = false := by
      rw [Bool.eq_false_iff]
      intro hafter
      exact absurd (hcurrent.symm.trans (hb hafter)) (by decide)
    rcases hfinished : b.finished.isEmpty
    · have hpending : b.pending = true := by rw [pending, hcurrent, hfinished, hafter]; rfl
      have hfresh : b.fresh = false := by rw [fresh, hfinished]; rfl
      simp [gap, hfresh, blanks, hpending, hafter, blank]
    · have hpending : b.pending = false := by rw [pending, hcurrent, hfinished, hafter]; rfl
      have hfresh : b.fresh = true := by rw [fresh, hfinished, hcurrent]; rfl
      simp [gap, hfresh, blanks, hpending, hafter]

/-- The builder behind a part of a selector. -/
theorem feed_of_part (hsep : ¬ b.separates t) (hcomb : b.combines? t = none) :
    (b.feed t s).1.finished = b.finished ∧ (b.feed t s).1.afterCombinator = false ∧
      (b.feed t s).1.current.toList = b.current.toList ++
        ((if b.current.isEmpty || b.afterCombinator then "" else separator s).toList ++
          t.text.toList) := by
  rw [feed_of_not_separates hsep, after, hcomb]
  refine ⟨rfl, rfl, ?_⟩
  simp only [writePart, String.toList_append, List.append_assoc]

/-- Behind a part the current selector is not empty. -/
theorem isEmpty_of_part (hsep : ¬ b.separates t) (hcomb : b.combines? t = none)
    (ht : t.text.toList ≠ []) : (b.feed t s).1.current.isEmpty = false := by
  rw [Bool.eq_false_iff, Ne, String.isEmpty_iff, ← String.toList_eq_nil_iff,
    (feed_of_part hsep hcomb).2.2]
  simp [ht]

/-- A part adds itself to the text, and what is printed before it. -/
theorem adds_part (hsep : ¬ b.separates t) (hcomb : b.combines? t = none)
    (hb : b.afterCombinator = true → b.current.isEmpty = false) (ht : t.text.toList ≠ []) :
    b.Adds t s (b.gap t s) := by
  obtain ⟨hfinished, hcombined, hcurrent⟩ := feed_of_part (s := s) hsep hcomb
  obtain ⟨hblanks, _, _⟩ := blanks_of_closed (isEmpty_of_part (s := s) hsep hcomb ht) hcombined
  intro shown hshown
  rw [hblanks, List.append_nil, written_current hfinished hcurrent, ← hshown,
    spell_gap hsep hcomb hb]
  simp only [List.append_assoc]

/-- What a token that was accepted adds to the text is what is printed for it. -/
structure Written (b : Builder) (t : Token) (s : Spacing) : Prop where
  written : b.Adds t s (b.gap t s)
  tidy : Tidy (b.feed t s).1
  fresh : (b.feed t s).1.fresh = false

/-- A comma that was accepted is written as it is printed. -/
theorem written_separator (h : b.separates t) (hvalid : (b.feed t s).1.valid = true)
    (ht : Neat t) : Written b t s := by
  refine ⟨?_, ?_, ?_⟩
  · rw [gap_of_separates h hvalid]
    exact adds_separator h hvalid (ht.comma h.1)
  · rw [feed_of_separates h]
    refine ⟨fun hafter => absurd hafter (by simp [finishSelector]), fun _ c hc => ?_⟩
    exact absurd hc (by simp [finishSelector])
  · rw [feed_of_separates h]
    simp [SelectorList.Builder.fresh, finishSelector]

/-- A combinator that was accepted is written as it is printed. -/
theorem written_combinator {c : Char} (hcomb : b.combines? t = some c)
    (hvalid : (b.feed t s).1.valid = true) (hb : Tidy b) (ht : Neat t) : Written b t s := by
  obtain ⟨_, hkind, hhead, _⟩ := of_combines hcomb
  have htext : t.text.toList = [c] := by
    obtain ⟨d, hd⟩ := List.length_eq_one_iff.1 (ht.delim hkind)
    rw [hd, List.head?_cons, Option.some.injEq] at hhead
    rw [hd, hhead]
  have hempty := isEmpty_of_combines (s := s) hcomb
  refine ⟨?_, ⟨fun _ => hempty, fun hnone => ?_⟩, ?_⟩
  · rw [gap_of_combines hcomb hvalid]
    refine adds_combinator hcomb hvalid htext ?_
    rw [trimEnd_eq (hb.last (closed_of_combines hcomb hvalid).2.2)]
    rfl
  · exact absurd ((feed_of_combines hcomb).2.1.symm.trans hnone) (by decide)
  · rw [SelectorList.Builder.fresh, hempty, Bool.and_false]

/-- A part of a selector that was accepted is written as it is printed. -/
theorem written_part (hsep : ¬ b.separates t) (hcomb : b.combines? t = none) (hb : Tidy b)
    (ht : Neat t) : Written b t s := by
  have hempty := isEmpty_of_part (s := s) hsep hcomb ht.ne_nil
  obtain ⟨_, hcombined, hcurrent⟩ := feed_of_part (s := s) hsep hcomb
  refine ⟨adds_part hsep hcomb hb.after ht.ne_nil, ⟨fun h => ?_, fun _ c hc => ?_⟩,
    (blanks_of_closed hempty hcombined).2.1⟩
  · exact absurd (hcombined.symm.trans h) (by decide)
  · refine ht.last c ?_
    rw [← hc, hcurrent, ← List.append_assoc, List.getLast?_append_of_ne_nil _ ht.ne_nil]

/-- A token that was accepted adds what is printed for it. -/
theorem written_feed (hvalid : (b.feed t s).1.valid = true) (hb : Tidy b) (ht : Neat t) :
    Written b t s := by
  by_cases hsep : b.separates t
  · exact written_separator hsep hvalid ht
  · rcases hcomb : b.combines? t with _ | c
    · exact written_part hsep hcomb hb ht
    · exact written_combinator hcomb hvalid hb ht

end Cssom.SelectorList.Builder

namespace Cssom.Grammar

open Production Token Input SelectorList

variable {i j : Input} {b : SelectorList.Builder}

/-! ### Rounds -/

/-- Where a selector list ends nothing is read. -/
theorem read_selectorsFrom_stops (rounds : Nat) (h : endsSelectors i.view.kind = true) :
    (selectorsFrom rounds b).read i = ⟨b, i, []⟩ := by
  rcases rounds with _ | rounds
  · rfl
  · rw [selectorsFrom, read_bind, read_view]
    simp only [h, if_true]
    rfl

/-- Where a selector list goes on the builder takes the token under the cursor. -/
theorem read_selectorsFrom_token (rounds : Nat) (h : endsSelectors i.view.kind = false) :
    (selectorsFrom (rounds + 1) b).read i =
      (selectorsFrom rounds (b.feed i.view.token i.view.spacing).1).read i.advance := by
  rw [selectorsFrom, read_bind, read_view]
  simp only [h, Bool.false_eq_true, if_false]
  rw [read_bind, read_skip]
  rfl

/-- If all of a selector list is accepted, so was what came first. -/
theorem valid_of_selectorsFrom (rounds : Nat) :
    (selectorsFrom rounds b).Yields i fun final _ => final.valid = true → b.valid = true := by
  induction rounds generalizing b i with
  | zero => exact .pure id
  | succ rounds ih =>
    unfold selectorsFrom
    refine .view ?_
    split
    · exact .pure id
    · exact .skip (ih.mono fun final _ h hvalid => Builder.valid_of_feed (h hvalid))

/-- A token of a plain source, other than an address that is spoiled. -/
theorem neat_of_plain {lead src : List Piece} {p : Piece} (hfaces : i.Faces lead p src)
    (hplain : Plain (p :: src)) (hp : p.1.isSignificant = true) (hbad : p.1 ≠ .badUrl) :
    Builder.Neat i.view.token := by
  have hkind : i.view.token.kind = p.1 := hfaces.kind
  have hfirst := hplain.first_eq
  refine ⟨?_, ?_, ?_, ?_⟩
  · rw [hfaces.text]
    exact ne_nil_of_first hfirst
  · intro hcomma
    rw [hkind] at hcomma
    rw [hcomma] at hfirst
    rw [hfaces.text]
    exact toList_of_spelling hfirst rfl
  · intro hdelim
    rw [hkind] at hdelim
    rw [hdelim] at hfirst
    rw [hfaces.text]
    exact length_of_delim hfirst
  · intro c hc
    rw [hfaces.text] at hc
    rw [Bool.eq_false_iff]
    intro hblank
    have hmem : c ∈ spell (p :: src) := List.mem_append_left _ (List.mem_of_getLast? hc)
    have hspace := not_space_of_getLast hfirst hp hplain.slash_head
      (hplain.strings p List.mem_cons_self) hbad hc
    rw [hplain.blanks c hmem hblank] at hspace
    exact absurd hspace (by decide)

/-! ### Reading a selector list again -/

/-- What was read of a selector list from a builder on is printed as these pieces and read again. -/
structure SelectorsReread (b final : SelectorList.Builder) (src ps : List Piece) : Prop where
  prints : Prints b.fresh src ps
  written : ∀ shown, shown ++ b.blanks = b.written → shown ++ spell ps = final.written
  gives : ∀ (rounds : Nat) (j : Input) (tail : List Piece), j.Holds b.fresh (ps ++ tail) →
    j.offsets.Nodup → endsSelectors (headKind tail) = true → j.size ≤ rounds →
      (selectorsFrom rounds b).Gives j final tail

/-- Whether the list may end where the builder stands. -/
def finishes (b : SelectorList.Builder) : Prop :=
  b.valid = true ∧ b.current.isEmpty = false ∧ b.afterCombinator = false ∧ b.closers = []

/-- A selector list may end where the builder finds it valid. -/
theorem finishes_of_isValid (h : b.isValid = true) : finishes b := by
  simpa [finishes, Builder.isValid, Builder.finishSelector, and_assoc] using h

/-- Where a selector list may end nothing more is printed. -/
theorem selectorsReread_nil {src : List Piece} (hsrc : endsSelectors (headKind src) = true)
    (hb : finishes b) : SelectorsReread b b src [] where
  prints := by
    refine .ends (not_opensString fun hstring => ?_)
    rw [hstring] at hsrc
    exact absurd hsrc (by decide)
  written shown hshown := by
    rw [(Builder.blanks_of_closed hb.2.1 hb.2.2.1).1, List.append_nil] at hshown
    rw [spell_nil, List.append_nil, hshown]
  gives rounds j tail hholds hoffsets hend _ := by
    have hahead : j.Ahead tail := Ahead.of_holds hholds fun _ => hoffsets
    refine .of_read (read_selectorsFrom_stops rounds ?_) hahead
    rw [hahead.kind]
    exact hend

/-- A token that is written as it is printed is read again, and then what follows it. -/
theorem SelectorsReread.token {final : SelectorList.Builder} {lead src ps : List Piece} {p : Piece}
    (hfaces : i.Faces lead p src) (hp : p.1.isSignificant = true) (hplain : Plain (p :: src))
    (hlead : AreTrivia lead) (hends : endsSelectors i.view.kind = false)
    (hw : b.Written i.view.token i.view.spacing)
    (hmore : p.1 = .function ∨ p.1 = .badUrl → ∃ q ∈ src, q.1.isSignificant = true)
    (h : SelectorsReread (b.feed i.view.token i.view.spacing).1 final src ps) :
    SelectorsReread b final (lead ++ p :: src)
      (b.gap i.view.token i.view.spacing ++ p :: ps) := by
  have hkind : i.view.token.kind = p.1 := hfaces.kind
  have hspaced : Spaced b.fresh lead p.1 (b.gap i.view.token i.view.spacing) := by
    rw [← hkind, hfaces.spacing]
    exact b.spaced_gap _ lead
  refine ⟨?_, ?_, ?_⟩
  · have hprints := h.prints
    rw [hw.fresh] at hprints
    exact .next hplain hlead hp hspaced hmore hprints
  · intro shown hshown
    have hnext := h.written _ (hw.written shown hshown)
    rw [← hnext, hfaces.text, spell_append, spell_cons]
    simp only [List.append_assoc]
  · intro rounds j tail hholds hoffsets hend hsize
    rw [List.append_assoc] at hholds
    obtain ⟨before, hj, hbefore⟩ := hholds.faces hspaced hp
    have hkindj : j.view.kind = i.view.kind := hj.kind.trans hfaces.kind.symm
    have hfed : (b.feed j.view.token j.view.spacing).1 =
        (b.feed i.view.token i.view.spacing).1 := by
      refine Builder.feed_congr hkindj (hj.text.trans hfaces.text.symm) fun hfresh => ?_
      rw [hj.spacing, hbefore hfresh]
    obtain ⟨n, rfl⟩ : ∃ n, rounds = n + 1 := ⟨rounds - 1, by have := hj.size; omega⟩
    have hread := read_selectorsFrom_token (b := b) n (by rw [hkindj]; exact hends)
    rw [hfed] at hread
    refine .congr (h.gives n j.advance tail ?_ ?_ hend ?_) hread
    · rw [hw.fresh]
      exact holds_advance hj
    · exact (Reaches.advance j).nodup_offsets hoffsets
    · have := hj.size
      omega

/-- A selector list that may end where it does is printed as some pieces and read again. -/
theorem selectorsFrom_reads_back (rounds : Nat) (hplain : Plain i.pieces) (hsize : i.size ≤ rounds)
    (hb : b.Tidy) {final : SelectorList.Builder}
    (hfinal : ((selectorsFrom rounds b).read i).result = final) (hfinish : finishes final) :
    ∃ ps, SelectorsReread b final i.pieces ps := by
  induction rounds generalizing b i with
  | zero =>
    have hr : b = final := hfinal
    refine ⟨[], hr ▸ selectorsReread_nil ?_ (hr ▸ hfinish)⟩
    rcases i.faces_cases with ⟨htrivia, _⟩ | ⟨_, _, _, _, _, _, hfaces⟩
    · rw [headKind_eq_eof htrivia]
      rfl
    · have := hfaces.size
      omega
  | succ rounds ih =>
    rcases hends : endsSelectors i.view.kind
    case true =>
      rw [read_selectorsFrom_stops (rounds + 1) hends] at hfinal
      have hr : b = final := hfinal
      refine ⟨[], hr ▸ selectorsReread_nil ?_ (hr ▸ hfinish)⟩
      rw [← i.kind_view]
      exact hends
    rw [read_selectorsFrom_token rounds hends] at hfinal
    rcases i.faces_cases with ⟨_, hkind, _⟩ | ⟨lead, p, src, hpieces, hlead, hp, hfaces⟩
    · rw [hkind] at hends
      exact absurd hends (by decide)
    have hsource : Plain (p :: src) := by
      rw [hpieces] at hplain
      exact hplain.of_append
    have hkind : i.view.token.kind = p.1 := hfaces.kind
    have hfed : (b.feed i.view.token i.view.spacing).1.valid = true := by
      have hvalid := valid_of_selectorsFrom (i := i.advance)
        (b := (b.feed i.view.token i.view.spacing).1) rounds
      unfold Yields at hvalid
      rw [hfinal] at hvalid
      exact hvalid hfinish.1
    have hbad : p.1 ≠ .badUrl := by
      rw [← hkind]
      exact Builder.accepts_of_feed hfed
    have hw := Builder.written_feed hfed hb (neat_of_plain hfaces hsource hp hbad)
    obtain ⟨ps, hps⟩ := ih (i := i.advance) (by rw [hfaces.advance]; exact hsource.tail)
      (by have := hfaces.size; omega) hw.tidy hfinal
    rw [hfaces.advance] at hps
    rw [hpieces]
    refine ⟨_, hps.token hfaces hp hsource hlead hends hw fun hkind' => ?_⟩
    have hfunction : p.1 = .function := hkind'.resolve_right hbad
    by_contra hnone
    -- the parenthesis that the function opens is never closed
    have hend : endsSelectors i.advance.view.kind = true := by
      rw [i.advance.kind_view, hfaces.advance, headKind_eq_eof]
      · rfl
      · intro q hq
        rw [Bool.eq_false_iff]
        exact fun hsig => hnone ⟨q, hq, hsig⟩
    rw [read_selectorsFrom_stops rounds hend] at hfinal
    have hclosers := Builder.closers_of_function (b := b) (s := i.view.spacing)
      (hkind.trans hfunction)
    rw [show (b.feed i.view.token i.view.spacing).1 = final from hfinal, hfinish.2.2.2] at hclosers
    exact absurd hclosers.symm (List.cons_ne_nil _ _)

/-! ### Selector lists -/

/-- A selector list that was accepted is printed so that it is read back, and starts with the token
that it started with. -/
theorem selectors_read_back (hplain : Plain i.pieces) :
    selectorList.Yields i fun parsed _ => parsed.valid = true →
      ReadsBack (fun _ => selectorList) (· = i.view.kind) (endsSelectors · = true) parsed
        parsed.list.render := by
  refine .enclosed (.view (.bind (Q := fun b rest => rest = _ ∧ b = _) ⟨rfl, rfl⟩
    fun b rest _ hr => .pure fun hvalid => ?_))
  obtain ⟨rfl, hr⟩ := hr
  have hfinish := finishes_of_isValid hvalid
  obtain ⟨ps, hps⟩ := selectorsFrom_reads_back i.view.size hplain (Nat.le_refl _)
    ⟨fun h => absurd h (by decide), fun _ c hc => absurd hc (by simp [Builder.empty])⟩ hr.symm
    hfinish
  have hspell : spell ps = b.written := hps.written [] rfl
  have hne : ps ≠ [] := by
    rintro rfl
    rw [spell_nil, Builder.written_eq, eq_comm, List.append_eq_nil_iff,
      String.toList_eq_nil_iff] at hspell
    have hcurrent := hfinish.2.1
    rw [hspell.2] at hcurrent
    exact absurd hcurrent (by decide)
  refine ⟨ps, hspell, hps.prints.legible hplain hne, ?_, ?_⟩
  · rw [i.kind_view]
    exact hps.prints.headKind_eq hne
  · intro _ j tail hahead hend _
    have hgives := hps.gives j.view.size j tail hahead.holds (hahead.offsets trivial) hend
      (Nat.le_refl _)
    refine .enclosed (.view (.bind hgives fun rest _ hrest => ?_))
    exact .pure hrest

end Cssom.Grammar

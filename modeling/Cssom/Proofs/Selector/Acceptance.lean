import Mathlib.Data.List.Chain
import Cssom.Proofs.Printing.Selector
import Cssom.Proofs.Printing.Sources
import Cssom.Proofs.Value.Nesting

/-!
# Which selector lists are accepted

A selector list is accepted just if the tokens up to a brace or the end of the source are those of
one (`IsSelectorList`): brackets nest, and between the commas outside of them stand selectors, whose
combinators have something on either side. Then it has as many entries (`selectors_are_accepted`).

The builder tells all of this from whether the current selector is empty and whether it ends in a
combinator. So commas and combinators are alike to it: neither may follow one of them, and one is
taken to stand before the first token and another behind the last (`Continues`).
-/

namespace Cssom

open Production Token Grammar

/-! ### Selectors -/

/-- Whether a token, outside of brackets, joins what stands on either side of it. -/
def isCombinator (token : Token) : Bool :=
  token.isMark '>' || token.isMark '+' || token.isMark '~'

/-- The kinds of the tokens that no selector holds, not even in brackets. -/
def neverInSelectors : List Kind :=
  [.semicolon, .atKeyword, .badString, .badUrl]

/-- The parts of a list between the commas outside of brackets, where these brackets are open before
the first token. -/
def selectorParts : List Kind → List Seen → List (List Seen)
  | _, [] => [[]]
  | opened, seen :: more =>
    if opened.isEmpty && seen.1.kind == .comma then [] :: selectorParts [] more
    else
      (selectorParts ((openAfter opened seen.1.kind).getD opened) more).modifyHead
        (seen :: ·)

/-- The tokens of a selector: some at least, and of those outside of brackets neither the first nor
the last is a combinator, and no two in a row are. -/
structure IsSelector (part : List Seen) : Prop where
  nonempty : part ≠ []
  starts : ∀ seen ∈ (outermost [] part).head?, isCombinator seen.1 = false
  ends : ∀ seen ∈ (outermost [] part).getLast?, isCombinator seen.1 = false
  single : (outermost [] part).IsChain fun a b =>
    ¬ (isCombinator a.1 = true ∧ isCombinator b.1 = true)

/-- The four conditions on a selector as a conjunction. -/
theorem isSelector_iff {part : List Seen} : IsSelector part ↔ part ≠ [] ∧
    (∀ seen ∈ (outermost [] part).head?, isCombinator seen.1 = false) ∧
    (∀ seen ∈ (outermost [] part).getLast?, isCombinator seen.1 = false) ∧
    (outermost [] part).IsChain fun a b =>
      ¬ (isCombinator a.1 = true ∧ isCombinator b.1 = true) :=
  ⟨fun h => ⟨h.nonempty, h.starts, h.ends, h.single⟩,
    fun ⟨hne, hstarts, hends, hsingle⟩ => ⟨hne, hstarts, hends, hsingle⟩⟩

instance (part : List Seen) : Decidable (IsSelector part) :=
  decidable_of_iff _ isSelector_iff.symm

/-- The tokens of a selector list: they nest, none is of a kind that no selector holds, strings
stand in brackets only, and between the commas outside of brackets stand selectors. -/
structure IsSelectorList (v : List Seen) : Prop where
  nested : openBehind [] v = some []
  allowed : ∀ seen ∈ v, seen.1.kind ∉ neverInSelectors
  unquoted : ∀ seen ∈ outermost [] v, seen.1.kind ≠ .string
  selectors : ∀ part ∈ selectorParts [] v, IsSelector part

/-- The four conditions on a selector list as a conjunction. -/
theorem isSelectorList_iff {v : List Seen} : IsSelectorList v ↔
    openBehind [] v = some [] ∧ (∀ seen ∈ v, seen.1.kind ∉ neverInSelectors) ∧
    (∀ seen ∈ outermost [] v, seen.1.kind ≠ .string) ∧
    ∀ part ∈ selectorParts [] v, IsSelector part :=
  ⟨fun h => ⟨h.nested, h.allowed, h.unquoted, h.selectors⟩,
    fun ⟨hnested, hallowed, hunquoted, hselectors⟩ =>
      ⟨hnested, hallowed, hunquoted, hselectors⟩⟩

instance (v : List Seen) : Decidable (IsSelectorList v) :=
  decidable_of_iff _ isSelectorList_iff.symm

/-! ### Dividers -/

/-- Whether a token, outside of brackets, ends one selector or one part of it. -/
def divides (seen : Seen) : Bool :=
  seen.1.kind == .comma || isCombinator seen.1

/-- Between dividers, with one taken to stand at the end, there is something. -/
def Divided (marks : List Bool) : Prop :=
  (marks ++ [true]).IsChain fun a b => ¬ (a = true ∧ b = true)

/-- One mark between two ends is divided just if it is no divider. -/
theorem divided_singleton {mark : Bool} : Divided [mark] ↔ mark = false := by
  cases mark <;> simp [Divided]

/-- Marks are divided just if the first two are not both dividers, and the marks behind the first
are divided. -/
theorem divided_cons_cons {a b : Bool} {marks : List Bool} :
    Divided (a :: b :: marks) ↔ ¬ (a = true ∧ b = true) ∧ Divided (b :: marks) :=
  List.isChain_cons_cons

/-- Behind a divider comes something that neither starts nor ends with one and holds no two in a
row. -/
theorem divided_true_iff {marks : List Bool} : Divided (true :: marks) ↔
    marks ≠ [] ∧ (∀ mark ∈ marks.head?, mark = false) ∧ (∀ mark ∈ marks.getLast?, mark = false) ∧
      marks.IsChain fun a b => ¬ (a = true ∧ b = true) := by
  rcases marks with _ | ⟨first, more⟩
  · simp [divided_singleton]
  · rw [divided_cons_cons, Divided, List.isChain_append]
    simp
    tauto

/-- Tokens are a selector just if their combinators are divided, with one taken to stand before the
first token. -/
theorem isSelector_iff_divided {part : List Seen} : IsSelector part ↔
    Divided (true :: (outermost [] part).map fun seen => isCombinator seen.1) := by
  have hempty : outermost [] part = [] ↔ part = [] := by
    rcases part with _ | ⟨seen, more⟩
    · exact Iff.rfl
    · exact iff_of_false (List.cons_ne_nil _ _) (List.cons_ne_nil _ _)
  rw [divided_true_iff, isSelector_iff, Ne, Ne, List.map_eq_nil_iff, hempty, List.isChain_map]
  simp

/-- The parts of a list are selectors just if something stands between its dividers. The first part
may start behind a divider or not. -/
theorem divided_outermost_iff (opened : List Kind) (v : List Seen) (mark : Bool) :
    ∃ first others, selectorParts opened v = first :: others ∧
      (Divided (mark :: (outermost opened v).map divides) ↔
        Divided (mark :: (outermost opened first).map fun seen => isCombinator seen.1) ∧
          ∀ part ∈ others, IsSelector part) := by
  induction v generalizing opened mark with
  | nil => exact ⟨[], [], rfl, by simp [outermost]⟩
  | cons seen v ih =>
    rcases opened with _ | ⟨closer, opened⟩
    · rcases hcomma : seen.1.kind == .comma
      · obtain ⟨first, others, hparts, hdivided⟩ :=
          ih ((openAfter [] seen.1.kind).getD []) (isCombinator seen.1)
        have hdivides : divides seen = isCombinator seen.1 := by
          rw [divides, hcomma, Bool.false_or]
        refine ⟨seen :: first, others, ?_, ?_⟩
        · rw [selectorParts, hcomma, hparts]
          rfl
        · simp only [outermost, List.isEmpty_nil, if_true, List.map_cons]
          rw [divided_cons_cons, divided_cons_cons, hdivides, hdivided, and_assoc]
      · obtain ⟨first, others, hparts, hdivided⟩ := ih [] true
        have hopened : (openAfter [] seen.1.kind).getD [] = [] := by
          rw [beq_iff_eq.1 hcomma]
          rfl
        have hdivides : divides seen = true := by
          rw [divides, hcomma, Bool.true_or]
        refine ⟨[], first :: others, ?_, ?_⟩
        · rw [selectorParts, hcomma, hparts]
          rfl
        · simp only [outermost, List.isEmpty_nil, if_true, List.map_cons, List.map_nil, hopened]
          rw [divided_cons_cons, hdivides, hdivided, divided_singleton, List.forall_mem_cons,
            isSelector_iff_divided, eq_self, and_true, Bool.not_eq_true]
    · obtain ⟨first, others, hparts, hdivided⟩ :=
        ih ((openAfter (closer :: opened) seen.1.kind).getD (closer :: opened)) mark
      refine ⟨seen :: first, others, ?_, hdivided⟩
      rw [selectorParts, hparts]
      rfl

/-- All parts of a list are selectors just if something stands between its dividers and around
them. -/
theorem forall_isSelector_iff {v : List Seen} : (∀ part ∈ selectorParts [] v, IsSelector part) ↔
    Divided (true :: (outermost [] v).map divides) := by
  obtain ⟨first, others, hparts, hdivided⟩ := divided_outermost_iff [] v true
  rw [hparts, List.forall_mem_cons, isSelector_iff_divided, hdivided]

end Cssom

namespace Cssom.SelectorList.Builder

open Token Grammar

/-! ### The builder -/

variable {b : Builder} {t : Token} {s : Spacing} {opened : List Kind} {kind : Kind} {v : List Seen}

/-- The brackets that are open after a token that ends no list, and whether the token may stand in
one. -/
theorem track_eq (h : endsSelectors kind = false) :
    (track opened kind).1 = (openAfter opened kind).getD opened ∧
      ((track opened kind).2 = true ↔ (openAfter opened kind).isSome = true ∧
        kind ∉ neverInSelectors ∧ (opened = [] → kind ≠ .string)) := by
  have hcurly : kind ≠ .openCurly ∧ kind ≠ .closeCurly := by
    constructor <;> rintro rfl <;> exact absurd h (by decide)
  rcases opened with _ | ⟨expected, outer⟩
  · cases kind <;> simp_all [track, openAfter, Kind.closer?, Kind.isCloser, neverInSelectors]
  · by_cases hexpected : expected = kind
    · subst hexpected
      cases expected <;>
        simp_all [track, openAfter, Kind.closer?, Kind.isCloser, neverInSelectors]
    · cases kind <;>
        simp_all [track, openAfter, Kind.closer?, Kind.isCloser, neverInSelectors]

/-- Whether nothing was read of the current selector, or a combinator last. -/
def waits (b : Builder) : Bool :=
  b.current.isEmpty || b.afterCombinator

/-- The builder takes as combinators the tokens that are combinators. -/
theorem isSome_combinator? (t : Token) : (combinator? t).isSome = isCombinator t := by
  rw [Bool.eq_iff_iff, combinator?, List.find?_isSome]
  simp [isCombinator, or_assoc]

/-- A comma that separates two selectors divides. -/
theorem divides_of_separates (h : b.separates t) : divides (t, s) = true := by
  rw [divides, beq_iff_eq.2 h.1, Bool.true_or]

/-- What a divider is, outside of brackets. -/
theorem divides_eq (hclosers : b.closers = []) (hsep : ¬ b.separates t) :
    divides (t, s) = (b.combines? t).isSome := by
  have hcomma : (t.kind == .comma) = false :=
    beq_eq_false_iff_ne.2 fun hkind => hsep ⟨hkind, hclosers⟩
  rw [divides, hcomma, Bool.false_or, combines?, hclosers, ← isSome_combinator?]
  rfl

/-- A token of a list opens and closes the brackets that it would open and close in any text. -/
theorem closers_feed (h : endsSelectors t.kind = false) :
    (b.feed t s).1.closers = (openAfter b.closers t.kind).getD b.closers := by
  by_cases hsep : b.separates t
  · rw [feed_of_separates hsep, hsep.1]
    rfl
  · rw [feed_of_not_separates hsep]
    exact (track_eq h).1

/-- A builder waits behind what divides, and behind nothing else. -/
theorem waits_feed (ht : t.text ≠ "") :
    (b.feed t s).1.waits = (b.closers.isEmpty && divides (t, s)) := by
  by_cases hsep : b.separates t
  · rw [feed_of_separates hsep, divides_of_separates hsep, hsep.2]
    rfl
  rw [feed_of_not_separates hsep, waits, after]
  rcases hcomb : b.combines? t with _ | c
  · have hwritten : (b.writePart t s).current.isEmpty = false := by
      rw [Bool.eq_false_iff, Ne, String.isEmpty_iff]
      exact fun hnone => ht (String.append_eq_empty_iff.1 hnone).2
    show ((b.writePart t s).current.isEmpty || false) = _
    rw [hwritten, Bool.or_false]
    rcases hclosers : b.closers with _ | ⟨closer, opened⟩
    · rw [divides_eq hclosers hsep, hcomb]
      rfl
    · rfl
  · obtain ⟨hclosers, _⟩ := of_combines hcomb
    rw [hclosers, divides_eq hclosers hsep, hcomb]
    exact Bool.or_true _

/-- A token is accepted where its kind may stand, closes only what is open, and divides nothing from
nothing. -/
theorem valid_feed (h : endsSelectors t.kind = false) : (b.feed t s).1.valid = true ↔
    b.valid = true ∧ (openAfter b.closers t.kind).isSome = true ∧ t.kind ∉ neverInSelectors ∧
      (b.closers = [] → t.kind ≠ .string ∧ ¬ (b.waits = true ∧ divides (t, s) = true)) := by
  by_cases hsep : b.separates t
  · rw [feed_of_separates hsep, divides_of_separates hsep, hsep.1, hsep.2]
    simp [finishSelector, waits, openAfter, neverInSelectors, Kind.closer?, Kind.isCloser,
      and_assoc]
  rw [feed_of_not_separates hsep, Bool.and_eq_true, (track_eq h).2, after]
  rcases hcomb : b.combines? t with _ | c
  · have hdivides : b.closers = [] → divides (t, s) = false := fun hclosers => by
      rw [divides_eq hclosers hsep, hcomb]
      rfl
    show b.valid = true ∧ _ ↔ _
    simp +contextual [hdivides]
  · obtain ⟨hclosers, _⟩ := of_combines hcomb
    simp [hclosers, divides_eq hclosers hsep, hcomb, writeCombinator, waits]
    tauto

/-! ### All tokens of a list -/

/-- The builder after tokens. -/
def feedAll (b : Builder) (v : List Seen) : Builder :=
  v.foldl (fun b seen => (b.feed seen.1 seen.2).1) b

/-- A builder that is valid after tokens was valid before them. -/
theorem valid_of_feedAll (h : (b.feedAll v).valid = true) : b.valid = true := by
  induction v generalizing b with
  | nil => exact h
  | cons seen v ih => exact valid_of_feed (ih h)

/-- Tokens that make what is read so far a selector list, where these brackets are open and the
builder waits for more of the current selector or not. -/
structure Continues (opened : List Kind) (waits : Bool) (v : List Seen) : Prop where
  nested : openBehind opened v = some []
  allowed : ∀ seen ∈ v, seen.1.kind ∉ neverInSelectors
  unquoted : ∀ seen ∈ outermost opened v, seen.1.kind ≠ .string
  divided : Divided (waits :: (outermost opened v).map divides)

/-- No tokens continue a list just if no bracket is open and the builder does not wait. -/
theorem continues_nil {waits : Bool} : Continues opened waits [] ↔ waits = false ∧ opened = [] := by
  constructor
  · intro h
    exact ⟨divided_singleton.1 h.divided, Option.some.inj h.nested⟩
  · rintro ⟨rfl, rfl⟩
    exact ⟨rfl, List.forall_mem_nil _, List.forall_mem_nil _, divided_singleton.2 rfl⟩

/-- A divider leaves the open brackets as they are. -/
theorem openAfter_of_divides {seen : Seen} (h : divides seen = true) :
    openAfter opened seen.1.kind = some opened := by
  have hkind : seen.1.kind = .comma ∨ seen.1.kind = .delim := by
    simp only [divides, isCombinator, isMark, Bool.or_eq_true, Bool.and_eq_true, beq_iff_eq] at h
    tauto
  rcases hkind with hkind | hkind <;> rw [hkind] <;> rfl

/-- What the first token must be, and those behind it. Within brackets the builder does not wait. -/
theorem continues_cons {seen : Seen} {waits : Bool} (hwaits : opened ≠ [] → waits = false) :
    Continues opened waits (seen :: v) ↔
      ((openAfter opened seen.1.kind).isSome = true ∧ seen.1.kind ∉ neverInSelectors ∧
        (opened = [] → seen.1.kind ≠ .string ∧ ¬ (waits = true ∧ divides seen = true))) ∧
      Continues ((openAfter opened seen.1.kind).getD opened) (opened.isEmpty && divides seen)
        v := by
  rcases hstep : openAfter opened seen.1.kind with _ | opened'
  · refine iff_of_false (fun h => ?_) fun h => absurd h.1.1 (by decide)
    obtain ⟨_, hsome, _⟩ := openBehind_cons_eq_some_iff.1 h.nested
    rw [hstep] at hsome
    cases hsome
  have hnested : openBehind opened (seen :: v) = openBehind opened' v := by
    rw [openBehind_cons, hstep, Option.bind_some]
  have hdivided : Divided (waits :: (outermost opened (seen :: v)).map divides) ↔
      (opened = [] → ¬ (waits = true ∧ divides seen = true)) ∧
        Divided ((opened.isEmpty && divides seen) :: (outermost opened' v).map divides) := by
    rw [outermost, hstep, Option.getD_some]
    rcases opened with _ | ⟨closer, opened⟩
    · simp [divided_cons_cons]
    · simp [hwaits]
  simp only [Option.getD_some, Option.isSome_some, true_and]
  constructor
  · rintro ⟨hclosed, hallowed, hunquoted, hmarks⟩
    obtain ⟨hfirst, hallowed⟩ := List.forall_mem_cons.1 hallowed
    obtain ⟨hquoted, hunquoted⟩ := (forall_outermost_cons hstep).1 hunquoted
    obtain ⟨hmark, hmarks⟩ := hdivided.1 hmarks
    exact ⟨⟨hfirst, fun hopened => ⟨hquoted hopened, hmark hopened⟩⟩,
      hnested ▸ hclosed, hallowed, hunquoted, hmarks⟩
  · rintro ⟨⟨hfirst, houter⟩, hclosed, hallowed, hunquoted, hmarks⟩
    exact ⟨hnested ▸ hclosed, List.forall_mem_cons.2 ⟨hfirst, hallowed⟩,
      (forall_outermost_cons hstep).2 ⟨fun hopened => (houter hopened).1, hunquoted⟩,
      hdivided.2 ⟨fun hopened => (houter hopened).2, hmarks⟩⟩

/-- A list is valid after its tokens just if it was so before them, and they continue it. -/
theorem isValid_feedAll (hwaits : b.closers ≠ [] → b.waits = false)
    (hwords : ∀ seen ∈ v, seen.1.text ≠ "")
    (hends : ∀ seen ∈ v, endsSelectors seen.1.kind = false) :
    (b.feedAll v).isValid = true ↔ b.valid = true ∧ Continues b.closers b.waits v := by
  induction v generalizing b with
  | nil =>
    rw [continues_nil]
    simp [feedAll, isValid, finishSelector, waits, and_assoc]
  | cons seen v ih =>
    obtain ⟨hword, hwords⟩ := List.forall_mem_cons.1 hwords
    obtain ⟨hend, hends⟩ := List.forall_mem_cons.1 hends
    have hnext : (b.feed seen.1 seen.2).1.closers ≠ [] →
        (b.feed seen.1 seen.2).1.waits = false := by
      rw [closers_feed hend, waits_feed hword, Bool.and_eq_false_iff, List.isEmpty_eq_false_iff,
        or_iff_not_imp_left, not_not]
      intro hopened hclosers
      rw [Bool.eq_false_iff]
      intro hdivides
      rw [openAfter_of_divides hdivides, hclosers] at hopened
      exact hopened rfl
    have hread : b.feedAll (seen :: v) = (b.feed seen.1 seen.2).1.feedAll v := rfl
    rw [hread, ih hnext hwords hends, valid_feed hend, continues_cons hwaits, waits_feed hword,
      closers_feed hend]
    simp only [and_assoc]

/-- A list that is read has an entry for each of its parts. -/
theorem length_finished_feedAll (hends : ∀ seen ∈ v, endsSelectors seen.1.kind = false) :
    (b.feedAll v).finished.length + 1 = b.finished.length + (selectorParts b.closers v).length := by
  induction v generalizing b with
  | nil => rfl
  | cons seen v ih =>
    obtain ⟨hend, hends⟩ := List.forall_mem_cons.1 hends
    have hread : b.feedAll (seen :: v) = (b.feed seen.1 seen.2).1.feedAll v := rfl
    rw [hread, ih hends, closers_feed hend]
    by_cases hsep : b.separates seen.1
    · rw [feed_of_separates hsep, selectorParts, hsep.1, hsep.2]
      simp [finishSelector, openAfter, Kind.closer?, Kind.isCloser]
      omega
    · have hfinished : (b.feed seen.1 seen.2).1.finished = b.finished := by
        rw [feed_of_not_separates hsep, after]
        cases b.combines? seen.1 <;> rfl
      have hgoes : (b.closers.isEmpty && seen.1.kind == .comma) = false := by
        rw [Bool.eq_false_iff, Ne, Bool.and_eq_true, List.isEmpty_iff, beq_iff_eq]
        exact fun h => hsep h.symm
      rw [hfinished, selectorParts, hgoes, if_neg Bool.false_ne_true, List.length_modifyHead]

end Cssom.SelectorList.Builder

namespace Cssom.Grammar

open Production Token SelectorList

/-- The tokens up to the end of a selector list. -/
def untilBrace (ahead : List Seen) : List Seen :=
  ahead.takeWhile fun seen => !endsSelectors seen.1.kind

/-- A token that ends no list stands before its end. -/
theorem untilBrace_cons {seen : Seen} {more : List Seen} (h : endsSelectors seen.1.kind = false) :
    untilBrace (seen :: more) = seen :: untilBrace more := by
  rw [untilBrace, List.takeWhile_cons, h]
  rfl

/-- A token that ends a list ends it at once. -/
theorem untilBrace_of_ends {seen : Seen} {more : List Seen}
    (h : endsSelectors seen.1.kind = true) : untilBrace (seen :: more) = [] := by
  rw [untilBrace, List.takeWhile_cons, h]
  rfl

/-- Before the end of a list none of its tokens ends it. -/
theorem not_ends_of_mem_untilBrace {seen : Seen} {ahead : List Seen}
    (h : seen ∈ untilBrace ahead) : endsSelectors seen.1.kind = false := by
  unfold untilBrace at h
  simpa using List.mem_takeWhile_imp h

/-- Reading a list feeds the builder with the tokens up to its end, and stops there. -/
theorem selectorsFrom_feedAll {i : Input} {b : SelectorList.Builder} (rounds : Nat)
    (hsize : i.size ≤ rounds) : (selectorsFrom rounds b).Yields i fun final rest =>
      final = b.feedAll (untilBrace i.seen) ∧ untilBrace i.seen ++ rest.seen = i.seen := by
  induction rounds generalizing b i with
  | zero =>
    have hnone : i.seen = [] := by
      rw [← List.length_eq_zero_iff, Input.length_seen]
      omega
    exact .pure (by rw [hnone]; exact ⟨rfl, rfl⟩)
  | succ rounds ih =>
    rcases hends : endsSelectors i.view.kind
    · have hne : i.view.kind ≠ .eof := fun heof => by
        rw [heof] at hends
        cases hends
      have hadvance : i.advance.size ≤ rounds := Nat.sub_le_of_le_add hsize
      unfold Production.Yields
      rw [read_selectorsFrom_token rounds hends, Input.seen_eq_cons hne, untilBrace_cons hends]
      obtain ⟨hfinal, hrest⟩ := ih (b := (b.feed i.view.token i.view.spacing).1) hadvance
      exact ⟨hfinal, congrArg (_ :: ·) hrest⟩
    · unfold Production.Yields
      rw [read_selectorsFrom_stops _ hends]
      rcases hseen : i.seen with _ | ⟨seen, more⟩
      · exact ⟨rfl, hseen⟩
      · rw [Input.kind_of_seen hseen] at hends
        rw [untilBrace_of_ends hends]
        exact ⟨rfl, hseen⟩

/-- A selector list is read as what the builder makes of the tokens up to its end. -/
theorem selectorList_feedAll {i : Input} : selectorList.Yields i fun parsed rest =>
    parsed = ⟨(Builder.empty.feedAll (untilBrace i.seen)).list,
      (Builder.empty.feedAll (untilBrace i.seen)).isValid⟩ ∧
      untilBrace i.seen ++ rest.seen = i.seen :=
  .enclosed (.view (.bind (selectorsFrom_feedAll i.view.size (Nat.le_refl _))
    fun b rest _ hb => .pure ⟨by rw [hb.1], hb.2⟩))

/-- What the builder makes of tokens is valid just if they are those of a selector list. -/
theorem isValid_iff_isSelectorList {v : List Seen} (hwords : ∀ seen ∈ v, seen.1.text ≠ "")
    (hends : ∀ seen ∈ v, endsSelectors seen.1.kind = false) :
    (Builder.empty.feedAll v).isValid = true ↔ IsSelectorList v := by
  rw [Builder.isValid_feedAll (fun h => absurd rfl h) hwords hends]
  constructor
  · rintro ⟨_, hnested, hallowed, hunquoted, hdivided⟩
    exact ⟨hnested, hallowed, hunquoted, forall_isSelector_iff.2 hdivided⟩
  · rintro ⟨hnested, hallowed, hunquoted, hselectors⟩
    exact ⟨rfl, hnested, hallowed, hunquoted, forall_isSelector_iff.1 hselectors⟩

end Cssom.Grammar

namespace Cssom

open Production Token Grammar

/-- A selector list is given if what the builder makes of it is valid. -/
theorem SelectorList.parse_eq (tokens : List Token) (config : Config) :
    let s := Parser.ofTokens tokens config
    (SelectorList.parse tokens config).1 =
      (if (Builder.empty.feedAll (untilBrace s.rest)).isValid then
        some (Builder.empty.feedAll (untilBrace s.rest)).list else none) ∧
      untilBrace s.rest ++ (SelectorList.parse tokens config).2.rest = s.rest := by
  have hparsed := selectorList_feedAll.run (s := .ofTokens tokens config)
  unfold SelectorList.parse
  generalize selectorList.run (.ofTokens tokens config) = outcome at hparsed ⊢
  obtain ⟨parsed, after⟩ := outcome
  obtain ⟨hlist, hrest⟩ := hparsed
  obtain rfl := hlist
  exact ⟨rfl, hrest⟩

/-- Of every source: its tokens up to the first brace are accepted as a selector list just if they
are those of one, and it has an entry for each part between commas. -/
theorem selectors_are_accepted (source : String) (file : Option String) (config : Config) :
    ∃ tokens, Token.scan source file = .ok tokens ∧
      let upcoming := untilBrace (Parser.ofTokens tokens config).rest
      let outcome := (SelectorList.parse tokens config).1
      (outcome.isSome = true ↔ IsSelectorList upcoming) ∧
        ∀ list ∈ outcome, list.selectors.length = (selectorParts [] upcoming).length := by
  refine ⟨tokenize source file, scan_eq_tokenize source file, ?_⟩
  intro upcoming outcome
  have hwords : ∀ seen ∈ upcoming, seen.1.text ≠ "" := fun seen hseen =>
    (worded_tokenize source file).seen_ne seen ((List.takeWhile_sublist _).subset hseen)
  have hends : ∀ seen ∈ upcoming, endsSelectors seen.1.kind = false :=
    fun seen hseen => not_ends_of_mem_untilBrace hseen
  have houtcome : outcome = if (SelectorList.Builder.empty.feedAll upcoming).isValid then
      some (SelectorList.Builder.empty.feedAll upcoming).list else none :=
    (SelectorList.parse_eq (tokenize source file) config).1
  rw [houtcome, ← isValid_iff_isSelectorList hwords hends]
  constructor
  · rw [Option.isSome_ite]
  · intro list hlist
    rw [Option.mem_def, Option.ite_none_right_eq_some, Option.some.injEq] at hlist
    rw [← hlist.2, SelectorList.Builder.list, SelectorList.Builder.finishSelector,
      List.length_append, List.length_singleton,
      SelectorList.Builder.length_finished_feedAll hends]
    exact Nat.zero_add _

/-- Combinators and commas in brackets join and part nothing; one before a comma has nothing to
join. -/
theorem selectors_are_accepted_nested :
    let parse := fun source => (SelectorList.parse (tokenize source none) .strict).1
    ((parse "a > b[c=\"d,\"](>, >)e, :not(f) \x7b").isSome = true ∧
      ∀ list ∈ parse "a > b[c=\"d,\"](>, >)e, :not(f) \x7b", list.selectors.length = 2) ∧
    ¬ (parse "a (b) +, c").isSome = true := by
  intro parse
  obtain ⟨tokens, hscan, haccepted, hlength⟩ :=
    selectors_are_accepted "a > b[c=\"d,\"](>, >)e, :not(f) \x7b" none .strict
  obtain ⟨tokens', hscan', hrefused, _⟩ := selectors_are_accepted "a (b) +, c" none .strict
  rw [scan_eq_tokenize, Except.ok.injEq] at hscan hscan'
  subst hscan hscan'
  refine ⟨⟨haccepted.2 (by decide +kernel), fun list hlist => ?_⟩,
    fun hsome => absurd (hrefused.1 hsome) (by decide +kernel)⟩
  rw [hlength list hlist]
  decide +kernel

end Cssom

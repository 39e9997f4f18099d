import Cssom.Proofs.Reading.Cut
import Cssom.Proofs.Recovery.ClosingBrace

/-!
# A list and what follows it

A list of tokens whose brackets nest is read up to its end whatever comes there, as long as that
ends a declaration: nothing more, a semicolon or a closing brace. Of two inputs the one goes on with
a tail where the other ends (`Beside`). Productions read them evenly when they give the same result,
report the same causes and stop at the same token of the list, or where it ends (`Outcome.Even`).
Names, values and what is passed over are read by scans, each of which keeps count of the brackets
that matter to it in its own way; whatever a scan keeps, it reads evenly if its count is right
(`Scan.Balanced`).
-/

namespace Cssom

namespace Grammar

open Production Token

/-! ### Brackets -/

/-- A closing brace closes a brace that was opened last. -/
theorem opened_of_close {opened opened' : List Kind}
    (h : openAfter opened .closeCurly = some opened') : opened = .closeCurly :: opened' := by
  rcases openAfter_eq_some_iff.1 h with ⟨_, hopens, _⟩ | ⟨_, hopened⟩ | ⟨_, hcloses, _⟩
  · cases hopens
  · exact hopened
  · cases hcloses

/-- The braces among the open brackets are those that a scan counts. -/
theorem count_openAfter_eq {opened opened' : List Kind} {kind : Kind}
    (h : openAfter opened kind = some opened') :
    opened'.count .closeCurly = bracesAfter (opened.count .closeCurly) kind := by
  by_cases ho : kind = .openCurly
  · subst ho
    have hopened : .closeCurly :: opened = opened' := Option.some.inj h
    rw [← hopened, List.count_cons_self]
    rfl
  · by_cases hc : kind = .closeCurly
    · subst hc
      rw [opened_of_close h, List.count_cons_self]
      rfl
    · rw [count_openAfter h ho hc, bracesAfter_of_ne ho hc]

/-! ### What is left of a list -/

/-- What is left of a list of tokens: those ahead, which have texts, are no unfinished strings and
no spoiled addresses, and close the brackets that are open, in the order that nests. -/
structure Listed (opened : List Kind) (ahead : List Lexeme) : Prop where
  closed : openAfterAll opened ahead = some []
  sound : ∀ lexeme ∈ ahead, lexeme.token.kind ≠ .badString ∧ lexeme.token.kind ≠ .badUrl
  worded : ∀ lexeme ∈ ahead, lexeme.token.text ≠ ""

namespace Listed

variable {opened : List Kind} {lexeme : Lexeme} {rest : List Lexeme}

/-- At the end of a list no bracket is open. -/
theorem eq_nil (h : Listed opened []) : opened = [] :=
  Option.some.inj h.closed

/-- Behind a token of a list the rest is a list, with the brackets open that the token leaves. -/
theorem tail (h : Listed opened (lexeme :: rest)) :
    ∃ opened', openAfter opened lexeme.token.kind = some opened' ∧ Listed opened' rest := by
  have hclosed := h.closed
  rw [openAfterAll, List.foldlM_cons] at hclosed
  obtain ⟨opened', hstep, hmore⟩ := Option.bind_eq_some_iff.1 hclosed
  exact ⟨opened', hstep, hmore, (List.forall_mem_cons.1 h.sound).2,
    (List.forall_mem_cons.1 h.worded).2⟩

end Listed

/-- A tail that ends a declaration: nothing, or something that starts with a semicolon or a closing
brace. -/
def Ends (tail : List Lexeme) : Prop :=
  ∀ lexeme ∈ tail.head?, endsRule lexeme.token.kind = true

/-- Two inputs of which the first goes on with a tail where the second ends; up to there both hold
the rest of a list, with these brackets open. -/
structure Beside (tail : List Lexeme) (opened : List Kind) (whole short : Input) : Prop where
  cut : whole.CutAt tail short
  listed : Listed opened short.ahead

/-- Two such inputs, with no brace open. -/
def Level (tail : List Lexeme) (whole short : Input) : Prop :=
  ∃ opened, Beside tail opened whole short ∧ opened.count .closeCurly = 0

variable {tail : List Lexeme} {opened : List Kind} {i j : Input}

/-- What is under the cursor at the end of a list. -/
theorem kind_of_ends (htail : Ends tail) (hi : i.ahead = tail) :
    endsRule i.view.kind = true ∨ i.view.kind = .eof := by
  rcases tail with _ | ⟨lexeme, rest⟩
  · right
    rw [View.kind, Input.view, Input.current, hi]
    exact i.eof_kind
  · left
    rw [View.kind, Input.view, Input.current, hi]
    exact htail lexeme rfl

namespace Beside

/-- Before the end of the list the end is not under the cursor. -/
theorem kind_ne_eof (h : Beside tail opened i j) (hj : j.ahead ≠ []) : i.view.kind ≠ .eof := by
  obtain ⟨lexeme, rest, _, hk, _⟩ := exists_ahead_eq hj
  rw [← h.cut.kind_eq hj, hk]
  intro heof
  have hsignificant := lexeme.significant
  rw [heof] at hsignificant
  exact absurd hsignificant (by decide)

/-- Before the end of the list the first input is not at its end. -/
theorem atEnd_eq (h : Beside tail opened i j) (hj : j.ahead ≠ []) : i.view.atEnd = false :=
  beq_false_of_ne (h.kind_ne_eof hj)

/-- No token of a list is an unfinished string or a spoiled address. -/
theorem sound (h : Beside tail opened i j) (hj : j.ahead ≠ []) :
    i.view.kind ≠ .badString ∧ i.view.kind ≠ .badUrl := by
  obtain ⟨lexeme, rest, hahead, hk, _⟩ := exists_ahead_eq hj
  rw [← h.cut.kind_eq hj, hk]
  exact h.listed.sound lexeme (hahead ▸ List.mem_cons_self)

/-- Taking a token of the list opens or closes what it does. -/
theorem advance (h : Beside tail opened i j) (hj : j.ahead ≠ []) :
    ∃ opened', openAfter opened i.view.kind = some opened' ∧
      Beside tail opened' i.advance j.advance := by
  obtain ⟨lexeme, rest, hahead, hk, _, hrest⟩ := exists_ahead_eq hj
  have hlisted := h.listed
  rw [hahead] at hlisted
  obtain ⟨opened', hstep, hmore⟩ := hlisted.tail
  rw [← h.cut.kind_eq hj, hk]
  exact ⟨opened', hstep, h.cut.advance hj, hrest ▸ hmore⟩

/-- To move on along the list leaves fewer tokens. -/
theorem size_advance_lt (h : Beside tail opened i j) (hj : j.ahead ≠ []) :
    i.advance.size < i.size := by
  have hsize : i.advance.size = i.size - 1 := rfl
  have hcut := (h.cut.lt_size_iff).2 hj
  omega

/-- Where the list ends no bracket is open, and what may follow it is under the cursor of the first
input, the end under that of the second. -/
theorem at_end (h : Beside tail opened i j) (htail : Ends tail) (hj : j.ahead = []) :
    opened = [] ∧ (endsRule i.view.kind = true ∨ i.view.kind = .eof) ∧ j.view.kind = .eof := by
  have hlisted := h.listed
  rw [hj] at hlisted
  have hi : i.ahead = tail := by
    rw [show i.ahead = j.ahead ++ tail from h.cut, hj, List.nil_append]
  refine ⟨hlisted.eq_nil, kind_of_ends htail hi, ?_⟩
  rw [View.kind, Input.view, Input.current, hj]
  exact j.eof_kind

/-- A closing brace in the list closes one that was opened in it. -/
theorem kind_ne_close (h : Beside tail opened i j) (hj : j.ahead ≠ [])
    (hnone : opened.count .closeCurly = 0) : i.view.kind ≠ .closeCurly := by
  intro hclose
  obtain ⟨opened', hstep, _⟩ := h.advance hj
  rw [hclose] at hstep
  rw [opened_of_close hstep, List.count_cons_self] at hnone
  exact absurd hnone (Nat.succ_ne_zero _)

end Beside

end Grammar

open Grammar Token

/-- What comes of reading a list, and after it another. -/
def Outcome.andThen {α : Type} (one more : Outcome (List α)) : Outcome (List α) :=
  ⟨one.result ++ more.result, more.rest, one.reports ++ more.reports⟩

/-- Outcomes of reading two inputs beside each other: the same result, the same causes, and inputs
beside each other that are left, with no brace open. -/
structure Outcome.Even {α : Type} (tail : List Lexeme) (whole short : Outcome α) : Prop where
  result : whole.result = short.result
  causes : whole.reports.map Diagnostic.cause = short.reports.map Diagnostic.cause
  rest : Level tail whole.rest short.rest

namespace Outcome.Even

open Production

variable {α β : Type} {tail : List Lexeme} {i j : Input}

/-- To give a result is even. -/
theorem pure (h : Level tail i j) (a : α) :
    ((Pure.pure a : Production α).read i).Even tail ((Pure.pure a : Production α).read j) :=
  ⟨rfl, rfl, h⟩

/-- What comes next is read where the first parts stop. -/
theorem bind_at {p q : Production α} {f g : α → Production β}
    (hp : (p.read i).Even tail (q.read j))
    (hnext : ((f (p.read i).result).read (p.read i).rest).Even tail
      ((g (p.read i).result).read (q.read j).rest)) :
    ((p >>= f).read i).Even tail ((q >>= g).read j) := by
  rw [read_bind, read_bind, ← hp.result]
  refine ⟨hnext.result, ?_, hnext.rest⟩
  rw [List.map_append, List.map_append, hp.causes, hnext.causes]

/-- Steps that are even, one after the other, are even. -/
theorem bind {p q : Production α} {f g : α → Production β}
    (hp : (p.read i).Even tail (q.read j))
    (hf : ∀ a i' j', Level tail i' j' → ((f a).read i').Even tail ((g a).read j')) :
    ((p >>= f).read i).Even tail ((q >>= g).read j) :=
  hp.bind_at (hf _ _ _ hp.rest)

/-- To report at the cursor is even. -/
theorem complain (h : Level tail i j) (cause : Cause) :
    ((Production.complain cause).read i).Even tail ((Production.complain cause).read j) :=
  ⟨rfl, rfl, h⟩

end Outcome.Even

namespace Grammar

open Production

/-! ### Scans -/

/-- A loop that reads on until it halts at what is under the cursor, and keeps something on the
way. -/
structure Scan (α β : Type) where
  halts : β → View → Bool
  step : β → View → Production β
  out : β → α

/-- Reads on, a step in each round. -/
def Scan.rounds {α β : Type} (scan : Scan α β) : Nat → β → Production α
  | 0, kept => pure (scan.out kept)
  | rounds + 1, kept => do
    let view ← view
    if scan.halts kept view then pure (scan.out kept)
    else
      let kept ← scan.step kept view
      scan.rounds rounds kept

/-- What a scan keeps against the brackets that are open (`Inv`), in a list that the tail follows.
Once no bracket is open it halts at what ends a declaration; where it halts before, no brace is
open; and a step takes a token of the list, reports nothing and goes the same way whether or not the
tail follows. -/
structure Scan.Balanced {α β : Type} (scan : Scan α β) (tail : List Lexeme)
    (Inv : β → List Kind → Prop) : Prop where
  ends : ∀ kept (v : View), Inv kept [] → endsRule v.kind = true ∨ v.kind = .eof →
    scan.halts kept v = true
  halts : ∀ kept opened (i j : Input), Inv kept opened → Beside tail opened i j → j.ahead ≠ [] →
    scan.halts kept j.view = scan.halts kept i.view ∧
      (scan.halts kept i.view = true → opened.count .closeCurly = 0)
  step : ∀ kept opened (i j : Input), Inv kept opened → Beside tail opened i j → j.ahead ≠ [] →
    scan.halts kept i.view = false → ∃ kept' i' j' opened',
      (scan.step kept i.view).read i = ⟨kept', i', []⟩ ∧
        (scan.step kept j.view).read j = ⟨kept', j', []⟩ ∧
        Inv kept' opened' ∧ Beside tail opened' i' j' ∧ i'.size < i.size

namespace Scan

variable {α β : Type} {scan : Scan α β} {tail : List Lexeme} {Inv : β → List Kind → Prop}
  {opened : List Kind} {i j : Input} {kept : β}

/-- Where a scan halts, it does so with any number of rounds. -/
theorem read_of_halts (rounds : Nat) (h : scan.halts kept i.view = true) :
    (scan.rounds rounds kept).read i = ⟨scan.out kept, i, []⟩ := by
  cases rounds with
  | zero => rw [Scan.rounds, read_pure]
  | succ rounds => simp [Scan.rounds, read_bind, h]

/-- A scan that takes a step goes on behind it. -/
theorem read_of_step {kept' : β} {i' : Input} (rounds : Nat) (h : scan.halts kept i.view = false)
    (hstep : (scan.step kept i.view).read i = ⟨kept', i', []⟩) :
    (scan.rounds (rounds + 1) kept).read i = (scan.rounds rounds kept').read i' := by
  simp [Scan.rounds, read_bind, h, hstep]

namespace Balanced

/-- A scan that halts on both inputs, with no brace open, is even. -/
theorem even_of_halts (rounds rounds' : Nat) (hi : scan.halts kept i.view = true)
    (hj : scan.halts kept j.view = true) (h : Beside tail opened i j)
    (hnone : opened.count .closeCurly = 0) :
    ((scan.rounds rounds kept).read i).Even tail ((scan.rounds rounds' kept).read j) := by
  rw [read_of_halts rounds hi, read_of_halts rounds' hj]
  exact ⟨rfl, rfl, opened, h, hnone⟩

/-- Where the list ends both readings halt. -/
theorem even_at_end (hscan : scan.Balanced tail Inv) (htail : Ends tail) (rounds rounds' : Nat)
    (hinv : Inv kept opened) (h : Beside tail opened i j) (hend : j.ahead = []) :
    ((scan.rounds rounds kept).read i).Even tail ((scan.rounds rounds' kept).read j) := by
  obtain ⟨rfl, hwhole, hshort⟩ := h.at_end htail hend
  exact even_of_halts _ _ (hscan.ends kept _ hinv hwhole) (hscan.ends kept _ hinv (.inr hshort)) h
    rfl

/-- A scan whose count is right reads two inputs beside each other evenly. Either may give it more
rounds than the other. -/
theorem even (hscan : scan.Balanced tail Inv) (htail : Ends tail) {rounds rounds' : Nat}
    (hi : i.size ≤ rounds) (hj : j.size ≤ rounds') (hinv : Inv kept opened)
    (h : Beside tail opened i j) :
    ((scan.rounds rounds kept).read i).Even tail ((scan.rounds rounds' kept).read j) := by
  induction rounds generalizing rounds' kept opened i j with
  | zero =>
    have hcut := h.cut.size_eq
    exact hscan.even_at_end htail _ _ hinv h (j.size_eq_zero_iff.1 (by omega))
  | succ rounds ih =>
    by_cases hend : j.ahead = []
    · exact hscan.even_at_end htail _ _ hinv h hend
    obtain ⟨hsame, hnone⟩ := hscan.halts kept opened i j hinv h hend
    cases hstop : scan.halts kept i.view with
    | true => exact even_of_halts _ _ hstop (hsame.trans hstop) h (hnone hstop)
    | false =>
      obtain ⟨kept', i', j', opened', hreadI, hreadJ, hinv', h', hlt⟩ :=
        hscan.step kept opened i j hinv h hend hstop
      have hcut := h.cut.size_eq
      have hcut' := h'.cut.size_eq
      obtain ⟨rounds', rfl⟩ : ∃ n, rounds' = n + 1 := ⟨rounds' - 1, by omega⟩
      rw [read_of_step rounds hstop hreadI, read_of_step rounds' (hsame.trans hstop) hreadJ]
      exact ih (by omega) (by omega) hinv' h'

end Balanced

end Scan

end Grammar

end Cssom

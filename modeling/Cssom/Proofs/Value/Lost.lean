import Cssom.Proofs.Value.Acceptance

/-!
# Brackets that a value loses

Where a token is refused in parentheses, what they hold is passed over, and then no bracket counts
as open any more. But the outermost parenthesis may itself stand in brackets that are not
parentheses: these are lost (`Lost`), and from there on a token in them that ends the value ends it,
before its brackets are closed (`EndsEarly`). That is the only way in which a value whose tokens
nest stops before its end (`value_stops_at_end_iff`).
-/

namespace Cssom

open Production Token Grammar

/-- An unfinished string or a spoiled address. -/
def IsBroken (token : Token) : Prop :=
  token.kind = .badString ∨ token.kind = .badUrl

/-- Brackets that are open behind some tokens, none of them a parenthesis, were lost: since they
were opened a broken token stood in them, and there in parentheses. -/
def Lost (used : List Seen) (outer : List Kind) : Prop :=
  .closeParen ∉ outer ∧ ∃ before broken within inner left, used = before ++ broken :: within ∧
    IsBroken broken.1 ∧ openBehind [] before = some (inner ++ outer) ∧ .closeParen ∈ inner ∧
    openBehind inner within = some left

/-- A token in lost brackets, of a kind that ends the value, as it stands behind some tokens. -/
def EndsEarly (T : List Kind) (before : List Seen) (next : Seen) : Prop :=
  next.1.kind ∈ T ∧ ∃ outer, outer ≠ [] ∧ openBehind [] before = some outer ∧ Lost before outer

/-- Among these tokens none ends the value early. -/
def NeverEarly (T : List Kind) (v : List Seen) : Prop :=
  ∀ before next after, v = before ++ next :: after → ¬ EndsEarly T before next

namespace Grammar

variable {T opened closers closers' inner outer lost : List Kind} {t : Seen}
  {used within v w more : List Seen} {r : ValueReading} {i : Input}

/-! ### Lost brackets -/

/-- A broken token leaves the open brackets as they are. -/
theorem openAfter_of_isBroken (h : IsBroken t.1) (opened : List Kind) :
    openAfter opened t.1.kind = some opened := by
  rcases h with h | h <;> rw [h] <;> rfl

/-- A broken token is refused, and opens and closes nothing. -/
theorem track_of_isBroken (h : IsBroken t.1) (closers : List Kind) :
    Value.Builder.track closers t.1.kind = (closers, false) := by
  rcases h with h | h <;> rw [h] <;> rfl

/-- Lost brackets are the outermost of those that are open. -/
theorem exists_append_of_lost (hlost : Lost used outer)
    (hopened : openBehind [] used = some opened) :
    ∃ left, opened = left ++ outer := by
  obtain ⟨_, before, broken, within, inner, left, rfl, hbroken, hbefore, _, hwithin⟩ := hlost
  rw [openBehind_append, hbefore, Option.bind_some, openBehind_cons,
    openAfter_of_isBroken hbroken, Option.bind_some, openBehind_append_outer hwithin] at hopened
  exact ⟨left, (Option.some.inj hopened).symm⟩

/-- A token that closes none of them leaves brackets lost. -/
theorem lost_snoc (hlost : Lost used lost) (hopened : openBehind [] used = some (closers ++ lost))
    (hstep : openAfter closers t.1.kind = some closers') : Lost (used ++ [t]) lost := by
  obtain ⟨hparen, before, broken, within, inner, left, rfl, hbroken, hbefore, hinner, hwithin⟩ :=
    hlost
  have hleft : left = closers := by
    rw [openBehind_append, hbefore, Option.bind_some, openBehind_cons,
      openAfter_of_isBroken hbroken, Option.bind_some, openBehind_append_outer hwithin,
      Option.some.injEq, List.append_left_inj] at hopened
    exact hopened
  refine ⟨hparen, before, broken, within ++ [t], inner, closers', by simp, hbroken, hbefore, hinner,
    openBehind_append_eq_some_iff.2 ⟨left, hwithin, ?_⟩⟩
  rw [openBehind_cons, hleft, hstep]
  rfl

/-- The token that closes the first of them leaves the other brackets lost. -/
theorem lost_close (hlost : Lost used (t.1.kind :: lost))
    (hopened : openBehind [] used = some (t.1.kind :: lost)) (hcloser : t.1.kind.isCloser = true) :
    Lost (used ++ [t]) lost := by
  obtain ⟨hparen, before, broken, within, inner, left, rfl, hbroken, hbefore, hinner, hwithin⟩ :=
    hlost
  have hleft : left = [] := by
    rw [openBehind_append, hbefore, Option.bind_some, openBehind_cons,
      openAfter_of_isBroken hbroken, Option.bind_some, openBehind_append_outer hwithin,
      Option.some.injEq, List.append_left_eq_self] at hopened
    exact hopened
  have hcloses : openAfter [t.1.kind] t.1.kind = some [] :=
    openAfter_eq_some_iff.2 (Or.inr (Or.inl ⟨hcloser, rfl⟩))
  refine ⟨fun hmem => hparen (List.mem_cons_of_mem _ hmem), before, broken, within ++ [t],
    inner ++ [t.1.kind], [], by simp, hbroken, by simpa using hbefore,
    List.mem_append_left _ hinner, openBehind_append_eq_some_iff.2 ⟨[t.1.kind], ?_, ?_⟩⟩
  · rw [openBehind_append_outer hwithin, hleft, List.nil_append]
  · rw [openBehind_cons, hcloses]
    rfl

/-- Only a broken token loses brackets, and only in parentheses. -/
theorem lost_of_snoc (hlost : Lost (used ++ [t]) outer) (hopened : openBehind [] used = some opened)
    (hbroken : IsBroken t.1 → .closeParen ∉ opened) : Lost used outer := by
  obtain ⟨hparen, before, broken, within, inner, left, hused, hbad, hbefore, hinner, hwithin⟩ :=
    hlost
  rcases List.eq_nil_or_concat within with rfl | ⟨within, last, rfl⟩
  · obtain ⟨rfl, hlast⟩ := List.append_inj' hused rfl
    obtain rfl : t = broken := by simpa using hlast
    rw [hbefore, Option.some.injEq] at hopened
    exact absurd (hopened ▸ List.mem_append_left _ hinner) (hbroken hbad)
  · rw [List.concat_eq_append] at hused hwithin
    obtain ⟨between, hbetween, _⟩ := openBehind_append_eq_some_iff.1 hwithin
    have hsplit : used ++ [t] = (before ++ broken :: within) ++ [last] := by simp [hused]
    obtain ⟨rfl, _⟩ := List.append_inj' hsplit rfl
    exact ⟨hparen, before, broken, within, inner, between, rfl, hbad, hbefore, hinner, hbetween⟩

/-- The outermost parenthesis in brackets. -/
theorem exists_last_paren (h : .closeParen ∈ closers) :
    ∃ inner outer, closers = inner ++ .closeParen :: outer ∧ .closeParen ∉ outer := by
  obtain ⟨before, behind, hsplit, hbefore⟩ := List.eq_append_cons_of_mem (List.mem_reverse.2 h)
  refine ⟨behind.reverse, before.reverse, ?_, by rwa [List.mem_reverse]⟩
  rw [← List.reverse_reverse closers, hsplit]
  simp

/-! ### What a value keeps of the brackets -/

/-- A value keeps these as the open brackets behind some tokens, and has lost the others that are
open; it has lost all that are lost there. -/
structure Tracks (used : List Seen) (closers lost : List Kind) : Prop where
  opened : openBehind [] used = some (closers ++ lost)
  noParen : .closeParen ∉ lost
  isLost : lost ≠ [] → Lost used lost
  longest : ∀ outer, Lost used outer → outer.length ≤ lost.length

namespace Tracks

/-- Before any token no bracket is open and none is lost. -/
theorem start : Tracks [] [] [] where
  opened := rfl
  noParen := List.not_mem_nil
  isLost h := absurd rfl h
  longest := by
    rintro outer ⟨_, before, broken, within, _, _, hused, _⟩
    cases before <;> cases hused

/-- Where no bracket is kept, all that are open are lost. -/
theorem of_outside (hopened : openBehind [] used = some lost) (hparen : .closeParen ∉ lost)
    (hlost : lost ≠ [] → Lost used lost) : Tracks used [] lost where
  opened := hopened
  noParen := hparen
  isLost := hlost
  longest outer houter := by
    obtain ⟨left, rfl⟩ := exists_append_of_lost houter hopened
    rw [List.length_append]
    omega

/-- After a token that is no broken one in parentheses, and opens or closes what the value keeps. -/
theorem snoc (h : Tracks used closers lost) (hstep : openAfter closers t.1.kind = some closers')
    (hbroken : IsBroken t.1 → .closeParen ∉ closers) : Tracks (used ++ [t]) closers' lost where
  opened := by
    rw [openBehind_append, h.opened, Option.bind_some, openBehind_cons,
      openAfter_append hstep lost]
    rfl
  noParen := h.noParen
  isLost hne := lost_snoc (h.isLost hne) h.opened hstep
  longest outer houter := by
    refine h.longest outer (lost_of_snoc houter h.opened fun hbad hmem => ?_)
    exact (List.mem_append.1 hmem).elim (hbroken hbad) h.noParen

/-- After a token that closes the first of the lost brackets. -/
theorem close (h : Tracks used [] (t.1.kind :: lost)) (hcloser : t.1.kind.isCloser = true) :
    Tracks (used ++ [t]) [] lost := by
  have hlost : Lost (used ++ [t]) lost := lost_close (h.isLost (by simp)) h.opened hcloser
  refine of_outside ?_ hlost.1 fun _ => hlost
  rw [openBehind_append, h.opened, Option.bind_some, openBehind_cons, List.nil_append,
    openAfter_eq_some_iff.2 (Or.inr (Or.inl ⟨hcloser, rfl⟩))]
  rfl

/-- After a broken token in parentheses, and what was passed over up to the end of the outermost of
these: the brackets around that are lost too. -/
theorem abandon (h : Tracks used (inner ++ .closeParen :: outer) lost)
    (houter : .closeParen ∉ outer) (hbroken : IsBroken t.1)
    (hwithin : openBehind (inner ++ [.closeParen]) within = some []) :
    Tracks (used ++ t :: within) [] (outer ++ lost) := by
  have hbefore : openBehind [] used = some ((inner ++ [.closeParen]) ++ (outer ++ lost)) := by
    simpa using h.opened
  have hparen : .closeParen ∉ outer ++ lost := by
    rw [List.mem_append, not_or]
    exact ⟨houter, h.noParen⟩
  refine of_outside ?_ hparen fun _ => ⟨hparen, used, t, within, inner ++ [.closeParen], [], rfl,
    hbroken, hbefore, by simp, hwithin⟩
  rw [openBehind_append, hbefore, Option.bind_some, openBehind_cons,
    openAfter_of_isBroken hbroken, Option.bind_some, openBehind_append_outer hwithin,
    List.nil_append]

/-- A token ends the value early just where it is outside of all brackets that the value keeps, but
not of all that are open. -/
theorem endsEarly_iff (h : Tracks used closers lost) :
    EndsEarly T used t ↔ t.1.kind ∈ T ∧ closers = [] ∧ lost ≠ [] := by
  refine and_congr_right fun _ => ⟨?_, ?_⟩
  · rintro ⟨outer, hne, hopened, hlost⟩
    have hlength := h.longest outer hlost
    rw [h.opened, Option.some.injEq] at hopened
    have hclosers : closers = [] := by
      rw [← hopened, List.length_append] at hlength
      exact List.length_eq_zero_iff.1 (by omega)
    subst hclosers
    exact ⟨rfl, by rwa [← hopened] at hne⟩
  · rintro ⟨rfl, hne⟩
    exact ⟨lost, hne, h.opened, h.isLost hne⟩

end Tracks

/-! ### Tokens that end no value early -/

/-- Of no tokens none ends a value early. -/
theorem neverEarly_nil : NeverEarly T [] := by
  intro before next after h
  cases before <;> cases h

/-- Tokens of which none ends a value early may be followed by others that do not either. -/
theorem neverEarly_append (h : NeverEarly T used)
    (hmore : ∀ before next after, w = before ++ next :: after →
      ¬ EndsEarly T (used ++ before) next) : NeverEarly T (used ++ w) := by
  intro before next after hsplit
  rcases List.append_eq_append_iff.1 hsplit with ⟨between, rfl, hw⟩ | ⟨between, hused, hafter⟩
  · exact hmore between next after hw
  · rcases between with _ | ⟨first, between⟩
    · rw [List.append_nil] at hused
      subst hused
      have hnot := hmore [] next after (by rw [List.nil_append] at hafter ⊢; exact hafter.symm)
      rwa [List.append_nil] at hnot
    · obtain ⟨rfl, _⟩ := List.cons.inj hafter
      exact h before next between hused

/-- Tokens of which none ends a value early may be followed by one that does not either. -/
theorem neverEarly_snoc (h : NeverEarly T used) (ht : ¬ EndsEarly T used t) :
    NeverEarly T (used ++ [t]) := by
  refine neverEarly_append h fun before next after hsplit => ?_
  rcases before with _ | ⟨first, before⟩
  · obtain ⟨rfl, _⟩ := List.cons.inj hsplit
    rwa [List.append_nil]
  · cases before <;> cases hsplit

/-- In parentheses no token ends a value early. -/
theorem not_endsEarly_of_paren (hopened : openBehind [] used = some opened)
    (hparen : .closeParen ∈ opened) : ¬ EndsEarly T used t := by
  rintro ⟨_, outer, _, houter, hlost⟩
  rw [hopened, Option.some.injEq] at houter
  exact hlost.1 (houter ▸ hparen)

/-! ### Passing over arguments -/

/-- What is passed over goes through the parenthesis that closes the outermost; before that one a
parenthesis is open. -/
structure Passes (opened : List Kind) (passed : List Seen) : Prop where
  closed : openBehind opened passed = some []
  inside : ∀ before next after, passed = before ++ next :: after →
    ∃ opened', openBehind opened before = some opened' ∧ .closeParen ∈ opened'

/-- Nothing is passed over where no bracket is open. -/
theorem passes_nil : Passes [] [] where
  closed := rfl
  inside before next after h := by cases before <;> cases h

/-- A token is passed over while a parenthesis is open. -/
theorem Passes.cons {passed : List Seen} {opened' : List Kind} (h : Passes opened' passed)
    (hparen : .closeParen ∈ opened) (hstep : openAfter opened t.1.kind = some opened') :
    Passes opened (t :: passed) where
  closed := by rw [openBehind_cons, hstep, Option.bind_some, h.closed]
  inside before next after hsplit := by
    rcases before with _ | ⟨first, before⟩
    · exact ⟨opened, rfl, hparen⟩
    · obtain ⟨rfl, hpassed⟩ := List.cons.inj hsplit
      obtain ⟨between, hbetween, hmem⟩ := h.inside before next after hpassed
      exact ⟨between, by rw [openBehind_cons, hstep, Option.bind_some, hbetween], hmem⟩

/-- What is passed over ends no value early. -/
theorem Tracks.neverEarly_passed {passed : List Seen} (h : Tracks used closers lost)
    (hclosers : closers = inner ++ .closeParen :: outer) (hbroken : IsBroken t.1)
    (hpasses : Passes (inner ++ [.closeParen]) passed) (hnever : NeverEarly T (used ++ [t])) :
    NeverEarly T (used ++ t :: passed) := by
  rw [List.append_cons]
  refine neverEarly_append hnever fun before next after hsplit => ?_
  obtain ⟨opened', hbefore, hparen⟩ := hpasses.inside before next after hsplit
  have hopened : openBehind [] (used ++ [t] ++ before) = some (opened' ++ (outer ++ lost)) := by
    have hused : openBehind [] used = some ((inner ++ [.closeParen]) ++ (outer ++ lost)) := by
      simpa [hclosers] using h.opened
    rw [List.append_assoc, openBehind_append, hused, Option.bind_some, List.singleton_append,
      openBehind_cons, openAfter_of_isBroken hbroken, Option.bind_some,
      openBehind_append_outer hbefore]
  exact not_endsEarly_of_paren hopened (List.mem_append_left _ hparen)

/-- Parentheses that are open somewhere in the brackets are passed over to the end of the outermost,
whatever is open around it. -/
theorem passArgumentsFrom_passes (rounds : Nat) (hsize : i.size ≤ rounds)
    (hseen : i.seen = w ++ more)
    (hnested : openBehind (inner ++ .closeParen :: outer) w = some []) :
    (passArgumentsFrom rounds (inner.count .closeParen + 1)).Yields i fun _ rest =>
      ∃ passed left, w = passed ++ left ∧ rest.seen = left ++ more ∧
        Passes (inner ++ [.closeParen]) passed := by
  induction rounds generalizing i w inner with
  | zero =>
    -- a bracket is open, so a token is ahead that closes it
    have hnone : i.seen = [] := List.length_eq_zero_iff.1 (by rw [i.length_seen]; omega)
    rw [hnone, eq_comm, List.append_eq_nil_iff] at hseen
    rw [hseen.1] at hnested
    exact absurd (Option.some.inj hnested) (by simp)
  | succ rounds ih =>
    rcases w with _ | ⟨t, w⟩
    · exact absurd (Option.some.inj hnested) (by simp)
    obtain ⟨_, _, hadvance⟩ := Input.view_of_seen hseen
    have hatEnd : i.view.atEnd = false := beq_eq_false_iff_ne.2 (Input.kind_ne_eof_of_seen hseen)
    have hkind : i.view.kind = t.1.kind := Input.kind_of_seen hseen
    obtain ⟨between, hstep, hrest⟩ := openBehind_cons_eq_some_iff.1 hnested
    unfold passArgumentsFrom
    apply Yields.view
    simp only [hatEnd, Nat.succ_ne_zero, decide_false, Bool.or_self, Bool.false_eq_true, if_false]
    apply Yields.skip
    rcases openAfter_append_cases hstep with ⟨inner', hinner, rfl⟩ | ⟨rfl, hcloser, houter⟩
    · -- the outermost parenthesis is still open
      have hcount : parensAfter (inner.count .closeParen + 1) i.view.kind =
          inner'.count .closeParen + 1 := by
        have h := count_closeParen_openAfter (openAfter_append hinner [.closeParen])
        rw [List.count_append, List.count_append, List.count_singleton_self] at h
        rw [hkind, h]
      rw [hcount]
      refine (ih (size_advance_le hsize) hadvance hrest).mono fun _ rest hpasses => ?_
      obtain ⟨passed, left, rfl, hleft, hpassed⟩ := hpasses
      exact ⟨t :: passed, left, rfl, hleft,
        hpassed.cons (by simp) (openAfter_append hinner [.closeParen])⟩
    · -- the token closes it
      obtain ⟨hparen, rfl⟩ := List.cons.inj houter
      have hdepth : parensAfter (([] : List Kind).count .closeParen + 1) i.view.kind = 0 := by
        rw [hkind, ← hparen]
        rfl
      have hcloses : openAfter [.closeParen] t.1.kind = some [] := by
        rw [← hparen]
        rfl
      rw [hdepth]
      have hstops : (passArgumentsFrom rounds 0).read i.advance = ⟨(), i.advance, []⟩ := by
        rcases rounds with _ | rounds
        · rfl
        · unfold passArgumentsFrom
          rw [read_bind, read_view]
          simp only [decide_true, Bool.or_true, if_true]
          rfl
      unfold Production.Yields
      rw [hstops]
      exact ⟨[t], w, rfl, hadvance, passes_nil.cons (by simp) hcloses⟩

/-- A broken token in parentheses is taken with all up to the end of the outermost of these, and no
bracket is kept. -/
theorem takeValueToken_abandons (hclosers : r.builder.closers = inner ++ .closeParen :: outer)
    (houter : .closeParen ∉ outer) (hbroken : IsBroken t.1) (hseen : i.seen = t :: (w ++ more))
    (hnested : openBehind ((inner ++ .closeParen :: outer) ++ lost) w = some []) :
    (takeValueToken r).Yields i fun r' rest => r'.builder.closers = [] ∧ ∃ passed left,
      w = passed ++ left ∧ rest.seen = left ++ more ∧ Passes (inner ++ [.closeParen]) passed := by
  obtain ⟨htoken, _, hadvance⟩ := Input.view_of_seen hseen
  have htrack : Value.Builder.track r.builder.closers i.view.token.kind =
      (r.builder.closers, false) := by
    rw [htoken, track_of_isBroken hbroken]
  have hrefused : (r.builder.feed i.view.token i.view.spacing.isOpen).2 = false :=
    congrArg Prod.snd htrack
  have hparens : (r.builder.feed i.view.token i.view.spacing.isOpen).1.parens =
      inner.count .closeParen + 1 := by
    show (Value.Builder.track r.builder.closers i.view.token.kind).1.count .closeParen = _
    rw [htrack, hclosers, List.count_append, List.count_cons_self, List.count_eq_zero.2 houter]
  unfold takeValueToken
  apply Yields.view
  apply Yields.skip
  simp only [hrefused, hparens, Bool.not_false, Nat.succ_pos, decide_true, Bool.and_self, if_true]
  rw [List.append_assoc, List.cons_append] at hnested
  have hpasses := passArgumentsFrom_passes i.advance.size (Nat.le_refl _) hadvance hnested
  refine .bind (Q := fun _ rest => ∃ passed left, w = passed ++ left ∧ rest.seen = left ++ more ∧
    Passes (inner ++ [.closeParen]) passed) ?_ fun _ rest _ hrest => .pure ⟨rfl, hrest⟩
  exact .view hpasses

/-! ### Where a value stops -/

/-- A value stops behind its tokens, if none of them ends it early, or before one that does. -/
def StopsAt (T : List Kind) (v more : List Seen) (rest : Input) : Prop :=
  (rest.seen = more ∧ NeverEarly T v) ∨ ∃ before next after, v = before ++ next :: after ∧
    EndsEarly T before next ∧ rest.seen = next :: (after ++ more)

/-- Of the tokens of a value some were read, of which none ended it early. -/
structure Midway (T : List Kind) (v more used : List Seen) (lost : List Kind) (r : ValueReading)
    (i : Input) : Prop where
  left : ∃ w, v = used ++ w ∧ i.seen = w ++ more
  tracks : Tracks used r.builder.closers lost
  never : NeverEarly T used

namespace Midway

variable {r' : ValueReading} {i' : Input} {lost' : List Kind}

/-- What was read of a value and what is ahead are its tokens and those that follow it. -/
theorem size_eq (h : Midway T v more used lost r i) :
    i.size + used.length = v.length + more.length := by
  obtain ⟨w, rfl, hseen⟩ := h.left
  rw [← i.length_seen, hseen, List.length_append, List.length_append]
  omega

/-- One token further on. -/
theorem taken (h : Midway T (used ++ t :: w) more used lost r i) (hnot : ¬ EndsEarly T used t)
    (hseen : i'.seen = w ++ more) (htracks : Tracks (used ++ [t]) r'.builder.closers lost') :
    Midway T (used ++ t :: w) more (used ++ [t]) lost' r' i' where
  left := ⟨w, by simp, hseen⟩
  tracks := htracks
  never := neverEarly_snoc h.never hnot

/-- Where a value stops before what follows its tokens, one of them ends it early. -/
theorem stops (h : Midway T v more used lost r i)
    (houter : ∀ seen ∈ outermost [] v, seen.1.kind ∉ T) (hstops : stopsValue T r i.view = true) :
    StopsAt T v more i := by
  obtain ⟨w, rfl, hseen⟩ := h.left
  rcases w with _ | ⟨t, w⟩
  · rw [List.append_nil]
    exact Or.inl ⟨hseen, h.never⟩
  have hahead : i.view.kind ≠ .eof := Input.kind_ne_eof_of_seen hseen
  have hkind : i.view.kind = t.1.kind := Input.kind_of_seen hseen
  have hends := (Bool.or_eq_true_iff.1 hstops).resolve_left fun h => hahead (beq_iff_eq.1 h)
  obtain ⟨hdepth, hterminates⟩ := Bool.and_eq_true_iff.1 hends
  have hclosers : r.builder.closers = [] := List.length_eq_zero_iff.1 (of_decide_eq_true hdepth)
  have hmem : t.1.kind ∈ T := hkind ▸ List.contains_iff_mem.1 hterminates
  refine Or.inr ⟨used, t, w, rfl, h.tracks.endsEarly_iff.2 ⟨hmem, hclosers, ?_⟩, hseen⟩
  rintro rfl
  have hopened := h.tracks.opened
  rw [hclosers] at hopened
  exact houter t (mem_outermost hopened) hmem

/-- Where a value goes on, a token of it is ahead that does not end it early. -/
theorem goes (h : Midway T v more used lost r i) (hnested : openBehind [] v = some [])
    (hmore : EndsHere T more) (hstops : stopsValue T r i.view = false) :
    ∃ t w, v = used ++ t :: w ∧ i.seen = t :: (w ++ more) ∧ ¬ EndsEarly T used t := by
  obtain ⟨w, rfl, hseen⟩ := h.left
  rcases w with _ | ⟨t, w⟩
  · rw [List.append_nil, h.tracks.opened, Option.some.injEq, List.append_eq_nil_iff] at hnested
    rw [List.nil_append] at hseen
    have hends := (stopsValue_iff r i.view hnested.1).2 (endsValue_of_endsHere (hseen ▸ hmore))
    exact absurd (hstops.symm.trans hends) Bool.false_ne_true
  · refine ⟨t, w, rfl, hseen, fun hearly => ?_⟩
    obtain ⟨hmem, hclosers, _⟩ := h.tracks.endsEarly_iff.1 hearly
    have hkind : i.view.kind = t.1.kind := Input.kind_of_seen hseen
    have hends : stopsValue T r i.view = true :=
      (stopsValue_iff r i.view hclosers).2 (Or.inr (hkind ▸ List.contains_iff_mem.2 hmem))
    exact absurd (hstops.symm.trans hends) Bool.false_ne_true

/-- An identifier ahead is a token of the value: it does not end it. -/
theorem ident_of_left (hident : .ident ∉ T) (hmore : EndsHere T more) (hseen : i.seen = w ++ more)
    (hkind : i.view.kind = .ident) : ∃ u w', w = u :: w' ∧ u.1.kind = .ident := by
  rcases w with _ | ⟨u, w'⟩
  · rw [List.nil_append] at hseen
    rcases more with _ | ⟨u, rest⟩
    · rw [Input.seen_eq_nil_iff.1 hseen] at hkind
      cases hkind
    · have hmem : u.1.kind ∈ T := hmore u rfl
      rw [← Input.kind_of_seen hseen, hkind] at hmem
      exact absurd hmem hident
  · exact ⟨u, w', rfl, (Input.kind_of_seen hseen).symm.trans hkind⟩

/-- More tokens of a value were read than these. -/
def Further (T : List Kind) (v more used : List Seen) (r' : ValueReading) (rest : Input) : Prop :=
  ∃ used' lost', used.length < used'.length ∧ Midway T v more used' lost' r' rest

/-- A mark of importance leads further into a value, or to its stop. -/
theorem takeImportance_further (h : Midway T v more used lost r i) (hident : .ident ∉ T)
    (hnested : openBehind [] v = some []) (hmore : EndsHere T more)
    (hstops : stopsValue T r i.view = false) (hmark : startsMark r i.view = true) :
    (takeImportance r).Yields i (Further T v more used) := by
  obtain ⟨t, w, rfl, hseen, hnot⟩ := h.goes hnested hmore hstops
  obtain ⟨htoken, _, hadvance⟩ := Input.view_of_seen hseen
  obtain ⟨hdepth, hbang⟩ := Bool.and_eq_true_iff.1 hmark
  have hclosers : r.builder.closers = [] := List.length_eq_zero_iff.1 (of_decide_eq_true hdepth)
  have hdelim : t.1.kind = .delim := kind_of_isMark (htoken ▸ hbang)
  have hbehind : Tracks (used ++ [t]) r.builder.closers lost :=
    h.tracks.snoc (by rw [hclosers, hdelim]; rfl) fun _ => hclosers ▸ List.not_mem_nil
  have hone : ∀ r' : ValueReading, r'.builder = r.builder →
      Midway T (used ++ t :: w) more (used ++ [t]) lost r' i.advance :=
    fun r' hsame => h.taken hnot hadvance (hsame ▸ hbehind)
  unfold takeImportance
  apply Yields.skip
  apply Yields.view
  split
  · next hword =>
    have hkind : i.advance.view.kind = .ident := kind_of_isWord hword
    obtain ⟨u, w', rfl, hukind⟩ := ident_of_left hident hmore hadvance hkind
    obtain ⟨_, _, hadvance'⟩ := Input.view_of_seen hadvance
    have hnot' : ¬ EndsEarly T (used ++ [t]) u := fun hearly => hident (hukind ▸ hearly.1)
    have htwo : Tracks (used ++ [t] ++ [u]) r.builder.closers lost :=
      hbehind.snoc (by rw [hclosers, hukind]; rfl) fun _ => hclosers ▸ List.not_mem_nil
    apply Yields.skip
    refine .pure ⟨used ++ [t] ++ [u], lost, by simp, ?_⟩
    have hsplit : used ++ t :: u :: w' = (used ++ [t]) ++ u :: w' := by simp
    have hfirst := hone r rfl
    rw [hsplit] at hfirst ⊢
    exact hfirst.taken hnot' hadvance' htwo
  · exact .pure ⟨used ++ [t], lost, by simp, hone _ rfl⟩

/-- A token leads further into a value, or to its stop. -/
theorem takeValueToken_further (h : Midway T v more used lost r i)
    (hnested : openBehind [] v = some []) (hmore : EndsHere T more)
    (hstops : stopsValue T r i.view = false) :
    (takeValueToken r).Yields i (Further T v more used) := by
  obtain ⟨t, w, rfl, hseen, hnot⟩ := h.goes hnested hmore hstops
  obtain ⟨_, _, hadvance⟩ := Input.view_of_seen hseen
  have hkind : i.view.kind = t.1.kind := Input.kind_of_seen hseen
  have hrest := hnested
  rw [openBehind_append, h.tracks.opened, Option.bind_some] at hrest
  obtain ⟨between, hstep, hrest⟩ := openBehind_cons_eq_some_iff.1 hrest
  -- where the token is just taken, what is kept of the brackets decides
  have hjust : ∀ lost', (((Value.Builder.track r.builder.closers t.1.kind).2 = false →
      .closeParen ∉ (Value.Builder.track r.builder.closers t.1.kind).1)) →
      Tracks (used ++ [t]) (Value.Builder.track r.builder.closers t.1.kind).1 lost' →
      (takeValueToken r).Yields i (Further T (used ++ t :: w) more used) := by
    intro lost' hnone htracks
    rw [← hkind] at hnone htracks
    unfold Production.Yields
    rw [read_takeValueToken_of_no_paren r i hnone]
    exact ⟨used ++ [t], lost', by simp, h.taken hnot hadvance htracks⟩
  rcases openAfter_append_cases hstep with ⟨closers', hcloses, rfl⟩ | ⟨hclosers, hcloser, rfl⟩
  · by_cases hbroken : IsBroken t.1
    · obtain rfl : closers' = r.builder.closers :=
        Option.some.inj (hcloses.symm.trans (openAfter_of_isBroken hbroken _))
      have htrack := track_of_isBroken hbroken r.builder.closers
      by_cases hparen : .closeParen ∈ r.builder.closers
      · obtain ⟨inner, outer, hclosers, houter⟩ := exists_last_paren hparen
        rw [hclosers] at hrest
        refine (takeValueToken_abandons hclosers houter hbroken hseen hrest).mono ?_
        rintro r' rest ⟨hnone, passed, left, rfl, hleft, hpasses⟩
        refine ⟨used ++ t :: passed, outer ++ lost, by simp, ⟨left, by simp, hleft⟩, ?_, ?_⟩
        · rw [hnone]
          exact (hclosers ▸ h.tracks).abandon houter hbroken hpasses.closed
        · exact h.tracks.neverEarly_passed hclosers hbroken hpasses (neverEarly_snoc h.never hnot)
      · refine hjust lost (fun _ => by rwa [htrack]) ?_
        rw [htrack]
        exact h.tracks.snoc hcloses fun _ => hparen
    · have htrack : Value.Builder.track r.builder.closers t.1.kind = (closers', true) :=
        track_eq_iff.2 ⟨not_or.1 hbroken, hcloses⟩
      refine hjust lost (fun hrefused => ?_) ?_
      · rw [htrack] at hrefused
        cases hrefused
      · rw [htrack]
        exact h.tracks.snoc hcloses fun hbad => absurd hbad hbroken
  · have htrack : (Value.Builder.track r.builder.closers t.1.kind).1 = [] := by
      rw [hclosers]
      cases hk : t.1.kind <;> first | rfl | (rw [hk] at hcloser; cases hcloser)
    have htracks := h.tracks
    rw [hclosers] at htracks
    refine hjust between (fun _ => ?_) ?_
    · rw [htrack]
      exact List.not_mem_nil
    · rw [htrack]
      exact htracks.close hcloser

end Midway

/-- A value is read on to where it stops. -/
theorem valueFrom_stopsAt (hident : .ident ∉ T) (hnested : openBehind [] v = some [])
    (houter : ∀ seen ∈ outermost [] v, seen.1.kind ∉ T) (hmore : EndsHere T more) (rounds : Nat)
    (hsize : i.size ≤ rounds) (h : Midway T v more used lost r i) :
    (valueFrom T rounds r).Yields i fun _ rest => StopsAt T v more rest := by
  induction rounds generalizing i r used lost with
  | zero =>
    have hahead : i.ahead = [] := i.size_eq_zero_iff.1 (Nat.le_zero.1 hsize)
    exact h.stops houter (stopsValue_of_eof (i.kind_view_eq_eof_iff.2 hahead))
  | succ rounds ih =>
    rcases hstops : stopsValue T r i.view
    swap
    · unfold Production.Yields
      rw [read_valueFrom_stops _ hstops]
      exact h.stops houter hstops
    have hnext : ∀ (r' : ValueReading) (rest : Input), Midway.Further T v more used r' rest →
        (valueFrom T rounds r').Yields rest fun _ rest => StopsAt T v more rest := by
      rintro r' rest ⟨used', lost', hlonger, h'⟩
      have hbefore := h.size_eq
      have hbehind := h'.size_eq
      exact ih (by omega) h'
    unfold valueFrom
    apply Yields.view
    have hgoes := hstops
    unfold stopsValue at hgoes
    simp only [hgoes, Bool.false_eq_true, if_false]
    split
    · next hmark =>
      exact (h.takeImportance_further hident hnested hmore hstops hmark).bind
        fun r' rest _ hfurther => hnext r' rest hfurther
    · exact (h.takeValueToken_further hnested hmore hstops).bind
        fun r' rest _ hfurther => hnext r' rest hfurther

/-- A value stops behind tokens that nest, unless one of them ends it early. -/
theorem value_stopsAt (hident : .ident ∉ T) (hseen : i.seen = v ++ more)
    (hnested : openBehind [] v = some []) (houter : ∀ seen ∈ outermost [] v, seen.1.kind ∉ T)
    (hmore : EndsHere T more) : (value T).Yields i fun _ rest => StopsAt T v more rest := by
  apply Yields.enclosed
  apply Yields.view
  have hstart : Midway T v more [] [] .start i := ⟨⟨v, rfl, hseen⟩, .start, neverEarly_nil⟩
  exact (valueFrom_stopsAt hident hnested houter hmore i.size (Nat.le_refl _) hstart).bind
    fun _ _ _ hstop => .pure hstop

end Grammar

/-- Wherever a parser stands, and whatever kinds end the value, but for identifiers: before tokens
that nest, of which none outside of brackets is of such a kind, and then one that is or nothing, a
value stops behind these tokens just if none of them ends it early, in brackets that it lost. -/
theorem value_stops_at_end_iff (T : List Kind) (hident : .ident ∉ T) (s : Parser)
    (v more : List Seen) (hrest : s.rest = v ++ more) (hnested : openBehind [] v = some [])
    (houter : ∀ seen ∈ outermost [] v, seen.1.kind ∉ T) (hmore : EndsHere T more) :
    ((value T).run s).2.rest = more ↔ NeverEarly T v := by
  have hstops := (value_stopsAt (i := s.input) hident hrest hnested houter hmore).run
  constructor
  · intro hend
    rcases hstops with ⟨_, hnever⟩ | ⟨before, next, after, _, _, hearly⟩
    · exact hnever
    · -- it stopped before more tokens than follow
      have hlength : more.length = (next :: (after ++ more)).length :=
        congrArg List.length (hend.symm.trans hearly)
      rw [List.length_cons, List.length_append] at hlength
      omega
  · intro hnever
    rcases hstops with ⟨hend, _⟩ | ⟨before, next, after, hsplit, hearly, _⟩
    · exact hend
    · exact absurd hearly (hnever before next after hsplit)

/-- A spoiled address in parentheses in a brace: the value ends at the semicolon in the brace, which
it lost, and not at the one behind it. -/
theorem value_stops_at_end_iff_of_lost_brace :
    let source := "width: \x7b(url(a b)); color: red\x7d; height: 1px"
    let s := (Parser.ofTokens (tokenize source none) .strict).advanceBy 2
    let v := s.rest.take 9
    let more := s.rest.drop 9
    let rest := ((value declarationEnd).run s).2.rest
    more.map (·.1.text) = [";", "height", ":", "1px"] ∧
      rest = v.drop 4 ++ more ∧ ¬ NeverEarly declarationEnd v := by
  intro source s v more rest
  have hrest : rest = v.drop 4 ++ more := by decide +kernel
  refine ⟨by decide +kernel, hrest, fun hnever => ?_⟩
  have hend : rest = more := (value_stops_at_end_iff declarationEnd (by decide) s v more
    (List.take_append_drop 9 _).symm (by decide +kernel) (by decide +kernel)
    (by decide +kernel)).2 hnever
  have hlonger : more.length < rest.length := by
    rw [hrest]
    decide +kernel
  rw [hend] at hlonger
  exact Nat.lt_irrefl _ hlonger

end Cssom

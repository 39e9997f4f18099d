import Cssom.Proofs.Reading.Outcome

/-!
# Reading an input that is cut short

An input is cut short when it lacks some of the last lexemes of another. As long as reading the
whole one stops before the cut, reading the short one does the same; and where the one reaches the
cut or goes beyond, the other is at its end (`Outcome.Follows`). Productions that read two such
inputs so *follow* each other. The relation is put together where productions are; a loop may be
given fewer rounds on the short input, as long as there are as many as tokens
(`Production.Follows.rounds`).
-/

namespace Cssom

/-- The second input is the first one cut short before some lexemes, as far as significant tokens
and what stands before them are concerned. -/
def Input.CutAt (cut : List Lexeme) (whole short : Input) : Prop :=
  whole.ahead = short.ahead ++ cut

/-- Reading an input that is cut short comes to the same as reading the whole one while that stops
before the cut, and to the end of the input otherwise. -/
structure Outcome.Follows {α : Type} (cut : List Lexeme) (whole short : Outcome α) : Prop where
  within : cut.length < whole.rest.size →
    short.result = whole.result ∧ whole.rest.CutAt cut short.rest
  beyond : whole.rest.size ≤ cut.length → short.rest.ahead = []

/-- Two productions read any two inputs of no more than so many tokens, of which one is the other
cut short, one as the other does. -/
def Production.Follows {α : Type} (cut : List Lexeme) (m n : Nat) (p q : Production α) : Prop :=
  ∀ i j : Input, i.CutAt cut j → i.size ≤ m → j.size ≤ n → (p.read i).Follows cut (q.read j)

/-- What comes next does not change the kind under the cursor. -/
theorem View.kind_with (v : View) (next : Token) (size : Nat) :
    View.kind { v with next := next, size := size } = v.kind := rfl

/-- What comes next does not change whether the end is there. -/
theorem View.atEnd_with (v : View) (next : Token) (size : Nat) :
    View.atEnd { v with next := next, size := size } = v.atEnd := rfl

variable {cut : List Lexeme}

namespace Input.CutAt

variable {i j : Input}

/-- The whole input has as many tokens more as the cut. -/
theorem size_eq (h : i.CutAt cut j) : i.size = j.size + cut.length := by
  rw [i.size_eq, j.size_eq, show i.ahead = j.ahead ++ cut from h, List.length_append]

/-- The whole input is at the cut or beyond it just if the short one is at its end. -/
theorem size_le_iff (h : i.CutAt cut j) : i.size ≤ cut.length ↔ j.ahead = [] := by
  rw [h.size_eq, ← j.size_eq_zero_iff]
  omega

/-- The whole input is before the cut just if the short one has tokens. -/
theorem lt_size_iff (h : i.CutAt cut j) : cut.length < i.size ↔ j.ahead ≠ [] := by
  rw [ne_eq, ← h.size_le_iff, Nat.not_le]

/-- Before the cut, both inputs have the same token under the cursor, with the same spacing. -/
theorem view_eq (h : i.CutAt cut j) (hj : j.ahead ≠ []) :
    j.view = { i.view with next := j.next, size := j.size } := by
  obtain ⟨lexeme, rest, hrest⟩ := List.exists_cons_of_ne_nil hj
  have hi : i.ahead = lexeme :: (rest ++ cut) := by
    rw [show i.ahead = j.ahead ++ cut from h, hrest, List.cons_append]
  simp only [view, current, spacing, hi, hrest]

/-- Before the cut the same kind is under both cursors. -/
theorem kind_eq (h : i.CutAt cut j) (hj : j.ahead ≠ []) : j.view.kind = i.view.kind := by
  rw [h.view_eq hj]
  rfl

/-- Before the cut both inputs may be moved on. -/
theorem advance (h : i.CutAt cut j) (hj : j.ahead ≠ []) : i.advance.CutAt cut j.advance := by
  unfold CutAt
  rw [ahead_advance, ahead_advance, show i.ahead = j.ahead ++ cut from h,
    List.tail_append_of_ne_nil hj]

end Input.CutAt

namespace Production

variable {α β : Type} {i j : Input}

/-- What is at the end of its input stays there. -/
theorem ahead_read_of_nil (p : Production α) (h : j.ahead = []) : (p.read j).rest.ahead = [] :=
  List.eq_nil_of_suffix_nil (h ▸ (p.read_reaches j).suffix)

/-- At the cut the short input is at its end. -/
theorem follows_at_cut (p q : Production α) (hcut : i.CutAt cut j) (hj : j.ahead = []) :
    (p.read i).Follows cut (q.read j) where
  within hlt := by
    have hsize := hcut.size_le_iff.2 hj
    have hle := p.size_read_le i
    omega
  beyond _ := q.ahead_read_of_nil hj

/-- When one token is left before the cut, productions follow each other that both take it. -/
theorem follows_of_last {p q : Production α} (hlast : i.size ≤ cut.length + 1)
    (hp : (p.read i).rest.size < i.size) (hq : (q.read j).rest.ahead = []) :
    (p.read i).Follows cut (q.read j) where
  within hlt := by omega
  beyond _ := hq

end Production

namespace Outcome.Follows

open Production

variable {α β : Type} {i j : Input} {p q : Production α}

/-- What comes next follows, if it does before the cut. -/
theorem bind {f g : α → Production β} (hp : (p.read i).Follows cut (q.read j))
    (hf : (p.read i).rest.CutAt cut (q.read j).rest → cut.length < (p.read i).rest.size →
      ((f (p.read i).result).read (p.read i).rest).Follows cut
        ((g (p.read i).result).read (q.read j).rest)) :
    ((p >>= f).read i).Follows cut ((q >>= g).read j) := by
  rw [read_bind, read_bind]
  rcases Nat.lt_or_ge cut.length (p.read i).rest.size with hlt | hge
  · obtain ⟨hresult, hrest⟩ := hp.within hlt
    have hnext := hf hrest hlt
    rw [hresult]
    exact ⟨hnext.within, hnext.beyond⟩
  · have hend := hp.beyond hge
    refine ⟨fun hlt => ?_, fun _ => ahead_read_of_nil _ hend⟩
    have hle := (f (p.read i).result).size_read_le (p.read i).rest
    exact absurd (Nat.lt_of_lt_of_le hlt hle) (Nat.not_lt_of_le hge)

end Outcome.Follows

namespace Production.Follows

variable {α β : Type} {m n : Nat} {p q p' q' : Production α}

/-- It is enough to look at inputs before the cut. -/
theorem of_before (h : ∀ i j : Input, i.CutAt cut j → j.ahead ≠ [] → i.size ≤ m → j.size ≤ n →
    (p.read i).Follows cut (q.read j)) : Follows cut m n p q := by
  intro i j hcut hi hj
  by_cases hend : j.ahead = []
  · exact follows_at_cut p q hcut hend
  · exact h i j hcut hend hi hj

/-- What follows on some tokens follows on fewer. -/
theorem mono {m' n' : Nat} (h : Follows cut m n p q) (hm : m' ≤ m) (hn : n' ≤ n) :
    Follows cut m' n' p q :=
  fun i j hcut hi hj => h i j hcut (Nat.le_trans hi hm) (Nat.le_trans hj hn)

/-- To give a result follows itself. -/
theorem pure (a : α) : Follows cut m n (Pure.pure a) (Pure.pure a) :=
  of_before fun _ _ hcut hj _ _ =>
    ⟨fun _ => ⟨rfl, hcut⟩, fun hge => absurd (hcut.size_le_iff.1 hge) hj⟩

/-- Steps that follow, one after the other, follow. -/
theorem bind {f g : α → Production β} (hp : Follows cut m n p q)
    (hf : ∀ a, Follows cut m n (f a) (g a)) : Follows cut m n (p >>= f) (q >>= g) := by
  intro i j hcut hi hj
  refine (hp i j hcut hi hj).bind fun hrest _ => ?_
  exact hf _ _ _ hrest (Nat.le_trans (p.size_read_le i) hi) (Nat.le_trans (q.size_read_le j) hj)

/-- A choice follows if both ways do. -/
theorem ite {c : Prop} [Decidable c] (hp : Follows cut m n p q) (hp' : Follows cut m n p' q') :
    Follows cut m n (if c then p else p') (if c then q else q') := by
  split
  · exact hp
  · exact hp'

/-- Before the cut both productions see the same token with the same spacing. What they see next may
differ, and so may how many tokens there are. -/
theorem seeing {f g : View → Production α}
    (h : ∀ i j : Input, i.CutAt cut j → j.ahead ≠ [] → i.size ≤ m → j.size ≤ n →
      ((f i.view).read i).Follows cut
        ((g { i.view with next := j.next, size := j.size }).read j)) :
    Follows cut m n (Production.view >>= f) (Production.view >>= g) := by
  refine of_before fun i j hcut hend hi hj => ?_
  have hnext := h i j hcut hend hi hj
  rw [← hcut.view_eq hend] at hnext
  exact ⟨hnext.within, hnext.beyond⟩

/-- The tokens that are counted are all that is left. -/
theorem sized {f g : View → Production α}
    (h : ∀ v next size, v.size ≤ m → size ≤ n →
      Follows cut v.size size (f v) (g { v with next := next, size := size })) :
    Follows cut m n (Production.view >>= f) (Production.view >>= g) :=
  seeing fun i j hcut _ hi hj =>
    h i.view j.next j.size hi hj i j hcut (Nat.le_refl _) (Nat.le_refl _)

/-- To look follows if what is done then does, whatever the short input shows behind the cursor. -/
theorem view {f g : View → Production α}
    (h : ∀ v next size, Follows cut m n (f v) (g { v with next := next, size := size })) :
    Follows cut m n (Production.view >>= f) (Production.view >>= g) :=
  sized fun v next size hm hn => (h v next size).mono hm hn

/-- To look at the kind follows if what is done then does. -/
theorem kind {f g : Token.Kind → Production α} (h : ∀ k, Follows cut m n (f k) (g k)) :
    Follows cut m n (Production.kind >>= f) (Production.kind >>= g) :=
  view (f := fun v => f v.kind) (g := fun v => g v.kind) fun v _ _ => h v.kind

/-- After a token one token less is left. -/
theorem skip {f g : Unit → Production α} (h : Follows cut (m - 1) (n - 1) (f ()) (g ())) :
    Follows cut m n (Production.skip >>= f) (Production.skip >>= g) := by
  refine of_before fun i j hcut hend hi hj => ?_
  have hnext := h i.advance j.advance (hcut.advance hend) (Nat.sub_le_sub_right hi 1)
    (Nat.sub_le_sub_right hj 1)
  exact ⟨hnext.within, hnext.beyond⟩

/-- To take a token follows if what is done then does, on one token fewer. -/
theorem take {f g : Token → Production α}
    (h : ∀ token, Follows cut (m - 1) (n - 1) (f token) (g token)) :
    Follows cut m n (Production.take >>= f) (Production.take >>= g) :=
  view (f := fun v => Production.skip >>= fun _ => f v.token)
    (g := fun v => Production.skip >>= fun _ => g v.token) fun v _ _ => skip (h v.token)

/-- To report at a place follows itself. -/
theorem complainAt (cause : Cause) (position : Position) :
    Follows cut m n (Production.complainAt cause position) (Production.complainAt cause position) :=
  fun i j hcut hi hj => ⟨(pure () i j hcut hi hj).within, (pure () i j hcut hi hj).beyond⟩

/-- To report at the cursor follows itself. -/
theorem complain (cause : Cause) :
    Follows cut m n (Production.complain cause) (Production.complain cause) :=
  fun i j hcut hi hj => ⟨(pure () i j hcut hi hj).within, (pure () i j hcut hi hj).beyond⟩

/-- To report what is under the cursor follows itself. -/
theorem complainOf (cause : String → Cause) :
    Follows cut m n (Production.complainOf cause) (Production.complainOf cause) :=
  fun i j hcut hi hj => ⟨(pure () i j hcut hi hj).within, (pure () i j hcut hi hj).beyond⟩

/-- What is done to a result does not change whether it follows. -/
theorem map (h : Follows cut m n p q) (f : α → β) : Follows cut m n (f <$> p) (f <$> q) :=
  bind h fun _ => pure _

/-- To take something of a token follows itself. -/
theorem taken (f : Token → α) :
    Follows cut m n (f <$> Production.take) (f <$> Production.take) :=
  take fun token => pure (f token)

/-- To move on over a kind follows itself. -/
theorem skipIf (k : Token.Kind) :
    Follows cut m n (Production.skipIf k) (Production.skipIf k) :=
  view (f := fun v => if v.kind = k then Production.skip else Pure.pure ())
    (g := fun v => if v.kind = k then Production.skip else Pure.pure ())
    fun _ _ _ => ite (skip (pure ())) (pure ())

/-- The guard of a loop follows itself. -/
theorem passIfStuck (before : UInt32) :
    Follows cut m n (Production.passIfStuck before) (Production.passIfStuck before) := by
  let guard (v : View) : Production Unit :=
    if !v.atEnd && v.offset == before then Production.complainOf .invalidToken >>= fun _ =>
      Production.skip else Pure.pure ()
  exact view (f := guard) (g := guard) fun _ _ _ =>
    ite (bind (complainOf _) fun _ => skip (pure ())) (pure ())

/-- What follows does so in a frame of the syntax tree. -/
theorem enclosed {body body' : Production β} (h : Follows cut m n body body')
    (entity : β → Option Entity) :
    Follows cut m n (Production.enclosed body entity Pure.pure)
      (Production.enclosed body' entity Pure.pure) := by
  intro i j hcut hi hj
  rw [read_enclosed, read_enclosed]
  exact h i j hcut hi hj

/-- What may fail and follows does so in a frame of the syntax tree. -/
theorem inFrame {body body' : Production (Option α)} (h : Follows cut m n body body')
    (entity : α → Entity) :
    Follows cut m n (Production.inFrame entity body) (Production.inFrame entity body') :=
  h.enclosed _

/-- What follows a part that took a token has one token less. -/
theorem after_part {f g : α → Production β} {i j : Input} (hp : Follows cut m n p q)
    (hcut : i.CutAt cut j) (hi : i.size ≤ m) (hj : j.size ≤ n)
    (hpart : (p.read i).rest.size < i.size)
    (hf : ∀ a, Follows cut (m - 1) (n - 1) (f a) (g a)) :
    ((p >>= f).read i).Follows cut ((q >>= g).read j) := by
  refine (hp i j hcut hi hj).bind fun hrest _ => hf _ _ _ hrest (by omega) ?_
  have hbefore := hcut.size_eq
  have hafter := hrest.size_eq
  omega

/-- Two loops of which each is given as many rounds as it has tokens. -/
theorem loops {f g : Nat → β → Production α} {m n : Nat}
    (step : ∀ k l, k < m → l < n → (∀ acc, Follows cut k l (f k acc) (g l acc)) →
      ∀ acc, Follows cut (k + 1) (l + 1) (f (k + 1) acc) (g (l + 1) acc)) (acc : β) :
    Follows cut m n (f m acc) (g n acc) := by
  have hnone {j : Input} (h : j.size ≤ 0) : j.ahead = [] :=
    j.size_eq_zero_iff.1 (Nat.le_zero.1 h)
  induction m generalizing n acc with
  | zero =>
    refine of_before fun i j hcut hend hi _ => absurd ?_ hend
    have hsize := hcut.size_eq
    exact hnone (by omega)
  | succ m ih =>
    cases n with
    | zero => exact of_before fun i j _ hend _ hj => absurd (hnone hj) hend
    | succ n =>
      refine step m n (Nat.lt_succ_self m) (Nat.lt_succ_self n) (fun acc => ih ?_ acc) acc
      exact fun k l hk hl => step k l (Nat.lt_succ_of_lt hk) (Nat.lt_succ_of_lt hl)

/-- A loop that is given as many rounds as tokens follows itself, if it does with a round more
wherever it does without. -/
theorem rounds {f : Nat → β → Production α}
    (step : ∀ k l, (∀ acc, Follows cut k l (f k acc) (f l acc)) →
      ∀ acc, Follows cut (k + 1) (l + 1) (f (k + 1) acc) (f (l + 1) acc)) (acc : β) :
    Follows cut m n (f m acc) (f n acc) :=
  loops (fun k l _ _ => step k l) acc

end Production.Follows

end Cssom

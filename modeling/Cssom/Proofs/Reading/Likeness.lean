import Mathlib.Data.List.Forall2
import Cssom.Proofs.Reading.Erasure
import Cssom.Proofs.Reading.Outcome

/-!
# Two readings side by side

Two inputs that hold tokens of the same kinds and texts are read alike, whatever else they differ
in, as long as reading does not look at that. A *likeness* says what may differ: where the tokens
stand, what is compared of properties and of tokens that are kept, and whether the second reading
leaves out that names are not known. Productions are *alike* when on all such inputs they give
related results, leave such inputs and report the same; the relation is put together where
productions are. The guard of a loop does look at places, and asks of two tokens only whether they
start at the same byte (`Likeness.meets`).
-/

namespace Cssom

/-- Whether the cause is that the name of a declaration is not known. -/
def Cause.isUnknownName : Cause → Bool
  | unknownDeclarationName _ => true
  | _ => false

/-- What two readings may differ in. -/
structure Likeness where
  /-- What the tokens of the two may cover. -/
  span : Span → Span → Prop
  /-- Where the two may report something. -/
  position : Position → Position → Prop
  /-- At which bytes the significant tokens of the two may start. -/
  offset : UInt32 → UInt32 → Prop
  /-- What is compared of a property. -/
  property : Property → Property
  /-- What is compared of a token that was kept. -/
  token : Token → Token
  /-- Whether the second reading leaves out that names are not known. -/
  quiet : Bool
  position_start : ∀ {a b : Span}, span a b → position a.start b.start
  meets : ∀ {a b a' b' : UInt32}, offset a b → offset a' b' → (a = a' ↔ b = b')
  token_eq : ∀ (kind : Token.Kind) (text : String) {a b : Span}, span a b →
    token ⟨kind, text, a⟩ = token ⟨kind, text, b⟩
  name_property : ∀ p, (property p).name = p.name
  assign_property : ∀ p value important,
    property (p.assign value important) = (property p).assign value important

namespace Likeness

variable (L : Likeness)

/-- Whether the second reading leaves a cause out. -/
def leavesOut (cause : Cause) : Bool :=
  cause.isUnknownName && L.quiet

/-- A second reading that is not quiet leaves nothing out. -/
theorem leavesOut_of_not_quiet {L : Likeness} (h : L.quiet = false) (cause : Cause) :
    L.leavesOut cause = false := by
  rw [leavesOut, h, Bool.and_false]

/-- Lexemes of the same token, with the same spacing before it. -/
structure Lexemes (a b : Lexeme) : Prop where
  kind : a.token.kind = b.token.kind
  text : a.token.text = b.token.text
  span : L.span a.token.span b.token.span
  offset : L.offset a.token.span.start.offset b.token.span.start.offset
  spacing : a.spacing = b.spacing

/-- Inputs of the same lexemes. -/
structure Inputs (i j : Input) : Prop where
  ahead : List.Forall₂ L.Lexemes i.ahead j.ahead
  trailing : Spacing.ofTrivia i.trailing = .ofTrivia j.trailing
  text : i.eof.text = j.eof.text
  span : L.span i.eof.span j.eof.span

/-- Reports of the same causes, without those that the second reading leaves out. -/
def Reports (ds es : List Diagnostic) : Prop :=
  List.Forall₂ (fun d e => d.cause = e.cause ∧ L.position d.position e.position)
    (ds.filter fun d => !L.leavesOut d.cause) es

/-- What is seen by a second reading in place of `v`: the token under the cursor covers `place`, and
`next` comes after it. -/
structure Sees (v : View) (place : Span) (next : Token) : Prop where
  span : L.span v.token.span place
  offset : v.atEnd = false → L.offset v.offset place.start.offset
  next : next.kind = v.next.kind

end Likeness

namespace Likeness.Sees

variable {L : Likeness} {v : View} {place : Span} {next : Token}

/-- The tokens under both cursors stand at alike positions. -/
theorem position (h : L.Sees v place next) : L.position v.position place.start :=
  L.position_start h.span

/-- Where a token is under the cursor the bytes that both start at are alike. -/
theorem offset_of_kind (h : L.Sees v place next) (hkind : v.kind ≠ .eof) :
    L.offset v.offset place.start.offset :=
  h.offset (beq_false_of_ne hkind)

end Likeness.Sees

/-- The view with the token under the cursor elsewhere, and with another token after it. -/
def View.elsewhere (v : View) (place : Span) (next : Token) : View :=
  { v with token := { v.token with span := place }, next := next }

/-- A token is of the same kind elsewhere. -/
theorem View.kind_elsewhere (v : View) (place : Span) (next : Token) :
    (v.elsewhere place next).kind = v.kind := rfl

/-- Two outcomes are alike: the results are related, the same is left and the same reported. -/
structure Outcome.Alike {α β : Type} (L : Likeness) (R : α → β → Prop) (o : Outcome α)
    (o' : Outcome β) : Prop where
  result : R o.result o'.result
  rest : L.Inputs o.rest o'.rest
  reports : L.Reports o.reports o'.reports

/-- Two productions read alike whatever inputs are alike. -/
def Production.Alike {α β : Type} (L : Likeness) (R : α → β → Prop) (p : Production α)
    (q : Production β) : Prop :=
  ∀ i j, L.Inputs i j → (p.read i).Alike L R (q.read j)

namespace Likeness.Inputs

variable {L : Likeness} {i j : Input}

/-- Both inputs are at their end, or the same token is under the cursor of both. -/
theorem at_cursor (h : L.Inputs i j) : i.ahead = [] ∧ j.ahead = [] ∨
    ∃ a b is js, i.ahead = a :: is ∧ j.ahead = b :: js ∧ L.Lexemes a b ∧
      List.Forall₂ L.Lexemes is js := by
  have hahead := h.ahead
  rcases hi : i.ahead with _ | ⟨a, is⟩
  · rw [hi, List.forall₂_nil_left_iff] at hahead
    exact .inl ⟨rfl, hahead⟩
  · rw [hi, List.forall₂_cons_left_iff] at hahead
    obtain ⟨b, js, hlexeme, hrest, hj⟩ := hahead
    exact .inr ⟨a, b, is, js, rfl, hj, hlexeme, hrest⟩

/-- Inputs that are alike are alike when both are moved on. -/
theorem advance (h : L.Inputs i j) : L.Inputs i.advance j.advance where
  ahead := by
    rw [Input.ahead_advance, Input.ahead_advance]
    rcases h.at_cursor with ⟨hi, hj⟩ | ⟨_, _, _, _, hi, hj, _, hrest⟩
    · rw [hi, hj]
      exact .nil
    · rw [hi, hj]
      exact hrest
  trailing := by
    change Spacing.ofTrivia i.trailingAfter = .ofTrivia j.trailingAfter
    unfold Input.trailingAfter
    rcases h.at_cursor with ⟨hi, hj⟩ | ⟨_, _, _, _, hi, hj, _, _⟩
    · rw [hi, hj]
      rfl
    · rw [hi, hj]
      exact h.trailing
  text := h.text
  span := h.span

/-- The tokens that come next are of the same kind. -/
theorem kind_next (h : L.Inputs i j) : j.next.kind = i.next.kind := by
  have heof := j.eof_kind.trans i.eof_kind.symm
  unfold Input.next
  rcases h.at_cursor with ⟨hi, hj⟩ | ⟨_, _, is, js, hi, hj, _, hrest⟩
  · rw [hi, hj]
    exact heof
  · rw [hi, hj]
    cases hrest with
    | nil => exact heof
    | cons hlexeme _ => exact hlexeme.kind.symm

/-- The same spacing is before the tokens under both cursors. -/
theorem spacing_eq (h : L.Inputs i j) : j.spacing = i.spacing := by
  unfold Input.spacing
  rcases h.at_cursor with ⟨hi, hj⟩ | ⟨_, _, _, _, hi, hj, hlexeme, _⟩
  · rw [hi, hj]
    exact h.trailing.symm
  · rw [hi, hj]
    exact hlexeme.spacing.symm

/-- The tokens under both cursors are the same, but for their places. -/
theorem current_eq (h : L.Inputs i j) : j.current = { i.current with span := j.current.span } := by
  have hsame : j.current.kind = i.current.kind ∧ j.current.text = i.current.text := by
    unfold Input.current
    rcases h.at_cursor with ⟨hi, hj⟩ | ⟨_, _, _, _, hi, hj, hlexeme, _⟩
    · rw [hi, hj]
      exact ⟨j.eof_kind.trans i.eof_kind.symm, h.text.symm⟩
    · rw [hi, hj]
      exact ⟨hlexeme.kind.symm, hlexeme.text.symm⟩
  change j.current = ⟨i.current.kind, i.current.text, j.current.span⟩
  rw [← hsame.1, ← hsame.2]

/-- Of inputs that are alike the same is seen, at places that are alike. -/
theorem view_eq (h : L.Inputs i j) : j.view = i.view.elsewhere j.current.span j.next := by
  have hsize : j.size = i.size := by rw [i.size_eq, j.size_eq, h.ahead.length_eq]
  have hview : j.view = ⟨j.current, j.spacing, j.next, j.size⟩ := rfl
  rw [hview, h.spacing_eq, hsize]
  exact congrArg (View.mk · _ _ _) h.current_eq

/-- What is seen of the one input is seen of the other, elsewhere. -/
theorem sees (h : L.Inputs i j) : L.Sees i.view j.current.span j.next := by
  have hspan : L.span i.current.span j.current.span := by
    unfold Input.current
    rcases h.at_cursor with ⟨hi, hj⟩ | ⟨_, _, _, _, hi, hj, hlexeme, _⟩
    · rw [hi, hj]
      exact h.span
    · rw [hi, hj]
      exact hlexeme.span
  have hoffset : i.view.atEnd = false →
      L.offset i.current.span.start.offset j.current.span.start.offset := by
    unfold Input.view View.atEnd Input.current
    rcases h.at_cursor with ⟨hi, hj⟩ | ⟨_, _, _, _, hi, hj, hlexeme, _⟩
    · rw [hi]
      exact fun hend => absurd i.eof_kind (ne_of_beq_false hend)
    · rw [hi, hj]
      exact fun _ => hlexeme.offset
  exact ⟨hspan, hoffset, h.kind_next⟩

end Likeness.Inputs

namespace Likeness.Reports

variable {L : Likeness} {ds es ds' es' : List Diagnostic}

/-- Reports that are alike may be put together. -/
theorem append (h : L.Reports ds es) (h' : L.Reports ds' es') :
    L.Reports (ds ++ ds') (es ++ es') := by
  rw [Reports, List.filter_append]
  exact List.rel_append h h'

/-- Reports of one cause at alike positions are alike, if it is not left out. -/
theorem single {d e : Diagnostic} (hkept : L.leavesOut d.cause = false)
    (hcause : d.cause = e.cause) (hposition : L.position d.position e.position) :
    L.Reports [d] [e] := by
  rw [Reports, List.filter_cons, hkept]
  exact .cons ⟨hcause, hposition⟩ .nil

/-- The causes that the second reading does not leave out are the same, in the same order. -/
theorem map_cause (h : L.Reports ds es) :
    (ds.filter fun d => !L.leavesOut d.cause).map Diagnostic.cause = es.map Diagnostic.cause := by
  have hcauses := h.imp fun _ _ hd => hd.1
  rwa [← List.forall₂_map_right_iff (f := Diagnostic.cause),
    ← List.forall₂_map_left_iff (f := Diagnostic.cause), List.forall₂_eq_eq_eq] at hcauses

end Likeness.Reports

/-! ### Steps -/

namespace Production.Alike

variable {L : Likeness} {α β α' β' : Type} {R : α → α' → Prop} {S : β → β' → Prop}
  {p : Production α} {q : Production α'}

/-- Results that are related are given alike. -/
theorem pure {a : α} {a' : α'} (h : R a a') :
    Alike L R (Pure.pure a : Production α) (Pure.pure a' : Production α') :=
  fun _ _ hij => ⟨h, hij, .nil⟩

/-- Steps that are alike, one after the other, are alike. -/
theorem bind {f : α → Production β} {g : α' → Production β'} (hp : Alike L R p q)
    (hf : ∀ a a', R a a' → Alike L S (f a) (g a')) : Alike L S (p >>= f) (q >>= g) := by
  intro i j hij
  have hfirst := hp i j hij
  have hsecond := hf _ _ hfirst.result _ _ hfirst.rest
  rw [read_bind, read_bind]
  exact ⟨hsecond.result, hsecond.rest, hfirst.reports.append hsecond.reports⟩

/-- After results that are equal. -/
theorem bindEq {q : Production α} {f : α → Production β} {g : α → Production β'}
    (hp : Alike L Eq p q) (hf : ∀ a, Alike L S (f a) (g a)) :
    Alike L S (p >>= f) (q >>= g) :=
  hp.bind fun a _ h => h ▸ hf a

/-- What is done to related results keeps productions alike. -/
theorem map {f : α → β} {g : α' → β'} (hp : Alike L R p q)
    (hf : ∀ a a', R a a' → S (f a) (g a')) : Alike L S (f <$> p) (g <$> q) :=
  hp.bind fun a a' h => pure (hf a a' h)

/-- Choices by the same condition are alike if both ways are. -/
theorem ite {c c' : Prop} [Decidable c] [Decidable c'] {p' : Production α} {q' : Production α'}
    (hc : c ↔ c') (hp : Alike L R p q) (hp' : Alike L R p' q') :
    Alike L R (if c then p else p') (if c' then q else q') := by
  by_cases h : c
  · rw [if_pos h, if_pos (hc.1 h)]
    exact hp
  · rw [if_neg h, if_neg (mt hc.2 h)]
    exact hp'

/-- What is seen differs in places only. -/
theorem view {f : View → Production β} {g : View → Production β'}
    (h : ∀ v place next, L.Sees v place next → Alike L S (f v) (g (v.elsewhere place next))) :
    Alike L S (Production.view >>= f) (Production.view >>= g) := by
  intro i j hij
  have hnext := h i.view _ _ hij.sees i j hij
  rw [← hij.view_eq] at hnext
  exact hnext

/-- To look at the kind is alike if what is done then is. -/
theorem kind {f : Token.Kind → Production β} {g : Token.Kind → Production β'}
    (h : ∀ k, Alike L S (f k) (g k)) :
    Alike L S (Production.kind >>= f) (Production.kind >>= g) :=
  view (f := fun v => f v.kind) (g := fun v => g v.kind) fun v _ _ _ => h v.kind

/-- To move on is alike if what is done then is. -/
theorem skip {f : Unit → Production β} {g : Unit → Production β'}
    (h : Alike L S (f ()) (g ())) :
    Alike L S (Production.skip >>= f) (Production.skip >>= g) :=
  fun _ _ hij => h _ _ hij.advance

/-- To take a token is alike if what is done then is, wherever the token stands in the second
reading. -/
theorem take {f : Token → Production β} {g : Token → Production β'}
    (h : ∀ token place, L.span token.span place →
      Alike L S (f token) (g { token with span := place })) :
    Alike L S (Production.take >>= f) (Production.take >>= g) :=
  view (f := fun v => Production.skip >>= fun _ => f v.token)
    (g := fun v => Production.skip >>= fun _ => g v.token)
    fun v _ _ hsees => skip (h v.token _ hsees.span)

/-- Reports of one cause are alike if it is not left out. -/
theorem complainAt {cause : Cause} (h : L.leavesOut cause = false) {a b : Position}
    (hposition : L.position a b) :
    Alike L Eq (Production.complainAt cause a) (Production.complainAt cause b) :=
  fun _ _ hij => ⟨rfl, hij, .single h rfl hposition⟩

/-- Reports at the cursor are alike if their cause is not left out. -/
theorem complain {cause : Cause} (h : L.leavesOut cause = false) :
    Alike L Eq (Production.complain cause) (Production.complain cause) :=
  fun _ _ hij => ⟨rfl, hij, .single h rfl hij.sees.position⟩

/-- Reports of what is under the cursor are alike if their cause is not left out. -/
theorem complainOf {cause : String → Cause} (h : ∀ text, L.leavesOut (cause text) = false) :
    Alike L Eq (Production.complainOf cause) (Production.complainOf cause) := by
  intro i j hij
  have htext : i.view.token.text = j.view.token.text := by rw [hij.view_eq]; rfl
  exact ⟨rfl, hij, .single (h _) (congrArg cause htext) hij.sees.position⟩

/-- To move on over a kind is alike. -/
theorem skipIf (k : Token.Kind) : Alike L Eq (Production.skipIf k) (Production.skipIf k) :=
  view (f := fun v => if v.kind = k then Production.skip else Pure.pure ())
    (g := fun v => if v.kind = k then Production.skip else Pure.pure ())
    fun _ _ _ _ => ite Iff.rfl (skip (pure rfl)) (pure rfl)

/-- The guard of a loop finds a round stuck in both readings or in neither. -/
theorem passIfStuck {a b : UInt32} (h : L.offset a b) :
    Alike L Eq (Production.passIfStuck a) (Production.passIfStuck b) := by
  let guard (before : UInt32) (v : View) : Production Unit :=
    if !v.atEnd && v.offset == before then Production.complainOf .invalidToken >>= fun _ =>
      Production.skip else Pure.pure ()
  refine view (f := guard a) (g := guard b) fun v place next hsees => ?_
  refine ite ?_ (bindEq (complainOf fun _ => rfl) fun _ => skip (pure rfl)) (pure rfl)
  have hend : (v.elsewhere place next).atEnd = v.atEnd := rfl
  rw [hend]
  cases hat : v.atEnd with
  | true => exact .rfl
  | false =>
    have hmeets : v.offset = a ↔ (v.elsewhere place next).offset = b :=
      L.meets (hsees.offset hat) h
    simpa using hmeets

/-- What is alike is so in frames of the syntax tree. -/
theorem enclosed {p : Production α} {q : Production α'} (h : Alike L R p q)
    (entity : α → Option Entity) (entity' : α' → Option Entity) :
    Alike L R (Production.enclosed p entity Pure.pure)
      (Production.enclosed q entity' Pure.pure) := by
  intro i j hij
  rw [read_enclosed, read_enclosed]
  exact h i j hij

/-- What may fail and is alike is so in frames of the syntax tree. -/
theorem inFrame {R : Option α → Option α' → Prop} {p : Production (Option α)}
    {q : Production (Option α')} (h : Alike L R p q) (entity : α → Entity)
    (entity' : α' → Entity) :
    Alike L R (Production.inFrame entity p) (Production.inFrame entity' q) :=
  h.enclosed _ _

/-- Loops of the same number of rounds. -/
theorem rounds {γ γ' : Type} {T : γ → γ' → Prop} {f : Nat → γ → Production β}
    {g : Nat → γ' → Production β'} (zero : ∀ c c', T c c' → Alike L S (f 0 c) (g 0 c'))
    (step : ∀ k, (∀ c c', T c c' → Alike L S (f k c) (g k c')) →
      ∀ c c', T c c' → Alike L S (f (k + 1) c) (g (k + 1) c'))
    (k : Nat) {c : γ} {c' : γ'} (h : T c c') : Alike L S (f k c) (g k c') := by
  induction k generalizing c c' with
  | zero => exact zero c c' h
  | succ k ih => exact step k (fun _ _ h => ih h) c c' h

/-- Loops that go on with what is equal. -/
theorem roundsEq {γ : Type} {f : Nat → γ → Production β} {g : Nat → γ → Production β'}
    (zero : ∀ c, Alike L S (f 0 c) (g 0 c))
    (step : ∀ k, (∀ c, Alike L S (f k c) (g k c)) → ∀ c, Alike L S (f (k + 1) c) (g (k + 1) c))
    (k : Nat) (c : γ) : Alike L S (f k c) (g k c) := by
  induction k generalizing c with
  | zero => exact zero c
  | succ k ih => exact step k ih c

end Production.Alike

end Cssom

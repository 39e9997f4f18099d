import Cssom.Proofs.Printing.Parts

/-!
# Tokens with single blanks between them

Where tokens are only taken, and not read as something, what is kept of a source is its tokens with
a single blank wherever trivia stood between them (`SingleSpaced`). Doing so again changes nothing,
and such tokens are a print of their source (`SingleSpaced.prints_append`). So a loop that takes
tokens up to one that ends them (`tokensUntil`) is read back from what it took (`Records.gives`).
-/

namespace Cssom

namespace Token

/-! ### Tokens with single blanks between them -/

/-- The kinds of the significant tokens of some pieces. -/
def kinds (ps : List Piece) : List Kind :=
  (ps.map (·.1)).filter Kind.isSignificant

/-- What is kept of the trivia before a token: a blank, but nothing at the start. -/
def gapOf (fresh : Bool) (lead : List Piece) : List Piece :=
  if fresh || lead.isEmpty then [] else [blank]

/-- The second pieces are the tokens of the first ones, with a blank wherever there were trivia, but
for the start. -/
inductive SingleSpaced : Bool → List Piece → List Piece → Prop where
  | nil {fresh : Bool} : SingleSpaced fresh [] []
  | token {fresh : Bool} {lead src ps : List Piece} {p : Piece} (hlead : AreTrivia lead)
      (hp : p.1.isSignificant = true) (hne : p.2.toList ≠ []) (more : SingleSpaced false src ps) :
      SingleSpaced fresh (lead ++ p :: src) (gapOf fresh lead ++ p :: ps)

variable {fresh : Bool} {lead src ps tail tail' : List Piece} {p : Piece}

/-- The kinds of pieces in a row are those of each. -/
theorem kinds_append (ps qs : List Piece) : kinds (ps ++ qs) = kinds ps ++ kinds qs := by
  simp [kinds]

/-- Trivia have no kinds that count. -/
theorem kinds_eq_nil (h : AreTrivia lead) : kinds lead = [] := by
  rw [kinds, List.filter_eq_nil_iff]
  intro k hk
  obtain ⟨p, hp, rfl⟩ := List.mem_map.1 hk
  simp [h p hp]

/-- A significant piece has its kind before those of the rest. -/
theorem kinds_cons (hp : p.1.isSignificant = true) : kinds (p :: ps) = p.1 :: kinds ps := by
  simp [kinds, hp]

/-- Trivia before a token do not count. -/
theorem kinds_token (hlead : AreTrivia lead) (hp : p.1.isSignificant = true) :
    kinds (lead ++ p :: ps) = p.1 :: kinds ps := by
  rw [kinds_append, kinds_eq_nil hlead, List.nil_append, kinds_cons hp]

/-- What is kept of trivia is trivia. -/
theorem areTrivia_gapOf (fresh : Bool) (lead : List Piece) : AreTrivia (gapOf fresh lead) := by
  unfold gapOf
  split
  · exact areTrivia_nil
  · exact areTrivia_singleton rfl

/-- What was kept of trivia is kept as it is. -/
theorem gapOf_gapOf (fresh : Bool) (lead : List Piece) :
    gapOf fresh (gapOf fresh lead) = gapOf fresh lead := by
  rcases fresh <;> rcases lead with _ | ⟨p, lead⟩ <;> rfl

/-- What is kept of trivia may stand before a token of any kind. -/
theorem spaced_gapOf (k : Kind) : Spaced fresh lead k (gapOf fresh lead) := by
  rcases fresh
  · rcases lead with _ | ⟨p, lead⟩
    · exact Or.inr ⟨rfl, Or.inr (Or.inl ⟨rfl, Or.inl rfl⟩)⟩
    · exact Or.inr ⟨rfl, Or.inl rfl⟩
  · exact Or.inl ⟨rfl, rfl⟩

/-- Whether a piece opens an address and does not close it. -/
def leavesOpen (p : Piece) : Bool :=
  (p.1 == .function && Text.sameLetters p.2 "url(") ||
    (p.1 == .badUrl && p.2.toList.getLast? != some ')')

/-- A function that opens an address leaves it open. -/
theorem leavesOpen_of_opening (hkind : p.1 = .function) (h : IsOpening p.2.toList) :
    leavesOpen p = true := by
  obtain ⟨u, r, l, htext, hu, hr, hl⟩ := h
  have hlower : Text.lower p.2 = Text.lower "url(" := by
    rw [Text.lower, htext]
    simp only [List.mem_cons, List.not_mem_nil, or_false] at hu hr hl
    rcases hu with rfl | rfl <;> rcases hr with rfl | rfl <;> rcases hl with rfl | rfl <;> rfl
  rw [leavesOpen, hkind, Text.sameLetters, hlower, beq_self_eq_true, beq_self_eq_true,
    Bool.and_self, Bool.true_or]

/-- A spoiled address that is not left open ends in a parenthesis. -/
theorem close_of_not_leavesOpen (h : leavesOpen p = false) (hbad : p.1 = .badUrl) :
    p.2.toList.getLast? = some ')' := by
  simpa [leavesOpen, hbad] using (Bool.or_eq_false_iff.1 h).2

namespace SingleSpaced

/-- Single blanks change no kinds. -/
theorem kinds_eq (h : SingleSpaced fresh src ps) : kinds ps = kinds src := by
  induction h with
  | nil => rfl
  | token hlead hp _ _ ih => rw [kinds_token (areTrivia_gapOf _ _) hp, kinds_token hlead hp, ih]

/-- The last token stays the last. -/
theorem getLast?_eq (h : SingleSpaced fresh src ps) : ps.getLast? = src.getLast? := by
  induction h with
  | nil => rfl
  | token _ _ _ _ ih => rw [List.getLast?_append, List.getLast?_append, List.getLast?_cons,
      List.getLast?_cons, ih, Option.some_or, Option.some_or]

/-- The last kind is that of the last piece. -/
theorem getLast?_kinds (h : SingleSpaced fresh src ps) :
    (kinds src).getLast? = src.getLast?.map (·.1) := by
  induction h with
  | nil => rfl
  | @token _ _ src _ _ hlead hp _ _ ih =>
    rw [kinds_token hlead hp, List.getLast?_append, List.getLast?_cons, List.getLast?_cons, ih,
      Option.some_or]
    rcases src.getLast? <;> rfl

/-- Doing it again changes nothing. -/
theorem again (h : SingleSpaced fresh src ps) : SingleSpaced fresh ps ps := by
  induction h with
  | nil => exact .nil
  | @token fresh lead src ps p hlead hp hne _ ih =>
    have hagain : SingleSpaced fresh _ (gapOf fresh (gapOf fresh lead) ++ p :: ps) :=
      .token (areTrivia_gapOf fresh lead) hp hne ih
    rwa [gapOf_gapOf] at hagain

/-- Whatever the last token leaves open, something follows. -/
def Followed (src tail : List Piece) : Prop :=
  ∀ p, src.getLast? = some p → leavesOpen p = true → ∃ q ∈ tail, q.1.isSignificant = true

end SingleSpaced

/-- One token is printed before others. -/
theorem prints_token {sep : List Piece} (hlead : AreTrivia lead) (hp : p.1.isSignificant = true)
    (hsep : Spaced fresh lead p.1 sep) (hplain : Plain (p :: src))
    (hfollowed : leavesOpen p = true → ∃ q ∈ src, q.1.isSignificant = true)
    (more : Prints false src ps) : Prints fresh (lead ++ p :: src) (sep ++ p :: ps) := by
  rcases hopen : leavesOpen p
  · refine .token hlead hp hsep (close_of_not_leavesOpen hopen) (fun ho => ?_) more
    rw [leavesOpen_of_opening (kind_of_opening ho hplain.first_eq).1 ho] at hopen
    exact absurd hopen (by decide)
  · exact .next hplain hlead hp hsep (fun _ => hfollowed hopen) more

namespace SingleSpaced

/-- Pieces that are there hold a significant one. -/
theorem exists_significant (h : SingleSpaced fresh src ps) (hne : src ≠ []) :
    ∃ q ∈ src, q.1.isSignificant = true := by
  cases h with
  | nil => exact absurd rfl hne
  | token _ hp _ _ => exact ⟨_, List.mem_append_right _ List.mem_cons_self, hp⟩

/-- The token after some trivia is followed by the next one, or by what follows all of them. -/
theorem followed_token (h : SingleSpaced false src ps)
    (hfollowed : Followed (lead ++ p :: src) tail) :
    (leavesOpen p = true → ∃ q ∈ src ++ tail, q.1.isSignificant = true) ∧ Followed src tail := by
  rcases src with _ | ⟨q, src⟩
  · refine ⟨fun hopen => ?_, fun _ hnone => absurd hnone (by simp)⟩
    exact hfollowed p (by simp) hopen
  · obtain ⟨r, hr, hsig⟩ := h.exists_significant (List.cons_ne_nil _ _)
    refine ⟨fun _ => ⟨r, List.mem_append_left _ hr, hsig⟩, fun r hlast hopen => ?_⟩
    refine hfollowed r ?_ hopen
    rw [List.getLast?_append, List.getLast?_cons_cons, hlast, Option.some_or]

/-- Pieces that are there spell some text. -/
theorem spell_ne_nil (h : SingleSpaced fresh src ps) (hne : ps ≠ []) : spell ps ≠ [] := by
  cases h with
  | nil => exact absurd rfl hne
  | token _ _ htext _ =>
    rw [spell_append, spell_cons]
    simp [htext]

/-- Tokens with single blanks between them are a print of their source, before what is one. -/
theorem prints_append (h : SingleSpaced false src ps) (hplain : Plain (src ++ tail))
    (hfollowed : Followed src tail) (htail : Prints false tail tail') :
    Prints false (src ++ tail) (ps ++ tail') := by
  generalize hfresh : false = fresh at h
  induction h with
  | nil =>
    subst hfresh
    exact htail
  | @token fresh lead src ps p hlead hp _ more ih =>
    obtain ⟨hp', hsrc⟩ := more.followed_token hfollowed
    rw [List.append_assoc] at hplain
    have hrest := hplain.of_append
    have hprints := ih hrest.tail hsrc rfl
    rw [List.append_assoc, List.append_assoc]
    exact prints_token hlead hp (hfresh ▸ spaced_gapOf p.1) hrest hp' hprints

/-- The tokens of a plain source are legible with single blanks between them, if what they leave
open is followed by something. -/
theorem legible (h : SingleSpaced true src ps) (hplain : Plain (src ++ tail))
    (hfollowed : Followed src tail) (hends : ¬ OpensString tail) (hne : ps ≠ []) : Legible ps := by
  cases h with
  | nil => exact absurd rfl hne
  | @token _ lead src ps p hlead hp _ more =>
    obtain ⟨hp', hsrc⟩ := more.followed_token hfollowed
    rw [List.append_assoc, List.cons_append] at hplain
    have hrest := hplain.of_append
    have hmore := more.prints_append hrest.tail hsrc (.ends hends)
    rw [List.append_nil] at hmore
    exact (prints_token hlead hp (spaced_gapOf p.1) hrest hp' hmore).legible hplain hne

end SingleSpaced

/-- Pieces with a blank before them, if there are any. -/
def behindBlank (ps : List Piece) : List Piece :=
  if ps.isEmpty then [] else blank :: ps

/-- Behind a blank, they are a print of what they were kept from. -/
theorem SingleSpaced.prints_behindBlank (h : SingleSpaced true src ps)
    (hplain : Plain (src ++ tail)) (hfollowed : Followed src tail)
    (htail : Prints false tail tail') :
    Prints false (src ++ tail) (behindBlank ps ++ tail') := by
  cases h with
  | nil => exact htail
  | @token _ lead src ps p hlead hp _ more =>
    obtain ⟨hp', hsrc⟩ := more.followed_token hfollowed
    rw [List.append_assoc] at hplain ⊢
    have hrest := hplain.of_append
    exact prints_token hlead hp (Or.inr ⟨rfl, Or.inl rfl⟩) hrest hp'
      (more.prints_append hrest.tail hsrc htail)

end Token

namespace Grammar

open Production Token Input

variable {i j : Input} {fresh : Bool} {lead src ps tail : List Piece} {p : Piece}

/-- A token is seen with the trivia that are there. -/
theorem faces_of_holds (h : j.Holds fresh (lead ++ p :: src)) (hlead : AreTrivia lead)
    (hp : p.1.isSignificant = true) :
    ∃ before, j.Faces before p src ∧ gapOf fresh before = gapOf fresh lead := by
  obtain ⟨before, hbefore, hnone, hpieces⟩ := h
  refine ⟨before ++ lead, faces_of_pieces ?_ (hbefore.append hlead) hp, ?_⟩
  · rw [hpieces, List.append_assoc]
  · rcases fresh
    · rw [hnone rfl, List.nil_append]
    · rfl

/-! ### Tokens up to one that ends them -/

section

variable {σ β : Type} {ends : Kind → Bool} {step : σ → View → σ}

/-- Takes tokens, one in each round, up to one of a kind that ends them. -/
def tokensUntil (ends : Kind → Bool) (step : σ → View → σ) : Nat → σ → Production σ
  | 0, state => pure state
  | rounds + 1, state => do
    let view ← view
    if ends view.kind then pure state
    else
      skip
      tokensUntil ends step rounds (step state view)

/-- Where tokens are ended nothing is taken. -/
theorem read_tokensUntil_stops (rounds : Nat) (state : σ) (h : ends i.view.kind = true) :
    (tokensUntil ends step rounds state).read i = ⟨state, i, []⟩ := by
  rcases rounds with _ | rounds
  · rfl
  · rw [tokensUntil, read_bind, read_view]
    simp only [h, if_true]
    rfl

/-- Where the tokens before an end go on, the one under the cursor is taken. -/
theorem read_tokensUntil_token (rounds : Nat) (state : σ) (h : ends i.view.kind = false) :
    (tokensUntil ends step (rounds + 1) state).read i =
      (tokensUntil ends step rounds (step state i.view)).read i.advance := by
  rw [tokensUntil, read_bind, read_view]
  simp only [h, Bool.false_eq_true, if_false]
  rw [read_bind, read_skip]
  rfl

/-- A state shows the tokens that were taken, with single blanks between them. -/
structure Records (step : σ → View → σ) (fresh : σ → Bool) (shown : σ → List β)
    (spelled : List Piece → List β) : Prop where
  nil : spelled [] = []
  append : ∀ ps qs, spelled (ps ++ qs) = spelled ps ++ spelled qs
  shows_step : ∀ state {i : Input} {lead src : List Piece} {p : Piece}, i.Faces lead p src →
    shown (step state i.view) = shown state ++ spelled (gapOf (fresh state) lead ++ [p])
  not_fresh : ∀ state view, view.token.text.toList ≠ [] → fresh (step state view) = false

namespace Records

variable {fresh : σ → Bool} {shown : σ → List β} {spelled : List Piece → List β}

/-- No pieces add nothing to what is shown. -/
theorem shown_nil (h : Records step fresh shown spelled) (state : σ) :
    shown state ++ spelled [] = shown state := by
  rw [h.nil, List.append_nil]

/-- What was taken of a source is its tokens, with single blanks between them. -/
theorem yields (h : Records step fresh shown spelled) (hend : ends .eof = true)
    (hplain : Plain i.pieces) (rounds : Nat) (state : σ) :
    (tokensUntil ends step rounds state).Yields i fun final rest => ∃ src ps,
      shown final = shown state ++ spelled ps ∧ i.pieces = src ++ rest.pieces ∧
        SingleSpaced (fresh state) src ps ∧ ∀ k ∈ kinds src, ends k = false := by
  induction rounds generalizing state i with
  | zero => exact ⟨[], [], (h.shown_nil state).symm, rfl, .nil, List.forall_mem_nil _⟩
  | succ rounds ih =>
    rcases hends : ends i.view.kind
    · rcases i.faces_cases with ⟨_, hkind, _⟩ | ⟨lead, p, src, hpieces, hlead, hp, hfaces⟩
      · rw [hkind, hend] at hends
        exact absurd hends (by decide)
      rw [hpieces] at hplain ⊢
      have hsource := hplain.of_append
      have hne : p.2.toList ≠ [] := ne_nil_of_first hsource.first_eq
      have hnext := ih (i := i.advance) (by rw [hfaces.advance]; exact hsource.tail)
        (step state i.view)
      unfold Yields at hnext ⊢
      rw [read_tokensUntil_token rounds state hends]
      obtain ⟨src', ps, hshown, hsrc, hspaced, hgoes⟩ := hnext
      rw [h.not_fresh state i.view (by rw [hfaces.text]; exact hne)] at hspaced
      rw [hfaces.advance] at hsrc
      refine ⟨lead ++ p :: src', gapOf (fresh state) lead ++ p :: ps, ?_, ?_,
        .token hlead hp hne hspaced, ?_⟩
      · rw [hshown, h.shows_step state hfaces, List.append_assoc, ← h.append, List.append_assoc,
          List.singleton_append]
      · rw [hsrc, List.append_assoc, List.cons_append]
      · rw [kinds_token hlead hp, List.forall_mem_cons, ← hfaces.kind]
        exact ⟨hends, hgoes⟩
    · unfold Yields
      rw [read_tokensUntil_stops _ state hends]
      exact ⟨[], [], (h.shown_nil state).symm, rfl, .nil, List.forall_mem_nil _⟩

/-- Tokens before what ends them are taken, with single blanks between them. -/
theorem gives (h : Records step fresh shown spelled) {first : Bool} {placed : Prop}
    (hspaced : SingleSpaced first src ps) (hgoes : ∀ k ∈ kinds src, ends k = false)
    (hends : ends (headKind tail) = true) (hholds : j.Holds first (src ++ tail))
    (hoffsets : placed → j.offsets.Nodup) (rounds : Nat) (hsize : j.size ≤ rounds) (state : σ)
    (hfirst : fresh state = first) :
    ∃ final, shown final = shown state ++ spelled ps ∧
      (tokensUntil ends step rounds state).Gives j final tail placed := by
  induction hspaced generalizing j rounds state with
  | nil =>
    have hahead : j.Ahead tail placed := Ahead.of_holds hholds hoffsets
    have hstops : ends j.view.kind = true := by rw [hahead.kind, hends]
    exact ⟨state, (h.shown_nil state).symm,
      .of_read (read_tokensUntil_stops rounds state hstops) hahead⟩
  | @token first lead src ps p hlead hp hne _ ih =>
    rw [kinds_token hlead hp, List.forall_mem_cons] at hgoes
    rw [List.append_assoc, List.cons_append] at hholds
    obtain ⟨before, hfaces, hgap⟩ := faces_of_holds hholds hlead hp
    have hsize' := hfaces.size
    obtain ⟨n, rfl⟩ : ∃ n, rounds = n + 1 := ⟨rounds - 1, by omega⟩
    obtain ⟨final, hfinal, hgives⟩ := ih hgoes.2 (holds_advance hfaces)
      (fun hplaced => (Reaches.advance j).nodup_offsets (hoffsets hplaced)) n (by omega)
      (step state j.view)
      (h.not_fresh state j.view (by rw [hfaces.text]; exact hne))
    refine ⟨final, ?_, hgives.congr (read_tokensUntil_token n state ?_)⟩
    · rw [hfinal, h.shows_step state hfaces, hfirst, hgap, List.append_assoc, ← h.append,
        List.append_assoc, List.singleton_append]
    · rw [hfaces.kind]
      exact hgoes.1

end Records

end

end Grammar

end Cssom

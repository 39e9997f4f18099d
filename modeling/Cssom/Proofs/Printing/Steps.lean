import Cssom.Proofs.Printing.Ahead

/-!
# Reading a source, and reading a print

A print is read where it holds what is expected: `Gives` says what a production makes of the pieces
ahead. What the print holds is learned from the source it comes of: `Yields` says what holds of
whatever a production makes of an input. Both have a rule for each step of a production. `ReadsBack`
puts them together: what a source yields is printed so that reading the print gives it again.
-/

namespace Cssom

open Token

/-- A report of nothing but a name that the vocabulary does not have. -/
def Diagnostic.IsMild (d : Diagnostic) : Prop :=
  ∃ name, d.cause = .unknownDeclarationName name

namespace Production

variable {α β : Type} {p : Production α} {f : α → Production β} {input : Input}

/-! ### Reading a source -/

/-- The result of reading an input, and the input that is left, are in a relation. -/
def Yields (p : Production α) (input : Input) (Q : α → Input → Prop) : Prop :=
  Q (p.read input).result (p.read input).rest

namespace Yields

variable {Q : α → Input → Prop} {R : β → Input → Prop}

/-- What gives a result as it stands yields that. -/
theorem pure {a : α} (h : Q a input) : (pure a : Production α).Yields input Q := h

/-- What holds of all results holds of this one. -/
theorem any (h : ∀ a rest, Q a rest) : p.Yields input Q :=
  h _ _

/-- What is read alike, there or further on, yields the same. -/
theorem congr {q : Production α} {input' : Input} (h : q.Yields input' Q)
    (hread : p.read input = q.read input') : p.Yields input Q := by
  unfold Yields
  rwa [hread]

/-- Nothing holds of what is not there. -/
theorem none {P : α → Input → Prop} : (Pure.pure none : Production (Option α)).Yields input
    fun result rest => ∀ a, result = some a → P a rest :=
  fun _ h => absurd h (by simp)

/-- What succeeds with a result yields what holds of that result. -/
theorem some {a : α} {P : α → Input → Prop} (h : P a input) :
    (Pure.pure (some a) : Production (Option α)).Yields input
      fun result rest => ∀ b, result = some b → P b rest :=
  fun _ hb => Option.some.inj hb ▸ h

/-- One step after the other yields what the second yields behind the first. -/
theorem bind (hp : p.Yields input Q)
    (hf : ∀ a rest, input.Reaches rest → Q a rest → (f a).Yields rest R) :
    (p >>= f).Yields input R := by
  unfold Yields
  rw [result_read_bind, rest_read_bind]
  exact hf _ _ (p.read_reaches input) hp

/-- Where nothing need be known of the first result. -/
theorem bind_any (hf : ∀ a rest, input.Reaches rest → (f a).Yields rest R) :
    (p >>= f).Yields input R :=
  bind (Q := fun _ _ => True) trivial fun a rest h _ => hf a rest h

/-- Nothing is read where two productions are passed for nothing. -/
theorem abandons {γ : Type} {q : Production β} {P : γ → Input → Prop} :
    (p >>= fun _ => q >>= fun _ => Pure.pure .none : Production (Option γ)).Yields input
      fun result rest => ∀ c, result = .some c → P c rest :=
  bind_any fun _ _ _ => bind_any fun _ _ _ => none

/-- What is yielded may be weakened. -/
theorem mono {Q' : α → Input → Prop} (h : p.Yields input Q) (hQ : ∀ a rest, Q a rest → Q' a rest) :
    p.Yields input Q' :=
  hQ _ _ h

/-- What is yielded in two respects is yielded in both. -/
theorem and {Q' : α → Input → Prop} (h : p.Yields input Q) (h' : p.Yields input Q') :
    p.Yields input fun a rest => Q a rest ∧ Q' a rest :=
  ⟨h, h'⟩

/-- A step of which it is known what it reads may be left behind. -/
theorem step {a : α} {rest : Input} {reports : List Diagnostic}
    (hread : p.read input = ⟨a, rest, reports⟩) (h : (f a).Yields rest R) :
    (p >>= f).Yields input R := by
  unfold Yields at h ⊢
  rwa [result_read_bind, rest_read_bind, hread]

/-- To look yields what is yielded of what is seen. -/
theorem view {f : View → Production β} (h : (f input.view).Yields input R) :
    (view >>= f).Yields input R :=
  step (read_view input) h

/-- To look at the kind yields what is yielded of that kind. -/
theorem kind {f : Kind → Production β} (h : (f input.view.kind).Yields input R) :
    (kind >>= f).Yields input R :=
  step (read_kind input) h

/-- To move on yields what is yielded of the next input. -/
theorem skip {f : Unit → Production β} (h : (f ()).Yields input.advance R) :
    (skip >>= f).Yields input R :=
  step (read_skip input) h

/-- To take a token yields what is yielded of the token and the next input. -/
theorem take {f : Token → Production β} (h : (f input.view.token).Yields input.advance R) :
    (take >>= f).Yields input R :=
  step (read_take input) h

/-- What is done to a result is done to what is yielded. -/
theorem map {g : α → β} (h : p.Yields input fun a rest => R (g a) rest) :
    (g <$> p).Yields input R := by
  unfold Yields at h ⊢
  rwa [read_map]

/-- A frame of the syntax tree changes nothing of what is yielded. -/
theorem enclosed {entity : α → Option Entity} (h : p.Yields input Q) :
    (enclosed p entity Pure.pure).Yields input Q := by
  unfold Yields at h ⊢
  rwa [read_enclosed]

/-- A frame of something that may fail changes nothing of what is yielded. -/
theorem inFrame {entity : α → Entity} {body : Production (Option α)} {Q : Option α → Input → Prop}
    (h : body.Yields input Q) : (inFrame entity body).Yields input Q := by
  unfold Yields at h ⊢
  rwa [read_inFrame]

/-- What holds of reading an input holds of a run on it. -/
theorem run {s : Parser} (h : p.Yields s.input Q) : Q (p.run s).1 (p.run s).2.input := by
  rw [run_result, run_rest]
  exact h

end Yields

/-! ### Reading a print -/

/-- Reading the input gives a result, stops before these pieces, and reports nothing but unknown
names. -/
structure Gives (p : Production α) (input : Input) (a : α) (after : List Piece)
    (placed : Prop := True) : Prop where
  result : (p.read input).result = a
  rest : (p.read input).rest.Ahead after placed
  reports : ∀ d ∈ (p.read input).reports, d.IsMild

namespace Gives

variable {a : α} {b : β} {mid after : List Piece} {placed : Prop}

/-- What gives a result as it stands gives it before what is ahead. -/
theorem pure (h : input.Ahead after placed) : (pure a : Production α).Gives input a after placed :=
  ⟨rfl, h, fun _ hd => absurd hd List.not_mem_nil⟩

/-- What follows is read where the first production stopped. -/
theorem bind_rest (hp : p.Gives input a mid placed)
    (hf : (f a).Gives (p.read input).rest b after placed) :
    (p >>= f).Gives input b after placed := by
  obtain ⟨hresult, _, hreports⟩ := hp
  obtain ⟨hresult', hrest', hreports'⟩ := hf
  refine ⟨?_, ?_, ?_⟩
  · rwa [result_read_bind, hresult]
  · rwa [rest_read_bind, hresult]
  · intro d hd
    rw [reports_read_bind, hresult, List.mem_append] at hd
    exact hd.elim (hreports d) (hreports' d)

/-- One step after the other gives what the second gives behind the first. -/
theorem bind (hp : p.Gives input a mid placed)
    (hf : ∀ rest, input.Reaches rest → rest.Ahead mid placed → (f a).Gives rest b after placed) :
    (p >>= f).Gives input b after placed :=
  hp.bind_rest (hf _ (p.read_reaches input) hp.rest)

/-- Trivia may be left out of what is left. -/
theorem of_append {lead : List Piece} (h : p.Gives input a (lead ++ after) placed)
    (hlead : AreTrivia lead) : p.Gives input a after placed :=
  ⟨h.result, h.rest.of_append hlead, h.reports⟩

/-- A step of which it is known what it reads may be left behind. -/
theorem step {rest : Input} {reports : List Diagnostic}
    (hread : p.read input = ⟨a, rest, reports⟩) (hmild : ∀ d ∈ reports, d.IsMild)
    (h : (f a).Gives rest b after placed) : (p >>= f).Gives input b after placed := by
  refine ⟨?_, ?_, ?_⟩
  · rw [result_read_bind, hread]
    exact h.result
  · rw [rest_read_bind, hread]
    exact h.rest
  · intro d hd
    rw [reports_read_bind, hread, List.mem_append] at hd
    exact hd.elim (hmild d) (h.reports d)

/-- A first step that reports nothing. -/
theorem silent {rest : Input} (hread : p.read input = ⟨a, rest, []⟩)
    (h : (f a).Gives rest b after placed) : (p >>= f).Gives input b after placed :=
  step hread (fun _ hd => absurd hd List.not_mem_nil) h

/-- To look gives what is given of what is seen. -/
theorem view {f : View → Production β} (h : (f input.view).Gives input b after placed) :
    (view >>= f).Gives input b after placed :=
  silent (read_view input) h

/-- To look at the kind gives what is given of that kind. -/
theorem kind {f : Kind → Production β} (h : (f input.view.kind).Gives input b after placed) :
    (kind >>= f).Gives input b after placed :=
  silent (read_kind input) h

/-- To move on gives what is given of the next input. -/
theorem skip {f : Unit → Production β} (h : (f ()).Gives input.advance b after placed) :
    (skip >>= f).Gives input b after placed :=
  silent (read_skip input) h

/-- To take a token gives what is given of the token and the next input. -/
theorem take {f : Token → Production β}
    (h : (f input.view.token).Gives input.advance b after placed) :
    (take >>= f).Gives input b after placed :=
  silent (read_take input) h

/-- What a print gives is what its source yields. -/
theorem yields (h : p.Gives input a after placed) :
    p.Yields input fun b rest => b = a ∧ rest.Ahead after placed :=
  ⟨h.result, h.rest⟩

/-- What is done to a result is done to what is given. -/
theorem map {g : α → β} (h : p.Gives input a after placed) :
    (g <$> p).Gives input (g a) after placed := by
  refine ⟨?_, ?_, ?_⟩ <;> rw [read_map]
  · exact congrArg g h.result
  · exact h.rest
  · exact h.reports

/-- A frame of the syntax tree changes nothing of what is given. -/
theorem enclosed {entity : α → Option Entity} (h : p.Gives input a after placed) :
    (enclosed p entity Pure.pure).Gives input a after placed := by
  refine ⟨?_, ?_, ?_⟩ <;> rw [read_enclosed]
  · exact h.result
  · exact h.rest
  · exact h.reports

/-- A frame of something that may fail changes nothing of what is given. -/
theorem inFrame {entity : α → Entity} {body : Production (Option α)} {a : Option α}
    (h : body.Gives input a after placed) : (inFrame entity body).Gives input a after placed := by
  refine ⟨?_, ?_, ?_⟩ <;> rw [read_inFrame]
  · exact h.result
  · exact h.rest
  · exact h.reports

/-- What is read without a report is given. -/
theorem of_read {rest : Input} (hread : p.read input = ⟨a, rest, []⟩)
    (h : rest.Ahead after placed) : p.Gives input a after placed := by
  refine ⟨?_, ?_, ?_⟩ <;> rw [hread]
  · exact h
  · exact fun _ hd => absurd hd List.not_mem_nil

/-- What is read alike, there or further on, gives the same. -/
theorem congr {q : Production α} {input' : Input} (h : q.Gives input' a after placed)
    (hread : p.read input = q.read input') : p.Gives input a after placed := by
  refine ⟨?_, ?_, ?_⟩ <;> rw [hread]
  · exact h.result
  · exact h.rest
  · exact h.reports

/-- A token that is there is passed over. -/
theorem skipIf {k : Kind} {t : String} (hk : k.isSignificant = true)
    (h : input.Ahead ((k, t) :: after) placed) : (skipIf k).Gives input () after placed := by
  have hkind : input.view.kind = k := by rw [h.kind, headKind_cons hk]
  have hread := read_skipIf k input
  rw [if_pos hkind] at hread
  refine ⟨?_, ?_, ?_⟩ <;> rw [hread]
  · exact h.advance hk
  · exact fun _ hd => absurd hd List.not_mem_nil

/-- The guard of a loop does nothing after a round that took a token. -/
theorem guarded {f : α → Production β} (h : p.Advances (.ofInput input false))
    (hoffsets : input.offsets.Nodup) (hp : p.Gives input a mid placed)
    (hf : ∀ rest, input.Reaches rest → rest.Ahead mid placed → rest.size < input.size →
      (f a).Gives rest b after placed) :
    (p >>= fun a => passIfStuck input.view.offset >>= fun _ => f a).Gives input b after placed := by
  have hnext := hf _ (p.read_reaches input) hp.rest (size_read_lt h)
  have hguard := silent (f := fun _ => f a) (read_passIfStuck h hoffsets) hnext
  refine ⟨?_, ?_, ?_⟩
  · rw [result_read_bind, hp.result]
    exact hguard.result
  · rw [rest_read_bind, hp.result]
    exact hguard.rest
  · intro d hd
    rw [reports_read_bind, hp.result, List.mem_append] at hd
    exact hd.elim (hp.reports d) (hguard.reports d)

end Gives

end Production

/-! ### Prints -/

/-- Something printed as a text, in these pieces, is read back by a production that is given a bound
for the tokens ahead: the pieces are legible wherever they stand, start with a token of some kind,
and are read as what they were printed from before a token of some kind. -/
structure ReadsAs {α : Type} (p : Nat → Production α) (starts follows : Kind → Prop) (a : α)
    (text : String) (ps : List Piece) (placed : Prop := True) : Prop where
  spell : spell ps = text.toList
  legible : Legible ps
  starts : starts (headKind ps)
  gives : ∀ bound input tail, input.Ahead (ps ++ tail) placed → follows (headKind tail) →
    input.size < bound → (p bound).Gives input a tail placed

/-- What is printed as a text is read back. -/
def ReadsBack {α : Type} (p : Nat → Production α) (starts follows : Kind → Prop) (a : α)
    (text : String) (placed : Prop := True) : Prop :=
  ∃ ps, ReadsAs p starts follows a text ps placed

namespace ReadsAs

variable {α β : Type} {p : Nat → Production α} {starts follows : Kind → Prop} {a : α}
  {text : String} {ps tail : List Piece} {placed : Prop}

/-- Whatever follows a print, its first token is of the same kind. -/
theorem headKind_append (h : ReadsAs p starts follows a text ps placed) (qs : List Piece) :
    headKind (ps ++ qs) = headKind ps := by
  obtain ⟨q, rest, rfl, hq⟩ := h.legible.head
  rw [List.cons_append, headKind_cons hq, headKind_cons hq]

end ReadsAs

/-- Where each of some things is read back, each has its pieces. -/
theorem exists_readsAs {α β : Type} {p : Nat → Production β} {starts : Kind → Prop}
    {follows : α → Kind → Prop} {f : α → β} {text : α → String} {as : List α} {placed : Prop}
    (h : ∀ a ∈ as, ReadsBack p starts (follows a) (f a) (text a) placed) :
    ∃ pss, List.Forall₂ (fun a ps => ReadsAs p starts (follows a) (f a) (text a) ps placed)
      as pss := by
  induction as with
  | nil => exact ⟨[], .nil⟩
  | cons a as ih =>
    rw [List.forall_mem_cons] at h
    obtain ⟨ps, hps⟩ := h.1
    obtain ⟨pss, hpss⟩ := ih h.2
    exact ⟨ps :: pss, .cons hps hpss⟩

end Cssom

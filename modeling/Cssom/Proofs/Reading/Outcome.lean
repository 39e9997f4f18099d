import Cssom.Proofs.Reading.Termination

/-!
# What a run hangs on

What a production gives, where it stops and what it reports hang on the input alone: `read` says
what they are without a parser, and `run_eq_read` that every run does just that, whether it keeps a
tree or not. So facts about where productions stop are stated about inputs.
-/

namespace Cssom

/-- What comes of reading an input: a result, the input that is left, and what was reported. -/
@[ext]
structure Outcome (α : Type) where
  result : α
  rest : Input
  reports : List Diagnostic

namespace Production

variable {α β : Type}

/-- What a production does to an input. -/
def read {α : Type} : Production α → Input → Outcome α
  | done result, input => ⟨result, input, []⟩
  | look next, input => (next input.view).read input
  | advance next, input => next.read input.advance
  | report diagnostic next, input =>
    ⟨(next.read input).result, (next.read input).rest, diagnostic :: (next.read input).reports⟩
  | enclosed body _ next, input =>
    let first := body.read input
    let second := (next first.result).read first.rest
    ⟨second.result, second.rest, first.reports ++ second.reports⟩

@[simp] theorem read_pure (a : α) (input : Input) :
    (pure a : Production α).read input = ⟨a, input, []⟩ := rfl

/-- One production after another reads on where the first one stopped. -/
theorem read_bind (p : Production α) (f : α → Production β) (input : Input) :
    (p >>= f).read input =
      ⟨((f (p.read input).result).read (p.read input).rest).result,
        ((f (p.read input).result).read (p.read input).rest).rest,
        (p.read input).reports ++
          ((f (p.read input).result).read (p.read input).rest).reports⟩ := by
  change (p.bind f).read input = _
  induction p generalizing input with
  | done result => rfl
  | look next ih => exact ih _ f _
  | advance next ih => exact ih f _
  | report diagnostic next ih =>
    simp only [Production.bind, read, ih, List.cons_append]
  | enclosed body entity next _ ih =>
    simp only [Production.bind, read, ih, List.append_assoc]

@[simp] theorem result_read_bind (p : Production α) (f : α → Production β) (input : Input) :
    ((p >>= f).read input).result =
      ((f (p.read input).result).read (p.read input).rest).result := by
  rw [read_bind]

@[simp] theorem rest_read_bind (p : Production α) (f : α → Production β) (input : Input) :
    ((p >>= f).read input).rest = ((f (p.read input).result).read (p.read input).rest).rest := by
  rw [read_bind]

@[simp] theorem reports_read_bind (p : Production α) (f : α → Production β) (input : Input) :
    ((p >>= f).read input).reports =
      (p.read input).reports ++ ((f (p.read input).result).read (p.read input).rest).reports := by
  rw [read_bind]

/-! ### Steps by name -/

@[simp] theorem read_view (input : Input) : view.read input = ⟨input.view, input, []⟩ := rfl

@[simp] theorem read_kind (input : Input) : kind.read input = ⟨input.view.kind, input, []⟩ := rfl

@[simp] theorem read_take (input : Input) :
    take.read input = ⟨input.view.token, input.advance, []⟩ := rfl

@[simp] theorem read_skip (input : Input) : skip.read input = ⟨(), input.advance, []⟩ := rfl

@[simp] theorem read_complainAt (cause : Cause) (position : Position) (input : Input) :
    (complainAt cause position).read input = ⟨(), input, [⟨cause, position⟩]⟩ := rfl

@[simp] theorem read_complain (cause : Cause) (input : Input) :
    (complain cause).read input = ⟨(), input, [⟨cause, input.view.position⟩]⟩ := rfl

@[simp] theorem read_complainOf (cause : String → Cause) (input : Input) :
    (complainOf cause).read input =
      ⟨(), input, [⟨cause input.view.token.text, input.view.position⟩]⟩ := rfl

/-- To move on over a kind is to move on if that kind is under the cursor. -/
theorem read_skipIf (kind : Token.Kind) (input : Input) : (skipIf kind).read input =
    if input.view.kind = kind then ⟨(), input.advance, []⟩ else ⟨(), input, []⟩ := by
  have hread : (skipIf kind).read input =
      (if input.view.kind = kind then skip else done ()).read input := rfl
  rw [hread]
  split <;> rfl

@[simp] theorem read_map (f : α → β) (p : Production α) (input : Input) :
    (f <$> p).read input =
      ⟨f (p.read input).result, (p.read input).rest, (p.read input).reports⟩ := by
  change (p >>= fun a => pure (f a)).read input = _
  rw [read_bind, read_pure, List.append_nil]

/-- A frame makes no difference to what is read. -/
@[simp] theorem read_enclosed (body : Production β) (entity : β → Option Entity)
    (input : Input) : (enclosed body entity pure).read input = body.read input := by
  change (Outcome.mk _ _ ((body.read input).reports ++ [])) = _
  rw [List.append_nil]
  rfl

@[simp] theorem read_inFrame (entity : α → Entity) (body : Production (Option α)) (input : Input) :
    (inFrame entity body).read input = body.read input :=
  read_enclosed body _ input

/-! ### Runs read -/

/-- A run gives what reading its input gives, stops where that stops, and reports that. -/
theorem run_eq_read (p : Production α) (s : Parser) :
    (p.run s).1 = (p.read s.input).result ∧ (p.run s).2.input = (p.read s.input).rest ∧
      (p.run s).2.diagnostics.toList = s.diagnostics.toList ++ (p.read s.input).reports := by
  induction p generalizing s with
  | done result => exact ⟨rfl, rfl, (List.append_nil _).symm⟩
  | look next ih => exact ih _ s
  | advance next ih => exact ih s.advance
  | report diagnostic next ih =>
    obtain ⟨hresult, hrest, hreports⟩ := ih (s.report diagnostic)
    refine ⟨hresult, hrest, ?_⟩
    rw [run, hreports, read, Parser.report, Array.toList_push, List.append_assoc]
    rfl
  | enclosed body entity next ihBody ih =>
    have hbody := ihBody s.openFrame
    rw [Parser.input_openFrame] at hbody
    obtain ⟨hresult, hrest, hreports⟩ := hbody
    have hnext := ih (body.read s.input).result
      ((body.run s.openFrame).2.closeFrame (entity (body.read s.input).result))
    rw [Parser.input_closeFrame, hrest] at hnext
    have hrun : (enclosed body entity next).run s =
        (next (body.run s.openFrame).1).run
          ((body.run s.openFrame).2.closeFrame (entity (body.run s.openFrame).1)) := rfl
    rw [hrun, hresult]
    refine ⟨hnext.1, hnext.2.1, ?_⟩
    have hclosed : ((body.run s.openFrame).2.closeFrame
        (entity (body.read s.input).result)).diagnostics.toList =
        s.diagnostics.toList ++ (body.read s.input).reports := hreports
    rw [hnext.2.2, hclosed, List.append_assoc]
    rfl

/-- The result of a run is what is read of the input. -/
theorem run_result (p : Production α) (s : Parser) : (p.run s).1 = (p.read s.input).result :=
  (p.run_eq_read s).1

/-- A run leaves what reading leaves of the input. -/
theorem run_rest (p : Production α) (s : Parser) : (p.run s).2.input = (p.read s.input).rest :=
  (p.run_eq_read s).2.1

/-- Reading only moves on. -/
theorem read_reaches (p : Production α) (input : Input) : input.Reaches (p.read input).rest := by
  have h := p.run_input (.ofInput input false)
  rwa [run_rest] at h

/-- Reading leaves no more tokens than there were. -/
theorem size_read_le (p : Production α) (input : Input) :
    (p.read input).rest.size ≤ input.size :=
  (p.read_reaches input).size_le

/-- A run that changes nothing reads nothing. -/
theorem read_of_run {p : Production α} {s : Parser} {a : α} (h : p.run s = (a, s)) :
    p.read s.input = ⟨a, s.input, []⟩ := by
  obtain ⟨hresult, hrest, hreports⟩ := p.run_eq_read s
  rw [h] at hresult hrest hreports
  have hnone : (p.read s.input).reports = [] := by simpa using hreports
  rw [show p.read s.input = ⟨_, _, (p.read s.input).reports⟩ from rfl, hnone, ← hresult, ← hrest]

/-- Productions that run alike on an input read it alike. -/
theorem read_of_run_eq {p q : Production α} {input : Input}
    (h : p.run (.ofInput input false) = q.run (.ofInput input false)) :
    p.read input = q.read input := by
  obtain ⟨hresult, hrest, hreports⟩ := p.run_eq_read (.ofInput input false)
  obtain ⟨hresult', hrest', hreports'⟩ := q.run_eq_read (.ofInput input false)
  rw [h] at hresult hrest hreports
  have hsame := hreports.symm.trans hreports'
  exact Outcome.ext (hresult.symm.trans hresult') (hrest.symm.trans hrest') hsame

/-- A run takes a token just if reading leaves fewer. -/
theorem advances_iff (p : Production α) (s : Parser) :
    p.Advances s ↔ (p.read s.input).rest.size < s.input.size := by
  rw [Advances, run_rest]

/-- What takes a token leaves fewer to read. -/
theorem size_read_lt {p : Production α} {input : Input} (h : p.Advances (.ofInput input false)) :
    (p.read input).rest.size < input.size :=
  (p.advances_iff (.ofInput input false)).1 h

/-- The guard does nothing after a production that took a token. -/
theorem read_passIfStuck {p : Production α} {input : Input}
    (h : p.Advances (.ofInput input false)) (hnodup : input.offsets.Nodup) :
    (passIfStuck input.view.offset).read (p.read input).rest = ⟨(), (p.read input).rest, []⟩ := by
  have hidle := read_of_run (Grammar.passIfStuck_idle h hnodup)
  rw [run_rest] at hidle
  exact hidle

end Production

/-- A rule is read as what its first token starts. -/
theorem Grammar.read_rule (ctx : Context) (input : Input) : (rule ctx).read input =
    (ruleStarting ctx (rule ctx) input.view.kind).read input := by
  rw [Production.read_of_run_eq (run_rule ctx (.ofInput input false)), Production.read_inFrame,
    Production.read_bind]
  rfl

/-! ### Whole inputs -/

/-- The style sheet of some tokens is what is read of them. -/
theorem Stylesheet.parse_result (tokens : List Token) (config : Config) :
    (Stylesheet.parse tokens config).1 =
      ((Grammar.stylesheet (.ofConfig config)).read (.ofTokens tokens)).result :=
  Production.run_result _ (.ofTokens tokens config)

/-- What is reported of a style sheet is what reading reports. -/
theorem Stylesheet.parse_reports (tokens : List Token) (config : Config) :
    (Stylesheet.parse tokens config).2.diagnostics.toList =
      ((Grammar.stylesheet (.ofConfig config)).read (.ofTokens tokens)).reports :=
  (Production.run_eq_read _ (.ofTokens tokens config)).2.2

end Cssom

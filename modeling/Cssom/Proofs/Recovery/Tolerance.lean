import Cssom.Parser.Entry
import Cssom.Proofs.Reading.Silent
import Cssom.Proofs.Reading.Values
import Cssom.Proofs.Recovery.Declared

/-!
# Keeping values that the grammar refuses

A parser that keeps refused values reads a list of declarations as one that drops them. A value,
refused or not, is read up to what ends its declaration, so passing over the rest of a declaration
whose value was refused passes over nothing (`read_passDeclaration_of_ends`): both parsers leave
each declaration at the same place (`declaration_refuses`). What a whole list gives differs only by
the declarations that were refused, each of which is reported (`tolerance_only_keeps`).
-/

namespace Cssom

/-- Whether the cause is a value that the grammar refuses. -/
def Cause.isInvalidValue : Cause → Bool
  | invalidValue _ => true
  | _ => false

/-- A value that was refused, reported where reading it stopped. -/
def Value.refusal (refused : Value × Position) : Diagnostic :=
  ⟨.invalidValue refused.1.text, refused.2⟩

namespace Grammar

open Production

/-- A value that is there, but that the grammar refuses, and where reading it stops. -/
def refusedBehind? (i : Input) : Option (Value × Position) :=
  let parsed := (value declarationEnd).read i
  if parsed.result.valid then none
  else parsed.result.value.map fun value => (value, parsed.rest.view.position)

/-- The value of the declaration that starts at an input, if the grammar refuses it, and where
reading it stops. -/
def refused? (i : Input) : Option (Value × Position) :=
  let name := declarationName.read i
  if name.result.isEmpty then none
  else if name.rest.view.kind = .colon then refusedBehind? name.rest.advance
  else none

/-- Neither parser looks names up. The first one drops the values that the grammar refuses, the
second keeps them. -/
structure Tolerance (strict tolerant : Context) : Prop where
  strict_placeholders : strict.config.takesPlaceholders = true
  tolerant_placeholders : tolerant.config.takesPlaceholders = true
  drops : strict.config.keepInvalidValues = false
  keeps : tolerant.config.keepInvalidValues = true

/-! ### Single declarations -/

/-- Two readings of one declaration, the second by a parser that keeps what is refused. -/
structure Refuses (refused? : Option (Value × Position))
    (dropped kept : Outcome (Option Property)) : Prop where
  rest : dropped.rest = kept.rest
  result : dropped.result = if refused?.isSome then none else kept.result
  valued : ∀ refused ∈ refused?, kept.result.bind Property.value = some refused.1
  reports : dropped.reports = kept.reports ++ (refused?.map Value.refusal).toList
  plain : ∀ d ∈ kept.reports, d.cause.isInvalidValue = false

variable {strict tolerant : Context} {set : BlockKind} {i : Input}

namespace Refuses

/-- Two readings that do the same, and refuse nothing. -/
theorem same {o : Outcome (Option Property)} (h : ∀ d ∈ o.reports, d.cause.isInvalidValue = false) :
    Refuses none o o :=
  ⟨rfl, rfl, by simp, (List.append_nil _).symm, h⟩

/-- After something that reports nothing. -/
theorem bind {α : Type} {refused? : Option (Value × Position)} {p : Production α}
    {f g : α → Production (Option Property)} (hp : p.Silent)
    (h : Refuses refused? ((f (p.read i).result).read (p.read i).rest)
      ((g (p.read i).result).read (p.read i).rest)) :
    Refuses refused? ((p >>= f).read i) ((p >>= g).read i) := by
  rw [read_bind, read_bind, hp i]
  exact h

end Refuses

/-- Where a declaration ends there is nothing to pass over. -/
theorem read_passDeclaration_of_ends (h : EndsValue declarationEnd i.view.kind) :
    passDeclaration.read i = ⟨(), i, []⟩ := by
  have hhalts : passScan.halts 0 i.view = true := by
    rcases h with h | h
    · simp [passScan, View.atEnd, show i.view.token.kind = .eof from h]
    · have hends : endsRule i.view.kind = true := by
        revert h
        cases i.view.kind <;> decide
      simp [passScan, hends]
  rw [passDeclaration, read_bind, read_view, passDeclarationFrom_eq, Scan.read_of_halts _ hhalts]
  rfl

/-- A declaration that is given up for another reason is given up by both parsers. -/
theorem refuses_giveUp {cause : Cause} (h : cause.isInvalidValue = false) (i : Input) :
    let giveUp : Production (Option Property) := do
      complain cause
      passDeclaration
      pure none
    Refuses none (giveUp.read i) (giveUp.read i) := by
  refine .same fun d hd => ?_
  rw [reports_read_bind, reports_read_bind, silent_passDeclaration, read_complain] at hd
  rw [List.mem_singleton.1 hd]
  exact h

/-- What has no name is passed over by both parsers. -/
theorem refuses_namelessBody (i : Input) :
    Refuses none (namelessBody.read i) (namelessBody.read i) := by
  refine .same fun d hd => ?_
  unfold namelessBody at hd
  rw [reports_read_bind, read_view] at hd
  split at hd
  · rw [reports_read_bind, reports_read_bind, silent_passDeclaration, read_complainOf] at hd
    rw [List.mem_singleton.1 hd]
    rfl
  · rw [reports_read_bind, silent_passDeclaration] at hd
    exact absurd hd List.not_mem_nil

/-- A refused value has nothing behind it to pass over, so it makes no difference to where the
declaration ends. -/
theorem refuses_valueBody (h : Tolerance strict tolerant) (name : String) (property : Property)
    (i : Input) : Refuses (refusedBehind? i) ((valueBody strict name property).read i)
      ((valueBody tolerant name property).read i) := by
  unfold valueBody
  apply Refuses.bind (silent_value _)
  have hends : EndsValue declarationEnd ((value declarationEnd).read i).rest.view.kind := value_ends
  rw [refusedBehind?]
  generalize (value declarationEnd).read i = parsed at hends ⊢
  cases hvalue : parsed.result.value with
  | none =>
    rw [Option.map_none, ite_self]
    exact refuses_giveUp rfl _
  | some v =>
    dsimp only
    rw [h.drops, h.keeps]
    cases hvalid : parsed.result.valid with
    | true => exact .same fun _ hd => absurd hd List.not_mem_nil
    | false =>
      simp only [Bool.not_false, Bool.not_true, Bool.and_true, Bool.and_false, if_true, if_false,
        Bool.false_eq_true, Option.map_some, read_bind, read_complain,
        read_passDeclaration_of_ends hends, read_pure]
      exact ⟨rfl, rfl, by simp [Property.assign], rfl, fun _ hd => absurd hd List.not_mem_nil⟩

/-- What follows a name is read by both parsers, but for a value that is refused. -/
theorem refuses_namedBody (h : Tolerance strict tolerant) (name : String) (property : Property)
    (i : Input) :
    Refuses (if i.view.kind = .colon then refusedBehind? i.advance else none)
      ((namedBody strict name property).read i) ((namedBody tolerant name property).read i) := by
  have hread (ctx : Context) : (namedBody ctx name property).read i =
      (if i.view.kind = .colon then skip >>= fun _ => valueBody ctx name property
      else complain (.colonMissing name) >>= fun _ => passDeclaration >>= fun _ => pure none :
        Production (Option Property)).read i := rfl
  rw [hread, hread]
  split
  · exact .bind .skip (refuses_valueBody h name property i.advance)
  · exact refuses_giveUp rfl i

/-- Both parsers leave a declaration at the same place, and give the same property, unless its value
is refused. -/
theorem declaration_refuses (h : Tolerance strict tolerant) (set : BlockKind) (i : Input) :
    Refuses (refused? i) ((declaration strict set).read i) ((declaration tolerant set).read i) := by
  have hbody : Refuses (refused? i) ((declarationBody strict set).read i)
      ((declarationBody tolerant set).read i) := by
    have hread (ctx : Context) (hplaceholders : ctx.config.takesPlaceholders = true) :
        (declarationBody ctx set).read i =
          (declarationName >>= fun name => if name.isEmpty then namelessBody else
            namedBody ctx name (.placeholder name)).read i := by
      unfold declarationBody property
      simp only [hplaceholders, if_true]
      rfl
    rw [hread strict h.strict_placeholders, hread tolerant h.tolerant_placeholders]
    apply Refuses.bind silent_declarationName
    rw [refused?]
    cases (declarationName.read i).result.isEmpty with
    | true => exact refuses_namelessBody _
    | false => exact refuses_namedBody h _ _ _
  obtain ⟨hrest, hresult, hvalued, hreports, hplain⟩ := hbody
  rw [read_declaration, read_declaration]
  exact ⟨congrArg (fun rest => ((skipIf .semicolon).read rest).rest) hrest, hresult, hvalued,
    hreports, hplain⟩

/-! ### Lists of declarations -/

/-- The second of two readings keeps declarations that the first one drops and reports; otherwise
they are the same. What a declaration gives that is not dropped is told by where it starts. -/
structure Sifts {α β : Type} (given : Input → Option Property) (p : Production α)
    (q : Production β) (i : Input) : Prop where
  rest : (p.read i).rest = (q.read i).rest
  starts : p.declarationStarts i = q.declarationStarts i
  kept : q.declared i = (q.declarationStarts i).filterMap given
  sifted : p.declared i =
    ((q.declarationStarts i).filter fun start => (refused? start).isNone).filterMap given
  reports : ((p.read i).reports.filter fun d => !d.cause.isInvalidValue) = (q.read i).reports
  refusals : ((p.read i).reports.filter fun d => d.cause.isInvalidValue) =
    (q.declarationStarts i).filterMap fun start => (refused? start).map Value.refusal

namespace Sifts

variable {α β γ δ : Type} {given : Input → Option Property} {p : Production α} {q : Production β}

/-- Two readings that open no frame, stop at the same place and report the same, but no refused
value. -/
theorem of_frameless (hp : p.Frameless) (hq : q.Frameless)
    (hrest : (p.read i).rest = (q.read i).rest)
    (hreports : (p.read i).reports = (q.read i).reports)
    (hplain : ∀ d ∈ (q.read i).reports, d.cause.isInvalidValue = false) : Sifts given p q i := by
  have hnone {ε : Type} {r : Production ε} (hr : r.Frameless) :
      r.declarationStarts i = [] ∧ r.declared i = [] :=
    ⟨(AimsOnly.of_frameless hr).declarationStarts_eq i, (AimsOnly.of_frameless hr).declared_eq i⟩
  obtain ⟨hstarts, hdeclared⟩ := hnone hp
  obtain ⟨hstarts', hdeclared'⟩ := hnone hq
  refine ⟨hrest, hstarts.trans hstarts'.symm, ?_, ?_, ?_, ?_⟩
  · rw [hdeclared', hstarts']
    rfl
  · rw [hdeclared, hstarts']
    rfl
  · rw [hreports]
    exact List.filter_eq_self.2 fun d hd => by rw [hplain d hd]; rfl
  · rw [hreports, hstarts']
    exact List.filter_eq_nil_iff.2 fun d hd => by rw [hplain d hd]; exact Bool.false_ne_true

/-- To give a result drops nothing. -/
theorem pure (a : α) (b : β) :
    Sifts given (Pure.pure a : Production α) (Pure.pure b : Production β) i :=
  of_frameless (.pure _) (.pure _) rfl rfl (List.forall_mem_nil _)

/-- What follows does not hang on what was given before. -/
theorem bind {f : α → Production γ} {g : β → Production δ} (hp : Sifts given p q i)
    (hf : ∀ a b j, Sifts given (f a) (g b) j) : Sifts given (p >>= f) (q >>= g) i := by
  obtain ⟨hrest, hstarts, hkept, hsifted, hreports, hrefusals⟩ := hp
  have hnext := hf (p.read i).result (q.read i).result (q.read i).rest
  constructor
  · rw [rest_read_bind, rest_read_bind, hrest]
    exact hnext.rest
  · rw [declarationStarts_bind, declarationStarts_bind, hstarts, hrest, hnext.starts]
  · rw [declared_bind, declarationStarts_bind, hkept, hnext.kept, List.filterMap_append]
  · rw [declared_bind, declarationStarts_bind, hsifted, hrest, hnext.sifted, List.filter_append,
      List.filterMap_append]
  · rw [reports_read_bind, reports_read_bind, List.filter_append, hreports, hrest, hnext.reports]
  · rw [reports_read_bind, declarationStarts_bind, List.filter_append, hrefusals, hrest,
      hnext.refusals, List.filterMap_append]

/-- To look sifts if what is done then does. -/
theorem view {f : View → Production γ} {g : View → Production δ}
    (h : Sifts given (f i.view) (g i.view) i) :
    Sifts given (Production.view >>= f) (Production.view >>= g) i :=
  ⟨h.rest, h.starts, h.kept, h.sifted, h.reports, h.refusals⟩

/-- After something that opens no frame and reports nothing of values. -/
theorem after {r : Production α} {f : α → Production γ} {g : α → Production δ} (hr : r.Frameless)
    (hplain : ∀ d ∈ (r.read i).reports, d.cause.isInvalidValue = false)
    (hf : ∀ a b j, Sifts given (f a) (g b) j) : Sifts given (r >>= f) (r >>= g) i :=
  (of_frameless hr hr rfl rfl hplain).bind hf

end Sifts

/-- What the second parser makes of the declaration that starts at an input. -/
def given? (ctx : Context) (set : BlockKind) (i : Input) : Option Property :=
  ((declaration ctx set).read i).result

/-- A declaration is dropped by the strict parser just if its value is refused. -/
theorem sifts_declaration (h : Tolerance strict tolerant) (set : BlockKind) (i : Input) :
    Sifts (given? tolerant set) (declaration strict set) (declaration tolerant set) i := by
  obtain ⟨hrest, hresult, -, hreports, hplain⟩ := declaration_refuses h set i
  have hsound : ((declaration tolerant set).read i).reports.filter
      (fun d => !d.cause.isInvalidValue) = ((declaration tolerant set).read i).reports :=
    List.filter_eq_self.2 fun d hd => by rw [hplain d hd]; rfl
  have hnone : ((declaration tolerant set).read i).reports.filter
      (fun d => d.cause.isInvalidValue) = [] :=
    List.filter_eq_nil_iff.2 fun d hd => by rw [hplain d hd]; exact Bool.false_ne_true
  constructor
  case rest => exact hrest
  case starts => rw [declarationStarts_declaration, declarationStarts_declaration]
  all_goals simp only [declared_declaration, declarationStarts_declaration, hresult, hreports,
    List.filter_append, hsound, hnone, List.filter_cons, List.filter_nil, List.filterMap_cons,
    List.filterMap_nil]
  case kept =>
    unfold given?
    cases ((declaration tolerant set).read i).result <;> rfl
  case sifted =>
    unfold given?
    cases refused? i with
    | some refused => rfl
    | none => cases hgiven : ((declaration tolerant set).read i).result <;> simp [hgiven]
  case reports => cases refused? i <;> exact List.append_nil _
  case refusals => cases refused? i <;> rfl

/-- The guard of a loop reports a token at most. -/
theorem plain_passIfStuck {start : UInt32} :
    ∀ d ∈ ((passIfStuck start).read i).reports, d.cause.isInvalidValue = false := by
  have hread : (passIfStuck start).read i =
      (if !i.view.atEnd && i.view.offset == start then complainOf .invalidToken >>= fun _ => skip
      else pure ()).read i := rfl
  rw [hread]
  split
  · intro d hd
    rw [List.mem_singleton.1 hd]
    rfl
  · exact List.forall_mem_nil _

/-- Declarations, read on in a block, are sifted. -/
theorem sifts_declarationsFrom (h : Tolerance strict tolerant) (set : BlockKind) (rounds : Nat)
    (block block' : Block) (i : Input) :
    Sifts (given? tolerant set) (declarationsFrom strict set rounds block)
      (declarationsFrom tolerant set rounds block') i := by
  induction rounds generalizing block block' i with
  | zero => exact .pure _ _
  | succ rounds ih =>
    unfold declarationsFrom
    apply Sifts.view
    split
    · exact .pure _ _
    · exact .pure _ _
    · exact .after .skip (List.forall_mem_nil _) fun _ _ j => ih _ _ j
    · refine (sifts_declaration h set i).bind fun _ _ j => ?_
      exact .after (.passIfStuck _) plain_passIfStuck fun _ _ k => ih _ _ k

/-- A list of declarations is sifted. -/
theorem sifts_declarationList (h : Tolerance strict tolerant) (i : Input) :
    Sifts (given? tolerant .standard) (declarationList strict) (declarationList tolerant) i := by
  have hfrom (rounds : Nat) (block block' : Block) (i : Input) :
      Sifts (given? tolerant .standard) (declarationListFrom strict rounds block)
        (declarationListFrom tolerant rounds block') i := by
    induction rounds generalizing block block' i with
    | zero => exact .pure _ _
    | succ rounds ih =>
      unfold declarationListFrom
      apply Sifts.view
      split
      · exact .pure _ _
      · refine (Sifts.view (sifts_declarationsFrom h _ _ _ _ _)).bind fun _ _ j => .view ?_
        split
        · refine .after (.complain _) (fun d hd => ?_) fun _ _ _ =>
            .after .skip (List.forall_mem_nil _) fun _ _ k => ih _ _ k
          rw [List.mem_singleton.1 hd]
          rfl
        · exact ih _ _ j
  exact .view (hfrom _ _ _ _)

end Grammar

open Grammar Production in
/-- Two parsers that do not look names up, and differ only in that the second keeps the values that
the grammar refuses, read a list of declarations alike. They start declarations at the same tokens,
and leave each at the same token. The first gives what the second does, in the same order, without
the declarations whose value is refused. Each of these it reports where the value ends, after what
both report of the declaration; and apart from that, both report the same in the same order. -/
theorem tolerance_only_keeps (tokens : List Token) (strict tolerant : Config)
    (hheld : strict.placeholders = true) (hdrops : strict.keepInvalidValues = false)
    (hkeeps : tolerant = { strict with keepInvalidValues := true }) :
    let list (config : Config) := declarationList (.ofConfig config)
    let one (config : Config) := declaration (.ofConfig config) .standard
    let input := Input.ofTokens tokens
    let starts := (list tolerant).declarationStarts input
    let given (start : Input) := ((one tolerant).read start).result
    (list strict).declarationStarts input = starts ∧
    (∀ start, ((one strict).read start).rest = ((one tolerant).read start).rest) ∧
    (∀ start, refused? start = none → (one strict).read start = (one tolerant).read start) ∧
    (∀ start refused, refused? start = some refused →
      ((one strict).read start).result = none ∧ (given start).bind Property.value = some refused.1 ∧
      ((one strict).read start).reports =
        ((one tolerant).read start).reports ++ [Value.refusal refused]) ∧
    (list tolerant).declared input = starts.filterMap given ∧
    (list strict).declared input =
      (starts.filter fun start => (refused? start).isNone).filterMap given ∧
    ((Block.parse tokens strict).2.diagnostics.toList.filter fun d => !d.cause.isInvalidValue) =
      (Block.parse tokens tolerant).2.diagnostics.toList ∧
    ((Block.parse tokens strict).2.diagnostics.toList.filter fun d => d.cause.isInvalidValue) =
      (starts.filterMap refused?).map Value.refusal := by
  intro list one input starts given
  subst hkeeps
  have htolerance : Tolerance (.ofConfig strict)
      (.ofConfig { strict with keepInvalidValues := true }) :=
    ⟨by simp [Context.ofConfig, Config.takesPlaceholders, hheld],
      by simp [Context.ofConfig, Config.takesPlaceholders], hdrops, rfl⟩
  have hone := declaration_refuses htolerance .standard
  have hlist := sifts_declarationList htolerance input
  have hreports (config : Config) : (Block.parse tokens config).2.diagnostics.toList =
      ((list config).read input).reports :=
    (run_eq_read _ (.ofTokens tokens config)).2.2
  refine ⟨hlist.starts, fun start => (hone start).rest, ?_, ?_, hlist.kept, hlist.sifted, ?_, ?_⟩
  · intro start hnone
    obtain ⟨hrest, hresult, -, hreported, -⟩ := hone start
    rw [hnone] at hresult hreported
    exact Outcome.ext hresult hrest (hreported.trans (List.append_nil _))
  · intro start refused hsome
    obtain ⟨-, hresult, hvalued, hreported, -⟩ := hone start
    rw [hsome] at hresult hreported
    exact ⟨hresult, hvalued refused hsome, hreported⟩
  · rw [hreports, hreports]
    exact hlist.reports
  · rw [hreports, List.map_filterMap]
    exact hlist.refusals

open Grammar Production in
/-- A value with a bracket that was not opened, between two good ones, the first after a word
without a colon. -/
theorem tolerance_only_keeps_brackets :
    let token (kind : Token.Kind) (text : String) (start : UInt32) : Token :=
      ⟨kind, text, ⟨⟨start, ""⟩, ⟨start + 1, ""⟩⟩⟩
    let tokens := [token .ident "x" 0, token .semicolon ";" 1, token .ident "a" 2,
      token .colon ":" 3, token .number "1" 4, token .semicolon ";" 5, token .ident "b" 6,
      token .colon ":" 7, token .closeParen ")" 8, token .openCurly "\x7b" 9,
      token .semicolon ";" 10, token .closeCurly "\x7d" 11, token .semicolon ";" 12,
      token .ident "c" 13, token .colon ":" 14, token .number "2" 15]
    let strict := { Config.strict with placeholders := true }
    let tolerant := { strict with keepInvalidValues := true }
    ((Block.parse tokens strict).2.diagnostics.toList.filter fun d => !d.cause.isInvalidValue) =
      (Block.parse tokens tolerant).2.diagnostics.toList ∧
    (Block.parse tokens tolerant).2.diagnostics.toList = [⟨.colonMissing "x", ⟨1, ""⟩⟩] ∧
    (Block.parse tokens strict).2.diagnostics.toList =
      [⟨.colonMissing "x", ⟨1, ""⟩⟩, ⟨.invalidValue ")\x7b;\x7d", ⟨12, ""⟩⟩] ∧
    (Block.parse tokens strict).1.properties.map Property.name = ["a", "c"] ∧
    (Block.parse tokens tolerant).1.properties.map Property.name = ["a", "b", "c"] := by
  intro token tokens strict tolerant
  obtain ⟨-, -, -, -, -, -, hreports, -⟩ :=
    tolerance_only_keeps tokens strict tolerant rfl rfl rfl
  exact ⟨hreports, by decide, by decide, by decide, by decide⟩

end Cssom

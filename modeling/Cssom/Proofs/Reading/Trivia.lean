import Cssom.Parser.Entry
import Cssom.Proofs.SyntaxTree.Alone

/-!
# What trivia mean

Of the trivia between two tokens a production sees the spacing and nothing else. So inputs whose
lexemes have equal tokens and equal spacing show the same views all along (`Input.Respaced`), and
every production reads them alike, by one induction over productions (`Production.read_respaced`).
What is left is about token lists: when runs of trivia are exchanged for others of their class, the
lexemes keep their tokens and their spacing.
-/

namespace Cssom

open Production

/-! ### Runs of trivia -/

/-- Two runs of trivia of the same class: both empty, both with white space in them, or both of
comments and markers of HTML comments only. -/
structure Token.SameClass (run run' : List Token) : Prop where
  trivia : ∀ t ∈ run, t.kind.isTrivia = true
  trivia' : ∀ t ∈ run', t.kind.isTrivia = true
  empty_iff : run = [] ↔ run' = []
  space_iff : (∃ t ∈ run, t.kind = .whitespace) ↔ ∃ t ∈ run', t.kind = .whitespace

/-- Token lists that differ in their trivia only, where every run of trivia in the one stands for a
run of the same class in the other. -/
inductive Token.Respaced : List Token → List Token → Prop
  /-- After the last token that is not trivia. -/
  | last {run run' : List Token} : SameClass run run' → Respaced run run'
  /-- Before a token that is not trivia, and is the same in both lists. -/
  | before {run run' ts us : List Token} (token : Token) : token.kind.isTrivia = false →
      SameClass run run' → Respaced ts us → Respaced (run ++ token :: ts) (run' ++ token :: us)

namespace Token.SameClass

variable {run run' : List Token}

/-- A run of trivia holds no significant token. -/
theorem insignificant_of_trivia (h : ∀ t ∈ run, t.kind.isTrivia = true) :
    ∀ t ∈ run, t.kind.isSignificant = false := by
  intro t ht
  rw [Kind.isSignificant, h t ht, Bool.not_true, Bool.false_and]

/-- Runs of the same class hold none in the one. -/
theorem insignificant (h : SameClass run run') : ∀ t ∈ run, t.kind.isSignificant = false :=
  insignificant_of_trivia h.trivia

/-- Runs of the same class hold no significant token in the second input. -/
theorem insignificant' (h : SameClass run run') : ∀ t ∈ run', t.kind.isSignificant = false :=
  insignificant_of_trivia h.trivia'

/-- Runs of the same class make the same spacing. -/
theorem spacing_eq (h : SameClass run run') : Spacing.ofTrivia run = Spacing.ofTrivia run' := by
  have hspace : run.any (·.kind == .whitespace) = run'.any (·.kind == .whitespace) := by
    rw [Bool.eq_iff_iff, List.any_eq_true, List.any_eq_true]
    simpa only [beq_iff_eq] using h.space_iff
  have hempty : run.isEmpty = run'.isEmpty := by
    rw [Bool.eq_iff_iff, List.isEmpty_iff, List.isEmpty_iff]
    exact h.empty_iff
  rw [Spacing.ofTrivia, Spacing.ofTrivia, hspace, hempty]

/-- No token of a run is an end, so what is read of a list does not stop within one. -/
theorem takeWhile_append (h : ∀ t ∈ run, t.kind.isTrivia = true) (ts : List Token) :
    (run ++ ts).takeWhile (·.kind != .eof) = run ++ ts.takeWhile (·.kind != .eof) := by
  refine List.takeWhile_append_of_pos fun t ht => bne_iff_ne.2 fun heof => ?_
  have htrivia := h t ht
  rw [heof] at htrivia
  cases htrivia

end Token.SameClass

/-! ### Inputs -/

/-- Inputs with the same tokens ahead, the same spacing before each of them and at the end, and the
same end. -/
structure Input.Respaced (i j : Input) : Prop where
  ahead : i.ahead.map (fun lexeme => (lexeme.token, lexeme.spacing)) =
    j.ahead.map fun lexeme => (lexeme.token, lexeme.spacing)
  trailing : Spacing.ofTrivia i.trailing = Spacing.ofTrivia j.trailing
  eof : i.eof = j.eof

namespace Input.Respaced

variable {i j : Input}

/-- Inputs that differ in their trivia have as many tokens ahead. -/
theorem size_eq (h : i.Respaced j) : i.size = j.size := by
  have hlength := congrArg List.length h.ahead
  rwa [List.length_map, List.length_map, ← i.size_eq, ← j.size_eq] at hlength

/-- Inputs that differ in their trivia only cannot be told apart by looking. -/
theorem view_eq (h : i.Respaced j) : i.view = j.view := by
  have hsize := h.size_eq
  obtain ⟨hahead, htrailing, heof⟩ := h
  rw [view, view, hsize]
  unfold current spacing next
  generalize i.ahead = as, j.ahead = bs at hahead ⊢
  rcases as with _ | ⟨a, _ | ⟨a', as⟩⟩ <;> rcases bs with _ | ⟨b, _ | ⟨b', bs⟩⟩ <;> simp_all

/-- Inputs that differ in their trivia only still do when both are moved on. -/
theorem advance (h : i.Respaced j) : i.advance.Respaced j.advance where
  ahead := by
    rw [ahead_advance, ahead_advance, List.map_tail, List.map_tail, h.ahead]
  trailing := by
    have hempty : i.ahead.isEmpty = j.ahead.isEmpty := by
      rw [← List.isEmpty_map, h.ahead, List.isEmpty_map]
    change Spacing.ofTrivia i.trailingAfter = Spacing.ofTrivia j.trailingAfter
    rw [trailingAfter, trailingAfter, hempty]
    split
    · rfl
    · exact h.trailing
  eof := h.eof

end Input.Respaced

/-- What comes of reading two such inputs: the same result, the same reports, and two such inputs
that are left. -/
theorem Production.read_respaced {α : Type} (p : Production α) {i j : Input}
    (h : i.Respaced j) : (p.read i).result = (p.read j).result ∧
      (p.read i).reports = (p.read j).reports ∧ (p.read i).rest.Respaced (p.read j).rest := by
  induction p generalizing i j with
  | done result => exact ⟨rfl, rfl, h⟩
  | look next ih =>
    rw [read, read, h.view_eq]
    exact ih j.view h
  | advance next ih => exact ih h.advance
  | report diagnostic next ih =>
    obtain ⟨hresult, hreports, hrest⟩ := ih h
    exact ⟨hresult, congrArg (diagnostic :: ·) hreports, hrest⟩
  | enclosed body entity next ihBody ih =>
    obtain ⟨hbody, hbodyReports, hbodyRest⟩ := ihBody h
    obtain ⟨hresult, hreports, hrest⟩ := ih (body.read i).result hbodyRest
    simp only [read]
    rw [← hbody]
    exact ⟨hresult, congrArg₂ (· ++ ·) hbodyReports hreports, hrest⟩

/-! ### Token lists as inputs -/

namespace Token.Respaced

variable {ts us : List Token}

/-- Up to their first end, the lists are cut into lexemes with the same tokens and spacing, and what
follows the last of them is of the same class. -/
theorem group_eq (h : Respaced ts us) :
    let lexemes (ts : List Token) := Lexeme.group (ts.takeWhile (·.kind != .eof))
    (lexemes ts).1.map (fun lexeme => (lexeme.token, lexeme.spacing)) =
        (lexemes us).1.map (fun lexeme => (lexeme.token, lexeme.spacing)) ∧
      Spacing.ofTrivia (lexemes ts).2 = Spacing.ofTrivia (lexemes us).2 := by
  intro lexemes
  -- a run that only an end follows, or nothing
  have hlast {run run' : List Token} (hrun : SameClass run run') :
      (Lexeme.group run).1.map (fun lexeme => (lexeme.token, lexeme.spacing)) =
          (Lexeme.group run').1.map (fun lexeme => (lexeme.token, lexeme.spacing)) ∧
        Spacing.ofTrivia (Lexeme.group run).2 = Spacing.ofTrivia (Lexeme.group run').2 := by
    rw [Lexeme.group_of_insignificant hrun.insignificant,
      Lexeme.group_of_insignificant hrun.insignificant']
    exact ⟨rfl, hrun.spacing_eq⟩
  induction h with
  | @last run run' hrun =>
    have htake {run : List Token} (h : ∀ t ∈ run, t.kind.isTrivia = true) :
        run.takeWhile (·.kind != .eof) = run := by
      simpa using SameClass.takeWhile_append h []
    simp only [lexemes, htake hrun.trivia, htake hrun.trivia']
    exact hlast hrun
  | @before run run' ts us token htoken hrun _ ih =>
    obtain ⟨hahead, htrailing⟩ := ih
    simp only [lexemes, SameClass.takeWhile_append hrun.trivia,
      SameClass.takeWhile_append hrun.trivia', List.takeWhile_cons]
    by_cases heof : token.kind = .eof
    · rw [heof]
      simpa using hlast hrun
    · have hsignificant : token.kind.isSignificant = true := by
        rw [Kind.isSignificant, htoken]
        simpa using heof
      have hcons {run : List Token} (h : ∀ t ∈ run, t.kind.isSignificant = false)
          (rest : List Token) : Lexeme.group (run ++ token :: rest) =
            (⟨run, token, hsignificant, h⟩ :: (Lexeme.group rest).1, (Lexeme.group rest).2) := by
        have hgroup := Lexeme.group_tokens_append ⟨run, token, hsignificant, h⟩ rest
        rwa [Lexeme.tokens, List.append_assoc, List.singleton_append] at hgroup
      have hkind : (token.kind != .eof) = true := bne_iff_ne.2 heof
      simp only [hkind, if_true, hcons hrun.insignificant, hcons hrun.insignificant',
        List.map_cons]
      exact ⟨congrArg₂ List.cons (Prod.ext rfl hrun.spacing_eq) hahead, htrailing⟩

/-- Token lists that differ in their trivia only make such inputs, if they have the same end. -/
theorem input (h : Respaced ts us) (hend : Supply.endOf ts = Supply.endOf us) :
    (Input.ofTokens ts).Respaced (.ofTokens us) where
  ahead := h.group_eq.1
  trailing := h.group_eq.2
  eof := congrArg Subtype.val hend

end Token.Respaced

/-- Two readings with the same result and the same diagnostics, in the same order. -/
structure SameAnswer {α : Type} (a b : α × Parser) : Prop where
  result : a.1 = b.1
  diagnostics : a.2.diagnostics = b.2.diagnostics

namespace SameAnswer

variable {α β : Type}

/-- Whatever is run on such inputs gives the same answer. -/
theorem run (p : Production α) {s t : Parser} (hinput : s.input.Respaced t.input)
    (hdiagnostics : s.diagnostics = t.diagnostics) : SameAnswer (p.run s) (p.run t) := by
  obtain ⟨hresult, _, hreports⟩ := p.run_eq_read s
  obtain ⟨hresult', _, hreports'⟩ := p.run_eq_read t
  obtain ⟨hsame, hsameReports, _⟩ := p.read_respaced hinput
  constructor
  · rw [hresult, hresult', hsame]
  · rw [← Array.toList_inj, hreports, hreports', hsameReports, hdiagnostics]

/-- What is done to the results of the same answers leaves them the same. -/
theorem map {a b : α × Parser} (h : SameAnswer a b) (f : α → β) :
    SameAnswer (f a.1, a.2) (f b.1, b.2) :=
  ⟨congrArg f h.result, h.diagnostics⟩

end SameAnswer

/-- Comments carry no meaning, and neither does the amount of white space: whatever the
configuration, token lists with the same end that differ in their trivia only, run by run within its
class, are read as the same style sheet, condition, media list, value, selector list or list of
declarations, with the same diagnostics. -/
theorem trivia_carry_no_meaning (config : Config) {ts us : List Token}
    (htrivia : Token.Respaced ts us)
    (hend : Token.Supply.endOf ts = Token.Supply.endOf us) :
    SameAnswer (Stylesheet.parse ts config) (Stylesheet.parse us config) ∧
    SameAnswer (Condition.parse ts config) (Condition.parse us config) ∧
    SameAnswer (MediaList.parse ts config) (MediaList.parse us config) ∧
    SameAnswer (Value.parse ts config) (Value.parse us config) ∧
    SameAnswer (SelectorList.parse ts config) (SelectorList.parse us config) ∧
    SameAnswer (Block.parse ts config) (Block.parse us config) := by
  have hrun {α : Type} (p : Production α) :
      SameAnswer (p.run (.ofTokens ts config)) (p.run (.ofTokens us config)) :=
    .run p (htrivia.input hend) rfl
  refine ⟨?_, hrun _, hrun _, ?_, ?_, hrun _⟩
  · have h := hrun (Grammar.stylesheet (.ofConfig config))
    exact ⟨h.result, h.diagnostics⟩
  · exact (hrun (Grammar.value [])).map fun parsed =>
      if parsed.valid || config.keepInvalidValues then parsed.value.map (·, parsed.important)
      else none
  · exact (hrun Grammar.selectorList).map fun parsed =>
      if parsed.valid then some parsed.list else none

/-- A style rule for `a b`: more markers and comments of an HTML file before it, a line break for a
blank between its words, and a comment more among white space make no difference. -/
theorem trivia_carry_no_meaning_in_a_style_rule :
    let token (kind : Token.Kind) (text : String) (start : UInt32) : Token :=
      ⟨kind, text, ⟨⟨start, ""⟩, ⟨start + 1, ""⟩⟩⟩
    let rule (lead gap wide : List Token) : List Token :=
      lead ++ token .ident "a" 10 :: (gap ++ token .ident "b" 20 :: (wide ++
        token .openCurly "\x7b" 30 :: ([] ++ token .closeCurly "\x7d" 31 ::
          ([] ++ token .eof "" 32 :: []))))
    let ts := rule [token .comment "/**/" 0] [token .whitespace " " 11] [token .whitespace " " 21]
    let us := rule [token .cdo "<!--" 0, token .comment "/*a*/" 4] [token .whitespace "\n" 11]
      [token .whitespace " " 21, token .comment "/**/" 22, token .whitespace " " 26]
    SameAnswer (Stylesheet.parse ts .tolerant) (Stylesheet.parse us .tolerant) ∧
    SameAnswer (Condition.parse ts .tolerant) (Condition.parse us .tolerant) ∧
    SameAnswer (MediaList.parse ts .tolerant) (MediaList.parse us .tolerant) ∧
    SameAnswer (Value.parse ts .tolerant) (Value.parse us .tolerant) ∧
    SameAnswer (SelectorList.parse ts .tolerant) (SelectorList.parse us .tolerant) ∧
    SameAnswer (Block.parse ts .tolerant) (Block.parse us .tolerant) := by
  intro token rule ts us
  have hnone : Token.SameClass [] [] := ⟨by simp, by simp, by simp, by simp⟩
  refine trivia_carry_no_meaning .tolerant ?_ rfl
  refine .before _ rfl ⟨by decide, by decide, by decide, by decide⟩ ?_
  refine .before _ rfl ⟨by decide, by decide, by decide, by decide⟩ ?_
  refine .before _ rfl ⟨by decide, by decide, by decide, by decide⟩ ?_
  exact .before _ rfl hnone (.before _ rfl hnone (.last hnone))

end Cssom

import Cssom.Proofs.Reading.Advance
import Cssom.Rule.Grammar

/-!
# Progress

A production *advances* from a parser when it passes over at least one significant token. What
advances in one of its parts advances as a whole (`Advances.bind_left`, `Advances.bind_right`). The
productions that a loop repeats advance from wherever the loop runs them: a rule from every token
(`advances_ruleWithin`), a declaration from every token but a semicolon or a closing brace
(`advances_declaration`), a moment of an animation from every token but a closing brace
(`advances_keyframe`).
-/

namespace Cssom

namespace Production

/-- The production passes over a significant token when it runs on the parser. -/
def Advances {α : Type} (p : Production α) (s : Parser) : Prop :=
  (p.run s).2.input.size < s.input.size

variable {α β : Type} {s : Parser}

/-- What advances in its first step advances. -/
theorem Advances.bind_left {p : Production α} (h : p.Advances s) (f : α → Production β) :
    (p >>= f).Advances s := by
  unfold Advances at h ⊢
  rw [run_bind]
  exact Nat.lt_of_le_of_lt (size_run_le _ _) h

/-- What advances in what it does then advances. -/
theorem Advances.bind_right {p : Production α} {f : α → Production β}
    (h : (f (p.run s).1).Advances (p.run s).2) : (p >>= f).Advances s := by
  unfold Advances at h ⊢
  rw [run_bind]
  exact Nat.lt_of_lt_of_le h (size_run_le _ _)

/-- What is done to a result does not change whether a token is taken. -/
theorem Advances.map {p : Production α} (h : p.Advances s) (f : α → β) :
    (f <$> p).Advances s :=
  h.bind_left _

/-- To move on from a token advances. -/
theorem advances_skip (h : s.hasTokens = true) : skip.Advances s := by
  have hsize := s.hasTokens_iff.1 h
  unfold Advances
  rw [run_skip, Parser.size_advance]
  omega

/-- To take a token advances. -/
theorem advances_take (h : s.hasTokens = true) : take.Advances s := by
  have hsize := s.hasTokens_iff.1 h
  unfold Advances
  rw [run_take, Parser.size_advance]
  omega

/-- A frame around a production does not change what it passes over. -/
theorem advances_inFrame {entity : α → Entity} {body : Production (Option α)}
    (h : body.Advances s.openFrame) : (inFrame entity body).Advances s := h

/-- What advances inside of a frame advances, whatever is done behind the frame. -/
theorem advances_enclosed {entity : β → Option Entity} {body : Production β}
    {next : β → Production α} (h : body.Advances s.openFrame) :
    (enclosed body entity next).Advances s := by
  have hnext := size_run_le (next (body.run s.openFrame).1)
    ((body.run s.openFrame).2.closeFrame (entity (body.run s.openFrame).1))
  exact Nat.lt_of_le_of_lt hnext h

end Production

namespace Parser

variable {s : Parser}

/-- Where the kind of a token is under the cursor a token is. -/
theorem hasTokens_of_kind {kind : Token.Kind} (h : s.view.kind = kind) (hk : kind ≠ .eof) :
    s.hasTokens = true := by
  rw [← Bool.not_eq_false]
  intro hn
  exact hk (h.symm.trans (s.kind_view_eq_eof_iff.2 hn))

/-- Where a token is under the cursor there is one ahead at least. -/
theorem exists_size_eq (h : s.hasTokens = true) : ∃ n, s.input.size = n + 1 :=
  ⟨s.input.size - 1, by have := s.hasTokens_iff.1 h; omega⟩

/-- Where a token is under the cursor the end is not. -/
theorem kind_ne_eof (h : s.hasTokens = true) : s.view.kind ≠ .eof := by
  intro e
  rw [s.kind_view_eq_eof_iff] at e
  exact absurd (h.symm.trans e) (by decide)

end Parser

namespace Grammar

open Production

variable {ctx : Context} {s : Parser}

/-! ### Passing over -/

/-- In a round of its own the rest of a rule takes a token. -/
theorem advances_passRuleFrom {rounds : Nat} (depth : Nat) (h : s.hasTokens = true) :
    (passRuleFrom (rounds + 1) depth).Advances s := by
  unfold passRuleFrom
  refine .bind_right ?_
  simp only [run_view, Parser.atEnd_view, h, Bool.not_true, Bool.false_eq_true, if_false]
  exact (advances_skip h).bind_left _

/-- To pass over the rest of a rule advances from every token. -/
theorem advances_passRule (h : s.hasTokens = true) : passRule.Advances s := by
  unfold passRule
  refine .bind_right ?_
  obtain ⟨rounds, hr⟩ := Parser.exists_size_eq h
  simp only [run_view, Parser.size_view, hr]
  exact advances_passRuleFrom 0 h

/-- To pass over the rest of a declaration advances, unless that is at its end. -/
theorem advances_passDeclaration (h : s.hasTokens = true)
    (hk : endsRule s.view.kind = false) : passDeclaration.Advances s := by
  unfold passDeclaration
  refine .bind_right ?_
  obtain ⟨rounds, hr⟩ := Parser.exists_size_eq h
  simp only [run_view, Parser.size_view, hr]
  unfold passDeclarationFrom
  refine .bind_right ?_
  simp only [run_view, Parser.atEnd_view, h, hk, Bool.not_true, Bool.and_false, Bool.or_self,
    Bool.false_eq_true, if_false]
  exact (advances_skip h).bind_left _

/-! ### Rules -/

/-- A rule that is passed over advances from every token. -/
theorem advances_abandonRule (cause : String → Cause) (h : s.hasTokens = true) :
    (abandonRule cause).Advances s := by
  unfold abandonRule
  refine .bind_right (Advances.bind_left ?_ _)
  rw [run_complainOf]
  exact advances_passRule h

/-- A selector list advances, unless it is at its end. -/
theorem advances_selectorList (h : endsSelectors s.view.kind = false) :
    selectorList.Advances s := by
  have htok : s.hasTokens = true :=
    Parser.hasTokens_of_kind rfl fun e => by simp [e, endsSelectors] at h
  unfold selectorList
  refine advances_enclosed (.bind_right (Advances.bind_left ?_ _))
  obtain ⟨rounds, hr⟩ := Parser.exists_size_eq htok
  simp only [run_view, Parser.size_view, Parser.input_openFrame, hr]
  unfold selectorsFrom
  refine .bind_right ?_
  have hview : s.openFrame.view = s.view := Parser.view_congr rfl
  simp only [run_view, hview, h, Bool.false_eq_true, if_false]
  exact Advances.bind_left (advances_skip (s := s.openFrame) htok) _

/-- What any token starts advances, whatever is read inside of it. -/
theorem advances_ruleStarting (rule : Production (Option Rule)) (h : s.hasTokens = true) :
    (ruleStarting ctx rule s.view.kind).Advances s := by
  unfold ruleStarting
  split
  · next he => exact absurd he (Parser.kind_ne_eof h)
  · exact (advances_take h).bind_left _
  · exact advances_abandonRule _ h
  all_goals try exact advances_abandonRule _ h
  next hopen _ _ _ _ hclose _ _ =>
    have hk : endsSelectors s.view.kind = false := by
      have heof := Parser.kind_ne_eof h
      simp_all [endsSelectors]
    refine .bind_right ?_
    exact (advances_selectorList (s := s) hk).bind_left _

/-- A rule advances from every token. -/
theorem advances_ruleWithin (depth : Nat) (h : s.hasTokens = true) :
    (ruleWithin ctx (depth + 1)).Advances s := by
  unfold ruleWithin
  refine advances_inFrame (.bind_right ?_)
  have hview : s.openFrame.view = s.view := Parser.view_congr rfl
  simp only [run_view]
  exact advances_ruleStarting (s := s.openFrame) _ h

/-- A rule advances from every token. -/
theorem advances_rule (h : s.hasTokens = true) : (rule ctx).Advances s := by
  unfold rule
  exact .bind_right (advances_ruleWithin _ h)

/-! ### Declarations -/

/-- A declaration that is passed over advances, unless it is at its end. -/
theorem advances_abandonDeclaration (h : s.hasTokens = true)
    (hk : endsRule s.view.kind = false) : abandonDeclaration.Advances s := by
  unfold abandonDeclaration
  exact (advances_passDeclaration h hk).bind_left _

/-- Reading a name advances unless the name ends at once, and then the name is empty. -/
theorem advances_declarationName (h : s.hasTokens = true) :
    declarationName.Advances s ∨
      endsName s.view.kind = true ∧ declarationName.run s = ("", s) := by
  obtain ⟨rounds, hr⟩ := Parser.exists_size_eq h
  have hname : declarationName.run s = (nameFrom (rounds + 1) "").run s := by
    rw [declarationName, run_bind, run_view, Parser.size_view, hr]
  rcases hk : endsName s.view.kind
  · left
    unfold Advances
    rw [hname]
    unfold nameFrom
    refine Advances.bind_right (s := s) ?_
    simp only [run_view, hk, show ("" : String).isEmpty = true from rfl, Bool.not_true,
      Bool.false_and, Bool.or_self, Bool.false_eq_true, if_false]
    exact (advances_skip h).bind_left _
  · right
    refine ⟨rfl, ?_⟩
    rw [hname, nameFrom]
    simp [hk]

/-- A declaration advances from every token but a semicolon or a closing brace. -/
theorem advances_declaration (set : BlockKind) (h : s.hasTokens = true)
    (hk : endsRule s.view.kind = false) : (declaration ctx set).Advances s := by
  unfold declaration
  refine advances_inFrame (.bind_right ?_)
  rcases advances_declarationName (s := s.openFrame) h with hname | ⟨_, hname⟩
  · exact hname.bind_left _
  · refine .bind_right ?_
    simp only [run_view, hname, show ("" : String).isEmpty = true from rfl, if_true]
    refine .bind_right ?_
    simp only [run_view, Parser.atEnd_view]
    split
    · exact .bind_right (advances_abandonDeclaration (s := s.openFrame.report _) h hk)
    · exact advances_abandonDeclaration (s := s.openFrame) h hk

/-! ### Moments of animations -/

/-- To look for the opening brace of a block advances from every token. -/
theorem advances_blockOpening (h : s.hasTokens = true) : blockOpening.Advances s := by
  unfold blockOpening
  refine .bind_right ?_
  split
  · exact (advances_skip h).bind_left _
  · refine .bind_right (Advances.bind_left ?_ _)
    exact advances_passRule (s := s.report _) h

/-- A block of declarations advances from every token. -/
theorem advances_declarationBlock (set : BlockKind) (h : s.hasTokens = true) :
    (declarationBlock ctx set).Advances s := by
  unfold declarationBlock
  exact (advances_blockOpening h).bind_left _

/-- Reading keys advances unless they end at once. -/
theorem advances_keysFrom (rounds : Nat) (reading : KeyReading) (h : s.hasTokens = true) :
    (keysFrom (rounds + 1) reading).Advances s ∨
      (keysFrom (rounds + 1) reading).run s = (reading, s) := by
  rcases hk : endsPreamble s.view.kind
  · left
    unfold keysFrom
    refine .bind_right ?_
    simp only [run_view, hk, Bool.false_eq_true, if_false]
    exact (advances_skip h).bind_left _
  · right
    rw [keysFrom]
    simp [hk]

/-- A moment of an animation advances from every token. -/
theorem advances_keyframe (h : s.hasTokens = true) : (keyframe ctx).Advances s := by
  unfold keyframe
  refine advances_inFrame (.bind_right ?_)
  obtain ⟨rounds, hr⟩ := Parser.exists_size_eq h
  simp only [run_view, Parser.size_view, Parser.input_openFrame, hr]
  rcases advances_keysFrom (s := s.openFrame) rounds .start h with hkeys | hkeys
  · exact hkeys.bind_left _
  · refine .bind_right ?_
    rw [hkeys]
    split
    · refine .bind_right (Advances.bind_left ?_ _)
      exact advances_declarationBlock (s := s.openFrame.report _) _ h
    · exact (advances_declarationBlock (s := s.openFrame) _ h).bind_left _

end Grammar

end Cssom

import Cssom.Proofs.Printing.Parts
import Cssom.Proofs.Printing.SingleSpaced
import Cssom.Proofs.Token.Adjacent

/-!
# Prints that stand for their source

Tokens that are kept with single blanks between them are read back whatever escapes they hold, if
none of them is unfinished (`Sound`). For that, a print has to *stand for* its source before the
text that follows it (`StandsFor`): it is read back there, it goes on as the source does until it
stands apart, and it keeps addresses away wherever the source does. One token more stands for itself
(`StandsFor.token`), and marks do whatever stands behind them in the source (`standsFor_mark`). So
tokens with single blanks between them do (`SingleSpaced.standsFor`).
-/

namespace Cssom.Token

open Pattern

variable {lead src ps qs after : List Piece} {p : Piece} {w : List Char} {stage : Stage}

/-- The pieces of a source in which no token is unfinished, and no backslash is one by itself. -/
structure Sound (ps : List Piece) : Prop extends Regular ps where
  finished : ∀ p ∈ ps, p.1 ≠ .badString ∧ p.1 ≠ .badUrl

namespace Sound

/-- What is sound is sound from any piece on. -/
theorem of_append (h : Sound (ps ++ qs)) : Sound qs where
  toRegular := h.toRegular.of_append
  finished p hp := h.finished p (List.mem_append_right _ hp)

/-- What is sound is sound behind its first piece. -/
theorem tail (h : Sound (p :: ps)) : Sound ps :=
  @of_append [p] ps h

/-- The first piece of what is sound is finished. -/
theorem settled_head (h : Sound (p :: ps)) (hp : p.1.isSignificant = true) :
    Settled (fun _ => True) p.2.toList :=
  have hfinished := h.finished p List.mem_cons_self
  h.toRegular.settled_head hp hfinished.1 hfinished.2

end Sound

/-- A token is read back behind what is kept of the trivia before it. -/
theorem lexes_gapOf (fresh : Bool) (lead : List Piece) (hp : p.1.isSignificant = true)
    (h : Lexes (p :: ps) w) : Lexes (gapOf fresh lead ++ p :: ps) w := by
  rw [gapOf]
  split
  · exact h
  · exact lexes_blank hp h

/-- Behind a token the print goes on as the source does, if it does behind what is kept of it. -/
theorem agrees_gapOf (lead : List Piece) (hsettled : Settled (fun _ => True) p.2.toList)
    (h : Agrees (spell src) (spell ps ++ w)) :
    Agrees (spell (lead ++ p :: src)) (spell (gapOf false lead ++ p :: ps) ++ w) := by
  rw [gapOf]
  split
  · next hempty =>
    rw [Bool.false_or, List.isEmpty_iff] at hempty
    simpa [hempty] using h.append hsettled
  · exact .of_apart (Or.inr (Or.inl ⟨' ', _, rfl, by decide⟩))

/-- Pieces stand for a source before a text. -/
structure StandsFor (src ps : List Piece) (w : List Char) : Prop where
  lexes : Lexes ps w
  agrees : Agrees (spell src) (spell ps ++ w)
  shut : ∀ stage, shutFrom stage (spell src) = true → shutFrom stage (spell ps ++ w) = true

namespace StandsFor

/-- A token is read back before what stands for the source behind it. -/
theorem lexes_cons (h : StandsFor src ps w) (hsound : Sound (p :: src))
    (hp : p.1.isSignificant = true) : Lexes (p :: ps) w := by
  obtain ⟨hstring, hurl⟩ := hsound.finished p List.mem_cons_self
  have hfirst := hsound.first_eq
  refine ⟨first_follow hfirst (hsound.settled_head hp) hp hstring (fun hbad => absurd hbad hurl)
    (fun ho => ?_) h.agrees, h.lexes⟩
  exact shut_of_shutFrom (h.shut _ (shutFrom_of_shut ho (kind_of_opening ho hfirst).2))

/-- A token more stands for itself, behind a blank if trivia stood before it. -/
theorem token (h : StandsFor src ps w) (hlead : AreTrivia lead)
    (hp : p.1.isSignificant = true) (hsound : Sound (lead ++ p :: src)) :
    StandsFor (lead ++ p :: src) (gapOf false lead ++ p :: ps) w where
  lexes := lexes_gapOf false lead hp (h.lexes_cons hsound.of_append hp)
  agrees := agrees_gapOf lead (hsound.of_append.settled_head hp) h.agrees
  shut stage hshut := by
    have hlexes : Lexes lead (spell (p :: src)) := by
      have hall := (lexes_append.1 hsound.lexes).1
      rwa [List.append_nil] at hall
    rw [spell_append, spell_cons] at hshut
    rw [spell_append, spell_cons, List.append_assoc, List.append_assoc]
    exact shutFrom_separator hlead hlexes hshut fun stage hstage =>
      shutFrom_append (fun _ stage hmore => h.shut stage hmore) hstage

end StandsFor

/-- A mark that keeps no address away stands for itself, if it goes on as the source does or stands
apart from what is before it. -/
theorem standsFor_mark (sep : List Piece) (hlead : AreTrivia lead)
    (hp : ∀ stage s, shutFrom stage (p.2.toList ++ s) = false)
    (hlexes : Lexes (lead ++ p :: src) []) (hprinted : Lexes (sep ++ p :: ps) w)
    (hagrees : Agrees (spell (lead ++ p :: src)) (spell (sep ++ p :: ps) ++ w)) :
    StandsFor (lead ++ p :: src) (sep ++ p :: ps) w where
  lexes := hprinted
  agrees := hagrees
  shut stage hshut := by
    rw [shutFrom_mark hp hlead hlexes] at hshut
    cases hshut

/-- Tokens with single blanks between them stand for their source, before what does. -/
theorem SingleSpaced.standsFor (h : SingleSpaced false src ps) (hafter : StandsFor after qs w)
    (hsound : Sound (src ++ after)) : StandsFor (src ++ after) (ps ++ qs) w := by
  generalize hfresh : false = fresh at h
  induction h with
  | nil => exact hafter
  | @token fresh lead src ps p hlead hp _ _ ih =>
    subst hfresh
    rw [List.append_assoc] at hsound
    rw [List.append_assoc, List.append_assoc]
    exact (ih hsound.of_append.tail rfl).token hlead hp hsound

/-- Behind a blank they are read back, wherever the source has none. -/
theorem SingleSpaced.lexes_behindBlank (h : SingleSpaced true src ps)
    (hafter : StandsFor after qs w) (hsound : Sound (src ++ after)) :
    Lexes (behindBlank ps ++ qs) w := by
  cases h with
  | nil => exact hafter.lexes
  | @token _ lead src ps p hlead hp _ more =>
    rw [List.append_assoc] at hsound
    have hmore := more.standsFor hafter hsound.of_append.tail
    exact lexes_blank hp (hmore.lexes_cons hsound.of_append hp)

end Cssom.Token

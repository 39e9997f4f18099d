import Cssom.Proofs.Recovery.Rules
import Mathlib.Logic.IsEmpty.Defs

/-!
# The brace that closes a block

A block of rules, or of the moments of an animation, is read up to the brace that closes it if none
of its rules slips, and beyond that brace if one does (`block_stops_at_brace`). Nothing else in a
block makes a difference, be it unknown, unfinished or malformed, as long as its brackets nest.
-/

namespace Cssom.Grammar

open Production Token

/-- The brackets open after some tokens. -/
def openAfterAll (opened : List Kind) (block : List Lexeme) : Option (List Kind) :=
  block.foldlM (fun opened lexeme => openAfter opened lexeme.token.kind) opened

/-- Plain tokens among which every bracket is closed, in the order that nests. -/
structure Nests (block : List Lexeme) : Prop where
  plain : ∀ lexeme ∈ block, isPlain lexeme.token = true
  closed : openAfterAll [] block = some []

variable {close : Lexeme} {block after : List Lexeme}

/-- Tokens that close their brackets stand within a block, whatever follows them. -/
theorem within_append {opened : List Kind} (tail : List Lexeme)
    (hplain : ∀ lexeme ∈ block, isPlain lexeme.token = true)
    (hclosed : openAfterAll opened block = some []) : Within tail opened (block ++ tail) := by
  induction block generalizing opened with
  | nil =>
    have hnil : opened = [] := Option.some.inj hclosed
    subst hnil
    exact .atTail
  | cons lexeme block ih =>
    rw [List.forall_mem_cons] at hplain
    rw [openAfterAll, List.foldlM_cons] at hclosed
    obtain ⟨opened', hstep, hmore⟩ := Option.bind_eq_some_iff.1 hclosed
    exact .token hplain.1 hstep (ih hplain.2 hmore)

/-- At the start of a block that nests, the cursor is inside of it with no brace open. -/
theorem inside_of_nests {input : Input} (hahead : input.ahead = block ++ close :: after)
    (hblock : Nests block) (hnodup : input.offsets.Nodup) :
    Inside (close :: after) 0 input := by
  have hwithin := within_append (close :: after) hblock.plain hblock.closed
  exact ⟨⟨[], hahead ▸ hwithin, rfl⟩, hnodup⟩

/-- What stops at a closing brace or at the end, and leaves a block exactly if something slips,
stops at the brace that closes the block exactly if nothing does. -/
theorem Escapes.ahead_eq_iff {slips : Prop} {rest : Input}
    (h : Escapes slips close after 0 rest)
    (hstop : rest.view.kind = .closeCurly ∨ rest.view.kind = .eof) :
    rest.ahead = close :: after ↔ ¬ slips := by
  constructor
  · intro hahead hslips
    rcases h.1 hslips with ⟨fewer, hlt, _⟩ | hbeyond
    · exact absurd hlt (Nat.not_lt_zero _)
    · unfold Beyond at hbeyond
      rw [Input.size_eq, hahead] at hbeyond
      exact absurd hbeyond (Nat.lt_irrefl _)
  · intro hno
    have hin := h.2 hno
    exact hin.ahead_of_close (hstop.resolve_right hin.kind_ne_eof)

/-- Behind the brace that closes a block is what follows the block. -/
theorem ahead_blockClosing (hclose : close.token.kind = .closeCurly) {s : Parser}
    (hahead : s.input.ahead = close :: after) : (blockClosing.run s).2.input.ahead = after := by
  have hk : s.input.view.kind = .closeCurly := by
    rw [View.kind, Input.view, Input.current, hahead, hclose]
  rw [run_rest, blockClosing, read_skipIf, if_pos hk, Input.ahead_advance, hahead, List.tail_cons]

/-- The rules of a block that nests, and likewise the moments of an animation, are read up to
exactly the brace that closes the block if and only if none of them slips; and then the rule
around them ends with that brace. What rules hold in turn is read to any depth that leaves room
for them. -/
theorem block_stops_at_brace (ctx : Context) (depth : Nat) (s : Parser)
    (hahead : s.input.ahead = block ++ close :: after) (hblock : Nests block)
    (hclose : close.token.kind = .closeCurly) (hnodup : s.input.offsets.Nodup)
    (hdepth : s.input.size < depth) :
    let afterRules := ((rulesOf (ruleWithin ctx depth)).run s).2
    let afterMoments := ((keyframes ctx).run s).2
    ((afterRules.input.ahead = close :: after ↔ ¬ RulesSlip ctx s.input) ∧
      (¬ RulesSlip ctx s.input → (blockClosing.run afterRules).2.input.ahead = after)) ∧
    ((afterMoments.input.ahead = close :: after ↔ ¬ MomentsSlip ctx s.input) ∧
      (¬ MomentsSlip ctx s.input → (blockClosing.run afterMoments).2.input.ahead = after)) := by
  have hin := inside_of_nests hahead hblock hnodup
  have hrules : ((rulesOf (ruleWithin ctx depth)).run s).2.input.ahead = close :: after ↔
      ¬ RulesSlip ctx s.input := by
    obtain ⟨hescapes, hstop⟩ := escapes_rulesOf
      (escapes_rule ctx hclose s.input.size) (Nat.le_refl _) hin
    rw [rulesOf_agree (ruleWithin_agree_rule ctx depth) s hdepth, run_rest]
    exact hescapes.ahead_eq_iff hstop
  have hmoments : ((keyframes ctx).run s).2.input.ahead = close :: after ↔
      ¬ MomentsSlip ctx s.input := by
    obtain ⟨hescapes, hstop⟩ := escapes_keyframes ctx hclose hin
    rw [run_rest]
    exact hescapes.ahead_eq_iff hstop
  refine ⟨⟨hrules, fun hno => ?_⟩, hmoments, fun hno => ?_⟩
  · exact ahead_blockClosing hclose (hrules.2 hno)
  · exact ahead_blockClosing hclose (hmoments.2 hno)

/-- A word before the closing brace is a rule that slips. -/
theorem block_stops_at_brace_after_word :
    let word : Token := ⟨.ident, "a", .ofBytes 0 "", .ofBytes 1 ""⟩
    let brace : Token := ⟨.closeCurly, "\x7d", .ofBytes 1 "", .ofBytes 2 ""⟩
    let s : Parser := .ofTokens [word, brace] .strict
    let ctx : Context := .ofConfig .strict
    ((rulesOf (ruleWithin ctx 3)).run s).2.input.ahead ≠ [⟨[], brace, rfl, by simp⟩] := by
  intro word brace s ctx
  have hahead : s.input.ahead = [⟨[], word, rfl, by simp⟩] ++ ⟨[], brace, rfl, by simp⟩ :: [] := rfl
  have hstops := (block_stops_at_brace ctx 3 s hahead ⟨by simp [isPlain, word], rfl⟩ rfl
    (by decide) (by decide)).1.1
  rw [Ne, hstops, Classical.not_not]
  exact .here rfl (.unended (by decide) (by decide))

end Cssom.Grammar

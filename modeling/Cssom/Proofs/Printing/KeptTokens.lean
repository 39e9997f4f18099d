import Cssom.Proofs.Printing.SingleSpaced
import Cssom.Rule.Unknown

/-!
# Tokens that are kept

What is kept of a rule of an unknown name is its tokens, with single blanks between them; so what
stands before its block is read back, and so is its block if it was closed
(`gives_unknownPreambleFrom`, `gives_unknownBlockFrom`).
-/

namespace Cssom.Grammar

open Production Token Input

variable {i j : Input} {lead src ps tail : List Piece} {p : Piece}

/-! ### Keeping a token -/

/-- The tokens that are kept of what is under the cursor. -/
def tokensKept (keepSpace : Bool) (view : View) : List Token :=
  (if keepSpace && view.spacing.isOpen then [⟨.whitespace, " ", view.token.span⟩] else []) ++
    [view.token]

/-- To keep a token is to move on from it, without a report. -/
theorem read_keepToken_eq (keepSpace : Bool) (i : Input) :
    (keepToken keepSpace).read i = ⟨tokensKept keepSpace i.view, i.advance, []⟩ := by
  rw [keepToken, read_bind, read_view, read_bind, read_skip]
  rfl

/-- What is kept of a token is the token, behind a blank where trivia stood before it. -/
theorem pieces_tokensKept (h : i.Faces lead p src) (keepSpace : Bool) :
    (tokensKept keepSpace i.view).map Token.piece = gapOf (!keepSpace) lead ++ [p] := by
  have hpiece : i.view.token.piece = p := Prod.ext h.kind h.text
  rw [tokensKept, h.spacing, isOpen_spacingOf, List.map_append, List.map_singleton, hpiece, gapOf]
  rcases keepSpace <;> rcases lead.isEmpty <;> rfl

/-! ### What stands before the block -/

/-- What is kept once the token under the cursor is. -/
def keptAfter (kept : List Token) (view : View) : List Token :=
  kept ++ tokensKept (!kept.isEmpty) view

/-- What stands before the block of an unknown rule is kept up to a token that ends it. -/
theorem read_unknownPreambleFrom (rounds : Nat) (kept : List Token) (i : Input) :
    (unknownPreambleFrom rounds kept).read i =
      (tokensUntil endsUnknownPreamble keptAfter rounds kept).read i := by
  induction rounds generalizing kept i with
  | zero => rfl
  | succ rounds ih =>
    rw [unknownPreambleFrom, tokensUntil, read_bind, read_bind, read_view]
    split
    · rfl
    · rw [read_bind, read_bind, read_keepToken_eq, read_skip]
      simp only [ih]
      rfl

/-- What was kept shows the tokens that were taken, with single blanks between them. -/
theorem records_keptAfter :
    Records keptAfter List.isEmpty (List.map Token.piece) (id : List Piece → List Piece) where
  nil := rfl
  append _ _ := rfl
  shows_step kept i lead src p hfaces := by
    rw [keptAfter, List.map_append, pieces_tokensKept hfaces, Bool.not_not]
    rfl
  not_fresh kept view _ := by simp [keptAfter, tokensKept]

/-- Tokens before what ends them are kept with single blanks between them. -/
theorem gives_unknownPreambleFrom {placed : Prop} (h : SingleSpaced true src ps)
    (hgoes : ∀ k ∈ kinds src, endsUnknownPreamble k = false)
    (hends : endsUnknownPreamble (headKind tail) = true) (hahead : j.Ahead (src ++ tail) placed)
    (rounds : Nat) (hsize : j.size ≤ rounds) :
    ∃ ts : List Token, ts.map Token.piece = ps ∧
      (unknownPreambleFrom rounds []).Gives j ts tail placed := by
  obtain ⟨ts, hts, hgives⟩ := records_keptAfter.gives h hgoes hends hahead.holds
    hahead.offsets rounds hsize [] rfl
  exact ⟨ts, hts, hgives.congr (read_unknownPreambleFrom rounds [] j)⟩

/-! ### The block -/

/-- The last of some tokens closes the last brace that is open, of which there are so many before
them. -/
def Closes : Nat → List Kind → Prop
  | _, [] => False
  | depth, k :: ks => if bracesAfter depth k = 0 then ks = [] else Closes (bracesAfter depth k) ks

/-- The last brace that is open is closed by a closing brace. -/
theorem eq_closeCurly_of_bracesAfter {depth : Nat} {k : Kind} (hdepth : depth ≠ 0)
    (h : bracesAfter depth k = 0) : k = .closeCurly := by
  cases k <;> first | rfl | exact absurd h hdepth | exact absurd h (Nat.succ_ne_zero _)

/-- What closes the last brace that is open ends in a closing brace. -/
theorem Closes.getLast? {depth : Nat} {ks : List Kind} (h : Closes depth ks) (hdepth : depth ≠ 0) :
    ks.getLast? = some .closeCurly := by
  induction ks generalizing depth with
  | nil => exact absurd h id
  | cons k ks ih =>
    rw [Closes] at h
    split at h
    · next hzero =>
      rw [h, eq_closeCurly_of_bracesAfter hdepth hzero]
      rfl
    · next hpos =>
      rw [List.getLast?_cons, ih h hpos]
      rfl

/-- In an open block the token under the cursor is kept, and the block ends there if that closes the
last brace. -/
theorem read_unknownBlockFrom_token (rounds depth : Nat) (kept : List Token)
    (h : i.view.kind ≠ .eof) :
    (unknownBlockFrom (rounds + 1) depth kept).read i =
      if bracesAfter depth i.view.kind = 0 then ⟨kept ++ tokensKept true i.view, i.advance, []⟩
      else (unknownBlockFrom rounds (bracesAfter depth i.view.kind)
        (kept ++ tokensKept true i.view)).read i.advance := by
  have hend : i.view.atEnd = false := beq_eq_false_iff_ne.2 h
  rw [unknownBlockFrom, read_bind, read_view]
  simp only [hend, Bool.false_eq_true, if_false]
  rw [read_bind, read_keepToken_eq]
  split <;> rfl

/-- At the end of the source an open block ends as it is. -/
theorem read_unknownBlockFrom_ends (rounds depth : Nat) (kept : List Token)
    (h : i.view.kind = .eof) : (unknownBlockFrom rounds depth kept).read i = ⟨kept, i, []⟩ := by
  have hend : i.view.atEnd = true := beq_iff_eq.2 h
  rcases rounds with _ | rounds
  · rfl
  · rw [unknownBlockFrom, read_bind, read_view]
    simp only [hend, if_true]
    rfl

/-- A block that closes is kept, through the brace that closes it. -/
theorem gives_unknownBlockFrom {placed : Prop} (h : SingleSpaced false src ps) {depth : Nat}
    (hcloses : Closes depth (kinds src)) (hholds : j.Holds false (src ++ tail))
    (hoffsets : placed → j.offsets.Nodup) (rounds : Nat) (hsize : j.size ≤ rounds)
    (kept : List Token) :
    ∃ ts : List Token, ts.map Token.piece = ps ∧
      (unknownBlockFrom rounds depth kept).Gives j (kept ++ ts) tail placed := by
  generalize hfresh : false = fresh at h
  induction h generalizing depth j rounds kept with
  | nil => exact absurd hcloses id
  | @token fresh lead src ps p hlead hp _ more ih =>
    subst hfresh
    rw [kinds_token hlead hp, Closes] at hcloses
    rw [List.append_assoc, List.cons_append] at hholds
    obtain ⟨before, hfaces, hgap⟩ := faces_of_holds hholds hlead hp
    obtain ⟨n, rfl⟩ : ∃ n, rounds = n + 1 := ⟨rounds - 1, by have := hfaces.size; omega⟩
    have hread := read_unknownBlockFrom_token n depth kept (hfaces.kind_ne_eof hp)
    rw [hfaces.kind] at hread
    have hpieces : (tokensKept true j.view).map Token.piece = gapOf false lead ++ [p] := by
      rw [pieces_tokensKept hfaces, ← hgap]
      rfl
    have hoffsets' (hplaced : placed) := (Reaches.advance j).nodup_offsets (hoffsets hplaced)
    split at hread
    · next hzero =>
      rw [if_pos hzero] at hcloses
      cases more with
      | nil =>
        refine ⟨tokensKept true j.view, hpieces, .of_read hread ?_⟩
        exact .of_pieces hfaces.advance hoffsets'
      | token hlead' hp' _ _ =>
        rw [kinds_token hlead' hp'] at hcloses
        exact absurd hcloses (List.cons_ne_nil _ _)
    · next hpos =>
      rw [if_neg hpos] at hcloses
      obtain ⟨ts, hts, hgives⟩ := ih hcloses (holds_advance hfaces) hoffsets' n
        (by have := hfaces.size; omega) (kept ++ tokensKept true j.view) rfl
      refine ⟨tokensKept true j.view ++ ts, ?_, ?_⟩
      · rw [List.map_append, hpieces, hts, List.append_assoc, List.singleton_append]
      · rw [← List.append_assoc]
        exact hgives.congr hread

end Cssom.Grammar

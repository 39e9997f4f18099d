import Cssom.Proofs.Printing.Parts
import Cssom.Proofs.Reading.Termination
import Cssom.Rule.Grammar
import Mathlib.Data.List.Forall2

/-!
# Lists are read back

Rules in a block, rules of a style sheet and moments of an animation are read by loops of one
shape, which `itemsFrom` is; media, and functions that name documents, by loops of another,
`separatedFrom`. What holds of every item that is read holds of all items of a list
(`itemsFrom_yields`, `separatedFrom_yields`). Items that are read back one by one are read back
from what their prints make together, with blanks or with commas between them (`gives_itemsFrom`,
`gives_separatedFrom`).
-/

namespace Cssom.Grammar

open Production Token Input

variable {α : Type} {item : Production (Option α)} {stops : Kind → Bool} {i j : Input}

/-- Reads on in a list of items, one in each round, up to a token of a kind that stops it. -/
def itemsFrom (stops : Kind → Bool) (item : Production (Option α)) :
    Nat → List α → Production (List α)
  | 0, items => pure items
  | rounds + 1, items => do
    let view ← view
    if stops view.kind then pure items
    else
      let parsed ← item
      passIfStuck view.offset
      itemsFrom stops item rounds (items ++ parsed.toList)

/-- Whether a token of this kind ends the items of a block. -/
def endsItems (kind : Kind) : Bool :=
  kind == .closeCurly || kind == .eof

/-! ### The loops are of this shape -/

/-- The rules of a block are items. -/
theorem rulesFrom_eq (rule : Production (Option Rule)) (rounds : Nat) (rules : List Rule) :
    rulesFrom rule rounds rules = itemsFrom endsItems rule rounds rules := by
  induction rounds generalizing rules with
  | zero => rfl
  | succ rounds ih =>
    unfold rulesFrom itemsFrom
    simp only [ih]
    congr 1
    funext view
    rcases view.kind <;> rfl

/-- The moments of an animation are items. -/
theorem keyframesFrom_eq (ctx : Context) (rounds : Nat) (frames : List Keyframe) :
    keyframesFrom ctx rounds frames = itemsFrom endsItems (keyframe ctx) rounds frames := by
  induction rounds generalizing frames with
  | zero => rfl
  | succ rounds ih =>
    unfold keyframesFrom itemsFrom
    simp only [ih]
    congr 1
    funext view
    rcases view.kind <;> rfl

/-- The rules of a style sheet are items up to the end of the source. -/
theorem stylesheetFrom_eq (ctx : Context) (rounds : Nat) (rules : List Rule) :
    stylesheetFrom ctx rounds rules =
      Stylesheet.mk <$> itemsFrom (· == .eof) (rule ctx) rounds rules := by
  induction rounds generalizing rules with
  | zero => rfl
  | succ rounds ih =>
    unfold stylesheetFrom itemsFrom
    simp only [ih, map_bind]
    congr 1
    funext view
    rw [View.atEnd, View.kind]
    split <;> simp

/-! ### Reading a source -/

/-- What holds of each item that is read from a plain source holds of all items of a list. -/
theorem itemsFrom_yields {P : α → Prop}
    (hitem : ∀ i : Input, Plain i.pieces → item.Yields i fun result _ => ∀ a, result = some a → P a)
    (rounds : Nat) {items : List α} (hplain : Plain i.pieces) (hitems : ∀ a ∈ items, P a) :
    (itemsFrom stops item rounds items).Yields i fun items _ => ∀ a ∈ items, P a := by
  induction rounds generalizing items i with
  | zero => exact .pure hitems
  | succ rounds ih =>
    unfold itemsFrom
    apply Yields.view
    split
    · exact .pure hitems
    · apply Yields.bind (hitem i hplain)
      intro parsed rest hreach hparsed
      apply Yields.bind_any
      intro _ rest' hreach'
      apply ih ((hreach.trans hreach').plain hplain)
      intro a ha
      rcases List.mem_append.1 ha with ha | ha
      · exact hitems a ha
      · exact hparsed a (Option.mem_toList.1 ha)

/-! ### Reading a print -/

/-- Trivia, and then the pieces that an item was printed in. -/
def ItemAhead (p : Nat → Production (Option α)) (starts : Kind → Prop) (text : α → String)
    (placed : Prop) (a : α) (l : List Piece) : Prop :=
  ∃ lead ps, l = lead ++ ps ∧ AreTrivia lead ∧
    ReadsAs p starts (fun _ => True) (some a) (text a) ps placed

variable {p : Nat → Production (Option α)} {starts : Kind → Prop} {text : α → String}
  {placed : Prop}

/-- Items that are read back one by one are read back up to what stops the list. Where there are
any, the tokens must start at different bytes. -/
theorem gives_itemsFrom {bound : Nat} (hstarts : ∀ k, starts k → stops k = false ∧ k ≠ .eof)
    (hadvances : ∀ s : Parser, s.hasTokens = true → (p bound).Advances s) {as : List α}
    {ls : List (List Piece)} (h : List.Forall₂ (ItemAhead p starts text placed) as ls)
    (hplaced : as ≠ [] → placed) (rounds : Nat) (before : List α) {tail : List Piece}
    (hahead : j.Ahead (ls.flatten ++ tail) placed) (hend : stops (headKind tail) = true)
    (hsize : j.size ≤ rounds) (hbound : j.size < bound) :
    (itemsFrom stops (p bound) rounds before).Gives j (before ++ as) tail placed := by
  induction h generalizing rounds before j with
  | nil =>
    rw [List.append_nil]
    rcases rounds with _ | rounds
    · exact .pure hahead
    · unfold itemsFrom
      apply Gives.view
      rw [hahead.kind, List.flatten_nil, List.nil_append, hend, if_pos rfl]
      exact .pure hahead
  | @cons a l as ls ha _ ih =>
    obtain ⟨lead, ps, rfl, hlead, hps⟩ := ha
    rw [List.flatten_cons, List.append_assoc, List.append_assoc] at hahead
    have hahead := hahead.of_append hlead
    have hkind : j.view.kind = headKind ps := by rw [hahead.kind, hps.headKind_append]
    obtain ⟨hgoes, heof⟩ := hstarts _ hps.starts
    have htokens : (Parser.ofInput j false).hasTokens = true :=
      Parser.hasTokens_of_kind rfl fun h => heof (hkind.symm.trans h)
    have hround := hadvances _ htokens
    obtain ⟨n, rfl⟩ : ∃ n, rounds = n + 1 := by
      refine ⟨rounds - 1, ?_⟩
      have := size_read_lt hround
      omega
    unfold itemsFrom
    apply Gives.view
    rw [hkind, hgoes, if_neg Bool.false_ne_true]
    have hoffsets := hahead.offsets (hplaced (List.cons_ne_nil _ _))
    apply Gives.guarded hround hoffsets (hps.gives bound j _ hahead trivial hbound)
    intro rest _ hrest hlt
    have hnext := ih (fun _ => hplaced (List.cons_ne_nil _ _)) n (before ++ [a]) hrest (by omega)
      (by omega)
    rw [List.append_assoc, List.singleton_append] at hnext
    exact hnext

/-- The items between the braces of a block. -/
theorem itemAhead_blanks {as : List α} {pss : List (List Piece)}
    (h : List.Forall₂ (fun a ps => ReadsAs p starts (fun _ => True) (some a) (text a) ps placed)
      as pss) : List.Forall₂ (ItemAhead p starts text placed) as (pss.map (blank :: ·)) := by
  rw [List.forall₂_map_right_iff]
  exact h.imp fun a ps hps => ⟨[blank], ps, rfl, areTrivia_singleton rfl, hps⟩

/-- The items of a block are read back behind its opening brace, up to the closing one. -/
theorem gives_blockItems {bound : Nat} (hstarts : ∀ k, starts k → endsItems k = false)
    (hadvances : ∀ s : Parser, s.hasTokens = true → (p bound).Advances s) {as : List α}
    {pss : List (List Piece)}
    (h : List.Forall₂ (fun a ps => ReadsAs p starts (fun _ => True) (some a) (text a) ps placed)
      as pss) (hplaced : as ≠ [] → placed) {tail : List Piece}
    (hahead : j.Ahead (pss.flatMap (blank :: ·) ++ blank :: (.closeCurly, "\x7d") :: tail) placed)
    (hbound : j.size < bound) :
    (itemsFrom endsItems (p bound) j.size []).Gives j as ((.closeCurly, "\x7d") :: tail)
      placed := by
  have hgoes : ∀ k, starts k → endsItems k = false ∧ k ≠ .eof := by
    intro k hk
    refine ⟨hstarts k hk, ?_⟩
    rintro rfl
    exact absurd (hstarts _ hk) (by decide)
  rw [List.flatMap_def] at hahead
  have hitems := gives_itemsFrom hgoes hadvances (itemAhead_blanks h) hplaced j.size [] hahead rfl
    (Nat.le_refl _) hbound
  exact @Gives.of_append _ _ _ _ _ _ [blank] hitems (areTrivia_singleton rfl)

/-! ### Lists with commas -/

/-- Reads on in a list of items, one in each round, as long as commas follow. -/
def separatedFrom (item : Production (Option α)) : Nat → List α → Production (Option (List α))
  | 0, items => pure (some items)
  | rounds + 1, items => do
    match ← item with
    | none => pure none
    | some next =>
      let items := items ++ [next]
      if (← kind) = .comma then
        skip
        separatedFrom item rounds items
      else pure (some items)

/-- Media stand between commas. -/
theorem mediaFrom_eq (ctx : Context) (rounds : Nat) (media : List Medium) :
    mediaFrom ctx rounds media = separatedFrom (medium ctx) rounds media := by
  induction rounds generalizing media with
  | zero => rfl
  | succ rounds ih =>
    unfold mediaFrom separatedFrom
    simp only [ih]
    congr 1
    funext parsed
    rcases parsed with _ | next <;> rfl

/-- Functions that name documents stand between commas. -/
theorem documentFunctionsFrom_eq (rounds : Nat) (functions : List DocumentFunction) :
    documentFunctionsFrom rounds functions = separatedFrom documentFunction rounds functions := by
  induction rounds generalizing functions with
  | zero => rfl
  | succ rounds ih =>
    unfold documentFunctionsFrom separatedFrom
    simp only [ih]
    congr 1
    funext parsed
    rcases parsed with _ | next <;> rfl

/-- What holds of every item that is read from inputs of some form, which what is left of them has
too, holds of all items of a list, which is not empty if there was a round. -/
theorem separatedFrom_yields {P : α → Prop} {form : Input → Prop}
    (hform : ∀ i j : Input, i.Reaches j → form i → form j)
    (hitem : ∀ i : Input, form i → item.Yields i fun result _ => ∀ a, result = some a → P a)
    (rounds : Nat) {before : List α} (hi : form i) (hbefore : ∀ a ∈ before, P a) :
    (separatedFrom item rounds before).Yields i fun result _ => ∀ as, result = some as →
      (∀ a ∈ as, P a) ∧ (0 < rounds ∨ before ≠ [] → as ≠ []) := by
  induction rounds generalizing before i with
  | zero =>
    apply Yields.some
    exact ⟨hbefore, fun h => h.resolve_left (by simp)⟩
  | succ rounds ih =>
    unfold separatedFrom
    apply Yields.bind (hitem i hi)
    intro parsed rest hreach hparsed
    rcases parsed with _ | next
    · exact .none
    have hall : ∀ a ∈ before ++ [next], P a := by
      intro a ha
      rcases List.mem_append.1 ha with ha | ha
      · exact hbefore a ha
      · rw [List.mem_singleton.1 ha]
        exact hparsed next rfl
    have hne : before ++ [next] ≠ [] :=
      List.append_ne_nil_of_right_ne_nil _ (List.cons_ne_nil _ _)
    apply Yields.kind
    split
    · apply Yields.skip
      refine (ih (hform _ _ (hreach.trans (Reaches.advance rest)) hi) hall).mono ?_
      intro result _ hresult as has
      obtain ⟨hreads, hnonempty⟩ := hresult as has
      exact ⟨hreads, fun _ => hnonempty (Or.inr hne)⟩
    · apply Yields.some
      exact ⟨hall, fun _ => hne⟩

/-- Items that are read back one by one are read back with commas between them. -/
theorem gives_separatedFrom {follows : Kind → Prop} (hfollows : follows .comma) {as : List α}
    {pss : List (List Piece)}
    (h : List.Forall₂
      (fun a ps => ReadsAs (fun _ => item) starts follows (some a) (text a) ps placed) as pss)
    (hne : as ≠ []) (rounds : Nat) (before : List α) {tail : List Piece}
    (hahead : j.Ahead (commaSeparator.intercalate pss ++ tail) placed)
    (hend : follows (headKind tail)) (hcomma : headKind tail ≠ .comma) (hsize : j.size < rounds) :
    (separatedFrom item rounds before).Gives j (some (before ++ as)) tail placed := by
  induction h generalizing rounds before j with
  | nil => exact absurd rfl hne
  | @cons a ps as pss hps hmore ih =>
    obtain ⟨n, rfl⟩ : ∃ n, rounds = n + 1 := ⟨rounds - 1, by omega⟩
    unfold separatedFrom
    rcases hmore with _ | @⟨a', ps', as', pss', hnext, hmore⟩
    · rw [List.intercalate_singleton] at hahead
      apply Gives.bind (hps.gives (j.size + 1) _ _ hahead hend (Nat.lt_succ_self _))
      intro rest _ hrest
      apply Gives.kind
      rw [hrest.kind, if_neg hcomma]
      exact .pure hrest
    · have hpieces : commaSeparator.intercalate (ps :: ps' :: pss') ++ tail =
          ps ++ ((.comma, ",") :: blank :: (commaSeparator.intercalate (ps' :: pss') ++ tail)) := by
        rw [List.intercalate_cons_cons]
        simp [commaSeparator]
      rw [hpieces] at hahead
      apply Gives.bind (hps.gives (j.size + 1) _ _ hahead hfollows (Nat.lt_succ_self _))
      intro rest hreach hrest
      have hle := hreach.size_le
      have hlt := hrest.size rfl
      apply Gives.kind
      rw [hrest.kind, headKind_cons rfl, if_pos rfl]
      apply Gives.skip
      have hlater := ih (List.cons_ne_nil _ _) n (before ++ [a]) ((hrest.advance rfl).tail rfl)
        (by omega)
      rw [List.append_assoc, List.singleton_append] at hlater
      exact hlater

end Cssom.Grammar

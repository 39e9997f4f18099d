import Cssom.Proofs.Reading.CutParts

/-!
# Rules that end where an input is cut short

Where the reading of a rule stops at the cut, the short input is read to its end; that the rule is
the same there needs that reading it had to stop, whatever comes after. A production *completes*
when whatever it gives at the cut it gives on the short input too, having taken a token for it.
Blocks complete, since their closing brace is taken, and statements, since their semicolon is.
-/

namespace Cssom

open Production

variable {cut : List Lexeme} {m n : Nat} {α β : Type}

/-- What gives something and stops at the cut has taken a token, and gives the same on the short
input. -/
def Production.CompletesAt (cut : List Lexeme) (n : Nat) (p q : Production (Option α))
    (i : Input) : Prop :=
  (p.read i).rest.ahead = cut → (p.read i).result.isSome = true →
    cut.length < i.size ∧
    ∀ j : Input, i.CutAt cut j → j.size ≤ n → (q.read j).result = (p.read i).result

/-- A production completes on any two inputs of no more than so many tokens. -/
def Production.Completes (cut : List Lexeme) (m n : Nat) (p q : Production (Option α)) : Prop :=
  ∀ i : Input, i.size ≤ m → CompletesAt cut n p q i

namespace Production.Completes

variable {p q : Production (Option α)}

/-- What gives nothing completes. -/
theorem of_none (h : ∀ i, (p.read i).result = none) : Completes cut m n p q := by
  intro i _ _ hsome
  rw [h i] at hsome
  cases hsome

/-- After what follows on the short input, something completes if it does where that stops. -/
theorem bind_at {p q : Production β} {f g : β → Production (Option α)} (hp : Follows cut m n p q)
    (hf : ∀ i, i.size ≤ m →
      CompletesAt cut n (f (p.read i).result) (g (p.read i).result) (p.read i).rest) :
    Completes cut m n (p >>= f) (q >>= g) := by
  intro i hi hrest hsome
  rw [rest_read_bind] at hrest
  rw [result_read_bind] at hsome
  obtain ⟨hlt, hsame⟩ := hf i hi hrest hsome
  refine ⟨Nat.lt_of_lt_of_le hlt (p.size_read_le i), fun j hcut hj => ?_⟩
  obtain ⟨hresult, hreached⟩ := (hp i j hcut hi hj).within hlt
  rw [result_read_bind, result_read_bind, hresult]
  exact hsame _ hreached (Nat.le_trans (q.size_read_le j) hj)

/-- A step that follows, and then one that completes, complete. -/
theorem bind {p q : Production β} {f g : β → Production (Option α)} (hp : Follows cut m n p q)
    (hf : ∀ b, Completes cut m n (f b) (g b)) : Completes cut m n (p >>= f) (q >>= g) :=
  bind_at hp fun i hi => hf _ _ (Nat.le_trans (p.size_read_le i) hi)

/-- If both ways complete, so does the choice between them. -/
theorem ite {c : Prop} [Decidable c] {p' q' : Production (Option α)} (hp : Completes cut m n p q)
    (hp' : Completes cut m n p' q') :
    Completes cut m n (if c then p else p') (if c then q else q') := by
  split
  · exact hp
  · exact hp'

/-- What completes on some tokens completes on fewer. -/
theorem mono {m' n' : Nat} (h : Completes cut m n p q) (hm : m' ≤ m) (hn : n' ≤ n) :
    Completes cut m' n' p q := by
  intro i hi hrest hsome
  obtain ⟨hlt, hsame⟩ := h i (Nat.le_trans hi hm) hrest hsome
  exact ⟨hlt, fun j hcut hj => hsame j hcut (Nat.le_trans hj hn)⟩

/-- To look completes if what is done then does, whatever the short input shows behind the
cursor. -/
theorem seeing_at {f g : View → Production (Option α)} {i : Input}
    (h : ∀ next size, size ≤ n →
      CompletesAt cut size (f i.view) (g { i.view with next := next, size := size }) i) :
    CompletesAt cut n (Production.view >>= f) (Production.view >>= g) i := by
  intro hrest hsome
  have hlt : cut.length < i.size := (h i.next 0 (Nat.zero_le n) hrest hsome).1
  refine ⟨hlt, fun j hcut hj => ?_⟩
  have hsame := (h j.next j.size hj hrest hsome).2 j hcut (Nat.le_refl _)
  rw [← hcut.view_eq (hcut.lt_size_iff.1 hlt)] at hsame
  exact hsame

/-- To look completes on any two inputs if what is done then does. -/
theorem seeing {f g : View → Production (Option α)}
    (h : ∀ i : Input, i.size ≤ m → ∀ next size, size ≤ n →
      CompletesAt cut size (f i.view) (g { i.view with next := next, size := size }) i) :
    Completes cut m n (Production.view >>= f) (Production.view >>= g) :=
  fun i hi => seeing_at (h i hi)

/-- To look completes if what is done then completes on no more tokens than are seen. -/
theorem sized {f g : View → Production (Option α)}
    (h : ∀ v next size, v.size ≤ m → size ≤ n →
      Completes cut v.size size (f v) (g { v with next := next, size := size })) :
    Completes cut m n (Production.view >>= f) (Production.view >>= g) :=
  seeing fun i hi next size hn => h i.view next size hi hn i (Nat.le_refl _)

/-- To look completes if what follows does. -/
theorem view {f g : View → Production (Option α)}
    (h : ∀ v next size, Completes cut m n (f v) (g { v with next := next, size := size })) :
    Completes cut m n (Production.view >>= f) (Production.view >>= g) :=
  sized fun v next size hm hn => (h v next size).mono hm hn

/-- To move on completes if what follows does. -/
theorem skip {f g : Unit → Production (Option α)}
    (h : Completes cut (m - 1) (n - 1) (f ()) (g ())) :
    Completes cut m n (Production.skip >>= f) (Production.skip >>= g) := by
  intro i hi hrest hsome
  obtain ⟨hlt, hsame⟩ := h i.advance (Nat.sub_le_sub_right hi 1) hrest hsome
  have hbefore : cut.length < i.size := Nat.lt_of_lt_of_le hlt (Nat.sub_le _ _)
  refine ⟨hbefore, fun j hcut hj => ?_⟩
  exact hsame j.advance (hcut.advance (hcut.lt_size_iff.1 hbefore)) (Nat.sub_le_sub_right hj 1)

/-- The last token before the cut. -/
theorem last (hcut : cut ≠ []) (given : Option α) :
    Completes cut m n (Production.skip >>= fun _ => pure given)
      (Production.skip >>= fun _ => pure given) := by
  intro i _ hrest _
  have hpos : 0 < cut.length := List.length_pos_iff.2 hcut
  have htail : i.ahead.tail = cut := hrest
  rw [← htail, List.length_tail, ← i.size_eq] at hpos ⊢
  exact ⟨by omega, fun j _ _ => rfl⟩

/-- A loop that is given as many rounds as there are tokens. -/
theorem rounds (hcut : cut ≠ []) {f : Nat → β → Production (Option α)}
    (step : ∀ k l, (∀ acc, Completes cut k l (f k acc) (f l acc)) →
      ∀ acc, Completes cut (k + 1) (l + 1) (f (k + 1) acc) (f (l + 1) acc)) (acc : β) :
    Completes cut m n (f m acc) (f n acc) := by
  induction m generalizing n acc with
  | zero =>
    intro i hi hrest _
    have hnone := i.size_eq_zero_iff.1 (Nat.le_zero.1 hi)
    exact absurd (hrest.symm.trans (ahead_read_of_nil _ hnone)) hcut
  | succ m ih =>
    cases n with
    | zero =>
      intro i hi hrest hsome
      have hlt := (step m 0 (fun acc => ih acc) acc i hi hrest hsome).1
      refine ⟨hlt, fun j hij hj => ?_⟩
      exact absurd (j.size_eq_zero_iff.1 (Nat.le_zero.1 hj)) (hij.lt_size_iff.1 hlt)
    | succ n => exact step m n (fun acc => ih acc) acc

/-- What is made of a result without reading on. -/
theorem made {p q : Production (Option β)} {f : Option β → Production (Option α)}
    (h : Completes cut m n p q) (hnone : f none = pure none)
    (hsome : ∀ b, ∃ made, f (some b) = pure made) : Completes cut m n (p >>= f) (q >>= f) := by
  have hmade (b? : Option β) : ∃ made, f b? = pure made := by
    cases b? with
    | none => exact ⟨none, hnone⟩
    | some b => exact hsome b
  intro i hi hrest hresult
  obtain ⟨made, hf⟩ := hmade (p.read i).result
  rw [rest_read_bind, hf, read_pure] at hrest
  have hgiven : (p.read i).result.isSome = true := by
    cases hp : (p.read i).result with
    | none =>
      rw [result_read_bind, hp, hnone] at hresult
      exact hresult
    | some b => rfl
  obtain ⟨hlt, hsame⟩ := h i hi hrest hgiven
  refine ⟨hlt, fun j hcut hj => ?_⟩
  rw [result_read_bind, result_read_bind, hsame j hcut hj, hf]
  rfl

end Production.Completes

namespace Grammar

open Production.Completes

variable {ctx : Context}

/-! ### Blocks -/

/-- Where a loop runs in rounds it stops at what stops it. -/
theorem stops_of_runs {loop : Loop} {p : Production α}
    (h : ∀ s, loop.Runs ctx s (p.run s).2) (i : Input) :
    loop.stops (p.read i).rest.view.kind = true := by
  have hstops := (h (.ofInput i false)).stops
  rwa [Parser.view, run_rest] at hstops

/-- Reading the brace that closes a block, where there is one or the source ends. -/
theorem completesAt_closing (hcut : cut ≠ []) (a : α) {i : Input}
    (h : i.view.kind = .closeCurly ∨ i.view.kind = .eof) :
    CompletesAt cut n (do blockClosing; pure (some a)) (do blockClosing; pure (some a)) i := by
  intro hrest _
  refine ⟨?_, fun j _ _ => by simp only [result_read_bind, read_pure]⟩
  simp only [rest_read_bind, read_pure, blockClosing, read_skipIf] at hrest
  rcases h with hclose | hend
  · rw [if_pos hclose, Input.ahead_advance] at hrest
    have hpos : 0 < cut.length := List.length_pos_iff.2 hcut
    rw [← hrest, List.length_tail, ← i.size_eq] at hpos ⊢
    omega
  · rw [if_neg (by rw [hend]; decide)] at hrest
    exact absurd (hrest.symm.trans (i.kind_view_eq_eof_iff.1 hend)) hcut

/-- What goes up to a closing brace or the end of the source, and the brace after it. -/
theorem completes_block (hcut : cut ≠ []) {p q : Production β} (hp : Follows cut m n p q)
    (hstops : ∀ i, (p.read i).rest.view.kind = .closeCurly ∨ (p.read i).rest.view.kind = .eof)
    (make : β → α) :
    Completes cut m n (do let b ← p; blockClosing; pure (some (make b)))
      (do let b ← q; blockClosing; pure (some (make b))) :=
  bind_at hp fun i _ => completesAt_closing hcut _ (hstops i)

/-- A block of declarations completes. -/
theorem completes_declarationBlock (hcut : cut ≠ []) (set : BlockKind) :
    Completes cut m n (declarationBlock ctx set) (declarationBlock ctx set) := by
  refine .bind follows_blockOpening fun opened => .ite ?_ (.of_none fun _ => rfl)
  refine completes_block hcut (follows_declarations set .empty) (fun i => ?_) id
  have hstops := stops_of_runs (Loop.declarations_runs ctx set .empty) i
  simpa [Loop.stops] using hstops

/-- The rules of a block complete with their closing brace. -/
theorem completes_rulesBlock (hcut : cut ≠ []) (make : List Rule → α) :
    Completes cut m n (do let rules ← rulesOf (rule ctx); blockClosing; pure (some (make rules)))
      (do let rules ← rulesOf (rule ctx); blockClosing; pure (some (make rules))) := by
  refine completes_block hcut (follows_rulesOf (follows_rule ctx cut m n)) (fun i => ?_) make
  have hstops := stops_of_runs (Loop.rules_runs ctx) i
  simpa [Loop.stops] using hstops

/-- A block of rules completes. -/
theorem completes_ruleBlock (hcut : cut ≠ []) :
    Completes cut m n (ruleBlock (rule ctx)) (ruleBlock (rule ctx)) :=
  .bind follows_blockOpening fun _ => .ite (completes_rulesBlock hcut id) (.of_none fun _ => rfl)

/-! ### Rules of declarations -/

/-- A block of declarations completes, whether what stood before it was valid or not. -/
theorem completes_checkedBlock {α : Type} (hcut : cut ≠ []) (valid : Bool) (cause : Cause)
    (position : Position) (make : Block → α) :
    Completes cut m n (checkedBlock ctx valid cause position make)
      (checkedBlock ctx valid cause position make) := by
  have hblock {m n : Nat} : Completes cut m n (blockIf ctx valid make) (blockIf ctx valid make) :=
    .made (completes_declarationBlock hcut _) rfl fun _ => ⟨_, rfl⟩
  exact .ite (.bind (.complainAt _ _) fun _ => hblock) hblock

/-- A style rule completes. -/
theorem completes_styleRule (hcut : cut ≠ []) :
    Completes cut m n (styleRule ctx) (styleRule ctx) := by
  rw [styleRule_eq]
  exact .view fun _ _ _ => .bind follows_selectorList fun _ => completes_checkedBlock hcut _ _ _ _

/-- A rule that is a block of declarations completes. -/
theorem completes_blockRule (hcut : cut ≠ []) (set : BlockKind) (make : Block → Rule) :
    Completes cut m n (blockRule ctx set make) (blockRule ctx set make) :=
  .made (completes_declarationBlock hcut _) rfl fun _ => ⟨_, rfl⟩

/-- A page rule completes. -/
theorem completes_pageRule (hcut : cut ≠ []) :
    Completes cut m n (pageRule ctx) (pageRule ctx) :=
  .sized fun _ _ _ _ _ => .bind (follows_pageSelectorFrom "") fun _ => completes_blockRule hcut _ _

/-! ### Statements -/

/-- A statement stops behind its semicolon or at the end. -/
theorem moves_passStatement (i : Input) :
    (passStatement.read i).rest.ahead = [] ∨ (passStatement.read i).rest.size < i.size := by
  rcases Nat.eq_zero_or_pos i.size with hnone | hpos
  · exact Or.inl (passStatement.ahead_read_of_nil (i.size_eq_zero_iff.1 hnone))
  · right
    have hkind : i.view.kind ≠ .eof := by
      rw [ne_eq, i.kind_view_eq_eof_iff, ← i.size_eq_zero_iff]
      omega
    have hview : i.view.atEnd = false := beq_false_of_ne hkind
    have hreach : i.advance.Reaches (passStatement.read i).rest := by
      obtain ⟨k, hk⟩ : ∃ k, i.size = k + 1 := ⟨i.size - 1, by omega⟩
      rw [passStatement, rest_read_bind, read_view]
      change i.advance.Reaches ((passStatementFrom i.size).read i).rest
      rw [hk, passStatementFrom, rest_read_bind, read_view, hview]
      exact read_reaches _ i.advance
    exact Nat.lt_of_le_of_lt hreach.size_le (Nat.sub_lt hpos Nat.one_pos)

/-- What is read through a semicolon completes. -/
theorem completes_passStatement (hcut : cut ≠ []) (a : α) :
    Completes cut m n (do passStatement; pure (some a)) (do passStatement; pure (some a)) := by
  intro i _ hrest _
  simp only [rest_read_bind, read_pure] at hrest
  refine ⟨?_, fun j _ _ => by simp only [result_read_bind, read_pure]⟩
  rcases moves_passStatement i with hend | hlt
  · exact absurd (hrest.symm.trans hend) hcut
  · rwa [Input.size_eq, hrest] at hlt

/-- A statement that is passed over completes. -/
theorem completes_abandonStatement :
    Completes cut m n abandonStatement abandonStatement :=
  .of_none fun i => by simp only [abandonStatement, result_read_bind, read_pure]

/-- An import completes. -/
theorem completes_importStatement (hcut : cut ≠ []) :
    Completes cut m n (importStatement ctx) (importStatement ctx) := by
  refine .bind follows_location fun href => ?_
  split
  · exact completes_abandonStatement
  · exact .bind follows_importMedia fun _ => completes_passStatement hcut _

/-- An encoding completes. -/
theorem completes_charsetStatement (hcut : cut ≠ []) :
    Completes cut m n charsetStatement charsetStatement :=
  .view fun _ _ _ => .ite (.skip (completes_passStatement hcut _)) completes_abandonStatement

/-- A namespace completes. -/
theorem completes_namespaceStatement (hcut : cut ≠ []) :
    Completes cut m n namespaceStatement namespaceStatement := by
  rw [namespaceStatement_eq]
  refine .bind follows_namespaceLabel fun label => .bind follows_location fun uri => ?_
  split
  · exact completes_abandonStatement
  · exact completes_passStatement hcut _

/-! ### Groups and animations -/

/-- An animation completes. -/
theorem completes_keyframesRule (hcut : cut ≠ []) :
    Completes cut m n (keyframesRule ctx) (keyframesRule ctx) := by
  refine .bind follows_animationName fun name => ?_
  split
  · exact .of_none fun i => by simp only [result_read_bind, read_pure]
  refine .bind follows_blockOpening fun _ => .ite ?_ (.of_none fun _ => rfl)
  refine completes_block hcut follows_keyframes (fun i => ?_) _
  have hstops := stops_of_runs (Loop.keyframes_runs ctx) i
  simpa [Loop.stops] using hstops

/-- A rule with a condition completes. -/
theorem completes_supportsRule (hcut : cut ≠ []) :
    Completes cut m n (supportsRule ctx (rule ctx)) (supportsRule ctx (rule ctx)) := by
  refine .bind follows_supportsCondition fun condition => ?_
  split
  · exact .of_none fun i => by simp only [result_read_bind, read_pure]
  · exact .made (completes_ruleBlock hcut) rfl fun _ => ⟨_, rfl⟩

/-- A rule for documents completes. -/
theorem completes_documentRule (hcut : cut ≠ []) :
    Completes cut m n (documentRule (rule ctx)) (documentRule (rule ctx)) := by
  refine .sized fun v _ _ _ _ => .bind (follows_documentFunctionsFrom _) fun functions => ?_
  split
  · exact .of_none fun i => by simp only [result_read_bind, read_pure]
  · exact .made (completes_ruleBlock hcut) rfl fun _ => ⟨_, rfl⟩

/-- A media list before a block that is not read up to the block becomes `not all`. -/
theorem unreadable_of_kind_ne {i : Input}
    (h : ((mediaPrelude ctx).read i).rest.view.kind ≠ .openCurly) :
    ((mediaPrelude ctx).read i).result = .unreadable := by
  rw [mediaPrelude, rest_read_bind, read_kind] at h
  rw [mediaPrelude, result_read_bind, read_kind]
  split at h
  · next hopen => exact absurd hopen h
  next hopen =>
  rw [if_neg hopen]
  simp only [mediaList, read_enclosed, rest_read_bind, result_read_bind, read_view] at h ⊢
  split at h
  · next hmedia =>
    by_cases hk : ((mediaFrom ctx (i.view.size + 1) []).read i).rest.view.kind = .openCurly
    · exact absurd hk h
    · exact absurd (hmedia.symm.trans (if_neg hk)) nofun
  · simp only [result_read_bind, read_pure]

/-- A block for media completes where its brace is under the cursor. -/
theorem completesAt_mediaBlock (hcut : cut ≠ []) (media : MediaList) {i : Input}
    (h : i.view.kind = .openCurly) : CompletesAt cut n (mediaBlock (rule ctx) media)
      (mediaBlock (rule ctx) media) i := by
  let block : Production (Option Rule) := do
    skip
    let rules ← rulesOf (rule ctx)
    blockClosing
    pure (some (.media media rules))
  have hblock : Completes cut i.size n block block := .skip (completes_rulesBlock hcut _)
  have hopen {j : Input} (hj : j.view.kind = .openCurly) :
      (mediaBlock (rule ctx) media).read j = block.read j := by
    rw [mediaBlock, read_bind, read_view]
    simp only [hj, List.nil_append, block]
  intro hrest hsome
  rw [hopen h] at hrest hsome ⊢
  obtain ⟨hlt, hsame⟩ := hblock i (Nat.le_refl _) hrest hsome
  refine ⟨hlt, fun j hij hj => ?_⟩
  rw [hopen ((hij.kind_eq (hij.lt_size_iff.1 hlt)).trans h)]
  exact hsame j hij hj

/-- Without a block, the rule is empty, unless there is a semicolon in its place. -/
theorem result_mediaBlock {rule : Production (Option Rule)} (media : MediaList) {i : Input}
    (h : i.view.kind ≠ .openCurly) : ((mediaBlock rule media).read i).result =
      if i.view.kind = .semicolon then none else some (.media media []) := by
  rw [mediaBlock, result_read_bind, read_view]
  split
  · next hopen => exact absurd hopen h
  · next hsemicolon => simp only [result_read_bind, read_pure, hsemicolon, if_true]
  · next hsemicolon =>
    have hne : i.view.kind ≠ .semicolon := hsemicolon
    simp only [result_read_bind, read_pure, hne, if_false]

/-- A rule for some media gives the same on the short input, even where nothing but the media were
read: its block is not looked for beyond a closing brace. -/
theorem result_mediaRule (hcut : cut ≠ []) {i j : Input} (h : i.CutAt cut j)
    (hrest : ((mediaRule ctx (rule ctx)).read i).rest.ahead = cut)
    (hsome : ((mediaRule ctx (rule ctx)).read i).result.isSome = true) :
    ((mediaRule ctx (rule ctx)).read j).result = ((mediaRule ctx (rule ctx)).read i).result := by
  rw [mediaRule, rest_read_bind] at hrest
  rw [mediaRule, result_read_bind] at hsome
  rw [mediaRule, result_read_bind, result_read_bind]
  have hfollows : ((mediaPrelude ctx).read i).Follows cut ((mediaPrelude ctx).read j) :=
    follows_mediaPrelude i j h (Nat.le_refl _) (Nat.le_refl _)
  by_cases hopen : ((mediaPrelude ctx).read i).rest.view.kind = .openCurly
  · obtain ⟨hlt, hsame⟩ := completesAt_mediaBlock hcut _ hopen hrest hsome
    obtain ⟨hresult, hreached⟩ := hfollows.within hlt
    rw [hresult]
    exact hsame _ hreached (Nat.le_refl _)
  have hmedia := unreadable_of_kind_ne hopen
  rw [result_mediaBlock _ hopen] at hsome ⊢
  rcases Nat.lt_or_ge cut.length ((mediaPrelude ctx).read i).rest.size with hlt | hge
  · obtain ⟨hresult, hreached⟩ := hfollows.within hlt
    have hkind := hreached.kind_eq (hreached.lt_size_iff.1 hlt)
    rw [result_mediaBlock _ (hkind ▸ hopen), hresult, hkind]
  · -- The short input ends behind the media.
    have hend := ((mediaPrelude ctx).read j).rest.kind_view_eq_eof_iff.2 (hfollows.beyond hge)
    have hnone : ((mediaPrelude ctx).read j).rest.view.kind ≠ .openCurly := by
      rw [hend]
      decide
    split at hsome
    · cases hsome
    next hsemicolon =>
    rw [result_mediaBlock _ hnone, unreadable_of_kind_ne hnone, hmedia, if_neg hsemicolon, hend]
    rfl

/-! ### Rules of unknown names -/

/-- What stands before the block of an unknown rule goes on up to what ends it. -/
theorem ends_unknownPreambleFrom (rounds : Nat) (kept : List Token) (i : Input)
    (h : i.size ≤ rounds) :
    endsUnknownPreamble ((unknownPreambleFrom rounds kept).read i).rest.view.kind = true := by
  induction rounds generalizing kept i with
  | zero =>
    have hend := i.kind_view_eq_eof_iff.2 (i.size_eq_zero_iff.1 (Nat.le_zero.1 h))
    change endsUnknownPreamble i.view.kind = true
    rw [hend]
    rfl
  | succ rounds ih =>
    rw [unknownPreambleFrom, rest_read_bind, read_view]
    split
    · next hends => exact hends
    · exact ih _ i.advance (Nat.sub_le_of_le_add h)

/-- The block of an unknown rule ends with the brace that closes it or the end of the source. -/
theorem completes_unknownBlockFrom (hcut : cut ≠ []) (depth : Nat) (kept : List Token)
    (make : List Token → α) :
    Completes cut m n (do pure (some (make (← unknownBlockFrom m depth kept))))
      (do pure (some (make (← unknownBlockFrom n depth kept)))) := by
  let made (k : Nat) (state : Nat × List Token) : Production (Option α) := do
    pure (some (make (← unknownBlockFrom k state.1 state.2)))
  refine rounds hcut (f := made) (fun k l ih state => ?_) (depth, kept)
  simp only [made, unknownBlockFrom, LawfulMonad.bind_assoc]
  refine .seeing fun i hi next size hn => ?_
  rcases hend : i.view.atEnd
  · simp only [View.atEnd_with, View.kind_with, hend, Bool.false_eq_true, if_false, keepToken,
      LawfulMonad.bind_assoc, LawfulMonad.pure_bind]
    refine Completes.view (fun v _ _ => ?_) i hi
    by_cases hdepth : bracesAfter state.1 i.view.kind = 0
    · simp only [hdepth, if_true]
      exact .last hcut _
    · simp only [hdepth, if_false]
      exact .skip ((ih (_, _)).mono (Nat.le_refl _) (Nat.sub_le_of_le_add hn))
  · simp only [View.atEnd_with, hend, if_true]
    intro hrest
    have hnone := i.kind_view_eq_eof_iff.1 (eq_of_beq hend)
    exact absurd (hrest.symm.trans hnone) hcut

/-- The block of an unknown rule completes where what stands before it ends. -/
theorem completesAt_unknownBlock (hcut : cut ≠ []) (make : Option (List Token) → α) {i : Input}
    (h : endsUnknownPreamble i.view.kind = true) :
    CompletesAt cut n (do pure (some (make (← unknownBlock))))
      (do pure (some (make (← unknownBlock)))) i := by
  simp only [unknownBlock, LawfulMonad.bind_assoc]
  refine seeing_at fun next size hn => ?_
  have hkind : i.view.kind = .openCurly ∨ i.view.kind = .semicolon ∨ i.view.kind = .eof := by
    simpa [endsUnknownPreamble, or_assoc] using h
  rcases hkind with hk | hk | hk
  · simp only [View.kind_with, hk, LawfulMonad.bind_assoc, LawfulMonad.pure_bind]
    have hblock := completes_unknownBlockFrom (m := i.size) (n := size) hcut 1 []
      fun kept => make (some kept)
    exact Completes.skip (hblock.mono (Nat.sub_le _ _) (Nat.sub_le _ _)) i (Nat.le_refl _)
  · simp only [View.kind_with, hk, LawfulMonad.bind_assoc, LawfulMonad.pure_bind]
    exact Completes.last hcut _ i (Nat.le_refl _)
  · intro hrest
    exact absurd (hrest.symm.trans (ahead_read_of_nil _ (i.kind_view_eq_eof_iff.1 hk))) hcut

/-- An unknown rule completes. -/
theorem completes_unknownRule (hcut : cut ≠ []) (name : String) (position : Position) :
    Completes cut m n (unknownRule ctx name position) (unknownRule ctx name position) := by
  refine .ite (.sized fun v _ _ _ _ => ?_)
    (.of_none fun i => by simp only [result_read_bind, read_pure])
  refine bind_at (follows_unknownPreambleFrom []) fun i hi => ?_
  exact completesAt_unknownBlock hcut _ (ends_unknownPreambleFrom _ _ _ hi)

/-! ### Rules -/

/-- An at-rule that stops at the cut is the same on the short input. -/
theorem result_atRule (hcut : cut ≠ []) {i j : Input} (h : i.CutAt cut j) (hj : j.ahead ≠ [])
    (hrest : ((atRule ctx (rule ctx)).read i).rest.ahead = cut)
    (hsome : ((atRule ctx (rule ctx)).read i).result.isSome = true) :
    ((atRule ctx (rule ctx)).read j).result = ((atRule ctx (rule ctx)).read i).result := by
  have htoken : j.view.token = i.view.token := by rw [h.view_eq hj]
  rw [atRule, rest_read_bind, read_take] at hrest
  rw [atRule, result_read_bind, read_take] at hsome
  rw [atRule, result_read_bind, result_read_bind, read_take, read_take, htoken]
  have hbody {p : Production (Option Rule)} (hp : Completes cut i.advance.size j.advance.size p p)
      (hrest : (p.read i.advance).rest.ahead = cut)
      (hsome : (p.read i.advance).result.isSome = true) :
      (p.read j.advance).result = (p.read i.advance).result :=
    (hp _ (Nat.le_refl _) hrest hsome).2 _ (h.advance hj) (Nat.le_refl _)
  dsimp only at hrest hsome ⊢
  cases hkeyword : AtKeyword.ofName i.view.token.name <;> rw [hkeyword] at hrest hsome
  case media => exact result_mediaRule hcut (h.advance hj) hrest hsome
  case fontFace => exact hbody (completes_blockRule hcut _ _) hrest hsome
  case keyframes => exact hbody (completes_keyframesRule hcut) hrest hsome
  case importRule => exact hbody (completes_importStatement hcut) hrest hsome
  case charset => exact hbody (completes_charsetStatement hcut) hrest hsome
  case namespaceRule => exact hbody (completes_namespaceStatement hcut) hrest hsome
  case page => exact hbody (completes_pageRule hcut) hrest hsome
  case supports => exact hbody (completes_supportsRule hcut) hrest hsome
  case viewport => exact hbody (completes_blockRule hcut _ _) hrest hsome
  case document => exact hbody (completes_documentRule hcut) hrest hsome
  case unknown => exact hbody (completes_unknownRule hcut _ _) hrest hsome

/-- A rule that is passed over gives nothing. -/
theorem result_abandonRule (cause : String → Cause) (i : Input) :
    ((abandonRule cause).read i).result = none := by
  simp only [abandonRule, result_read_bind, read_pure]

/-- Where reading a rule stops at the cut, and something comes after, the short input holds just
the rule. -/
theorem result_rule (ctx : Context) (hcut : cut ≠ []) {i j : Input} (h : i.CutAt cut j)
    {r : Rule} (hrest : ((rule ctx).read i).rest.ahead = cut)
    (hresult : ((rule ctx).read i).result = some r) :
    ((rule ctx).read j).result = some r ∧ ((rule ctx).read j).rest.ahead = [] := by
  have hsize : ((rule ctx).read i).rest.size = cut.length := by rw [Input.size_eq, hrest]
  have hfollows := follows_rule ctx cut _ _ i j h (Nat.le_refl _) (Nat.le_refl _)
  refine ⟨?_, hfollows.beyond (Nat.le_of_eq hsize)⟩
  have hi : i.view.kind ≠ .eof := by
    intro heof
    rw [read_rule, heof] at hresult
    cases hresult
  have hj : j.ahead ≠ [] := by
    have hadvances : (rule ctx).Advances (.ofInput i false) :=
      advances_rule (hasTokens_of_kind_ne hi)
    have hlt := size_read_lt hadvances
    rw [hsize] at hlt
    exact h.lt_size_iff.1 hlt
  have hsome : ((rule ctx).read i).result.isSome = true := by rw [hresult]; rfl
  rw [read_rule] at hrest hsome
  rw [← hresult, read_rule, read_rule, h.kind_eq hj]
  generalize i.view.kind = k at hrest hsome ⊢
  revert hrest hsome
  unfold ruleStarting
  split <;> intro hrest hsome
  · rfl
  · exact result_atRule hcut h hj hrest hsome
  all_goals first
    | rw [result_abandonRule, result_abandonRule]
    | exact (completes_styleRule hcut i (Nat.le_refl _) hrest hsome).2 j h (Nat.le_refl _)

end Grammar

end Cssom

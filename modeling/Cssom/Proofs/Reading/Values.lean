import Cssom.Proofs.Printing.Value
import Cssom.Proofs.Recovery.Brackets
import Cssom.Proofs.Recovery.Kept

/-!
# What values are

A value is read on up to a token that ends it or to the end of the source, whatever it holds and
whether it is accepted or not (`value_ends`). So none stops before a word.

A value is accepted just if its tokens nest properly (`NestsBefore`) and at most a mark of
importance follows them: `value_sound` says that what was accepted does, and `value_complete` that
what does is accepted, both with the text that is read. In parentheses, without a mark, `NestsUnder`
says how values nest.
-/

namespace Cssom

open Production Token

/-! ### Tokens as they are seen -/

/-- A token, with the spacing before it. -/
abbrev Seen := Token × Spacing

namespace Input

variable {i : Input} {t : Token} {s : Spacing} {more : List Seen}

/-- The significant tokens from the cursor on, each with the spacing before it. -/
def seen (input : Input) : List Seen :=
  input.ahead.map fun lexeme => (lexeme.token, lexeme.spacing)

/-- As many tokens are seen as are ahead. -/
theorem length_seen (input : Input) : input.seen.length = input.size := by
  rw [seen, List.length_map, input.size_eq]

/-- The first of what is seen is under the cursor, and the rest is seen behind it. -/
theorem view_of_seen (h : i.seen = (t, s) :: more) :
    i.view.token = t ∧ i.view.spacing = s ∧ i.advance.seen = more := by
  obtain ⟨lexeme, rest, hahead, hhead, hrest⟩ := List.map_eq_cons_iff.1 h
  obtain ⟨rfl, rfl⟩ := Prod.mk.inj hhead
  refine ⟨?_, ?_, ?_⟩
  · rw [view, current, hahead]
  · rw [view, spacing, hahead]
  · rw [seen, ahead_advance, hahead, List.tail_cons, hrest]

/-- The kind of the first is the kind under the cursor. -/
theorem kind_of_seen {seen : Seen} (h : i.seen = seen :: more) : i.view.kind = seen.1.kind :=
  congrArg Token.kind (view_of_seen h).1

/-- Nothing is seen just where the end is under the cursor. -/
theorem seen_eq_nil_iff : i.seen = [] ↔ i.view.kind = .eof := by
  rw [seen, List.map_eq_nil_iff, i.kind_view_eq_eof_iff]

/-- Where something is seen the end is not under the cursor. -/
theorem kind_ne_eof_of_seen {seen : Seen} (h : i.seen = seen :: more) : i.view.kind ≠ .eof := by
  rw [Ne, ← seen_eq_nil_iff, h]
  exact List.cons_ne_nil _ _

/-- Where the end is not under the cursor, what is there is seen first. -/
theorem seen_eq_cons (h : i.view.kind ≠ .eof) :
    i.seen = (i.view.token, i.view.spacing) :: i.advance.seen := by
  rcases hseen : i.seen with _ | ⟨⟨t, s⟩, more⟩
  · exact absurd (seen_eq_nil_iff.1 hseen) h
  · obtain ⟨rfl, rfl, rfl⟩ := view_of_seen hseen
    rfl

/-- Where tokens have texts all that is seen has. -/
theorem Worded.seen_ne (h : i.Worded) : ∀ seen ∈ i.seen, seen.1.text ≠ "" := by
  intro seen hmem
  obtain ⟨lexeme, hlexeme, rfl⟩ := List.mem_map.1 hmem
  exact h lexeme hlexeme

end Input

/-- A token is at most one of two words that differ. -/
theorem Token.isWord_eq_false {token : Token} {a b : String} (h : token.isWord a = true)
    (hne : Text.lower a ≠ Text.lower b) : token.isWord b = false := by
  rw [isWord, Bool.and_eq_true, Text.sameLetters, beq_iff_eq, beq_iff_eq] at h
  rw [isWord, h.1, Text.sameLetters, h.2]
  exact beq_eq_false_iff_ne.2 hne

/-! ### Tokens that nest -/

/-- The tokens of a value in parentheses, where these brackets are open: all of them are closed, no
others are, and outside of brackets nothing ends the value or starts a mark of importance. There is
no unfinished string and no spoiled address. -/
inductive NestsUnder : List Kind → List Seen → Prop
  | done : NestsUnder [] []
  | token {opened opened' : List Kind} {t : Token} {s : Spacing} {rest : List Seen}
      (finished : t.kind ≠ .badString ∧ t.kind ≠ .badUrl)
      (outside : opened = [] →
        t.kind ∉ [.closeParen, .openCurly, .closeCurly, .semicolon] ∧ t.isMark '!' = false)
      (step : Grammar.openAfter opened t.kind = some opened') (more : NestsUnder opened' rest) :
      NestsUnder opened ((t, s) :: rest)

/-- The tokens of a value that tokens of some kinds end, where these brackets are open: as in
parentheses, but with these kinds in place of those that end a value there. -/
inductive NestsBefore (T : List Kind) : List Kind → List Seen → Prop
  | done : NestsBefore T [] []
  | token {opened opened' : List Kind} {t : Token} {s : Spacing} {rest : List Seen}
      (finished : t.kind ≠ .badString ∧ t.kind ≠ .badUrl)
      (outside : opened = [] → t.kind ∉ T ∧ t.isMark '!' = false)
      (step : Grammar.openAfter opened t.kind = some opened') (more : NestsBefore T opened' rest) :
      NestsBefore T opened ((t, s) :: rest)

/-- Values nest in parentheses as they do before what ends them there. -/
theorem nestsUnder_iff {opened : List Kind} {v : List Seen} :
    NestsUnder opened v ↔ NestsBefore Grammar.parenthesizedEnd opened v := by
  constructor <;> intro h
  · induction h with
    | done => exact .done
    | token finished outside step _ ih => exact .token finished outside step ih
  · induction h with
    | done => exact .done
    | token finished outside step _ ih => exact .token finished outside step ih

/-- The tokens of a mark of importance, or none where there is no mark. -/
inductive IsMark : Bool → List Seen → Prop
  | absent : IsMark false []
  | present {bang word : Seen} (hbang : bang.1.isMark '!' = true)
      (hword : word.1.isWord "important" = true) : IsMark true [bang, word]

/-- A text and one more token, after a blank if there was any trivia before that and the text is not
empty. -/
def addToken (text : String) (seen : Seen) : String :=
  text ++ (if seen.2.isOpen && !text.isEmpty then " " else "") ++ seen.1.text

/-- The text of a value. -/
def textOf (v : List Seen) : String :=
  v.foldl addToken ""

namespace Grammar

variable {T : List Kind} {r : ValueReading} {i : Input}

/-! ### Where values stop -/

/-- What starts by moving on leaves fewer tokens. -/
theorem size_of_skip {α : Type} {f : Unit → Production α} {rounds : Nat}
    (hsize : i.size ≤ rounds + 1) : (skip >>= f).Yields i fun _ rest => rest.size ≤ rounds := by
  apply Yields.skip
  have hle := ((f ()).read_reaches i.advance).size_le
  have hadvance : i.advance.size = i.size - 1 := rfl
  show ((f ()).read i.advance).rest.size ≤ rounds
  omega

/-- A value is read on as long as tokens are ahead, up to one that ends it. -/
theorem valueFrom_stops (rounds : Nat) (hsize : i.size ≤ rounds) :
    (valueFrom T rounds r).Yields i fun final rest => stopsValue T final rest.view = true := by
  induction rounds generalizing i r with
  | zero =>
    have hahead : i.ahead = [] := i.size_eq_zero_iff.1 (Nat.le_zero.1 hsize)
    exact stopsValue_of_eof (i.kind_view_eq_eof_iff.2 hahead)
  | succ rounds ih =>
    unfold valueFrom
    apply Yields.view
    simp only
    split
    · next hstop => exact .pure hstop
    split
    · refine .bind (Q := fun _ rest => rest.size ≤ rounds) ?_ fun _ _ _ hle => ih hle
      exact size_of_skip hsize
    · refine .bind (Q := fun _ rest => rest.size ≤ rounds) ?_ fun _ _ _ hle => ih hle
      exact .view (size_of_skip hsize)

/-- Behind a value stands a token that ends values, or nothing. -/
theorem value_ends : (value T).Yields i fun _ rest => EndsValue T rest.view.kind := by
  apply Yields.enclosed
  apply Yields.view
  refine .bind (valueFrom_stops i.size (Nat.le_refl _)) fun final rest _ hstop => .pure ?_
  unfold stopsValue at hstop
  rcases Bool.or_eq_true_iff.1 hstop with hend | hend
  · exact Or.inl (beq_iff_eq.1 hend)
  · exact Or.inr (Bool.and_eq_true_iff.1 hend).2

/-! ### Tracking brackets -/

/-- A value tracks the brackets that are open just as they nest. -/
theorem track_eq_iff {opened opened' : List Kind} {kind : Kind} :
    Value.Builder.track opened kind = (opened', true) ↔
      (kind ≠ .badString ∧ kind ≠ .badUrl) ∧ openAfter opened kind = some opened' := by
  have hother : kind ≠ .badString → kind ≠ .badUrl →
      (Value.Builder.track opened kind = (opened', true) ↔
        openAfter opened kind = some opened') := by
    intro hstring hurl
    unfold Value.Builder.track openAfter
    split
    · exact absurd rfl hstring
    · exact absurd rfl hurl
    · rcases kind.closer? with _ | closer
      · rcases kind.isCloser
        · simp
        · rcases opened with _ | ⟨expected, outer⟩
          · simp
          · by_cases h : expected = kind <;> simp [h]
      · simp
  constructor
  · intro h
    have hbad : kind ≠ .badString ∧ kind ≠ .badUrl := by
      constructor <;> rintro rfl <;> simp [Value.Builder.track] at h
    exact ⟨hbad, (hother hbad.1 hbad.2).1 h⟩
  · rintro ⟨⟨hstring, hurl⟩, h⟩
    exact (hother hstring hurl).2 h

/-! ### Values that are accepted -/

/-- Between a reading and one further on only tokens that nest were taken, and all of their texts
were added; or then a mark of importance, which no token that ends the value starts. -/
def TookNested (T : List Kind) (r final : ValueReading) (i rest : Input) : Prop :=
  ∃ v marks, i.seen = v ++ (marks ++ rest.seen) ∧ NestsBefore T r.builder.closers v ∧
    IsMark final.important marks ∧ (∀ seen ∈ marks, seen.1.kind ∉ T) ∧
    final.builder.text = v.foldl addToken r.builder.text

/-- Outside of brackets, where a value does not stop the token does not end it. -/
theorem outside_of_not_stops {view : View} (hstops : stopsValue T r view = false)
    (h : r.builder.closers = []) : view.token.kind ∉ T := by
  have hdepth : decide (r.builder.depth = 0) = true := by
    rw [decide_eq_true_eq, Value.Builder.depth, h]
    rfl
  rw [stopsValue, hdepth, Bool.true_and, Bool.or_eq_false_iff] at hstops
  rw [← List.contains_iff_mem]
  exact Bool.eq_false_iff.1 hstops.2

/-- Outside of brackets, where no mark of importance starts there is no exclamation mark. -/
theorem isMark_of_not_starts {view : View} (hmark : startsMark r view = false)
    (h : r.builder.closers = []) : view.token.isMark '!' = false := by
  have hdepth : decide (r.builder.depth = 0) = true := by
    rw [decide_eq_true_eq, Value.Builder.depth, h]
    rfl
  rwa [startsMark, hdepth, Bool.true_and] at hmark

/-- A value goes on at what neither ends it nor starts a mark of importance, outside of brackets. -/
theorem not_stops_of_outside {view : View} (hahead : view.kind ≠ .eof)
    (h : r.builder.closers = [] → view.token.kind ∉ T ∧ view.token.isMark '!' = false) :
    stopsValue T r view = false ∧ startsMark r view = false := by
  have hatEnd : view.atEnd = false := beq_eq_false_iff_ne.2 hahead
  rcases hclosed : r.builder.closers with _ | ⟨closer, outer⟩
  · obtain ⟨hkind, hmark⟩ := h hclosed
    have hends : T.contains view.kind = false := by
      rw [Bool.eq_false_iff, Ne, List.contains_iff_mem]
      exact hkind
    rw [stopsValue, startsMark, hatEnd, hends, hmark, Bool.and_false]
    exact ⟨rfl, rfl⟩
  · have hdepth : decide (r.builder.depth = 0) = false := by
      rw [decide_eq_false_iff_not, Value.Builder.depth, hclosed]
      simp
    rw [stopsValue, startsMark, hatEnd, hdepth]
    exact ⟨rfl, rfl⟩

/-- The two tokens of a mark that was taken. -/
theorem tookNested_mark (hident : .ident ∉ T)
    (hstops : stopsValue T r i.view = false) (hmark : startsMark r i.view = true)
    (hword : i.advance.view.token.isWord "important" = true)
    (hclosed : r.builder.closers = []) : TookNested T r r.markImportant i i.advance.advance := by
  have hbang : i.view.token.isMark '!' = true := (Bool.and_eq_true_iff.1 hmark).2
  have hdelim : i.view.kind = .delim := kind_of_isMark hbang
  have hkind : i.advance.view.kind = .ident := kind_of_isWord hword
  refine ⟨[], [(i.view.token, i.view.spacing), (i.advance.view.token, i.advance.view.spacing)],
    ?_, hclosed ▸ .done, .present hbang hword, ?_, rfl⟩
  · rw [Input.seen_eq_cons (by rw [hdelim]; decide), Input.seen_eq_cons (by rw [hkind]; decide)]
    rfl
  · intro seen hmem
    rcases List.mem_pair.1 hmem with rfl | rfl
    · exact outside_of_not_stops hstops hclosed
    · show i.advance.view.kind ∉ T
      rwa [hkind]

/-- The tokens of a value that was read through and accepted nest, but for its mark. -/
theorem valueFrom_sound (hident : .ident ∉ T) (rounds : Nat) (hsize : i.size ≤ rounds)
    (himportant : r.important = false) : (valueFrom T rounds r).Yields i fun final rest =>
      final.sound = true → final.builder.closers = [] → TookNested T r final i rest := by
  have hnone : ∀ (r : ValueReading) (i : Input), r.important = false → r.builder.closers = [] →
      TookNested T r r i i := fun r i himportant h =>
    ⟨[], [], rfl, h ▸ .done, himportant ▸ .absent, List.forall_mem_nil _, rfl⟩
  induction rounds generalizing i r with
  | zero => exact .pure fun _ => hnone r i himportant
  | succ rounds ih =>
    rcases hstops : stopsValue T r i.view
    swap
    · unfold Production.Yields
      rw [read_valueFrom_stops _ hstops]
      exact fun _ => hnone r i himportant
    rcases hmark : startsMark r i.view
    swap
    · intro hsound hclosed
      obtain ⟨hword, hread, _⟩ := read_valueFrom_mark rounds hsize hstops hmark hsound
      rw [hread] at hclosed ⊢
      exact tookNested_mark hident hstops hmark hword hclosed
    rcases haccepted : (r.builder.feed i.view.token i.view.spacing.isOpen).2
    · intro hsound
      have hunsound := unsound_of_refused rounds hstops hmark haccepted
      exact absurd (hsound.symm.trans hunsound) (by decide)
    · have htrack : Value.Builder.track r.builder.closers i.view.token.kind =
          ((r.taken i.view).builder.closers, true) := Prod.ext rfl haccepted
      obtain ⟨hfinished, hstep⟩ := track_eq_iff.1 htrack
      have hahead : i.view.kind ≠ .eof := by
        intro heof
        exact absurd (hstops.symm.trans (stopsValue_of_eof heof)) (by decide)
      have hless : i.advance.size ≤ rounds := by
        have hadvanced : i.advance.size = i.size - 1 := rfl
        omega
      intro hsound hclosed
      have hread := read_valueFrom_token rounds hstops hmark haccepted
      rw [hread] at hsound hclosed ⊢
      obtain ⟨v, marks, hseen, hnests, hmarks, hkinds, htext⟩ :=
        ih (r := r.taken i.view) hless himportant hsound hclosed
      refine ⟨(i.view.token, i.view.spacing) :: v, marks, ?_, ?_, hmarks, hkinds, htext⟩
      · rw [Input.seen_eq_cons hahead, hseen, List.cons_append]
      · exact .token hfinished
          (fun h => ⟨outside_of_not_stops hstops h, isMark_of_not_starts hmark h⟩) hstep hnests

/-- A value that was accepted is that of tokens that nest, before the mark that it is told to have
and what ends it. -/
theorem value_sound (hident : .ident ∉ T) : (value T).Yields i fun parsed rest =>
    parsed.valid = true → ∃ v marks, i.seen = v ++ (marks ++ rest.seen) ∧ v ≠ [] ∧
      NestsBefore T [] v ∧ IsMark parsed.important marks ∧ (∀ seen ∈ marks, seen.1.kind ∉ T) ∧
      parsed.value = some ⟨textOf v⟩ := by
  apply Yields.enclosed
  apply Yields.view
  refine .bind (valueFrom_sound hident i.size (Nat.le_refl _) rfl) fun final rest _ hfinal =>
    .pure ?_
  intro hvalid
  obtain ⟨hwhole, hbuilder⟩ := Bool.and_eq_true_iff.1 hvalid
  obtain ⟨htexts, hclosed⟩ := Bool.and_eq_true_iff.1 hbuilder
  obtain ⟨hsome, hsound⟩ := Bool.and_eq_true_iff.1 htexts
  have hempty : final.builder.text.isEmpty = false := by simpa using hsome
  obtain ⟨v, marks, hseen, hnests, hmarks, hkinds, htext⟩ :=
    hfinal (Bool.and_eq_true_iff.2 ⟨hwhole, hsound⟩) (List.isEmpty_iff.1 hclosed)
  refine ⟨v, marks, hseen, ?_, hnests, hmarks, hkinds, ?_⟩
  · rintro rfl
    rw [htext] at hempty
    exact absurd hempty (by decide)
  · show final.builder.value? = _
    rw [Value.Builder.value?, hempty, htext]
    rfl

/-- A mark of importance is taken where no bracket is open and no token of it ends the value. -/
theorem valueFrom_mark {important : Bool} {marks more : List Seen} (hmarks : IsMark important marks)
    (hkinds : ∀ seen ∈ marks, seen.1.kind ∉ T) (hclosed : r.builder.closers = [])
    (himportant : r.important = false) (rounds : Nat) (hsize : i.size ≤ rounds)
    (hseen : i.seen = marks ++ more)
    (hmore : ∀ rest : Input, rest.seen = more → EndsValue T rest.view.kind) :
    (valueFrom T rounds r).Yields i fun final rest =>
      rest.seen = more ∧ final = { r with important := important } := by
  cases hmarks with
  | absent =>
    unfold Production.Yields
    rw [read_valueFrom_stops _ ((stopsValue_iff r _ hclosed).2 (hmore _ hseen))]
    exact ⟨hseen, by rw [← himportant]⟩
  | @present bang word hbang hword =>
    obtain ⟨htoken, _, hadvance⟩ := Input.view_of_seen hseen
    obtain ⟨htoken', _, hadvance'⟩ := Input.view_of_seen hadvance
    obtain ⟨n, rfl⟩ : ∃ n, rounds = n + 1 := by
      rw [← i.length_seen, hseen, List.cons_append, List.length_cons] at hsize
      exact ⟨rounds - 1, by omega⟩
    have hstarts : startsMark r i.view = true := by
      rw [startsMark, Value.Builder.depth, hclosed, htoken, hbang]
      rfl
    have hstops : stopsValue T r i.view = false := by
      rw [Bool.eq_false_iff, Ne, stopsValue_iff r _ hclosed, View.kind, htoken]
      rintro (heof | hend)
      · exact absurd ((kind_of_isMark hbang).symm.trans heof) (by decide)
      · exact hkinds bang List.mem_cons_self (List.contains_iff_mem.1 hend)
    have hends : stopsValue T r.markImportant i.advance.advance.view = true :=
      (stopsValue_iff _ _ hclosed).2 (hmore _ hadvance')
    unfold Production.Yields
    rw [read_valueFrom_startsMark n hstops hstarts, read_bind,
      read_takeImportance (by rw [htoken', hword]), read_valueFrom_stops _ hends]
    refine ⟨hadvance', ?_⟩
    simp only [ValueReading.markImportant, himportant, Bool.not_false, Bool.and_true]

/-- Tokens that nest are read through, and their texts added, and the mark behind them is taken. -/
theorem valueFrom_complete {opened : List Kind} {v marks more : List Seen} {important : Bool}
    (hnests : NestsBefore T opened v) (hmarks : IsMark important marks)
    (hkinds : ∀ seen ∈ marks, seen.1.kind ∉ T) (hopened : r.builder.closers = opened)
    (himportant : r.important = false) (rounds : Nat) (hsize : i.size ≤ rounds)
    (hseen : i.seen = v ++ (marks ++ more))
    (hmore : ∀ rest : Input, rest.seen = more → EndsValue T rest.view.kind) :
    (valueFrom T rounds r).Yields i fun final rest => rest.seen = more ∧
      final = ⟨⟨v.foldl addToken r.builder.text, [], r.builder.valid⟩, important, r.valid⟩ := by
  induction hnests generalizing rounds r i with
  | done =>
    refine (valueFrom_mark hmarks hkinds hopened himportant rounds hsize hseen hmore).mono
      fun final rest hfinal => ⟨hfinal.1, ?_⟩
    obtain ⟨⟨text, closers, sound⟩, _, valid⟩ := r
    obtain rfl : closers = [] := hopened
    exact hfinal.2
  | @token opened opened' t s rest finished outside step _ ih =>
    obtain ⟨htoken, hspacing, hadvance⟩ := Input.view_of_seen hseen
    have hahead : i.view.kind ≠ .eof := Input.kind_ne_eof_of_seen hseen
    obtain ⟨n, rfl⟩ : ∃ n, rounds = n + 1 := by
      rw [← i.length_seen, hseen, List.cons_append, List.length_cons] at hsize
      exact ⟨rounds - 1, by omega⟩
    have hfed : Value.Builder.track r.builder.closers i.view.token.kind = (opened', true) := by
      rw [htoken, hopened]
      exact track_eq_iff.2 ⟨finished, step⟩
    obtain ⟨hstops, hmark⟩ := not_stops_of_outside hahead (fun h => htoken ▸ outside (hopened ▸ h))
    have haccepted : (r.builder.feed i.view.token i.view.spacing.isOpen).2 = true :=
      congrArg Prod.snd hfed
    have htaken : r.taken i.view =
        { r with builder := ⟨addToken r.builder.text (t, s), opened', r.builder.valid⟩ } := by
      unfold ValueReading.taken Value.Builder.feed
      rw [hfed, htoken, hspacing, himportant]
      simp only [Bool.and_true, Bool.not_false, addToken]
    have hless : i.advance.size ≤ n := by
      have hadvanced : i.advance.size = i.size - 1 := rfl
      omega
    unfold Production.Yields
    rw [read_valueFrom_token n hstops hmark haccepted, htaken]
    exact @ih { r with builder := ⟨addToken r.builder.text (t, s), opened', r.builder.valid⟩ }
      i.advance rfl himportant n hless hadvance

/-- Adding texts to a text never makes it empty. -/
theorem foldl_addToken_ne {text : String} {v : List Seen} (hwords : ∀ seen ∈ v, seen.1.text ≠ "")
    (h : text ≠ "" ∨ v ≠ []) : v.foldl addToken text ≠ "" := by
  induction v generalizing text with
  | nil => exact h.resolve_right (absurd rfl)
  | cons seen v ih =>
    rw [List.forall_mem_cons] at hwords
    refine ih hwords.2 (Or.inl ?_)
    intro hempty
    exact hwords.1 (String.append_eq_empty_iff.1 hempty).2

/-- Tokens that nest are a value that is accepted, with or without a mark, before a token that ends
it. -/
theorem value_complete {v marks more : List Seen} {important : Bool} (hnests : NestsBefore T [] v)
    (hne : v ≠ []) (hmarks : IsMark important marks) (hkinds : ∀ seen ∈ marks, seen.1.kind ∉ T)
    (hworded : i.Worded) (hseen : i.seen = v ++ (marks ++ more))
    (hmore : ∀ rest : Input, rest.seen = more → EndsValue T rest.view.kind) :
    (value T).Yields i fun parsed rest =>
      rest.seen = more ∧ parsed = ⟨some ⟨textOf v⟩, important, true⟩ := by
  apply Yields.enclosed
  apply Yields.view
  have hread := @valueFrom_complete T .start i [] v marks more important hnests hmarks hkinds rfl
    rfl i.size (Nat.le_refl _) hseen hmore
  refine .bind hread fun final rest _ hfinal => .pure ⟨hfinal.1, ?_⟩
  have hwords : ∀ seen ∈ v, seen.1.text ≠ "" := fun seen hmem =>
    hworded.seen_ne seen (hseen ▸ List.mem_append_left _ hmem)
  have htext : (textOf v).isEmpty = false := by
    rw [Bool.eq_false_iff, Ne, String.isEmpty_iff]
    exact foldl_addToken_ne hwords (Or.inr hne)
  rw [hfinal.2]
  show ParsedValue.mk (if (textOf v).isEmpty then none else some ⟨textOf v⟩) important
    (true && (!(textOf v).isEmpty && true && true)) = _
  rw [htext]
  rfl

end Grammar

end Cssom

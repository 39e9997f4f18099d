import Cssom.Proofs.Recovery.Scans

/-!
# Values, arguments and media lists in a block

A value keeps the brackets opened in it as the kinds that close them; in a block, whose tokens nest
properly, these are the brackets open since the value started (`InsideOpen`), so it stops in the
braces it started in, and never has to give up inside of parentheses. The scans that count
parentheses stop in the same braces too: as long as a brace is open that was opened on the way, so
is a parenthesis.
-/

namespace Cssom.Grammar

open Production Token

variable {close : Lexeme} {after : List Lexeme} {braces : Nat} {input : Input}
  {inner : List Kind}

/-- No kind both opens and closes. -/
theorem isCloser_of_closer? {kind closer : Kind} (h : kind.closer? = some closer) :
    kind.isCloser = false := by
  cases kind <;> first | rfl | exact absurd h (by simp [Kind.closer?])

/-- A value tracks the brackets opened in it as they open and close in the source, where these nest.
It refuses a closer only if none was opened since it started; a closer of what was opened before
that is no closing brace. -/
theorem openAfter_track {inner outer opened : List Kind} {kind : Kind}
    (hstep : openAfter (inner ++ outer) kind = some opened)
    (hbad : kind ≠ .badString ∧ kind ≠ .badUrl) (hk : inner ≠ [] ∨ kind ≠ .closeCurly) :
    (∃ outer', opened = (Value.Builder.track inner kind).1 ++ outer' ∧
      outer'.count .closeCurly = outer.count .closeCurly) ∧
    ((Value.Builder.track inner kind).2 = false → inner = []) ∧
    (kind.isCloser = true → inner = [] ∨ ∃ more, inner = kind :: more) := by
  unfold Value.Builder.track
  unfold openAfter at hstep
  split
  · next he => exact absurd rfl hbad.1
  · next he => exact absurd rfl hbad.2
  · rcases hcloser : kind.closer? with _ | closer
    · rcases hc : kind.isCloser
      · -- no bracket
        simp only [hcloser, hc, Bool.false_eq_true, if_false, Option.some.injEq] at hstep ⊢
        exact ⟨⟨outer, hstep.symm, rfl⟩, by simp, by simp⟩
      · simp only [hcloser, hc, if_true] at hstep ⊢
        rcases inner with _ | ⟨expected, inner⟩
        · -- a closer of a bracket opened before the value
          rcases outer with _ | ⟨expected, outer⟩
          · simp at hstep
          · simp only [List.nil_append] at hstep
            split at hstep
            · next he =>
              rw [Option.some.injEq] at hstep
              have hne : expected ≠ .closeCurly := by
                rcases hk with hk | hk
                · exact absurd rfl hk
                · exact he ▸ hk
              exact ⟨⟨outer, hstep.symm, (List.count_cons_of_ne hne).symm⟩, by simp, by simp⟩
            · exact absurd hstep (by simp)
        · -- a closer of the bracket opened last
          simp only [List.cons_append] at hstep
          split at hstep
          · next he =>
            rw [Option.some.injEq] at hstep
            simp only [he, if_true]
            exact ⟨⟨outer, hstep.symm, rfl⟩, by simp, by simp⟩
          · exact absurd hstep (by simp)
    · -- an opener
      simp only [hcloser, Option.some.injEq] at hstep ⊢
      have hnc := isCloser_of_closer? hcloser
      exact ⟨⟨outer, hstep.symm, rfl⟩, by simp, by simp [hnc]⟩

/-- The cursor stands in a block, with these brackets open since some moment, and with so many
braces open since before. -/
structure InsideOpen (tail : List Lexeme) (inner : List Kind) (braces : Nat) (input : Input) :
    Prop where
  within : ∃ outer, Within tail (inner ++ outer) input.ahead ∧
    outer.count .closeCurly = braces
  nodup : input.offsets.Nodup

/-- In a block no brackets are open since this moment. -/
theorem Inside.toOpen {tail : List Lexeme} (h : Inside tail braces input) :
    InsideOpen tail [] braces input :=
  ⟨h.within, h.nodup⟩

namespace InsideOpen

/-- Braces opened since some moment count with those open before. -/
theorem inside {tail : List Lexeme} (h : InsideOpen tail inner braces input) :
    Inside tail (inner.count .closeCurly + braces) input := by
  obtain ⟨outer, hw, hcount⟩ := h.within
  exact ⟨⟨inner ++ outer, hw, by rw [List.count_append, hcount]⟩, h.nodup⟩

/-- With no brace open since that moment, the cursor stands in the same braces. -/
theorem inside_of_count {tail : List Lexeme} (h : InsideOpen tail inner braces input)
    (hcount : inner.count .closeCurly = 0) : Inside tail braces input := by
  have hin := h.inside
  rwa [hcount, Nat.zero_add] at hin

/-- Taking a token opens and closes brackets as a value tracks them. A closer closes the bracket
opened last, unless none was opened since. -/
theorem advance (hclose : close.token.kind = .closeCurly)
    (h : InsideOpen (close :: after) inner braces input)
    (hk : inner ≠ [] ∨ input.view.kind ≠ .closeCurly) :
    InsideOpen (close :: after) (Value.Builder.track inner input.view.kind).1 braces
        input.advance ∧
      ((Value.Builder.track inner input.view.kind).2 = false → inner = []) ∧
      (input.view.kind.isCloser = true → inner = [] ∨ ∃ more, inner = input.view.kind :: more) := by
  have hin := h.inside
  obtain ⟨outer, hw, hcount⟩ := h.within
  obtain ⟨lexeme, rest, hahead, hkind, htok, hrest⟩ := exists_ahead_eq hin.ahead_ne_nil
  rw [hahead] at hw
  obtain ⟨opened', hplain, hstep, hmore⟩ : ∃ opened', isPlain lexeme.token = true ∧
      openAfter (inner ++ outer) lexeme.token.kind = some opened' ∧
      Within (close :: after) opened' rest := by
    generalize hopened : inner ++ outer = opened at hw
    cases hw with
    | atTail =>
      rcases hk with hk | hk
      · exact absurd (List.append_eq_nil_iff.1 hopened).1 hk
      · exact absurd hclose (hkind ▸ hk)
    | token plain step more => exact ⟨_, plain, step, more⟩
  have hbad : input.view.kind ≠ .badString ∧ input.view.kind ≠ .badUrl := by
    rw [hkind]
    unfold isPlain at hplain
    simp only [Bool.and_eq_true, bne_iff_ne] at hplain
    exact hplain.1
  rw [← hkind] at hstep
  obtain ⟨⟨outer', hopened, hcount'⟩, haccepted, hcloses⟩ := openAfter_track hstep hbad hk
  refine ⟨⟨⟨outer', ?_, hcount'.trans hcount⟩, hin.nodup_advance⟩, haccepted, hcloses⟩
  rw [hrest, ← hopened]
  exact hmore

end InsideOpen

namespace InsideOpen

/-- Taking a token that is no bracket opens and closes nothing. -/
theorem advance_other (hclose : close.token.kind = .closeCurly)
    (h : InsideOpen (close :: after) inner braces input)
    (hopen : input.view.kind.closer? = none) (hcloser : input.view.kind.isCloser = false) :
    InsideOpen (close :: after) inner braces input.advance := by
  have hne : input.view.kind ≠ .closeCurly := fun e => by simp [e, Kind.isCloser] at hcloser
  have hadv := (h.advance hclose (Or.inr hne)).1
  have htrack : (Value.Builder.track inner input.view.kind).1 = inner := by
    unfold Value.Builder.track
    split
    · rfl
    · rfl
    · simp only [hopen, hcloser, Bool.false_eq_true, if_false]
  rwa [htrack] at hadv

end InsideOpen

/-- A mark is a delimiter. -/
theorem kind_of_isMark {token : Token} {c : Char} (h : token.isMark c = true) :
    token.kind = .delim := by
  rw [isMark, Bool.and_eq_true, beq_iff_eq] at h
  exact h.1

/-! ### Values -/

/-- A mark of importance leaves the brackets of a value as they are. -/
theorem takeImportance_open (hclose : close.token.kind = .closeCurly) (reading : ValueReading)
    (h : InsideOpen (close :: after) reading.builder.closers braces input)
    (hmark : input.view.kind = .delim) :
    InsideOpen (close :: after) ((takeImportance reading).read input).result.builder.closers braces
      ((takeImportance reading).read input).rest := by
  have hadv := h.advance_other hclose (by rw [hmark]; rfl) (by rw [hmark]; rfl)
  rw [takeImportance]
  simp only [rest_read_bind, result_read_bind, read_skip, read_view]
  by_cases hword : input.advance.view.token.isWord "important" = true
  · have hident : input.advance.view.kind = .ident := kind_of_isWord hword
    simp only [hword, if_true, rest_read_bind, result_read_bind, read_skip, read_pure]
    exact hadv.advance_other hclose (by rw [hident]; rfl) (by rw [hident]; rfl)
  · simp only [hword]
    exact hadv

/-- A token that is refused outside of brackets leaves none open. -/
theorem track_nil_of_refused {kind : Kind} (h : (Value.Builder.track [] kind).2 = false) :
    (Value.Builder.track [] kind).1 = [] := by
  cases kind <;> first | rfl | exact absurd h (by decide)

/-- A token that is not refused with a parenthesis of the value open is just taken. -/
theorem read_takeValueToken_of_no_paren (reading : ValueReading) (input : Input)
    (hnone : (Value.Builder.track reading.builder.closers input.view.kind).2 = false →
      .closeParen ∉ (Value.Builder.track reading.builder.closers input.view.kind).1) :
    (takeValueToken reading).read input =
      ⟨{ reading with
          builder := (reading.builder.feed input.view.token input.view.spacing.isOpen).1
          valid := reading.valid && !reading.important }, input.advance, []⟩ := by
  have hkeep : (!(reading.builder.feed input.view.token input.view.spacing.isOpen).2 &&
      decide (0 < (reading.builder.feed input.view.token input.view.spacing.isOpen).1.parens)) =
        false := by
    change (!(Value.Builder.track reading.builder.closers input.view.kind).2 &&
      decide (0 < (Value.Builder.track reading.builder.closers
        input.view.kind).1.count .closeParen)) = false
    cases hfalse : (Value.Builder.track reading.builder.closers input.view.kind).2 with
    | true => rfl
    | false =>
      rw [List.count_eq_zero.2 (hnone hfalse)]
      rfl
  unfold takeValueToken
  rw [read_bind, read_view, read_bind, read_skip]
  simp only [hkeep]
  rfl

/-- A token that is refused only where no bracket is open in the value is just taken: no parenthesis
of the value is open, so nothing is passed over. -/
theorem read_takeValueToken_of_refused (reading : ValueReading) (input : Input)
    (hrefused : (Value.Builder.track reading.builder.closers input.view.kind).2 = false →
      reading.builder.closers = []) : (takeValueToken reading).read input =
    ⟨{ reading with
        builder := (reading.builder.feed input.view.token input.view.spacing.isOpen).1
        valid := reading.valid && !reading.important }, input.advance, []⟩ := by
  refine read_takeValueToken_of_no_paren reading input fun hfalse => ?_
  have hnil := hrefused hfalse
  rw [hnil] at hfalse
  rw [hnil, track_nil_of_refused hfalse]
  exact List.not_mem_nil

/-- A token refused in a block is a closer of a bracket opened before the value. -/
theorem takeValueToken_open (hclose : close.token.kind = .closeCurly) (reading : ValueReading)
    (h : InsideOpen (close :: after) reading.builder.closers braces input)
    (hk : reading.builder.closers ≠ [] ∨ input.view.kind ≠ .closeCurly) :
    InsideOpen (close :: after) ((takeValueToken reading).read input).result.builder.closers braces
        ((takeValueToken reading).read input).rest ∧
      ((takeValueToken reading).read input).rest = input.advance := by
  obtain ⟨hadv, haccepted, _⟩ := h.advance hclose hk
  rw [read_takeValueToken_of_refused reading input haccepted]
  exact ⟨hadv, rfl⟩

/-- Reading on in a value stops in the braces in which the value started. -/
theorem valueFrom_inside (hclose : close.token.kind = .closeCurly) {terminators : List Kind}
    (hterm : terminators.contains .closeCurly = true) {rounds : Nat} (reading : ValueReading)
    (hr : input.size ≤ rounds)
    (h : InsideOpen (close :: after) reading.builder.closers braces input) :
    Inside (close :: after) braces ((valueFrom terminators rounds reading).read input).rest := by
  induction rounds generalizing reading input with
  | zero =>
    have hpos := h.inside.size_pos
    omega
  | succ rounds ih =>
    have hsize := size_advance_le hr
    rw [valueFrom]
    simp only [rest_read_bind, read_view, h.inside.atEnd_eq, Bool.false_or]
    by_cases hstop : (decide (reading.builder.depth = 0) &&
        terminators.contains input.view.kind) = true
    · simp only [hstop, if_true, read_pure]
      rw [Bool.and_eq_true, decide_eq_true_iff] at hstop
      have hnil : reading.builder.closers = [] := List.length_eq_zero_iff.1 hstop.1
      rw [hnil] at h
      exact h.inside_of_count rfl
    · simp only [hstop, Bool.false_eq_true, if_false]
      by_cases hmark : (decide (reading.builder.depth = 0) && input.view.token.isMark '!') = true
      · have hdelim : input.view.kind = .delim := kind_of_isMark (Bool.and_eq_true_iff.1 hmark).2
        have hreach : input.advance.Reaches ((takeImportance reading).read input).rest := by
          rw [takeImportance, rest_read_bind, read_skip]
          exact read_reaches _ _
        have hopen := takeImportance_open hclose reading h hdelim
        simp only [hmark, if_true, rest_read_bind]
        exact ih _ (Nat.le_trans hreach.size_le hsize) hopen
      · have hk : reading.builder.closers ≠ [] ∨ input.view.kind ≠ .closeCurly := by
          by_cases hnil : reading.builder.closers = []
          · refine Or.inr fun hc => hstop ?_
            rw [hc, hterm, Bool.and_true, decide_eq_true_iff]
            exact List.length_eq_zero_iff.2 hnil
          · exact Or.inl hnil
        obtain ⟨hopen, hrest⟩ := takeValueToken_open hclose reading h hk
        simp only [hmark, Bool.false_eq_true, if_false, rest_read_bind]
        exact ih _ (hrest ▸ hsize) hopen

/-- Reading a value stops in the braces in which it started. -/
theorem value_inside (hclose : close.token.kind = .closeCurly) {terminators : List Kind}
    (hterm : terminators.contains .closeCurly = true) (h : Inside (close :: after) braces input) :
    Inside (close :: after) braces ((value terminators).read input).rest := by
  rw [value, read_enclosed]
  simp only [rest_read_bind, read_view, read_pure]
  exact valueFrom_inside hclose hterm .start (Nat.le_refl _) h.toOpen

/-! ### Arguments -/

/-- The parentheses open after a token of a block, counted one by one. -/
theorem count_track (hclose : close.token.kind = .closeCurly)
    (h : InsideOpen (close :: after) inner braces input)
    (hk : inner ≠ [] ∨ input.view.kind ≠ .closeCurly) :
    (Value.Builder.track inner input.view.kind).1.count .closeParen =
      parensAfter (inner.count .closeParen) input.view.kind := by
  obtain ⟨_, _, hcloses⟩ := h.advance hclose hk
  rcases hc : input.view.kind.isCloser
  · cases hkind : input.view.kind <;>
      simp_all [Value.Builder.track, parensAfter, Kind.closer?, Kind.isCloser]
  · rcases hcloses hc with hnil | ⟨more, hmore⟩
    · cases hkind : input.view.kind <;>
        simp_all [Value.Builder.track, parensAfter, Kind.closer?, Kind.isCloser]
    · rw [hmore]
      cases hkind : input.view.kind <;>
        simp_all [Value.Builder.track, parensAfter, Kind.closer?, Kind.isCloser]

/-- Whether the bracket opened first is a parenthesis, if any is open. -/
def FirstIsParen (opened : List Kind) : Prop :=
  opened = [] ∨ opened.getLast? = some .closeParen

/-- If the bracket opened first is a parenthesis, it still is behind another token. -/
theorem firstIsParen_track {kind : Kind} (hne : inner ≠ []) (h : FirstIsParen inner) :
    FirstIsParen (Value.Builder.track inner kind).1 := by
  have hlast : inner.getLast? = some .closeParen := h.resolve_left hne
  obtain ⟨top, more, rfl⟩ := List.exists_cons_of_ne_nil hne
  have hpop : FirstIsParen more := by
    rcases more with _ | ⟨next, more⟩
    · exact Or.inl rfl
    · exact Or.inr (by rwa [List.getLast?_cons_cons] at hlast)
  unfold Value.Builder.track
  split
  · exact h
  · exact h
  · split
    · exact Or.inr (by rwa [List.getLast?_cons_cons])
    · split
      · simp only
        split
        · exact hpop
        · exact h
      · exact h

/-- With parentheses open that were opened last, passing over the rest of the arguments stops
behind the one that closes the outermost, in the same braces. -/
theorem passArgumentsFrom_inside (hclose : close.token.kind = .closeCurly) {rounds : Nat}
    (hr : input.size ≤ rounds) (hfirst : FirstIsParen inner)
    (h : InsideOpen (close :: after) inner braces input) :
    Inside (close :: after) braces
      ((passArgumentsFrom rounds (inner.count .closeParen)).read input).rest := by
  induction rounds generalizing inner input with
  | zero =>
    have hpos := h.inside.size_pos
    omega
  | succ rounds ih =>
    have hsize := size_advance_le hr
    rw [passArgumentsFrom]
    simp only [rest_read_bind, read_view, h.inside.atEnd_eq, Bool.false_or, decide_eq_true_eq]
    by_cases hzero : inner.count .closeParen = 0
    · have hnil : inner = [] := by
        refine hfirst.resolve_right fun hlast => ?_
        exact absurd (List.mem_of_getLast? hlast) (List.count_eq_zero.1 hzero)
      simp only [hzero, if_true, read_pure]
      exact h.inside_of_count (hnil ▸ rfl)
    · have hne : inner ≠ [] := fun hnil => hzero (hnil ▸ rfl)
      simp only [hzero, if_false, rest_read_bind, read_skip]
      rw [← count_track hclose h (Or.inl hne)]
      exact ih hsize (firstIsParen_track hne hfirst) (h.advance hclose (Or.inl hne)).1

/-- After the parenthesis of a function, passing over its arguments stops in the same braces. -/
theorem passArguments_inside (hclose : close.token.kind = .closeCurly)
    (h : InsideOpen (close :: after) [.closeParen] braces input) :
    Inside (close :: after) braces ((passArguments 1).read input).rest := by
  rw [passArguments, rest_read_bind, read_view]
  exact passArgumentsFrom_inside hclose (Nat.le_refl _) (Or.inr rfl) h

/-! ### Media lists -/

/-- Every brace opened on the way was opened in a parenthesis. -/
def Covered : List Kind → Prop
  | [] => True
  | k :: outer => (k = .closeCurly → .closeParen ∈ outer) ∧ Covered outer

/-- Where no parenthesis is open that covers braces, no brace is. -/
theorem Covered.count_eq_zero {opened : List Kind} (h : Covered opened)
    (hparen : opened.count .closeParen = 0) : opened.count .closeCurly = 0 := by
  induction opened with
  | nil => rfl
  | cons kind outer ih =>
    have houter : outer.count .closeParen = 0 :=
      Nat.le_zero.1 (hparen ▸ List.count_le_count_cons)
    have hne : kind ≠ .closeCurly := fun e =>
      absurd (h.1 e) (List.count_eq_zero.1 houter)
    rw [List.count_cons_of_ne hne]
    exact ih h.2 houter

/-- Braces stay covered if each is opened in a parenthesis. -/
theorem covered_track {kind : Kind} (h : Covered inner)
    (hk : kind = .openCurly → .closeParen ∈ inner) :
    Covered (Value.Builder.track inner kind).1 := by
  have hpush : ∀ closer, kind.closer? = some closer → closer = .closeCurly →
      .closeParen ∈ inner := by
    intro closer hcloser hcurly
    refine hk ?_
    subst hcurly
    cases kind <;> first | rfl | exact absurd hcloser (by decide)
  unfold Value.Builder.track
  split
  · exact h
  · exact h
  · split
    · next closer hcloser => exact ⟨hpush closer hcloser, h⟩
    · split
      · split
        · split
          · exact h.2
          · exact h
        · exact h
      · exact h

/-- The rest of a media list is passed over in the braces it stands in. -/
theorem passMediaFrom_inside (hclose : close.token.kind = .closeCurly) {terminator : Kind}
    {rounds : Nat} (hr : input.size ≤ rounds) (hcov : Covered inner)
    (h : InsideOpen (close :: after) inner braces input) :
    Inside (close :: after) braces
      ((passMediaFrom terminator rounds (inner.count .closeParen)).read input).rest := by
  induction rounds generalizing inner input with
  | zero =>
    have hpos := h.inside.size_pos
    omega
  | succ rounds ih =>
    have hsize := size_advance_le hr
    rw [passMediaFrom]
    simp only [rest_read_bind, read_view, h.inside.atEnd_eq, Bool.false_or]
    by_cases hstop : (decide (inner.count .closeParen = 0) &&
        endsMedia terminator input.view.kind) = true
    · simp only [hstop, if_true, read_pure]
      rw [Bool.and_eq_true, decide_eq_true_iff] at hstop
      exact h.inside_of_count (hcov.count_eq_zero hstop.1)
    · have hpast : inner.count .closeParen ≠ 0 ∨
          input.view.kind ≠ .openCurly ∧ input.view.kind ≠ .closeCurly := by
        by_cases hzero : inner.count .closeParen = 0
        · refine Or.inr ⟨fun ho => hstop ?_, fun hc => hstop ?_⟩
          · simp [hzero, ho, endsMedia]
          · simp [hzero, hc, endsMedia]
        · exact Or.inl hzero
      have hmem : inner.count .closeParen ≠ 0 → .closeParen ∈ inner := fun hne =>
        List.count_pos_iff.1 (Nat.pos_of_ne_zero hne)
      have hk : inner ≠ [] ∨ input.view.kind ≠ .closeCurly :=
        hpast.imp (fun hne => List.ne_nil_of_mem (hmem hne)) And.right
      have hopen : input.view.kind = .openCurly → .closeParen ∈ inner := fun ho =>
        hpast.elim hmem fun hne => absurd ho hne.1
      simp only [hstop, Bool.false_eq_true, if_false, rest_read_bind, read_skip]
      rw [← count_track hclose h hk]
      exact ih hsize (covered_track hcov hopen) (h.advance hclose hk).1

/-- Passing over the rest of a media list stops in the same braces. -/
theorem passMedia_inside (hclose : close.token.kind = .closeCurly) (terminator : Kind)
    (h : Inside (close :: after) braces input) :
    Inside (close :: after) braces ((passMedia terminator).read input).rest := by
  rw [passMedia, rest_read_bind, read_view]
  have hcov : Covered [] := by rw [Covered]; trivial
  exact passMediaFrom_inside hclose (Nat.le_refl _) hcov h.toOpen

end Cssom.Grammar

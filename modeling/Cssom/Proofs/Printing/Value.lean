import Cssom.Proofs.Printing.Steps
import Cssom.Proofs.Token.Respaced
import Cssom.Value.Grammar

/-!
# Values are read back

A value that was accepted is printed with a single blank wherever the source had trivia; so the
tokens are the same, and so is what is made of each of them (`value_reads_back`).
-/

namespace Cssom.Grammar

open Production Token Input

variable {T : List Kind} {r : ValueReading} {i j : Input} {placed : Prop}

/-! ### Rounds -/

/-- Whether all that was read of the value was accepted. -/
def ValueReading.sound (r : ValueReading) : Bool :=
  r.valid && r.builder.valid

/-- The reading after a token was accepted. -/
def ValueReading.taken (r : ValueReading) (view : View) : ValueReading :=
  { r with
    builder := (r.builder.feed view.token view.spacing.isOpen).1
    valid := r.valid && !r.important }

/-- Whether a value ends at a token. -/
def stopsValue (T : List Kind) (r : ValueReading) (view : View) : Bool :=
  view.atEnd || (decide (r.builder.depth = 0) && T.contains view.kind)

/-- Whether a token may start a mark of importance. -/
def startsMark (r : ValueReading) (view : View) : Bool :=
  decide (r.builder.depth = 0) && view.token.isMark '!'

/-- A value ends where the source does. -/
theorem stopsValue_of_eof {view : View} (h : view.kind = .eof) : stopsValue T r view = true := by
  have hatEnd : view.atEnd = true := beq_iff_eq.2 h
  rw [stopsValue, hatEnd, Bool.true_or]

/-- A builder does not tell tokens of the same kind and text apart. -/
theorem feed_congr (builder : Value.Builder) {t u : Token} {s s' : Bool} (hkind : t.kind = u.kind)
    (htext : t.text = u.text) (hs : (s && !builder.text.isEmpty) = (s' && !builder.text.isEmpty)) :
    builder.feed t s = builder.feed u s' := by
  rw [Value.Builder.feed, Value.Builder.feed, hkind, htext, hs]

/-- Where a value ends nothing is read. -/
theorem read_valueFrom_stops (rounds : Nat) (h : stopsValue T r i.view = true) :
    (valueFrom T rounds r).read i = ⟨r, i, []⟩ := by
  rcases rounds with _ | rounds
  · rfl
  · unfold valueFrom
    rw [read_bind, read_view]
    unfold stopsValue at h
    simp only [h, if_true]
    rfl

/-- A token that is accepted is taken into the value. -/
theorem read_takeValueToken (h : (r.builder.feed i.view.token i.view.spacing.isOpen).2 = true) :
    (takeValueToken r).read i = ⟨r.taken i.view, i.advance, []⟩ := by
  unfold takeValueToken
  rw [read_bind, read_view, read_bind, read_skip]
  simp only [h, Bool.not_true, Bool.false_and, Bool.false_eq_true, if_false]
  rfl

/-- Where a value goes on a token that is accepted is taken into it. -/
theorem read_valueFrom_token (rounds : Nat) (hstops : stopsValue T r i.view = false)
    (hmark : startsMark r i.view = false)
    (haccepted : (r.builder.feed i.view.token i.view.spacing.isOpen).2 = true) :
    (valueFrom T (rounds + 1) r).read i =
      (valueFrom T rounds (r.taken i.view)).read i.advance := by
  unfold stopsValue at hstops
  unfold startsMark at hmark
  rw [valueFrom, read_bind, read_view]
  simp only [hstops, hmark, Bool.false_eq_true, if_false]
  rw [read_bind, read_takeValueToken haccepted]
  rfl

/-- Where a mark of importance may start, it is taken. -/
theorem read_valueFrom_startsMark (rounds : Nat) (hstops : stopsValue T r i.view = false)
    (hmark : startsMark r i.view = true) :
    (valueFrom T (rounds + 1) r).read i = (takeImportance r >>= valueFrom T rounds).read i := by
  unfold stopsValue at hstops
  unfold startsMark at hmark
  rw [valueFrom, read_bind, read_view]
  simp only [hstops, hmark, Bool.false_eq_true, if_false, if_true]
  rfl

/-- Behind the exclamation mark, the word makes a mark of importance. -/
theorem read_takeImportance (hword : i.advance.view.token.isWord "important" = true) :
    (takeImportance r).read i = ⟨r.markImportant, i.advance.advance, []⟩ := by
  unfold takeImportance
  rw [read_bind, read_skip, read_bind, read_view]
  simp only [hword, if_true]
  rfl

/-! ### Readings that are not sound -/

/-- Nothing makes a reading sound again, and nothing but its end follows a mark of importance. -/
theorem unsound_takeValueToken (h : r.sound = false ∨ r.important = true ∨
    (r.builder.feed i.view.token i.view.spacing.isOpen).2 = false) :
    (takeValueToken r).Yields i fun r' _ => r'.sound = false := by
  have hbuilder : (r.builder.feed i.view.token i.view.spacing.isOpen).1.valid =
      (r.builder.valid && (r.builder.feed i.view.token i.view.spacing.isOpen).2) := rfl
  have hfed : (r.taken i.view).sound = false := by
    unfold ValueReading.sound at h ⊢
    unfold ValueReading.taken
    simp only [hbuilder]
    rcases h with h | h | h
    · rcases hvalid : r.valid <;> rcases hb : r.builder.valid <;> simp_all
    · simp [h]
    · simp [h]
  unfold takeValueToken
  refine .view (.skip ?_)
  simp only
  split
  · refine .bind_any fun _ _ _ => .pure ?_
    simp [ValueReading.sound, Value.Builder.abandon]
  · exact .pure hfed

/-- A reading that is not sound is not made so by a mark of importance, and a second mark spoils
one that is. -/
theorem unsound_takeImportance (h : r.sound = false ∨ r.important = true) :
    (takeImportance r).Yields i fun r' _ => r'.sound = false := by
  unfold takeImportance
  refine .skip (.view ?_)
  unfold ValueReading.sound at h ⊢
  split
  · refine .skip (.pure ?_)
    rcases h with h | h
    · rcases hvalid : r.valid <;> simp_all [ValueReading.markImportant]
    · simp [ValueReading.markImportant, h]
  · exact .pure (by simp [ValueReading.spoil])

/-- A reading that is not sound stays so. -/
theorem unsound_valueFrom (rounds : Nat) (h : r.sound = false) :
    (valueFrom T rounds r).Yields i fun r' _ => r'.sound = false := by
  induction rounds generalizing r i with
  | zero => exact .pure h
  | succ rounds ih =>
    unfold valueFrom
    refine .view ?_
    simp only
    split
    · exact .pure h
    · split
      · exact (unsound_takeImportance (Or.inl h)).bind fun _ _ _ h => ih h
      · exact (unsound_takeValueToken (Or.inl h)).bind fun _ _ _ h => ih h

/-- A sound reading has not gone on behind a mark of importance. -/
theorem stops_of_important (rounds : Nat) (h : r.important = true)
    (hstops : stopsValue T r i.view = false) :
    (valueFrom T (rounds + 1) r).Yields i fun r' _ => r'.sound = false := by
  unfold stopsValue at hstops
  unfold valueFrom
  refine .view ?_
  simp only [hstops, Bool.false_eq_true, if_false]
  split
  · exact (unsound_takeImportance (Or.inr h)).bind fun _ _ _ h => unsound_valueFrom _ h
  · exact (unsound_takeValueToken (Or.inr (Or.inl h))).bind fun _ _ _ h => unsound_valueFrom _ h

/-- A sound reading has accepted every token. -/
theorem unsound_of_refused (rounds : Nat) (hstops : stopsValue T r i.view = false)
    (hstarts : startsMark r i.view = false)
    (hrefused : (r.builder.feed i.view.token i.view.spacing.isOpen).2 = false) :
    (valueFrom T (rounds + 1) r).Yields i fun r' _ => r'.sound = false := by
  unfold stopsValue at hstops
  unfold startsMark at hstarts
  unfold valueFrom
  refine .view ?_
  simp only [hstops, hstarts, Bool.false_eq_true, if_false]
  exact (unsound_takeValueToken (Or.inr (Or.inr hrefused))).bind
    fun _ _ _ h => unsound_valueFrom _ h

/-- A sound reading with a mark of importance ends behind it. -/
theorem read_valueFrom_mark (rounds : Nat) (hsize : i.size ≤ rounds + 1)
    (hstops : stopsValue T r i.view = false) (hstarts : startsMark r i.view = true)
    (hsound : ((valueFrom T (rounds + 1) r).read i).result.sound = true) :
    i.advance.view.token.isWord "important" = true ∧
      (valueFrom T (rounds + 1) r).read i = ⟨r.markImportant, i.advance.advance, []⟩ ∧
      stopsValue T r.markImportant i.advance.advance.view = true := by
  rw [read_valueFrom_startsMark rounds hstops hstarts] at hsound ⊢
  rcases hword : i.advance.view.token.isWord "important"
  · have hspoilt : (takeImportance r >>= valueFrom T rounds).Yields i
        fun r' _ => r'.sound = false := by
      unfold takeImportance
      refine .bind (Q := fun r' _ => r'.sound = false) (.skip (.view ?_)) fun _ _ _ h =>
        unsound_valueFrom _ h
      simp only [hword, Bool.false_eq_true, if_false]
      exact .pure rfl
    exact absurd (hsound.symm.trans hspoilt) (by decide)
  · have himportance := read_takeImportance (r := r) hword
    rw [result_read_bind, himportance] at hsound
    rw [read_bind, himportance]
    rcases hbehind : stopsValue T r.markImportant i.advance.advance.view
    · have hlt : i.advance.advance.size ≤ rounds - 1 ∧ 0 < rounds := by
        rcases i.advance.advance.faces_cases with ⟨_, hkind, _⟩ | ⟨_, _, _, _, _, _, hfaces⟩
        · exact absurd (hbehind.symm.trans (stopsValue_of_eof hkind)) (by decide)
        · have h₁ : i.advance.size = i.size - 1 := rfl
          have h₂ : i.advance.advance.size = i.advance.size - 1 := rfl
          have := hfaces.size
          omega
      obtain ⟨n, rfl⟩ : ∃ n, rounds = n + 1 := ⟨rounds - 1, by omega⟩
      exact absurd (hsound.symm.trans (stops_of_important n rfl hbehind)) (by decide)
    · rw [read_valueFrom_stops rounds hbehind]
      exact ⟨rfl, rfl, rfl⟩

/-! ### Reading a value again -/

/-- A value may end at a token of this kind, outside of brackets. -/
def EndsValue (T : List Kind) (k : Kind) : Prop :=
  k = .eof ∨ T.contains k = true

/-- How a mark of importance is printed. -/
def mark (important : Bool) : List Piece :=
  if important then [blank, (.delim, "!"), (.ident, "important")] else []

/-- Outside of brackets a value ends at the kinds that end it. -/
theorem stopsValue_iff (r : ValueReading) (view : View) (h : r.builder.closers = []) :
    stopsValue T r view = true ↔ EndsValue T view.kind := by
  simp [stopsValue, EndsValue, Value.Builder.depth, h, View.atEnd, View.kind]

/-- What ends values is no delimiter. -/
theorem not_delim_of_endsValue (hT : T ⊆ parenthesizedEnd) {k : Kind} (h : EndsValue T k) :
    k ≠ .delim := by
  rcases h with rfl | h
  · decide
  · have hall : ∀ k ∈ parenthesizedEnd, k ≠ .delim := by decide
    exact hall k (hT (List.contains_iff_mem.1 h))

/-- A value ends before what ends it. -/
theorem gives_end (rounds : Nat) {tail : List Piece} (hclosed : r.builder.closers = [])
    (h : j.Ahead tail placed) (hend : EndsValue T (headKind tail)) :
    (valueFrom T rounds r).Gives j r tail placed := by
  refine .of_read (read_valueFrom_stops rounds ?_) h
  rw [stopsValue_iff r _ hclosed, h.kind]
  exact hend

/-- A mark of importance that is ahead is read as one. -/
theorem gives_mark {rounds : Nat} {tail : List Piece} (hT : T ⊆ parenthesizedEnd)
    (hclosed : r.builder.closers = []) (h : j.Ahead (mark true ++ tail) placed)
    (hend : EndsValue T (headKind tail)) (hsize : j.size ≤ rounds) :
    (valueFrom T rounds r).Gives j r.markImportant tail placed := by
  have hmark : j.Ahead ((.delim, "!") :: (.ident, "important") :: tail) placed := h.tail rfl
  have hword := hmark.advance rfl
  obtain ⟨n, rfl⟩ : ∃ n, rounds = n + 1 := ⟨rounds - 1, by have := hmark.size rfl; omega⟩
  have hkind : j.view.token.kind = .delim := hmark.kind
  have hstops : stopsValue T r j.view = false := by
    rw [Bool.eq_false_iff]
    intro hstop
    exact not_delim_of_endsValue hT ((stopsValue_iff r _ hclosed).1 hstop) hkind
  have hstarts : startsMark r j.view = true := by
    have hdepth : r.builder.depth = 0 := by rw [Value.Builder.depth, hclosed]; rfl
    rw [startsMark, Token.isMark, hkind, hmark.text rfl, hdepth]
    rfl
  have hisWord : j.advance.view.token.isWord "important" = true := by
    have hident : j.advance.view.token.kind = .ident := hword.kind
    rw [Token.isWord, hident, hword.text rfl]
    rfl
  have hbehind := gives_end (T := T) (r := r.markImportant) n hclosed (hword.advance rfl) hend
  exact .congr (.silent (read_takeImportance hisWord) hbehind)
    (read_valueFrom_startsMark n hstops hstarts)

/-- What is printed before a token of a value may stand there. -/
theorem spaced_valueSeparator (fresh : Bool) (lead : List Piece) (k : Kind) :
    Spaced fresh lead k (valueSeparator fresh lead) := by
  rcases fresh with _ | _
  · rcases lead with _ | ⟨q, lead⟩
    · exact Or.inr ⟨rfl, Or.inr (Or.inl ⟨rfl, Or.inl rfl⟩)⟩
    · exact Or.inr ⟨rfl, Or.inl rfl⟩
  · exact Or.inl ⟨rfl, rfl⟩

/-- A blank is printed wherever something stood. -/
theorem isOpen_valueSeparator (lead : List Piece) :
    (spacingOf (valueSeparator false lead)).isOpen = (spacingOf lead).isOpen := by
  rcases lead with _ | ⟨q, lead⟩
  · rfl
  · rw [isOpen_spacingOf, isOpen_spacingOf]
    rfl

/-- A token is written behind a blank where trivia stood before it. -/
theorem text_taken (r : ValueReading) {lead src : List Piece} {p : Piece}
    (hfaces : i.Faces lead p src) :
    (r.taken i.view).builder.text.toList = r.builder.text.toList ++
      spell (valueSeparator r.builder.text.isEmpty lead) ++ p.2.toList := by
  have htext : (r.taken i.view).builder.text = r.builder.text ++
      (if i.view.spacing.isOpen && !r.builder.text.isEmpty then " " else "") ++
        i.view.token.text := rfl
  rw [htext, hfaces.text, hfaces.spacing, isOpen_spacingOf, valueSeparator]
  rcases r.builder.text.isEmpty <;> rcases lead with _ | ⟨q, lead⟩ <;>
    simp [String.toList_append, blank]

/-- What was read of a value from a reading on is printed as these pieces, which close the brackets
that are open, and read again. -/
structure ValueRereads (T : List Kind) (placed : Prop) (r final : ValueReading)
    (src ps : List Piece) : Prop where
  prints : Respaces r.builder.text.isEmpty src ps
  closes : ∀ k ∈ r.builder.closers, ∃ t, (k, t) ∈ ps
  text : final.builder.text.toList = r.builder.text.toList ++ spell ps
  gives : ∀ (rounds : Nat) (j : Input) (tail : List Piece),
    j.Holds r.builder.text.isEmpty (ps ++ (mark final.important ++ tail)) →
    (placed → j.offsets.Nodup) → EndsValue T (headKind tail) → j.size ≤ rounds →
    (valueFrom T rounds r).Gives j final tail placed

/-- Where a value ends nothing more is printed. -/
theorem valueRereads_nil (hT : T ⊆ parenthesizedEnd) {final : ValueReading} {src : List Piece}
    (hclosed : r.builder.closers = [])
    (hfinal : (final = r ∧ r.important = false) ∨ final = r.markImportant) :
    ValueRereads T placed r final src [] where
  prints := .ends
  closes := by
    rw [hclosed]
    exact List.forall_mem_nil _
  text := by
    rw [spell_nil, List.append_nil]
    rcases hfinal with ⟨rfl, _⟩ | rfl <;> rfl
  gives rounds j tail hholds hoffsets hend hsize := by
    have hahead := Ahead.of_holds hholds hoffsets
    rcases hfinal with ⟨rfl, himportant⟩ | rfl
    · rw [himportant] at hahead
      exact gives_end rounds hclosed hahead hend
    · exact gives_mark hT hclosed hahead hend hsize

/-- What a reading sees of the same token, with the same spacing unless nothing was read. -/
theorem taken_eq {before lead src src' : List Piece} {p : Piece} (hi : i.Faces lead p src)
    (hj : j.Faces before p src')
    (hbefore : r.builder.text.isEmpty = false → before = valueSeparator false lead) :
    r.builder.feed j.view.token j.view.spacing.isOpen =
      r.builder.feed i.view.token i.view.spacing.isOpen := by
  refine feed_congr _ (hj.kind.trans hi.kind.symm) (hj.text.trans hi.text.symm) ?_
  rcases hfresh : r.builder.text.isEmpty
  · rw [hj.spacing, hi.spacing, hbefore hfresh, isOpen_valueSeparator]
  · rw [Bool.not_true, Bool.and_false, Bool.and_false]

/-- The same token is taken from a print as from the source. -/
theorem read_valueFrom_alike {before lead src src' : List Piece} {p : Piece} (rounds : Nat)
    (hi : i.Faces lead p src) (hj : j.Faces before p src')
    (hbefore : r.builder.text.isEmpty = false → before = valueSeparator false lead)
    (hstops : stopsValue T r i.view = false) (hstarts : startsMark r i.view = false)
    (haccepted : (r.builder.feed i.view.token i.view.spacing.isOpen).2 = true) :
    (valueFrom T (rounds + 1) r).read j =
      (valueFrom T rounds (r.taken i.view)).read j.advance := by
  have hfed := taken_eq hi hj hbefore
  have hkind : j.view.kind = i.view.kind := hj.kind.trans hi.kind.symm
  have hsame : j.view.token.kind = i.view.token.kind := hkind
  have htaken : r.taken j.view = r.taken i.view := by
    rw [ValueReading.taken, ValueReading.taken, hfed]
  rw [← htaken]
  refine read_valueFrom_token rounds ?_ ?_ (by rw [hfed]; exact haccepted)
  · rw [← hstops, stopsValue, stopsValue, View.atEnd, View.atEnd, hsame, hkind]
  · rw [← hstarts, startsMark, startsMark, Token.isMark, Token.isMark, hsame, hj.text, hi.text]

/-- A token that is accepted closes a bracket, or leaves all that are open. -/
theorem mem_track {closers : List Kind} {kind k : Kind}
    (haccepted : (Value.Builder.track closers kind).2 = true) (hk : k ∈ closers) :
    k = kind ∨ k ∈ (Value.Builder.track closers kind).1 := by
  unfold Value.Builder.track at haccepted ⊢
  split
  · exact Or.inr hk
  · exact Or.inr hk
  · simp only at haccepted ⊢
    split
    · exact Or.inr (List.mem_cons_of_mem _ hk)
    · split
      · split
        · split
          · next hexpected =>
            rw [← hexpected]
            exact List.mem_cons.1 hk
          · exact Or.inr hk
        · exact Or.inr hk
      · exact Or.inr hk

/-- A token that was accepted is printed and read again, and then what follows it. -/
theorem ValueRereads.token {final : ValueReading} {lead src ps : List Piece} {p : Piece}
    (hpieces : i.pieces = lead ++ p :: src) (hlead : AreTrivia lead)
    (hp : p.1.isSignificant = true) (hregular : Regular (p :: src))
    (hstops : stopsValue T r i.view = false) (hstarts : startsMark r i.view = false)
    (haccepted : (r.builder.feed i.view.token i.view.spacing.isOpen).2 = true)
    (h : ValueRereads T placed (r.taken i.view) final src ps) :
    ValueRereads T placed r final i.pieces
      (valueSeparator r.builder.text.isEmpty lead ++ p :: ps) := by
  have hfaces := faces_of_pieces hpieces hlead hp
  have htext := text_taken r hfaces
  have hfresh : (r.taken i.view).builder.text.isEmpty = false := by
    have hne := ne_nil_of_first hregular.first_eq
    rw [Bool.eq_false_iff, Ne, String.isEmpty_iff, ← String.toList_eq_nil_iff, htext]
    simp [hne]
  have hkind : i.view.token.kind = p.1 := hfaces.kind
  have hclosers : (r.taken i.view).builder.closers =
      (Value.Builder.track r.builder.closers p.1).1 := by
    rw [← hkind]
    rfl
  have htrack : (Value.Builder.track r.builder.closers p.1).2 = true := by
    rw [← hkind]
    exact haccepted
  have hkept : ∀ k : Kind, k = .badString ∨ k = .badUrl → p.1 ≠ k := by
    rintro k (rfl | rfl) hbad <;>
    · rw [hbad] at htrack
      exact absurd htrack Bool.false_ne_true
  refine ⟨?_, ?_, ?_, ?_⟩
  · rw [hpieces]
    have hprints := h.prints
    rw [hfresh] at hprints
    refine .token hlead hp (hkept _ (Or.inl rfl)) (hkept _ (Or.inr rfl))
      (fun hfunction => h.closes _ ?_) hprints
    rw [hclosers, show p.1 = .function from hfunction]
    exact List.mem_cons_self
  · intro k hk
    rcases mem_track htrack hk with rfl | hk
    · exact ⟨p.2, List.mem_append_right _ List.mem_cons_self⟩
    · obtain ⟨t, ht⟩ := h.closes k (hclosers ▸ hk)
      exact ⟨t, List.mem_append_right _ (List.mem_cons_of_mem _ ht)⟩
  · rw [h.text, htext, spell_append, spell_cons, List.append_assoc, List.append_assoc]
  · intro rounds j tail hholds hoffsets hend hsize
    rw [List.append_assoc] at hholds
    obtain ⟨before, hj, hbefore⟩ := hholds.faces (spaced_valueSeparator _ lead _) hp
    obtain ⟨n, rfl⟩ : ∃ n, rounds = n + 1 := ⟨rounds - 1, by have := hj.size; omega⟩
    have hread := read_valueFrom_alike n hfaces hj
      (fun hfresh => by rw [hbefore hfresh, hfresh]) hstops hstarts haccepted
    refine .congr (h.gives n j.advance tail ?_ ?_ hend ?_) hread
    · rw [hfresh]
      exact holds_advance hj
    · exact fun hplaced => (Reaches.advance j).nodup_offsets (hoffsets hplaced)
    · have := hj.size
      omega

/-- A value that ends soundly, with all its brackets closed, is read back from its print. -/
theorem valueFrom_reads_back (hT : T ⊆ parenthesizedEnd) (rounds : Nat)
    (hregular : Regular i.pieces) (hsize : i.size ≤ rounds) (himportant : r.important = false)
    {final : ValueReading} (hfinal : ((valueFrom T rounds r).read i).result = final)
    (hsound : final.sound = true) (hclosed : final.builder.closers = []) :
    EndsValue T ((valueFrom T rounds r).read i).rest.view.kind ∧
      ∃ ps, ValueRereads T placed r final i.pieces ps := by
  induction rounds generalizing r i with
  | zero =>
    have hkind : i.view.kind = .eof := by
      rcases i.faces_cases with ⟨_, hkind, _⟩ | ⟨_, _, _, _, _, _, hfaces⟩
      · exact hkind
      · have := hfaces.size
        omega
    have hr : r = final := hfinal
    exact ⟨Or.inl hkind, [], valueRereads_nil hT (hr ▸ hclosed) (Or.inl ⟨hr.symm, himportant⟩)⟩
  | succ rounds ih =>
    rcases hstops : stopsValue T r i.view
    case true =>
      rw [read_valueFrom_stops (rounds + 1) hstops] at hfinal ⊢
      have hr : r = final := hfinal
      have hend := (stopsValue_iff r i.view (hr ▸ hclosed)).1 hstops
      exact ⟨hend, [], valueRereads_nil hT (hr ▸ hclosed) (Or.inl ⟨hr.symm, himportant⟩)⟩
    rcases hstarts : startsMark r i.view
    case true =>
      rw [← hfinal] at hsound
      obtain ⟨_, hread, hbehind⟩ := read_valueFrom_mark rounds hsize hstops hstarts hsound
      rw [hread] at hfinal ⊢
      have hr : final = r.markImportant := hfinal.symm
      have hclosed' : r.builder.closers = [] := by rw [hr] at hclosed; exact hclosed
      exact ⟨(stopsValue_iff _ _ hclosed').1 hbehind, [],
        valueRereads_nil hT hclosed' (Or.inr hr)⟩
    rcases haccepted : (r.builder.feed i.view.token i.view.spacing.isOpen).2
    case false =>
      rw [← hfinal] at hsound
      have hunsound := unsound_of_refused rounds hstops hstarts haccepted
      exact absurd (hsound.symm.trans hunsound) (by decide)
    rw [read_valueFrom_token rounds hstops hstarts haccepted] at hfinal ⊢
    rcases i.faces_cases with ⟨_, hkind, _⟩ | ⟨lead, p, src, hpieces, hlead, hp, hfaces⟩
    · exact absurd (hstops.symm.trans (stopsValue_of_eof hkind)) (by decide)
    have hsource : Regular (p :: src) := by
      rw [hpieces] at hregular
      exact hregular.of_append
    have hsmaller : i.advance.size ≤ rounds := by
      have := hfaces.size
      omega
    obtain ⟨hend, ps, hps⟩ := ih (r := r.taken i.view) (i := i.advance)
      (by rw [hfaces.advance]; exact hsource.tail) hsmaller himportant hfinal
    rw [hfaces.advance] at hps
    exact ⟨hend, _, hps.token hpieces hlead hp hsource hstops hstarts haccepted⟩

/-! ### Values -/

/-- A mark of importance is legible. -/
theorem legible_importance : Legible [(.delim, "!"), (.ident, "important")] :=
  .cons_alone ⟨rfl, fun _ => rfl⟩ <|
    .of_first rfl rfl rfl (.of_not_mem (by decide)) fun h =>
      absurd h.mem (by decide)

/-- A value with its mark of importance as text. -/
def declaredText (value : Value) (important : Bool) : String :=
  value.text ++ (if important then " !important" else "")

/-- A mark of importance is spelled as it is printed. -/
theorem spell_mark (important : Bool) :
    spell (mark important) = (if important then " !important" else "").toList := by
  cases important <;> rfl

/-- A value that was accepted is printed, with its mark, so that it is read back. -/
theorem value_reads_back (hT : T ⊆ parenthesizedEnd) (hregular : Regular i.pieces) :
    (value T).Yields i fun parsed rest => parsed.valid = true →
      EndsValue T rest.view.kind ∧ ∃ v, parsed.value = some v ∧
        ReadsBack (fun _ => value T) (fun _ => True) (EndsValue T) parsed
          (declaredText v parsed.important) placed := by
  refine .enclosed (.view (.bind (Q := fun r rest => rest = _ ∧ r = _) ⟨rfl, rfl⟩
    fun r rest _ hr => .pure fun hvalid => ?_))
  obtain ⟨rfl, hr⟩ := hr
  have hsound : r.sound = true ∧ r.builder.text.isEmpty = false ∧ r.builder.closers = [] := by
    simpa [ValueReading.result, Value.Builder.isValid, ValueReading.sound, and_assoc,
      and_left_comm] using hvalid
  obtain ⟨hend, ps, hps⟩ := @valueFrom_reads_back T _ _ placed hT i.view.size hregular
    (Nat.le_refl _) rfl _ hr.symm hsound.1 hsound.2.2
  have htext : spell ps = r.builder.text.toList := by
    rw [hps.text]
    rfl
  have hne : ps ≠ [] := by
    rintro rfl
    rw [spell_nil, eq_comm, String.toList_eq_nil_iff] at htext
    rw [htext] at hsound
    exact absurd hsound.2.1 (by decide)
  have hlegible := hps.prints.legible hregular hne
  refine ⟨hend, ⟨r.builder.text⟩, ?_, ps ++ mark r.important, ?_, ?_, trivial, ?_⟩
  · simp [ValueReading.result, Value.Builder.value?, hsound.2.1]
  · rw [spell_append, htext, spell_mark, declaredText, String.toList_append]
    rfl
  · cases r.important
    · rwa [mark, if_neg (by decide), List.append_nil]
    · exact hlegible.append_blank legible_importance
  · intro _ j tail hahead hendTail _
    rw [List.append_assoc] at hahead
    have hread := hps.gives j.view.size j tail hahead.holds hahead.offsets hendTail (Nat.le_refl _)
    exact .enclosed (.view (.bind hread fun _ _ hrest => .pure hrest))

end Cssom.Grammar

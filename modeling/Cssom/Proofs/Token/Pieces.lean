import Cssom.Proofs.Token.Ends
import Cssom.Token.Lexer
import Mathlib.Algebra.GroupWithZero.Nat

/-!
# Cutting loses nothing

Every form takes at least one character, so a text is cut into its first piece and the pieces of the
rest (`pieces_cons`), and the pieces, put together, are the text (`flatten_pieces`). No piece is
empty, so the tokens of a source of less than 4 GiB start at different bytes
(`nodup_offsets_tokenize`).
-/

namespace Cssom.Token

open Pattern

/-- Every form takes something. -/
theorem forms_takesSome : ∀ form ∈ forms, form.2.takesSome = true :=
  List.all_eq_true.1 (by rfl)

/-- No form is for the end of a source. -/
theorem forms_kind_ne_eof : ∀ form ∈ forms, form.1 ≠ .eof := by
  decide

/-! ### The first piece -/

/-- The first piece is the match of a form, or a delimiter of one character. -/
theorem first_cases (s : List Char) :
    (∃ form ∈ forms, ∃ n, form.2.length? s = some n ∧ first s = (form.1, n)) ∨
      first s = (.delim, 1) := by
  have hfirst : first s =
      (forms.findSome? fun form => (form.2.length? s).map (form.1, ·)).getD (.delim, 1) := rfl
  rcases h : forms.findSome? fun form => (form.2.length? s).map (form.1, ·) with _ | piece
  · rw [h] at hfirst
    exact Or.inr hfirst
  · obtain ⟨form, hform, hmatch⟩ := List.exists_of_findSome?_eq_some h
    obtain ⟨n, hn, rfl⟩ := Option.map_eq_some_iff.1 hmatch
    rw [h] at hfirst
    exact Or.inl ⟨form, hform, n, hn, hfirst⟩

/-- The first piece is not empty. -/
theorem first_pos (s : List Char) : 0 < (first s).2 := by
  rcases first_cases s with ⟨form, hform, n, hlen, h⟩ | h
  · rw [length?_eq_head?, Option.map_eq_some_iff] at hlen
    obtain ⟨q, hq, rfl⟩ := hlen
    rw [h]
    exact form.2.lt_of_mem_ends (forms_takesSome form hform) _ q (List.mem_of_head? hq)
  · rw [h]
    exact Nat.one_pos

/-- The first piece is not the end of the source. -/
theorem first_kind_ne_eof (s : List Char) : (first s).1 ≠ .eof := by
  rcases first_cases s with ⟨form, hform, n, _, h⟩ | h
  · rw [h]
    exact forms_kind_ne_eof form hform
  · rw [h]
    decide

/-! ### All pieces -/

/-- The pieces behind so many characters are those of what is left. -/
theorem piecesFrom_eq_drop (pending : Nat) (s : List Char) :
    piecesFrom pending s = pieces (s.drop pending) := by
  induction pending generalizing s with
  | zero => rfl
  | succ pending ih =>
    cases s with
    | nil => rfl
    | cons c rest => rw [piecesFrom, ih, List.drop_succ_cons]

/-- The empty text has no pieces. -/
theorem pieces_nil : pieces [] = [] := rfl

/-- The pieces of a text are the first of them and those of what is left. -/
theorem pieces_of_ne_nil {s : List Char} (h : s ≠ []) :
    pieces s = ((first s).1, String.ofList (s.take (first s).2)) ::
      pieces (s.drop (first s).2) := by
  obtain ⟨c, rest, rfl⟩ := List.exists_cons_of_ne_nil h
  have hpos := first_pos (c :: rest)
  have hdrop : (c :: rest).drop (first (c :: rest)).2 = rest.drop ((first (c :: rest)).2 - 1) := by
    obtain ⟨n, hn⟩ : ∃ n, (first (c :: rest)).2 = n + 1 := ⟨(first (c :: rest)).2 - 1, by omega⟩
    rw [hn, List.drop_succ_cons, Nat.add_sub_cancel]
  rw [hdrop, ← piecesFrom_eq_drop]
  rfl

/-- To show something of the pieces of every text, show it of the empty one, and of one whose first
piece is cut off what it holds of. -/
theorem pieces_induct {P : List Char → Prop} (nil : P [])
    (cut : ∀ s, s ≠ [] → P (s.drop (first s).2) → P s) (s : List Char) : P s := by
  induction hn : s.length using Nat.strongRecOn generalizing s with
  | ind n ih =>
    by_cases hs : s = []
    · exact hs ▸ nil
    · refine cut s hs (ih _ ?_ _ rfl)
      have hpos := first_pos s
      have hlen := List.length_pos_iff.2 hs
      rw [List.length_drop]
      omega

/-- The pieces, put together, are the text. -/
theorem flatten_pieces (s : List Char) : ((pieces s).map (·.2.toList)).flatten = s := by
  induction s using pieces_induct with
  | nil => rfl
  | cut s hs ih =>
    rw [pieces_of_ne_nil hs, List.map_cons, List.flatten_cons, ih, String.toList_ofList,
      List.take_append_drop]

/-- No piece is empty. -/
theorem pieces_text_ne_empty (s : List Char) : ∀ piece ∈ pieces s, piece.2 ≠ "" := by
  induction s using pieces_induct with
  | nil => exact fun _ hp => absurd hp List.not_mem_nil
  | cut s hs ih =>
    intro piece hp
    rw [pieces_of_ne_nil hs, List.mem_cons] at hp
    rcases hp with rfl | hp
    · intro hempty
      have htake : s.take (first s).2 = [] := String.ofList_eq_empty_iff.1 hempty
      have hpos := first_pos s
      rw [List.take_eq_nil_iff] at htake
      rcases htake with hzero | hnil
      · omega
      · exact hs hnil
    · exact ih piece hp

/-- No piece is the end of the source. -/
theorem pieces_kind_ne_eof (s : List Char) : ∀ piece ∈ pieces s, piece.1 ≠ .eof := by
  induction s using pieces_induct with
  | nil => exact fun _ hp => absurd hp List.not_mem_nil
  | cut s hs ih =>
    intro piece hp
    rw [pieces_of_ne_nil hs, List.mem_cons] at hp
    rcases hp with rfl | hp
    · exact first_kind_ne_eof s
    · exact ih piece hp

/-! ### Places -/

/-- How many bytes pieces cover. -/
def bytes (ps : List (Kind × String)) : Nat :=
  (ps.map (·.2.utf8ByteSize)).sum

/-- The pieces of a text cover its bytes. -/
theorem bytes_pieces (source : String) : bytes (pieces source.toList) = source.utf8ByteSize := by
  have hsum : ∀ ps : List (Kind × String),
      (String.ofList (ps.map (·.2.toList)).flatten).utf8ByteSize = bytes ps := by
    intro ps
    induction ps with
    | nil => rfl
    | cons p ps ih =>
      rw [List.map_cons, List.flatten_cons, String.ofList_append, String.utf8ByteSize_append, ih,
        String.ofList_toList]
      rfl
  rw [← hsum, flatten_pieces, String.ofList_toList]

/-- Pieces as tokens are the tokens of the pieces, and after them the end. -/
theorem place_eq (file : String) (offset : Nat) (ps : List (Kind × String)) :
    ∃ ts, place file offset ps = ts ++ [endAt (.ofBytes (offset + bytes ps) file)] ∧
      ts.map (fun t => (t.kind, t.text)) = ps := by
  induction ps generalizing offset with
  | nil => exact ⟨[], rfl, rfl⟩
  | cons p ps ih =>
    obtain ⟨ts, hplace, hts⟩ := ih (offset + p.2.utf8ByteSize)
    refine ⟨⟨p.1, p.2, .ofBytes offset file, .ofBytes (offset + p.2.utf8ByteSize) file⟩ :: ts,
      ?_, ?_⟩
    · have hbytes : bytes (p :: ps) = p.2.utf8ByteSize + bytes ps := rfl
      rw [place, hplace, hbytes, ← Nat.add_assoc]
      rfl
    · rw [List.map_cons, hts]

/-- Every token starts between the place of the first and the end. -/
theorem start_of_mem_place (file : String) (offset : Nat) (ps : List (Kind × String)) :
    ∀ t ∈ place file offset ps,
      ∃ n, offset ≤ n ∧ n ≤ offset + bytes ps ∧ t.span.start.offset = UInt32.ofNat n := by
  induction ps generalizing offset with
  | nil =>
    intro t ht
    rw [place, List.mem_singleton] at ht
    exact ⟨offset, Nat.le_refl _, Nat.le_add_right _ _, by rw [ht]; rfl⟩
  | cons p ps ih =>
    intro t ht
    have hbytes : bytes (p :: ps) = p.2.utf8ByteSize + bytes ps := rfl
    rw [place, List.mem_cons] at ht
    rcases ht with rfl | ht
    · exact ⟨offset, Nat.le_refl _, Nat.le_add_right _ _, rfl⟩
    · obtain ⟨n, hlow, hhigh, hn⟩ := ih _ t ht
      exact ⟨n, by omega, by omega, hn⟩

/-- Pieces that are not empty are placed at different bytes, as long as they fit the counter. -/
theorem nodup_offsets_place (file : String) (offset : Nat) (ps : List (Kind × String))
    (htext : ∀ p ∈ ps, p.2 ≠ "") (hsmall : offset + bytes ps < 2 ^ 32) :
    ((place file offset ps).map (·.span.start.offset)).Nodup := by
  induction ps generalizing offset with
  | nil => simp [place]
  | cons p ps ih =>
    have hbytes : bytes (p :: ps) = p.2.utf8ByteSize + bytes ps := rfl
    have hpos : 0 < p.2.utf8ByteSize := by
      have hne := htext p List.mem_cons_self
      have hzero : p.2.utf8ByteSize ≠ 0 := fun h => hne (String.utf8ByteSize_eq_zero_iff.1 h)
      omega
    rw [place, List.map_cons, List.nodup_cons]
    refine ⟨?_, ih _ (fun q hq => htext q (List.mem_cons_of_mem _ hq)) (by omega)⟩
    intro hmem
    obtain ⟨t, ht, hoff⟩ := List.mem_map.1 hmem
    obtain ⟨n, hlow, hhigh, hn⟩ := start_of_mem_place file _ ps t ht
    have heq : UInt32.ofNat n = UInt32.ofNat offset := hn.symm.trans hoff
    have hnat := congrArg UInt32.toNat heq
    rw [UInt32.toNat_ofNat', UInt32.toNat_ofNat', Nat.mod_eq_of_lt (by omega),
      Nat.mod_eq_of_lt (by omega)] at hnat
    omega

/-- The tokens of a source of less than 4 GiB start at different bytes. -/
theorem nodup_offsets_tokenize (source : String) (file : Option String)
    (h : source.utf8ByteSize < 2 ^ 32) :
    ((tokenize source file).map (·.span.start.offset)).Nodup := by
  refine nodup_offsets_place _ 0 _ (pieces_text_ne_empty _) ?_
  rw [bytes_pieces]
  omega

/-- Up to the first end, the tokens of a source are its pieces. -/
theorem tokenize_eq (source : String) (file : Option String) :
    ∃ ts eof, tokenize source file = ts ++ [eof] ∧ eof.kind = .eof ∧
      ts.map (fun t => (t.kind, t.text)) = pieces source.toList ∧
      (tokenize source file).takeWhile (·.kind != .eof) = ts := by
  obtain ⟨ts, hplace, hts⟩ := place_eq (file.getD Position.inlineFile) 0 (pieces source.toList)
  refine ⟨ts, _, hplace, rfl, hts, ?_⟩
  have hkinds : ∀ t ∈ ts, (t.kind != .eof) = true := by
    intro t ht
    have hmem : (t.kind, t.text) ∈ pieces source.toList := hts ▸ List.mem_map_of_mem ht
    exact bne_iff_ne.2 (pieces_kind_ne_eof _ _ hmem)
  unfold tokenize
  rw [hplace, List.takeWhile_append_of_pos hkinds]
  simp [endAt]

end Cssom.Token

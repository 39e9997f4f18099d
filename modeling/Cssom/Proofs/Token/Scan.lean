import Cssom.Proofs.Token.Special
import Cssom.Rule.Render
import Mathlib.Data.List.Chain

/-!
# A scan is total and loses nothing

At every place of a source that is not its end some form matches, if none else the one that takes
any character, and what it takes is not empty; so the cursor moves in every round and nothing is
ever reported. A kind with a single spelling has a pattern that matches just that spelling
(`cutSize_eq`), so every cut falls behind the last character that was matched, and the round does
what `pieces` does (`cut_scanForms`). A scan therefore gives the tokens of `tokenize`
(`scan_eq_tokenize`), of which `scan_covers_source` says that they cover the source.
-/

namespace Cssom.Token

open Pattern

/-! ### How much is cut -/

/-- Fixed characters are taken as they stand. -/
theorem taken_of_mem_chars : ∀ (cs : List Char) {n : Nat} {s : List Char} {b : Place},
    b ∈ (chars cs).ends (n, s) → s = cs ++ b.2 ∧ b.1 = n + cs.length
  | [], n, s, b, hb => by
    rw [chars, ends, List.mem_singleton] at hb
    subst hb
    exact ⟨rfl, rfl⟩
  | [c], n, s, b, hb => by
    cases s with
    | nil => exact absurd hb List.not_mem_nil
    | cons d s =>
      rw [chars, char, ends] at hb
      split at hb
      · next hd =>
        rw [List.mem_singleton] at hb
        subst hb
        exact ⟨by rw [← eq_of_beq hd]; rfl, rfl⟩
      · exact absurd hb List.not_mem_nil
  | c :: d :: cs, n, s, b, hb => by
    rw [chars, ends, List.mem_flatMap] at hb
    · obtain ⟨m, hm, hb⟩ := hb
      obtain ⟨hs, hn⟩ := taken_of_mem_chars [c] hm
      obtain ⟨hs', hn'⟩ := taken_of_mem_chars (d :: cs) hb
      refine ⟨by rw [hs, hs']; rfl, ?_⟩
      rw [hn', hn]
      simp only [List.length_cons, List.length_nil]
      omega
    · simp

/-- The match of a fixed text is that text. -/
theorem take_of_literal {text : String} {s : List Char} {n : Nat}
    (h : (literal text).length? s = some n) : s.take n = text.toList := by
  obtain ⟨b, hb, rfl⟩ := length?_eq_some.1 h
  obtain ⟨hs, hn⟩ := taken_of_mem_chars _ (List.mem_of_head? hb)
  rw [hs, hn, Nat.zero_add, List.take_left]

/-- The pattern of a kind with a single spelling is that spelling. -/
theorem forms_spelled : ∀ form ∈ forms, ∀ spelling, form.1.spelling? = some spelling →
    form.2 = literal spelling := by
  simp [forms, Kind.spelling?]

/-- A token of a kind with a single spelling is that spelling. -/
theorem toList_of_spelling {t s : List Char} {k : Kind} {spelling : String}
    (h : first (t ++ s) = (k, t.length)) (hk : k.spelling? = some spelling) :
    t = spelling.toList := by
  have hdelim : k ≠ .delim := by
    rintro rfl
    exact absurd hk (by simp [Kind.spelling?])
  obtain ⟨before, p, after, htable, hmatch, _⟩ :=
    (form_of_first h).resolve_right fun hnone => hdelim hnone.2.1
  have hform : (k, p) ∈ forms := by
    rw [htable]
    exact List.mem_append_right _ List.mem_cons_self
  have hp : p = literal spelling := forms_spelled _ hform spelling hk
  rw [hp] at hmatch
  have htake := take_of_literal hmatch
  rwa [List.take_left] at htake

/-- A form cuts the bytes of what its pattern matched. -/
theorem cutSize_eq {form : Kind × Pattern} (hform : form ∈ forms) {s : List Char} {n : Nat}
    (h : form.2.length? s = some n) :
    cutSize form.1 (s.take n) = (String.ofList (s.take n)).utf8ByteSize := by
  unfold cutSize
  rcases hspelling : form.1.spelling? with _ | spelling
  · rfl
  · rw [forms_spelled form hform spelling hspelling] at h
    simp only [take_of_literal h, String.ofList_toList]

/-! ### Cutting by bytes -/

/-- A text has the bytes of its first character and those of the rest. -/
theorem utf8ByteSize_ofList_cons (c : Char) (cs : List Char) :
    (String.ofList (c :: cs)).utf8ByteSize = c.utf8Size + (String.ofList cs).utf8ByteSize := by
  rw [String.ofList_cons, String.utf8ByteSize_append, String.utf8ByteSize_singleton]

/-- The bytes of some characters at the start of a text are split off as these characters. -/
theorem splitBytes_append (taken left : List Char) :
    Cursor.splitBytes (String.ofList taken).utf8ByteSize (taken ++ left) = (taken, left) := by
  induction taken with
  | nil =>
    cases left with
    | nil => rfl
    | cons c left =>
      have hsize : (String.ofList []).utf8ByteSize < c.utf8Size := c.utf8Size_pos
      rw [List.nil_append, Cursor.splitBytes, if_pos hsize]
  | cons c taken ih =>
    have hsize := utf8ByteSize_ofList_cons c taken
    rw [List.cons_append, Cursor.splitBytes, if_neg (by omega), hsize, Nat.add_sub_cancel_left, ih]

namespace Cursor

/-- The cursor behind a piece of so many characters. -/
def behind (cursor : Cursor) (piece : Kind × Nat) : Cursor :=
  let text := String.ofList (cursor.rest.take piece.2)
  let stop := cursor.offset + text.utf8ByteSize
  { cursor with
    offset := stop
    rest := cursor.rest.drop piece.2
    tokens := cursor.tokens.push
      ⟨piece.1, text, .ofBytes cursor.offset cursor.file, .ofBytes stop cursor.file⟩ }

/-- A token is cut off where its bytes end. -/
theorem emit_eq_behind (cursor : Cursor) (kind : Kind) (n : Nat) :
    cursor.emit kind (String.ofList (cursor.rest.take n)).utf8ByteSize =
      cursor.behind (kind, n) := by
  have hsplit := splitBytes_append (cursor.rest.take n) (cursor.rest.drop n)
  rw [List.take_append_drop] at hsplit
  simp only [emit, hsplit, behind]

/-- Behind a piece that is not empty the cursor has moved. -/
theorem offset_lt_behind {cursor : Cursor} (h : cursor.rest ≠ []) (piece : Kind × Nat)
    (hpiece : 0 < piece.2) : cursor.offset < (cursor.behind piece).offset := by
  obtain ⟨c, rest, hrest⟩ := List.exists_cons_of_ne_nil h
  obtain ⟨n, hn⟩ : ∃ n, piece.2 = n + 1 := ⟨piece.2 - 1, by omega⟩
  have hsize := utf8ByteSize_ofList_cons c (rest.take n)
  have hpos := c.utf8Size_pos
  simp only [behind, hrest, hn, List.take_succ_cons]
  omega

/-- The cut by a table goes behind the first piece that the table finds. -/
theorem cut_table {table : List (Kind × Pattern)} (htable : ∀ form ∈ table, form ∈ forms)
    (cursor : Cursor) (h : cursor.rest ≠ []) :
    cursor.cut (table ++ [(.delim, .one fun _ => true)]) =
      cursor.behind (firstFrom table cursor.rest) := by
  induction table with
  | nil =>
    obtain ⟨c, rest, hrest⟩ := List.exists_cons_of_ne_nil h
    have hmatch : (Pattern.one fun _ => true).length? cursor.rest = some 1 := by
      rw [hrest]
      rfl
    have hlt := offset_lt_behind h (.delim, 1) Nat.one_pos
    rw [List.nil_append, cut, hmatch]
    simp only [cutSize, Kind.spelling?, emit_eq_behind, if_pos hlt]
    rfl
  | cons form table ih =>
    have hform := htable form List.mem_cons_self
    rw [List.cons_append, cut, firstFrom_cons]
    cases hmatch : form.2.length? cursor.rest with
    | none => exact ih fun other hother => htable other (List.mem_cons_of_mem _ hother)
    | some n =>
      obtain ⟨b, hb, hn⟩ := length?_eq_some.1 hmatch
      have hpos : 0 < n :=
        hn ▸ form.2.lt_of_mem_ends (forms_takesSome form hform) _ b (List.mem_of_head? hb)
      have hlt := offset_lt_behind h (form.1, n) hpos
      simp only [cutSize_eq hform hmatch, emit_eq_behind, if_pos hlt]

/-- A round of the scan cuts the first piece off. -/
theorem cut_scanForms {cursor : Cursor} (h : cursor.rest ≠ []) :
    cursor.cut scanForms = cursor.behind (first cursor.rest) :=
  cut_table (fun _ hform => hform) cursor h

end Cursor

/-! ### All rounds -/

/-- At the end of the source no piece is left. -/
theorem Cursor.finish_eq {cursor : Cursor} (h : cursor.rest = []) : cursor.finish =
    cursor.tokens.toList ++ place cursor.file cursor.offset (pieces cursor.rest) := by
  rw [h, pieces_nil, place, Cursor.finish, Array.toList_push]

/-- A scan from a cursor gives the tokens cut before it and the pieces of what is left, placed from
there on. -/
theorem scanFrom_eq (rounds : Nat) (cursor : Cursor) (h : cursor.rest.length ≤ rounds) :
    scanFrom rounds cursor =
      .ok (cursor.tokens.toList ++ place cursor.file cursor.offset (pieces cursor.rest)) := by
  induction rounds generalizing cursor with
  | zero => rw [scanFrom, Cursor.finish_eq (List.length_eq_zero_iff.1 (Nat.le_zero.1 h))]
  | succ rounds ih =>
    by_cases hrest : cursor.rest = []
    · have hend : cursor.atEnd = true := by rw [Cursor.atEnd, hrest]; rfl
      rw [scanFrom, if_pos hend, Cursor.finish_eq hrest]
    · have hend : ¬ cursor.atEnd = true := by rwa [Cursor.atEnd, List.isEmpty_iff]
      have hpos := first_pos cursor.rest
      have hlt := Cursor.offset_lt_behind hrest _ hpos
      have hlength : (cursor.behind (first cursor.rest)).rest.length ≤ rounds := by
        have hpositive := List.length_pos_iff.2 hrest
        simp only [Cursor.behind, List.length_drop]
        omega
      rw [scanFrom, if_neg hend]
      simp only [Cursor.cut_scanForms hrest, if_pos hlt]
      rw [ih _ hlength, pieces_of_ne_nil hrest, place]
      simp only [Cursor.behind, Array.toList_push, List.append_assoc, List.singleton_append]

/-- A scan reports nothing, and gives the tokens of the source. -/
theorem scan_eq_tokenize (source : String) (file : Option String) :
    scan source file = .ok (tokenize source file) := by
  rw [scan, scanFrom_eq _ _ (Nat.le_of_eq String.length_toList)]
  rfl

/-! ### The tokens of a source -/

/-- A token list spells its first token and then the rest. -/
theorem spelling_cons (t : Token) (ts : List Token) :
    spelling (t :: ts) = t.text ++ spelling ts := by
  simp [spelling]

/-- Two token lists spell the texts of both. -/
theorem spelling_append (ts us : List Token) :
    spelling (ts ++ us) = spelling ts ++ spelling us := by
  simp [spelling]

/-- Tokens are spelled as the pieces they were placed from. -/
theorem toList_spelling (ts : List Token) : (spelling ts).toList =
    ((ts.map fun t => (t.kind, t.text)).map (·.2.toList)).flatten := by
  induction ts with
  | nil => rfl
  | cons t ts ih => simpa [spelling] using ih

/-- The tokens of a text, put together, are the text. -/
theorem spelling_tokenize (text : String) (file : Option String) :
    spelling ((tokenize text file).takeWhile (·.kind != .eof)) = text := by
  obtain ⟨ts, eof, _, _, hpieces, htake⟩ := tokenize_eq text file
  rw [htake, ← String.toList_inj, toList_spelling, hpieces, flatten_pieces]

/-- A token that is placed lies right behind the texts of the tokens before it. -/
theorem span_of_place {file : String} {offset : Nat} {ps : List (Kind × String)}
    {before after : List Token} {t : Token} (h : place file offset ps = before ++ t :: after) :
    t.span = ⟨.ofBytes (offset + (spelling before).utf8ByteSize) file,
      .ofBytes (offset + (spelling before).utf8ByteSize + t.text.utf8ByteSize) file⟩ := by
  induction before generalizing offset ps with
  | nil =>
    cases ps with
    | nil =>
      rw [place, List.nil_append, List.cons.injEq] at h
      rw [← h.1]
      rfl
    | cons p ps =>
      rw [place, List.nil_append, List.cons.injEq] at h
      rw [← h.1]
      rfl
  | cons u before ih =>
    cases ps with
    | nil =>
      rw [place, List.cons_append, List.cons.injEq] at h
      exact absurd h.2.symm (by simp)
    | cons p ps =>
      rw [place, List.cons_append, List.cons.injEq] at h
      have hspan := ih h.2
      have htext : u.text = p.2 := by rw [← h.1]
      rw [hspan, spelling_cons, String.utf8ByteSize_append, htext, ← Nat.add_assoc]

/-- Every source is scanned to its end, without an error. The last token is of kind EOF, and no
other is; every other has a text that is not empty, and these texts, put together, are the source.
The first token starts at byte 0, every other where the one before it stops, each covers as many
bytes as its text has, and the end is empty and behind the last byte of the source. -/
theorem scan_covers_source (source : String) (file : Option String) :
    ∃ (tokens : List Token) (eof : Token),
      scan source file = .ok (tokens ++ [eof]) ∧
      eof.kind = .eof ∧ (∀ t ∈ tokens, t.kind ≠ .eof ∧ t.text ≠ "") ∧
      spelling tokens = source ∧
      (tokens ++ [eof]).head?.map (·.span.start) =
        some (.ofBytes 0 (file.getD Position.inlineFile)) ∧
      (tokens ++ [eof]).IsChain (fun t next => next.span.start = t.span.stop) ∧
      (∀ t ∈ tokens,
        t.span.stop.offset = t.span.start.offset + .ofNat t.text.utf8ByteSize) ∧
      eof.span = .empty (.ofBytes source.utf8ByteSize (file.getD Position.inlineFile)) := by
  obtain ⟨tokens, hplace, hpieces⟩ :=
    place_eq (file.getD Position.inlineFile) 0 (pieces source.toList)
  rw [Nat.zero_add, bytes_pieces] at hplace
  have hspelling : spelling tokens = source := by
    rw [← String.toList_inj, toList_spelling, hpieces, flatten_pieces]
  have hspan (before : List Token) {after : List Token} {t : Token}
      (h : tokens ++ [endAt (.ofBytes source.utf8ByteSize (file.getD Position.inlineFile))] =
        before ++ t :: after) : t.span =
      ⟨.ofBytes (spelling before).utf8ByteSize (file.getD Position.inlineFile),
        .ofBytes ((spelling before).utf8ByteSize + t.text.utf8ByteSize)
          (file.getD Position.inlineFile)⟩ := by
    have hfrom := span_of_place (hplace.trans h)
    rwa [Nat.zero_add] at hfrom
  refine ⟨tokens, endAt (.ofBytes source.utf8ByteSize (file.getD Position.inlineFile)), ?_, rfl,
    ?_, hspelling, ?_, ?_, ?_, rfl⟩
  · rw [scan_eq_tokenize]
    exact congrArg Except.ok hplace
  · intro t ht
    have hmem : (t.kind, t.text) ∈ pieces source.toList := hpieces ▸ List.mem_map_of_mem ht
    exact ⟨pieces_kind_ne_eof _ _ hmem, pieces_text_ne_empty _ _ hmem⟩
  · obtain ⟨t, rest, hcons⟩ := List.exists_cons_of_ne_nil
      (List.append_ne_nil_of_right_ne_nil tokens (List.cons_ne_nil _ []))
    rw [hcons, List.head?_cons, Option.map_some, hspan [] hcons]
    rfl
  · rw [List.isChain_iff_forall_rel_of_append_cons_cons]
    intro t next before after h
    have hnext := hspan (before ++ [t]) (h.trans (List.append_cons before t (next :: after)))
    rw [hnext, hspan before h, spelling_append, String.utf8ByteSize_append, spelling_cons,
      String.utf8ByteSize_append]
    rfl
  · intro t ht
    obtain ⟨before, after, h⟩ := List.append_of_mem ht
    have hcovers := hspan before ((congrArg (· ++ _) h).trans (List.append_assoc before _ _))
    rw [hcovers]
    exact UInt32.ofNat_add _ _

end Cssom.Token

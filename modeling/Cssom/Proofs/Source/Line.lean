import Cssom.Source.Line
import Mathlib.Data.List.Basic

/-!
# The line at an offset

`IsLineAt` says which line of a text an offset lies in, by the text alone. The lines of a text
follow each other (`consecutive_lines`), so the search for an offset among them stops at one such
line, or runs past all of them and answers with the last (`seekLine_spec`). What `lineAt` gives for
an offset within the text is therefore the line there, with its number and the bytes before the
offset (`exists_isLineAt`). Two lines at one offset are the same (`IsLineAt.unique`), so `lineAt`
finds that line and no other (`line_lookup_is_exact`).
-/

namespace Cssom.Source

/-! ### Bytes -/

/-- How many bytes characters take. -/
def byteSize (cs : List Char) : Nat :=
  (String.ofList cs).utf8ByteSize

@[simp] theorem byteSize_nil : byteSize [] = 0 := rfl

@[simp] theorem byteSize_cons (c : Char) (cs : List Char) :
    byteSize (c :: cs) = c.utf8Size + byteSize cs := by
  rw [byteSize, String.ofList_cons, String.utf8ByteSize_append, String.utf8ByteSize_singleton,
    byteSize]

@[simp] theorem byteSize_append (cs ds : List Char) :
    byteSize (cs ++ ds) = byteSize cs + byteSize ds := by
  rw [byteSize, String.ofList_append, String.utf8ByteSize_append, byteSize, byteSize]

/-- No character takes less than a byte. -/
theorem length_le_byteSize (cs : List Char) : cs.length ≤ byteSize cs := by
  induction cs with
  | nil => exact Nat.le_refl 0
  | cons c cs ih =>
    have hpos := c.utf8Size_pos
    rw [List.length_cons, byteSize_cons]
    omega

/-- The bytes of a string are those of its characters. -/
theorem byteSize_toList (content : String) : byteSize content.toList = content.utf8ByteSize := by
  rw [byteSize, String.ofList_toList]

/-- Of two starts of a text, the one with more bytes goes on where the other stops. -/
theorem exists_append_of_byteSize_le {as bs cs ds : List Char} (h : as ++ bs = cs ++ ds)
    (hle : byteSize as ≤ byteSize cs) : ∃ more, cs = as ++ more ∧ bs = more ++ ds := by
  rcases List.append_eq_append_iff.1 h with ⟨more, hcs, hbs⟩ | ⟨more, has, hds⟩
  · exact ⟨more, hcs, hbs⟩
  · have hlength := length_le_byteSize more
    rw [has, byteSize_append] at hle
    obtain rfl : more = [] := List.length_eq_zero_iff.1 (by omega)
    exact ⟨[], by rw [has, List.append_nil, List.append_nil], hds.symm⟩

/-! ### Lines that follow each other -/

/-- Whether the next character would be the first of a line. -/
def EndsLine (cs : List Char) : Prop :=
  cs = [] ∨ cs.getLast? = some '\n'

/-- Lines that follow each other: each but the last ends in a line feed, none has another one, and
none is empty. -/
inductive Consecutive : List (List Char) → Prop
  | nil : Consecutive []
  | last {line : List Char} : line ≠ [] → '\n' ∉ line → Consecutive [line]
  | ended {words : List Char} {more : List (List Char)} :
    '\n' ∉ words → Consecutive more → Consecutive ((words ++ ['\n']) :: more)

/-- The first line may begin with one more character, if that is no line feed. -/
theorem Consecutive.extend {line : List Char} {more : List (List Char)} {c : Char}
    (h : Consecutive (line :: more)) (hc : c ≠ '\n') : Consecutive ((c :: line) :: more) := by
  have hnot {cs : List Char} (hcs : '\n' ∉ cs) : '\n' ∉ c :: cs := by
    rw [List.mem_cons, not_or]
    exact ⟨hc.symm, hcs⟩
  cases h with
  | last _ hline => exact .last (List.cons_ne_nil _ _) (hnot hline)
  | ended hwords hmore => exact .ended (hnot hwords) hmore

/-- The lines of a text follow each other. -/
theorem consecutive_lines (cs : List Char) : Consecutive (lines cs) := by
  induction cs with
  | nil => exact .nil
  | cons c rest ih =>
    rw [lines]
    split
    · next hc => exact hc ▸ .ended List.not_mem_nil ih
    · next hc =>
      split
      · exact .last (List.cons_ne_nil _ _) (by rw [List.mem_singleton]; exact Ne.symm hc)
      · next line more hlines => exact (hlines ▸ ih).extend hc

variable {xs ys : List (List Char)} {line : List Char}

/-- Lines before another one end with a line feed each. -/
theorem Consecutive.before (h : Consecutive (xs ++ line :: ys)) :
    EndsLine xs.flatten ∧ xs.flatten.count '\n' = xs.length ∧ Consecutive (line :: ys) := by
  induction xs with
  | nil => exact ⟨.inl rfl, rfl, h⟩
  | cons x xs ih =>
    cases hmore : xs ++ line :: ys with
    | nil => simp at hmore
    | cons y more =>
      rw [List.cons_append, hmore] at h
      cases h with
      | @ended words _ hwords hnext =>
        rw [← hmore] at hnext
        obtain ⟨hends, hcount, hline⟩ := ih hnext
        refine ⟨.inr ?_, ?_, hline⟩
        · rw [List.flatten_cons, List.getLast?_append]
          rcases hends with hnil | hlast
          · simp [hnil]
          · rw [hlast, Option.some_or]
        · simp [hcount, List.count_eq_zero.2 hwords]

/-- The first line is not empty, and a line feed can only end it, as it does if others follow. -/
theorem Consecutive.head (h : Consecutive (line :: ys)) :
    line ≠ [] ∧ '\n' ∉ line.dropLast ∧ (ys ≠ [] → line.getLast? = some '\n') := by
  cases h with
  | last hne hline => exact ⟨hne, fun hmem => hline (List.dropLast_subset _ hmem),
      fun hys => absurd rfl hys⟩
  | ended hwords _ => simpa using hwords

/-! ### The line at an offset -/

/-- A text cut before and after the line that a byte offset lies in. An offset at the end of the
text lies in its last line. -/
structure IsLineAt (cs : List Char) (offset : Nat) (before line after : List Char) : Prop where
  split : cs = before ++ (line ++ after)
  starts : EndsLine before
  single : '\n' ∉ line.dropLast
  ends : after ≠ [] → line.getLast? = some '\n'
  reached : byteSize before ≤ offset
  within : offset < byteSize before + byteSize line ∨
    after = [] ∧ offset = byteSize cs ∧ (line = [] → cs = [])

/-- A search stops at the first line that ends behind the offset, or behind the last line. -/
theorem seekLine_spec (ls : List (List Char)) (number : Nat) (last : String) (offset : Nat) :
    (∃ xs line ys, ls = xs ++ line :: ys ∧ byteSize xs.flatten ≤ offset ∧
      offset < byteSize xs.flatten + byteSize line ∧
      seekLine number last offset (ls.map String.ofList) =
        ⟨number + xs.length, String.ofList line, offset - byteSize xs.flatten⟩) ∨
    byteSize ls.flatten ≤ offset ∧
      seekLine number last offset (ls.map String.ofList) =
        let final := (ls.getLast?.map String.ofList).getD last
        ⟨max (number + ls.length - 1) 1, final, final.utf8ByteSize⟩ := by
  -- A step passes on its own number, last line and offset, so none of them is fixed.
  induction ls generalizing number last offset with
  | nil => exact .inr ⟨Nat.zero_le _, rfl⟩
  | cons line more ih =>
    have hsize : (String.ofList line).utf8ByteSize = byteSize line := rfl
    rw [List.map_cons, seekLine, hsize]
    by_cases hlt : offset < byteSize line
    · rw [if_pos hlt]
      exact .inl ⟨[], line, more, rfl, Nat.zero_le _, by simpa using hlt, rfl⟩
    · rw [if_neg hlt]
      rcases ih (number + 1) (String.ofList line) (offset - byteSize line) with
        ⟨xs, found, ys, hmore, hlow, hhigh, hseek⟩ | ⟨hbeyond, hseek⟩
      · refine .inl ⟨line :: xs, found, ys, by rw [hmore]; rfl, ?_, ?_, ?_⟩
        · rw [List.flatten_cons, byteSize_append]
          omega
        · rw [List.flatten_cons, byteSize_append]
          omega
        · rw [hseek, List.flatten_cons, byteSize_append, List.length_cons, Nat.sub_sub,
            Nat.add_assoc, Nat.add_comm 1]
      · refine .inr ⟨?_, ?_⟩
        · rw [List.flatten_cons, byteSize_append]
          omega
        · rw [hseek, List.length_cons, List.getLast?_cons, Nat.add_assoc, Nat.add_comm 1]
          cases more.getLast? <;> rfl

/-- Every offset within a text lies in a line, which `lineAt` gives. -/
theorem exists_isLineAt (content : String) {offset : Nat} (h : offset ≤ content.utf8ByteSize) :
    ∃ before line after, IsLineAt content.toList offset before line after ∧
      lineAt content offset = some
        ⟨before.count '\n' + 1, String.ofList line, offset - byteSize before⟩ := by
  have hlines := consecutive_lines content.toList
  have hflatten := flatten_lines content.toList
  rw [lineAt, if_neg (Nat.not_lt.2 h)]
  rcases seekLine_spec (lines content.toList) 1 "" offset with
    ⟨xs, line, ys, hsplit, hlow, hhigh, hseek⟩ | ⟨hbeyond, hseek⟩
  · rw [hsplit] at hlines hflatten
    obtain ⟨hstarts, hcount, hrest⟩ := hlines.before
    obtain ⟨-, hsingle, hends⟩ := hrest.head
    refine ⟨xs.flatten, line, ys.flatten, ⟨?_, hstarts, hsingle, ?_, hlow, .inl hhigh⟩, ?_⟩
    · rw [← hflatten, List.flatten_append, List.flatten_cons]
    · exact fun hafter => hends fun hys => hafter (by rw [hys]; rfl)
    · rw [hseek, hcount, Nat.add_comm]
  · rw [hflatten, byteSize_toList] at hbeyond
    have hoffset : offset = byteSize content.toList := by
      rw [byteSize_toList]
      omega
    -- Past all lines the answer is the last of them, or no line if the text is empty.
    rcases List.eq_nil_or_concat (lines content.toList) with hnil | ⟨xs, line, hsplit⟩
    · have hempty : content.toList = [] := by rw [← hflatten, hnil]; rfl
      refine ⟨[], [], [], ⟨hempty, .inl rfl, List.not_mem_nil, absurd rfl, Nat.zero_le _,
        .inr ⟨rfl, hoffset, fun _ => hempty⟩⟩, ?_⟩
      rw [hseek, hnil, hoffset, hempty]
      rfl
    · rw [List.concat_eq_append] at hsplit
      rw [hsplit] at hlines hflatten
      obtain ⟨hstarts, hcount, hrest⟩ := hlines.before
      obtain ⟨hne, hsingle, -⟩ := hrest.head
      have hcut : content.toList = xs.flatten ++ (line ++ []) := by
        rw [← hflatten, List.flatten_append, List.flatten_singleton, List.append_nil]
      have hbytes : offset = byteSize xs.flatten + byteSize line := by
        rw [hoffset, hcut, byteSize_append, List.append_nil]
      refine ⟨xs.flatten, line, [], ⟨hcut, hstarts, hsingle, absurd rfl, by omega,
        .inr ⟨rfl, hoffset, fun hline => absurd hline hne⟩⟩, ?_⟩
      rw [hseek, hsplit, hcount, hbytes, Nat.add_sub_cancel_left]
      simp [byteSize]

/-! ### Only one line is there -/

section Unique

variable {cs before line after before' line' after' : List Char} {offset : Nat}

/-- A line is found at offsets within the text only. -/
theorem IsLineAt.offset_le (h : IsLineAt cs offset before line after) : offset ≤ byteSize cs := by
  rcases h.within with hlt | ⟨-, hend, -⟩
  · rw [h.split, byteSize_append, byteSize_append]
    omega
  · exact Nat.le_of_eq hend

/-- A line that an offset lies in is empty only in an empty text. -/
theorem IsLineAt.ne_nil (h : IsLineAt cs offset before line after) (hcs : cs ≠ []) :
    line ≠ [] := by
  rintro rfl
  rcases h.within with hlt | ⟨-, -, hempty⟩
  · have hreached := h.reached
    simp only [byteSize_nil] at hlt
    omega
  · exact hcs (hempty rfl)

/-- Characters that end in a line feed are not a proper start of a line. -/
theorem IsLineAt.eq_nil_of_prefix {words more : List Char}
    (h : IsLineAt cs offset before (words ++ ['\n'] ++ more) after) : more = [] := by
  rcases List.eq_nil_or_concat more with rfl | ⟨front, last, rfl⟩
  · rfl
  · refine absurd ?_ h.single
    rw [List.concat_eq_append, ← List.append_assoc, List.dropLast_concat]
    simp

/-- No line that holds an offset starts behind another one that does. -/
theorem IsLineAt.before_eq (h : IsLineAt cs offset before line after)
    (h' : IsLineAt cs offset before' line' after') (hle : byteSize before ≤ byteSize before') :
    before = before' := by
  obtain ⟨between, hbefore, hrest⟩ :=
    exists_append_of_byteSize_le (h.split.symm.trans h'.split) hle
  rcases List.eq_nil_or_concat between with rfl | ⟨words, last, hbetween⟩
  · rw [hbefore, List.append_nil]
  · exfalso
    rw [List.concat_eq_append] at hbetween
    obtain rfl : last = '\n' := by
      rcases h'.starts with hnil | hlast
      · simp [hbefore, hbetween] at hnil
      · simpa [hbefore, hbetween] using hlast
    -- The line stops where the other one starts or before, although the offset lies in both.
    obtain ⟨more, hmore, hafter⟩ : ∃ more, between = line ++ more ∧
        after = more ++ (line' ++ after') := by
      rcases List.append_eq_append_iff.1 hrest with hstops | ⟨more, hline, hrest'⟩
      · exact hstops
      · rw [hline, hbetween] at h
        obtain rfl := h.eq_nil_of_prefix
        exact ⟨[], by rw [hline, List.append_nil, List.append_nil], hrest'.symm⟩
    have hreached := h'.reached
    rw [hbefore, hmore, byteSize_append, byteSize_append] at hreached
    rcases h.within with hlt | ⟨hnil, -, -⟩
    · omega
    · rw [hafter, List.append_eq_nil_iff, List.append_eq_nil_iff] at hnil
      refine h'.ne_nil (fun hcs => ?_) hnil.2.1
      rw [h'.split, hbefore, hbetween] at hcs
      simp at hcs

/-- No line from a place on is longer than another one from there. -/
theorem IsLineAt.line_eq (h : IsLineAt cs offset before line after)
    (h' : IsLineAt cs offset before line' after') (hle : byteSize line ≤ byteSize line') :
    line = line' := by
  have hrest : line ++ after = line' ++ after' :=
    List.append_cancel_left (h.split.symm.trans h'.split)
  obtain ⟨more, hline, hafter⟩ := exists_append_of_byteSize_le hrest hle
  by_cases hmore : more = []
  · rw [hline, hmore, List.append_nil]
  · have hlast : line.getLast? = some '\n' := h.ends (by simp [hafter, hmore])
    obtain ⟨words, hwords⟩ := List.getLast?_eq_some_iff.1 hlast
    rw [hline, hwords] at h'
    exact absurd h'.eq_nil_of_prefix hmore

/-- Only one line lies at an offset. -/
theorem IsLineAt.unique (h : IsLineAt cs offset before line after)
    (h' : IsLineAt cs offset before' line' after') : before = before' ∧ line = line' := by
  have hbefore : before = before' := (Nat.le_total _ _).elim (h.before_eq h')
    fun hle => (h'.before_eq h hle).symm
  subst hbefore
  exact ⟨rfl, (Nat.le_total _ _).elim (h.line_eq h') fun hle => (h'.line_eq h hle).symm⟩

end Unique

/-! ### What is found -/

/-- The line with its number and the column of an offset in it, where a text is cut before and after
the line: as many lines stand before it as line feeds, and the bytes before it and the column make
the offset. -/
structure Line.Locates (found : Line) (content : String) (offset : Nat)
    (before after : List Char) : Prop where
  split : content.toList = before ++ (found.text.toList ++ after)
  starts : EndsLine before
  number_eq : found.number = before.count '\n' + 1
  single : '\n' ∉ found.text.toList.dropLast
  ends : after ≠ [] → found.text.toList.getLast? = some '\n'
  column_eq : byteSize before + found.column = offset
  within : offset ≠ content.utf8ByteSize → found.column < found.text.utf8ByteSize
  last : offset = content.utf8ByteSize → after = [] ∧ (found.text = "" → content = "")

/-- The conditions on the line at an offset as a conjunction. -/
theorem Line.locates_iff {found : Line} {content : String} {offset : Nat}
    {before after : List Char} : found.Locates content offset before after ↔
      IsLineAt content.toList offset before found.text.toList after ∧
        found.number = before.count '\n' + 1 ∧ byteSize before + found.column = offset := by
  have htext : byteSize found.text.toList = found.text.utf8ByteSize := byteSize_toList _
  have hcontent : byteSize content.toList = content.utf8ByteSize := byteSize_toList _
  constructor
  · intro h
    refine ⟨⟨h.split, h.starts, h.single, h.ends, ?_, ?_⟩, h.number_eq, h.column_eq⟩
    · exact h.column_eq ▸ Nat.le_add_right _ _
    · by_cases hend : offset = content.utf8ByteSize
      · obtain ⟨hafter, hempty⟩ := h.last hend
        refine .inr ⟨hafter, hend.trans hcontent.symm, fun hline => ?_⟩
        rw [hempty (String.toList_eq_nil_iff.1 hline)]
        rfl
      · have hwithin := h.within hend
        have hcolumn := h.column_eq
        exact .inl (by omega)
  · rintro ⟨hline, hnumber, hcolumn⟩
    refine ⟨hline.split, hline.starts, hnumber, hline.single, hline.ends, hcolumn, ?_, ?_⟩
    · intro hend
      rcases hline.within with hlt | ⟨-, hsize, -⟩
      · omega
      · exact absurd (hsize.trans hcontent) hend
    · intro hend
      rcases hline.within with hlt | ⟨hafter, -, hempty⟩
      · have hsize := congrArg byteSize hline.split
        rw [byteSize_append, byteSize_append] at hsize
        omega
      · refine ⟨hafter, fun htext => String.toList_eq_nil_iff.1 (hempty ?_)⟩
        rw [htext]
        rfl

/-- No line is found for an offset beyond the end of a text. For any other offset the line found is
the one that the offset lies in, with its number and the column: it is told by the text alone, and
nothing else is found. -/
theorem line_lookup_is_exact (content : String) (offset : Nat) :
    (lineAt content offset = none ↔ content.utf8ByteSize < offset) ∧
      ∀ found : Line, lineAt content offset = some found ↔
        ∃ before after, found.Locates content offset before after := by
  have hnone : content.utf8ByteSize < offset → lineAt content offset = none := fun h => if_pos h
  refine ⟨⟨fun h => ?_, hnone⟩, fun found => ⟨fun h => ?_, ?_⟩⟩
  · by_contra hle
    obtain ⟨_, _, _, _, hsome⟩ := exists_isLineAt content (Nat.not_lt.1 hle)
    rw [h] at hsome
    exact absurd hsome nofun
  · have hle : offset ≤ content.utf8ByteSize := by
      by_contra hlt
      rw [hnone (Nat.not_le.1 hlt)] at h
      exact absurd h nofun
    obtain ⟨before, line, after, hline, hsome⟩ := exists_isLineAt content hle
    obtain rfl := Option.some.inj (hsome.symm.trans h)
    refine ⟨before, after, Line.locates_iff.2 ⟨?_, rfl, ?_⟩⟩
    · rwa [String.toList_ofList]
    · exact Nat.add_sub_cancel' hline.reached
  · rintro ⟨before, after, hfound⟩
    obtain ⟨hline, hnumber, hcolumn⟩ := Line.locates_iff.1 hfound
    have hle := hline.offset_le
    rw [byteSize_toList] at hle
    obtain ⟨before', line', after', hline', hsome⟩ := exists_isLineAt content hle
    obtain ⟨rfl, htext⟩ := hline.unique hline'
    rw [hsome, ← htext, ← hnumber, String.ofList_toList, ← hcolumn, Nat.add_sub_cancel_left]

/-- The end of a text that ends in a line feed lies in the line that the line feed ends. -/
example : lineAt "a\nb\n" 4 = some ⟨2, "b\n", 2⟩ := by decide +kernel

end Cssom.Source

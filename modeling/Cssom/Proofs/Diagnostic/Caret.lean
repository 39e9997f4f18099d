import Cssom.Diagnostic.Report
import Cssom.Proofs.Reading.SourceOrder
import Cssom.Proofs.Source.Line
import Cssom.Proofs.Token.Scan

/-!
# The caret of a report

A report of what was found in a source shows the line of the place without the blanks around it, and
under that line a caret behind some dashes. The dashes count bytes, so the caret stands under the
character at the place exactly when none of the characters between the first one shown and the place
is beyond ASCII (`caret_stands_under_place_iff`).

The place of a diagnostic is the start of a token, and the texts of the tokens before it lead up to
it (`start_of_mem_tokenize`); hence it lies within the source, and in a source of less than 4 GiB no
character is cut in two there.
-/

namespace Cssom

open Source Token

/-! ### Characters and bytes -/

namespace Source

/-- A character is one byte wide just if it is in ASCII. -/
theorem utf8Size_eq_one_iff (c : Char) : c.utf8Size = 1 ↔ isBeyondAscii c = false := by
  rw [isBeyondAscii, decide_eq_false_iff_not, Nat.not_le, Char.utf8Size_eq_one_iff]
  exact UInt32.le_iff_toNat_le.trans Nat.lt_succ_iff.symm

/-- There are as many bytes as characters when all characters are ASCII. -/
theorem byteSize_eq_length_iff (cs : List Char) :
    byteSize cs = cs.length ↔ ∀ c ∈ cs, isBeyondAscii c = false := by
  induction cs with
  | nil => simp
  | cons c cs ih =>
    have hpos := c.utf8Size_pos
    have hlength := length_le_byteSize cs
    rw [List.forall_mem_cons, ← ih, ← utf8Size_eq_one_iff, byteSize_cons, List.length_cons]
    omega

/-- The characters that so many bytes split off do not take more of them. -/
theorem byteSize_splitBytes_le (b : Nat) (cs : List Char) :
    byteSize (Cursor.splitBytes b cs).1 ≤ b := by
  induction cs generalizing b with
  | nil => exact Nat.zero_le b
  | cons c cs ih =>
    rw [Cursor.splitBytes]
    split
    · exact Nat.zero_le b
    · have htaken := ih (b - c.utf8Size)
      simp only [byteSize_cons]
      omega

end Source

/-! ### Where diagnostics are -/

/-- A token of a source starts behind the texts of the tokens before it. -/
theorem Token.start_of_mem_tokenize {source : String} {file : Option String} {t : Token}
    (ht : t ∈ tokenize source file) :
    ∃ passed rest, source.toList = passed ++ rest ∧
      t.span.start.offset = UInt32.ofNat (byteSize passed) := by
  obtain ⟨before, after, htokens⟩ := List.append_of_mem ht
  obtain ⟨ts, eof, hsplit, -, hpieces, -⟩ := tokenize_eq source file
  have hspan := span_of_place htokens
  have hsource : (spelling ts).toList = source.toList := by
    rw [toList_spelling, hpieces, flatten_pieces]
  have hbefore : before <+: ts ++ [eof] := (htokens.symm.trans hsplit) ▸ List.prefix_append _ _
  obtain ⟨more, hmore⟩ : before <+: ts := by
    refine List.prefix_of_prefix_length_le hbefore (List.prefix_append _ _) ?_
    have hlength := congrArg List.length (htokens.symm.trans hsplit)
    simp only [List.length_append, List.length_cons, List.length_nil] at hlength
    omega
  refine ⟨(spelling before).toList, (spelling more).toList, ?_, ?_⟩
  · rw [← hsource, ← hmore, spelling_append, String.toList_append]
  · rw [hspan, byteSize_toList, Nat.zero_add]
    rfl

/-- What is reported of a source, whether it is read as a style sheet or as declarations. -/
def reported (source : String) (file : Option String) (config : Config) : List Diagnostic :=
  (Stylesheet.parse (tokenize source file) config).2.diagnostics.toList ++
    (Block.parse (tokenize source file) config).2.diagnostics.toList

variable {source : String} {file : Option String} {config : Config} {d : Diagnostic}

/-- What is reported of a source of less than 4 GiB is found between two of its characters. -/
theorem place_of_mem_reported (hd : d ∈ reported source file config)
    (hsmall : source.utf8ByteSize < 2 ^ 32) :
    ∃ passed rest, source.toList = passed ++ rest ∧
      d.position.offset.toNat = byteSize passed := by
  have hblock : (Block.parse (tokenize source file) config).2.diagnostics.toList =
      ((Grammar.declarationList (.ofConfig config)).read
        (.ofTokens (tokenize source file))).reports :=
    (Production.run_eq_read _ (.ofTokens (tokenize source file) config)).2.2
  rw [reported, Stylesheet.parse_reports, hblock, List.mem_append] at hd
  obtain ⟨t, ht, -, hposition⟩ := hd.elim
    (((Grammar.inOrder_stylesheet _).tokenize file hsmall).placed d)
    ((Grammar.inOrder_declarationList.tokenize file hsmall).placed d)
  obtain ⟨passed, rest, hsource, hoffset⟩ := start_of_mem_tokenize ht
  refine ⟨passed, rest, hsource, ?_⟩
  have hbytes : byteSize passed ≤ source.utf8ByteSize := by
    rw [← byteSize_toList, hsource, byteSize_append]
    exact Nat.le_add_right _ _
  rw [hposition, hoffset, UInt32.toNat_ofNat', Nat.mod_eq_of_lt (by omega)]

/-- Offsets have 32 bits, so those of a larger source are within it anyway. -/
theorem offset_le_of_mem_reported (hd : d ∈ reported source file config) :
    d.position.offset.toNat ≤ source.utf8ByteSize := by
  by_cases hsmall : source.utf8ByteSize < 2 ^ 32
  · obtain ⟨passed, rest, hsource, hoffset⟩ := place_of_mem_reported hd hsmall
    rw [hoffset, ← byteSize_toList, hsource, byteSize_append]
    exact Nat.le_add_right _ _
  · have hword := d.position.offset.toNat_lt
    omega

/-! ### What a report shows -/

namespace Diagnostic

/-- A line with its number, and under what is shown of it a caret behind so many dashes. -/
def pointed (number : Nat) (shown : List Char) (dashes : Nat) : String :=
  let gutter := String.ofList (List.replicate ((toString number).length + 1) ' ') ++ "|"
  gutter ++ "\n" ++
    toString number ++ " | " ++ String.ofList shown ++ "\n" ++
    gutter ++ " " ++ String.ofList (List.replicate dashes '-') ++ "^\n"

/-- How many bytes of a line that is shown without its indent stand before an offset, if the line
starts behind other characters. -/
def bytesShown (before line : List Char) (offset : Nat) : Nat :=
  offset - byteSize before - (line.takeWhile isIndent).length

/-- The characters of these bytes. -/
def charactersShown (before line : List Char) (offset : Nat) : List Char :=
  (Cursor.splitBytes (bytesShown before line offset) (line.dropWhile isIndent)).1

/-- An excerpt shows the line without its indent and the blanks at its end, and fewer dashes by the
width of the indent. -/
theorem excerpt_eq (line : List Char) (number column : Nat) :
    excerpt ⟨number, String.ofList line, column⟩ =
      pointed number (Text.trimEnd (line.dropWhile isIndent))
        (column - (line.takeWhile isIndent).length) := by
  have hgutter : padLeft ((toString number).length + 2) "|" =
      String.ofList (List.replicate ((toString number).length + 1) ' ') ++ "|" := rfl
  simp only [excerpt, pointed, hgutter, String.toList_ofList]

/-- An indent is as wide in bytes as in characters. -/
theorem byteSize_takeWhile_isIndent (line : List Char) :
    byteSize (line.takeWhile isIndent) = (line.takeWhile isIndent).length := by
  rw [byteSize_eq_length_iff]
  intro c hc
  have hindent : isIndent c = true := List.all_eq_true.1 List.all_takeWhile c hc
  rw [isIndent, Bool.or_eq_true, beq_iff_eq, beq_iff_eq] at hindent
  rcases hindent with rfl | rfl <;> rfl

/-- Where an offset falls between two characters, the bytes shown before it are those of the
characters shown. -/
theorem byteSize_charactersShown {cs before line after passed rest : List Char}
    (hline : IsLineAt cs (byteSize passed) before line after) (hcs : cs = passed ++ rest) :
    byteSize (charactersShown before line (byteSize passed)) =
      bytesShown before line (byteSize passed) := by
  have hindent := byteSize_takeWhile_isIndent line
  have hsplit := List.takeWhile_append_dropWhile (p := isIndent) (l := line)
  have hsource : (before ++ line.takeWhile isIndent) ++ (line.dropWhile isIndent ++ after) =
      passed ++ rest := by
    rw [← hcs, hline.split, List.append_assoc, ← List.append_assoc (List.takeWhile _ _), hsplit]
  -- The offset lies behind the indent, or no byte that is shown stands before it.
  by_cases hle : byteSize (before ++ line.takeWhile isIndent) ≤ byteSize passed
  · obtain ⟨taken, hpassed, hrest⟩ := Source.exists_append_of_byteSize_le hsource hle
    have hdashes : bytesShown before line (byteSize passed) = byteSize taken := by
      rw [bytesShown, hpassed, byteSize_append, byteSize_append]
      omega
    have hfits : byteSize taken ≤ byteSize (line.dropWhile isIndent) := by
      have hend : byteSize passed ≤ byteSize before + byteSize line := by
        rcases hline.within with hlt | ⟨hafter, hend, -⟩
        · exact Nat.le_of_lt hlt
        · rw [hend, hline.split, hafter, List.append_nil, byteSize_append]
      have hkept := congrArg byteSize hsplit
      rw [byteSize_append] at hkept
      rw [hpassed, byteSize_append, byteSize_append] at hend
      omega
    obtain ⟨more, hmore, -⟩ := Source.exists_append_of_byteSize_le hrest.symm hfits
    rw [charactersShown, hdashes, hmore]
    exact congrArg (fun split => byteSize split.1) (splitBytes_append taken more)
  · have hdashes : bytesShown before line (byteSize passed) = 0 := by
      rw [byteSize_append] at hle
      rw [bytesShown]
      omega
    have hnone := byteSize_splitBytes_le 0 (line.dropWhile isIndent)
    rw [charactersShown, hdashes]
    omega

/-- A report of a diagnostic shows a line of a source: the line that holds the place, without the
blanks around it, and a caret under it. There are as many dashes as characters between the first one
shown and the place exactly when these are whole and none is beyond ASCII; and they are whole in a
source of less than 4 GiB. -/
structure ShowsLine (d : Diagnostic) (source : String) (before line after : List Char) : Prop where
  holds : IsLineAt source.toList d.position.offset.toNat before line after
  printed : d.report source = d.heading ++
    pointed (before.count '\n' + 1) (Text.trimEnd (line.dropWhile isIndent))
      (bytesShown before line d.position.offset.toNat)
  counted :
    let characters := charactersShown before line d.position.offset.toNat
    bytesShown before line d.position.offset.toNat = characters.length ↔
      byteSize characters = bytesShown before line d.position.offset.toNat ∧
        ∀ c ∈ characters, isBeyondAscii c = false
  whole : source.utf8ByteSize < 2 ^ 32 →
    byteSize (charactersShown before line d.position.offset.toNat) =
      bytesShown before line d.position.offset.toNat

end Diagnostic

open Diagnostic in
/-- Whatever is reported of a source, its report shows the line of the place, and has the caret
under the character there exactly when no character shown before it is beyond ASCII. -/
theorem caret_stands_under_place_iff (source : String) (file : Option String) (config : Config)
    (d : Diagnostic) (hd : d ∈ reported source file config) :
    ∃ before line after, d.ShowsLine source before line after := by
  obtain ⟨before, line, after, hline, hat⟩ :=
    exists_isLineAt source (offset_le_of_mem_reported hd)
  refine ⟨before, line, after, hline, ?_, ?_, fun hsmall => ?_⟩
  · rw [report, hat]
    exact congrArg (d.heading ++ ·) (excerpt_eq _ _ _)
  · intro characters
    have hle : byteSize characters ≤ bytesShown before line d.position.offset.toNat :=
      byteSize_splitBytes_le _ _
    have hlength := length_le_byteSize characters
    rw [← byteSize_eq_length_iff]
    omega
  · obtain ⟨passed, rest, hsource, hoffset⟩ := place_of_mem_reported hd hsmall
    rw [hoffset] at hline ⊢
    exact byteSize_charactersShown hline hsource

open Diagnostic in
/-- Behind a selector of one character that takes two bytes there is a dash too many. -/
theorem caret_stands_under_place_iff_beyond_ascii :
    let source := "é \x7b color red; \x7d"
    let d : Diagnostic := ⟨.colonMissing "color", .ofBytes 11 "style.css"⟩
    d ∈ reported source (some "style.css") .strict ∧
      (∃ before line after, d.ShowsLine source before line after) ∧
      bytesShown [] source.toList 11 = 11 ∧
      charactersShown [] source.toList 11 = "é \x7b color ".toList ∧
      d.report source = d.heading ++ pointed 1 source.toList 11 := by
  have hmem : (⟨.colonMissing "color", .ofBytes 11 "style.css"⟩ : Diagnostic) ∈
      reported "é \x7b color red; \x7d" (some "style.css") .strict := by decide +kernel
  exact ⟨hmem, caret_stands_under_place_iff _ _ _ _ hmem, by decide +kernel, by decide +kernel,
    by decide +kernel⟩

end Cssom

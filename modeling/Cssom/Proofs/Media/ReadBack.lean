import Cssom.Proofs.Printing.Media
import Cssom.Proofs.Printing.Sources

/-!
# Media lists are read back from their print

Whatever is read as a media list is printed so that its print is read as the same list, be it empty,
be it `not all` in place of what could not be read (`media_lists_read_back`). Its media are read
back one by one; here their list is all of a source.
-/

namespace Cssom

open Production Token

namespace Grammar

variable {config : Config} {i : Input}

/-- All that is left is read as no media, or as media that are read back where nothing follows. -/
theorem wholeMediaList_reads_back (config : Config) (hregular : Regular i.pieces) :
    (wholeMediaList (.ofConfig config)).Yields i fun list _ => list = .empty ∨
      ReadsBack (fun _ => wholeMediaList (.ofConfig config))
        (fun k => k = .ident ∨ k = .openParen) (· = .eof) list list.render False := by
  refine .view ?_
  split
  · exact .pure (Or.inl rfl)
  refine (mediaList_reads_back False hregular (by decide) (by decide)).mono fun list _ hlist =>
    Or.inr ?_
  obtain ⟨ps, hps⟩ := hlist.2
  refine ⟨ps, hps.spell, hps.legible, hps.starts, fun bound input tail hahead hend hsize => ?_⟩
  have hatEnd : input.view.atEnd = false := by
    refine beq_eq_false_iff_ne.2 ?_
    show input.view.kind ≠ .eof
    rw [hahead.kind, hps.headKind_append]
    rcases hps.starts with hident | hparen
    · rw [hident]
      decide
    · rw [hparen]
      decide
  refine .view ?_
  rw [hatEnd, if_neg Bool.false_ne_true]
  exact hps.gives bound input tail hahead hend hsize

/-- Where nothing is ahead no media are read. -/
theorem gives_noMedia (h : i.Ahead [] False) :
    (wholeMediaList (.ofConfig config)).Gives i .empty [] False := by
  have hatEnd : i.view.atEnd = true := beq_iff_eq.2 h.kind
  refine .view ?_
  rw [hatEnd, if_pos rfl]
  exact .pure h

end Grammar

/-- Whatever is read as a media list, from a source in which no backslash is a token by itself, is
read from its print again, and nothing is left then. -/
theorem media_lists_read_back (source : String) (file file' : Option String) (config : Config)
    (tokens : List Token) (hscan : Token.scan source file = .ok tokens)
    (hslash : ∀ t ∈ tokens, t.kind = .delim → t.text ≠ "\\") :
    let list := (MediaList.parse tokens config).1
    ∃ again, Token.scan list.render file' = .ok again ∧ (MediaList.parse again config).1 = list ∧
      (MediaList.parse again config).2.rest = [] := by
  intro list
  rw [scan_eq_tokenize, Except.ok.injEq] at hscan
  subst hscan
  have hread := (Grammar.wholeMediaList_reads_back config (regular_tokenize hslash)).run
    (s := .ofTokens (tokenize source file) config)
  rcases hread with hempty | hlist
  · have hempty : list = .empty := hempty
    have hnone : (Input.ofTokens (tokenize list.render file')).Ahead [] False :=
      ahead_tokenize file' (by rw [hempty]; rfl) trivial False.elim
    rw [hempty] at hnone ⊢
    exact ⟨_, scan_eq_tokenize _ _, run_of_gives (Grammar.gives_noMedia hnone) config⟩
  · exact exists_reading_of_readsBack hlist rfl config file'

/-- The types `not`, `only` and one that is spelled with an escape, the implicit type, and a value
with brackets and a comment. -/
theorem media_lists_read_back_of_odd_types :
    let source := "not NOT and (GRID: [;]/**/\"\\\"\"), ONLY only,all and (color), \\6eot"
    let tokens := tokenize source none
    let list : MediaList := ⟨[⟨"not", true, false, [⟨"grid", some ⟨"[;] \"\\\"\""⟩⟩]⟩,
      ⟨"only", false, true, []⟩, ⟨"all", false, false, [⟨"color", none⟩]⟩,
      ⟨"\\6eot", false, false, []⟩]⟩
    (MediaList.parse tokens .strict).1 = list ∧
      list.render = "not not and (grid: [;] \"\\\"\"), only only, (color), \\6eot" ∧
      ∃ again, Token.scan list.render none = .ok again ∧
        (MediaList.parse again .strict).1 = list ∧ (MediaList.parse again .strict).2.rest = [] := by
  intro source tokens list
  have hlist : (MediaList.parse tokens .strict).1 = list := by decide +kernel
  have hagain := media_lists_read_back source none none .strict tokens (scan_eq_tokenize _ none)
    (by decide +kernel)
  rw [hlist] at hagain
  exact ⟨hlist, by decide +kernel, hagain⟩

end Cssom

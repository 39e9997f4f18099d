import Cssom.Proofs.Token.Respaced

/-!
# Tokens that nothing separates

Tokens between which a source has nothing are read back from their texts put together, before
whatever stands apart (`lexes_adjacent`), if they are intact: an unfinished string would go on
there, and a backslash by itself would escape what comes next. An opening that has no address behind
it in the source has none behind it in the print, if that is due to the tokens themselves, and not
to what follows them in the source; a colon, say, keeps no address away (`shutFrom_colon`).
-/

namespace Cssom.Token

open Pattern

variable {ps rest lead : List Piece} {p : Piece} {t s w : List Char} {stage : Stage}

/-- A text that ends in no backslash leaves no escape open. -/
theorem settled_of_getLast (h : ∀ c ∈ t.getLast?, c ≠ '\\') : Settled (fun _ => True) t := by
  have hmore : ∀ {c e : Char} {u : List Char}, e ∈ u.getLast? → e ∈ (c :: u).getLast? := by
    intro c e u he
    rw [List.getLast?_cons, Option.mem_def.1 he]
    rfl
  induction hn : t.length using Nat.strongRecOn generalizing t with
  | ind n ih =>
    subst hn
    rcases t with _ | ⟨c, t⟩
    · exact .nil
    by_cases hc : c = '\\'
    · subst hc
      rcases t with _ | ⟨d, t⟩
      · exact absurd rfl (h '\\' rfl)
      · have hlt : t.length < ('\\' :: d :: t).length := by
          rw [List.length_cons, List.length_cons]
          omega
        exact .escaped (ih t.length hlt (fun e he => h e (hmore (hmore he))) rfl)
    · exact .plain hc trivial (ih t.length (Nat.lt_succ_self _) (fun e he => h e (hmore he)) rfl)

/-- Where a mark is the next token that keeps no address away, an address may stand. -/
theorem shutFrom_mark (hp : ∀ stage s, shutFrom stage (p.2.toList ++ s) = false)
    (hlead : ∀ q ∈ lead, q.1.isSignificant = false) (hlexes : Lexes (lead ++ p :: rest) []) :
    shutFrom stage (spell (lead ++ p :: rest)) = false := by
  rw [Bool.eq_false_iff]
  intro hshut
  rw [spell_append] at hshut
  by_cases hnone : lead = []
  · subst hnone
    exact Bool.false_ne_true ((hp stage (spell rest)).symm.trans hshut)
  · have htrivia := (lexes_append.1 hlexes).1
    rw [List.append_nil] at htrivia
    have hbehind := shutFrom_trivia hlead htrivia hnone hshut
    exact Bool.false_ne_true ((hp stage.space (spell rest)).symm.trans hbehind)

/-- A colon behind trivia shuts out every address. -/
theorem shutFrom_colon (hlead : ∀ q ∈ lead, q.1.isSignificant = false)
    (hlexes : Lexes (lead ++ (.colon, ":") :: rest) []) :
    shutFrom stage (spell (lead ++ (.colon, ":") :: rest)) = false :=
  shutFrom_mark (fun _ _ => rfl) hlead hlexes

/-- The token ends where it does whatever stands apart behind it. -/
def IsIntact (p : Piece) : Prop :=
  p.1 ≠ .badString ∧ p ≠ (.delim, "\\")

/-- Tokens that nothing separates in the source are read back without anything between them. -/
theorem lexes_adjacent (h : Lexes (ps ++ rest) [])
    (hps : ∀ p ∈ ps, p.1.isSignificant = true ∧ IsIntact p)
    (hshut : ∀ stage, shutFrom stage (spell rest) = false) (hw : Apart w) :
    Settled (fun _ => True) (spell ps) ∧ Lexes ps w := by
  induction ps with
  | nil => exact ⟨.nil, trivial⟩
  | cons p ps ih =>
    obtain ⟨⟨hk, hstring, hslash⟩, hps⟩ := List.forall_mem_cons.1 hps
    obtain ⟨hbehind, hlexes⟩ := ih h.2 hps
    have hfirst : first (p.2.toList ++ (spell ps ++ spell rest)) = (p.1, p.2.toList.length) := by
      have hfirst := h.1
      rwa [List.append_nil, List.append_eq, spell_append] at hfirst
    have hspoiled : p.1 = .badUrl → p.2.toList.getLast? = some ')' := by
      intro hbad
      rw [hbad] at hfirst
      refine (close_of_badUrl hfirst).resolve_left fun hnone => ?_
      have hopen := hshut .before
      rw [(List.append_eq_nil_iff.1 hnone).2] at hopen
      cases hopen
    have hsettled : Settled (fun _ => True) p.2.toList := by
      by_cases hbad : p.1 = .badUrl
      · refine settled_of_getLast fun c hc => ?_
        rw [hspoiled hbad] at hc
        rw [← Option.some.inj hc]
        decide
      · refine settled_of_first hfirst hk hstring hbad fun hdelim htext => hslash ?_
        exact Prod.ext hdelim (String.toList_inj.1 htext)
    refine ⟨hsettled.append hbehind, ?_, hlexes⟩
    refine first_follow hfirst hsettled hk hstring hspoiled (fun ho => ?_)
      ⟨spell ps, spell rest, w, rfl, rfl, hbehind, hw⟩
    have hsource := shutFrom_of_shut ho (kind_of_opening ho hfirst).2
    refine shut_of_shutFrom (shutFrom_append (fun _ stage hrest => ?_) hsource)
    rw [hshut stage] at hrest
    cases hrest

/-- Tokens that nothing separates in the source are legible without anything between them, if there
are any. -/
theorem legible_adjacent (h : Lexes (ps ++ rest) [])
    (hps : ∀ p ∈ ps, p.1.isSignificant = true ∧ IsIntact p)
    (hshut : ∀ stage, shutFrom stage (spell rest) = false) (hne : ps ≠ []) : Legible ps where
  head := by
    obtain ⟨p, ps, rfl⟩ := List.exists_cons_of_ne_nil hne
    exact ⟨p, ps, rfl, (hps p List.mem_cons_self).1⟩
  lexes _ hw := (lexes_adjacent h hps hshut hw).2

/-- Capital letters make no difference to that. -/
theorem isIntact_lowerPiece : IsIntact (lowerPiece p) ↔ IsIntact p := by
  have hslash : lowerPiece p = (.delim, "\\") ↔ p = (.delim, "\\") := by
    refine ⟨fun h => ?_, fun h => by rw [h]; decide⟩
    obtain ⟨hkind, htext⟩ := Prod.mk.inj h
    have hchars : p.2.toList.map Char.toLower = ['\\'] := by
      rw [← Text.toList_lower, htext]
      rfl
    obtain ⟨c, hc, hlower⟩ := List.map_eq_singleton_iff.1 hchars
    have hsame : (c.toLower == '\\') = (c == '\\') :=
      Text.toLower_congr (f := (· == '\\')) (by decide) c
    rw [hlower, beq_self_eq_true, eq_comm, beq_iff_eq] at hsame
    rw [hsame] at hc
    exact Prod.ext hkind (String.toList_inj.1 hc)
  rw [IsIntact, IsIntact, Ne, Ne, hslash]
  rfl

end Cssom.Token

import Cssom.Proofs.Reading.Outcome
import Cssom.Proofs.Token.Regular

/-!
# Inputs as pieces

What a production gives hangs on the tokens ahead, not on their places: on the pieces that the input
still holds. `Ahead` says which those are up to the trivia under the cursor, and `view_of_pieces`
what is seen of them. What is left of the input of a source is plain where the source is
(`Reaches.plain`).
-/

namespace Cssom

open Token

namespace Token

/-- The kind of the first significant token of some pieces. -/
def headKind (ps : List Piece) : Kind :=
  ((ps.find? (·.1.isSignificant)).map (·.1)).getD .eof

/-- The spacing that some pieces make. -/
def spacingOf (lead : List Piece) : Spacing :=
  if lead.any (·.1 == .whitespace) then .space else if lead.isEmpty then .none else .comment

/-- None of the pieces is significant. -/
def AreTrivia (lead : List Piece) : Prop :=
  ∀ p ∈ lead, p.1.isSignificant = false

variable {lead ps : List Piece} {p : Piece}

/-- No pieces are trivia. -/
theorem areTrivia_nil : AreTrivia [] := fun _ hp => absurd hp List.not_mem_nil

/-- Trivia behind trivia are trivia. -/
theorem AreTrivia.append {more : List Piece} (h : AreTrivia lead) (hmore : AreTrivia more) :
    AreTrivia (lead ++ more) := by
  intro p hp
  rcases List.mem_append.1 hp with hp | hp
  · exact h p hp
  · exact hmore p hp

/-- A piece that is not significant is trivia. -/
theorem areTrivia_singleton (h : p.1.isSignificant = false) : AreTrivia [p] := by
  intro q hq
  rw [List.mem_singleton.1 hq]
  exact h

@[simp] theorem headKind_nil : headKind [] = .eof := rfl

/-- The kind of a significant piece in front is the one that is seen. -/
theorem headKind_cons (h : p.1.isSignificant = true) : headKind (p :: ps) = p.1 := by
  simp [headKind, h]

/-- Trivia in front are not seen. -/
theorem headKind_append (h : AreTrivia lead) : headKind (lead ++ ps) = headKind ps := by
  induction lead with
  | nil => rfl
  | cons p lead ih =>
    have hp := h p List.mem_cons_self
    rw [← ih fun q hq => h q (List.mem_cons_of_mem _ hq)]
    simp [headKind, hp]

/-- Where there is nothing but trivia the end is seen. -/
theorem headKind_eq_eof (h : AreTrivia lead) : headKind lead = .eof := by
  have hnil := @headKind_append _ [] h
  rwa [List.append_nil] at hnil

/-- No string is opened where the first significant piece is none. -/
theorem not_opensString {src : List Piece} (h : headKind src ≠ .string) : ¬ OpensString src := by
  rintro ⟨lead, t, rest, rfl, hlead⟩
  rw [headKind_append (trivia_of_whitespace hlead)] at h
  exact h rfl

/-- What stands between two tokens of a print is trivia. -/
theorem areTrivia_of_spaced {fresh : Bool} {sep : List Piece} {k : Kind}
    (h : Spaced fresh lead k sep) : AreTrivia sep := by
  rcases h with ⟨_, rfl⟩ | ⟨_, rfl | ⟨rfl, _⟩ | ⟨rfl, _⟩⟩
  · exact areTrivia_nil
  · exact areTrivia_singleton rfl
  · exact areTrivia_nil
  · exact areTrivia_singleton rfl

/-- A print starts with the first token of what is printed. -/
theorem Prints.headKind_eq {fresh : Bool} {src : List Piece} (h : Prints fresh src ps)
    (hne : ps ≠ []) : headKind ps = headKind src := by
  cases h with
  | ends => exact absurd rfl hne
  | token hlead hk hsep =>
    rw [headKind_append (areTrivia_of_spaced hsep), headKind_append hlead, headKind_cons hk,
      headKind_cons hk]

end Token

/-- A token without its place. -/
def Token.piece (token : Token) : Piece :=
  (token.kind, token.text)

namespace Input

variable {input : Input} {lead ps : List Piece} {p : Piece}

/-- The tokens that are still to be read, without their places. -/
def pieces (input : Input) : List Piece :=
  input.tokens.map Token.piece

/-- The spacing of trivia is that of their pieces. -/
theorem spacingOf_map (trivia : List Token) :
    spacingOf (trivia.map Token.piece) = .ofTrivia trivia := by
  rw [spacingOf, Spacing.ofTrivia, List.any_map, List.isEmpty_map]
  rfl

/-- What is seen of an input, and what is left of it behind its first significant token. -/
structure Faces (input : Input) (lead : List Piece) (p : Piece) (ps : List Piece) : Prop where
  kind : input.view.kind = p.1
  text : input.view.token.text = p.2
  spacing : input.view.spacing = spacingOf lead
  advance : input.advance.pieces = ps
  size : input.size = input.advance.size + 1

/-- Where a significant piece is ahead the input is not at its end. -/
theorem Faces.kind_ne_eof (h : input.Faces lead p ps) (hp : p.1.isSignificant = true) :
    input.view.kind ≠ .eof := by
  rw [h.kind]
  rintro heof
  rw [heof] at hp
  exact absurd hp (by decide)

/-- The first lexeme ahead is trivia and a significant piece, and that piece is faced. -/
theorem faces_of_ahead {lexeme : Lexeme} {rest : List Lexeme} (h : input.ahead = lexeme :: rest) :
    ∃ lead ps, input.pieces = lead ++ lexeme.token.piece :: ps ∧ AreTrivia lead ∧
      input.Faces lead lexeme.token.piece ps := by
  refine ⟨lexeme.lead.map Token.piece, (Lexeme.ungroup rest ++ input.trailing).map Token.piece,
    ?_, ?_, ?_, ?_, ?_, ?_, ?_⟩
  · rw [pieces, tokens, h]
    simp [Lexeme.ungroup, Lexeme.tokens]
  · intro p hp
    obtain ⟨t, ht, rfl⟩ := List.mem_map.1 hp
    exact lexeme.lead_insignificant t ht
  · simp [view, View.kind, current, h, Token.piece]
  · simp [view, current, h, Token.piece]
  · rw [spacingOf_map]
    simp [view, spacing, h, Lexeme.spacing]
  · rw [pieces, tokens]
    simp [advance, trailingAfter, h]
  · have hsize := input.size_eq
    rw [h, List.length_cons] at hsize
    show input.size = input.size - 1 + 1
    omega

/-- Where no lexeme is ahead there are only trivia, and the end is under the cursor. -/
theorem pieces_of_ahead (h : input.ahead = []) :
    AreTrivia input.pieces ∧ input.view.kind = .eof ∧ input.size = 0 := by
  refine ⟨?_, ?_, (input.size_eq_zero_iff).2 h⟩
  · intro p hp
    rw [pieces, tokens, h, Lexeme.ungroup, List.flatMap_nil, List.nil_append] at hp
    obtain ⟨t, ht, rfl⟩ := List.mem_map.1 hp
    exact input.trailing_insignificant t ht
  · simp [view, View.kind, current, h, input.eof_kind]

/-- Pieces with a significant one among them are not trivia. -/
theorem not_areTrivia (hp : p.1.isSignificant = true) : ¬ AreTrivia (lead ++ p :: ps) := by
  intro h
  rw [h p (List.mem_append_right _ List.mem_cons_self)] at hp
  exact absurd hp (by decide)

/-- What is seen of an input hangs on its pieces. -/
theorem faces_of_pieces (h : input.pieces = lead ++ p :: ps) (hlead : AreTrivia lead)
    (hp : p.1.isSignificant = true) : input.Faces lead p ps := by
  rcases hahead : input.ahead with _ | ⟨lexeme, rest⟩
  · exact absurd (h ▸ (pieces_of_ahead hahead).1) (not_areTrivia hp)
  · obtain ⟨lead', ps', hpieces, hlead', hfaces⟩ := faces_of_ahead hahead
    obtain ⟨rfl, rfl, rfl⟩ :=
      significant_inj hlead hp hlead' lexeme.significant (h.symm.trans hpieces)
    exact hfaces

/-- An input is at its end, or a significant token is under the cursor. -/
theorem faces_cases (input : Input) :
    (AreTrivia input.pieces ∧ input.view.kind = .eof ∧ input.size = 0) ∨
      ∃ lead p ps, input.pieces = lead ++ p :: ps ∧ AreTrivia lead ∧ p.1.isSignificant = true ∧
        input.Faces lead p ps := by
  rcases hahead : input.ahead with _ | ⟨lexeme, rest⟩
  · exact Or.inl (pieces_of_ahead hahead)
  · obtain ⟨lead, ps, hpieces, hlead, hfaces⟩ := faces_of_ahead hahead
    exact Or.inr ⟨lead, _, ps, hpieces, hlead, lexeme.significant, hfaces⟩

/-- The kind under the cursor is that of the first significant piece. -/
theorem kind_view (input : Input) : input.view.kind = headKind input.pieces := by
  rcases input.faces_cases with ⟨htrivia, hkind, _⟩ | ⟨lead, p, ps, hpieces, hlead, hp, hfaces⟩
  · rw [hkind, headKind_eq_eof htrivia]
  · rw [hfaces.kind, hpieces, headKind_append hlead, headKind_cons hp]

/-- A significant token under the cursor comes first of what is left, behind some trivia. -/
theorem faces_of_significant (hk : input.view.kind.isSignificant = true) :
    ∃ lead ps, input.pieces = lead ++ input.view.token.piece :: ps ∧ AreTrivia lead ∧
      input.Faces lead input.view.token.piece ps := by
  rcases input.faces_cases with ⟨_, hkind, _⟩ | ⟨lead, p, ps, hpieces, hlead, hp, hfaces⟩
  · rw [hkind] at hk
    exact absurd hk (by decide)
  · have hpiece : input.view.token.piece = p := Prod.ext hfaces.kind hfaces.text
    rw [hpiece]
    exact ⟨lead, ps, hpieces, hlead, hfaces⟩

/-- The token after the one under the cursor is under the cursor once that moves. -/
theorem kind_next (input : Input) : input.view.next.kind = input.advance.view.kind := by
  show input.next.kind = input.advance.current.kind
  rw [next, current]
  rcases h : input.ahead with _ | ⟨lexeme, _ | ⟨next, rest⟩⟩ <;> simp [h]

/-- What is left further on is the end of what is left here. -/
theorem Reaches.pieces {a b : Input} (h : Reaches a b) : b.pieces <:+ a.pieces :=
  h.tokens_suffix.map _

/-- What is left of a plain input is plain. -/
theorem Reaches.plain {a b : Input} (h : Reaches a b) (ha : Plain a.pieces) : Plain b.pieces := by
  obtain ⟨before, hbefore⟩ := h.pieces
  rw [← hbefore] at ha
  exact ha.of_append

/-- What is left of a regular input is regular. -/
theorem Reaches.regular {a b : Input} (h : Reaches a b) (ha : Regular a.pieces) :
    Regular b.pieces := by
  obtain ⟨before, hbefore⟩ := h.pieces
  rw [← hbefore] at ha
  exact ha.of_append

/-- A significant token under the cursor, and what follows it, are what is left behind some
trivia. -/
theorem exists_lead (hk : input.view.kind.isSignificant = true) :
    ∃ lead, input.pieces = lead ++ input.view.token.piece :: input.advance.pieces := by
  obtain ⟨lead, ps, hpieces, _, hfaces⟩ := faces_of_significant hk
  exact ⟨lead, by rw [hpieces, hfaces.advance]⟩

/-- A token of a plain source, and what follows it. -/
theorem plain_of_significant (hplain : Plain input.pieces)
    (hk : input.view.kind.isSignificant = true) :
    Plain (input.view.token.piece :: input.advance.pieces) := by
  obtain ⟨lead, hpieces⟩ := exists_lead hk
  rw [hpieces] at hplain
  exact hplain.of_append

/-- A token of a source without backslashes by themselves, and what follows it. -/
theorem regular_of_significant (hregular : Regular input.pieces)
    (hk : input.view.kind.isSignificant = true) :
    Regular (input.view.token.piece :: input.advance.pieces) := by
  obtain ⟨lead, hpieces⟩ := exists_lead hk
  rw [hpieces] at hregular
  exact hregular.of_append

/-- A token of a significant kind comes first of what is left, without the trivia before it. -/
theorem plain_of_kind {k : Token.Kind} (hplain : Plain input.pieces) (hkind : input.view.kind = k)
    (hk : k.isSignificant = true) :
    Plain ((k, input.view.token.text) :: input.advance.pieces) := by
  have hpiece : input.view.token.piece = (k, input.view.token.text) := Prod.ext hkind rfl
  rw [← hpiece]
  exact plain_of_significant hplain (by rw [hkind, hk])

/-- Where a token is found, there was a significant one on the way. -/
theorem Reaches.exists_significant {a b : Input} (h : Reaches a b) (hb : b.view.kind ≠ .eof) :
    ∃ q ∈ a.pieces, q.1.isSignificant = true := by
  rcases b.faces_cases with ⟨_, hkind, _⟩ | ⟨lead, p, ps, hpieces, _, hp, _⟩
  · exact absurd hkind hb
  · refine ⟨p, h.pieces.subset ?_, hp⟩
    rw [hpieces]
    exact List.mem_append_right _ List.mem_cons_self

/-! ### The significant tokens -/

/-- None of some trivia is significant. -/
theorem filter_trivia {ts : List Token} (h : ∀ t ∈ ts, t.kind.isSignificant = false) :
    ts.filter (·.kind.isSignificant) = [] := by
  rw [List.filter_eq_nil_iff]
  intro t ht
  rw [h t ht]
  exact Bool.false_ne_true

/-- The significant tokens of lexemes are those that the lexemes are for. -/
theorem filter_ungroup (lexemes : List Lexeme) :
    (Lexeme.ungroup lexemes).filter (·.kind.isSignificant) = lexemes.map (·.token) := by
  induction lexemes with
  | nil => rfl
  | cons lexeme lexemes ih =>
    rw [Lexeme.ungroup, List.flatMap_cons, List.filter_append, Lexeme.tokens, List.filter_append,
      filter_trivia lexeme.lead_insignificant, List.nil_append]
    simp only [List.filter_cons, lexeme.significant, if_true, List.filter_nil]
    exact congrArg (lexeme.token :: ·) ih

/-- The significant tokens of an input are those of its lexemes. -/
theorem filter_tokens (input : Input) :
    input.tokens.filter (·.kind.isSignificant) = input.ahead.map (·.token) := by
  rw [tokens, List.filter_append, filter_ungroup, filter_trivia input.trailing_insignificant,
    List.append_nil]

/-! ### What a print puts between tokens -/

/-- The input holds these pieces, and perhaps trivia before them if nothing was read yet. -/
def Holds (fresh : Bool) (input : Input) (ps : List Piece) : Prop :=
  ∃ lead, AreTrivia lead ∧ (fresh = false → lead = []) ∧ input.pieces = lead ++ ps

/-- Behind a piece that is faced the input holds what comes after it. -/
theorem holds_advance {fresh : Bool} {lead : List Piece} (h : input.Faces lead p ps) :
    input.advance.Holds fresh ps :=
  ⟨[], areTrivia_nil, fun _ => rfl, h.advance⟩

/-- A token is seen with the spacing that was printed before it. -/
theorem Holds.faces {fresh : Bool} {sep : List Piece} (h : input.Holds fresh (sep ++ p :: ps))
    (hsep : Spaced fresh lead p.1 sep) (hp : p.1.isSignificant = true) :
    ∃ before, input.Faces before p ps ∧ (fresh = false → before = sep) := by
  obtain ⟨before, hbefore, hnone, hpieces⟩ := h
  refine ⟨before ++ sep, faces_of_pieces ?_ (hbefore.append (areTrivia_of_spaced hsep)) hp, ?_⟩
  · rw [hpieces, List.append_assoc]
  · intro hfresh
    rw [hnone hfresh, List.nil_append]

/-- The spacing is open just if something stands there. -/
theorem isOpen_spacingOf (lead : List Piece) : (spacingOf lead).isOpen = !lead.isEmpty := by
  rcases lead with _ | ⟨p, lead⟩
  · rfl
  · rw [spacingOf]
    split <;> rfl

/-! ### What lies ahead -/

/-- The input holds these pieces, and perhaps trivia before them; its tokens start at different
bytes, where that is called for. -/
structure Ahead (input : Input) (ps : List Piece) (placed : Prop := True) : Prop where
  pieces : ∃ lead, AreTrivia lead ∧ input.pieces = lead ++ ps
  offsets : placed → input.offsets.Nodup

namespace Ahead

variable {placed : Prop}

/-- An input that holds some pieces has them ahead. -/
theorem of_pieces (h : input.pieces = ps) (hoffsets : placed → input.offsets.Nodup) :
    input.Ahead ps placed :=
  ⟨⟨[], areTrivia_nil, h⟩, hoffsets⟩

/-- The kind under the cursor is that of the first significant piece ahead. -/
theorem kind (h : input.Ahead ps placed) : input.view.kind = headKind ps := by
  obtain ⟨lead, hlead, hpieces⟩ := h.pieces
  rw [input.kind_view, hpieces, headKind_append hlead]

/-- Trivia may be left out. -/
theorem of_append (h : input.Ahead (lead ++ ps) placed) (hlead : AreTrivia lead) :
    input.Ahead ps placed := by
  obtain ⟨before, hbefore, hpieces⟩ := h.pieces
  exact ⟨⟨before ++ lead, hbefore.append hlead, by rw [hpieces, List.append_assoc]⟩, h.offsets⟩

/-- Trivia in front of what is ahead may be left out. -/
theorem tail (h : input.Ahead (p :: ps) placed) (hp : p.1.isSignificant = false) :
    input.Ahead ps placed :=
  @of_append _ [p] ps _ h (areTrivia_singleton hp)

/-- A significant piece that comes first is faced. -/
theorem faces (h : input.Ahead (p :: ps) placed) (hp : p.1.isSignificant = true) :
    ∃ lead, input.Faces lead p ps := by
  obtain ⟨lead, hlead, hpieces⟩ := h.pieces
  exact ⟨lead, faces_of_pieces hpieces hlead hp⟩

/-- The token under the cursor has the text of the first piece ahead. -/
theorem text (h : input.Ahead (p :: ps) placed) (hp : p.1.isSignificant = true) :
    input.view.token.text = p.2 := by
  obtain ⟨_, hfaces⟩ := h.faces hp
  exact hfaces.text

/-- Behind the first piece ahead the rest is ahead. -/
theorem advance (h : input.Ahead (p :: ps) placed) (hp : p.1.isSignificant = true) :
    input.advance.Ahead ps placed := by
  obtain ⟨_, hfaces⟩ := h.faces hp
  exact of_pieces hfaces.advance fun hplaced =>
    (Reaches.advance input).nodup_offsets (h.offsets hplaced)

/-- What is ahead is held, with trivia in front of it. -/
theorem holds (h : input.Ahead ps placed) : input.Holds true ps := by
  obtain ⟨lead, hlead, hpieces⟩ := h.pieces
  exact ⟨lead, hlead, fun hfresh => absurd hfresh (by decide), hpieces⟩

/-- What is held is ahead. -/
theorem of_holds {fresh : Bool} (h : input.Holds fresh ps)
    (hoffsets : placed → input.offsets.Nodup) : input.Ahead ps placed := by
  obtain ⟨lead, hlead, _, hpieces⟩ := h
  exact ⟨⟨lead, hlead, hpieces⟩, hoffsets⟩

/-- To move past a piece that is ahead leaves one token fewer. -/
theorem size (h : input.Ahead (p :: ps) placed) (hp : p.1.isSignificant = true) :
    input.size = input.advance.size + 1 := by
  obtain ⟨_, hfaces⟩ := h.faces hp
  exact hfaces.size

end Ahead

end Input

end Cssom

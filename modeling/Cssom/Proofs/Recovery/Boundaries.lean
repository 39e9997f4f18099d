import Cssom.Production.PassOver
import Cssom.Proofs.Reading.Advance
import Mathlib.Algebra.GroupWithZero.Nat
import Mathlib.Algebra.Ring.Int.Defs
import Mathlib.Data.List.Basic

/-!
# Where scans stop

A scan is a loop over tokens that keeps a counter. `BracketScan` is such a loop on the kinds of the
tokens alone, with a counter that may be any integer; where it stops is told by the counter
(`taken_spec`), and a scan that never counts below zero without stopping keeps its counter in any
machine word that has room for the tokens (`takenIn_eq_some`). Each production that passes over
tokens runs one of four scans (`RunsScan.run`), whose counters are the balances of the brackets
passed over.
-/

namespace Cssom

/-- The kinds of the significant tokens from the cursor on. -/
def Input.kindsAhead (input : Input) : List Token.Kind :=
  input.ahead.map (·.token.kind)

namespace Grammar

open Production Token

/-! ### The first place that fits -/

/-- The first place in so many tokens that fits, or the place behind them if none in them does. -/
structure FirstFit (size : Nat) (fits : Nat → Prop) (place : Nat) : Prop where
  le : place ≤ size
  not_before : ∀ earlier < place, ¬ fits earlier
  fits_of_lt : place < size → fits place

/-- The first place that fits stays the same if the places that fit do. -/
theorem FirstFit.congr {size place : Nat} {fits fits' : Nat → Prop} (h : FirstFit size fits place)
    (hiff : ∀ i < size, (fits i ↔ fits' i)) : FirstFit size fits' place where
  le := h.le
  not_before i hi hfits := h.not_before i hi ((hiff i (Nat.lt_of_lt_of_le hi h.le)).2 hfits)
  fits_of_lt hlt := (hiff place hlt).1 (h.fits_of_lt hlt)

/-! ### Scans -/

/-- A loop over tokens that keeps a counter: when it stops in front of a token, what the counter is
behind a token that it takes, and when it stops there. -/
structure BracketScan where
  stopsBefore : Int → Kind → Bool
  count : Int → Kind → Int
  stopsBehind : Int → Kind → Bool

/-- The numbers that a machine word has room for. -/
structure Word where
  least : Int
  greatest : Int

/-- Whether a word has room for a number. -/
def Word.holds (word : Word) (n : Int) : Bool :=
  decide (word.least ≤ n) && decide (n ≤ word.greatest)

namespace BracketScan

/-- How many tokens the loop takes. -/
def taken (scan : BracketScan) : Int → List Kind → Nat
  | _, [] => 0
  | counter, k :: ks =>
    if scan.stopsBefore counter k then 0
    else
      let next := scan.count counter k
      if scan.stopsBehind next k then 1 else scan.taken next ks + 1

/-- How many tokens the loop takes with its counter in a word, if the counter never leaves it. -/
def takenIn (scan : BracketScan) (word : Word) : Int → List Kind → Option Nat
  | _, [] => some 0
  | counter, k :: ks =>
    if scan.stopsBefore counter k then some 0
    else
      let next := scan.count counter k
      if !word.holds next then none
      else if scan.stopsBehind next k then some 1
      else (scan.takenIn word next ks).map (· + 1)

/-- The counter behind some tokens. -/
def after (scan : BracketScan) (counter : Int) (ks : List Kind) : Int :=
  ks.foldl scan.count counter

/-- Whether the loop stops at a place, by the counter there: in front of the token behind the place,
or behind the token before it. -/
def StopsAt (scan : BracketScan) (counter : Int) (ks : List Kind) (i : Nat) : Prop :=
  (∃ k ∈ ks[i]?, scan.stopsBefore (scan.after counter (ks.take i)) k = true) ∨
    0 < i ∧ ∃ k ∈ ks[i - 1]?, scan.stopsBehind (scan.after counter (ks.take i)) k = true

variable {scan : BracketScan} {counter : Int} {k : Kind} {ks : List Kind}

/-- A scan stops at its start just if it stops before the first token. -/
theorem stopsAt_zero : scan.StopsAt counter (k :: ks) 0 ↔ scan.stopsBefore counter k = true := by
  simp [StopsAt, after]

/-- A scan stops further on where it does behind the first token, or right behind that token. -/
theorem stopsAt_succ (i : Nat) : scan.StopsAt counter (k :: ks) (i + 1) ↔
    scan.StopsAt (scan.count counter k) ks i ∨
      i = 0 ∧ scan.stopsBehind (scan.count counter k) k = true := by
  rcases i with _ | i <;> simp [StopsAt, after]

/-- The loop stops at the first place where it may. -/
theorem taken_spec : FirstFit ks.length (scan.StopsAt counter ks) (scan.taken counter ks) := by
  induction ks generalizing counter with
  | nil => exact ⟨Nat.le_refl _, nofun, nofun⟩
  | cons k ks ih =>
    rw [taken]
    split
    · next hbefore => exact ⟨Nat.zero_le _, nofun, fun _ => stopsAt_zero.2 hbefore⟩
    · next hbefore =>
      have hnone : ¬ scan.StopsAt counter (k :: ks) 0 := fun h => hbefore (stopsAt_zero.1 h)
      dsimp only
      split
      · next hbehind =>
        refine ⟨Nat.succ_le_succ (Nat.zero_le _), ?_, fun _ => ?_⟩
        · intro i hi
          obtain rfl := Nat.lt_one_iff.1 hi
          exact hnone
        · exact (stopsAt_succ 0).2 (.inr ⟨rfl, hbehind⟩)
      · next hbehind =>
        have hrest : FirstFit ks.length (scan.StopsAt (scan.count counter k) ks)
            (scan.taken (scan.count counter k) ks) := ih
        have hsucc (i : Nat) : scan.StopsAt counter (k :: ks) (i + 1) ↔
            scan.StopsAt (scan.count counter k) ks i := by
          rw [stopsAt_succ, or_iff_left fun h => hbehind h.2]
        refine ⟨Nat.succ_le_succ hrest.le, ?_, fun hlt => ?_⟩
        · rintro (_ | i) hi
          · exact hnone
          · exact fun h => hrest.not_before i (Nat.lt_of_succ_lt_succ hi) ((hsucc i).1 h)
        · exact (hsucc _).2 (hrest.fits_of_lt (Nat.lt_of_succ_lt_succ hlt))

/-- Where the counter is not below zero, a token counts up by at most one, and down to what the word
has room for; and it counts below zero only where the loop stops. -/
structure Counts (scan : BracketScan) (word : Word) : Prop where
  le_succ : ∀ n k, 0 ≤ n → scan.count n k ≤ n + 1
  least_le : ∀ n k, 0 ≤ n → scan.stopsBefore n k = false → word.least ≤ scan.count n k
  nonneg : ∀ n k, 0 ≤ n → scan.stopsBefore n k = false →
    scan.stopsBehind (scan.count n k) k = false → 0 ≤ scan.count n k

/-- A counter that starts at no less than zero stays in a word that has room for as many more as
there are tokens. -/
theorem takenIn_eq_some {word : Word} (h : scan.Counts word) (hcounter : 0 ≤ counter)
    (hroom : counter + ks.length ≤ word.greatest) :
    scan.takenIn word counter ks = some (scan.taken counter ks) := by
  induction ks generalizing counter with
  | nil => rfl
  | cons k ks ih =>
    rw [takenIn, taken]
    rcases hbefore : scan.stopsBefore counter k
    · have hup := h.le_succ counter k hcounter
      have hdown := h.least_le counter k hcounter hbefore
      rw [List.length_cons] at hroom
      have hholds : word.holds (scan.count counter k) = true := by
        rw [Word.holds, Bool.and_eq_true, decide_eq_true_iff, decide_eq_true_iff]
        omega
      rcases hbehind : scan.stopsBehind (scan.count counter k) k
      · have hrest := ih (h.nonneg counter k hcounter hbefore hbehind) (by omega)
        simp [hholds, hbehind, hrest]
      · simp [hholds, hbehind]
    · rfl

/-- The counter of a loop that counts by adding up is a sum. -/
theorem after_eq_add {balance : List Kind → Int} (hcount : ∀ n k, scan.count n k = n + balance [k])
    (hnil : balance [] = 0) (hcons : ∀ k ks, balance (k :: ks) = balance [k] + balance ks) :
    scan.after counter ks = counter + balance ks := by
  induction ks generalizing counter with
  | nil => rw [hnil, Int.add_zero]; rfl
  | cons k ks ih =>
    have hstep : scan.after counter (k :: ks) = scan.after (scan.count counter k) ks := rfl
    rw [hstep, ih, hcount, hcons k ks, Int.add_assoc]

end BracketScan

/-! ### Productions that run scans -/

/-- A loop of productions, by rounds and what it has counted, that runs a scan. -/
structure RunsScan (scan : BracketScan) (loop : Nat → Nat → Production Unit)
    (next : Nat → Kind → Nat) : Prop where
  run_zero : ∀ depth parser, (loop 0 depth).run parser = ((), parser)
  run_succ : ∀ rounds depth parser, (loop (rounds + 1) depth).run parser =
    if parser.view.atEnd || scan.stopsBefore depth parser.view.kind then ((), parser)
    else if scan.stopsBehind (scan.count depth parser.view.kind) parser.view.kind then
      ((), parser.advance)
    else (loop rounds (next depth parser.view.kind)).run parser.advance
  next_eq : ∀ (depth : Nat) k, scan.stopsBefore depth k = false →
    scan.stopsBehind (scan.count depth k) k = false → (next depth k : Int) = scan.count depth k

/-- With a round for each token ahead the loop passes over as many tokens as the scan takes. -/
theorem RunsScan.run {scan : BracketScan} {loop : Nat → Nat → Production Unit}
    {next : Nat → Kind → Nat} (h : RunsScan scan loop next) (rounds depth : Nat) (parser : Parser)
    (hsize : parser.input.size ≤ rounds) : (loop rounds depth).run parser =
      ((), parser.advanceBy (scan.taken depth parser.input.kindsAhead)) := by
  induction rounds generalizing depth parser with
  | zero =>
    have hnil : parser.input.ahead = [] := by
      rw [← Input.size_eq_zero_iff]
      omega
    rw [h.run_zero, Input.kindsAhead, hnil]
    rfl
  | succ rounds ih =>
    rw [h.run_succ]
    rcases hahead : parser.input.ahead with _ | ⟨lexeme, rest⟩
    · have hend : parser.view.atEnd = true := by
        rw [Parser.atEnd_view, Parser.hasTokens_eq, Input.hasTokens, hahead]
        rfl
      rw [hend, Input.kindsAhead, hahead]
      rfl
    · have hend : parser.view.atEnd = false := by
        rw [Parser.atEnd_view, Parser.hasTokens_eq, Input.hasTokens, hahead]
        rfl
      have hkind : parser.view.kind = lexeme.token.kind := by
        rw [View.kind, Parser.view, Input.view, Input.current, hahead]
      have hkinds : parser.input.kindsAhead =
          lexeme.token.kind :: parser.advance.input.kindsAhead := by
        rw [Input.kindsAhead, Input.kindsAhead, Parser.input_advance, Input.ahead_advance, hahead]
        rfl
      rw [hend, hkind, hkinds, BracketScan.taken, Bool.false_or]
      rcases hbefore : scan.stopsBefore depth lexeme.token.kind
      · rcases hbehind : scan.stopsBehind (scan.count depth lexeme.token.kind) lexeme.token.kind
        · have hnext := h.next_eq depth lexeme.token.kind hbefore hbehind
          have hrest := ih (next depth lexeme.token.kind) parser.advance
            (by rw [Parser.size_advance]; omega)
          simp only [Bool.false_eq_true, if_false, hbehind, hrest, hnext]
          rfl
        · simp only [Bool.false_eq_true, if_false, hbehind, if_true]
          rfl
      · rfl

/-! ### Balances -/

/-- How many more braces are opened than closed. -/
def braceBalance (ks : List Kind) : Int :=
  ks.count .openCurly - ks.count .closeCurly

/-- How many more parentheses are opened than closed. A function opens one. -/
def parenBalance (ks : List Kind) : Int :=
  ks.count .openParen + ks.count .function - ks.count .closeParen

/-- How many parentheses are open behind some tokens. One that is closed without having been opened
does not count. -/
def parenDepth (ks : List Kind) : Int :=
  ks.foldl (fun depth k => max 0 (depth + parenBalance [k])) 0

/-- The balance of braces adds up token by token. -/
theorem braceBalance_cons (k : Kind) (ks : List Kind) :
    braceBalance (k :: ks) = braceBalance [k] + braceBalance ks := by
  rw [braceBalance, braceBalance, braceBalance, ← List.singleton_append, List.count_append,
    List.count_append]
  omega

/-- The balance of parentheses adds up token by token. -/
theorem parenBalance_cons (k : Kind) (ks : List Kind) :
    parenBalance (k :: ks) = parenBalance [k] + parenBalance ks := by
  rw [parenBalance, parenBalance, parenBalance, ← List.singleton_append, List.count_append,
    List.count_append, List.count_append]
  omega

/-- The braces left open by a token are counted by its balance, but never below zero. -/
theorem bracesAfter_eq (depth : Nat) (k : Kind) :
    (bracesAfter depth k : Int) = max 0 (depth + braceBalance [k]) := by
  cases k <;> simp [bracesAfter, braceBalance] <;> omega

/-- The parentheses left open by a token are counted by its balance, but never below zero. -/
theorem parensAfter_eq (depth : Nat) (k : Kind) :
    (parensAfter depth k : Int) = max 0 (depth + parenBalance [k]) := by
  cases k <;> simp [parensAfter, parenBalance] <;> omega

/-! ### The four scans -/

/-- The scan over the rest of a rule. Its counter may fall to one below zero, where it stops. -/
def ruleScan : BracketScan where
  stopsBefore _ _ := false
  count braces k := braces + braceBalance [k]
  stopsBehind braces k := decide (braces ≤ 0) && endsRule k

/-- The scan over the rest of a declaration. -/
def declarationScan : BracketScan where
  stopsBefore braces k := decide (braces ≤ 0) && endsRule k
  count braces k := braces + braceBalance [k]
  stopsBehind _ _ := false

/-- The scan over the rest of what stands in parentheses. -/
def argumentScan : BracketScan where
  stopsBefore parens _ := decide (parens = 0)
  count parens k := parens + parenBalance [k]
  stopsBehind _ _ := false

/-- The scan over the rest of a media list that a kind of token should follow. -/
def mediaScan (terminator : Kind) : BracketScan where
  stopsBefore parens k := decide (parens = 0) && endsMedia terminator k
  count parens k := max 0 (parens + parenBalance [k])
  stopsBehind _ _ := false

section Counters

variable {n : Int} {k : Kind}

/-- One token changes the balance of braces by one at most. -/
theorem braceBalance_bounds (k : Kind) : -1 ≤ braceBalance [k] ∧ braceBalance [k] ≤ 1 := by
  cases k <;> decide

/-- One token changes the balance of parentheses by one at most. -/
theorem parenBalance_bounds (k : Kind) : -1 ≤ parenBalance [k] ∧ parenBalance [k] ≤ 1 := by
  cases k <;> decide

/-- Only a token that may end a rule closes a brace. -/
theorem braceBalance_nonneg (hk : endsRule k = false) : 0 ≤ braceBalance [k] := by
  cases k <;> first | decide | exact absurd hk (by decide)

/-- The counter of a rule is not below zero where the scan goes on. -/
theorem ruleScan_nonneg (hn : 0 ≤ n)
    (hbehind : ruleScan.stopsBehind (ruleScan.count n k) k = false) : 0 ≤ ruleScan.count n k := by
  simp only [ruleScan, Bool.and_eq_false_iff, decide_eq_false_iff_not] at hbehind ⊢
  rcases hbehind with hpos | hk
  · omega
  · have hstep := braceBalance_nonneg hk
    omega

/-- The counter of a declaration is not below zero where the scan goes on. -/
theorem declarationScan_nonneg (hn : 0 ≤ n) (hbefore : declarationScan.stopsBefore n k = false) :
    0 ≤ declarationScan.count n k := by
  simp only [declarationScan, Bool.and_eq_false_iff, decide_eq_false_iff_not] at hbefore ⊢
  rcases hbefore with hpos | hk
  · have hstep := braceBalance_bounds k
    omega
  · have hstep := braceBalance_nonneg hk
    omega

/-- The counter of arguments is not below zero where the scan goes on. -/
theorem argumentScan_nonneg (hn : 0 ≤ n) (hbefore : argumentScan.stopsBefore n k = false) :
    0 ≤ argumentScan.count n k := by
  have hstep := parenBalance_bounds k
  simp only [argumentScan, decide_eq_false_iff_not] at hbefore ⊢
  omega

/-- A signed word of 32 bits. -/
def Word.signed32 : Word := ⟨-2 ^ 31, 2 ^ 31 - 1⟩

/-- An unsigned word of 64 bits. -/
def Word.unsigned64 : Word := ⟨0, 2 ^ 64 - 1⟩

/-- The counter of a rule counts in a signed word. -/
theorem counts_ruleScan : ruleScan.Counts .signed32 where
  le_succ n k _ := by
    have hstep := braceBalance_bounds k
    simp only [ruleScan]
    omega
  least_le n k hn _ := by
    have hstep := braceBalance_bounds k
    simp only [ruleScan, Word.signed32]
    omega
  nonneg _ _ hn _ hbehind := ruleScan_nonneg hn hbehind

/-- The counter of a declaration counts in a signed word. -/
theorem counts_declarationScan : declarationScan.Counts .signed32 where
  le_succ n k _ := by
    have hstep := braceBalance_bounds k
    simp only [declarationScan]
    omega
  least_le n k hn hbefore := by
    have hnonneg := declarationScan_nonneg hn hbefore
    simp only [Word.signed32]
    omega
  nonneg _ _ hn hbefore _ := declarationScan_nonneg hn hbefore

/-- The counter of arguments counts in an unsigned word. -/
theorem counts_argumentScan : argumentScan.Counts .unsigned64 where
  le_succ n k _ := by
    have hstep := parenBalance_bounds k
    simp only [argumentScan]
    omega
  least_le _ _ hn hbefore := argumentScan_nonneg hn hbefore
  nonneg _ _ hn hbefore _ := argumentScan_nonneg hn hbefore

/-- The counter of a media list counts in an unsigned word. -/
theorem counts_mediaScan (terminator : Kind) : (mediaScan terminator).Counts .unsigned64 where
  le_succ n k _ := by
    have hstep := parenBalance_bounds k
    simp only [mediaScan]
    omega
  least_le _ _ _ _ := Int.le_max_left _ _
  nonneg _ _ _ _ _ := Int.le_max_left _ _

end Counters

/-! ### Productions and their scans -/

/-- No brace is left open by a token just if the balance says so. -/
theorem bracesAfter_eq_zero_iff (depth : Nat) (k : Kind) :
    bracesAfter depth k = 0 ↔ depth + braceBalance [k] ≤ 0 := by
  have heq := bracesAfter_eq depth k
  omega

/-- To pass over the rest of a rule is to run its scan. -/
theorem runs_ruleScan : RunsScan ruleScan passRuleFrom bracesAfter where
  run_zero _ _ := rfl
  run_succ rounds depth parser := by
    have hstops : ruleScan.stopsBehind (ruleScan.count depth parser.view.kind) parser.view.kind =
        (decide (bracesAfter depth parser.view.kind = 0) && endsRule parser.view.kind) := by
      simp only [ruleScan, bracesAfter_eq_zero_iff]
    rw [hstops, passRuleFrom, run_bind, run_view]
    simp only [ruleScan, Bool.or_false]
    rcases parser.view.atEnd
    · rw [if_neg Bool.false_ne_true, if_neg Bool.false_ne_true, run_bind, run_skip]
      split <;> rfl
    · rfl
  next_eq depth k _ hbehind := by
    have hnonneg := ruleScan_nonneg (Int.natCast_nonneg depth) hbehind
    exact (bracesAfter_eq depth k).trans (Int.max_eq_right hnonneg)

/-- To pass over the rest of a declaration is to run its scan. -/
theorem runs_declarationScan : RunsScan declarationScan passDeclarationFrom bracesAfter where
  run_zero _ _ := rfl
  run_succ rounds depth parser := by
    have hstops : declarationScan.stopsBefore depth parser.view.kind =
        (decide (depth = 0) && endsRule parser.view.kind) := by
      simp [declarationScan]
    rw [hstops, passDeclarationFrom, run_bind, run_view]
    split <;> rfl
  next_eq depth k hbefore _ := by
    have hnonneg := declarationScan_nonneg (Int.natCast_nonneg depth) hbefore
    exact (bracesAfter_eq depth k).trans (Int.max_eq_right hnonneg)

/-- To pass over the arguments of a function is to run their scan. -/
theorem runs_argumentScan : RunsScan argumentScan passArgumentsFrom parensAfter where
  run_zero _ _ := rfl
  run_succ rounds depth parser := by
    have hstops : argumentScan.stopsBefore depth parser.view.kind = decide (depth = 0) := by
      simp [argumentScan]
    rw [hstops, passArgumentsFrom, run_bind, run_view]
    split <;> rfl
  next_eq depth k hbefore _ := by
    have hnonneg := argumentScan_nonneg (Int.natCast_nonneg depth) hbefore
    exact (parensAfter_eq depth k).trans (Int.max_eq_right hnonneg)

/-- To pass over the rest of a media list is to run its scan. -/
theorem runs_mediaScan (terminator : Kind) :
    RunsScan (mediaScan terminator) (passMediaFrom terminator) parensAfter where
  run_zero _ _ := rfl
  run_succ rounds depth parser := by
    have hstops : (mediaScan terminator).stopsBefore depth parser.view.kind =
        (decide (depth = 0) && endsMedia terminator parser.view.kind) := by
      simp [mediaScan]
    rw [hstops, passMediaFrom, run_bind, run_view]
    split <;> rfl
  next_eq depth k _ _ := parensAfter_eq depth k

/-! ### Where the four stop -/

/-- A rule may end behind a semicolon or a closing brace, if no more braces are open there than
closed. -/
def EndsRuleBehind (ks : List Kind) (i : Nat) : Prop :=
  0 < i ∧ ∃ k ∈ ks[i - 1]?, (k = .semicolon ∨ k = .closeCurly) ∧ braceBalance (ks.take i) ≤ 0

/-- A declaration may end in front of a semicolon or a closing brace, if no more braces are open
there than closed. -/
def EndsDeclarationBefore (ks : List Kind) (i : Nat) : Prop :=
  ∃ k ∈ ks[i]?, (k = .semicolon ∨ k = .closeCurly) ∧ braceBalance (ks.take i) ≤ 0

/-- Of so many parentheses that were open, and those opened since, none is left. -/
def EndsArgumentsAt (depth : Nat) (ks : List Kind) (i : Nat) : Prop :=
  depth + parenBalance (ks.take i) = 0

/-- A media list may end in front of the kind of token that should follow it, a semicolon or a
brace, if no parenthesis is open there. -/
def EndsMediaBefore (terminator : Kind) (ks : List Kind) (i : Nat) : Prop :=
  ∃ k ∈ ks[i]?, (k = terminator ∨ k = .semicolon ∨ k = .openCurly ∨ k = .closeCurly) ∧
    parenDepth (ks.take i) = 0

/-- A scan that counts braces keeps their balance. -/
theorem after_braces {scan : BracketScan} (hcount : ∀ n k, scan.count n k = n + braceBalance [k])
    (ks : List Kind) : scan.after 0 ks = braceBalance ks :=
  (BracketScan.after_eq_add hcount rfl braceBalance_cons).trans (Int.zero_add _)

/-- The scan of a rule stops where a rule may end. -/
theorem stopsAt_ruleScan (ks : List Kind) (i : Nat) :
    ruleScan.StopsAt 0 ks i ↔ EndsRuleBehind ks i := by
  rw [BracketScan.StopsAt, after_braces fun _ _ => rfl]
  simp [ruleScan, EndsRuleBehind, endsRule, and_comm]

/-- The scan of a declaration stops where a declaration may end. -/
theorem stopsAt_declarationScan (ks : List Kind) (i : Nat) :
    declarationScan.StopsAt 0 ks i ↔ EndsDeclarationBefore ks i := by
  rw [BracketScan.StopsAt, after_braces fun _ _ => rfl]
  simp [declarationScan, EndsDeclarationBefore, endsRule, and_comm]

/-- The scan of arguments stops where they may end. -/
theorem stopsAt_argumentScan {depth : Nat} {ks : List Kind} {i : Nat} (hi : i < ks.length) :
    argumentScan.StopsAt depth ks i ↔ EndsArgumentsAt depth ks i := by
  rw [BracketScan.StopsAt, BracketScan.after_eq_add (fun _ _ => rfl) rfl parenBalance_cons]
  simp [argumentScan, EndsArgumentsAt, List.getElem?_eq_getElem hi]

/-- The scan of a media list stops where it may end. -/
theorem stopsAt_mediaScan (terminator : Kind) (ks : List Kind) (i : Nat) :
    (mediaScan terminator).StopsAt 0 ks i ↔ EndsMediaBefore terminator ks i := by
  have hafter (ks : List Kind) : (mediaScan terminator).after 0 ks = parenDepth ks := rfl
  rw [BracketScan.StopsAt, hafter]
  simp [mediaScan, EndsMediaBefore, endsMedia, and_comm, or_assoc]

end Grammar

open Grammar Production Token

@[simp] theorem Parser.diagnostics_advanceBy (count : Nat) (parser : Parser) :
    (parser.advanceBy count).diagnostics = parser.diagnostics := by
  induction count generalizing parser with
  | zero => rfl
  | succ count ih => exact ih parser.advance

/-- A production passes over so many of the tokens ahead, as many as stand before the first place
that fits, and does nothing else. -/
structure PassesTo (p : Production Unit) (parser : Parser) (fits : Nat → Prop) (taken : Nat) :
    Prop where
  first : FirstFit parser.input.kindsAhead.length fits taken
  run_eq : p.run parser = ((), parser.advanceBy taken)
  silent : (p.run parser).2.diagnostics = parser.diagnostics

/-- A production that runs a scan passes over tokens to the first place that fits. -/
theorem PassesTo.of_scan {scan : BracketScan} {loop : Nat → Nat → Production Unit}
    {next : Nat → Kind → Nat} (h : RunsScan scan loop next) (depth : Nat) (parser : Parser)
    {fits : Nat → Prop} (hfits : ∀ i < parser.input.kindsAhead.length,
      (scan.StopsAt depth parser.input.kindsAhead i ↔ fits i)) :
    PassesTo (do loop (← view).size depth) parser fits
      (scan.taken depth parser.input.kindsAhead) := by
  have hrun := h.run parser.input.size depth parser (Nat.le_refl _)
  refine ⟨BracketScan.taken_spec.congr hfits, hrun, ?_⟩
  rw [run_bind, run_view, Parser.size_view, hrun]
  exact Parser.diagnostics_advanceBy _ _

/-- Each scan stops at the first place where what it passes over ends, or at the end of the source,
and reports nothing. The scan over a declaration takes a closing brace only if it took more opening
ones before. No counter leaves its word if there are fewer than 2 ^ 31 tokens: those of the braces
are signed words of 32 bits, those of the parentheses unsigned words of 64 bits. The parentheses
that are open when the scan of arguments starts were tokens too, and are counted as such. -/
theorem scans_stop_at_boundaries (parser : Parser) (depth : Nat) (terminator : Kind) :
    let ks := parser.input.kindsAhead
    (∃ taken, PassesTo passRule parser (EndsRuleBehind ks) taken ∧
      (ks.length < 2 ^ 31 → ruleScan.takenIn .signed32 0 ks = some taken)) ∧
    (∃ taken, PassesTo passDeclaration parser (EndsDeclarationBefore ks) taken ∧
      (∀ i < taken, ks[i]? = some .closeCurly → 0 < braceBalance (ks.take i)) ∧
      (ks.length < 2 ^ 31 → declarationScan.takenIn .signed32 0 ks = some taken)) ∧
    (∃ taken, PassesTo (passArguments depth) parser (EndsArgumentsAt depth ks) taken ∧
      (depth + ks.length < 2 ^ 64 → argumentScan.takenIn .unsigned64 depth ks = some taken)) ∧
    ∃ taken, PassesTo (passMedia terminator) parser (EndsMediaBefore terminator ks) taken ∧
      (ks.length < 2 ^ 31 → (mediaScan terminator).takenIn .unsigned64 0 ks = some taken) := by
  intro ks
  have hdeclaration := PassesTo.of_scan runs_declarationScan 0 parser
    fun i _ => stopsAt_declarationScan ks i
  refine ⟨⟨_, .of_scan runs_ruleScan 0 parser fun i _ => stopsAt_ruleScan ks i, fun hsize => ?_⟩,
    ⟨_, hdeclaration, fun i hi hclose => ?_, fun hsize => ?_⟩,
    ⟨_, .of_scan runs_argumentScan depth parser fun i hi => stopsAt_argumentScan hi,
      fun hsize => ?_⟩,
    ⟨_, .of_scan (runs_mediaScan terminator) 0 parser fun i _ => stopsAt_mediaScan terminator ks i,
      fun hsize => ?_⟩⟩
  · refine BracketScan.takenIn_eq_some counts_ruleScan (Int.le_refl 0) ?_
    simp only [Word.signed32]
    omega
  · have hnot := hdeclaration.first.not_before i hi
    by_contra hle
    exact hnot ⟨.closeCurly, hclose, .inr rfl, Int.not_lt.1 hle⟩
  · refine BracketScan.takenIn_eq_some counts_declarationScan (Int.le_refl 0) ?_
    simp only [Word.signed32]
    omega
  · refine BracketScan.takenIn_eq_some counts_argumentScan (Int.natCast_nonneg depth) ?_
    simp only [Word.unsigned64]
    omega
  · refine BracketScan.takenIn_eq_some (counts_mediaScan terminator) (Int.le_refl 0) ?_
    simp only [Word.unsigned64]
    omega

end Cssom

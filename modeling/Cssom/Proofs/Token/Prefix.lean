import Cssom.Proofs.Token.Ends

/-!
# What a pattern sees of a text

A pattern that does not ask for the end of the input finds the ends that lie within a prefix of a
text whatever follows the prefix (`filter_ends_append`). So if it cannot take the character that
follows, all its ends are those of the prefix alone (`ends_append_of_within`). What it can take
shows in its tests: `Only` says which characters it takes, escapes apart.
-/

namespace Cssom.Pattern

/-! ### Ends within a prefix -/

/-- Whether the pattern looks at nothing but the characters it takes. What is repeated takes
something, so that its rounds never run out. -/
def isLocal : Pattern → Bool
  | one _ | nothing => true
  | atEnd | few _ => false
  | seq first second => first.isLocal && second.isLocal
  | alt preferred fallback => preferred.isLocal && fallback.isLocal
  | many unit => unit.takesSome && unit.isLocal

/-- The place in a text that goes on further. -/
def extend (r : List Char) (a : Place) : Place :=
  (a.1, a.2 ++ r)

/-- What is left out of a list may be left out before its elements are expanded, if it expands to
nothing. -/
theorem flatMap_eq_of_filter {α β : Type} (keep : α → Bool) (l : List α) (f : α → List β)
    (h : ∀ a ∈ l, keep a = false → f a = []) : l.flatMap f = (l.filter keep).flatMap f := by
  induction l with
  | nil => rfl
  | cons a l ih =>
    rw [List.forall_mem_cons] at h
    rw [List.flatMap_cons, ih h.2]
    by_cases hk : keep a = true
    · rw [List.filter_cons_of_pos hk, List.flatMap_cons]
    · rw [List.filter_cons_of_neg hk, h.1 (Bool.eq_false_iff.2 hk), List.nil_append]

/-- If the ends of one pattern and of the next that lie within a prefix are those of the prefix
alone, so are the ends of one after the other. -/
theorem filter_flatMap_ends {step : Place → List Place} {next : Place → List Place} {n : Nat}
    {x r : List Char} {whole : List Place}
    (hfilter : whole.filter (fun b => decide (b.1 ≤ n + x.length)) =
      (step (n, x)).map (extend r))
    (hsplits : ∀ b ∈ step (n, x), Splits (n, x) b)
    (hbeyond : ∀ a, ∀ b ∈ next a, a.1 ≤ b.1)
    (hnext : ∀ m y, (m, y) ∈ step (n, x) →
      (next (m, y ++ r)).filter (fun b => decide (b.1 ≤ m + y.length)) =
        (next (m, y)).map (extend r)) :
    (whole.flatMap next).filter (fun b => decide (b.1 ≤ n + x.length)) =
      ((step (n, x)).flatMap next).map (extend r) := by
  rw [List.filter_flatMap, flatMap_eq_of_filter (fun b => decide (b.1 ≤ n + x.length)), hfilter,
    List.flatMap_map, List.map_flatMap]
  · refine List.flatMap_congr fun b hb => ?_
    have hlength : n + x.length = b.1 + b.2.length := (hsplits b hb).length_eq
    rw [hlength]
    exact hnext b.1 b.2 hb
  · intro b _ hb
    rw [List.filter_eq_nil_iff]
    intro c hc
    have hle := hbeyond b c hc
    simp only [decide_eq_false_iff_not, decide_eq_true_eq] at hb ⊢
    omega

/-- Of the ends in a text, those within a prefix are the ends in the prefix alone. -/
theorem filter_ends_append (p : Pattern) (h : p.isLocal = true) (n : Nat) (x r : List Char) :
    (p.ends (n, x ++ r)).filter (fun b => decide (b.1 ≤ n + x.length)) =
      (p.ends (n, x)).map (extend r) := by
  induction p generalizing n x r with
  | one accepts =>
    rcases x with _ | ⟨c, x⟩
    · have hbeyond : ∀ b ∈ (one accepts).ends (n, r), n < b.1 := fun b hb =>
        lt_of_mem_ends _ rfl _ b hb
      rw [List.nil_append, List.filter_eq_nil_iff.2]
      · rfl
      · intro b hb
        have := hbeyond b hb
        simp only [List.length_nil, decide_eq_true_eq]
        omega
    · rw [List.cons_append, ends, ends]
      split
      · rw [List.filter_cons_of_pos (by simp)]
        rfl
      · rfl
  | nothing => rw [ends, ends, List.filter_cons_of_pos (by simp)]; rfl
  | atEnd => simp [isLocal] at h
  | few unit => simp [isLocal] at h
  | alt preferred fallback ihPreferred ihFallback =>
    rw [isLocal, Bool.and_eq_true] at h
    rw [ends, ends, List.filter_append, ihPreferred h.1, ihFallback h.2, List.map_append]
  | seq first second ihFirst ihSecond =>
    rw [isLocal, Bool.and_eq_true] at h
    rw [ends, ends]
    exact filter_flatMap_ends (ihFirst h.1 n x r) (first.splits_of_mem_ends _)
      (fun a b hb => (second.splits_of_mem_ends a b hb).le) fun m y _ => ihSecond h.2 m y r
  | many unit ih =>
    rw [isLocal, Bool.and_eq_true] at h
    -- every unit takes something, so what is left of the prefix gets shorter
    induction hx : x.length using Nat.strongRecOn generalizing n x with
    | ind len ihLen =>
      subst hx
      rw [ends_many h.1, ends_many h.1, List.filter_append, List.map_append]
      congr 1
      · refine filter_flatMap_ends (ih h.2 n x r) (unit.splits_of_mem_ends _)
          (fun a b hb => ((many unit).splits_of_mem_ends a b hb).le) fun m y hy => ?_
        exact ihLen y.length (unit.length_lt_of_mem_ends h.1 hy) m y rfl
      · rw [List.filter_cons_of_pos (by simp)]
        rfl

/-- If all ends lie within a prefix, they are the ends in the prefix alone. -/
theorem ends_append_of_within {p : Pattern} (h : p.isLocal = true) {n : Nat} {x r : List Char}
    (hwithin : ∀ b ∈ p.ends (n, x ++ r), b.1 ≤ n + x.length) :
    p.ends (n, x ++ r) = (p.ends (n, x)).map (extend r) := by
  rw [← p.filter_ends_append h n x r, List.filter_eq_self.2]
  exact fun b hb => decide_eq_true (hwithin b hb)

/-! ### The preferred match -/

/-- A pattern takes so many characters just if its first end is there. -/
theorem length?_eq_some {p : Pattern} {s : List Char} {n : Nat} :
    p.length? s = some n ↔ ∃ b, (p.ends (0, s)).head? = some b ∧ b.1 = n := by
  rw [length?_eq_head?, Option.map_eq_some_iff]

/-- A pattern does not match just if it has no end. -/
theorem length?_eq_none {p : Pattern} {s : List Char} :
    p.length? s = none ↔ p.ends (0, s) = [] := by
  rw [length?_eq_head?, Option.map_eq_none_iff, List.head?_eq_none_iff]

/-- A match within a prefix is the match in the prefix alone. -/
theorem length?_of_append {p : Pattern} (h : p.isLocal = true) {x r : List Char} {n : Nat}
    (hmatch : p.length? (x ++ r) = some n) (hn : n ≤ x.length) : p.length? x = some n := by
  obtain ⟨b, hb, rfl⟩ := length?_eq_some.1 hmatch
  have hfilter := p.filter_ends_append h 0 x r
  obtain ⟨more, hends⟩ := List.head?_eq_some_iff.1 hb
  rw [hends, List.filter_cons_of_pos (by simpa using hn)] at hfilter
  obtain ⟨b', more', hends', hb', _⟩ := List.map_eq_cons_iff.1 hfilter.symm
  exact length?_eq_some.2 ⟨b', by rw [hends', List.head?_cons], by rw [← hb']; rfl⟩

/-- A pattern that does not match a text does not match what the text starts with. -/
theorem length?_of_append_none {p : Pattern} (h : p.isLocal = true) {x r : List Char}
    (hmatch : p.length? (x ++ r) = none) : p.length? x = none := by
  rw [length?_eq_none] at hmatch ⊢
  have hfilter := p.filter_ends_append h 0 x r
  rw [hmatch, List.filter_nil] at hfilter
  exact List.map_eq_nil_iff.1 hfilter.symm

/-- A pattern whose ends all lie within a prefix takes as much of the prefix alone. -/
theorem length?_append_of_within {p : Pattern} (h : p.isLocal = true) {x r : List Char}
    (hwithin : ∀ b ∈ p.ends (0, x ++ r), b.1 ≤ x.length) :
    p.length? (x ++ r) = p.length? x := by
  have hends := ends_append_of_within h (n := 0) fun b hb => by simpa using hwithin b hb
  rw [length?_eq_head?, length?_eq_head?, hends, List.head?_map, Option.map_map]
  rfl

/-! ### Runs of characters -/

/-- What a repeated test takes passes the test. -/
theorem taken_of_mem_many {accepts : Char → Bool} {n : Nat} {s : List Char} {b : Place}
    (hb : b ∈ (many (one accepts)).ends (n, s)) :
    ∃ taken, s = taken ++ b.2 ∧ b.1 = n + taken.length ∧ ∀ c ∈ taken, accepts c = true := by
  induction s generalizing n with
  | nil =>
    have hb : b = (n, []) := List.mem_singleton.1 hb
    exact ⟨[], by rw [hb]; rfl, by rw [hb]; rfl, fun _ hc => absurd hc List.not_mem_nil⟩
  | cons c s ih =>
    rw [ends_many rfl, List.mem_append, List.mem_flatMap, List.mem_singleton] at hb
    rcases hb with ⟨m, hm, hb⟩ | rfl
    · rw [ends] at hm
      split at hm
      · next hc =>
        rw [List.mem_singleton] at hm
        rw [hm] at hb
        obtain ⟨taken, htaken, hlength, hall⟩ := ih hb
        refine ⟨c :: taken, by rw [htaken]; rfl, ?_, List.forall_mem_cons.2 ⟨hc, hall⟩⟩
        rw [hlength, List.length_cons]
        omega
      · exact absurd hm List.not_mem_nil
    · exact ⟨[], rfl, rfl, fun _ hc => absurd hc List.not_mem_nil⟩

/-- A repeated test can take a whole run of characters that pass it. -/
theorem mem_ends_many {accepts : Char → Bool} {run : List Char}
    (hrun : ∀ c ∈ run, accepts c = true) (n : Nat) (s : List Char) :
    (n + run.length, s) ∈ (many (one accepts)).ends (n, run ++ s) := by
  induction run generalizing n with
  | nil =>
    rw [ends_many rfl]
    exact List.mem_append_right _ List.mem_cons_self
  | cons c run ih =>
    rw [List.forall_mem_cons] at hrun
    rw [List.cons_append, ends_many rfl, ends, if_pos hrun.1, List.flatMap_singleton,
      List.length_cons, Nat.add_comm run.length, ← Nat.add_assoc]
    exact List.mem_append_left _ (ih hrun.2 (n + 1))

/-- A repeated test prefers to take as much as passes it. -/
theorem head?_ends_many (accepts : Char → Bool) (n : Nat) (s : List Char) :
    ((many (one accepts)).ends (n, s)).head? =
      some (n + (s.takeWhile accepts).length, s.dropWhile accepts) := by
  induction s generalizing n with
  | nil => rfl
  | cons c s ih =>
    rw [ends_many rfl, ends, List.takeWhile_cons, List.dropWhile_cons]
    by_cases hc : accepts c = true
    · rw [if_pos hc, if_pos hc, if_pos hc, List.flatMap_cons, List.flatMap_nil, List.append_nil,
        List.head?_append, ih, Option.some_or, List.length_cons]
      congr 2
      omega
    · rw [if_neg hc, if_neg hc, if_neg hc]
      rfl

/-- A test once or more takes as much as passes it. -/
theorem length?_oneOrMore (accepts : Char → Bool) (c : Char) (s : List Char) :
    (oneOrMore (one accepts)).length? (c :: s) =
      if accepts c = true then some (1 + (s.takeWhile accepts).length) else none := by
  rw [length?_eq_head?, oneOrMore, ends, ends]
  split
  · rw [List.flatMap_cons, List.flatMap_nil, List.append_nil, head?_ends_many]
    rfl
  · rfl

/-! ### Characters taken -/

/-- A text of such characters and of escapes, in which a backslash stands for whatever character is
behind it. No escape is left open at its end. -/
inductive Settled (Q : Char → Prop) : List Char → Prop
  | nil : Settled Q []
  | plain {c : Char} {s : List Char} (hc : c ≠ '\\') (hQ : Q c) (more : Settled Q s) :
      Settled Q (c :: s)
  | escaped {c : Char} {s : List Char} (more : Settled Q s) : Settled Q ('\\' :: c :: s)

namespace Settled

variable {Q P : Char → Prop} {x y : List Char}

/-- Settled texts may be put one behind the other. -/
theorem append (hx : Settled Q x) (hy : Settled Q y) : Settled Q (x ++ y) := by
  induction hx with
  | nil => exact hy
  | plain hc hQ _ ih => exact .plain hc hQ ih
  | escaped _ ih => exact .escaped ih

/-- A settled text is settled for any wider choice of characters. -/
theorem mono (hx : Settled Q x) (h : ∀ c, Q c → P c) : Settled P x := by
  induction hx with
  | nil => exact .nil
  | plain hc hQ _ ih => exact .plain hc (h _ hQ) ih
  | escaped _ ih => exact .escaped ih

/-- A settled text is settled behind a character that escapes nothing. -/
theorem of_cons {c : Char} (h : Settled Q (c :: x)) (hc : c ≠ '\\') : Q c ∧ Settled Q x := by
  cases h with
  | plain _ hQ more => exact ⟨hQ, more⟩
  | escaped => exact absurd rfl hc

/-- A settled text is settled behind an escape. -/
theorem of_escaped {c : Char} (h : Settled Q ('\\' :: c :: x)) : Settled Q x := by
  cases h with
  | plain hc => exact absurd rfl hc
  | escaped more => exact more

/-- What follows a text without an open escape is read by itself. -/
theorem of_append (hx : Settled P x) (h : Settled Q (x ++ y)) : Settled Q y := by
  induction hx with
  | nil => exact h
  | plain hc _ _ ih => exact ih (h.of_cons hc).2
  | escaped _ ih => exact ih h.of_escaped

/-- A text of such characters without backslashes is settled. -/
theorem of_forall (h : ∀ c ∈ x, c ≠ '\\' ∧ Q c) : Settled Q x := by
  induction x with
  | nil => exact .nil
  | cons c x ih =>
    rw [List.forall_mem_cons] at h
    exact .plain h.1.1 h.1.2 (ih h.2)

/-- A text without backslashes leaves no escape open. -/
theorem of_not_mem (h : '\\' ∉ x) : Settled (fun _ => True) x :=
  of_forall fun _ hc => ⟨fun heq => h (heq ▸ hc), trivial⟩

/-- A last character that is none of them is escaped. -/
theorem escaped_of_not {c : Char} (h : Settled Q (x ++ [c])) (hc : ¬ Q c) :
    ∃ y, x = y ++ ['\\'] := by
  generalize hx : x ++ [c] = whole at h
  induction h generalizing x with
  | nil => exact absurd hx (List.append_ne_nil_of_right_ne_nil _ (List.cons_ne_nil _ _))
  | plain _ hQ _ ih =>
    rcases x with _ | ⟨e, x⟩
    · exact absurd ((List.cons.inj hx).1 ▸ hQ) hc
    · rw [List.cons_append, List.cons.injEq] at hx
      obtain ⟨rfl, hmore⟩ := hx
      obtain ⟨y, rfl⟩ := ih hmore
      exact ⟨e :: y, rfl⟩
  | escaped _ ih =>
    rcases x with _ | ⟨e, _ | ⟨d, x⟩⟩
    · exact absurd (List.cons.inj hx).2.symm (List.cons_ne_nil _ _)
    · exact ⟨[], congrArg (fun d => [d]) (List.cons.inj hx).1⟩
    · simp only [List.cons_append, List.cons.injEq] at hx
      obtain ⟨rfl, rfl, hmore⟩ := hx
      obtain ⟨y, rfl⟩ := ih hmore
      exact ⟨'\\' :: d :: y, rfl⟩

/-- A text without a backslash consists of the characters. -/
theorem forall_mem (h : Settled Q x) (hx : '\\' ∉ x) : ∀ c ∈ x, Q c := by
  induction h with
  | nil => exact List.forall_mem_nil _
  | plain _ hQ _ ih =>
    exact List.forall_mem_cons.2 ⟨hQ, ih fun hmem => hx (List.mem_cons_of_mem _ hmem)⟩
  | escaped => exact absurd List.mem_cons_self hx

end Settled

/-- The pattern takes only such characters and escapes. -/
def Only (Q : Char → Prop) (p : Pattern) : Prop :=
  ∀ n s, ∀ b ∈ p.ends (n, s), ∀ taken, s = taken ++ b.2 → Settled Q taken

namespace Only

variable {Q : Char → Prop} {p q : Pattern}

/-- A test takes only characters that pass it. -/
theorem one {accepts : Char → Bool} (h : ∀ c, accepts c = true → c ≠ '\\' ∧ Q c) :
    Only Q (one accepts) := by
  intro n s b hb taken hs
  rcases s with _ | ⟨d, s⟩
  · exact absurd hb List.not_mem_nil
  · rw [ends] at hb
    split at hb
    · next hd =>
      rw [List.mem_singleton] at hb
      rw [hb] at hs
      have htaken : taken = [d] := (List.append_cancel_right (hs : [d] ++ s = taken ++ s)).symm
      rw [htaken]
      exact .plain (h d hd).1 (h d hd).2 .nil
    · exact absurd hb List.not_mem_nil

/-- Nothing takes no characters. -/
theorem nothing : Only Q nothing := by
  intro n s b hb taken hs
  rw [ends, List.mem_singleton] at hb
  rw [hb] at hs
  have htaken : taken = [] := List.self_eq_append_left.1 hs
  rw [htaken]
  exact .nil

/-- What two steps take, one after the other, holds what each of them takes. -/
theorem append {s : List Char} {a b : Place} {n : Nat} (ha : Splits (n, s) a) (hb : Splits a b)
    (hfirst : ∀ taken, s = taken ++ a.2 → Settled Q taken)
    (hsecond : ∀ taken, a.2 = taken ++ b.2 → Settled Q taken) :
    ∀ taken, s = taken ++ b.2 → Settled Q taken := by
  intro taken hs
  obtain ⟨t, ht, _⟩ := ha
  obtain ⟨u, hu, _⟩ := hb
  simp only at ht
  have hwhole : taken = t ++ u := by
    rw [ht, hu, ← List.append_assoc] at hs
    exact (List.append_cancel_right hs).symm
  rw [hwhole]
  exact (hfirst t ht).append (hsecond u hu)

/-- One pattern after another takes only what both take. -/
theorem seq (hp : Only Q p) (hq : Only Q q) : Only Q (seq p q) := by
  intro n s b hb
  rw [ends, List.mem_flatMap] at hb
  obtain ⟨m, hm, hb⟩ := hb
  exact append (p.splits_of_mem_ends _ m hm) (q.splits_of_mem_ends _ b hb) (hp n s m hm)
    (hq m.1 m.2 b hb)

/-- A choice takes only what both ways take. -/
theorem alt (hp : Only Q p) (hq : Only Q q) : Only Q (alt p q) := by
  intro n s b hb
  rw [ends, List.mem_append] at hb
  rcases hb with hb | hb
  · exact hp n s b hb
  · exact hq n s b hb

/-- A pattern that may be missing takes only what it takes where it is not. -/
theorem opt (hp : Only Q p) : Only Q (opt p) := hp.alt nothing

/-- A repeated pattern takes only what it takes in each round. -/
theorem many (hp : Only Q p) (htakes : p.takesSome = true) : Only Q (many p) := by
  intro n s
  induction hs : s.length using Nat.strongRecOn generalizing n s with
  | ind len ih =>
    subst hs
    intro b hb
    rw [ends_many htakes, List.mem_append, List.mem_flatMap, List.mem_singleton] at hb
    rcases hb with ⟨m, hm, hb⟩ | rfl
    · exact append (p.splits_of_mem_ends _ m hm) ((Pattern.many p).splits_of_mem_ends _ b hb)
        (hp n s m hm) (ih m.2.length (p.length_lt_of_mem_ends htakes hm) m.1 m.2 rfl b hb)
    · exact nothing n s (n, s) (by simp [ends])

/-- A pattern taken at least once takes only what it takes in each round. -/
theorem oneOrMore (hp : Only Q p) (htakes : p.takesSome = true) : Only Q (oneOrMore p) :=
  hp.seq (hp.many htakes)

/-- A pattern repeated up to a number of times takes only what it takes in each round. -/
theorem upTo (hp : Only Q p) : ∀ n, Only Q (upTo n p)
  | 0 => nothing
  | n + 1 => (hp.seq (upTo hp n)).opt

/-- A single character takes only itself. -/
theorem char {c : Char} (hc : c ≠ '\\') (h : Q c) : Only Q (char c) :=
  one fun _ hd => beq_iff_eq.1 hd ▸ ⟨hc, h⟩

/-- Fixed characters take only themselves. -/
theorem chars : ∀ {cs : List Char}, (∀ c ∈ cs, c ≠ '\\' ∧ Q c) → Only Q (chars cs)
  | [], _ => nothing
  | [c], h => char (h c List.mem_cons_self).1 (h c List.mem_cons_self).2
  | c :: _ :: _, h =>
    (char (h c List.mem_cons_self).1 (h c List.mem_cons_self).2).seq
      (chars fun e he => h e (List.mem_cons_of_mem _ he))

/-- A fixed text takes only its characters. -/
theorem literal {text : String} (h : ∀ c ∈ text.toList, c ≠ '\\' ∧ Q c) :
    Only Q (literal text) := chars h

/-- A backslash and what it escapes. -/
theorem escaped {accepts : Char → Bool} :
    Only Q (Pattern.seq (Pattern.char '\\') (Pattern.one accepts)) := by
  intro n s b hb taken hs
  rw [ends, List.mem_flatMap] at hb
  obtain ⟨m, hm, hb⟩ := hb
  rcases s with _ | ⟨d, _ | ⟨e, s⟩⟩
  · exact absurd hm List.not_mem_nil
  all_goals
    rw [Pattern.char, ends, List.mem_ite_nil_right, List.mem_singleton] at hm
    rw [hm.2, ends] at hb
  · exact absurd hb List.not_mem_nil
  · rw [List.mem_ite_nil_right, List.mem_singleton] at hb
    rw [hb.2] at hs
    have htaken : taken = [d, e] :=
      (List.append_cancel_right (hs : [d, e] ++ s = taken ++ s)).symm
    rw [htaken, beq_iff_eq.1 hm.1]
    exact .escaped .nil

/-- If no escape is open at the end of a text, an end of the pattern lies before a character behind
it that the pattern does not take. -/
theorem within (hp : Only Q p) {n : Nat} {x w : List Char} {c : Char} (hc : ¬ Q c)
    (hne : c ≠ '\\') (hx : Settled (fun _ => True) x) :
    ∀ b ∈ p.ends (n, x ++ c :: w), b.1 ≤ n + x.length := by
  intro b hb
  obtain ⟨taken, htaken, hlength⟩ := p.splits_of_mem_ends _ b hb
  simp only at htaken hlength
  by_contra hbeyond
  have hlong : x.length < taken.length := by omega
  have hwithin : x ++ [c] <+: taken := by
    have h₁ : x ++ [c] <+: x ++ c :: w := ⟨w, by simp⟩
    have h₂ : taken <+: x ++ c :: w := ⟨b.2, htaken.symm⟩
    exact List.prefix_of_prefix_length_le h₁ h₂ (by simpa using Nat.succ_le_of_lt hlong)
  obtain ⟨behind, hbehind⟩ := hwithin
  rw [List.append_assoc, List.singleton_append] at hbehind
  have hsettled := hp n _ b hb taken htaken
  rw [← hbehind] at hsettled
  exact hc (hx.of_append hsettled |>.of_cons hne).1

/-- What is taken without a backslash. -/
theorem forall_mem (hp : Only Q p) {n : Nat} {taken s : List Char} (hx : '\\' ∉ taken)
    {b : Place} (hb : b ∈ p.ends (n, taken ++ s)) (hrest : b.2 = s) : ∀ c ∈ taken, Q c :=
  (hp n _ b hb _ (by rw [hrest])).forall_mem hx

end Only

end Cssom.Pattern

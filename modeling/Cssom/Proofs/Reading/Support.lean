import Cssom.Parser.Entry
import Cssom.Proofs.Reading.Placeholders

/-!
# What is supported, and how forgiving a parser is

A condition is read as a whole or not at all, and refusing values is the one thing in which a
stricter parser reads less. So what a strict parser reads, a forgiving one reads too, up to the same
token (`Production.Loosens`); the two conditions differ at most in the properties that their names
are resolved to. A parser that takes declarations as placeholders resolves no name: under it no
declaration counts as supported (`support_hangs_on_names`).
-/

namespace Cssom

open Production

/-! ### Conditions by the declarations they ask for -/

namespace Condition

mutual

/-- Whether the condition holds, when it is said of each declaration whether it is supported. -/
def holdsIf (supported : Property → Bool) : Condition → Bool
  | empty => true
  | declaration property => supported property
  | group inner => inner.holdsIf supported
  | negation inner => !inner.holdsIf supported
  | conjunction parts => allHoldIf supported parts
  | disjunction parts => anyHoldsIf supported parts

/-- Whether all the conditions hold. -/
def allHoldIf (supported : Property → Bool) : List Condition → Bool
  | [] => true
  | part :: rest => part.holdsIf supported && allHoldIf supported rest

/-- Whether some of the conditions holds. -/
def anyHoldsIf (supported : Property → Bool) : List Condition → Bool
  | [] => false
  | part :: rest => part.holdsIf supported || anyHoldsIf supported rest

end

mutual

/-- A condition holds if it does when the declarations of known properties with a value are
supported. -/
theorem holds_eq_holdsIf : (c : Condition) →
    c.holds = c.holdsIf fun property => property.known && property.value.isSome
  | empty => rfl
  | declaration _ => rfl
  | group inner => by rw [holds, holdsIf, holds_eq_holdsIf inner]
  | negation inner => by rw [holds, holdsIf, holds_eq_holdsIf inner]
  | conjunction parts => by rw [holds, holdsIf, allHold_eq_allHoldIf parts]
  | disjunction parts => by rw [holds, holdsIf, anyHolds_eq_anyHoldsIf parts]

/-- All of some conditions hold if they do when the declarations of known properties with a value
are supported. -/
theorem allHold_eq_allHoldIf : (cs : List Condition) →
    allHold cs = allHoldIf (fun property => property.known && property.value.isSome) cs
  | [] => rfl
  | c :: cs => by rw [allHold, allHoldIf, holds_eq_holdsIf c, allHold_eq_allHoldIf cs]

/-- Any of some conditions holds if it does when the declarations of known properties with a value
are supported. -/
theorem anyHolds_eq_anyHoldsIf : (cs : List Condition) →
    anyHolds cs = anyHoldsIf (fun property => property.known && property.value.isSome) cs
  | [] => rfl
  | c :: cs => by rw [anyHolds, anyHoldsIf, holds_eq_holdsIf c, anyHolds_eq_anyHoldsIf cs]

end

variable {f : Property → Property} {supported : Property → Bool}

mutual

/-- To do something to the properties of a condition is to ask whether what it makes of them is
supported. -/
theorem holdsIf_mapProperties : (c : Condition) →
    (c.mapProperties f).holdsIf supported = c.holdsIf fun property => supported (f property)
  | empty => rfl
  | declaration _ => rfl
  | group inner => by rw [mapProperties, holdsIf, holdsIf, holdsIf_mapProperties inner]
  | negation inner => by rw [mapProperties, holdsIf, holdsIf, holdsIf_mapProperties inner]
  | conjunction parts => by rw [mapProperties, holdsIf, holdsIf, allHoldIf_mapAll parts]
  | disjunction parts => by rw [mapProperties, holdsIf, holdsIf, anyHoldsIf_mapAll parts]

/-- To do something to the properties of all of some conditions is to ask whether what it makes of
them is supported. -/
theorem allHoldIf_mapAll : (cs : List Condition) →
    allHoldIf supported (mapAll f cs) = allHoldIf (fun property => supported (f property)) cs
  | [] => rfl
  | c :: cs => by
    rw [mapAll, allHoldIf, allHoldIf, holdsIf_mapProperties c, allHoldIf_mapAll cs]

/-- To do something to the properties of any of some conditions is to ask whether what it makes of
them is supported. -/
theorem anyHoldsIf_mapAll : (cs : List Condition) →
    anyHoldsIf supported (mapAll f cs) = anyHoldsIf (fun property => supported (f property)) cs
  | [] => rfl
  | c :: cs => by
    rw [mapAll, anyHoldsIf, anyHoldsIf, holdsIf_mapProperties c, anyHoldsIf_mapAll cs]

end

/-- Once no property is marked as known, no declaration is supported. -/
theorem holds_unmarked (c : Condition) :
    (c.mapProperties Property.unmarked).holds = c.holdsIf fun _ => false := by
  rw [holds_eq_holdsIf, holdsIf_mapProperties]
  rfl

mutual

/-- What is not written of a property makes no difference to the text of a condition. -/
theorem render_mapProperties (h : ∀ p, (f p).render = p.render) : (c : Condition) →
    (c.mapProperties f).render = c.render
  | empty => rfl
  | declaration property => h property
  | group inner => by rw [mapProperties, render, render, render_mapProperties h inner]
  | negation inner => by rw [mapProperties, render, render, render_mapProperties h inner]
  | conjunction parts => by rw [mapProperties, render, render, renderAll_mapAll h parts]
  | disjunction parts => by rw [mapProperties, render, render, renderAll_mapAll h parts]

/-- Conditions are printed alike if their properties are. -/
theorem renderAll_mapAll (h : ∀ p, (f p).render = p.render) : (cs : List Condition) →
    renderAll (mapAll f cs) = renderAll cs
  | [] => rfl
  | c :: cs => by
    rw [mapAll, renderAll, renderAll, render_mapProperties h c, renderAll_mapAll h cs]

end

end Condition

/-! ### Readings that refuse less -/

namespace Production

variable {α β γ : Type}

/-- Whatever the first production reads, the second reads changed by `f`, and stops where the first
one does. -/
def Loosens (f : α → β) (p : Production (Option α)) (q : Production (Option β)) : Prop :=
  ∀ i a, (p.read i).result = some a →
    (q.read i).result = some (f a) ∧ (q.read i).rest = (p.read i).rest

namespace Loosens

variable {f : α → β} {p p' : Production (Option α)} {q q' : Production (Option β)}

/-- What reads nothing is loosened by anything. -/
theorem none : Loosens f (pure none) q := by
  intro i a h
  cases h

/-- What gives something loosens to what gives it changed. -/
theorem some (a : α) : Loosens f (pure (some a)) (pure (some (f a))) := by
  rintro i _ ⟨rfl⟩
  exact ⟨rfl, rfl⟩

/-- A choice loosens if both ways do. -/
theorem ite {c : Prop} [Decidable c] (h : c → Loosens f p q) (h' : ¬c → Loosens f p' q') :
    Loosens f (if c then p else p') (if c then q else q') := by
  split
  · next hc => exact h hc
  · next hc => exact h' hc

/-- After a part that both read alike. -/
theorem after (first : Production γ) {next : γ → Production (Option α)}
    {next' : γ → Production (Option β)} (h : ∀ c, Loosens f (next c) (next' c)) :
    Loosens f (first >>= next) (first >>= next') := by
  intro i a ha
  rw [result_read_bind] at ha
  rw [result_read_bind, rest_read_bind, rest_read_bind]
  exact h _ _ a ha

/-- After a part that the second loosens. Nothing may come of a part that the first does not
read. -/
theorem bind {δ : Type} {g : γ → δ} {first : Production (Option γ)}
    {first' : Production (Option δ)} {next : Option γ → Production (Option α)}
    {next' : Option δ → Production (Option β)} (hfirst : Loosens g first first')
    (h : ∀ c, Loosens f (next (Option.some c)) (next' (Option.some (g c))))
    (hnone : next Option.none = pure Option.none := by rfl) :
    Loosens f (first >>= next) (first' >>= next') := by
  intro i a ha
  rw [result_read_bind] at ha
  cases hc : (first.read i).result with
  | none =>
    rw [hc, hnone] at ha
    cases ha
  | some c =>
    obtain ⟨hresult, hrest⟩ := hfirst i c hc
    rw [hc] at ha
    rw [result_read_bind, rest_read_bind, rest_read_bind, hresult, hrest, hc]
    exact h c _ a ha

/-- What loosens does so in a frame of the syntax tree. -/
theorem inFrame (h : Loosens f p q) (entity : α → Entity) (entity' : β → Entity) :
    Loosens f (Production.inFrame entity p) (Production.inFrame entity' q) := by
  intro i a ha
  rw [read_inFrame] at ha
  rw [read_inFrame, read_inFrame]
  exact h i a ha

end Loosens

end Production

/-- A context that refuses no value that another one accepts, and under which names stand for the
same properties, changed by `f`. -/
structure Context.Loosens (f : Property → Property) (ctx ctx' : Context) : Prop where
  values : ctx.config.keepInvalidValues = true → ctx'.config.keepInvalidValues = true
  property : ∀ name, Grammar.propertyOf ctx' .standard name =
    f (Grammar.propertyOf ctx .standard name)
  assign : ∀ p value important, f (p.assign value important) = (f p).assign value important

namespace Grammar

open Production.Loosens

variable {f : Property → Property} {ctx ctx' : Context}

/-- A declaration in a condition loosens with its context. -/
theorem declarationCondition_loosens (h : ctx.Loosens f ctx') :
    (declarationCondition ctx).Loosens (Condition.mapProperties f) (declarationCondition ctx') := by
  refine .after take fun name => .after kind fun k => .ite (fun _ => .none) fun _ =>
    .after skip fun _ => .after (value parenthesizedEnd) fun parsed => ?_
  split
  · exact .none
  next value hvalue =>
    have hproperty := h.property name.text
    unfold propertyOf at hproperty
    rw [hproperty, ← h.assign]
    by_cases haccepted : (!parsed.valid && !ctx.config.keepInvalidValues) = true
    · rw [if_pos haccepted]
      exact .none
    · have haccepted' : ¬(!parsed.valid && !ctx'.config.keepInvalidValues) = true := by
        have hvalues := h.values
        revert haccepted hvalues
        cases parsed.valid <;> cases ctx.config.keepInvalidValues <;> simp
      rw [if_neg haccepted, if_neg haccepted']
      exact .some (Condition.declaration _)

/-- A chain loosens if its parts do. -/
theorem chainOf_loosens {p q : Production (Option Condition)}
    (h : p.Loosens (Condition.mapProperties f) q) :
    (chainOf p).Loosens (Condition.mapProperties f) (chainOf q) := by
  have hjoin (connector : Connector) (parts : List Condition) :
      connector.join (Condition.mapAll f parts) = (connector.join parts).mapProperties f := by
    cases connector <;> rfl
  have hchain (connector : Connector) (rounds : Nat) (parts : List Condition) :
      (chainFrom p connector rounds parts).Loosens (Condition.mapProperties f)
        (chainFrom q connector rounds (Condition.mapAll f parts)) := by
    induction rounds generalizing parts with
    | zero =>
      rw [chainFrom, chainFrom, hjoin]
      exact .some _
    | succ rounds ih =>
      rw [chainFrom, chainFrom, hjoin]
      refine .after view fun v => .ite (fun _ => .after skip fun _ => ?_) fun _ => .some _
      refine .bind h fun part => ?_
      have hparts := ih (parts ++ [part])
      rwa [Condition.mapAll_append] at hparts
  refine .inFrame (.bind h fun first => .after view fun v => ?_) _ _
  cases Connector.ofToken? v.token with
  | none => exact .some first
  | some connector => exact hchain connector v.size [first]

/-- The parts of a chain loosen with their context, to any depth. -/
theorem operandWithin_loosens (h : ctx.Loosens f ctx') (depth : Nat) :
    (operandWithin ctx depth).Loosens (Condition.mapProperties f) (operandWithin ctx' depth) := by
  induction depth with
  | zero => exact .none
  | succ depth ih =>
    refine .inFrame (.after view fun v => ?_) _ _
    split
    · refine .after skip fun _ => .bind (chainOf_loosens ih) fun inner => ?_
      exact .after (skipIf .closeParen) fun _ => .some (Condition.group inner)
    · refine .ite (fun _ => ?_) fun _ => declarationCondition_loosens h
      exact .after skip fun _ => .bind ih fun inner => .some (Condition.negation inner)
    · exact .none

/-- A condition loosens with its context. -/
theorem condition_loosens (h : ctx.Loosens f ctx') :
    (condition ctx).Loosens (Condition.mapProperties f) (condition ctx') :=
  .after view fun v => chainOf_loosens (operandWithin_loosens h (v.size + 1))

end Grammar

/-! ### Configurations -/

namespace Context.Loosens

variable {config config' : Config}

/-- Where names are looked up alike, they stand for the same properties. -/
theorem of_same (hnames : config.takesPlaceholders = config'.takesPlaceholders)
    (hvalues : config.keepInvalidValues = true → config'.keepInvalidValues = true) :
    (Context.ofConfig config).Loosens id (.ofConfig config') where
  values := hvalues
  property name := by
    unfold Grammar.propertyOf
    rw [show (Context.ofConfig config').config = config' from rfl, ← hnames]
    rfl
  assign _ _ _ := rfl

/-- Where no name is looked up, a name stands for what it would stand for, without its mark. -/
theorem unmarked (hheld : config'.takesPlaceholders = true)
    (hvalues : config.keepInvalidValues = true → config'.keepInvalidValues = true) :
    (Context.ofConfig config).Loosens Property.unmarked (.ofConfig config') where
  values := hvalues
  property name := by
    have hheld : (Context.ofConfig config').config.takesPlaceholders = true := hheld
    unfold Grammar.propertyOf
    rw [if_pos hheld]
    split
    · rfl
    · cases hknown : (Context.ofConfig config).vocabulary.property? .standard name with
      | none => rfl
      | some property => exact (Likeness.unmarked_of_known hknown).symm
  assign _ _ _ := rfl

end Context.Loosens

/-- What a condition is read as by a stricter parser, a more forgiving one reads it as too, with the
properties that it resolves the names to. -/
theorem Condition.parse_of_stricter {f : Property → Property} {config config' : Config}
    {tokens : List Token} {c : Condition}
    (h : (Context.ofConfig config).Loosens f (.ofConfig config'))
    (hc : (Condition.parse tokens config).1 = some c) :
    (Condition.parse tokens config').1 = some (c.mapProperties f) := by
  unfold Condition.parse at hc ⊢
  rw [run_result] at hc ⊢
  exact (Grammar.condition_loosens h _ c hc).1

/-- Of two configurations one is the stricter: either refuses no value that the other accepts. -/
theorem Config.stricter_or (config config' : Config) :
    (config.keepInvalidValues = true → config'.keepInvalidValues = true) ∨
      (config'.keepInvalidValues = true → config.keepInvalidValues = true) := by
  cases config.keepInvalidValues <;> simp

section

variable {tokens : List Token} {config config' : Config} {c c' : Condition}

/-- Two configurations under which names stand for the same read the same condition, if they both
read one. -/
theorem Condition.eq_of_same_names (hc : (Condition.parse tokens config).1 = some c)
    (hc' : (Condition.parse tokens config').1 = some c')
    (hnames : config.takesPlaceholders = config'.takesPlaceholders) : c = c' := by
  rcases config.stricter_or config' with hvalues | hvalues
  · have h := Condition.parse_of_stricter (.of_same hnames hvalues) hc
    rwa [hc', mapProperties_id, Option.some_inj, eq_comm] at h
  · have h := Condition.parse_of_stricter (.of_same hnames.symm hvalues) hc'
    rwa [hc, mapProperties_id, Option.some_inj] at h

/-- A condition that was read without looking names up is any other reading of the same tokens,
without the marks. -/
theorem Condition.eq_unmarked_of_held (hc : (Condition.parse tokens config).1 = some c)
    (hc' : (Condition.parse tokens config').1 = some c')
    (hheld : config'.takesPlaceholders = true) : c' = c.mapProperties Property.unmarked := by
  cases hnames : config.takesPlaceholders with
  | true =>
    have hsame : c = c' := Condition.eq_of_same_names hc hc' (hnames.trans hheld.symm)
    have h := Condition.parse_of_stricter (.unmarked hheld id) hc'
    rw [hc', Option.some_inj] at h
    rwa [hsame]
  | false =>
    -- who looks names up keeps no values that the grammar refuses
    have hvalues : config.keepInvalidValues = false := (Bool.or_eq_false_iff.1 hnames).2
    have h := Condition.parse_of_stricter (.unmarked hheld fun hkept => ?_) hc
    · rwa [hc', Option.some_inj] at h
    · rw [hvalues] at hkept
      cases hkept

/-- How forgiving a parser is makes a difference to what is supported in one way only: by whether it
looks names up. Whatever the tokens are, and whatever two configurations they are read by: two
conditions that come of them are equal but for the marks of the properties that are known, and have
the same text; if names are looked up by both configurations or by neither, they are equal and hold
in the same cases; and one that comes of not looking names up holds in case the other would if no
declaration were supported. -/
theorem support_hangs_on_names (hc : (Condition.parse tokens config).1 = some c)
    (hc' : (Condition.parse tokens config').1 = some c') :
    c.mapProperties Property.unmarked = c'.mapProperties Property.unmarked ∧
    c.render = c'.render ∧
    (config.takesPlaceholders = config'.takesPlaceholders → c = c' ∧ c.holds = c'.holds) ∧
    (config'.takesPlaceholders = true → c'.holds = c.holdsIf fun _ => false) := by
  have hmarks : c.mapProperties Property.unmarked = c'.mapProperties Property.unmarked := by
    cases hheld : config'.takesPlaceholders with
    | true =>
      rw [← Condition.eq_unmarked_of_held hc hc' hheld]
      exact Condition.eq_unmarked_of_held hc' hc' hheld
    | false =>
      cases hheld' : config.takesPlaceholders with
      | true =>
        rw [← Condition.eq_unmarked_of_held hc' hc hheld']
        exact (Condition.eq_unmarked_of_held hc hc hheld').symm
      | false => rw [Condition.eq_of_same_names hc hc' (hheld'.trans hheld.symm)]
  refine ⟨hmarks, ?_, fun hnames => ?_, fun hheld => ?_⟩
  · have hrender (c : Condition) : (c.mapProperties Property.unmarked).render = c.render :=
      Condition.render_mapProperties (f := Property.unmarked) (fun _ => rfl) c
    rw [← hrender c, hmarks, hrender]
  · have hsame := Condition.eq_of_same_names hc hc' hnames
    exact ⟨hsame, congrArg Condition.holds hsame⟩
  · rw [Condition.eq_unmarked_of_held hc hc' hheld, Condition.holds_unmarked]

end

/-- Names are looked up by the first configuration and not by the second, under which nothing is
supported. -/
theorem support_hangs_on_names_once :
    let token (kind : Token.Kind) (text : String) (start : UInt32) : Token :=
      ⟨kind, text, ⟨⟨start, ""⟩, ⟨start + 1, ""⟩⟩⟩
    let tokens : List Token :=
      [token .openParen "(" 0, token .ident "color" 1, token .colon ":" 2, token .ident "red" 3,
        token .closeParen ")" 4]
    let red (known : Bool) : Condition :=
      .group (.declaration ⟨"color", some ⟨"red"⟩, false, known⟩)
    ((Condition.parse tokens .strict).1 = some (red true) ∧
      (Condition.parse tokens .tolerant).1 = some (red false)) ∧
    (red true).mapProperties Property.unmarked = (red false).mapProperties Property.unmarked ∧
    (red true).render = (red false).render ∧
    (Config.strict.takesPlaceholders = Config.tolerant.takesPlaceholders →
      red true = red false ∧ (red true).holds = (red false).holds) ∧
    (Config.tolerant.takesPlaceholders = true →
      (red false).holds = (red true).holdsIf fun _ => false) := by
  intro token tokens red
  have hstrict : (Condition.parse tokens .strict).1 = some (red true) := by decide
  have htolerant : (Condition.parse tokens .tolerant).1 = some (red false) := by decide
  exact ⟨⟨hstrict, htolerant⟩, support_hangs_on_names hstrict htolerant⟩

/-- Conditions of the same tokens and with the same text need not hold in the same cases: that red
is a color is supported where names are looked up, and not where they are not. -/
theorem support_hangs_on_forgiveness :
    ¬∀ (tokens : List Token) (config config' : Config) (c c' : Condition),
      (Condition.parse tokens config).1 = some c → (Condition.parse tokens config').1 = some c' →
        c.render = c'.render → c.holds = c'.holds := by
  intro h
  let token (kind : Token.Kind) (text : String) (start : UInt32) : Token :=
    ⟨kind, text, ⟨⟨start, ""⟩, ⟨start + 1, ""⟩⟩⟩
  let red (known : Bool) : Condition := .declaration ⟨"color", some ⟨"red"⟩, false, known⟩
  have hsame : (red true).holds = (red false).holds :=
    h [token .ident "color" 0, token .colon ":" 5, token .ident "red" 7] .strict
      { Config.strict with placeholders := true } (red true) (red false) (by decide) (by decide) rfl
  cases hsame

end Cssom

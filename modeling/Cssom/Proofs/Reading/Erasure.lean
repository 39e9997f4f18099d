import Cssom.Rule.Render

/-!
# Rules up to some of their parts

Two readings may agree in all but a mark on each property, or all but the places of the tokens they
kept. `mapParts` does something to every property of a rule, in blocks and in conditions, and to
every token it was kept in; rules agree up to such parts when doing away with these parts makes them
equal. Rules that agree up to the places of their tokens are the same (`Rule.same_of_mapParts`).
-/

namespace Cssom

variable {f : Property → Property} {g : Token → Token}

/-- The token at no place. -/
def Token.unplaced (token : Token) : Token :=
  { token with span := .empty .null }

/-! ### Blocks -/

namespace Block

/-- The block with something done to each property. -/
def mapProperties (f : Property → Property) (block : Block) : Block :=
  ⟨block.properties.map f⟩

/-- To set a property and then do something to all is to do it to all and set what it makes of that
property. -/
theorem map_setIn (hname : ∀ p, (f p).name = p.name) (property : Property)
    (properties : List Property) :
    (setIn property properties).map f = setIn (f property) (properties.map f) := by
  induction properties with
  | nil => rfl
  | cons p rest ih =>
    rw [setIn, List.map_cons, setIn, hname, hname]
    split
    · rfl
    · rw [List.map_cons, ih]

/-- Where a property is put hangs on names alone. -/
theorem mapProperties_set (hname : ∀ p, (f p).name = p.name) (block : Block)
    (property : Property) :
    (block.set property).mapProperties f = (block.mapProperties f).set (f property) :=
  congrArg Block.mk (map_setIn hname property block.properties)

@[simp] theorem mapProperties_id (block : Block) : block.mapProperties id = block :=
  congrArg Block.mk (List.map_id _)

end Block

/-- The moment with something done to each property. -/
def Keyframe.mapProperties (f : Property → Property) (frame : Keyframe) : Keyframe :=
  { frame with declarations := frame.declarations.mapProperties f }

@[simp] theorem Keyframe.mapProperties_id (frame : Keyframe) : frame.mapProperties id = frame := by
  rw [mapProperties, Block.mapProperties_id]

/-! ### Conditions -/

namespace Condition

mutual

/-- The condition with something done to each property. -/
def mapProperties (f : Property → Property) : Condition → Condition
  | empty => empty
  | declaration property => declaration (f property)
  | group inner => group (inner.mapProperties f)
  | negation inner => negation (inner.mapProperties f)
  | conjunction parts => conjunction (mapAll f parts)
  | disjunction parts => disjunction (mapAll f parts)

/-- The conditions with something done to each property. -/
def mapAll (f : Property → Property) : List Condition → List Condition
  | [] => []
  | part :: rest => part.mapProperties f :: mapAll f rest

end

@[simp] theorem mapAll_append (cs ds : List Condition) :
    mapAll f (cs ++ ds) = mapAll f cs ++ mapAll f ds := by
  induction cs with
  | nil => rfl
  | cons c cs ih => rw [List.cons_append, mapAll, mapAll, ih, List.cons_append]

mutual

@[simp] theorem mapProperties_id : (c : Condition) → c.mapProperties id = c
  | empty => rfl
  | declaration _ => rfl
  | group inner => congrArg group (mapProperties_id inner)
  | negation inner => congrArg negation (mapProperties_id inner)
  | conjunction parts => congrArg conjunction (mapAll_id parts)
  | disjunction parts => congrArg disjunction (mapAll_id parts)

/-- To do nothing to any property leaves conditions as they are. -/
theorem mapAll_id : (cs : List Condition) → mapAll id cs = cs
  | [] => rfl
  | c :: cs => by rw [mapAll, mapProperties_id, mapAll_id]

end

end Condition

/-! ### Rules -/

/-- The unknown rule with something done to each token. -/
def UnknownRule.mapTokens (g : Token → Token) (rule : UnknownRule) : UnknownRule where
  name := rule.name
  preamble := rule.preamble.map g
  block := rule.block.map (·.map g)

namespace Rule

mutual

/-- The rule with something done to each property and each token that was kept. -/
def mapParts (f : Property → Property) (g : Token → Token) : Rule → Rule
  | style selectors block => style selectors (block.mapProperties f)
  | media list rules => media list (mapAll f g rules)
  | supports condition rules => supports (condition.mapProperties f) (mapAll f g rules)
  | fontFace block => fontFace (block.mapProperties f)
  | keyframes name frames => keyframes name (frames.map (·.mapProperties f))
  | importRule href list => importRule href list
  | charset encoding => charset encoding
  | namespaceRule label uri => namespaceRule label uri
  | page selector block => page selector (block.mapProperties f)
  | viewport block => viewport (block.mapProperties f)
  | document functions rules => document functions (mapAll f g rules)
  | keyframe frame => keyframe (frame.mapProperties f)
  | unknown rule => unknown (rule.mapTokens g)

/-- The rules with something done to each property and each token that was kept. -/
def mapAll (f : Property → Property) (g : Token → Token) : List Rule → List Rule
  | [] => []
  | rule :: rest => rule.mapParts f g :: mapAll f g rest

end

@[simp] theorem mapAll_append (rs ss : List Rule) :
    mapAll f g (rs ++ ss) = mapAll f g rs ++ mapAll f g ss := by
  induction rs with
  | nil => rfl
  | cons r rs ih => rw [List.cons_append, mapAll, mapAll, ih, List.cons_append]

end Rule

/-- The rule with its tokens at no place. -/
abbrev Rule.unplaced (rule : Rule) : Rule :=
  rule.mapParts id Token.unplaced

/-- The style sheet with something done to each property and each token that was kept. -/
def Stylesheet.mapParts (f : Property → Property) (g : Token → Token) (sheet : Stylesheet) :
    Stylesheet :=
  ⟨Rule.mapAll f g sheet.rules⟩

/-! ### Sameness -/

/-- Tokens that are the same at no place have the same texts. -/
theorem Token.map_text_of_unplaced {as bs : List Token}
    (h : as.map Token.unplaced = bs.map Token.unplaced) :
    as.map Token.text = bs.map Token.text := by
  have htext := congrArg (List.map Token.text) h
  rwa [List.map_map, List.map_map] at htext

/-- Unknown rules that are the same at no place are the same. -/
theorem UnknownRule.same_of_mapTokens {r s : UnknownRule}
    (h : r.mapTokens Token.unplaced = s.mapTokens Token.unplaced) : r.same s = true := by
  rcases r with ⟨name, preamble, block⟩
  rcases s with ⟨name', preamble', block'⟩
  obtain ⟨hname, hpreamble, hblock⟩ := UnknownRule.mk.inj h
  have hname : name = name' := hname
  have hblock' : block.map (·.map Token.text) = block'.map (·.map Token.text) := by
    cases block <;> cases block' <;> first | rfl | cases hblock | skip
    exact congrArg some (Token.map_text_of_unplaced (Option.some.inj hblock))
  simp [same, hname, Token.map_text_of_unplaced hpreamble, hblock']

namespace Rule

mutual

/-- Rules that agree up to the places of their tokens are the same. -/
theorem same_of_mapParts : (r s : Rule) →
    r.mapParts id Token.unplaced = s.mapParts id Token.unplaced → r.same s = true
  | style _ _, s, h => by cases s <;> simp_all [mapParts, same]
  | media _ rules, s, h => by
    cases s <;> simp_all [mapParts, same]
    exact sameAll_of_mapAll rules _ h.2
  | supports _ rules, s, h => by
    cases s <;> simp_all [mapParts, same]
    exact sameAll_of_mapAll rules _ h.2
  | fontFace _, s, h => by cases s <;> simp_all [mapParts, same]
  | keyframes _ _, s, h => by cases s <;> simp_all [mapParts, same]
  | importRule _ _, s, h => by cases s <;> simp_all [mapParts, same]
  | charset _, s, h => by cases s <;> simp_all [mapParts, same]
  | namespaceRule _ _, s, h => by cases s <;> simp_all [mapParts, same]
  | page _ _, s, h => by cases s <;> simp_all [mapParts, same]
  | viewport _, s, h => by cases s <;> simp_all [mapParts, same]
  | document _ rules, s, h => by
    cases s <;> simp_all [mapParts, same]
    exact sameAll_of_mapAll rules _ h.2
  | keyframe _, s, h => by cases s <;> simp_all [mapParts, same]
  | unknown _, s, h => by
    cases s <;> simp_all [mapParts, same]
    exact UnknownRule.same_of_mapTokens h

/-- Lists of rules that agree up to the places of their tokens are the same. -/
theorem sameAll_of_mapAll : (rs ss : List Rule) →
    mapAll id Token.unplaced rs = mapAll id Token.unplaced ss → sameAll rs ss = true
  | [], ss, h => by
    cases ss with
    | nil => rfl
    | cons s ss => cases h
  | r :: rs, ss, h => by
    cases ss with
    | nil => cases h
    | cons s ss =>
      obtain ⟨hfirst, hrest⟩ := List.cons.inj h
      rw [sameAll, same_of_mapParts r s hfirst, sameAll_of_mapAll rs ss hrest, Bool.and_self]

end

end Rule

/-- Style sheets that agree up to the places of their tokens are the same. -/
theorem Stylesheet.same_of_mapParts {s t : Stylesheet}
    (h : s.mapParts id Token.unplaced = t.mapParts id Token.unplaced) : s.same t = true :=
  Rule.sameAll_of_mapAll _ _ (Stylesheet.mk.inj h)

end Cssom

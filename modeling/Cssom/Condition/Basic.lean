import Cssom.Declaration.Basic

/-!
# Conditions

The condition of `@supports` asks for declarations that a reader of style sheets must understand.
Chains of `and` and of `or` are single nodes with any number of parts.
-/

namespace Cssom

/-- A condition on what is supported. -/
inductive Condition where
  /-- No condition at all. -/
  | empty
  /-- The declaration is supported. -/
  | declaration (property : Property)
  /-- A condition in parentheses. -/
  | group (inner : Condition)
  /-- The condition does not hold. -/
  | negation (inner : Condition)
  /-- All parts hold. -/
  | conjunction (parts : List Condition)
  /-- Some part holds. -/
  | disjunction (parts : List Condition)
deriving Inhabited

namespace Condition

/-- Whether there is no condition. -/
def isEmpty : Condition → Bool
  | empty => true
  | _ => false

mutual

/-- Whether the condition holds: a declaration does when its property is known and has a value, and
no condition holds always. -/
def holds : Condition → Bool
  | empty => true
  | declaration property => property.known && property.value.isSome
  | group inner => inner.holds
  | negation inner => !inner.holds
  | conjunction parts => allHold parts
  | disjunction parts => anyHolds parts

/-- Whether all the conditions hold. -/
def allHold : List Condition → Bool
  | [] => true
  | part :: rest => part.holds && allHold rest

/-- Whether some of the conditions holds. -/
def anyHolds : List Condition → Bool
  | [] => false
  | part :: rest => part.holds || anyHolds rest

end

mutual

/-- The condition as text. -/
def render : Condition → String
  | empty => ""
  | declaration property => property.render
  | group inner => "(" ++ inner.render ++ ")"
  | negation inner => "not " ++ inner.render
  | conjunction parts => String.intercalate " and " (renderAll parts)
  | disjunction parts => String.intercalate " or " (renderAll parts)

/-- The texts of the conditions. -/
def renderAll : List Condition → List String
  | [] => []
  | part :: rest => part.render :: renderAll rest

end

mutual

/-- Whether two conditions are the same. -/
def same : Condition → Condition → Bool
  | empty, empty => true
  | declaration p, declaration q => p == q
  | group c, group d => c.same d
  | negation c, negation d => c.same d
  | conjunction cs, conjunction ds => sameAll cs ds
  | disjunction cs, disjunction ds => sameAll cs ds
  | _, _ => false

/-- Whether two lists hold the same conditions. -/
def sameAll : List Condition → List Condition → Bool
  | [], [] => true
  | c :: cs, d :: ds => c.same d && sameAll cs ds
  | _, _ => false

end

mutual

/-- Conditions are the same just if they are equal. -/
theorem same_iff : (c d : Condition) → c.same d = true ↔ c = d
  | empty, d => by cases d <;> simp [same]
  | declaration p, d => by cases d <;> simp [same]
  | group c, d => by cases d <;> simp [same, same_iff c]
  | negation c, d => by cases d <;> simp [same, same_iff c]
  | conjunction cs, d => by cases d <;> simp [same, sameAll_iff cs]
  | disjunction cs, d => by cases d <;> simp [same, sameAll_iff cs]

/-- Lists of conditions are the same just if they are equal. -/
theorem sameAll_iff : (cs ds : List Condition) → sameAll cs ds = true ↔ cs = ds
  | [], ds => by cases ds <;> simp [sameAll]
  | c :: cs, ds => by cases ds <;> simp [sameAll, same_iff c, sameAll_iff cs]

end

instance : DecidableEq Condition := fun c d =>
  if h : c.same d = true then isTrue ((same_iff c d).1 h)
  else isFalse fun e => h ((same_iff c d).2 e)

end Condition

end Cssom

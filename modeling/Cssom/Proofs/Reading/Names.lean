import Cssom.Declaration.Grammar
import Cssom.Proofs.Token.Case

/-!
# What the names of properties stand for

A name is looked up in small letters, with or without its vendor's mark; the name of a custom
property is taken as it stands, and no table has one. So the spelling of a name that is known is the
one a placeholder has (`Vocabulary.spelling_standard`).
-/

namespace Cssom

namespace Vocabulary

variable {table : List String} {name spelled : String}

/-- A name is found in a table in small letters as it is found in others. -/
theorem lookUp_lower (table : List String) (name : String) :
    lookUp table (Text.lower name) = lookUp table name := by
  unfold lookUp
  rw [Text.lower_lower]

/-- The spelling of a name in a table is in small letters. -/
theorem eq_lower_of_lookUp (h : lookUp table name = some spelled) : spelled = Text.lower name := by
  unfold lookUp at h
  simp only at h
  split at h
  · exact (Option.some.inj h).symm
  · exact absurd h (by simp)

/-- Whether a name is that of a custom property does not hang on the case of its letters. -/
theorem isCustom_lower (name : String) :
    Property.isCustom (Text.lower name) = Property.isCustom name := by
  have hhyphen : ∀ c : Char, ('-' == c.toLower) = ('-' == c) :=
    Text.toLower_congr (f := fun c => '-' == c) (by decide)
  unfold Property.isCustom
  rw [Text.toList_lower]
  rcases name.toList with _ | ⟨c, _ | ⟨d, rest⟩⟩
  · rfl
  · simp [List.isPrefixOf]
  · simp [List.isPrefixOf, hhyphen]

/-- The name of a custom property carries no vendor's mark. -/
theorem stripVendor_of_custom (h : Property.isCustom name = true) : stripVendor name = name := by
  unfold Property.isCustom at h
  unfold stripVendor vendorMarks dropPrefix?
  rcases hname : name.toList with _ | ⟨c, _ | ⟨d, rest⟩⟩ <;> rw [hname] at h
  · cases h
  · simp [List.isPrefixOf] at h
  · obtain ⟨rfl, rfl⟩ : '-' = c ∧ '-' = d := by simpa [List.isPrefixOf] using h
    rfl

/-- A table without custom properties has no name of one. -/
theorem lookUp_of_custom (htable : table.all (!Property.isCustom ·) = true)
    (h : Property.isCustom name = true) : lookUp table name = none := by
  have hlowered : Property.isCustom (Text.lower name) = true := (isCustom_lower name).trans h
  have hmissing : table.contains (Text.lower name) = false := by
    rw [List.contains_eq_mem, decide_eq_false_iff_not]
    intro hmem
    have hplain := List.all_eq_true.1 htable _ hmem
    rw [hlowered] at hplain
    cases hplain
  simp only [lookUp, stripVendor_of_custom hlowered, hmissing, Bool.or_self, Bool.false_eq_true,
    if_false]

/-- The spelling of a name in a table that holds no custom property is the one a placeholder has. -/
theorem spelling_lookUp (htable : table.all (!Property.isCustom ·) = true)
    (h : lookUp table name = some spelled) : spelled = (Property.placeholder name).name := by
  have hcustom : Property.isCustom name = false := by
    rw [← Bool.not_eq_true]
    intro hcustom
    rw [lookUp_of_custom htable hcustom] at h
    cases h
  rw [eq_lower_of_lookUp h, Property.placeholder, hcustom]
  rfl

/-- A name that is known is spelled as a placeholder of that name is. -/
theorem spelling_standard (set : BlockKind) (h : standard.property set name = some spelled) :
    spelled = (Property.placeholder name).name := by
  cases set with
  | standard =>
    change standardProperty name = some spelled at h
    unfold standardProperty at h
    split at h
    · next hcustom =>
      rw [Property.placeholder, (Bool.and_eq_true_iff.1 hcustom).1, ← Option.some.inj h]
      rfl
    · exact spelling_lookUp (by decide +kernel) h
  | fontFace => exact spelling_lookUp (by decide) h
  | viewport => exact spelling_lookUp (by decide) h

end Vocabulary

/-- The property that a name stands for. It is a placeholder where the name is not known, or where
no names are looked up. -/
def Grammar.propertyOf (ctx : Context) (set : BlockKind) (name : String) : Property :=
  if ctx.config.takesPlaceholders then .placeholder name
  else (ctx.vocabulary.property? set name).getD (.placeholder name)

end Cssom

import Cssom.Proofs.Printing.Declaration
import Cssom.Proofs.Recovery.Declared
import Mathlib.Data.List.Nodup

/-!
# Blocks as maps

A block of declarations is a map from names to properties that keeps the order in which the names
first came. Declaring a name puts a property in place of the one that stood there, or at the end;
taking a name out leaves the others as they are (`names_set`, `get?_set`, `get?_erase`). So a block
is told by its names and by what it holds under each of them, and a block that is read holds, under
each name, what was declared last (`last_declaration_wins`).
-/

namespace Cssom

open Grammar Production

namespace Block

variable {block : Block} {name : String}

/-- The names of the properties, in order. -/
def names (block : Block) : List String :=
  block.properties.map Property.name

/-- Nothing is held under a name just if it is none of the block's names. -/
theorem get?_eq_none_iff : block.get? name = none ↔ name ∉ block.names := by
  simp [get?, names]

/-! ### Declaring a name -/

/-- A name that is declared anew keeps its place, and any other comes last. -/
theorem names_set (block : Block) (p : Property) : (block.set p).names =
    if p.name ∈ block.names then block.names else block.names ++ [p.name] := by
  unfold names
  split
  · next hmem => exact names_setIn_of_mem hmem
  · next hmem => rw [set, setIn_of_not_mem hmem, List.map_append, List.map_singleton]

/-- Names that differ still do after one of them is declared. -/
theorem nodup_names_set (h : block.names.Nodup) (p : Property) : (block.set p).names.Nodup := by
  have hholds : BlockHolds (fun _ => True) block := ⟨h, fun _ _ => trivial⟩
  have hdeclared : BlockHolds (fun _ => True) (block.set p) := hholds.declare trivial
  exact hdeclared.names

/-- The name that was declared holds the property, and all others hold what they held. -/
theorem get?_set (block : Block) (p : Property) (name : String) :
    (block.set p).get? name = if p.name = name then some p else block.get? name := by
  obtain ⟨properties⟩ := block
  unfold get? set
  dsimp only
  induction properties with
  | nil => by_cases hp : p.name = name <;> simp [setIn, hp]
  | cons q rest ih =>
    rw [setIn]
    by_cases hq : q.name = p.name
    · rw [if_pos hq]
      by_cases hp : p.name = name <;> simp [hq, hp, beq_eq_false_iff_ne.2]
    · rw [if_neg hq, List.find?_cons, List.find?_cons, ih]
      by_cases hname : q.name = name
      · have hp : p.name ≠ name := fun hp => hq (hname.trans hp.symm)
        simp [hname, hp]
      · rw [beq_eq_false_iff_ne.2 hname]

/-- The properties of other names stay as they are. -/
theorem others_set (block : Block) {p : Property} {others : String → Bool}
    (h : others p.name = false) : (block.set p).properties.filter (others ·.name) =
      block.properties.filter (others ·.name) := by
  obtain ⟨properties⟩ := block
  unfold set
  dsimp only
  induction properties with
  | nil => simp [setIn, h]
  | cons q rest ih =>
    rw [setIn]
    split
    · next hq =>
      rw [List.filter_cons_of_neg (by simp [h]), List.filter_cons_of_neg (by simp [hq, h])]
    · rw [List.filter_cons, List.filter_cons, ih]

/-! ### Taking a name out -/

/-- A name that is taken out is gone from the names, once. -/
theorem names_erase (block : Block) (name : String) :
    (block.erase name).names = block.names.erase name := by
  obtain ⟨properties⟩ := block
  unfold names erase
  dsimp only
  induction properties with
  | nil => rfl
  | cons q rest ih =>
    rw [List.eraseP_cons, List.map_cons, List.erase_cons]
    cases q.name == name with
    | true => rfl
    | false => exact congrArg (q.name :: ·) ih

/-- The name that was taken out holds nothing, and all others hold what they held. -/
theorem get?_erase (h : block.names.Nodup) (erased name : String) :
    (block.erase erased).get? name = if erased = name then none else block.get? name := by
  split
  · next hname =>
    rw [get?_eq_none_iff, names_erase, hname]
    exact h.not_mem_erase
  · next hname =>
    obtain ⟨properties⟩ := block
    unfold get? erase
    dsimp only
    clear h
    induction properties with
    | nil => rfl
    | cons q rest ih =>
      rw [List.eraseP_cons, List.find?_cons]
      by_cases hq : q.name = erased
      · rw [beq_iff_eq.2 hq, cond_true, hq, beq_eq_false_iff_ne.2 hname]
      · rw [beq_eq_false_iff_ne.2 hq, cond_false, List.find?_cons, ih]

/-- Taking a name out leaves the properties of other names as they are, and in order. -/
theorem others_erase (block : Block) {others : String → Bool} (h : others name = false) :
    (block.erase name).properties.filter (others ·.name) =
      block.properties.filter (others ·.name) := by
  obtain ⟨properties⟩ := block
  unfold erase
  dsimp only
  induction properties with
  | nil => rfl
  | cons q rest ih =>
    rw [List.eraseP_cons]
    by_cases hq : q.name = name
    · rw [beq_iff_eq.2 hq, cond_true, List.filter_cons_of_neg (by simp [hq, h])]
    · rw [beq_eq_false_iff_ne.2 hq, cond_false, List.filter_cons, List.filter_cons, ih]

/-! ### Changes -/

/-- A change to what is held under a name. -/
inductive Change where
  | set (property : Property)
  | erase (name : String)
deriving DecidableEq

namespace Change

/-- The name whose property is changed. -/
def target : Change → String
  | set property => property.name
  | erase name => name

/-- What is held under the name then. -/
def left : Change → Option Property
  | set property => some property
  | erase _ => none

end Change

/-- The block after a change. -/
def change (block : Block) : Change → Block
  | .set property => block.set property
  | .erase name => block.erase name

/-- Names that differ still do after a change. -/
theorem nodup_names_change (h : block.names.Nodup) (c : Change) :
    (block.change c).names.Nodup := by
  cases c with
  | set p => exact nodup_names_set h p
  | erase name => exact names_erase block name ▸ h.erase name

/-- The name that was changed holds what the change leaves, and all others hold what they held. -/
theorem get?_change (h : block.names.Nodup) (c : Change) (name : String) :
    (block.change c).get? name = if c.target = name then c.left else block.get? name := by
  cases c with
  | set p => exact get?_set block p name
  | erase erased => exact get?_erase h erased name

/-- A change leaves the properties of other names as they are, and in order. -/
theorem others_change (block : Block) {c : Change} {others : String → Bool}
    (h : others c.target = false) : (block.change c).properties.filter (others ·.name) =
      block.properties.filter (others ·.name) := by
  cases c with
  | set p => exact others_set block h
  | erase name => exact others_erase block h

variable {changes : List Change}

/-- Names that differ still do after any changes. -/
theorem nodup_names_changes (h : block.names.Nodup) (changes : List Change) :
    (changes.foldl change block).names.Nodup := by
  induction changes generalizing block with
  | nil => exact h
  | cons c changes ih => exact ih (nodup_names_change h c)

/-- Under each name is what the last change to it left there. -/
theorem get?_changes (h : block.names.Nodup) (changes : List Change) (name : String) :
    (changes.foldl change block).get? name =
      ((changes.findRev? (·.target == name)).map Change.left).getD (block.get? name) := by
  induction changes generalizing block with
  | nil => rfl
  | cons c changes ih =>
    rw [List.foldl_cons, ih (nodup_names_change h c), get?_change h, List.findRev?]
    cases changes.findRev? (·.target == name) with
    | some last => rfl
    | none =>
      by_cases hc : c.target = name <;> simp [hc]

/-- Changes to some names leave the properties of all others as they are, and in order. -/
theorem others_changes (block : Block) {others : String → Bool}
    (h : ∀ c ∈ changes, others c.target = false) :
    (changes.foldl change block).properties.filter (others ·.name) =
      block.properties.filter (others ·.name) := by
  induction changes generalizing block with
  | nil => rfl
  | cons c changes ih =>
    obtain ⟨hc, hchanges⟩ := List.forall_mem_cons.1 h
    rw [List.foldl_cons, ih _ hchanges, others_change block hc]

/-! ### Blocks that are declared -/

/-- A block is told by its names and by what it holds under each. -/
theorem properties_eq (h : block.names.Nodup) :
    block.properties = block.names.filterMap block.get? := by
  obtain ⟨properties⟩ := block
  unfold names at h ⊢
  dsimp only at h ⊢
  induction properties with
  | nil => rfl
  | cons p rest ih =>
    rw [List.map_cons, List.nodup_cons] at h
    have hown : get? ⟨p :: rest⟩ p.name = some p := by simp [get?]
    have hrest : ∀ name ∈ rest.map Property.name, get? ⟨p :: rest⟩ name = get? ⟨rest⟩ name := by
      intro name hname
      have hne : p.name ≠ name := fun hp => h.1 (hp ▸ hname)
      simp [get?, hne]
    rw [List.map_cons, List.filterMap_cons, hown, List.filterMap_congr hrest, ← ih h.2]

/-- The names of the empty block differ. -/
theorem nodup_names_empty : empty.names.Nodup :=
  List.nodup_nil

/-- A name at the end of a list is one of its different names, the last if it is new. -/
theorem eraseDups_concat (names : List String) (name : String) :
    (names ++ [name]).eraseDups =
      if name ∈ names.eraseDups then names.eraseDups else names.eraseDups ++ [name] := by
  rw [List.eraseDups_append]
  by_cases hmem : name ∈ names <;> simp [List.removeAll, hmem, List.eraseDups_cons]

variable (written : List Property)

/-- To declare properties one after the other is to make that many changes. -/
theorem foldl_set_eq (block : Block) :
    written.foldl set block = (written.map Change.set).foldl change block := by
  rw [List.foldl_map]
  rfl

/-- The names come in the order in which they were first declared. -/
theorem names_foldl_set :
    (written.foldl set empty).names = (written.map Property.name).eraseDups := by
  induction written using List.reverseRecOn with
  | nil => rfl
  | append_singleton written p ih =>
    rw [List.foldl_concat, names_set, ih, List.map_append, List.map_singleton, eraseDups_concat]

/-- Under each name is the property that was declared last. -/
theorem get?_foldl_set (name : String) :
    (written.foldl set empty).get? name = written.findRev? (·.name == name) := by
  rw [foldl_set_eq, get?_changes nodup_names_empty, List.findRev?_eq_find?_reverse,
    ← List.map_reverse, List.find?_map, List.findRev?_eq_find?_reverse, Option.map_map]
  change (Option.map some (written.reverse.find? (·.name == name))).getD none = _
  cases written.reverse.find? (·.name == name) <;> rfl

/-- What was declared in turn is, under each name in the order of their first places, the last
property of that name. -/
theorem properties_foldl_set : (written.foldl set empty).properties =
    (written.map Property.name).eraseDups.filterMap fun name =>
      written.findRev? (·.name == name) := by
  have hnodup : (written.foldl set empty).names.Nodup := by
    rw [foldl_set_eq]
    exact nodup_names_changes nodup_names_empty _
  rw [properties_eq hnodup, names_foldl_set]
  exact List.filterMap_congr fun name _ => get?_foldl_set written name

end Block

/-! ### Names of declarations -/

/-- The name is in small letters, unless it is that of a custom property. -/
def Property.Lowered (p : Property) : Prop :=
  Property.isCustom p.name = false → Text.lower p.name = p.name

/-- The name of a placeholder is in small letters, unless it is custom. -/
theorem Property.lowered_placeholder (name : String) : (placeholder name).Lowered := by
  intro hplain
  unfold placeholder at hplain ⊢
  cases hcustom : isCustom name with
  | true => simp [hcustom] at hplain
  | false => exact Text.lower_lower name

/-- A property is named as a placeholder of that name would be. -/
theorem Grammar.name_propertyOf (config : Config) (set : BlockKind) (name : String) :
    (propertyOf (.ofConfig config) set name).name = (Property.placeholder name).name := by
  unfold propertyOf
  split
  · rfl
  · cases hknown : (Context.ofConfig config).vocabulary.property? set name with
    | none => rfl
    | some property =>
      obtain ⟨spelled, hspelled, rfl⟩ := Option.map_eq_some_iff.1 hknown
      exact Vocabulary.spelling_standard set hspelled

/-- The name of a declaration that is read is in small letters, unless it is custom. -/
theorem Grammar.declaration_lowered (config : Config) (set : BlockKind) (i : Input) :
    (declaration (.ofConfig config) set).Yields i fun result _ =>
      ∀ property, result = some property → property.Lowered := by
  refine declaration_declared.mono fun result _ hdeclared property hproperty => ?_
  obtain ⟨v, parsed, _, _, _, rfl⟩ := (hdeclared property hproperty).valued
  intro hplain
  rw [Property.assign, name_propertyOf] at hplain ⊢
  exact Property.lowered_placeholder _ hplain

/-- The names of all declarations that are read are in small letters, unless they are custom. -/
theorem Grammar.declarations_lowered (config : Config) (set : BlockKind) (i : Input) :
    (declarations (.ofConfig config) set .empty).Yields i fun block _ =>
      BlockHolds Property.Lowered block := by
  unfold declarations
  apply Yields.view
  exact declarationsFrom_holds (P := fun _ => True) (fun _ _ => trivial)
    (fun _ => declaration_lowered config set _) _ trivial blockHolds_empty

/-- A block that is read holds each name once, and names in small letters, so that no two of them
differ in case alone, apart from those of custom properties. Its names come in the order in which
they were first declared, each with what was declared last. And whatever changes are made to a
block, each name is held once; under a name is what the last change to it left there; and the
properties of all other names stay as they are, and in their order. -/
theorem last_declaration_wins :
    (∀ (config : Config) (set : BlockKind) (s : Parser),
      let reading := declarations (.ofConfig config) set .empty
      let block := (reading.run s).1
      let declared := reading.declared s.input
      block.names.Nodup ∧
      (∀ p ∈ block.properties, ∀ q ∈ block.properties, Property.isCustom p.name = false →
        Text.lower p.name = Text.lower q.name → p = q) ∧
      block.names = (declared.map Property.name).eraseDups ∧
      block.properties = block.names.filterMap fun name =>
        declared.findRev? (·.name == name)) ∧
    ∀ (block : Block) (changes : List Block.Change), block.names.Nodup →
      let changed := changes.foldl Block.change block
      changed.names.Nodup ∧
      (∀ name, changed.get? name =
        ((changes.findRev? (·.target == name)).map Block.Change.left).getD (block.get? name)) ∧
      ∀ others : String → Bool, (∀ c ∈ changes, others c.target = false) →
        changed.properties.filter (others ·.name) = block.properties.filter (others ·.name) := by
  refine ⟨?_, ?_⟩
  · intro config set s reading block declared
    have hblock : block = declared.foldl Block.set .empty := by
      rw [← result_declarations, ← run_result]
    have hholds : BlockHolds Property.Lowered block := by
      have hread := declarations_lowered config set s.input
      rwa [Production.Yields, ← run_result] at hread
    have hnames := Block.names_foldl_set declared
    have hproperties := Block.properties_foldl_set declared
    rw [← hblock] at hnames hproperties
    refine ⟨hholds.names, ?_, hnames, hnames ▸ hproperties⟩
    intro p hp q hq hplain hcase
    have hplain' : Property.isCustom q.name = false := by
      rw [← Vocabulary.isCustom_lower, ← hcase, Vocabulary.isCustom_lower, hplain]
    have hname : p.name = q.name := by
      rw [← hholds.declarations p hp hplain, ← hholds.declarations q hq hplain', hcase]
    exact List.inj_on_of_nodup_map hholds.names hp hq hname
  · intro block changes hnodup changed
    exact ⟨Block.nodup_names_changes hnodup changes, Block.get?_changes hnodup changes,
      fun others => Block.others_changes block⟩

/-- One name in both cases, a custom property and another one that differs from it in case, and a
declaration without a value between them; and then three changes to the custom one. -/
theorem last_declaration_wins_in_any_case :
    let token (kind : Token.Kind) (text : String) (start : UInt32) : Token :=
      ⟨kind, text, ⟨⟨start, ""⟩, ⟨start + 1, ""⟩⟩⟩
    let s := Parser.ofTokens [token .ident "Wide" 0, token .colon ":" 1, token .number "1" 2,
      token .semicolon ";" 3, token .ident "--a" 4, token .colon ":" 5, token .number "2" 6,
      token .semicolon ";" 7, token .ident "wide" 8, token .colon ":" 9, token .semicolon ";" 10,
      token .ident "--A" 11, token .colon ":" 12, token .number "3" 13, token .semicolon ";" 14,
      token .ident "wIDE" 15, token .colon ":" 16, token .number "4" 17] .tolerant
    let reading := Grammar.declarations (.ofConfig .tolerant) .standard .empty
    let block := (reading.run s).1
    let changes := [.erase "--a", .set (.placeholder "--a"), .erase "--a"]
    let changed := changes.foldl Block.change block
    block.names = ["wide", "--a", "--A"] ∧ block.valueOf? "wide" = some "4" ∧
    block.names.Nodup ∧
    changed.names.Nodup ∧ changed.get? "--a" = none ∧
    changed.properties.filter (·.name != "--a") = block.properties.filter (·.name != "--a") := by
  intro token s reading block changes changed
  have hnames : block.names.Nodup := (last_declaration_wins.1 .tolerant .standard s).1
  obtain ⟨hnodup, hget, hothers⟩ := last_declaration_wins.2 block changes hnames
  have hblock : block.names = ["wide", "--a", "--A"] ∧ block.valueOf? "wide" = some "4" := by
    decide +kernel
  have herased : changes.findRev? (·.target == "--a") = some (.erase "--a") := by decide
  refine ⟨hblock.1, hblock.2, hnames, hnodup, ?_, hothers (· != "--a") (by decide)⟩
  rw [hget, herased]
  rfl

end Cssom

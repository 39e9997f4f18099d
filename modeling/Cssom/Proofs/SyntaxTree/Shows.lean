import Cssom.Proofs.SyntaxTree.Attempts
import Mathlib.Data.List.Forall2

/-!
# The tree and the rules say the same

Reading builds a style sheet and a tree beside it. The frame of a rule *shows* the rule: what the
frames directly inside of it built is what the rule holds, and the frames of rules among them show
the rules inside of it.
-/

namespace Cssom

open SyntaxTree Production

/-! ### What frames hold, and what rules hold -/

namespace Entity

/-- The rule that was built, without what stands inside of it. -/
def rule? : Entity → Option Rule
  | rule r => some r
  | _ => none

/-- The declaration that was built. -/
def declaration? : Entity → Option Property
  | declaration property => some property
  | _ => none

/-- The selector list that was built. -/
def selectors? : Entity → Option SelectorList
  | selector list => some list
  | _ => none

/-- The media list that was built. -/
def mediaList? : Entity → Option MediaList
  | mediaList list => some list
  | _ => none

/-- The condition that was built. -/
def condition? : Entity → Option Condition
  | condition c => some c
  | _ => none

end Entity

namespace SyntaxTree

/-- What the frames that stand directly among some nodes built, in order. -/
def built (nodes : List SyntaxTree) : List Entity :=
  (nodes.filter isFrame).filterMap entity?

@[simp] theorem built_nil : built [] = [] := rfl

@[simp] theorem built_append (a b : List SyntaxTree) : built (a ++ b) = built a ++ built b := by
  simp [built]

end SyntaxTree

namespace Rule

/-- The rules directly inside of a rule. The moments of an animation are rules. -/
def inner : Rule → List Rule
  | media _ rules => rules
  | supports _ rules => rules
  | document _ rules => rules
  | keyframes _ frames => frames.map keyframe
  | _ => []

mutual

/-- The rule, and then every rule inside of it, in the order in which they start. -/
def withInner : Rule → List Rule
  | media list rules => media list rules :: everyRule rules
  | supports condition rules => supports condition rules :: everyRule rules
  | document functions rules => document functions rules :: everyRule rules
  | keyframes name frames => keyframes name frames :: frames.map keyframe
  | rule => [rule]

/-- The rules and every rule inside of them, in the order in which they start. -/
def everyRule : List Rule → List Rule
  | [] => []
  | rule :: rest => rule.withInner ++ everyRule rest

end

/-- The rules among two lists are those among the first and those among the second. -/
theorem everyRule_append (a b : List Rule) : everyRule (a ++ b) = everyRule a ++ everyRule b := by
  induction a with
  | nil => rfl
  | cons rule rest ih => rw [List.cons_append, everyRule, everyRule, ih, List.append_assoc]

/-- The moments of an animation have no rules inside of them. -/
theorem everyRule_moments (frames : List Keyframe) :
    everyRule (frames.map keyframe) = frames.map keyframe := by
  induction frames with
  | nil => rfl
  | cons frame frames ih => exact congrArg (keyframe frame :: ·) ih

/-- A rule stands before every rule inside of it. -/
theorem withInner_eq (r : Rule) : r.withInner = r :: everyRule r.inner := by
  cases r with
  | keyframes name frames => rw [withInner, inner, everyRule_moments]
  | _ => rfl

end Rule

/-! ### Showing -/

/-- What the frames directly inside of a frame built is what a rule holds: the rules inside of it,
its declarations, put in one by one, and its selector list, media list or condition, of which there
is one at most. -/
structure SyntaxTree.Holds (nodes : List SyntaxTree) (r : Rule) : Prop where
  rules : (built nodes).filterMap Entity.rule? = r.inner.map Rule.emptied
  declarations : ∀ block, r.declarations? = some block →
    ((built nodes).filterMap Entity.declaration?).foldl Block.set .empty = block
  selectors : ∀ list block, r = .style list block →
    (built nodes).filterMap Entity.selectors? = [list]
  media : ∀ list, r.media? = some list →
    (built nodes).filterMap Entity.mediaList? = [list] ∨
      (built nodes).filterMap Entity.mediaList? = [] ∧ list = .empty
  condition : ∀ c, r.condition? = some c →
    (built nodes).filterMap Entity.condition? = [c] ∨
      (built nodes).filterMap Entity.condition? = [] ∧ c = .empty

/-- A frame shows a rule: it has the entity of the rule, it holds what the rule holds, and the
frames of rules directly inside of it show, one by one, the rules directly inside of the rule. -/
inductive SyntaxTree.Shows : SyntaxTree → Rule → Prop where
  | intro {nodes : List SyntaxTree} {r : Rule} (holds : Holds nodes r)
      (inner : List.Forall₂ Shows (nodes.filter isRule) r.inner) :
      Shows (frame (some (.ofRule r)) nodes) r

/-! ### What is known of nodes -/

section

variable {R : SyntaxTree → Rule → Prop} {nodes before inside after : List SyntaxTree}

namespace SyntaxTree

/-- Nodes without frames, at least. -/
theorem built_eq_nil (h : allFrames nodes = []) : built nodes = [] := by
  have hnone : nodes.filter isFrame = [] := by
    rw [List.filter_eq_nil_iff]
    intro node hnode hframe
    exact absurd (h ▸ mem_allFrames hnode hframe) List.not_mem_nil
  rw [built, hnone, List.filterMap_nil]

/-- No frame among the nodes, however deep, is one of a rule. -/
def Ruleless (nodes : List SyntaxTree) : Prop :=
  (allFrames nodes).filter isRule = []

/-- Only a frame is one of a rule. -/
theorem isFrame_of_isRule {tree : SyntaxTree} (h : tree.isRule = true) : tree.isFrame = true := by
  cases tree with
  | leaf token => cases h
  | frame entity nodes => rfl

namespace Ruleless

/-- Among nodes without rules no frame is one of a rule. -/
theorem filter_eq_nil (h : Ruleless nodes) : nodes.filter isRule = [] := by
  rw [List.filter_eq_nil_iff]
  intro node hnode hrule
  have hmem := List.mem_filter.2 ⟨mem_allFrames hnode (isFrame_of_isRule hrule), hrule⟩
  exact absurd (h ▸ hmem) List.not_mem_nil

/-- Nodes without rules may be put one behind the other. -/
theorem append (ha : Ruleless before) (hb : Ruleless after) : Ruleless (before ++ after) := by
  rw [Ruleless, allFrames_append, List.filter_append, ha, hb, List.append_nil]

/-- A production that builds no rule adds no frame of one. -/
theorem of_opensOnly {α : Type} {p : Production α} (h : p.OpensOnly Entity.IsNoRule)
    (input : Input) : Ruleless (p.nodes input) := by
  rw [Ruleless, List.filter_eq_nil_iff]
  intro f hf hrule
  have hno := h input f hf
  unfold isRule at hrule
  split at hrule
  · next r hr => exact hno r hr
  · cases hrule

end Ruleless

/-- A production that opens no frame adds none. -/
theorem allFrames_of_frameless {α : Type} {p : Production α} (h : p.Frameless) (input : Input) :
    allFrames (p.nodes input) = [] :=
  List.eq_nil_iff_forall_not_mem.2 fun f hf => h input f hf

@[simp] theorem built_of_frameless {α : Type} {p : Production α} (h : p.Frameless)
    (input : Input) : built (p.nodes input) = [] :=
  built_eq_nil (allFrames_of_frameless h input)

/-- The nodes are what reading some rules adds: the frames of rules show the rules, whatever else
is to be known of frames and rules is true of those at any depth, and nothing else was built. -/
structure Grows (R : SyntaxTree → Rule → Prop) (nodes : List SyntaxTree) (rules : List Rule) :
    Prop where
  built_eq : built nodes = rules.map Entity.ofRule
  direct : List.Forall₂ Shows (nodes.filter isRule) rules
  every : List.Forall₂ R ((allFrames nodes).filter isRule) (Rule.everyRule rules)

namespace Grows

/-- Nodes without frames grow no rules. -/
theorem of_allFrames_eq_nil (h : allFrames nodes = []) : Grows R nodes [] where
  built_eq := built_eq_nil h
  direct := by
    have hnone : Ruleless nodes := by rw [Ruleless, h, List.filter_nil]
    rw [hnone.filter_eq_nil]
    exact .nil
  every := by
    rw [h]
    exact .nil

/-- Nodes that grow rules, one behind the other, grow the rules of both. -/
theorem append {rules rules' : List Rule} (ha : Grows R before rules) (hb : Grows R after rules') :
    Grows R (before ++ after) (rules ++ rules') where
  built_eq := by rw [built_append, ha.built_eq, hb.built_eq, List.map_append]
  direct := by
    rw [List.filter_append]
    exact List.rel_append ha.direct hb.direct
  every := by
    rw [allFrames_append, List.filter_append, Rule.everyRule_append]
    exact List.rel_append ha.every hb.every

/-- Nodes that grow no rules are without rules. -/
theorem ruleless (h : Grows R nodes []) : Ruleless nodes :=
  List.forall₂_nil_right_iff.1 h.every

/-- Nodes without frames make no difference. -/
theorem after_frameless {rules : List Rule} (h : Grows R inside rules)
    (hbefore : allFrames before = []) : Grows R (before ++ inside) rules :=
  (of_allFrames_eq_nil hbefore).append h

/-- Nodes without frames may follow those that grow rules. -/
theorem before_frameless {rules : List Rule} (h : Grows R inside rules)
    (hafter : allFrames after = []) : Grows R (inside ++ after) rules := by
  have hboth := h.append (of_allFrames_eq_nil hafter)
  rwa [List.append_nil] at hboth

end Grows

/-- The nodes of a frame are what reading the body of a rule adds. -/
structure Fills (R : SyntaxTree → Rule → Prop) (nodes : List SyntaxTree) (r : Rule) : Prop where
  holds : Holds nodes r
  direct : List.Forall₂ Shows (nodes.filter isRule) r.inner
  every : List.Forall₂ R ((allFrames nodes).filter isRule) (Rule.everyRule r.inner)

/-- What reading a rule adds to the frame of the rule: of a rule that is dropped no rule inside is
kept either. -/
def FillsOrDrops (R : SyntaxTree → Rule → Prop) (nodes : List SyntaxTree) : Option Rule → Prop
  | some r => Fills R nodes r
  | none => Ruleless nodes

/-- What a rule holds is said of what was built only. -/
theorem Holds.congr {r : Rule} (h : Holds before r) (hbuilt : built before = built after) :
    Holds after r where
  rules := hbuilt ▸ h.rules
  declarations := hbuilt ▸ h.declarations
  selectors := hbuilt ▸ h.selectors
  media := hbuilt ▸ h.media
  condition := hbuilt ▸ h.condition

/-- A frame whose nodes fill a rule shows it. -/
theorem Fills.shows {r : Rule} (h : Fills R nodes r) : Shows (frame (some (.ofRule r)) nodes) r :=
  .intro h.holds h.direct

/-- A rule without rules inside. -/
theorem Fills.of_ruleless {r : Rule} (h : Ruleless nodes) (hinner : r.inner = [])
    (hholds : Holds nodes r) : Fills R nodes r := by
  refine ⟨hholds, ?_, ?_⟩
  · rw [h.filter_eq_nil, hinner]
    exact .nil
  · rw [show (allFrames nodes).filter isRule = [] from h, hinner]
    exact .nil

/-- Among nodes without rules no rule was built. -/
theorem Ruleless.rules_eq_nil (h : Ruleless nodes) :
    (built nodes).filterMap Entity.rule? = [] := by
  rw [built, List.filterMap_filterMap, List.filterMap_eq_nil_iff]
  intro node hnode
  have hrule : node.isRule = false := by
    rw [← Bool.not_eq_true]
    intro hrule
    have hmem : node ∈ nodes.filter isRule :=
      List.mem_filter.2 ⟨List.mem_of_mem_filter hnode, hrule⟩
    exact absurd (h.filter_eq_nil ▸ hmem) List.not_mem_nil
  cases hentity : node.entity? with
  | none => rfl
  | some e =>
    rw [isRule, hentity] at hrule
    cases e <;> first | rfl | cases hrule

/-- A rule with rules inside: what else it holds was built before them. -/
theorem Fills.of_grows {r : Rule} (hbefore : Ruleless before) (h : Grows R inside r.inner)
    (hdeclarations : r.declarations? = none)
    (hmedia : ∀ list, r.media? = some list →
      built before = [.mediaList list] ∨ built before = [] ∧ list = .empty)
    (hcondition : ∀ c, r.condition? = some c →
      built before = [.condition c] ∨ built before = [] ∧ c = .empty) :
    Fills R (before ++ inside) r := by
  have hinside {α : Type} {f : Entity → Option α} (hf : ∀ r, f (.rule r) = none) :
      (built inside).filterMap f = [] := by
    rw [h.built_eq, List.filterMap_map, List.filterMap_eq_nil_iff]
    exact fun r _ => hf r.emptied
  have hrules : (built inside).filterMap Entity.rule? = r.inner.map Rule.emptied := by
    rw [h.built_eq, List.filterMap_map]
    exact congrFun List.filterMap_eq_map' _
  refine ⟨⟨?_, ?_, ?_, ?_, ?_⟩, ?_, ?_⟩
  · rw [built_append, List.filterMap_append, hbefore.rules_eq_nil, hrules, List.nil_append]
  · exact fun block hblock => absurd (hdeclarations.symm.trans hblock) nofun
  · rintro list block rfl
    cases hdeclarations
  · intro list hlist
    rw [built_append, List.filterMap_append, hinside fun _ => rfl, List.append_nil]
    rcases hmedia list hlist with hbuilt | ⟨hbuilt, hempty⟩
    · exact Or.inl (by rw [hbuilt]; rfl)
    · exact Or.inr ⟨by rw [hbuilt]; rfl, hempty⟩
  · intro c hc
    rw [built_append, List.filterMap_append, hinside fun _ => rfl, List.append_nil]
    rcases hcondition c hc with hbuilt | ⟨hbuilt, hempty⟩
    · exact Or.inl (by rw [hbuilt]; rfl)
    · exact Or.inr ⟨by rw [hbuilt]; rfl, hempty⟩
  · rw [List.filter_append, hbefore.filter_eq_nil, List.nil_append]
    exact h.direct
  · rw [allFrames_append, List.filter_append,
      show (allFrames before).filter isRule = [] from hbefore, List.nil_append]
    exact h.every

/-- Tokens without frames before the body of a rule make no difference to what it holds. -/
theorem FillsOrDrops.prepend {result : Option Rule} (hbefore : allFrames before = [])
    (h : FillsOrDrops R nodes result) : FillsOrDrops R (before ++ nodes) result := by
  have hnone : Ruleless before := by rw [Ruleless, hbefore, List.filter_nil]
  cases result with
  | none => exact hnone.append h
  | some r =>
    have hfills : Fills R nodes r := h
    have hbuilt : built (before ++ nodes) = built nodes := by
      rw [built_append, built_eq_nil hbefore, List.nil_append]
    refine ⟨hfills.holds.congr hbuilt.symm, ?_, ?_⟩
    · rw [List.filter_append, hnone.filter_eq_nil, List.nil_append]
      exact hfills.direct
    · rw [allFrames_append, hbefore, List.nil_append]
      exact hfills.every

/-- The frame of a rule adds the rule, or nothing if the rule was dropped. -/
theorem Grows.of_fills {result : Option Rule} (h : FillsOrDrops R nodes result)
    (hR : ∀ r, result = some r → Shows (frame (some (.ofRule r)) nodes) r →
      R (frame (some (.ofRule r)) nodes) r) :
    Grows R [frame (result.map Entity.ofRule) nodes] result.toList := by
  cases result with
  | none =>
    refine ⟨rfl, .nil, ?_⟩
    rw [allFrames, frames, allFrames, List.append_nil, List.filter_cons]
    have hnone : (allFrames nodes).filter isRule = [] := h
    rw [hnone]
    exact .nil
  | some r =>
    have hfills : Fills R nodes r := h
    refine ⟨rfl, .cons hfills.shows .nil, ?_⟩
    rw [allFrames, frames, allFrames, List.append_nil, List.filter_cons]
    rw [Option.toList, Rule.everyRule, Rule.everyRule, List.append_nil, Rule.withInner_eq]
    exact .cons (hR r rfl hfills.shows) hfills.every

end SyntaxTree

end

end Cssom

/-
The nodes of a tree.

Statements, blocks, tables, entries, commands, parameters and expressions are the nodes
of a tree, each with its children in source order.  All have an extent but entries, which
reach from their key to the end of their value.  `Occurs` says that a node stands in the
tree of a script, however deep.
-/
import DesiredState.Proofs.Script.Derivation

namespace DesiredState

/-- A node of a tree. -/
inductive Node where
  | statement (s : Statement)
  | block (b : Block)
  | table (t : Table)
  | entry (e : Entry)
  | command (c : Command)
  | parameter (extent : Extent) (name : Text)
  | expression (e : Expression)

/-- The node that a value is. -/
def Term.asNode : Term → Node
  | .expression e => .expression e
  | .command c => .command c
  | .block b => .block b

/-- The node that an argument is. -/
def Argument.asNode : Argument → Node
  | .parameter extent name => .parameter extent name
  | .value e => .expression e

namespace Node

def isBlock : Node → Bool
  | .block _ => true
  | _ => false

/-- The children of a node, in order. -/
def children : Node → List Node
  | .statement (.configuration _ _ body) => body.map .statement
  | .statement (.node _ target body) => .expression target :: body.map .statement
  | .statement (.param _) => []
  | .statement (.assignment _ target value) => [.expression target, .statement value]
  | .statement (.block b) => [.block b]
  | .statement (.pipeline _ elements) => elements.map Term.asNode
  | .block b => b.instanceName.toList.map .expression ++ [.table b.body]
  | .table t => t.entries.map .entry
  | .entry e => [.statement e.value]
  | .command c => c.arguments.map Argument.asNode
  | .parameter .. => []
  | .expression (.member _ target _) => [.expression (.variable target)]
  | .expression (.array _ _ elements) => elements.map Term.asNode
  | .expression (.table t) => [.table t]
  | .expression (.string ..) | .expression (.number ..) | .expression (.variable _)
  | .expression (.scriptBlock _) | .expression (.unrecognized _) => []

/-- The extent of a node, which an entry lacks. -/
def extent? : Node → Option Extent
  | .statement s => some s.extent
  | .block b => some b.extent
  | .table t => some t.extent
  | .entry _ => none
  | .command c => some c.extent
  | .parameter extent _ => some extent
  | .expression e => some e.extent

/-- Whether a node is a pipeline. -/
def isPipeline : Node → Bool
  | .statement (.pipeline ..) => true
  | _ => false

/-- A node stands somewhere within another one, or is that node. -/
inductive Holds (root : Node) : Node → Prop
  | self : Holds root root
  | child {parent n : Node} (hparent : Holds root parent) (hn : n ∈ parent.children) :
    Holds root n

namespace Holds

variable {root n : Node}

theorem of_child {child : Node} (hchild : child ∈ root.children) (h : child.Holds n) :
    root.Holds n := by
  induction h with
  | self => exact .child .self hchild
  | child _ hn ih => exact .child ih hn

theorem eq_or_child (h : root.Holds n) : n = root ∨ ∃ child ∈ root.children, child.Holds n := by
  induction h with
  | self => exact .inl rfl
  | child _ hn ih =>
    rcases ih with rfl | ⟨child, hchild, hholds⟩
    · exact .inr ⟨_, hn, .self⟩
    · exact .inr ⟨child, hchild, .child hholds hn⟩

end Holds

/-- A node stands somewhere in statements. -/
def Occurs (statements : List Statement) (n : Node) : Prop :=
  ∃ s ∈ statements, (Node.statement s).Holds n

theorem Occurs.child {statements : List Statement} {n child : Node} (h : Occurs statements n)
    (hchild : child ∈ n.children) : Occurs statements child := by
  obtain ⟨s, hs, hn⟩ := h
  exact ⟨s, hs, .child hn hchild⟩

/-- The value of a key in the body of a block. -/
theorem Occurs.value {statements : List Statement} {b : Block} {entry : Entry}
    (h : Occurs statements (.block b)) (hentry : entry ∈ b.body.entries) :
    Occurs statements (.statement entry.value) := by
  have htable : Occurs statements (.table b.body) :=
    h.child (List.mem_append_right _ List.mem_cons_self)
  have hthere : Occurs statements (.entry entry) := htable.child (List.mem_map_of_mem hentry)
  exact hthere.child List.mem_cons_self

/-- A node has a property, and so have all that stand within it. -/
inductive Throughout (P : Node → Prop) : Node → Prop
  | intro {n : Node} (here : P n) (within : ∀ child ∈ n.children, Throughout P child) :
    Throughout P n

namespace Throughout

variable {P : Node → Prop} {n : Node}

theorem here (h : n.Throughout P) : P n := by
  cases h
  assumption

theorem within (h : n.Throughout P) {child : Node} (hchild : child ∈ n.children) :
    child.Throughout P := by
  cases h with
  | intro _ within => exact within child hchild

theorem leaf (hchildren : n.children = []) (h : P n) : n.Throughout P :=
  .intro h fun child hchild => by
    rw [hchildren] at hchild
    exact absurd hchild List.not_mem_nil

theorem imp {Q : Node → Prop} (h : n.Throughout P) (hPQ : ∀ m, P m → Q m) :
    n.Throughout Q := by
  induction h with
  | intro here _ ih => exact .intro (hPQ _ here) ih

theorem of_holds (h : n.Throughout P) {m : Node} (hm : n.Holds m) : m.Throughout P := by
  induction hm with
  | self => exact h
  | child _ hn ih => exact ih.within hn

end Throughout

@[simp] theorem extent?_asNode (t : Term) : t.asNode.extent? = some t.extent := by
  cases t <;> rfl

@[simp] theorem extent?_argument (a : Argument) : a.asNode.extent? = some a.extent := by
  cases a <;> rfl

end Node

/-- The name of a block is its only argument. -/
theorem Grammar.blockName?_nodes {arguments : List Argument} {name : Option Expression}
    (h : blockName? arguments = some name) :
    arguments.map Argument.asNode = name.toList.map .expression := by
  unfold blockName? at h
  split at h <;> cases h <;> rfl

/-- The node that a phrase is read as. -/
def Phrase.node : Phrase → Node
  | .expression read => .expression read.node
  | .argument read => read.node.asNode
  | .term read => read.node.asNode
  | .entry read => .entry read.node
  | .value read => .statement read.node
  | .item read => .statement read.statement

end DesiredState

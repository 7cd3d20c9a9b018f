/-
Trees up to what is said of their places.

Two texts can be read to trees of the same shape whose nodes stand at different places
or keep different stretches of text.  A relabelling says what is made of the extents,
the places and the head words of a tree, and leaves the rest as it is; two trees are the
same up to such things if some relabelling of the one is some relabelling of the other.

What the rules of the grammar build of the nodes they have read is built in the same way
of relabelled nodes.  The one exception is a comma list among the arguments of a command,
whose text is cut out of the source by places.
-/
import DesiredState.Script.Grammar

namespace DesiredState

/-- What is made of the labels of a tree. -/
structure Relabelling where
  extent : Extent → Extent
  /-- What is made of the extents of numbers, whose text can count. -/
  number : Extent → Extent := extent
  location : Location → Location
  /-- What is made of the offsets of marks. -/
  offset : Nat → Nat
  /-- What is made of the words at the heads of commands and blocks. -/
  head : Text → Text

namespace Relabelling

/-- Leaves everything as it is. -/
def same : Relabelling := ⟨id, id, id, id, id⟩

end Relabelling

/-! ### Trees

A relabelling says what to make of extents, of places and offsets, and of the words at
the heads of blocks.  It is taken down to every node, and the shape of the tree is left
as it is.
-/

variable (m : Relabelling)

/-- A variable with another extent. -/
def Variable.relabel (v : Variable) : Variable := { v with extent := m.extent v.extent }

mutual

def Block.relabel : Block → Block
  | ⟨extent, keyword, place, none, body⟩ =>
    ⟨m.extent extent, m.head keyword, m.location place, none, body.relabel⟩
  | ⟨extent, keyword, place, some name, body⟩ =>
    ⟨m.extent extent, m.head keyword, m.location place, some name.relabel, body.relabel⟩
termination_by structural b => b

def Table.relabel : Table → Table
  | ⟨extent, entries⟩ => ⟨m.extent extent, Entry.relabels entries⟩
termination_by structural t => t

def Entry.relabel : Entry → Entry
  | ⟨key, place, value⟩ => ⟨key, m.location place, value.relabel⟩
termination_by structural e => e

def Entry.relabels : List Entry → List Entry
  | [] => []
  | e :: rest => e.relabel :: Entry.relabels rest
termination_by structural list => list

def Command.relabel : Command → Command
  | ⟨extent, name, arguments⟩ =>
    ⟨m.extent extent, m.head name, Argument.relabels arguments⟩
termination_by structural c => c

def Argument.relabel : Argument → Argument
  | .parameter extent name => .parameter (m.extent extent) name
  | .value e => .value e.relabel
termination_by structural a => a

def Argument.relabels : List Argument → List Argument
  | [] => []
  | a :: rest => a.relabel :: Argument.relabels rest
termination_by structural list => list

def Term.relabel : Term → Term
  | .expression e => .expression e.relabel
  | .command c => .command c.relabel
  | .block b => .block b.relabel
termination_by structural t => t

def Term.relabels : List Term → List Term
  | [] => []
  | t :: rest => t.relabel :: Term.relabels rest
termination_by structural list => list

def Expression.relabel : Expression → Expression
  | .string extent value quote => .string (m.extent extent) value quote
  | .number extent value => .number (m.number extent) value
  | .variable v => .variable (v.relabel m)
  | .member extent target members => .member (m.extent extent) (target.relabel m) members
  | .array extent bracketed elements =>
    .array (m.extent extent) bracketed (Term.relabels elements)
  | .table t => .table t.relabel
  | .scriptBlock extent => .scriptBlock (m.extent extent)
  | .unrecognized extent => .unrecognized (m.extent extent)
termination_by structural e => e

def Statement.relabel : Statement → Statement
  | .configuration extent name body =>
    .configuration (m.extent extent) name (Statement.relabels body)
  | .node extent target body =>
    .node (m.extent extent) target.relabel (Statement.relabels body)
  | .param extent => .param (m.extent extent)
  | .assignment extent target value =>
    .assignment (m.extent extent) target.relabel value.relabel
  | .block b => .block b.relabel
  | .pipeline extent elements => .pipeline (m.extent extent) (Term.relabels elements)
termination_by structural s => s

def Statement.relabels : List Statement → List Statement
  | [] => []
  | s :: rest => s.relabel :: Statement.relabels rest
termination_by structural list => list

end

/-! ### Lists of nodes -/

@[simp] theorem Entry.relabels_eq (list : List Entry) :
    Entry.relabels m list = list.map (Entry.relabel m) := by
  induction list with
  | nil => rfl
  | cons e rest ih => rw [Entry.relabels, ih, List.map_cons]

@[simp] theorem Argument.relabels_eq (list : List Argument) :
    Argument.relabels m list = list.map (Argument.relabel m) := by
  induction list with
  | nil => rfl
  | cons a rest ih => rw [Argument.relabels, ih, List.map_cons]

@[simp] theorem Term.relabels_eq (list : List Term) :
    Term.relabels m list = list.map (Term.relabel m) := by
  induction list with
  | nil => rfl
  | cons t rest ih => rw [Term.relabels, ih, List.map_cons]

@[simp] theorem Statement.relabels_eq (list : List Statement) :
    Statement.relabels m list = list.map (Statement.relabel m) := by
  induction list with
  | nil => rfl
  | cons s rest ih => rw [Statement.relabels, ih, List.map_cons]

theorem Block.relabel_eq (b : Block) :
    b.relabel m = ⟨m.extent b.extent, m.head b.keyword, m.location b.keywordLocation,
      b.instanceName.map (Expression.relabel m), b.body.relabel m⟩ := by
  obtain ⟨extent, keyword, place, name, body⟩ := b
  cases name <;> rfl

/-! ### Extents -/

@[simp] theorem Statement.extent_relabel (s : Statement) :
    (s.relabel m).extent = m.extent s.extent := by
  cases s with
  | block b => exact congrArg Block.extent (b.relabel_eq m)
  | _ => rfl

/-! ### Leaving everything as it is -/

mutual

theorem Block.relabel_same : ∀ b : Block, b.relabel .same = b
  | ⟨extent, keyword, place, none, body⟩ => by
    rw [Block.relabel, Table.relabel_same body]; rfl
  | ⟨extent, keyword, place, some name, body⟩ => by
    rw [Block.relabel, Expression.relabel_same name, Table.relabel_same body]; rfl

theorem Table.relabel_same : ∀ t : Table, t.relabel .same = t
  | ⟨extent, entries⟩ => by rw [Table.relabel, Entry.relabels_same entries]; rfl

theorem Entry.relabel_same : ∀ e : Entry, e.relabel .same = e
  | ⟨key, place, value⟩ => by rw [Entry.relabel, Statement.relabel_same value]; rfl

theorem Entry.relabels_same : ∀ list : List Entry, Entry.relabels .same list = list
  | [] => rfl
  | e :: rest => by rw [Entry.relabels, Entry.relabel_same e, Entry.relabels_same rest]

theorem Command.relabel_same : ∀ c : Command, c.relabel .same = c
  | ⟨extent, name, arguments⟩ => by
    rw [Command.relabel, Argument.relabels_same arguments]; rfl

theorem Argument.relabel_same : ∀ a : Argument, a.relabel .same = a
  | .parameter extent name => rfl
  | .value e => by rw [Argument.relabel, Expression.relabel_same e]

theorem Argument.relabels_same : ∀ list : List Argument, Argument.relabels .same list = list
  | [] => rfl
  | a :: rest => by
    rw [Argument.relabels, Argument.relabel_same a, Argument.relabels_same rest]

theorem Term.relabel_same : ∀ t : Term, t.relabel .same = t
  | .expression e => by rw [Term.relabel, Expression.relabel_same e]
  | .command c => by rw [Term.relabel, Command.relabel_same c]
  | .block b => by rw [Term.relabel, Block.relabel_same b]

theorem Term.relabels_same : ∀ list : List Term, Term.relabels .same list = list
  | [] => rfl
  | t :: rest => by rw [Term.relabels, Term.relabel_same t, Term.relabels_same rest]

theorem Expression.relabel_same : ∀ e : Expression, e.relabel .same = e
  | .string .. | .number .. | .variable _ | .member .. | .scriptBlock _ | .unrecognized _ => rfl
  | .array extent bracketed elements => by
    rw [Expression.relabel, Term.relabels_same elements]; rfl
  | .table t => by rw [Expression.relabel, Table.relabel_same t]

theorem Statement.relabel_same : ∀ s : Statement, s.relabel .same = s
  | .configuration extent name body => by
    rw [Statement.relabel, Statement.relabels_same body]; rfl
  | .node extent target body => by
    rw [Statement.relabel, Expression.relabel_same target, Statement.relabels_same body]; rfl
  | .param _ => rfl
  | .assignment extent target value => by
    rw [Statement.relabel, Expression.relabel_same target, Statement.relabel_same value]; rfl
  | .block b => by rw [Statement.relabel, Block.relabel_same b]
  | .pipeline extent elements => by
    rw [Statement.relabel, Term.relabels_same elements]; rfl

theorem Statement.relabels_same : ∀ list : List Statement, Statement.relabels .same list = list
  | [] => rfl
  | s :: rest => by rw [Statement.relabels, Statement.relabel_same s, Statement.relabels_same rest]

end

/-! ### Tokens, marks and what rules return

Rules do not only return nodes: there are marks and items on the way.  Each gets the
relabelling that fits what it says of places.
-/

/-- A token at another place. -/
def Token.relabel (t : Token) : Token :=
  { t with start := ⟨m.location t.location, m.offset t.start.offset⟩ }

/-- A token at another place and with another text. -/
def Token.relabelHead (t : Token) : Token := { t.relabel m with text := m.head t.text }

/-- A mark at another offset. -/
def Mark.relabel (mark : Mark) : Mark := { mark with offset := m.offset mark.offset }

/-- A node and its marks. -/
def Marked.relabel (node : α → α) (x : Marked α) : Marked α :=
  ⟨node x.node, x.marks.map (Mark.relabel m)⟩

/-- A statement as it stands in a block. -/
def Item.relabel (item : Item) : Item where
  statement := item.statement.relabel m
  keyed? := item.keyed?.map fun (key, value) => (key.relabel m, value.relabel m)
  marks := item.marks.map (Mark.relabel m)

namespace Grammar

theorem contributed_relabel (s : Statement) :
    contributed (s.relabel m) = (contributed s).map (Term.relabel m) := by
  cases s with
  | pipeline extent elements =>
    match elements with
    | [] => rfl
    | [.expression (.array e false inner)] =>
      simp only [Statement.relabel, Term.relabels, Term.relabel, Expression.relabel, contributed,
        Term.relabels_eq]
    | [.expression (.array e true inner)] => rfl
    | [.expression (.string ..)] | [.expression (.number ..)] | [.expression (.variable _)]
    | [.expression (.member ..)] | [.expression (.table _)] | [.expression (.scriptBlock _)]
    | [.expression (.unrecognized _)] | [.command _] | [.block _] => rfl
    | _ :: _ :: _ =>
      simp [contributed, Statement.relabel, Term.relabel, Expression.relabel, Statement.extent]
  | _ => rfl

theorem accessed_relabel (base : Expression) (followed : List Access) (extent : Extent) :
    accessed (base.relabel m) followed (m.extent extent) =
      (accessed base followed extent).relabel m := by
  cases followed with
  | nil => cases base <;> rfl
  | cons first rest =>
    unfold accessed
    cases membersOf? (first :: rest) <;> cases base <;> rfl

/-- The elements of the list that two values around a comma make. -/
def joined : Expression → Expression → List Term
  | .array _ false elements, second => elements ++ [.expression second]
  | first, second => [.expression first, .expression second]

theorem joined_relabel (first second : Expression) :
    joined (first.relabel m) (second.relabel m) =
      (joined first second).map (Term.relabel m) := by
  cases first with
  | array extent bracketed elements =>
    cases bracketed <;> simp [joined, Expression.relabel, Term.relabel]
  | _ => rfl

/-- The extent of two values around a comma, found by the places of the two. -/
def joinedExtent (source : Text) (first second : Extent) : Extent :=
  ⟨source.slice (first.location.offsetIn source)
    (second.location.offsetIn source + second.text.size), first.location⟩

theorem joinValues_eq (source : Text) (first second : Expression) :
    joinValues source first second =
      .array (joinedExtent source first.extent second.extent) false (joined first second) := by
  cases first with
  | array extent bracketed elements => cases bracketed <;> rfl
  | _ => rfl

theorem blockName?_relabel (arguments : List Argument) :
    blockName? (arguments.map (Argument.relabel m)) =
      (blockName? arguments).map (Option.map (Expression.relabel m)) := by
  match arguments with
  | [] | [.value _] | [.parameter ..] => rfl
  | .value _ :: _ :: _ | .parameter .. :: _ :: _ => rfl

theorem entriesOf_relabel (read : List Item) :
    entriesOf (read.map (Item.relabel m)) =
      ((entriesOf read).1.map (List.map (Entry.relabel m)),
        (entriesOf read).2.map (Mark.relabel m)) := by
  have hkeyed : (read.map (Item.relabel m)).mapM Item.keyed? =
      (read.mapM Item.keyed?).map
        (List.map fun (key, value) => (Token.relabel m key, Statement.relabel m value)) := by
    induction read with
    | nil => rfl
    | cons item rest ih =>
      rw [List.map_cons, List.mapM_cons, List.mapM_cons, ih]
      unfold Item.relabel
      cases item.keyed? with
      | none => rfl
      | some pair => cases rest.mapM Item.keyed? <;> rfl
  have hmarks (list : List Item) : (list.map (Item.relabel m)).flatMap (·.marks) =
      (list.flatMap (·.marks)).map (Mark.relabel m) := by
    rw [List.flatMap_map, List.map_flatMap]
    rfl
  have htake : (read.map (Item.relabel m)).takeWhile (·.keyed?.isSome) =
      (read.takeWhile (·.keyed?.isSome)).map (Item.relabel m) := by
    rw [List.takeWhile_map]
    refine congrArg _ (congrArg (fun p => List.takeWhile p read) (funext fun item => ?_))
    exact Option.isSome_map
  unfold entriesOf
  rw [hkeyed, htake, hmarks, hmarks]
  cases read.mapM Item.keyed? with
  | none => rfl
  | some keyedItems =>
    simp only [Option.map_some, List.map_append, List.map_map]
    rfl

/-- What a command or a block is built of, relabelled. -/
theorem commandOrBlock_relabel (head : Token) (arguments : Marked (List Argument))
    (read : Option (List Item × Extent)) (piped : Marked (List Term)) (extent : Extent) :
    (commandOrBlock head arguments read piped extent).relabel m =
      commandOrBlock (head.relabelHead m) (arguments.relabel m (List.map (Argument.relabel m)))
        (read.map fun (inner, bodyExtent) => (inner.map (Item.relabel m), m.extent bodyExtent))
        (piped.relabel m (List.map (Term.relabel m))) (m.extent extent) := by
  have hentries (inner : List Item) := entriesOf_relabel m inner
  have hname := blockName?_relabel m arguments.node
  unfold commandOrBlock
  obtain ⟨piped, pipedMarks⟩ := piped
  cases read with
  | none => simp [Item.relabel, Statement.relabel, Term.relabel, Command.relabel, Marked.relabel,
      Token.relabelHead]
  | some body =>
    obtain ⟨inner, bodyExtent⟩ := body
    specialize hentries inner
    simp only [Option.map_some, Marked.relabel, hname]
    cases piped with
    | cons first rest =>
      simp [Item.relabel, Statement.relabel, Term.relabel, Command.relabel, Token.relabelHead]
    | nil =>
      cases blockName? arguments.node with
      | none =>
        simp [Item.relabel, Statement.relabel, Term.relabel, Command.relabel, Token.relabelHead]
      | some name =>
        rcases hfound : entriesOf inner with ⟨entries, marks⟩
        rw [hfound] at hentries
        simp only [Option.map_some, List.map_nil, hfound, hentries]
        cases entries with
        | none =>
          simp [Item.relabel, Statement.relabel, Term.relabel, Command.relabel, Token.relabelHead]
        | some entries =>
          cases name <;>
            simp [Item.relabel, Statement.relabel, Block.relabel, Table.relabel,
              Token.relabelHead, Token.relabel, Mark.relabel, Token.location]

end Grammar

end DesiredState

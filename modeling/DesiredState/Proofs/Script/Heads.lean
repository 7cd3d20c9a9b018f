/-
The blocks in a tree.

A block can stand anywhere in a statement: as the statement itself, as the value of an
entry, among the elements of an array.  All of them are listed here.

What is read of tokens is made of these tokens alone.  So the word at the head of each
block of a parsed script is the text of a token and is not empty, and a role that the
tree gives is given to a token.
-/
import DesiredState.Proofs.Script.Transfer
import DesiredState.Proofs.Token.Spelling

namespace DesiredState

mutual

/-- The blocks within a block, and the block itself. -/
def Block.blocks : Block → List Block
  | ⟨extent, keyword, place, none, body⟩ =>
    ⟨extent, keyword, place, none, body⟩ :: body.blocks
  | ⟨extent, keyword, place, some name, body⟩ =>
    ⟨extent, keyword, place, some name, body⟩ :: (name.blocks ++ body.blocks)
termination_by structural b => b

def Table.blocks : Table → List Block
  | ⟨_, entries⟩ => Entry.blocksOf entries
termination_by structural t => t

def Entry.blocks : Entry → List Block
  | ⟨_, _, value⟩ => value.blocks
termination_by structural e => e

def Entry.blocksOf : List Entry → List Block
  | [] => []
  | e :: rest => e.blocks ++ Entry.blocksOf rest
termination_by structural list => list

def Command.blocks : Command → List Block
  | ⟨_, _, arguments⟩ => Argument.blocksOf arguments
termination_by structural c => c

def Argument.blocks : Argument → List Block
  | .parameter _ _ => []
  | .value e => e.blocks
termination_by structural a => a

def Argument.blocksOf : List Argument → List Block
  | [] => []
  | a :: rest => a.blocks ++ Argument.blocksOf rest
termination_by structural list => list

def Term.blocks : Term → List Block
  | .expression e => e.blocks
  | .command c => c.blocks
  | .block b => b.blocks
termination_by structural t => t

def Term.blocksOf : List Term → List Block
  | [] => []
  | t :: rest => t.blocks ++ Term.blocksOf rest
termination_by structural list => list

def Expression.blocks : Expression → List Block
  | .array _ _ elements => Term.blocksOf elements
  | .table t => t.blocks
  | .string .. | .number .. | .variable _ | .member .. | .scriptBlock _ | .unrecognized _ => []
termination_by structural e => e

/-- The blocks within a statement. -/
def Statement.blocks : Statement → List Block
  | .configuration _ _ body => Statement.blocksOf body
  | .node _ target body => target.blocks ++ Statement.blocksOf body
  | .param _ => []
  | .assignment _ target value => target.blocks ++ value.blocks
  | .block b => b.blocks
  | .pipeline _ elements => Term.blocksOf elements
termination_by structural s => s

/-- The blocks within statements. -/
def Statement.blocksOf : List Statement → List Block
  | [] => []
  | s :: rest => s.blocks ++ Statement.blocksOf rest
termination_by structural list => list

end

theorem Table.blocks_eq (t : Table) : t.blocks = Entry.blocksOf t.entries := by
  cases t
  rfl

/-! ### Relabelled trees -/

section Relabelled

variable (m : Relabelling)

mutual

theorem Block.blocks_relabel : ∀ b : Block, (b.relabel m).blocks = b.blocks.map (Block.relabel m)
  | ⟨extent, keyword, place, none, body⟩ => by
    rw [Block.blocks, List.map_cons, ← Table.blocks_relabel body]
    rfl
  | ⟨extent, keyword, place, some name, body⟩ => by
    rw [Block.blocks, List.map_cons, List.map_append, ← Expression.blocks_relabel name,
      ← Table.blocks_relabel body]
    rfl

theorem Table.blocks_relabel : ∀ t : Table, (t.relabel m).blocks = t.blocks.map (Block.relabel m)
  | ⟨_, entries⟩ => Entry.blocksOf_relabel entries

theorem Entry.blocks_relabel : ∀ e : Entry, (e.relabel m).blocks = e.blocks.map (Block.relabel m)
  | ⟨_, _, value⟩ => Statement.blocks_relabel value

theorem Entry.blocksOf_relabel : ∀ list : List Entry,
    Entry.blocksOf (Entry.relabels m list) = (Entry.blocksOf list).map (Block.relabel m)
  | [] => rfl
  | e :: rest => by
    rw [Entry.relabels, Entry.blocksOf, Entry.blocksOf, List.map_append, Entry.blocks_relabel e,
      Entry.blocksOf_relabel rest]

theorem Command.blocks_relabel : ∀ c : Command,
    (c.relabel m).blocks = c.blocks.map (Block.relabel m)
  | ⟨_, _, arguments⟩ => Argument.blocksOf_relabel arguments

theorem Argument.blocks_relabel : ∀ a : Argument,
    (a.relabel m).blocks = a.blocks.map (Block.relabel m)
  | .parameter _ _ => rfl
  | .value e => Expression.blocks_relabel e

theorem Argument.blocksOf_relabel : ∀ list : List Argument,
    Argument.blocksOf (Argument.relabels m list) = (Argument.blocksOf list).map (Block.relabel m)
  | [] => rfl
  | a :: rest => by
    rw [Argument.relabels, Argument.blocksOf, Argument.blocksOf, List.map_append,
      Argument.blocks_relabel a, Argument.blocksOf_relabel rest]

theorem Term.blocks_relabel : ∀ t : Term, (t.relabel m).blocks = t.blocks.map (Block.relabel m)
  | .expression e => Expression.blocks_relabel e
  | .command c => Command.blocks_relabel c
  | .block b => Block.blocks_relabel b

theorem Term.blocksOf_relabel : ∀ list : List Term,
    Term.blocksOf (Term.relabels m list) = (Term.blocksOf list).map (Block.relabel m)
  | [] => rfl
  | t :: rest => by
    rw [Term.relabels, Term.blocksOf, Term.blocksOf, List.map_append, Term.blocks_relabel t,
      Term.blocksOf_relabel rest]

theorem Expression.blocks_relabel : ∀ e : Expression,
    (e.relabel m).blocks = e.blocks.map (Block.relabel m)
  | .string .. | .number .. | .variable _ | .member .. | .scriptBlock _ | .unrecognized _ => rfl
  | .array _ _ elements => Term.blocksOf_relabel elements
  | .table t => Table.blocks_relabel t

theorem Statement.blocks_relabel : ∀ s : Statement,
    (s.relabel m).blocks = s.blocks.map (Block.relabel m)
  | .configuration _ _ body => Statement.blocksOf_relabel body
  | .node _ target body => by
    rw [Statement.relabel, Statement.blocks, Statement.blocks, List.map_append,
      Expression.blocks_relabel target, Statement.blocksOf_relabel body]
  | .param _ => rfl
  | .assignment _ target value => by
    rw [Statement.relabel, Statement.blocks, Statement.blocks, List.map_append,
      Expression.blocks_relabel target, Statement.blocks_relabel value]
  | .block b => Block.blocks_relabel b
  | .pipeline _ elements => Term.blocksOf_relabel elements

theorem Statement.blocksOf_relabel : ∀ list : List Statement,
    Statement.blocksOf (Statement.relabels m list) = (Statement.blocksOf list).map (Block.relabel m)
  | [] => rfl
  | s :: rest => by
    rw [Statement.relabels, Statement.blocksOf, Statement.blocksOf, List.map_append,
      Statement.blocks_relabel s, Statement.blocksOf_relabel rest]

end

end Relabelled

theorem Statement.blocksOf_eq (list : List Statement) :
    Statement.blocksOf list = list.flatMap Statement.blocks := by
  induction list with
  | nil => rfl
  | cons s rest ih => rw [Statement.blocksOf, ih, List.flatMap_cons]

theorem Entry.blocksOf_eq (list : List Entry) :
    Entry.blocksOf list = list.flatMap Entry.blocks := by
  induction list with
  | nil => rfl
  | cons first rest ih => rw [Entry.blocksOf, ih, List.flatMap_cons]

theorem Argument.blocksOf_eq (list : List Argument) :
    Argument.blocksOf list = list.flatMap Argument.blocks := by
  induction list with
  | nil => rfl
  | cons first rest ih => rw [Argument.blocksOf, ih, List.flatMap_cons]

theorem Term.blocksOf_eq (list : List Term) :
    Term.blocksOf list = list.flatMap Term.blocks := by
  induction list with
  | nil => rfl
  | cons first rest ih => rw [Term.blocksOf, ih, List.flatMap_cons]

/-! ### Parsed scripts -/

/-- Every result of a map that succeeds comes from an element. -/
theorem exists_of_mem_mapM {f : α → Option β} {list : List α} {results : List β}
    (h : list.mapM f = some results) {b : β} (hb : b ∈ results) : ∃ a ∈ list, f a = some b := by
  induction list generalizing results with
  | nil =>
    obtain rfl : [] = results := Option.some.inj h
    cases hb
  | cons a rest ih =>
    rw [List.mapM_cons] at h
    obtain ⟨first, hfirst, h⟩ := Option.bind_eq_some_iff.mp h
    obtain ⟨more, hmore, h⟩ := Option.bind_eq_some_iff.mp h
    obtain rfl : first :: more = results := Option.some.inj h
    rcases List.mem_cons.mp hb with rfl | hb
    · exact ⟨a, List.mem_cons_self, hfirst⟩
    · obtain ⟨a', ha', hfound⟩ := ih hmore hb
      exact ⟨a', List.mem_cons_of_mem a ha', hfound⟩

/-- In a map that succeeds every element has a result. -/
theorem exists_result_of_mapM {f : α → Option β} {list : List α} {results : List β}
    (h : list.mapM f = some results) {a : α} (ha : a ∈ list) : ∃ b ∈ results, f a = some b := by
  induction list generalizing results with
  | nil => cases ha
  | cons first rest ih =>
    rw [List.mapM_cons] at h
    obtain ⟨b, hb, h⟩ := Option.bind_eq_some_iff.mp h
    obtain ⟨more, hmore, h⟩ := Option.bind_eq_some_iff.mp h
    obtain rfl : b :: more = results := Option.some.inj h
    rcases List.mem_cons.mp ha with rfl | ha
    · exact ⟨b, List.mem_cons_self, hb⟩
    · obtain ⟨c, hc, hfound⟩ := ih hmore ha
      exact ⟨c, List.mem_cons_of_mem b hc, hfound⟩

/-- What a parsed script is made of. -/
theorem Script.parse_eq_ok_iff {source : Text} {script : Script} :
    parse source = .ok script ↔ Token.unknowns (Token.scan source) = [] ∧
      ∃ items, Grammar.script source (Token.significant (Token.scan source)) = .ok items ∧
        script = ⟨items.map (·.statement), streamOf (items.flatMap (·.marks))
          (Token.scan source)⟩ := by
  unfold parse
  simp only []
  cases Token.unknowns (Token.scan source) with
  | cons unknown rest => simp
  | nil =>
    cases Grammar.script source (Token.significant (Token.scan source)) with
    | error e => simp
    | ok items => simp [eq_comm]

/-! ### Reading the same tokens again

The head of a block is the text of a token, and no token is empty.  A relabelling that
puts a mark in the place of an empty head would be seen in the tree if there were one.
-/

/-- The tokens of one text, once as they are and once relabelled. -/
def Shared.again (source : Text) (tokens : List Token) (m : Relabelling)
    (hextent : ∀ e, m.extent e = e) (hnumber : ∀ e, m.number e = e)
    (htoken : ∀ t ∈ tokens, t.relabel m = t) (hhead : ∀ t ∈ tokens, m.head t.text = t.text)
    (hbalanced : Nesting.Balanced tokens) : Shared where
  left := ⟨source, [], [], .same⟩
  right := ⟨source, [], [], m⟩
  tokens := tokens
  Same := Eq
  look_eq := by
    rintro e _ rfl
    exact (hextent e).symm
  token_eq t ht := (htoken t ht).symm
  head_eq t ht := (hhead t ht).symm
  same_token _ _ := rfl
  same_span _ _ _ _ _ := rfl
  same_joined := by rintro _ _ _ _ rfl rfl; rfl
  number_eq _ _ _ := (hnumber _).symm
  stops := by rintro _ _ _ ⟨⟩
  stops_kind := by rintro _ ⟨⟩
  balanced := hbalanced

theorem Item.relabel_same (item : Item) : item.relabel .same = item := by
  obtain ⟨statement, keyed?, marks⟩ := item
  have hmarks : marks.map (Mark.relabel .same) = marks := List.map_id marks
  cases keyed? with
  | none => simp only [Item.relabel, statement.relabel_same, hmarks, Option.map_none]
  | some pair =>
    obtain ⟨key, value⟩ := pair
    simp only [Item.relabel, statement.relabel_same, value.relabel_same, hmarks, Option.map_some]
    rfl

/-- **What is read is made of the tokens alone**: a relabelling that leaves these and all extents
as they are leaves what is read as it is. -/
theorem Grammar.relabel_script {source : Text} {tokens : List Token} {items : List Item}
    (h : script source tokens = .ok items) {m : Relabelling} (hextent : ∀ e, m.extent e = e)
    (hnumber : ∀ e, m.number e = e) (htoken : ∀ t ∈ tokens, t.relabel m = t)
    (hhead : ∀ t ∈ tokens, m.head t.text = t.text) :
    items.map (Item.relabel m) = items := by
  obtain ⟨again, hagain, hsame⟩ := (Shared.again source tokens m hextent hnumber htoken hhead
    (balanced_of_script h)).script_same ⟨rfl, rfl⟩ ⟨rfl, rfl⟩ h
  obtain rfl : items = again := Except.ok.inj (h.symm.trans hagain)
  exact hsame.symm.trans
    ((List.map_congr_left fun item _ => item.relabel_same).trans (List.map_id _))

/-- The roles that a tree gives are given to tokens. -/
theorem Grammar.offset_of_mark {source : Text} {tokens : List Token} {items : List Item}
    (h : script source tokens = .ok items) {mark : Mark} (hmark : mark ∈ items.flatMap (·.marks)) :
    ∃ t ∈ tokens, t.start.offset = mark.offset := by
  by_contra hnone
  -- Were no token there, another offset in place of this one would change the mark only.
  let m : Relabelling := { Relabelling.same with
    offset := fun offset => if offset = mark.offset then offset + 1 else offset }
  have hagain := relabel_script h (m := m) (fun _ => rfl) (fun _ => rfl)
    (fun t ht => by
      have hoffset : m.offset t.start.offset = t.start.offset := if_neg fun he => hnone ⟨t, ht, he⟩
      unfold Token.relabel
      rw [hoffset]
      rfl)
    (fun _ _ => rfl)
  rw [← hagain, List.flatMap_map] at hmark
  obtain ⟨item, -, hmem⟩ := List.mem_flatMap.mp hmark
  obtain ⟨other, -, hother⟩ := List.mem_map.mp hmem
  have hoffset : (if other.offset = mark.offset then other.offset + 1 else other.offset) =
      mark.offset := congrArg Mark.offset hother
  split at hoffset <;> omega

/-- Puts a mark where the word at a head would be missing. -/
def markHead : Relabelling := { Relabelling.same with
  head := fun word => if word.isEmpty then ['?'] else word }

/-- **The word at the head of a block is not empty**, however deep the block stands. -/
theorem Script.head_ne_nil {source : Text} {script : Script} (h : parse source = .ok script)
    {b : Block} (hb : b ∈ Statement.blocksOf script.statements) : b.keyword ≠ [] := by
  obtain ⟨hunknowns, items, hitems, rfl⟩ := parse_eq_ok_iff.mp h
  have htext : ∀ t ∈ Token.significant (Token.scan source), t.text ≠ [] := fun t ht =>
    Token.text_ne_nil_of_scan hunknowns (List.mem_filter.mp ht).1
  have hagain := Grammar.relabel_script hitems (m := markHead) (fun _ => rfl) (fun _ => rfl)
    (fun _ _ => rfl) (fun t ht => by simp [markHead, htext t ht])
  have hmarked : items.map (·.statement) =
      (items.map (·.statement)).map (Statement.relabel markHead) := by
    have hstatements := congrArg (List.map Item.statement) hagain
    rw [List.map_map] at hstatements
    rw [List.map_map]
    exact hstatements.symm
  rw [show (⟨items.map (·.statement), _⟩ : Script).statements = _ from hmarked,
    ← Statement.relabels_eq, Statement.blocksOf_relabel] at hb
  obtain ⟨b', -, rfl⟩ := List.mem_map.mp hb
  rw [Block.relabel_eq]
  change (if b'.keyword.isEmpty then ['?'] else b'.keyword) ≠ []
  split
  · exact List.cons_ne_nil _ _
  · next hne => exact fun he => hne (by rw [he]; rfl)

end DesiredState

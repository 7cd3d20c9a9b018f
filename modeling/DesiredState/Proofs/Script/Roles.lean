/-
Roles and the tree.

The roles of the tokens and the tree agree in one direction: the word at the head of
every named block and every key in the body of a block has its role.  In the other
direction they agree where nothing is kept as text.  A head or a key whose role has no
block in the tree stands in what a node of the tree keeps as text.
-/
import DesiredState.Proofs.Script.Marks
import DesiredState.Proofs.Stream
import DesiredState.Proofs.Token.Blanking
import Mathlib.Data.List.Nodup

namespace DesiredState

variable {source : Text}

/-! ### Parsed scripts

What has been said of marks among phrases is said of scripts here, with the tokens of
the stream in the place of offsets.  No two marks are at one offset, so that the role of
a token is that of its mark.
-/

namespace Script

/-- A word at a place is the head of a named block of the tree. -/
def IsHead (script : Script) (word : Text) (location : Location) : Prop :=
  ∃ b, Node.Occurs script.statements (.block b) ∧ b.IsHead word location

/-- A word at a place is a key in the body of a block of the tree. -/
def IsKey (script : Script) (word : Text) (location : Location) : Prop :=
  ∃ b, Node.Occurs script.statements (.block b) ∧ b.IsKey word location

/-- At an offset starts a token that a node of the tree keeps as text. -/
def KeepsText (source : Text) (script : Script) (offset : Nat) : Prop :=
  ∃ n taken, Node.Occurs script.statements n ∧
    n.KeepsText source (Token.significant (Token.scan source)) taken ∧
      offset ∈ Token.starts taken

/-- The roles of tokens agree with the tree, where it does not keep text. -/
structure RolesAgree (source : Text) (script : Script) : Prop where
  /-- The word at the head of every named block is a token. -/
  headFound : ∀ b, Node.Occurs script.statements (.block b) → b.instanceName.isSome →
    ∃ t ∈ script.tokens, b.IsHead t.text t.start.toLocation
  /-- Every key in the body of a block is a token. -/
  keyFound : ∀ b, Node.Occurs script.statements (.block b) → ∀ entry ∈ b.body.entries,
    ∃ t ∈ script.tokens, entry.key = t.text ∧ entry.keyLocation = t.start.toLocation
  ofHead : ∀ t ∈ script.tokens, script.IsHead t.text t.start.toLocation → t.role = .dynamicKeyword
  ofKey : ∀ t ∈ script.tokens, script.IsKey t.text t.start.toLocation → t.role = .identifier
  head : ∀ t ∈ script.tokens, t.role = .dynamicKeyword →
    script.IsHead t.text t.start.toLocation ∨ script.KeepsText source t.start.offset
  key : ∀ t ∈ script.tokens, t.role = .identifier →
    script.IsKey t.text t.start.toLocation ∨ script.KeepsText source t.start.offset

variable {items : List Item}

section Marks

variable (hderives : Grammar.Derives source (Token.significant (Token.scan source))
  (items.map .item))
include hderives

/-- The blocks of a tree are marked. -/
theorem marked_of_occurs {b : Block} (hb : Node.Occurs (items.map (·.statement)) (.block b)) :
    b.Marked source (items.flatMap (·.marks)) (Token.significant (Token.scan source)) := by
  obtain ⟨s, hs, hholds⟩ := hb
  obtain ⟨item, hitem, rfl⟩ := List.mem_map.mp hs
  refine (hderives.marked (List.mem_map_of_mem hitem)).mono (List.infix_refl _) ?_ b hholds
  exact fun mark hmark => List.mem_flatMap.mpr ⟨item, hitem, hmark⟩

/-- Marks are explained by nodes of the tree. -/
theorem explains_of_mark {mark : Mark} (hmark : mark ∈ items.flatMap (·.marks)) :
    ∃ n, Node.Occurs (items.map (·.statement)) n ∧
      n.Explains source (Token.significant (Token.scan source)) mark := by
  obtain ⟨item, hitem, hmark⟩ := List.mem_flatMap.mp hmark
  obtain ⟨n, hholds, hn⟩ :=
    hderives.accounts (List.infix_refl _) (List.mem_map_of_mem hitem) hmark
  exact ⟨n, ⟨_, List.mem_map_of_mem hitem, hholds⟩, hn⟩

variable (hknown : Token.unknowns (Token.scan source) = [])
include hknown

/-- No two marks of a script are at one offset. -/
theorem nodup_marks : ((items.flatMap (·.marks)).map (·.offset)).Nodup := by
  have hstarts : (Token.starts (Token.scan source)).Nodup :=
    List.pairwise_map.mpr ((Token.pairwise_start hknown).imp Nat.ne_of_lt)
  obtain ⟨marked, hperm, hsub⟩ :=
    (Grammar.marks_sublist items).subperm.trans hderives.offsets_subperm
  exact hperm.nodup_iff.mp (hstarts.sublist (hsub.trans (List.filter_sublist.map _)))

/-- A token with a mark has the role of the mark. -/
theorem role_of_mark {t : Token} {mark : Mark} (hmark : mark ∈ items.flatMap (·.marks))
    (hoffset : mark.offset = t.start.offset) :
    (ClassifiedToken.of (items.flatMap (·.marks)).reverse t).role = mark.role := by
  refine ClassifiedToken.role_of_marked (fun other hother h => ?_) ⟨mark, hmark, hoffset⟩
  rw [List.inj_on_of_nodup_map (nodup_marks hderives hknown) hother hmark
    (h.trans hoffset.symm)]

/-- A role that is only given by marks is explained by a node of the tree. -/
theorem explains_of_role {t : Token} {role : TokenRole} (hkind : TokenRole.ofKind t.kind ≠ role)
    (hrole : (ClassifiedToken.of (items.flatMap (·.marks)).reverse t).role = role) :
    ∃ n, Node.Occurs (items.map (·.statement)) n ∧
      n.Explains source (Token.significant (Token.scan source)) ⟨t.start.offset, role⟩ := by
  have hmarked : ∃ mark ∈ items.flatMap (·.marks), mark.offset = t.start.offset := by
    by_contra hnone
    exact hkind ((ClassifiedToken.role_of_unmarked fun mark hmark hoffset =>
      hnone ⟨mark, hmark, hoffset⟩).symm.trans hrole)
  obtain ⟨⟨offset, role'⟩, hmark, rfl⟩ := hmarked
  obtain rfl : role' = role := (role_of_mark hderives hknown hmark rfl).symm.trans hrole
  exact explains_of_mark hderives hmark

end Marks

/-- The head of a named block is marked as such. -/
theorem role_of_isHead {script : Script} (h : parse source = .ok script) {c : ClassifiedToken}
    (hc : c ∈ script.tokens) (hhead : script.IsHead c.text c.start.toLocation) :
    c.role = .dynamicKeyword := by
  obtain ⟨hknown, items, hitems, rfl⟩ := parse_eq_ok_iff.mp h
  have hderives := Grammar.derives_of_script hitems
  obtain ⟨u, hu, rfl⟩ := List.mem_map.mp hc
  obtain ⟨b, hb, hhead⟩ := hhead
  obtain ⟨t, ht, hfound, hmark⟩ := (marked_of_occurs hderives hb).head hhead.named
  obtain rfl := Token.eq_of_location hknown (List.mem_filter.mp ht).1 (List.mem_filter.mp hu).1
    (hfound.location.symm.trans hhead.location)
  exact role_of_mark hderives hknown hmark rfl

/-- A key in the body of a block is marked as such. -/
theorem role_of_isKey {script : Script} (h : parse source = .ok script) {c : ClassifiedToken}
    (hc : c ∈ script.tokens) (hkey : script.IsKey c.text c.start.toLocation) :
    c.role = .identifier := by
  obtain ⟨hknown, items, hitems, rfl⟩ := parse_eq_ok_iff.mp h
  have hderives := Grammar.derives_of_script hitems
  obtain ⟨u, hu, rfl⟩ := List.mem_map.mp hc
  obtain ⟨b, hb, entry, hentry, -, hlocation⟩ := hkey
  obtain ⟨t, ht, -, hplace, hmark⟩ := (marked_of_occurs hderives hb).keys entry hentry
  obtain rfl := Token.eq_of_location hknown (List.mem_filter.mp ht).1 (List.mem_filter.mp hu).1
    (hplace.symm.trans hlocation)
  exact role_of_mark hderives hknown hmark rfl

/-- **Roles agree with the tree**: the heads of named blocks and the keys of bodies are marked as
such, and nothing else is but in what is kept as text. -/
theorem parse_rolesAgree {source : Text} {script : Script} (h : parse source = .ok script) :
    RolesAgree source script := by
  obtain ⟨hknown, items, hitems, rfl⟩ := parse_eq_ok_iff.mp h
  have hderives := Grammar.derives_of_script hitems
  have hscanned : ∀ t ∈ Token.significant (Token.scan source), t ∈ Token.scan source :=
    fun t ht => (List.mem_filter.mp ht).1
  have hstream : ∀ t ∈ Token.significant (Token.scan source),
      ClassifiedToken.of (items.flatMap (·.marks)).reverse t ∈
        streamOf (items.flatMap (·.marks)) (Token.scan source) := by
    intro t ht
    obtain ⟨hin, hsignificant⟩ := List.mem_filter.mp ht
    exact List.mem_map_of_mem (List.mem_filter.mpr ⟨hin, by rw [hsignificant, Bool.true_or]⟩)
  have htoken : ∀ c ∈ streamOf (items.flatMap (·.marks)) (Token.scan source),
      ∃ t ∈ Token.scan source, c = ClassifiedToken.of (items.flatMap (·.marks)).reverse t := by
    intro c hc
    obtain ⟨t, ht, rfl⟩ := List.mem_map.mp hc
    exact ⟨t, (List.mem_filter.mp ht).1, rfl⟩
  refine ⟨fun b hb hnamed => ?_, fun b hb entry hentry => ?_, fun c hc hhead => ?_,
    fun c hc hkey => ?_, fun c hc hrole => ?_, fun c hc hrole => ?_⟩
  · obtain ⟨t, ht, hhead, -⟩ := (marked_of_occurs hderives hb).head hnamed
    exact ⟨_, hstream t ht, hhead⟩
  · obtain ⟨t, ht, hkey, hplace, -⟩ := (marked_of_occurs hderives hb).keys entry hentry
    exact ⟨_, hstream t ht, hkey, hplace⟩
  · exact role_of_isHead h hc hhead
  · exact role_of_isKey h hc hkey
  · obtain ⟨u, hu, rfl⟩ := htoken c hc
    obtain ⟨n, hn, hexplains⟩ := explains_of_role hderives hknown
      (TokenRole.ofKind_ne_dynamicKeyword u.kind) hrole
    generalize hmark : (⟨u.start.offset, .dynamicKeyword⟩ : Mark) = mark at hexplains
    cases hexplains with
    | @head b t ht hhead =>
      obtain rfl := Token.eq_of_start hknown (hscanned t ht) hu (congrArg Mark.offset hmark).symm
      exact .inl ⟨b, hn, hhead⟩
    | key => cases congrArg Mark.role hmark
    | kept hkeeps hoffset _ =>
      rw [← hmark] at hoffset
      exact .inr ⟨n, _, hn, hkeeps, hoffset⟩
  · obtain ⟨u, hu, rfl⟩ := htoken c hc
    obtain ⟨n, hn, hexplains⟩ := explains_of_role hderives hknown
      (TokenRole.ofKind_ne_identifier u.kind) hrole
    generalize hmark : (⟨u.start.offset, .identifier⟩ : Mark) = mark at hexplains
    cases hexplains with
    | head => cases congrArg Mark.role hmark
    | @key b t ht hkey =>
      obtain rfl := Token.eq_of_start hknown (hscanned t ht) hu (congrArg Mark.offset hmark).symm
      exact .inl ⟨b, hn, hkey⟩
    | kept hkeeps hoffset _ =>
      rw [← hmark] at hoffset
      exact .inr ⟨n, _, hn, hkeeps, hoffset⟩

/-- A block in a block, under a key and within an array. -/
def blocksSource : Text := "File f \x7b a = 1; b = @(Sub s \x7b c = 2 \x7d) \x7d"

theorem parse_rolesAgree_blocks : ∃ script, parse blocksSource = .ok script ∧
    (script.tokens.filter (·.role == .identifier)).length = 3 ∧ RolesAgree blocksSource script := by
  have hkeys : (parse blocksSource).toOption.map (fun script =>
      (script.tokens.filter (·.role == .identifier)).length) = some 3 := by
    decide +kernel
  cases h : parse blocksSource with
  | error e =>
    rw [h] at hkeys
    cases hkeys
  | ok script =>
    rw [h] at hkeys
    exact ⟨script, rfl, Option.some.inj hkeys, parse_rolesAgree h⟩

end Script

/-! ### The blocks of a node -/

namespace Node

/-- The blocks within a node. -/
def blocks : Node → List Block
  | .statement s => s.blocks
  | .block b => b.blocks
  | .table t => t.blocks
  | .entry e => e.blocks
  | .command c => c.blocks
  | .parameter .. => []
  | .expression e => e.blocks

theorem blocks_asNode (t : Term) : t.asNode.blocks = t.blocks := by
  cases t <;> rfl

theorem blocks_argument (a : Argument) : a.asNode.blocks = a.blocks := by
  cases a <;> rfl

/-- The block that a node is. -/
def self : Node → List Block
  | .block b => [b]
  | _ => []

/-- The blocks within a node are those within its children, and itself. -/
theorem blocks_eq (n : Node) : n.blocks = n.self ++ n.children.flatMap blocks := by
  have hstatements (body : List Statement) :
      (body.map Node.statement).flatMap blocks = Statement.blocksOf body := by
    rw [List.flatMap_map, Statement.blocksOf_eq]
    rfl
  have hterms (elements : List Term) :
      (elements.map Term.asNode).flatMap blocks = Term.blocksOf elements := by
    rw [List.flatMap_map, Term.blocksOf_eq]
    exact List.flatMap_congr fun t _ => blocks_asNode t
  cases n with
  | statement s =>
    change s.blocks = [] ++ _
    cases s with
    | configuration => rw [children, hstatements, Statement.blocks]; rfl
    | node => rw [children, List.flatMap_cons, hstatements, Statement.blocks]; rfl
    | param => rfl
    | assignment => simp [children, blocks, Statement.blocks]
    | block => simp [children, blocks, Statement.blocks]
    | pipeline => rw [children, hterms, Statement.blocks]; rfl
  | block b =>
    obtain ⟨extent, keyword, location, name, body⟩ := b
    cases name <;> simp [children, blocks, Block.blocks, self]
  | table t =>
    change t.blocks = [] ++ _
    rw [children, List.flatMap_map, Table.blocks_eq, Entry.blocksOf_eq]
    rfl
  | entry e =>
    obtain ⟨key, location, value⟩ := e
    simp [children, blocks, Entry.blocks, self]
  | command c =>
    obtain ⟨extent, name, arguments⟩ := c
    change Argument.blocksOf arguments = [] ++ _
    rw [children, List.flatMap_map, Argument.blocksOf_eq,
      List.flatMap_congr fun a _ => blocks_argument a]
    rfl
  | parameter => rfl
  | expression e =>
    change e.blocks = [] ++ _
    cases e with
    | array => rw [children, hterms, Expression.blocks]; rfl
    | table => simp [children, blocks, Expression.blocks]
    | member => simp [children, blocks, Expression.blocks]
    | _ => rfl

/-- All blocks that stand within a node are among its blocks. -/
theorem mem_blocks {n : Node} {b : Block} (h : n.Holds (.block b)) : b ∈ n.blocks := by
  have hsubset {m : Node} (hm : n.Holds m) : m.blocks ⊆ n.blocks := by
    induction hm with
    | self => exact List.Subset.refl _
    | @child parent m _ hchild ih =>
      refine fun b hb => ih ?_
      rw [blocks_eq parent]
      exact List.mem_append_right _ (List.mem_flatMap.mpr ⟨m, hchild, hb⟩)
  refine hsubset h ?_
  rw [blocks_eq]
  exact List.mem_append_left _ (List.mem_singleton_self b)

/-- A child is smaller than its parent. -/
theorem sizeOf_child {n child : Node} (h : child ∈ n.children) : sizeOf child < sizeOf n := by
  have hmap {α : Type} [SizeOf α] {f : α → Node} (hf : ∀ x, sizeOf (f x) ≤ 1 + sizeOf x)
      {xs : List α} (hin : child ∈ xs.map f) : sizeOf child < 1 + sizeOf xs := by
    obtain ⟨x, hx, rfl⟩ := List.mem_map.mp hin
    have hsize := List.sizeOf_lt_of_mem hx
    have hleast := hf x
    omega
  have hterm (t : Term) : sizeOf t.asNode ≤ 1 + sizeOf t := by
    cases t <;> simp [Term.asNode]
  have hargument (a : Argument) : sizeOf a.asNode ≤ 1 + sizeOf a := by
    cases a <;> simp [Argument.asNode]
  cases n with
  | statement s =>
    rw [statement.sizeOf_spec]
    cases s with
    | configuration _ _ body =>
      have hsize := hmap (fun s => by simp) h
      rw [Statement.configuration.sizeOf_spec]
      omega
    | node _ target body =>
      rw [Statement.node.sizeOf_spec]
      rcases List.mem_cons.mp h with rfl | h
      · rw [expression.sizeOf_spec]
        omega
      · have hsize := hmap (fun s => by simp) h
        omega
    | param => cases h
    | assignment extent target value =>
      obtain ⟨text, location⟩ := extent
      rw [Statement.assignment.sizeOf_spec, Extent.mk.sizeOf_spec]
      rcases List.mem_pair.mp h with rfl | rfl
      · rw [expression.sizeOf_spec]
        omega
      · rw [statement.sizeOf_spec]
        omega
    | block =>
      obtain rfl := List.mem_singleton.mp h
      rw [block.sizeOf_spec, Statement.block.sizeOf_spec]
      omega
    | pipeline _ elements =>
      have hsize := hmap hterm h
      rw [Statement.pipeline.sizeOf_spec]
      omega
  | block b =>
    obtain ⟨extent, keyword, location, name, body⟩ := b
    rw [block.sizeOf_spec, Block.mk.sizeOf_spec]
    rcases List.mem_append.mp h with h | h
    · obtain ⟨e, he, rfl⟩ := List.mem_map.mp h
      obtain rfl := Option.mem_toList.mp he
      rw [expression.sizeOf_spec, Option.some.sizeOf_spec]
      omega
    · obtain rfl := List.mem_singleton.mp h
      change sizeOf (table body) < _
      rw [table.sizeOf_spec]
      omega
  | table t =>
    obtain ⟨extent, entries⟩ := t
    have hsize : sizeOf child < 1 + sizeOf entries := hmap (fun e => by simp) h
    rw [table.sizeOf_spec, Table.mk.sizeOf_spec]
    omega
  | entry e =>
    obtain ⟨key, location, value⟩ := e
    obtain rfl := List.mem_singleton.mp h
    change sizeOf (statement value) < _
    rw [entry.sizeOf_spec, Entry.mk.sizeOf_spec, statement.sizeOf_spec]
    omega
  | command c =>
    obtain ⟨extent, name, arguments⟩ := c
    have hsize : sizeOf child < 1 + sizeOf arguments := hmap hargument h
    rw [command.sizeOf_spec, Command.mk.sizeOf_spec]
    omega
  | parameter => cases h
  | expression e =>
    rw [expression.sizeOf_spec]
    cases e with
    | array _ _ elements =>
      have hsize := hmap hterm h
      rw [Expression.array.sizeOf_spec]
      omega
    | table t =>
      obtain rfl := List.mem_singleton.mp h
      rw [table.sizeOf_spec, Expression.table.sizeOf_spec]
      omega
    | member extent target members =>
      obtain ⟨text, location⟩ := extent
      obtain rfl := List.mem_singleton.mp h
      rw [expression.sizeOf_spec, Expression.variable.sizeOf_spec, Expression.member.sizeOf_spec,
        Extent.mk.sizeOf_spec]
      omega
    | _ => cases h

/-- All blocks of a node stand within it. -/
theorem holds_of_mem_blocks {n : Node} {b : Block} (h : b ∈ n.blocks) : n.Holds (.block b) := by
  rw [blocks_eq] at h
  rcases List.mem_append.mp h with h | h
  · cases n with
    | block =>
      obtain rfl := List.mem_singleton.mp h
      exact .self
    | _ => cases h
  · obtain ⟨child, hchild, hb⟩ := List.mem_flatMap.mp h
    have hsmaller := sizeOf_child hchild
    exact (holds_of_mem_blocks hb).of_child hchild
termination_by sizeOf n

theorem mem_blocksOf {statements : List Statement} {b : Block}
    (h : Occurs statements (.block b)) : b ∈ Statement.blocksOf statements := by
  obtain ⟨s, hs, hholds⟩ := h
  rw [Statement.blocksOf_eq]
  exact List.mem_flatMap.mpr ⟨s, hs, mem_blocks hholds⟩

theorem occurs_of_mem_blocksOf {statements : List Statement} {b : Block}
    (h : b ∈ Statement.blocksOf statements) : Occurs statements (.block b) := by
  rw [Statement.blocksOf_eq] at h
  obtain ⟨s, hs, hb⟩ := List.mem_flatMap.mp h
  exact ⟨s, hs, holds_of_mem_blocks (n := .statement s) hb⟩

end Node

/-! ### Where roles and tree do not agree

Roles are given as soon as a block has been read, and they are not taken back where the
braces around it turn out to hold no body.
-/

namespace Script

/-- A block under the first of two statements, of which the second has no key. -/
def straySource : Text := "Foo x \x7b a = Bar y \x7b k = 1 \x7d\nbaz \x7d"

/-- Braces with a statement without a key are no body, and yet the head and the key of the block
within them keep their roles. -/
theorem parse_roles_stray : ¬ ∀ (source : Text) (script : Script), parse source = .ok script →
    ∀ t ∈ script.tokens, (t.role = .dynamicKeyword ↔ script.IsHead t.text t.start.toLocation) ∧
      (t.role = .identifier ↔ script.IsKey t.text t.start.toLocation) := by
  intro hagree
  have hstray : (parse straySource).toOption.map (fun script =>
      (script.tokens.any (·.role == .dynamicKeyword),
        (Statement.blocksOf script.statements).isEmpty)) = some (true, true) := by
    decide +kernel
  cases h : parse straySource with
  | error e =>
    rw [h] at hstray
    cases hstray
  | ok script =>
    rw [h] at hstray
    obtain ⟨hhead, hblocks⟩ := Prod.mk.inj (Option.some.inj hstray)
    obtain ⟨t, ht, hrole⟩ := List.any_eq_true.mp hhead
    obtain ⟨b, hb, -⟩ := (hagree _ script h t ht).1.mp (beq_iff_eq.mp hrole)
    have hin := Node.mem_blocksOf hb
    rw [List.isEmpty_iff.mp hblocks] at hin
    cases hin

end Script

end DesiredState

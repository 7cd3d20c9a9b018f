/-
Marks of phrases.

Two roles are marked while the tree is built: that of the word at the head of a named
block, and that of a key in the body of a block.  No token is marked twice, and every
head and every key of a block in the tree is marked.

A part is read before it is known whether it is kept as text.  What stands in an
expression that is not understood, or between braces that turn out to be no body, keeps
the marks that were made by then.  So a mark is explained by a block in the tree or by a
node that keeps text.
-/
import DesiredState.Proofs.Script.Derivation.Rules
import DesiredState.Proofs.Script.Heads
import DesiredState.Proofs.Script.Nodes
import Mathlib.Data.List.Flatten
import Mathlib.Data.List.Perm.Subperm

namespace DesiredState

variable {source : Text} {tokens ts us : List Token} {ps : List Phrase}

/-! ### Where marks are

A key is marked when the block around its statement has been read, and not yet by the
statement.  Its offset is counted from the start, as that of the key of an item, so that
the count stays the same when it is marked.
-/

/-- The marks of a phrase. -/
def Phrase.marks : Phrase → List Mark
  | .expression read => read.marks
  | .argument read => read.marks
  | .term read => read.marks
  | .entry read => read.marks
  | .value read => read.marks
  | .item read => read.marks

/-- The offsets that a phrase marks, and that of its key if it is a statement with one. -/
def Phrase.offsets : Phrase → List Nat
  | .item read => (read.keyed?.map (·.1.start.offset)).toList ++ read.marks.map (·.offset)
  | p => p.marks.map (·.offset)

theorem Phrase.mem_offsets {p : Phrase} {mark : Mark} (h : mark ∈ p.marks) :
    mark.offset ∈ p.offsets := by
  cases p with
  | item => exact List.mem_append_right _ (List.mem_map_of_mem h)
  | _ => exact List.mem_map_of_mem h

/-- The offsets at which tokens start. -/
def Token.starts (ts : List Token) : List Nat := ts.map (·.start.offset)

theorem Token.starts_append (ts us : List Token) : starts (ts ++ us) = starts ts ++ starts us :=
  List.map_append

namespace Grammar

theorem flatMap_offsets {α : Type} {f : α → Phrase} {g : α → List Mark}
    (h : ∀ x, (f x).offsets = (g x).map (·.offset)) (xs : List α) :
    (xs.map f).flatMap Phrase.offsets = (xs.flatMap g).map (·.offset) := by
  rw [List.flatMap_map, List.map_flatMap]
  exact List.flatMap_congr fun x _ => h x

/-- Statements mark what they mark with their keys or less. -/
theorem marks_sublist (items : List Item) :
    ((items.flatMap (·.marks)).map (·.offset)).Sublist
      ((items.map .item).flatMap Phrase.offsets) := by
  induction items with
  | nil => exact .slnil
  | cons item rest ih =>
    rw [List.flatMap_cons, List.map_append, List.map_cons, List.flatMap_cons]
    exact (List.sublist_append_right _ _).append ih

/-- Where all statements have keys, these are marked besides what the statements mark. -/
theorem marks_perm {items : List Item} {keyed : List (Token × Statement)}
    (h : items.mapM (·.keyed?) = some keyed) :
    ((items.flatMap (·.marks) ++ keyMarks keyed).map (·.offset)).Perm
      ((items.map .item).flatMap Phrase.offsets) := by
  induction items generalizing keyed with
  | nil =>
    cases h
    exact .nil
  | cons item rest ih =>
    rw [List.mapM_cons] at h
    obtain ⟨⟨key, value⟩, hfirst, h⟩ := Option.bind_eq_some_iff.mp h
    obtain ⟨others, hothers, h⟩ := Option.bind_eq_some_iff.mp h
    cases h
    have hperm := ih hothers
    have hoffsets : (Phrase.item item).offsets =
        key.start.offset :: item.marks.map (·.offset) := by
      rw [Phrase.offsets, hfirst]
      rfl
    rw [List.map_cons, List.flatMap_cons (f := Phrase.offsets), hoffsets]
    simp only [List.flatMap_cons, List.map_append, keyMarks, List.map_cons,
      List.append_assoc, List.cons_append] at hperm ⊢
    refine .trans ?_ (.cons _ (.append_left _ hperm))
    exact (List.Perm.append_left _ List.perm_middle).trans List.perm_middle

/-- **No token is marked twice**, and a key is not marked before its block is read. -/
theorem Derives.offsets_subperm (h : Derives source ts ps) :
    (ps.flatMap Phrase.offsets).Subperm (Token.starts ts) := by
  have hfront (ts us : List Token) : (Token.starts ts).Subperm (Token.starts (ts ++ us)) :=
    ((List.sublist_append_left ts us).map _).subperm
  have hcons (t : Token) (ts : List Token) :
      (Token.starts ts).Subperm (Token.starts (t :: ts)) :=
    ((List.sublist_cons_self t ts).map _).subperm
  have hinner (opening closing : Token) (inner : List Token) :
      (Token.starts inner).Subperm (Token.starts (opening :: inner ++ [closing])) :=
    (hcons opening inner).trans (hfront _ _)
  have hmarks {ts us : List Token} {l m : List Mark}
      (hl : (l.map (·.offset)).Subperm (Token.starts ts))
      (hm : (m.map (·.offset)).Subperm (Token.starts us)) :
      ((l ++ m).map (·.offset)).Subperm (Token.starts (ts ++ us)) := by
    rw [List.map_append, Token.starts_append]
    exact hl.append hm
  induction h with
  | nil => exact List.nil_subperm
  | append _ _ ihp ihq =>
    rw [List.flatMap_append, Token.starts_append]
    exact ihp.append ihq
  | leaf | parameter | param => exact List.nil_subperm
  | member _ _ ih => exact ih.trans (hfront _ _)
  | unrecognized _ ih => exact ih.trans (hfront _ _)
  | array hitems ih =>
    rw [List.flatMap_singleton]
    exact ((marks_sublist _).subperm.trans ih).trans (hinner _ _ _)
  | list hne hall ih =>
    rw [flatMap_offsets (fun _ => rfl)] at ih
    rwa [List.flatMap_singleton]
  | table hentries ih =>
    rw [flatMap_offsets (fun _ => rfl)] at ih
    rw [List.flatMap_singleton]
    exact ih.trans (hinner _ _ _)
  | entry hvalue ih => exact ih.trans (hcons _ _)
  | argument _ _ ih | expressionTerm _ ih | plain _ ih => exact ih
  | joined he hf _ ihe ihf =>
    rw [List.flatMap_singleton] at *
    exact hmarks ihe ihf
  | commandTerm harguments ih =>
    rw [flatMap_offsets (fun _ => rfl)] at ih
    rw [List.flatMap_singleton]
    exact ih.trans (hcons _ _)
  | assignment htarget hvalue iht ihv =>
    rw [List.flatMap_singleton] at *
    exact hmarks iht ihv
  | pipeline hne hterms ih =>
    rw [flatMap_offsets (fun _ => rfl)] at ih
    rwa [List.flatMap_singleton]
  | value hitem ih =>
    rw [List.flatMap_singleton] at *
    exact (List.sublist_append_right _ _).subperm.trans ih
  | keyed hvalue ih =>
    rw [List.flatMap_singleton] at *
    exact List.subperm_cons _ |>.mpr ih
  | configuration name hitems ih =>
    rw [List.flatMap_singleton]
    exact ((marks_sublist _).subperm.trans ih).trans (hcons _ _)
  | node htarget hitems iht ihi =>
    rw [List.flatMap_singleton] at *
    exact (hmarks iht ((marks_sublist _).subperm.trans ihi)).trans (hcons _ _)
  | command harguments hpiped iha ihp =>
    rw [flatMap_offsets (fun _ => rfl)] at iha ihp
    rw [List.flatMap_singleton]
    exact (hmarks iha ihp).trans (hcons _ _)
  | @textBody head opening closing ts inner arguments items _ _ _ harguments hitems iha ihi =>
    rw [flatMap_offsets (fun _ => rfl)] at iha
    rw [List.flatMap_singleton]
    have htaken : (items.takeWhile (·.keyed?.isSome)).Sublist items := List.takeWhile_sublist _
    have hread := (htaken.flatMap (·.marks)).map (·.offset)
    have hbody := ((hread.trans (marks_sublist items)).subperm.trans ihi).trans
      (hinner opening closing inner)
    exact (hmarks iha hbody).trans (hcons _ _)
  | @block head opening closing ts inner arguments items name keyed _ harguments hname _ hitems hkeyed
      iha ihi =>
    rw [flatMap_offsets (fun _ => rfl)] at iha
    rw [List.flatMap_singleton]
    have hbody := ((marks_perm hkeyed).subperm.trans ihi).trans (hinner opening closing inner)
    have hhead : ((headMarks head name).map (·.offset)).Subperm (Token.starts [head]) := by
      unfold headMarks
      split
      · exact List.Subperm.refl _
      · exact List.nil_subperm
    exact (List.perm_append_comm.map _).subperm.trans (hmarks hhead (hmarks iha hbody))

end Grammar

/-! ### Why marks are made

A mark outlives the node for which it was made: braces may turn out to be no body after
the blocks in them have been marked.  Such a mark lies among tokens that a node keeps as
text, which is the one other reason for a mark.
-/

/-- A word at a place is the head of a named block. -/
structure Block.IsHead (b : Block) (word : Text) (location : Location) : Prop where
  named : b.instanceName.isSome
  keyword : b.keyword = word
  location : b.keywordLocation = location

/-- A word at a place is a key in the body of a block. -/
def Block.IsKey (b : Block) (word : Text) (location : Location) : Prop :=
  ∃ entry ∈ b.body.entries, entry.key = word ∧ entry.keyLocation = location

namespace Node

/-- Tokens that a node keeps as text: those of an expression that is not understood, and those
between the braces at the end of a command. -/
inductive KeepsText (source : Text) (tokens : List Token) : Node → List Token → Prop
  | unrecognized {taken : List Token} {e : Extent} (hin : taken <:+: tokens)
    (hspans : e.Spans source taken) : KeepsText source tokens (.expression (.unrecognized e)) taken
  | braces {c : Command} {head opening closing : Token} {ts inner : List Token}
    (hin : head :: (ts ++ (opening :: inner ++ [closing])) <:+: tokens)
    (hspans : c.extent.Spans source (head :: (ts ++ (opening :: inner ++ [closing]))))
    (hopens : opening.kind = .braceOpen) (hcloses : closing.kind = .braceClose)
    (hbalanced : Nesting.Balanced inner) : KeepsText source tokens (.command c) inner

/-- A node is why a mark is made. -/
inductive Explains (source : Text) (tokens : List Token) : Node → Mark → Prop
  | head {b : Block} {t : Token} (ht : t ∈ tokens) (hhead : b.IsHead t.text t.location) :
    Explains source tokens (.block b) ⟨t.start.offset, .dynamicKeyword⟩
  | key {b : Block} {t : Token} (ht : t ∈ tokens) (hkey : b.IsKey t.text t.location) :
    Explains source tokens (.block b) ⟨t.start.offset, .identifier⟩
  | kept {n : Node} {taken : List Token} {mark : Mark} (hkeeps : n.KeepsText source tokens taken)
    (hoffset : mark.offset ∈ Token.starts taken)
    (hrole : mark.role = .dynamicKeyword ∨ mark.role = .identifier) :
    Explains source tokens n mark

/-- A mark is made for a node or for one within it. -/
def Accounts (source : Text) (tokens : List Token) (n : Node) (mark : Mark) : Prop :=
  ∃ m, n.Holds m ∧ m.Explains source tokens mark

variable {n m : Node} {mark : Mark}

theorem Explains.role (h : n.Explains source tokens mark) :
    mark.role = .dynamicKeyword ∨ mark.role = .identifier := by
  cases h with
  | head => exact .inl rfl
  | key => exact .inr rfl
  | kept _ _ hrole => exact hrole

theorem Explains.ne_statement (h : n.Explains source tokens mark) (s : Statement) :
    n ≠ .statement s := by
  rintro rfl
  cases h with
  | kept hkeeps _ _ => cases hkeeps

theorem Explains.eq_unrecognized {e : Expression} (h : (expression e).Explains source tokens mark) :
    ∃ extent, e = .unrecognized extent := by
  cases h with
  | kept hkeeps _ _ =>
    cases hkeeps
    exact ⟨_, rfl⟩

namespace Accounts

theorem role (h : n.Accounts source tokens mark) :
    mark.role = .dynamicKeyword ∨ mark.role = .identifier := by
  obtain ⟨m, -, hm⟩ := h
  exact hm.role

theorem of_child {child : Node} (hchild : child ∈ n.children)
    (h : child.Accounts source tokens mark) : n.Accounts source tokens mark := by
  obtain ⟨m, hholds, hm⟩ := h
  exact ⟨m, hholds.of_child hchild, hm⟩

/-- A mark of a statement is made for one of its parts. -/
theorem exists_child {s : Statement} (h : (statement s).Accounts source tokens mark) :
    ∃ child ∈ (statement s).children, child.Accounts source tokens mark := by
  obtain ⟨m, hholds, hm⟩ := h
  rcases hholds.eq_or_child with rfl | ⟨child, hchild, hholds⟩
  · exact absurd rfl (hm.ne_statement s)
  · exact ⟨child, hchild, m, hholds, hm⟩

/-- A mark of an expression that is understood is made for one of its parts. -/
theorem exists_child_of_expression {e : Expression}
    (h : (expression e).Accounts source tokens mark) (he : ∀ extent, e ≠ .unrecognized extent) :
    ∃ child ∈ (expression e).children, child.Accounts source tokens mark := by
  obtain ⟨m, hholds, hm⟩ := h
  rcases hholds.eq_or_child with rfl | ⟨child, hchild, hholds⟩
  · obtain ⟨extent, rfl⟩ := hm.eq_unrecognized
    exact absurd rfl (he extent)
  · exact ⟨child, hchild, m, hholds, hm⟩

end Accounts

end Node

namespace Grammar

open Node

variable {mark : Mark}

/-- What is marked are tokens over which the phrases stand. -/
theorem Derives.mark_mem (h : Derives source ts ps) {p : Phrase} (hp : p ∈ ps)
    (hmark : mark ∈ p.marks) : mark.offset ∈ Token.starts ts :=
  h.offsets_subperm.subset (List.mem_flatMap.mpr ⟨p, hp, Phrase.mem_offsets hmark⟩)

/-- A statement stands over tokens of its own. -/
theorem Derives.statement_span (h : Derives source ts ps) {p : Phrase} (hp : p ∈ ps)
    {s : Statement} (hs : p.node = .statement s) :
    ∃ taken, taken <:+: ts ∧ s.extent.Spans source taken ∧
      ∀ mark ∈ p.marks, mark.offset ∈ Token.starts taken := by
  have hself {q : Phrase} {ts : List Token} (hq : Derives source ts [q])
      (he : ∀ s, q.node = .statement s → s.extent = .ofTokens source ts) {p : Phrase}
      (hp : p ∈ [q]) (hs : p.node = .statement s) :
      ∃ taken, taken <:+: ts ∧ s.extent.Spans source taken ∧
        ∀ mark ∈ p.marks, mark.offset ∈ Token.starts taken := by
    obtain rfl := List.mem_singleton.mp hp
    exact ⟨ts, List.infix_refl ts, he s hs ▸ .tokens (hq.ne_nil (List.cons_ne_nil _ _)),
      fun _ hmark => hq.mark_mem hp hmark⟩
  induction h generalizing p with
  | nil => cases hp
  | append _ _ ihp ihq =>
    rcases List.mem_append.mp hp with hp | hp
    · obtain ⟨taken, hin, htaken⟩ := ihp hp hs
      exact ⟨taken, hin.trans (List.prefix_append _ _).isInfix, htaken⟩
    · obtain ⟨taken, hin, htaken⟩ := ihq hp hs
      exact ⟨taken, hin.trans (List.suffix_append _ _).isInfix, htaken⟩
  | value hitem ih | plain hvalue ih =>
    obtain rfl := List.mem_singleton.mp hp
    have hread := ih List.mem_cons_self hs
    exact hread
  | assignment htarget hvalue =>
    exact hself (.assignment htarget hvalue) (by rintro _ ⟨⟩; rfl) hp hs
  | pipeline hne hterms => exact hself (.pipeline hne hterms) (by rintro _ ⟨⟩; rfl) hp hs
  | keyed hvalue => exact hself (.keyed hvalue) (by rintro _ ⟨⟩; rfl) hp hs
  | param hne => exact hself (.param hne) (by rintro _ ⟨⟩; rfl) hp hs
  | configuration name hitems =>
    exact hself (.configuration name hitems) (by rintro _ ⟨⟩; rfl) hp hs
  | node htarget hitems => exact hself (.node htarget hitems) (by rintro _ ⟨⟩; rfl) hp hs
  | command harguments hpiped =>
    exact hself (.command harguments hpiped) (by rintro _ ⟨⟩; rfl) hp hs
  | textBody hopens hcloses hbalanced harguments hitems =>
    exact hself (.textBody hopens hcloses hbalanced harguments hitems) (by rintro _ ⟨⟩; rfl) hp hs
  | block hopens harguments hname hnamed hitems hkeyed =>
    exact hself (.block hopens harguments hname hnamed hitems hkeyed) (by rintro _ ⟨⟩; rfl) hp hs
  | _ =>
    obtain rfl := List.mem_singleton.mp hp
    cases hs

/-- What a statement contributes to an array accounts for its marks, if it is not kept as text. -/
theorem accounts_contributed {s : Statement}
    (h : (Node.statement s).Accounts source tokens mark) :
    (∃ n ∈ (contributed s).map Term.asNode, n.Accounts source tokens mark) ∨
      contributed s = [.expression (.unrecognized s.extent)] := by
  unfold contributed
  split
  · obtain ⟨child, hchild, h⟩ := h.exists_child
    exact .inl ⟨child, hchild, h⟩
  · obtain ⟨child, hchild, h⟩ := h.exists_child
    obtain rfl := List.mem_singleton.mp hchild
    exact .inl (h.exists_child_of_expression nofun)
  · exact .inl h.exists_child
  · exact .inr rfl

/-- Two values joined by a comma account for the marks of the first one. -/
theorem accounts_joinValues {e : Expression} (f : Expression)
    (h : (Node.expression e).Accounts source tokens mark) :
    (Node.expression (joinValues source e f)).Accounts source tokens mark := by
  rw [joinValues_eq]
  unfold joined
  split
  · obtain ⟨child, hchild, h⟩ := h.exists_child_of_expression nofun
    refine h.of_child ?_
    rw [Node.children, List.map_append]
    exact List.mem_append_left _ hchild
  · exact h.of_child List.mem_cons_self

theorem mem_children_joinValues (e f : Expression) :
    Node.expression f ∈ (Node.expression (joinValues source e f)).children := by
  rw [joinValues_eq]
  unfold joined
  split <;> simp [Node.children, Term.asNode]

/-- The marks of an assignment to a key are those of its value. -/
theorem accounts_value {extent : Extent} {key : Token} {value : Statement}
    (h : (Node.statement (.assignment extent (bareString key) value)).Accounts source tokens mark) :
    (Node.statement value).Accounts source tokens mark := by
  obtain ⟨child, hchild, h⟩ := h.exists_child
  rcases List.mem_cons.mp hchild with rfl | hchild
  · obtain ⟨_, hnone, -⟩ := h.exists_child_of_expression nofun
    cases hnone
  · obtain rfl := List.mem_singleton.mp hchild
    exact h

/-- A mark of phrases is one of a phrase. -/
theorem accounts_flatMap {α : Type} {f : α → Phrase} {g : α → List Mark} {parent : Node}
    (hmarks : ∀ x, (f x).marks = g x) {xs : List α}
    (h : ∀ p ∈ xs.map f, mark ∈ p.marks → p.node.Accounts source tokens mark)
    (hchildren : ∀ x ∈ xs, (f x).node ∈ parent.children) (hmark : mark ∈ xs.flatMap g) :
    parent.Accounts source tokens mark := by
  obtain ⟨x, hx, hmark⟩ := List.mem_flatMap.mp hmark
  exact (h _ (List.mem_map_of_mem hx) (hmarks x ▸ hmark)).of_child (hchildren x hx)

/-- **Every mark is accounted for.** -/
theorem Derives.accounts (h : Derives source ts ps) (hin : ts <:+: tokens) {p : Phrase}
    (hp : p ∈ ps) (hmark : mark ∈ p.marks) : p.node.Accounts source tokens mark := by
  have hfront {ts us : List Token} (hin : ts ++ us <:+: tokens) : ts <:+: tokens :=
    (List.prefix_append _ _).isInfix.trans hin
  have hback {ts us : List Token} (hin : ts ++ us <:+: tokens) : us <:+: tokens :=
    (List.suffix_append _ _).isInfix.trans hin
  have hcons {t : Token} {ts : List Token} (hin : t :: ts <:+: tokens) : ts <:+: tokens :=
    (List.suffix_cons _ _).isInfix.trans hin
  induction h generalizing p mark with
  | nil => cases hp
  | append _ _ ihp ihq =>
    rcases List.mem_append.mp hp with hp | hp
    · exact ihp (hfront hin) hp hmark
    · exact ihq (hback hin) hp hmark
  | leaf | parameter | param =>
    obtain rfl := List.mem_singleton.mp hp
    cases hmark
  | member members htarget ih =>
    obtain rfl := List.mem_singleton.mp hp
    exact (ih (hfront hin) List.mem_cons_self hmark).of_child List.mem_cons_self
  | @unrecognized ts us base hbase ih =>
    obtain rfl := List.mem_singleton.mp hp
    have hbelow := ih (hfront hin) List.mem_cons_self hmark
    have hderives : Derives source (ts ++ us) _ := .unrecognized hbase
    exact ⟨_, .self, .kept (.unrecognized hin (.tokens (hderives.ne_nil (by simp))))
      (hderives.mark_mem List.mem_cons_self hmark) hbelow.role⟩
  | @array opening closing inner items hitems ih =>
    obtain rfl := List.mem_singleton.mp hp
    have hinner := hfront (hcons hin)
    obtain ⟨item, hitem, hmark⟩ := List.mem_flatMap.mp hmark
    have hbelow := ih hinner (List.mem_map_of_mem hitem) hmark
    have hpart : ∀ n ∈ (contributed item.statement).map Term.asNode,
        n ∈ (Node.expression (.array (.ofTokens source (opening :: inner ++ [closing])) true
          (items.flatMap fun item => contributed item.statement))).children := by
      intro n hn
      obtain ⟨term, hterm, rfl⟩ := List.mem_map.mp hn
      exact List.mem_map_of_mem (List.mem_flatMap.mpr ⟨item, hitem, hterm⟩)
    rcases accounts_contributed hbelow with ⟨n, hn, h⟩ | htext
    · exact h.of_child (hpart n hn)
    · obtain ⟨taken, htaken, hspans, hmarks⟩ :=
        hitems.statement_span (List.mem_map_of_mem hitem) rfl
      refine Accounts.of_child (hpart (.expression (.unrecognized item.statement.extent)) ?_)
        ⟨_, .self, .kept (.unrecognized (htaken.trans hinner) hspans) (hmarks _ hmark) hbelow.role⟩
      rw [htext]
      exact List.mem_cons_self
  | list hne hall ih =>
    obtain rfl := List.mem_singleton.mp hp
    refine accounts_flatMap (fun _ => rfl) (fun p hp hm => ih hin hp hm) (fun e he => ?_) hmark
    exact List.mem_map_of_mem (List.mem_map_of_mem he)
  | @table opening closing inner entries hentries ih =>
    obtain rfl := List.mem_singleton.mp hp
    refine Accounts.of_child (List.mem_cons_self (l := [])) ?_
    refine accounts_flatMap (fun _ => rfl) (fun p hp hm => ih (hfront (hcons hin)) hp hm)
      (fun e he => ?_) hmark
    exact List.mem_map_of_mem (List.mem_map_of_mem he)
  | entry hvalue ih =>
    obtain rfl := List.mem_singleton.mp hp
    exact (ih (hcons hin) List.mem_cons_self hmark).of_child List.mem_cons_self
  | argument _ _ ih | expressionTerm _ ih | value _ ih | plain _ ih =>
    obtain rfl := List.mem_singleton.mp hp
    have hread := ih hin List.mem_cons_self hmark
    exact hread
  | joined he hf _ ihe ihf =>
    obtain rfl := List.mem_singleton.mp hp
    rcases List.mem_append.mp hmark with hmark | hmark
    · have hread := ihe (hfront hin) List.mem_cons_self hmark
      exact accounts_joinValues _ hread
    · have hread := ihf (hback hin) List.mem_cons_self hmark
      exact hread.of_child (mem_children_joinValues _ _)
  | commandTerm harguments ih =>
    obtain rfl := List.mem_singleton.mp hp
    refine accounts_flatMap (fun _ => rfl) (fun p hp hm => ih (hcons hin) hp hm) (fun e he => ?_)
      hmark
    exact List.mem_map_of_mem (List.mem_map_of_mem he)
  | assignment htarget hvalue iht ihv =>
    obtain rfl := List.mem_singleton.mp hp
    rcases List.mem_append.mp hmark with hmark | hmark
    · exact (iht (hfront hin) List.mem_cons_self hmark).of_child List.mem_cons_self
    · exact (ihv (hback hin) List.mem_cons_self hmark).of_child
        (List.mem_cons_of_mem _ List.mem_cons_self)
  | pipeline hne hterms ih =>
    obtain rfl := List.mem_singleton.mp hp
    refine accounts_flatMap (fun _ => rfl) (fun p hp hm => ih hin hp hm) (fun e he => ?_) hmark
    exact List.mem_map_of_mem (List.mem_map_of_mem he)
  | keyed hvalue ih =>
    obtain rfl := List.mem_singleton.mp hp
    exact (ih (hcons hin) List.mem_cons_self hmark).of_child
      (List.mem_cons_of_mem _ List.mem_cons_self)
  | configuration name hitems ih =>
    obtain rfl := List.mem_singleton.mp hp
    refine accounts_flatMap (fun _ => rfl) (fun p hp hm => ih (hcons hin) hp hm) (fun e he => ?_)
      hmark
    exact List.mem_map_of_mem (List.mem_map_of_mem he)
  | node htarget hitems iht ihi =>
    obtain rfl := List.mem_singleton.mp hp
    rcases List.mem_append.mp hmark with hmark | hmark
    · exact (iht (hfront (hcons hin)) List.mem_cons_self hmark).of_child List.mem_cons_self
    · refine accounts_flatMap (fun _ => rfl) (fun p hp hm => ihi (hback (hcons hin)) hp hm)
        (fun e he => ?_) hmark
      exact List.mem_cons_of_mem _ (List.mem_map_of_mem (List.mem_map_of_mem he))
  | command harguments hpiped iha ihp =>
    obtain rfl := List.mem_singleton.mp hp
    rcases List.mem_append.mp hmark with hmark | hmark
    · refine Accounts.of_child List.mem_cons_self (accounts_flatMap (fun _ => rfl)
        (fun p hp hm => iha (hfront (hcons hin)) hp hm) (fun e he => ?_) hmark)
      exact List.mem_map_of_mem (List.mem_map_of_mem he)
    · refine accounts_flatMap (fun _ => rfl) (fun p hp hm => ihp (hback (hcons hin)) hp hm)
        (fun e he => ?_) hmark
      exact List.mem_cons_of_mem _ (List.mem_map_of_mem (List.mem_map_of_mem he))
  | @textBody head opening closing ts inner arguments items hopens hcloses hbalanced harguments
      hitems iha ihi =>
    obtain rfl := List.mem_singleton.mp hp
    have hbrackets := hback (hcons hin)
    refine Accounts.of_child List.mem_cons_self ?_
    rcases List.mem_append.mp hmark with hmark | hmark
    · refine accounts_flatMap (fun _ => rfl) (fun p hp hm => iha (hfront (hcons hin)) hp hm)
        (fun e he => ?_) hmark
      exact List.mem_map_of_mem (List.mem_map_of_mem he)
    · obtain ⟨item, hitem, hmark⟩ := List.mem_flatMap.mp hmark
      have hread : Phrase.item item ∈ items.map .item :=
        List.mem_map_of_mem ((List.takeWhile_sublist _).subset hitem)
      have hbelow := ihi (hfront (hcons hbrackets)) hread hmark
      exact ⟨_, .self, .kept (.braces hin (.tokens (by simp)) hopens hcloses hbalanced)
        (hitems.mark_mem hread hmark) hbelow.role⟩
  | @block head opening closing ts inner arguments items name keyed _ harguments hname _ hitems hkeyed
      iha ihi =>
    obtain rfl := List.mem_singleton.mp hp
    refine Accounts.of_child List.mem_cons_self ?_
    rcases List.mem_append.mp hmark with hmark | hmark
    · rcases List.mem_append.mp hmark with hmark | hmark
      · refine accounts_flatMap (fun _ => rfl) (fun p hp hm => iha (hfront (hcons hin)) hp hm)
          (fun a ha => List.mem_append_left _ ?_) hmark
        rw [← blockName?_nodes hname]
        exact List.mem_map_of_mem (List.mem_map_of_mem ha)
      · rcases List.mem_append.mp hmark with hmark | hmark
        · obtain ⟨item, hitem, hmark⟩ := List.mem_flatMap.mp hmark
          obtain ⟨⟨key, value⟩, hpair, hk⟩ := exists_result_of_mapM hkeyed hitem
          have hread := ihi (hfront (hcons (hback (hcons hin)))) (List.mem_map_of_mem hitem) hmark
          obtain ⟨-, extent, hs⟩ := hitems.keyed_statement (List.mem_map_of_mem hitem) hk
          rw [Phrase.node, hs] at hread
          have hentry : (Node.entry ⟨key.text, key.location, value⟩).Accounts source tokens mark :=
            (accounts_value hread).of_child List.mem_cons_self
          refine Accounts.of_child (List.mem_append_right _ List.mem_cons_self)
            (hentry.of_child ?_)
          exact List.mem_map_of_mem (List.mem_map_of_mem hpair)
        · obtain ⟨⟨key, value⟩, hpair, rfl⟩ := List.mem_map.mp hmark
          obtain ⟨item, hitem, hk⟩ := exists_of_mem_mapM hkeyed hpair
          have hmem := (hitems.keyed_statement (List.mem_map_of_mem hitem) hk).1
          refine ⟨_, .self, .key ((hfront (hcons (hback (hcons hin)))).subset hmem) ?_⟩
          exact ⟨_, List.mem_map_of_mem hpair, rfl, rfl⟩
    · unfold headMarks at hmark
      split at hmark
      · next hnamed =>
        obtain rfl := List.mem_singleton.mp hmark
        exact ⟨_, .self, .head (hin.subset List.mem_cons_self) ⟨hnamed, rfl, rfl⟩⟩
      · cases hmark

end Grammar

/-! ### What is marked

This is the other direction.  A named block marks its head and its keys when it is read,
and what is read around it adds marks and takes none away.
-/

/-- A block is read from the word at its head, the tokens of its name, the brace that opens its
body, and what comes then.  The head, if there is a name, and the keys are marked. -/
structure Block.ReadFrom (source : Text) (marks : List Mark) (b : Block) (head : Token)
    (between : List Token) (opening : Token) (inner : List Token) : Prop where
  keyword : b.keyword = head.text
  location : b.keywordLocation = head.location
  marked : b.instanceName.isSome → ⟨head.start.offset, .dynamicKeyword⟩ ∈ marks
  name : ∀ e, b.instanceName = some e → e.IsName source between
  opens : opening.kind = .braceOpen
  body : b.body.extent.location = opening.location
  keys : ∀ entry ∈ b.body.entries, ∃ t ∈ inner, entry.key = t.text ∧
    entry.keyLocation = t.location ∧ ⟨t.start.offset, .identifier⟩ ∈ marks

/-- A block that stands somewhere in tokens, and in it, behind its head, the blocks within it. -/
inductive Block.Marked (source : Text) (marks : List Mark) : List Token → Block → Prop
  | intro {b : Block} {head opening : Token} {between inner : List Token}
    (before after : List Token) (hread : b.ReadFrom source marks head between opening inner)
    (hwithin : ∀ child ∈ (Node.block b).children, ∀ b', child.Holds (.block b') →
      Marked source marks (between ++ opening :: inner) b') :
    Marked source marks (before ++ head :: (between ++ opening :: inner) ++ after) b

namespace Block.Marked

variable {b : Block} {marks marks' : List Mark}

theorem mono (h : b.Marked source marks ts) (htokens : ts <:+: us) (hmarks : marks ⊆ marks') :
    b.Marked source marks' us := by
  induction h generalizing us with
  | @intro b head opening between inner before after hread hwithin ih =>
    obtain ⟨front, behind, rfl⟩ := htokens
    have hagain : b.ReadFrom source marks' head between opening inner :=
      { hread with
        marked := fun hnamed => hmarks (hread.marked hnamed)
        keys := fun entry hentry =>
          have ⟨t, ht, hkey, hplace, hmark⟩ := hread.keys entry hentry
          ⟨t, ht, hkey, hplace, hmarks hmark⟩ }
    have hmarked := intro (front ++ before) (after ++ behind) hagain
      fun child hchild b' hb' => ih child hchild b' hb' (List.infix_refl _)
    simpa only [List.append_assoc] using hmarked

theorem keyword (h : b.Marked source marks ts) :
    ∃ t ∈ ts, b.keyword = t.text ∧ b.keywordLocation = t.location := by
  cases h with
  | intro before after hread hwithin => exact ⟨_, by simp, hread.keyword, hread.location⟩

theorem head (h : b.Marked source marks ts) (hnamed : b.instanceName.isSome) :
    ∃ t ∈ ts, b.IsHead t.text t.location ∧ ⟨t.start.offset, .dynamicKeyword⟩ ∈ marks := by
  cases h with
  | intro before after hread hwithin =>
    exact ⟨_, by simp, ⟨hnamed, hread.keyword, hread.location⟩, hread.marked hnamed⟩

theorem keys (h : b.Marked source marks ts) (entry : Entry) (hentry : entry ∈ b.body.entries) :
    ∃ t ∈ ts, entry.key = t.text ∧ entry.keyLocation = t.location ∧
      ⟨t.start.offset, .identifier⟩ ∈ marks := by
  cases h with
  | intro before after hread hwithin =>
    obtain ⟨t, ht, hkey⟩ := hread.keys entry hentry
    exact ⟨t, by simp [ht], hkey⟩

end Block.Marked

/-- All blocks within a node are marked. -/
def Node.Marked (source : Text) (tokens : List Token) (marks : List Mark) (n : Node) : Prop :=
  ∀ b, n.Holds (.block b) → b.Marked source marks tokens

namespace Node.Marked

variable {n : Node} {marks marks' : List Mark}

theorem mono (h : n.Marked source ts marks) (htokens : ts <:+: us) (hmarks : marks ⊆ marks') :
    n.Marked source us marks' := fun b hb => (h b hb).mono htokens hmarks

theorem part (h : n.Marked source ts marks) {child : Node} (hchild : child ∈ n.children) :
    child.Marked source ts marks := fun b hb => h b (hb.of_child hchild)

theorem of_children (hn : n.isBlock = false)
    (h : ∀ child ∈ n.children, child.Marked source ts marks) : n.Marked source ts marks := by
  intro b hb
  rcases hb.eq_or_child with rfl | ⟨child, hchild, hb⟩
  · cases hn
  · exact h child hchild b hb

theorem of_block {b : Block} {head opening : Token} {between inner : List Token}
    (hread : b.ReadFrom source marks head between opening inner)
    (h : ∀ child ∈ (Node.block b).children,
      child.Marked source (between ++ opening :: inner) marks) (after : List Token) :
    (Node.block b).Marked source (head :: (between ++ opening :: inner) ++ after) marks := by
  intro b' hb'
  rcases hb'.eq_or_child with heq | ⟨child, hchild, hb'⟩
  · cases heq
    exact .intro [] after hread h
  · exact (h child hchild b' hb').mono ⟨[head], after, rfl⟩ (List.Subset.refl _)

end Node.Marked

namespace Grammar

open Node

variable {marks : List Mark}

/-- What a statement contributes to an array is marked if the statement is. -/
theorem marked_contributed {s : Statement} (h : (Node.statement s).Marked source ts marks) :
    ∀ n ∈ (contributed s).map Term.asNode, n.Marked source ts marks := by
  unfold contributed
  split
  · exact fun n hn => h.part hn
  · intro n hn
    have hlist : (Node.expression (.array _ false _)).Marked source ts marks :=
      h.part List.mem_cons_self
    exact hlist.part hn
  · exact fun n hn => h.part hn
  · intro n hn
    obtain rfl := List.mem_singleton.mp hn
    exact .of_children rfl (List.forall_mem_nil _)

/-- Two values joined by a comma are marked if both are. -/
theorem marked_joinValues {e f : Expression} (he : (Node.expression e).Marked source ts marks)
    (hf : (Node.expression f).Marked source ts marks) :
    (Node.expression (joinValues source e f)).Marked source ts marks := by
  rw [joinValues_eq]
  refine .of_children rfl fun child hchild => ?_
  unfold joined at hchild
  split at hchild
  · rw [Node.children, List.map_append] at hchild
    rcases List.mem_append.mp hchild with hchild | hchild
    · exact he.part hchild
    · exact List.mem_singleton.mp hchild ▸ hf
  · rcases List.mem_cons.mp hchild with rfl | hchild
    · exact he
    · exact List.mem_singleton.mp hchild ▸ hf

theorem infix_cons_left (t : Token) (ts us : List Token) : ts <:+: t :: (ts ++ us) :=
  ⟨[t], us, rfl⟩

theorem infix_cons_right (t : Token) (ts us : List Token) : us <:+: t :: (ts ++ us) :=
  ⟨t :: ts, [], List.append_nil _⟩

/-- Phrases that are marked one by one are marked together. -/
theorem marked_phrases {α : Type} {f : α → Phrase} {g : α → List Mark} {xs : List α}
    (hmarks : ∀ x, (f x).marks = g x)
    (h : ∀ p ∈ xs.map f, p.node.Marked source ts p.marks) (htokens : ts <:+: us)
    (hsub : xs.flatMap g ⊆ marks) : ∀ n ∈ xs.map fun x => (f x).node, n.Marked source us marks := by
  intro n hn
  obtain ⟨x, hx, rfl⟩ := List.mem_map.mp hn
  refine (h _ (List.mem_map_of_mem hx)).mono htokens fun mark hmark => hsub ?_
  exact List.mem_flatMap.mpr ⟨x, hx, hmarks x ▸ hmark⟩

/-- **Every head and every key is marked**, where it stands. -/
theorem Derives.marked (h : Derives source ts ps) {p : Phrase} (hp : p ∈ ps) :
    p.node.Marked source ts p.marks := by
  induction h generalizing p with
  | nil => cases hp
  | append _ _ ihp ihq =>
    rcases List.mem_append.mp hp with hp | hp
    · exact (ihp hp).mono (List.prefix_append _ _).isInfix (List.Subset.refl _)
    · exact (ihq hp).mono (List.suffix_append _ _).isInfix (List.Subset.refl _)
  | @leaf ts e hleaf hextent =>
    obtain rfl := List.mem_singleton.mp hp
    cases e with
    | member | array | table => cases hleaf
    | _ => exact .of_children rfl (List.forall_mem_nil _)
  | parameter | param | unrecognized =>
    obtain rfl := List.mem_singleton.mp hp
    exact .of_children rfl (List.forall_mem_nil _)
  | member members htarget ih =>
    obtain rfl := List.mem_singleton.mp hp
    have htarget := ih List.mem_cons_self
    refine .of_children rfl (List.forall_mem_singleton.mpr ?_)
    exact htarget.mono (List.prefix_append _ _).isInfix (List.Subset.refl _)
  | @array opening closing inner items hitems ih =>
    obtain rfl := List.mem_singleton.mp hp
    refine .of_children rfl fun child hchild => ?_
    obtain ⟨term, hterm, rfl⟩ := List.mem_map.mp hchild
    obtain ⟨item, hitem, hterm⟩ := List.mem_flatMap.mp hterm
    have hread := marked_contributed (ih (List.mem_map_of_mem hitem)) _ (List.mem_map_of_mem hterm)
    refine hread.mono ⟨[opening], [closing], rfl⟩ ?_
    exact fun mark hmark => List.mem_flatMap.mpr ⟨item, hitem, hmark⟩
  | list hne hall ih =>
    obtain rfl := List.mem_singleton.mp hp
    refine .of_children (n := .expression (.array _ _ _)) rfl ?_
    rw [Node.children, List.map_map]
    exact marked_phrases (fun _ => rfl) (fun p hp => ih hp) (List.infix_refl _)
      (List.Subset.refl _)
  | table hentries ih =>
    obtain rfl := List.mem_singleton.mp hp
    refine .of_children rfl (List.forall_mem_singleton.mpr ?_)
    refine .of_children (n := .table _) rfl ?_
    rw [Node.children, List.map_map]
    exact marked_phrases (fun _ => rfl) (fun p hp => ih hp) (infix_cons_left _ _ _)
      (List.Subset.refl _)
  | entry hvalue ih =>
    obtain rfl := List.mem_singleton.mp hp
    have hread := ih List.mem_cons_self
    refine .of_children rfl (List.forall_mem_singleton.mpr ?_)
    exact hread.mono (List.suffix_cons _ _).isInfix (List.Subset.refl _)
  | argument _ _ ih | expressionTerm _ ih | value _ ih | plain _ ih =>
    obtain rfl := List.mem_singleton.mp hp
    have hread := ih List.mem_cons_self
    exact hread
  | joined he hf _ ihe ihf =>
    obtain rfl := List.mem_singleton.mp hp
    have hfirst := ihe List.mem_cons_self
    have hsecond := ihf List.mem_cons_self
    exact marked_joinValues
      (hfirst.mono (List.prefix_append _ _).isInfix (List.subset_append_left _ _))
      (hsecond.mono (List.suffix_append _ _).isInfix (List.subset_append_right _ _))
  | commandTerm harguments ih =>
    obtain rfl := List.mem_singleton.mp hp
    refine .of_children (n := .command _) rfl ?_
    rw [Node.children, List.map_map]
    exact marked_phrases (fun _ => rfl) (fun p hp => ih hp) (List.suffix_cons _ _).isInfix
      (List.Subset.refl _)
  | assignment htarget hvalue iht ihv =>
    obtain rfl := List.mem_singleton.mp hp
    have htarget := iht List.mem_cons_self
    have hvalue := ihv List.mem_cons_self
    refine .of_children (n := .statement (.assignment _ _ _)) rfl ?_
    exact List.forall_mem_cons.mpr
      ⟨htarget.mono (List.prefix_append _ _).isInfix (List.subset_append_left _ _),
        List.forall_mem_singleton.mpr
          (hvalue.mono (List.suffix_append _ _).isInfix (List.subset_append_right _ _))⟩
  | pipeline hne hterms ih =>
    obtain rfl := List.mem_singleton.mp hp
    refine .of_children (n := .statement (.pipeline _ _)) rfl ?_
    rw [Node.children, List.map_map]
    exact marked_phrases (fun _ => rfl) (fun p hp => ih hp) (List.infix_refl _)
      (List.Subset.refl _)
  | keyed hvalue ih =>
    obtain rfl := List.mem_singleton.mp hp
    have hread := ih List.mem_cons_self
    refine .of_children (n := .statement (.assignment _ _ _)) rfl ?_
    exact List.forall_mem_cons.mpr ⟨.of_children rfl (List.forall_mem_nil _),
      List.forall_mem_singleton.mpr
        (hread.mono (List.suffix_cons _ _).isInfix (List.Subset.refl _))⟩
  | configuration name hitems ih =>
    obtain rfl := List.mem_singleton.mp hp
    refine .of_children (n := .statement (.configuration _ _ _)) rfl ?_
    rw [Node.children, List.map_map]
    exact marked_phrases (fun _ => rfl) (fun p hp => ih hp) (List.suffix_cons _ _).isInfix
      (List.Subset.refl _)
  | node htarget hitems iht ihi =>
    obtain rfl := List.mem_singleton.mp hp
    have htarget := iht List.mem_cons_self
    refine .of_children (n := .statement (.node _ _ _)) rfl ?_
    rw [Node.children, List.map_map]
    refine List.forall_mem_cons.mpr
      ⟨htarget.mono (infix_cons_left _ _ _) (List.subset_append_left _ _), ?_⟩
    exact marked_phrases (fun _ => rfl) (fun p hp => ihi hp) (infix_cons_right _ _ _)
      (List.subset_append_right _ _)
  | @command head ts us arguments piped harguments hpiped iha ihp =>
    obtain rfl := List.mem_singleton.mp hp
    refine .of_children (n := .statement (.pipeline _ _)) rfl ?_
    rw [Node.children, List.map_cons, List.map_map]
    refine List.forall_mem_cons.mpr ⟨.of_children (n := .command _) rfl ?_, ?_⟩
    · rw [Node.children, List.map_map]
      exact marked_phrases (fun _ => rfl) (fun p hp => iha hp) (infix_cons_left _ _ _)
        (List.subset_append_left _ _)
    · exact marked_phrases (fun _ => rfl) (fun p hp => ihp hp) (infix_cons_right _ _ _)
        (List.subset_append_right _ _)
  | textBody _ _ _ harguments hitems iha ihi =>
    obtain rfl := List.mem_singleton.mp hp
    refine .of_children (n := .statement (.pipeline _ _)) rfl
      (List.forall_mem_singleton.mpr (.of_children (n := .command _) rfl ?_))
    rw [Node.children, List.map_map]
    exact marked_phrases (fun _ => rfl) (fun p hp => iha hp) (infix_cons_left _ _ _)
      (List.subset_append_left _ _)
  | @block head opening closing ts inner arguments items name keyed hopens harguments hname hnamed
      hitems hkeyed iha ihi =>
    obtain rfl := List.mem_singleton.mp hp
    rw [show head :: (ts ++ (opening :: inner ++ [closing])) =
      head :: (ts ++ opening :: inner) ++ [closing] by simp]
    refine .of_children (n := .statement (.block _)) rfl
      (List.forall_mem_singleton.mpr (.of_block ⟨rfl, rfl, fun hsome => ?_, hnamed, hopens, rfl,
        fun entry hentry => ?_⟩ ?_ _))
    · refine List.mem_append_right _ ?_
      rw [headMarks, if_pos hsome]
      exact List.mem_cons_self
    · obtain ⟨⟨key, value⟩, hpair, rfl⟩ := List.mem_map.mp hentry
      obtain ⟨item, hitem, hk⟩ := exists_of_mem_mapM hkeyed hpair
      have hmem := (hitems.keyed_statement (List.mem_map_of_mem hitem) hk).1
      refine ⟨key, hmem, rfl, rfl, List.mem_append_left _ (List.mem_append_right _
        (List.mem_append_right _ ?_))⟩
      exact List.mem_map_of_mem (f := fun (pair : Token × Statement) =>
        (⟨pair.1.start.offset, .identifier⟩ : Mark)) hpair
    · rw [Node.children, ← blockName?_nodes hname, List.map_map]
      refine List.forall_mem_append.mpr ⟨?_, List.forall_mem_singleton.mpr
        (.of_children (n := .table _) rfl fun child hchild => ?_)⟩
      · exact marked_phrases (fun _ => rfl) (fun p hp => iha hp) (List.prefix_append _ _).isInfix
          (List.subset_append_of_subset_left _ (List.subset_append_left _ _))
      · rw [Node.children, List.map_map] at hchild
        obtain ⟨⟨key, value⟩, hpair, rfl⟩ := List.mem_map.mp hchild
        obtain ⟨item, hitem, hk⟩ := exists_of_mem_mapM hkeyed hpair
        obtain ⟨-, extent, hs⟩ := hitems.keyed_statement (List.mem_map_of_mem hitem) hk
        have hread := ihi (List.mem_map_of_mem hitem)
        rw [Phrase.node, hs] at hread
        have hvalue : (Node.statement value).Marked source inner item.marks :=
          hread.part (List.mem_cons_of_mem _ List.mem_cons_self)
        refine .of_children rfl (List.forall_mem_singleton.mpr (hvalue.mono
          ((List.suffix_cons _ _).isInfix.trans (List.suffix_append _ _).isInfix) ?_))
        intro mark hmark
        exact List.mem_append_left _ (List.mem_append_right _ (List.mem_append_left _
          (List.mem_flatMap.mpr ⟨item, hitem, hmark⟩)))

end Grammar

end DesiredState

/-
Where blocks and their entries are read.

A block is read by the rule for commands, from a bare word on, and the entries of its
body are keys with values.  Each value was read by itself, somewhere among the tokens of
the script, so its text is one that states it.  What is said here of one item is handed
down as in `Sections`: from a script to a configuration, from there to a node block, and
from a block to the statements of its body.
-/
import DesiredState.Proofs.Script.Stretch

namespace DesiredState

namespace Grammar

open Reading

variable {source : Text} {tokens : List Token}

/-! ### Which rules read blocks and keys

A statement does not say which rule has read it.  As only one rule makes blocks, and one
makes keys, this can be told from the node.
-/

section Rules

variable {below : Level}

/-- Whether a statement is a block. -/
def isBlock : Statement → Bool
  | .block _ => true
  | _ => false

/-- Only the rule for commands reads blocks, and only from bare words. -/
theorem block_ok {c c' : Cursor} {item : Item} (h : statement source below c = .ok (item, c'))
    (hb : isBlock item.statement) :
    c.nextIs (· == .bareword) ∧ command source below c = .ok (item, c') := by
  rcases statement_cases h with hrule | hrule | hrule | ⟨hname, hrule⟩ | ⟨read, rfl, hrule⟩
  · obtain ⟨-, _, _, _, hmade⟩ := yields_configuration _ _ _ hrule
    rw [hmade] at hb
    cases hb
  · obtain ⟨-, _, _, _, hmade⟩ := yields_node _ _ _ hrule
    rw [hmade] at hb
    cases hb
  · obtain ⟨-, _, hmade⟩ := yields_param _ _ _ hrule
    rw [hmade] at hb
    cases hb
  · rcases wordStatement_ok hrule with hkeyed | ⟨hcommand, hkeyword⟩
    · obtain ⟨_, _, _, hmade⟩ := yields_keyed _ _ _ hkeyed
      rw [hmade] at hb
      cases hb
    · refine ⟨?_, hcommand⟩
      obtain ⟨t, rest, hrest, ht⟩ := Nesting.nextIs_iff.mp hname
      have hk : t.kind.isKeyword = false := by
        rw [Cursor.nextIs, hrest] at hkeyword
        exact hkeyword
      refine Nesting.nextIs_iff.mpr ⟨t, rest, hrest, ?_⟩
      cases hkind : t.kind <;> rw [hkind] at ht hk <;>
        first | rfl | exact absurd ht Bool.false_ne_true | exact absurd hk Bool.noConfusion
  · rcases yields_expressionOrAssignment _ _ _ hrule with ⟨_, _, _, hmade⟩ | ⟨_, _, hmade⟩ <;>
      · rw [hmade] at hb
        cases hb

/-- Only the rule for keys reads keys, and only from names. -/
theorem keyed_ok {c c' : Cursor} {item : Item} (h : statement source below c = .ok (item, c'))
    (hk : item.keyed?.isSome) :
    c.nextIs TokenKind.isName ∧ keyed source below c = .ok (item, c') := by
  rcases statement_cases h with hrule | hrule | hrule | ⟨hname, hrule⟩ | ⟨read, rfl, hrule⟩
  · rw [(yields_configuration _ _ _ hrule).1] at hk
    cases hk
  · rw [(yields_node _ _ _ hrule).1] at hk
    cases hk
  · rw [(yields_param _ _ _ hrule).1] at hk
    cases hk
  · rcases wordStatement_ok hrule with hkeyed | ⟨hcommand, -⟩
    · exact ⟨hname, hkeyed⟩
    · rw [(yields_command _ _ _ hcommand).1] at hk
      cases hk
  · cases hk

/-- Whether a statement is an assignment. -/
def isAssignment : Statement → Bool
  | .assignment .. => true
  | _ => false

/-- Assignments are keys with values, or expressions that something is assigned to. -/
theorem assignment_ok {c c' : Cursor} {item : Item}
    (h : statement source below c = .ok (item, c')) (ha : isAssignment item.statement) :
    keyed source below c = .ok (item, c') ∨ ∃ read, item = ⟨read.node, none, read.marks⟩ ∧
      expressionOrAssignment source below c = .ok (read, c') := by
  rcases statement_cases h with hrule | hrule | hrule | ⟨-, hrule⟩ | ⟨read, hread, hrule⟩
  · obtain ⟨-, _, _, _, hmade⟩ := yields_configuration _ _ _ hrule
    rw [hmade] at ha
    cases ha
  · obtain ⟨-, _, _, _, hmade⟩ := yields_node _ _ _ hrule
    rw [hmade] at ha
    cases ha
  · obtain ⟨-, _, hmade⟩ := yields_param _ _ _ hrule
    rw [hmade] at ha
    cases ha
  · rcases wordStatement_ok hrule with hkeyed | ⟨hcommand, -⟩
    · exact .inl hkeyed
    · obtain ⟨-, ⟨_, hmade⟩ | ⟨_, _, hmade⟩⟩ := yields_command _ _ _ hcommand <;>
        · rw [hmade] at ha
          cases ha
  · exact .inr ⟨read, hread, hrule⟩

/-- What a command reads to become a block. -/
theorem command_ok {c c' : Cursor} {item : Item} {b : Block}
    (h : command source below c = .ok (item, c')) (hitem : item.statement = .block b) :
    ∃ head arguments list bodyExtent marks, ∃ first second third : Cursor,
      token c = .ok (head, first) ∧
      commandArguments source below entersArgument first = .ok (arguments, second) ∧
      body source below second = .ok ((list, bodyExtent), third) ∧ b.keyword = head.text ∧
      entriesOf list = (some b.body.entries, marks) := by
  obtain ⟨build, hbuild, rfl⟩ := spanning_ok h
  obtain ⟨head, first, hhead, hrest⟩ := Nesting.bind_ok hbuild
  obtain ⟨arguments, second, harguments, hrest⟩ := Nesting.bind_ok hrest
  obtain ⟨read, third, hread, hrest⟩ := Nesting.bind_ok hrest
  obtain ⟨piped, fourth, -, hpure⟩ := Nesting.bind_ok hrest
  cases hpure
  unfold commandOrBlock at hitem
  simp only [] at hitem
  split at hitem
  · next inner bodyExtent name _ _ _ _ =>
    split at hitem
    · next entries marks hentries =>
      cases hitem
      obtain ⟨opens, middle, hopens, hbranch⟩ := Nesting.bind_ok hread
      obtain rfl : middle = second := by cases hopens; rfl
      split at hbranch
      · obtain ⟨found, last, hbody, hsome⟩ := Nesting.bind_ok hbranch
        cases hsome
        exact ⟨head, arguments, inner, bodyExtent, marks, first, _, _, hhead, harguments, hbody,
          rfl, hentries⟩
      · cases hbranch
    · cases hitem
  · cases hitem

end Rules

/-- Entries are keyed statements of the body. -/
theorem mem_of_entriesOf {list : List Item} {entries : List Entry} {marks : List Mark}
    (h : entriesOf list = (some entries, marks)) {e : Entry} (he : e ∈ entries) :
    ∃ x ∈ list, ∃ key : Token, x.keyed? = some (key, e.value) ∧ e.key = key.text := by
  unfold entriesOf at h
  split at h
  · next keyedItems hkeyed =>
    cases h
    obtain ⟨⟨key, value⟩, hmem, rfl⟩ := List.mem_map.mp he
    obtain ⟨x, hx, hfound⟩ := exists_of_mem_mapM hkeyed hmem
    exact ⟨x, hx, key, hfound, rfl⟩
  · cases h

/-! ### Among the tokens of a script

Reading goes down level by level, and what a level reads is among the tokens of the one
above.  So whatever stands in a tree was read somewhere among the tokens of the script.
-/

/-- A value was read by a level somewhere among tokens. -/
def ValueAmong (source : Text) (tokens : List Token) (s : Statement) : Prop :=
  ∃ (levels : Nat) (c c' : Cursor) (v : Marked Statement),
    c.consumed.reverse ++ c.rest = tokens ∧ (level source levels).value c = .ok (v, c') ∧ v.node = s

/-- The statements of a node block were read among the same tokens. -/
theorem ReadAmong.nodeBody {item : Item} (h : ReadAmong source tokens item) {extent : Extent}
    {target : Expression} {statements : List Statement}
    (hitem : item.statement = .node extent target statements) :
    ∃ list : List Item, statements = list.map Item.statement ∧
      ∀ x ∈ list, ReadAmong source tokens x := by
  obtain ⟨levels, c, c', hc, hread⟩ := h
  cases levels with
  | zero => cases hread
  | succ levels =>
    rcases statement_ok hread (by rw [hitem]; rfl) with hrule | hrule
    · obtain ⟨build, hbuild, rfl⟩ := spanning_ok hrule
      obtain ⟨_, _, -, hrest⟩ := Nesting.bind_ok hbuild
      obtain ⟨_, _, -, hrest⟩ := Nesting.bind_ok hrest
      obtain ⟨_, _, -, hpure⟩ := Nesting.bind_ok hrest
      cases hpure
      cases hitem
    · obtain ⟨build, hbuild, rfl⟩ := spanning_ok (node_eq source _ ▸ hrule)
      obtain ⟨keyword, first, hkeyword, hrest⟩ := Nesting.bind_ok hbuild
      obtain ⟨aimed, second, htarget, hrest⟩ := Nesting.bind_ok hrest
      obtain ⟨read, last, hbody, hpure⟩ := Nesting.bind_ok hrest
      cases hpure
      obtain ⟨opening, closing, inner, after, -, -, hopening, hinner, hlist, -, -⟩ := body_ok hbody
      have hplace := ((hc.token (token_ok hkeyword).1 (token_ok hkeyword).2).after
        (Nesting.reads_target source (Nesting.below_level source levels) _) htarget).token
          hopening hinner
      refine ⟨read.1, ?_, fun x hx => ⟨levels, ?_⟩⟩
      · cases hitem
        rfl
      · exact readAmong_of_items hlist ⟨hplace.1, Nat.le_trans hplace.2 (by omega)⟩ hx

/-- A block starts with a bare word, and the statements of its body were read among the same
tokens. -/
theorem ReadAmong.block {item : Item} (h : ReadAmong source tokens item) {b : Block}
    (hitem : item.statement = .block b) :
    (∃ t ∈ tokens, t.kind = .bareword ∧ b.keyword = t.text) ∧
      ∃ (list : List Item) (marks : List Mark), entriesOf list = (some b.body.entries, marks) ∧
        ∀ x ∈ list, ReadAmong source tokens x := by
  obtain ⟨levels, c, c', hc, hread⟩ := h
  cases levels with
  | zero => cases hread
  | succ levels =>
    obtain ⟨hword, hcommand⟩ := block_ok hread (by rw [hitem]; rfl)
    obtain ⟨head, arguments, list, bodyExtent, marks, first, second, third, hhead, harguments, hbody,
      hkeyword, hentries⟩ := command_ok hcommand hitem
    obtain ⟨opening, closing, inner, after, -, -, hopening, hinner, hlist, -, -⟩ := body_ok hbody
    have hfirst := hc.token (token_ok hhead).1 (token_ok hhead).2
    have hplace := (hfirst.after (Nesting.reads_commandArguments source
      (Nesting.below_level source levels) _ _) harguments).token hopening hinner
    refine ⟨⟨head, ?_, ?_, hkeyword⟩, list, marks, hentries, fun x hx => ⟨levels, ?_⟩⟩
    · rw [← hc.1, (token_ok hhead).1]
      simp
    · obtain ⟨t, rest, hrest, ht⟩ := Nesting.nextIs_iff.mp hword
      rw [(token_ok hhead).1] at hrest
      cases hrest
      exact beq_iff_eq.mp ht
    · exact readAmong_of_items hlist ⟨hplace.1, Nat.le_trans hplace.2 (by omega)⟩ hx

/-- A key is a name, and its value was read among the same tokens. -/
theorem ReadAmong.keyed {item : Item} (h : ReadAmong source tokens item) {key : Token}
    {value : Statement} (hitem : item.keyed? = some (key, value)) :
    key ∈ tokens ∧ key.kind.isName ∧ ValueAmong source tokens value := by
  obtain ⟨levels, c, c', hc, hread⟩ := h
  cases levels with
  | zero => cases hread
  | succ levels =>
    obtain ⟨hname, hkeyed⟩ := keyed_ok hread (by rw [hitem]; rfl)
    obtain ⟨build, hbuild, rfl⟩ := spanning_ok hkeyed
    obtain ⟨head, first, hhead, hrest⟩ := Nesting.bind_ok hbuild
    obtain ⟨sign, second, hsign, hrest⟩ := Nesting.bind_ok hrest
    obtain ⟨v, last, hv, hpure⟩ := Nesting.bind_ok hrest
    cases hpure
    cases hitem
    have hplace := (hc.token (token_ok hhead).1 (token_ok hhead).2).token (expect_ok hsign).2.1
      (expect_ok hsign).2.2
    refine ⟨?_, ?_, levels, second, c', v, hplace.1, hv, rfl⟩
    · rw [← hc.1, (token_ok hhead).1]
      simp
    · obtain ⟨t, rest, hrest, ht⟩ := Nesting.nextIs_iff.mp hname
      rw [(token_ok hhead).1] at hrest
      cases hrest
      exact ht

/-- The value of an assignment was read among the same tokens. -/
theorem ReadAmong.assignment {item : Item} (h : ReadAmong source tokens item) {extent : Extent}
    {target : Expression} {value : Statement}
    (hitem : item.statement = .assignment extent target value) :
    ValueAmong source tokens value := by
  obtain ⟨levels, c, c', hc, hread⟩ := h
  cases levels with
  | zero => cases hread
  | succ levels =>
    rcases assignment_ok hread (by rw [hitem]; rfl) with hrule | ⟨read, rfl, hrule⟩
    · obtain ⟨build, hbuild, rfl⟩ := spanning_ok hrule
      obtain ⟨head, first, hhead, hrest⟩ := Nesting.bind_ok hbuild
      obtain ⟨sign, second, hsign, hrest⟩ := Nesting.bind_ok hrest
      obtain ⟨v, last, hv, hpure⟩ := Nesting.bind_ok hrest
      cases hpure
      cases hitem
      have hplace := (hc.token (token_ok hhead).1 (token_ok hhead).2).token (expect_ok hsign).2.1
        (expect_ok hsign).2.2
      exact ⟨levels, second, _, v, hplace.1, hv, rfl⟩
    · obtain ⟨build, hbuild, rfl⟩ := spanning_ok hrule
      obtain ⟨assigned, first, hassigned, hrest⟩ := Nesting.bind_ok hbuild
      obtain ⟨sign, middle, hsign, hbranch⟩ := Nesting.bind_ok hrest
      obtain rfl : middle = first := by cases hsign; rfl
      have hfirst := hc.after (Nesting.reads_expression source (Nesting.below_level source levels) _)
        hassigned
      split at hbranch
      · obtain ⟨equals, second, hequals, hrest⟩ := Nesting.bind_ok hbranch
        obtain ⟨v, last, hv, hpure⟩ := Nesting.bind_ok hrest
        cases hpure
        cases hitem
        have hplace := hfirst.token (token_ok hequals).1 (token_ok hequals).2
        exact ⟨levels, second, _, v, hplace.1, hv, rfl⟩
      · obtain ⟨_, _, -, hpure⟩ := Nesting.bind_ok hbranch
        cases hpure
        cases hitem

end Grammar

/-! ### What the texts of a script state -/

namespace Piece

variable {pieces : List Piece}

/-- A part of pieces in which no block comment can open. -/
theorem IsClosed.isStretch_of_not_infix {front part behind : List Piece} (hpart : IsClosed part)
    (h : Lexes (front ++ (part ++ behind)) [])
    (hopen : ¬ ['<', '#'] <:+: textOf (front ++ (part ++ behind))) : IsStretch part := by
  refine hpart.isStretch h (Text.closesComments_of_not_infix fun hin => hopen ?_)
  rw [textOf_append, textOf_append, ← List.append_assoc]
  exact List.IsInfix.trans hin (List.infix_append _ _ _)

/-- A name among the tokens of a source is a word by itself. -/
theorem isWord_of_mem (h : Lexes pieces []) (hopen : ¬ ['<', '#'] <:+: textOf pieces) {t : Token}
    (ht : t ∈ tokens .start pieces) (hk : t.kind.isName) : Token.IsWord t.kind t.text := by
  obtain ⟨front, behind, hsplit⟩ := List.append_of_mem ht
  obtain ⟨first, piece, rest, rfl, hpiece, -, rfl, -⟩ := tokens_eq_append_cons hsplit
  have hclosed : IsClosed [piece] :=
    ⟨List.cons_ne_nil _ _, by rintro _ ⟨⟩; exact hpiece, by rintro _ ⟨⟩; exact hpiece⟩
  have hnext := ((hclosed.isStretch_of_not_infix h hopen).lexes [] .nil).1
  rw [IsNext, textOf_nil, List.append_nil, List.append_nil] at hnext
  exact ⟨hk, hnext⟩

/-- The text of a value that was read among the tokens of a source states the value, if it closes
the block comments that it opens. -/
theorem states_of_valueAmong (h : Lexes pieces [])
    {s : Statement} (hs : Grammar.ValueAmong (textOf pieces) (tokens .start pieces) s)
    (hclosed : s.extent.text <:+: textOf pieces → s.extent.text.ClosesComments) :
    s.extent.text.States s := by
  obtain ⟨levels, ⟨back, ahead⟩, c', v, hall, hv, rfl⟩ := hs
  obtain ⟨taken, hahead, hback, hlength, -⟩ :=
    (Nesting.below_level (textOf pieces) levels).value _ _ _ hv
  obtain ⟨back', ahead'⟩ := c'
  obtain rfl : ahead = taken ++ ahead' := hahead
  obtain rfl : back' = taken.reverse ++ back := hback
  have hne : taken ≠ [] := by
    rintro rfl
    exact absurd hlength (by decide)
  obtain ⟨first, part, rest, rfl, hpart, rfl⟩ := exists_isClosed hall.symm hne
  have hstands : Stands (textOf (first ++ (part ++ rest))) (stop .start first) part := by
    have hwhole : Stands (textOf (first ++ (part ++ rest))) .start (first ++ (part ++ rest)) :=
      ⟨[], [], by simp, rfl⟩
    exact hwhole.right.left
  have htext : v.node.extent.text = textOf part := by
    cases levels with
    | zero => cases hv
    | succ levels => rw [Grammar.extent_value hne hv, hpart.ofTokens hstands]
  rw [htext] at hclosed
  have hstretch := hpart.isStretch h (hclosed ⟨textOf first, textOf rest, by simp⟩)
  exact ⟨part, _, _, levels, back, ahead', v, hstretch, htext.symm, rfl, hv⟩

end Piece

end DesiredState

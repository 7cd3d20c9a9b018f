/-
Where configurations and node blocks are read.

A statement of a parsed script was read somewhere among its tokens, and so was every
statement of a configuration and of a node block in it.  `ReadAmong` says this of one
item; it is handed down from the script to a configuration in it and from there to a
node block, whose body stands between two braces that belong together.
-/
import DesiredState.Proofs.Script.Transfer

namespace DesiredState

/-! ### What readings that succeed have done

Nothing is asked here about failures.  What is returned was read by some rule from some
cursor, and this is followed backwards through binds and loops.
-/

namespace Reading

variable {α β : Type}

/-- Whatever a reading gives, something holds of it. -/
def Yields (r : Reading α) (P : α → Prop) : Prop := ∀ c a c', r c = .ok (a, c') → P a

namespace Yields

theorem pure {P : α → Prop} {a : α} (h : P a) : Yields (Pure.pure a) P := by
  intro c b c' hb
  cases hb
  exact h

theorem reject {P : α → Prop} {cause : GrammarError.Cause} : Yields (Reading.reject cause) P := by
  intro c a c' h
  cases h

theorem bind {P : β → Prop} {r : Reading α} {f : α → Reading β} (h : ∀ a, Yields (f a) P) :
    Yields (r >>= f) P := by
  intro c b c' hb
  obtain ⟨a, middle, -, hf⟩ := Nesting.bind_ok hb
  exact h a middle b c' hf

/-- What is read first matters for what is read then. -/
theorem andThen {Q : α → Prop} {P : β → Prop} {r : Reading α} {f : α → Reading β}
    (hr : Yields r Q) (h : ∀ a, Q a → Yields (f a) P) : Yields (r >>= f) P := by
  intro c b c' hb
  obtain ⟨a, middle, ha, hf⟩ := Nesting.bind_ok hb
  exact h a (hr c a middle ha) middle b c' hf

theorem spanning {P : α → Prop} {source : Text} {r : Reading (Extent → α)}
    (h : Yields r fun build => ∀ e, P (build e)) : Yields (Reading.spanning source r) P := by
  intro c a c' ha
  unfold Reading.spanning at ha
  cases hr : r c with
  | error e => rw [hr] at ha; cases ha
  | ok result =>
    rw [hr] at ha
    cases ha
    exact h c _ _ hr _

end Yields

theorem spanning_ok {source : Text} {r : Reading (Extent → α)} {c c' : Cursor} {a : α}
    (h : spanning source r c = .ok (a, c')) :
    ∃ build, r c = .ok (build, c') ∧ a = build (extentBetween source c c') := by
  unfold spanning at h
  cases hr : r c with
  | error e => rw [hr] at h; cases h
  | ok result =>
    rw [hr] at h
    cases h
    exact ⟨result.1, rfl, rfl⟩

theorem token_ok {c c' : Cursor} {t : Token} (h : token c = .ok (t, c')) :
    c.rest = t :: c'.rest ∧ c'.consumed = t :: c.consumed := by
  unfold token at h
  split at h
  · next first rest hrest =>
    cases h
    exact ⟨hrest, rfl⟩
  · cases h

theorem expect_ok {kind : TokenKind} {c c' : Cursor} {t : Token} (h : expect kind c = .ok (t, c')) :
    t.kind = kind ∧ c.rest = t :: c'.rest ∧ c'.consumed = t :: c.consumed := by
  unfold expect tokenOf at h
  split at h
  · next first rest hrest =>
    split at h
    · next hk =>
      cases h
      exact ⟨beq_iff_eq.mp hk, hrest, rfl⟩
    · cases h
  · cases h

/-- Every result of a loop was read somewhere. -/
theorem mem_of_whileAtMost {enter : Cursor → Bool} {r : Reading α} {n : Nat} {c c' : Cursor}
    {list : List α} (h : whileAtMost enter r n c = .ok (list, c')) {P : Cursor → Prop} (hc : P c)
    (hstep : ∀ c a c', P c → r c = .ok (a, c') → P c') {a : α} (ha : a ∈ list) :
    ∃ before after, P before ∧ r before = .ok (a, after) := by
  induction n generalizing c list with
  | zero =>
    cases h
    cases ha
  | succ n ih =>
    change (if enter c then _ else _ : Reading (List α)) _ = _ at h
    by_cases he : enter c
    · rw [if_pos he] at h
      obtain ⟨first, middle, hfirst, hmore⟩ := Nesting.bind_ok h
      obtain ⟨others, last, hothers, hlast⟩ := Nesting.bind_ok hmore
      cases hlast
      rcases List.mem_cons.mp ha with rfl | ha
      · exact ⟨c, middle, hc, hfirst⟩
      · exact ih hothers (hstep c first middle hc hfirst) ha
    · rw [if_neg he] at h
      cases h
      cases ha

end Reading

namespace Grammar

open Reading

/-! ### Among the tokens of a script

A cursor stands among tokens if what it has read and what is to come make them up.  The
levels below have at least as much room as there are tokens, so that none of them gives
up for lack of it.
-/

/-- A cursor stands among tokens, of which no more are to come than there are levels. -/
def StandsAmong (tokens : List Token) (levels : Nat) (c : Cursor) : Prop :=
  c.consumed.reverse ++ c.rest = tokens ∧ c.rest.length ≤ levels

/-- An item was read by a level somewhere among tokens. -/
def ReadAmong (source : Text) (tokens : List Token) (item : Item) : Prop :=
  ∃ levels c c', StandsAmong tokens levels c ∧ (level source levels).statement c = .ok (item, c')

variable {source : Text} {tokens : List Token}

/-- A reading goes on among the tokens. -/
theorem StandsAmong.after {α : Type} {r : Reading α} {levels least : Nat} {c c' : Cursor} {a : α}
    {before after : List TokenKind} (h : StandsAmong tokens levels c)
    (hr : Nesting.Reads c least before after r) (ha : r c = .ok (a, c')) :
    StandsAmong tokens (levels - least) c' := by
  obtain ⟨taken, hrest, hconsumed, hleast, -⟩ := hr a c' ha
  obtain ⟨hall, hlevels⟩ := h
  refine ⟨?_, ?_⟩
  · rw [hconsumed, List.reverse_append, List.reverse_reverse, List.append_assoc, ← hrest, hall]
  · rw [hrest, List.length_append] at hlevels
    omega

theorem StandsAmong.token {levels : Nat} {c c' : Cursor} {t : Token}
    (h : StandsAmong tokens levels c) (hrest : c.rest = t :: c'.rest)
    (hconsumed : c'.consumed = t :: c.consumed) : StandsAmong tokens (levels - 1) c' := by
  obtain ⟨hall, hlevels⟩ := h
  refine ⟨?_, ?_⟩
  · rw [hconsumed, List.reverse_cons, List.append_assoc, List.singleton_append, ← hrest, hall]
  · rw [hrest, List.length_cons] at hlevels
    omega

theorem isContent_of_semicolon (kind : TokenKind) (h : (kind == .semicolon) = true) :
    kind.isContent := by
  rw [beq_iff_eq.mp h]
  rfl

/-- All items of a list were read among the tokens where the list was. -/
theorem readAmong_of_items {levels : Nat} {c c' : Cursor} {list : List Item}
    (h : items (level source levels) (· == .semicolon) c = .ok (list, c'))
    (hc : StandsAmong tokens levels c) {item : Item} (hitem : item ∈ list) :
    ∃ before after, StandsAmong tokens levels before ∧
      (level source levels).statement before = .ok (item, after) := by
  obtain ⟨all, last, hall, hlast⟩ := Nesting.bind_ok h
  cases hlast
  have hstep (c : Cursor) (a : Option Item) (c' : Cursor) (hc : StandsAmong tokens levels c)
      (ha : itemOr (level source levels) (· == .semicolon) c = .ok (a, c')) :
      StandsAmong tokens levels c' := by
    have hafter := hc.after (Nesting.reads_itemOr (Nesting.below_level source levels)
      isContent_of_semicolon c) ha
    exact ⟨hafter.1, Nat.le_trans hafter.2 (Nat.sub_le _ _)⟩
  obtain ⟨found, hmem, hfound⟩ := List.mem_filterMap.mp hitem
  obtain rfl : found = some item := hfound
  obtain ⟨before, after, hbefore, hread⟩ := mem_of_whileAtMost hall hc hstep hmem
  refine ⟨before, ?_⟩
  unfold itemOr at hread
  obtain ⟨separated, middle, hseparated, hbranch⟩ := Nesting.bind_ok hread
  obtain rfl : middle = before := by cases hseparated; rfl
  split at hbranch
  · obtain ⟨_, _, -, hnone⟩ := Nesting.bind_ok hbranch
    cases hnone
  · obtain ⟨_, after', hitem', hsome⟩ := Nesting.bind_ok hbranch
    cases hsome
    exact ⟨_, hbefore, hitem'⟩

/-- The items of a script were read among its tokens. -/
theorem readAmong_of_script {read : List Item} (h : script source tokens = .ok read) {item : Item}
    (hitem : item ∈ read) : ReadAmong source tokens item := by
  obtain ⟨c, -, hitems⟩ := script_ok h
  exact ⟨_, readAmong_of_items hitems ⟨rfl, Nat.le_refl _⟩ hitem⟩

/-! ### Rules -/

/-- Whether a statement is a configuration or a node block. -/
def isSection : Statement → Bool
  | .configuration .. | .node .. => true
  | _ => false

variable {below : Level}

/-- What starts with a word is a key with its value, or a command if the word is no keyword. -/
theorem wordStatement_ok {c c' : Cursor} {item : Item}
    (h : wordStatement source below c = .ok (item, c')) :
    keyed source below c = .ok (item, c') ∨
      command source below c = .ok (item, c') ∧ c.nextIs TokenKind.isKeyword = false := by
  obtain ⟨back, ahead⟩ := c
  match ahead with
  | [] => cases h
  | [first] =>
    rw [Parallel.wordStatement_of_one _ _ rfl] at h
    split at h
    · exact .inl h
    · next hk => exact .inr ⟨h, Bool.eq_false_iff.mpr hk⟩
  | first :: second :: rest =>
    rw [Parallel.wordStatement_of_two _ _ rfl] at h
    split at h
    · exact .inl h
    · next hk => exact .inr ⟨h, Bool.eq_false_iff.mpr fun hf => hk (by rw [show
        first.kind.isKeyword = true from hf, Bool.true_or])⟩

/-! #### What each rule makes -/

theorem yields_configuration : Yields (configuration source below) fun item =>
    item.keyed? = none ∧ ∃ extent name body, item.statement = .configuration extent name body :=
  Yields.spanning <| Yields.bind fun _ => Yields.bind fun _ => Yields.bind fun _ =>
    Yields.pure fun _ => ⟨rfl, _, _, _, rfl⟩

theorem yields_node : Yields (node source below) fun item =>
    item.keyed? = none ∧ ∃ extent target body, item.statement = .node extent target body := by
  rw [node_eq]
  exact Yields.spanning <| Yields.bind fun _ => Yields.bind fun _ => Yields.bind fun _ =>
    Yields.pure fun _ => ⟨rfl, _, _, _, rfl⟩

theorem yields_param : Yields (param source) fun item =>
    item.keyed? = none ∧ ∃ extent, item.statement = .param extent :=
  Yields.spanning <| Yields.bind fun _ => Yields.bind fun _ => Yields.pure fun _ => ⟨rfl, _, rfl⟩

theorem yields_keyed : Yields (keyed source below) fun item =>
    ∃ extent target value, item.statement = .assignment extent target value :=
  Yields.spanning <| Yields.bind fun _ => Yields.bind fun _ => Yields.bind fun _ =>
    Yields.pure fun _ => ⟨_, _, _, rfl⟩

theorem yields_command : Yields (command source below) fun item => item.keyed? = none ∧
    ((∃ b, item.statement = .block b) ∨
      ∃ extent elements, item.statement = .pipeline extent elements) := by
  refine Yields.spanning <| Yields.bind fun _ => Yields.bind fun _ => Yields.bind fun _ =>
    Yields.bind fun _ => Yields.pure fun _ => ?_
  unfold commandOrBlock
  simp only []
  split
  · split
    · exact ⟨rfl, .inl ⟨_, rfl⟩⟩
    · exact ⟨rfl, .inr ⟨_, _, rfl⟩⟩
  · exact ⟨rfl, .inr ⟨_, _, rfl⟩⟩

theorem yields_expressionOrAssignment : Yields (expressionOrAssignment source below) fun read =>
    (∃ extent target value, read.node = .assignment extent target value) ∨
      ∃ extent elements, read.node = .pipeline extent elements := by
  refine Yields.spanning <| Yields.bind fun _ => Yields.bind fun _ => ?_
  split
  · exact Yields.bind fun _ => Yields.bind fun _ => Yields.pure fun _ => .inl ⟨_, _, _, rfl⟩
  · exact Yields.bind fun _ => Yields.pure fun _ => .inr ⟨_, _, rfl⟩

/-- The rules that a statement can be read by. -/
theorem statement_cases {c c' : Cursor} {item : Item}
    (h : statement source below c = .ok (item, c')) :
    configuration source below c = .ok (item, c') ∨ node source below c = .ok (item, c') ∨
      param source c = .ok (item, c') ∨
      (c.nextIs TokenKind.isName ∧ wordStatement source below c = .ok (item, c')) ∨
      ∃ read, item = ⟨read.node, none, read.marks⟩ ∧
        expressionOrAssignment source below c = .ok (read, c') := by
  obtain ⟨place, middle, hplace, hrule⟩ := Nesting.bind_ok h
  obtain ⟨rfl, rfl⟩ : place = c ∧ middle = c := by cases hplace; exact ⟨rfl, rfl⟩
  have hother (ho : (expressionOrAssignment source below >>= fun read =>
      Pure.pure (⟨read.node, none, read.marks⟩ : Item)) middle = .ok (item, c')) :
      ∃ read, item = ⟨read.node, none, read.marks⟩ ∧
        expressionOrAssignment source below middle = .ok (read, c') := by
    obtain ⟨read, last, hread, hpure⟩ := Nesting.bind_ok ho
    cases hpure
    exact ⟨read, rfl, hread⟩
  simp only [] at hrule
  generalize hk : middle.nextKind? = kind at hrule
  have hname {kind' : TokenKind} (hkind : kind = some kind') (hn : kind'.isName) :
      middle.nextIs TokenKind.isName := by
    rw [Nesting.nextIs_of_nextKind? (hk.trans hkind), hn]
  cases kind with
  | none => exact .inr (.inr (.inr (.inr (hother hrule))))
  | some kind =>
    cases kind with
    | configuration =>
      simp only [] at hrule
      split at hrule
      · exact .inl hrule
      · split at hrule
        · exact .inr (.inr (.inr (.inl ⟨hname rfl rfl, hrule⟩)))
        · cases hrule
    | node =>
      simp only [] at hrule
      split at hrule
      · exact .inr (.inl hrule)
      · split at hrule
        · exact .inr (.inr (.inr (.inl ⟨hname rfl rfl, hrule⟩)))
        · cases hrule
    | param =>
      simp only [] at hrule
      split at hrule
      · exact .inr (.inr (.inl hrule))
      · split at hrule
        · exact .inr (.inr (.inr (.inl ⟨hname rfl rfl, hrule⟩)))
        · cases hrule
    | bareword => exact .inr (.inr (.inr (.inl ⟨hname rfl rfl, hrule⟩)))
    | _ => exact .inr (.inr (.inr (.inr (hother hrule))))

/-- A statement that is a configuration or a node block was read by their rules. -/
theorem statement_ok {c c' : Cursor} {item : Item}
    (h : statement source below c = .ok (item, c')) (hs : isSection item.statement) :
    configuration source below c = .ok (item, c') ∨ node source below c = .ok (item, c') := by
  rcases statement_cases h with hrule | hrule | hrule | ⟨-, hrule⟩ | ⟨read, rfl, hrule⟩
  · exact .inl hrule
  · exact .inr hrule
  · obtain ⟨-, _, hmade⟩ := yields_param _ _ _ hrule
    rw [hmade] at hs
    cases hs
  · rcases wordStatement_ok hrule with hkeyed | ⟨hcommand, -⟩
    · obtain ⟨_, _, _, hmade⟩ := yields_keyed _ _ _ hkeyed
      rw [hmade] at hs
      cases hs
    · obtain ⟨-, ⟨_, hmade⟩ | ⟨_, _, hmade⟩⟩ := yields_command _ _ _ hcommand <;>
        · rw [hmade] at hs
          cases hs
  · rcases yields_expressionOrAssignment _ _ _ hrule with ⟨_, _, _, hmade⟩ | ⟨_, _, hmade⟩ <;>
      · rw [hmade] at hs
        cases hs

/-- A body is a brace, items and a brace. -/
theorem body_ok {c c' : Cursor} {read : List Item × Extent}
    (h : body source below c = .ok (read, c')) :
    ∃ opening closing inner last, opening.kind = .braceOpen ∧ closing.kind = .braceClose ∧
      c.rest = opening :: inner.rest ∧ inner.consumed = opening :: c.consumed ∧
      items below (· == .semicolon) inner = .ok (read.1, last) ∧
      last.rest = closing :: c'.rest ∧ c'.consumed = closing :: last.consumed := by
  obtain ⟨build, hbuild, rfl⟩ := spanning_ok h
  obtain ⟨opening, inner, hopening, hrest⟩ := Nesting.bind_ok hbuild
  obtain ⟨list, last, hlist, hrest⟩ := Nesting.bind_ok hrest
  obtain ⟨closing, after, hclosing, hpure⟩ := Nesting.bind_ok hrest
  cases hpure
  obtain ⟨hk, hnext, hconsumed⟩ := expect_ok hopening
  obtain ⟨hk', hnext', hconsumed'⟩ := expect_ok hclosing
  exact ⟨opening, closing, inner, last, hk, hk', hnext, hconsumed, hlist, hnext', hconsumed'⟩

/-- The statements of a configuration were read among the same tokens. -/
theorem ReadAmong.configuration {item : Item} (h : ReadAmong source tokens item) {extent : Extent}
    {name : Text} {statements : List Statement}
    (hitem : item.statement = .configuration extent name statements) :
    ∃ list : List Item, statements = list.map Item.statement ∧ ∀ x ∈ list, ReadAmong source tokens x := by
  obtain ⟨levels, c, c', hc, hread⟩ := h
  cases levels with
  | zero => cases hread
  | succ levels =>
    rcases statement_ok hread (by rw [hitem]; rfl) with hrule | hrule
    · obtain ⟨build, hbuild, rfl⟩ := spanning_ok hrule
      obtain ⟨keyword, first, hkeyword, hrest⟩ := Nesting.bind_ok hbuild
      obtain ⟨named, second, hnamed, hrest⟩ := Nesting.bind_ok hrest
      obtain ⟨read, last, hbody, hpure⟩ := Nesting.bind_ok hrest
      cases hpure
      obtain ⟨opening, closing, inner, after, -, -, hopening, hinner, hlist, -, -⟩ := body_ok hbody
      have hplace := ((hc.token (token_ok hkeyword).1 (token_ok hkeyword).2).token
        (token_ok hnamed).1 (token_ok hnamed).2).token hopening hinner
      refine ⟨read.1, ?_, fun x hx => ⟨levels, ?_⟩⟩
      · cases hitem
        rfl
      · exact readAmong_of_items hlist ⟨hplace.1, Nat.le_trans hplace.2 (by omega)⟩ hx
    · obtain ⟨build, hbuild, rfl⟩ := spanning_ok (node_eq source _ ▸ hrule)
      obtain ⟨_, _, -, hrest⟩ := Nesting.bind_ok hbuild
      obtain ⟨_, _, -, hrest⟩ := Nesting.bind_ok hrest
      obtain ⟨_, _, -, hpure⟩ := Nesting.bind_ok hrest
      cases hpure
      cases hitem

/-- How a node block was read: from its keyword to a brace, which belongs to the one before the
items of its body. -/
structure NodeReading (source : Text) (tokens : List Token) (extent : Extent)
    (statements : List Statement) where
  levels : Nat
  keyword : Token
  before : List Token
  opening : Token
  inner : List Token
  closing : Token
  after : List Token
  list : List Item
  tokens_eq : tokens = before ++ opening :: inner ++ closing :: after
  keyword_mem : keyword ∈ before
  opens : opening.kind = .braceOpen
  closes : closing.kind = .braceClose
  extent_eq : extent = ⟨source.slice keyword.start.offset closing.stop.offset, keyword.location⟩
  statements_eq : statements = list.map Item.statement
  read : items (level source levels) (· == .semicolon)
    ⟨opening :: before.reverse, inner ++ closing :: after⟩ =
      .ok (list, ⟨inner.reverse ++ opening :: before.reverse, closing :: after⟩)
  enough : inner.length ≤ levels
  balanced : Nesting.Balanced inner

theorem ReadAmong.node {item : Item} (h : ReadAmong source tokens item) {extent : Extent}
    {target : Expression} {statements : List Statement}
    (hitem : item.statement = .node extent target statements) :
    Nonempty (NodeReading source tokens extent statements) := by
  obtain ⟨levels, c, c', ⟨hall, hlevels⟩, hread⟩ := h
  cases levels with
  | zero => cases hread
  | succ levels =>
    rcases statement_ok hread (by rw [hitem]; rfl) with hrule | hrule
    · obtain ⟨build, hbuild, rfl⟩ := spanning_ok hrule
      obtain ⟨_, _, -, hrest⟩ := Nesting.bind_ok hbuild
      obtain ⟨_, _, -, hrest⟩ := Nesting.bind_ok hrest
      obtain ⟨_, _, -, hpure⟩ := Nesting.bind_ok hrest
      cases hpure
      cases hitem
    · have hnests := Nesting.below_level source levels
      obtain ⟨build, hbuild, rfl⟩ := spanning_ok (node_eq source _ ▸ hrule)
      obtain ⟨keyword, first, hkeyword, hrest⟩ := Nesting.bind_ok hbuild
      obtain ⟨target', second, htarget, hrest⟩ := Nesting.bind_ok hrest
      obtain ⟨read, last, hbody, hpure⟩ := Nesting.bind_ok hrest
      cases hpure
      obtain ⟨hfirst, hback⟩ := token_ok hkeyword
      obtain ⟨aimed, hsecond, hback', -, -⟩ := Nesting.reads_target source hnests _ _ _ htarget
      obtain ⟨opening, closing, inner, ending, hopens, hcloses, hopening, hinner, hlist, hclosing,
        hback''⟩ := body_ok hbody
      obtain ⟨taken, htaken, hending, -, hbalanced⟩ :=
        Nesting.reads_items hnests isContent_of_semicolon _ _ _ hlist
      have hconsumed : second.consumed = aimed.reverse ++ keyword :: c.consumed := by
        rw [hback', hback]
      obtain ⟨innerBack, innerRest⟩ := inner
      obtain ⟨endBack, endRest⟩ := ending
      simp only at hopening hinner hclosing hback'' htaken hending
      have hbefore : (second.consumed.reverse).reverse = second.consumed := List.reverse_reverse _
      refine ⟨⟨levels, keyword, second.consumed.reverse, opening, taken, closing, c'.rest, read.1,
        ?_, ?_, hopens, hcloses, ?_, ?_, ?_, ?_, hbalanced⟩⟩
      · rw [← hall, hconsumed, hfirst, hsecond, hopening, htaken, hclosing]
        simp
      · rw [hconsumed]
        simp
      · cases hitem
        unfold extentBetween
        rw [hfirst, hback'']
      · cases hitem
        rfl
      · rw [hbefore, ← hinner, ← hclosing, ← htaken, ← hending]
        exact hlist
      · rw [hfirst, hsecond, hopening, htaken] at hlevels
        simp only [List.length_cons, List.length_append] at hlevels
        omega

end Grammar

end DesiredState

/-
What the rules read is derived.

Each rule is opened once: of the tokens it reads and of what it makes of them a derivation
is put together from those of the rules it calls.  Where a rule keeps what it reads as
text only, `Nesting` says which tokens these were, and no phrase stands over them.
-/
import DesiredState.Proofs.Script.Derivation

namespace DesiredState

/-! ### Readings

What a rule reads is told by the cursors before and after it: the tokens between them
are what it stands over.  Rules that are followed by others put their tokens together.
-/

/-- From one cursor to another these tokens are read. -/
structure Cursor.Steps (c : Cursor) (ts : List Token) (c' : Cursor) : Prop where
  rest : c.rest = ts ++ c'.rest
  consumed : c'.consumed = ts.reverse ++ c.consumed

namespace Cursor.Steps

variable {c c' c'' : Cursor} {ts us : List Token}

theorem refl (c : Cursor) : c.Steps [] c := ⟨rfl, rfl⟩

theorem trans (h : c.Steps ts c') (h' : c'.Steps us c'') : c.Steps (ts ++ us) c'' where
  rest := by rw [h.rest, h'.rest, List.append_assoc]
  consumed := by rw [h'.consumed, h.consumed, List.reverse_append, List.append_assoc]

theorem one {t : Token} (hrest : c.rest = t :: c'.rest)
    (hconsumed : c'.consumed = t :: c.consumed) :
    c.Steps [t] c' := ⟨hrest, hconsumed⟩

theorem token {t : Token} (h : Reading.token c = .ok (t, c')) : c.Steps [t] c' :=
  one (Reading.token_ok h).1 (Reading.token_ok h).2

theorem expect {kind : TokenKind} {t : Token} (h : Reading.expect kind c = .ok (t, c')) :
    c.Steps [t] c' := one (Reading.expect_ok h).2.1 (Reading.expect_ok h).2.2

theorem extentBetween_eq (h : c.Steps ts c') (source : Text) (hne : ts ≠ []) :
    Reading.extentBetween source c c' = .ofTokens source ts := by
  obtain ⟨back, ahead⟩ := c
  obtain ⟨back', ahead'⟩ := c'
  obtain rfl : ahead = ts ++ ahead' := h.rest
  obtain rfl : back' = ts.reverse ++ back := h.consumed
  exact Reading.extentBetween_eq source back ahead' hne

/-- What is known to be read. -/
theorem of_reads {α : Type} {r : Reading α} {least : Nat} {before after : List TokenKind}
    (hr : Nesting.Reads c least before after r) {a : α} (h : r c = .ok (a, c')) :
    ∃ ts, c.Steps ts c' ∧ least ≤ ts.length ∧ Nesting.Moves before after ts := by
  obtain ⟨ts, hrest, hconsumed, hleast, hmoves⟩ := hr a c' h
  exact ⟨ts, ⟨hrest, hconsumed⟩, hleast, hmoves⟩

end Cursor.Steps

namespace Grammar

open Reading

/-- Of what is read from a cursor and the tokens that are read something holds. -/
def BuildsAt {α : Type} (c : Cursor) (r : Reading α) (P : List Token → α → Prop) : Prop :=
  ∀ a c', r c = .ok (a, c') → ∃ ts, c.Steps ts c' ∧ P ts a

/-- Whatever is read has phrases over the tokens that are read. -/
def Builds (source : Text) {α : Type} (r : Reading α) (phrases : α → List Phrase) : Prop :=
  ∀ c, BuildsAt c r fun ts a => Derives source ts (phrases a)

namespace BuildsAt

variable {α : Type} {c : Cursor} {P : List Token → α → Prop}

/-- The cursor may be asked before. -/
theorem get {f : Cursor → Reading α} (h : BuildsAt c (f c) P) :
    BuildsAt c (MonadState.get >>= f) P := h

theorem nextIs {p : TokenKind → Bool} {f : Bool → Reading α} (h : BuildsAt c (f (c.nextIs p)) P) :
    BuildsAt c (Reading.nextIs p >>= f) P := h

/-- What is read again and again stands over parts of the tokens. -/
theorem whileAtMost {r : Reading α} (h : ∀ c, BuildsAt c r P) (enter : Cursor → Bool) (n : Nat) :
    BuildsAt c (Reading.whileAtMost enter r n) fun ts list =>
      ∃ parts : List (List Token), ts = parts.flatten ∧ List.Forall₂ P parts list := by
  induction n generalizing c with
  | zero =>
    intro list c' hr
    cases hr
    exact ⟨[], .refl _, [], rfl, .nil⟩
  | succ n ih =>
    intro list c' hr
    change (if enter c then _ else _ : Reading (List α)) _ = _ at hr
    by_cases he : enter c
    · rw [if_pos he] at hr
      obtain ⟨first, middle, hfirst, hmore⟩ := Nesting.bind_ok hr
      obtain ⟨others, last, hothers, hlast⟩ := Nesting.bind_ok hmore
      cases hlast
      obtain ⟨ts, hsteps, hp⟩ := h c first middle hfirst
      obtain ⟨us, hparts, parts, rfl, hall⟩ := ih _ _ hothers
      exact ⟨_, hsteps.trans hparts, ts :: parts, rfl, .cons hp hall⟩
    · rw [if_neg he] at hr
      cases hr
      exact ⟨[], .refl _, [], rfl, .nil⟩

theorem readWhile {r : Reading α} (h : ∀ c, BuildsAt c r P) (enter : Cursor → Bool) :
    BuildsAt c (Reading.readWhile enter r) fun ts list =>
      ∃ parts : List (List Token), ts = parts.flatten ∧ List.Forall₂ P parts list :=
  whileAtMost h enter c.rest.length

end BuildsAt

namespace Builds

variable {source : Text} {α β : Type} {r : Reading α} {f : α → List Phrase}

/-- Phrases over parts of tokens stand over all of them. -/
theorem flatten {parts : List (List Token)} {list : List α}
    (h : List.Forall₂ (fun ts a => Derives source ts (f a)) parts list) :
    Derives source parts.flatten (list.flatMap f) := by
  induction h with
  | nil => exact .nil []
  | cons hfirst _ ih => exact hfirst.append ih

theorem readWhile (h : Builds source r f) (enter : Cursor → Bool) :
    Builds source (Reading.readWhile enter r) (·.flatMap f) := by
  intro c list c' hr
  obtain ⟨ts, hsteps, parts, rfl, hparts⟩ := BuildsAt.readWhile h enter _ _ hr
  exact ⟨_, hsteps, flatten hparts⟩

/-- What is made of a reading. -/
theorem map (h : Builds source r f) {g : α → β} {phrases : β → List Phrase}
    (hg : ∀ a, phrases (g a) = f a) :
    Builds source (r >>= fun a => Pure.pure (g a)) phrases := by
  intro c b c' hb
  obtain ⟨a, middle, ha, hpure⟩ := Nesting.bind_ok hb
  cases hpure
  obtain ⟨ts, hsteps, hderives⟩ := h c a _ ha
  refine ⟨ts, hsteps, ?_⟩
  change Derives source ts (phrases (g a))
  rwa [hg]

end Builds

variable {source : Text}

/-! ### Parts of rules

Some of the rules share a part, such as brackets around something or commas between
arguments.  Each part is followed once here.
-/

theorem flatMap_toList {α : Type} (phrase : α → Phrase) (read : List (Option α)) :
    (read.flatMap fun a => a.toList.map phrase) = (read.filterMap id).map phrase := by
  induction read with
  | nil => rfl
  | cons first rest ih =>
    cases first with
    | none => exact ih
    | some a => exact congrArg (phrase a :: ·) ih

/-- What is read between two brackets. -/
theorem bracketed_ok {α β : Type} {r : Reading β} {g : β → Extent → α} {opens closes : TokenKind}
    {c c' : Cursor} {a : α} (h : spanning source (do
      let _ ← expect opens
      let x ← r
      let _ ← expect closes
      pure (g x)) c = .ok (a, c')) :
    ∃ opening closing x first last, opening.kind = opens ∧ closing.kind = closes ∧
      r first = .ok (x, last) ∧ ∀ inner, first.Steps inner last →
        c.Steps (opening :: inner ++ [closing]) c' ∧
          a = g x (.ofTokens source (opening :: inner ++ [closing])) := by
  obtain ⟨build, hbuild, rfl⟩ := spanning_ok h
  obtain ⟨opening, first, hopening, hrest⟩ := Nesting.bind_ok hbuild
  obtain ⟨x, last, hx, hrest⟩ := Nesting.bind_ok hrest
  obtain ⟨closing, after, hclosing, hpure⟩ := Nesting.bind_ok hrest
  cases hpure
  refine ⟨opening, closing, x, first, last, (expect_ok hopening).1, (expect_ok hclosing).1, hx, ?_⟩
  intro inner hinner
  have hsteps := ((Cursor.Steps.expect hopening).trans hinner).trans (.expect hclosing)
  exact ⟨hsteps, by rw [hsteps.extentBetween_eq source (by simp)]; rfl⟩

theorem builds_tokenExpression {build : Token → Extent → Expression}
    (hleaf : ∀ t extent, (build t extent).isLeaf ∧ (build t extent).extent = extent) :
    Builds source (tokenExpression source build) fun read => [.expression read] := by
  intro c read c' h
  obtain ⟨made, hmade, rfl⟩ := spanning_ok h
  obtain ⟨t, after, ht, hpure⟩ := Nesting.bind_ok hmade
  cases hpure
  have hsteps := Cursor.Steps.token ht
  refine ⟨[t], hsteps, .leaf (hleaf _ _).1 ?_⟩
  rw [(hleaf _ _).2, hsteps.extentBetween_eq source (List.cons_ne_nil _ _)]
  exact .tokens (List.cons_ne_nil _ _)

theorem builds_groupExpression {build : Extent → Expression}
    (hleaf : ∀ extent, (build extent).isLeaf ∧ (build extent).extent = extent) :
    Builds source (groupExpression source build) fun read => [.expression read] := by
  intro c read c' h
  obtain ⟨made, hmade, rfl⟩ := spanning_ok h
  obtain ⟨_, after, hgroup, hpure⟩ := Nesting.bind_ok hmade
  cases hpure
  obtain ⟨ts, hsteps, hleast, -⟩ := Cursor.Steps.of_reads Nesting.reads_group hgroup
  have hne : ts ≠ [] := List.ne_nil_of_length_pos hleast
  refine ⟨ts, hsteps, .leaf (hleaf _).1 ?_⟩
  rw [(hleaf _).2, hsteps.extentBetween_eq source hne]
  exact .tokens hne

theorem isLeaf_stringExpression (t : Token) (extent : Extent) :
    (stringExpression t extent).isLeaf ∧ (stringExpression t extent).extent = extent := ⟨rfl, rfl⟩

theorem isLeaf_numberExpression (t : Token) (extent : Extent) :
    (numberExpression t extent).isLeaf ∧ (numberExpression t extent).extent = extent := by
  unfold numberExpression
  split <;> exact ⟨rfl, rfl⟩

/-- Accesses leave an expression as it is, or make one of its members or of its text. -/
theorem derives_accessed {ts us : List Token} {base : Marked Expression}
    (h : Derives source ts [.expression base]) (accesses : List Access) :
    Derives source (ts ++ us) [.expression
      ⟨accessed base.node accesses (.ofTokens source (ts ++ us)), base.marks⟩] := by
  unfold accessed
  split
  · exact h.behind us
  · next hbase _ =>
    obtain ⟨node, marks⟩ := base
    cases hbase
    exact .member _ h
  · exact .unrecognized h

/-- A part is a comma or an argument. -/
inductive IsPart (source : Text) : List Token → Marked ArgumentPart → Prop
  | comma {t : Token} (ht : t.kind = .comma) : IsPart source [t] ⟨.comma, []⟩
  | parameter {ts : List Token} {extent : Extent} {name : Text} {marks : List Mark}
    (h : Derives source ts [.argument ⟨.parameter extent name, marks⟩]) :
    IsPart source ts ⟨.parameter extent name, marks⟩
  | value {ts : List Token} {e : Expression} {marks : List Mark}
    (h : Derives source ts [.argument ⟨.value e, marks⟩]) (he : e.Operand source ts)
    (halone : e.Alone source ts) : IsPart source ts ⟨.value e, marks⟩

/-- Arguments, the last one first, that stand over parts of tokens. -/
inductive Stacked (source : Text) : List Token → List (Marked Argument) → Prop
  | nil (ts : List Token) : Stacked source ts []
  | cons {ts us : List Token} {a : Marked Argument} {rest : List (Marked Argument)}
    (hrest : Stacked source ts rest) (ha : Derives source us [.argument a]) :
    Stacked source (ts ++ us) (a :: rest)

theorem Stacked.derives {ts : List Token} {done : List (Marked Argument)}
    (h : Stacked source ts done) : Derives source ts (done.reverse.map .argument) := by
  induction h with
  | nil ts => exact .nil ts
  | cons _ ha ih =>
    rw [List.reverse_cons, List.map_append]
    exact ih.append ha

theorem Stacked.behind {ts : List Token} {done : List (Marked Argument)}
    (h : Stacked source ts done) (us : List Token) : Stacked source (ts ++ us) done := by
  cases h with
  | nil ts => exact .nil _
  | cons hrest ha =>
    rw [List.append_assoc]
    exact .cons hrest (ha.behind us)

/-- **What commas join is derived too**: the arguments give the marks of the parts, in order. -/
theorem foldArguments_derives {ts : List Token} {parts : List (List Token)} (joining : Bool)
    {done : List (Marked Argument)} {read : List (Marked ArgumentPart)}
    (hdone : Stacked source ts done) (hparts : List.Forall₂ (IsPart source) parts read) :
    ∃ arguments : List (Marked Argument),
      foldArguments source joining (done.map (·.node)) (read.map (·.node)) =
        arguments.map (·.node) ∧
      done.reverse.flatMap (·.marks) ++ read.flatMap (·.marks) = arguments.flatMap (·.marks) ∧
      Derives source (ts ++ parts.flatten) (arguments.map .argument) := by
  induction hparts generalizing ts joining done with
  | nil =>
    refine ⟨done.reverse, ?_, List.append_nil _, ?_⟩
    · rw [List.map_reverse]
      rfl
    · rw [List.flatten_nil, List.append_nil]
      exact hdone.derives
  | @cons us part parts read hpart _ ih =>
    -- What comes next stands by itself behind what is there.
    have hnext {a : Marked Argument} (ha : Derives source us [.argument a]) :
        ∃ arguments : List (Marked Argument),
          foldArguments source false ((a :: done).map (·.node)) (read.map (·.node)) =
            arguments.map (·.node) ∧
          done.reverse.flatMap (·.marks) ++ (a.marks ++ read.flatMap (·.marks)) =
            arguments.flatMap (·.marks) ∧
          Derives source (ts ++ (us ++ parts.flatten)) (arguments.map .argument) := by
      obtain ⟨arguments, hfold, hmarks, hderives⟩ := ih false (hdone.cons ha)
      refine ⟨arguments, hfold, ?_, ?_⟩
      · rw [← hmarks, List.reverse_cons, List.flatMap_append, List.flatMap_singleton,
          List.append_assoc]
      · rwa [← List.append_assoc]
    cases hpart with
    | comma =>
      obtain ⟨arguments, hfold, hmarks, hderives⟩ := ih (!(done.map (·.node)).isEmpty)
        (hdone.behind _)
      refine ⟨arguments, hfold, hmarks, ?_⟩
      rwa [List.flatten_cons, ← List.append_assoc]
    | parameter ha => exact hnext ha
    | value ha _ halone =>
      cases joining with
      | false => exact hnext ha
      | true =>
        cases hdone with
        | nil => exact hnext ha
        | @cons ts vs previous earlier hearlier hprevious =>
          obtain ⟨previous, marks'⟩ := previous
          cases previous with
          | parameter extent name => exact hnext ha
          | value first =>
            obtain ⟨arguments, hfold, hmarks, hderives⟩ := ih false
              (hearlier.cons (hprevious.joined ha halone))
            refine ⟨arguments, hfold, ?_, ?_⟩
            · rw [← hmarks]
              simp
            · simpa using hderives

/-- Among parts, the arguments so far are none over commas only, or one with commas around it, or
no name. -/
structure NameSoFar (source : Text) (ts : List Token) (done : List Argument) : Prop where
  none : done = [] → ∀ t ∈ ts, t.kind = .comma
  one : ∀ e, done = [.value e] → e.IsName source ts

/-- **A name stands over all that stands between head and body**, commas around it aside. -/
theorem foldArguments_isName {ts : List Token} {parts : List (List Token)} (joining : Bool)
    {done : List Argument} {read : List (Marked ArgumentPart)} {e : Expression}
    (hdone : NameSoFar source ts done) (hparts : List.Forall₂ (IsPart source) parts read)
    (h : foldArguments source joining done (read.map (·.node)) = [.value e]) :
    e.IsName source (ts ++ parts.flatten) := by
  induction hparts generalizing ts joining done with
  | nil =>
    rw [List.flatten_nil, List.append_nil]
    exact hdone.one e (List.reverse_eq_iff.mp h)
  | @cons us part parts read hpart _ ih =>
    rw [List.flatten_cons, ← List.append_assoc]
    -- A value by itself is the first argument, or there are two.
    have hnext {f : Expression} (hf : f.Operand source us) :
        NameSoFar source (ts ++ us) (.value f :: done) := by
      refine ⟨fun hnil => absurd hnil (List.cons_ne_nil _ _), fun g hg => ?_⟩
      obtain ⟨hvalue, hnil⟩ := List.cons.inj hg
      obtain rfl := Argument.value.inj hvalue
      exact ⟨ts, us, [], (List.append_nil _).symm,
        by rw [List.append_nil]; exact hdone.none hnil, .operand hf⟩
    cases hpart with
    | comma ht =>
      refine ih _ ⟨fun hnil t hin => ?_, fun g hg => ?_⟩ h
      · rcases List.mem_append.mp hin with hin | hin
        · exact hdone.none hnil t hin
        · exact List.mem_singleton.mp hin ▸ ht
      · obtain ⟨before, written, after, rfl, hcommas, hlisted⟩ := hdone.one g hg
        refine ⟨before, written, after ++ _, List.append_assoc _ _ _, fun t hin => ?_, hlisted⟩
        rw [← List.append_assoc] at hin
        rcases List.mem_append.mp hin with hin | hin
        · exact hcommas t hin
        · exact List.mem_singleton.mp hin ▸ ht
    | @parameter _ extent name =>
      have hlater : NameSoFar source (ts ++ us) (.parameter extent name :: done) :=
        ⟨fun hnil => absurd hnil (List.cons_ne_nil _ _), nofun⟩
      exact ih false hlater h
    | value _ hf =>
      cases joining with
      | false => exact ih _ (hnext hf) h
      | true =>
        cases done with
        | nil => exact ih _ (hnext hf) h
        | cons previous earlier =>
          cases previous with
          | parameter => exact ih _ (hnext hf) h
          | value first =>
            suffices hjoined : NameSoFar source (ts ++ us) (.value _ :: earlier) from
              ih false hjoined h
            refine ⟨fun hnil => absurd hnil (List.cons_ne_nil _ _), fun g hg => ?_⟩
            obtain ⟨hvalue, rfl⟩ := List.cons.inj hg
            obtain rfl := Argument.value.inj hvalue
            obtain ⟨before, written, after, rfl, hcommas, hlisted⟩ := hdone.one first rfl
            refine ⟨before, written ++ after ++ us, [], by simp, fun t hin => ?_, .joined hlisted
              (fun t hin => hcommas t (List.mem_append_right _ hin)) hf⟩
            rw [List.append_nil] at hin
            exact hcommas t (List.mem_append_left _ hin)

/-- A command without a body. -/
theorem derives_command (head : Token) {ts us : List Token} {arguments : List (Marked Argument)}
    {piped : List (Marked Term)} (harguments : Derives source ts (arguments.map .argument))
    (hpiped : Derives source us (piped.map .term)) :
    Derives source (head :: (ts ++ us)) [.item (commandOrBlock head
      ⟨arguments.map (·.node), arguments.flatMap (·.marks)⟩ none
      ⟨piped.map (·.node), piped.flatMap (·.marks)⟩ (.ofTokens source (head :: (ts ++ us))))] := by
  have hcommand : Derives source (head :: (ts ++ us)) _ := .command harguments hpiped
  unfold commandOrBlock
  simpa using hcommand

/-- Arguments are a name if they are one value. -/
theorem eq_value_of_blockName? {arguments : List Argument} {e : Expression}
    (h : blockName? arguments = some (some e)) : arguments = [.value e] := by
  unfold blockName? at h
  split at h <;> cases h
  rfl

/-- A command with a body, which is a block, or keeps the body as text. -/
theorem derives_commandOrBlock {head opening closing : Token} {ts inner us : List Token}
    {arguments : List (Marked Argument)} {items : List Item} {piped : List (Marked Term)}
    (hopens : opening.kind = .braceOpen) (hcloses : closing.kind = .braceClose)
    (hbalanced : Nesting.Balanced inner)
    (harguments : Derives source ts (arguments.map .argument))
    (hnamed : ∀ e, arguments.map (·.node) = [.value e] → e.IsName source ts)
    (hitems : Derives source inner (items.map .item)) (hpiped : Derives source us (piped.map .term))
    (hnone : piped = [] → us = []) :
    Derives source (head :: (ts ++ (opening :: inner ++ [closing] ++ us))) [.item
      (commandOrBlock head ⟨arguments.map (·.node), arguments.flatMap (·.marks)⟩
        (some (items, .ofTokens source (opening :: inner ++ [closing])))
        ⟨piped.map (·.node), piped.flatMap (·.marks)⟩
        (.ofTokens source (head :: (ts ++ (opening :: inner ++ [closing] ++ us)))))] := by
  have hcommand := derives_command head harguments
    (hpiped.before (opening :: inner ++ [closing]))
  cases piped with
  | cons first rest => exact hcommand
  | nil =>
    obtain rfl := hnone rfl
    rw [List.append_nil] at hcommand ⊢
    cases hname : blockName? (arguments.map (·.node)) with
    | none =>
      unfold commandOrBlock at hcommand ⊢
      simpa [hname] using hcommand
    | some name =>
      unfold commandOrBlock entriesOf
      cases hkeyed : items.mapM (·.keyed?) with
      | none =>
        have htext : Derives source (head :: (ts ++ (opening :: inner ++ [closing]))) _ :=
          .textBody hopens hcloses hbalanced harguments hitems
        simpa [hname, hkeyed] using htext
      | some keyed =>
        have hblock : Derives source (head :: (ts ++ (opening :: inner ++ [closing]))) _ :=
          .block hopens harguments hname
            (fun e he => hnamed e (eq_value_of_blockName? (he ▸ hname))) hitems hkeyed
        simpa [hname, hkeyed, keyMarks, headMarks] using hblock

/-! ### Expressions that are no lists

Joining by commas goes into a list without brackets.  That it does not go into an
operand has to be known before lists are put together.
-/

theorem isWhole_primary (below : Level) :
    Yields (primary source below) fun read => read.node.isWhole := by
  have htoken {build : Token → Extent → Expression} (h : ∀ t extent, (build t extent).isWhole) :
      Yields (tokenExpression source build) fun read => read.node.isWhole :=
    .spanning (.bind fun t => .pure (h t))
  have hgroup {build : Extent → Expression} (h : ∀ extent, (build extent).isWhole) :
      Yields (groupExpression source build) fun read => read.node.isWhole :=
    .spanning (.bind fun _ => .pure h)
  have hnumber (t : Token) (extent : Extent) : (numberExpression t extent).isWhole := by
    unfold numberExpression
    split <;> rfl
  unfold primary
  refine .bind fun c => ?_
  split
  iterate 4 exact htoken fun _ _ => rfl
  · exact htoken hnumber
  iterate 2 exact htoken fun _ _ => rfl
  · exact .spanning (.bind fun _ => .bind fun _ => .bind fun _ => .pure fun _ => rfl)
  · exact .spanning (.bind fun _ => .bind fun _ => .bind fun _ => .pure fun _ => rfl)
  iterate 3 exact hgroup fun _ => rfl
  · exact .reject

/-- **An operand is no list without brackets.** -/
theorem isWhole_operand (below : Level) :
    Yields (operand source below) fun read => read.node.isWhole := by
  have haccessed {e : Expression} (he : e.isWhole) (followed : List Access) (extent : Extent) :
      (accessed e followed extent).isWhole := by
    unfold accessed
    split
    · exact he
    · rfl
    · rfl
  rw [operand_eq]
  refine .spanning (.bind fun hasSign => .bind fun _ => .bind fun hasCast => ?_)
  split
  · exact .bind fun _ => .bind fun _ => .bind fun _ => .pure fun _ => rfl
  · refine .andThen (isWhole_primary below) fun base hbase => .bind fun followed =>
      .pure fun extent => ?_
    split
    · rfl
    · exact haccessed hbase followed extent

/-! ### The rules

A rule takes the rules below it as they are, so that what is known of these is assumed.
In the end it is shown of every level by induction.
-/

section Rules

variable {below : Level}

/-- What is known of the rules below. -/
structure DerivesBelow (source : Text) (below : Level) : Prop where
  nests : Nesting.Below below
  statement : Builds source below.statement fun item => [.item item]
  value : Builds source below.value fun read => [.value read]

variable (hb : DerivesBelow source below)
include hb

theorem builds_itemOr (separates : TokenKind → Bool) :
    Builds source (itemOr below separates) fun read => read.toList.map .item := by
  intro c
  refine BuildsAt.nextIs ?_
  split
  · intro read c' h
    obtain ⟨t, after, ht, hnone⟩ := Nesting.bind_ok h
    cases hnone
    exact ⟨[t], .token ht, .nil _⟩
  · have hread : Builds source (below.statement >>= fun item => pure (some item))
        fun read => read.toList.map .item := hb.statement.map fun _ => rfl
    exact hread c

theorem builds_items (separates : TokenKind → Bool) :
    Builds source (items below separates) (·.map .item) :=
  ((builds_itemOr hb separates).readWhile _).map fun read => (flatMap_toList .item read).symm

/-- A body is derived between its braces. -/
theorem body_derives {c c' : Cursor} {read : List Item × Extent}
    (h : body source below c = .ok (read, c')) : ∃ opening inner closing,
      opening.kind = .braceOpen ∧ closing.kind = .braceClose ∧
      c.Steps (opening :: inner ++ [closing]) c' ∧
      read.2 = .ofTokens source (opening :: inner ++ [closing]) ∧
      Derives source inner (read.1.map .item) ∧ Nesting.Balanced inner := by
  obtain ⟨opening, closing, list, first, last, hopens, hcloses, hlist, hbetween⟩ := bracketed_ok h
  obtain ⟨inner, hinner, hderives⟩ := builds_items hb _ _ _ _ hlist
  obtain ⟨inner', hinner', -, hbalanced⟩ := Cursor.Steps.of_reads
    (Nesting.reads_items hb.nests isContent_of_semicolon first) hlist
  obtain rfl : inner = inner' := List.append_cancel_right (hinner.rest.symm.trans hinner'.rest)
  obtain ⟨hsteps, rfl⟩ := hbetween inner hinner
  exact ⟨opening, inner, closing, hopens, hcloses, hsteps, rfl, hderives, hbalanced⟩

theorem builds_bracketedArray :
    Builds source (bracketedArray source below) fun read => [.expression read] := by
  intro c read c' h
  obtain ⟨opening, closing, list, first, last, -, -, hlist, hbetween⟩ := bracketed_ok h
  obtain ⟨inner, hinner, hderives⟩ := builds_items hb _ _ _ _ hlist
  obtain ⟨hsteps, rfl⟩ := hbetween inner hinner
  exact ⟨_, hsteps, .array hderives⟩

theorem builds_tableEntry : Builds source (tableEntry below) fun read => [.entry read] := by
  intro c read c' h
  obtain ⟨key, first, hkey, hrest⟩ := Nesting.bind_ok h
  obtain ⟨equals, second, hequals, hrest⟩ := Nesting.bind_ok hrest
  obtain ⟨value, third, hvalue, hpure⟩ := Nesting.bind_ok hrest
  cases hpure
  obtain ⟨ts, hts, hderives⟩ := hb.value _ _ _ hvalue
  exact ⟨_, (Cursor.Steps.token hkey).trans ((Cursor.Steps.expect hequals).trans hts),
    .entry (hderives.cons equals)⟩

theorem builds_entryOrSeparator :
    Builds source (entryOrSeparator below) fun read => read.toList.map .entry := by
  intro c
  refine BuildsAt.nextIs ?_
  split
  · intro read c' h
    obtain ⟨t, after, ht, hnone⟩ := Nesting.bind_ok h
    cases hnone
    exact ⟨[t], .token ht, .nil _⟩
  · have hread : Builds source (tableEntry below >>= fun entry => pure (some entry))
        fun read => read.toList.map .entry := (builds_tableEntry hb).map fun _ => rfl
    exact hread c

theorem builds_bracketedTable :
    Builds source (bracketedTable source below) fun read => [.expression read] := by
  intro c read c' h
  obtain ⟨opening, closing, list, first, last, -, -, hlist, hbetween⟩ := bracketed_ok h
  obtain ⟨inner, hinner, hderives⟩ := (builds_entryOrSeparator hb).readWhile _ _ _ _ hlist
  obtain ⟨hsteps, rfl⟩ := hbetween inner hinner
  have hentries := flatMap_toList Phrase.entry list
  exact ⟨_, hsteps, .table (hentries ▸ hderives)⟩

theorem builds_primary : Builds source (primary source below) fun read => [.expression read] := by
  intro c
  unfold primary
  refine BuildsAt.get ?_
  split
  · exact builds_tokenExpression isLeaf_stringExpression c
  · exact builds_tokenExpression isLeaf_stringExpression c
  · exact builds_tokenExpression isLeaf_stringExpression c
  · exact builds_tokenExpression isLeaf_stringExpression c
  · exact builds_tokenExpression isLeaf_numberExpression c
  · exact builds_tokenExpression (fun _ _ => ⟨rfl, rfl⟩) c
  · exact builds_tokenExpression (fun _ _ => ⟨rfl, rfl⟩) c
  · exact builds_bracketedArray hb c
  · exact builds_bracketedTable hb c
  · exact builds_groupExpression (fun _ => ⟨rfl, rfl⟩) c
  · exact builds_groupExpression (fun _ => ⟨rfl, rfl⟩) c
  · exact builds_groupExpression (fun _ => ⟨rfl, rfl⟩) c
  · intro _ _ h
    cases h

/-- An operand behind its sign. -/
theorem unsigned_derives {c c' : Cursor} {hasSign : Bool} {build : Extent → Marked Expression}
    (h : unsigned source below hasSign c = .ok (build, c')) :
    ∃ ts, c.Steps ts c' ∧ ∀ front, (hasSign = false → front = []) →
      Derives source (front ++ ts) [.expression (build (.ofTokens source (front ++ ts)))] := by
  obtain ⟨all, hall, hleast, -⟩ := Cursor.Steps.of_reads
    (Nesting.reads_unsigned source hb.nests hasSign c) h
  have hne (front : List Token) : front ++ all ≠ [] := fun hnil => by
    rw [(List.append_eq_nil_iff.mp hnil).2] at hleast
    exact absurd hleast (by decide)
  have htext (front : List Token) : Derives source (front ++ all)
      [.expression ⟨.unrecognized (.ofTokens source (front ++ all)), []⟩] :=
    .leaf rfl (.tokens (hne front))
  obtain ⟨cast, middle, hcast, hbranch⟩ := Nesting.bind_ok h
  obtain rfl : middle = c := by cases hcast; rfl
  split at hbranch
  · obtain ⟨_, _, -, hrest⟩ := Nesting.bind_ok hbranch
    obtain ⟨_, _, -, hrest⟩ := Nesting.bind_ok hrest
    obtain ⟨_, _, -, hpure⟩ := Nesting.bind_ok hrest
    cases hpure
    exact ⟨all, hall, fun front _ => htext front⟩
  · obtain ⟨base, first, hbase, hrest⟩ := Nesting.bind_ok hbranch
    obtain ⟨followed, last, hfollowed, hpure⟩ := Nesting.bind_ok hrest
    cases hpure
    cases hasSign with
    | true => exact ⟨all, hall, fun front _ => htext front⟩
    | false =>
      obtain ⟨ts, hts, hderives⟩ := builds_primary hb _ _ _ hbase
      obtain ⟨us, hus, -⟩ := Cursor.Steps.of_reads (Nesting.reads_accesses first) hfollowed
      refine ⟨ts ++ us, hts.trans hus, fun front hfront => ?_⟩
      rw [hfront rfl, List.nil_append]
      exact derives_accessed hderives followed

theorem builds_operand : Builds source (operand source below) fun read => [.expression read] := by
  intro c read c' h
  rw [operand_eq] at h
  obtain ⟨build, hbuild, rfl⟩ := spanning_ok h
  obtain ⟨hasSign, first, hsign, hrest⟩ := Nesting.bind_ok hbuild
  obtain rfl : first = c := by cases hsign; rfl
  obtain ⟨_, second, hsigned, hunsigned⟩ := Nesting.bind_ok hrest
  obtain ⟨ts, hts, hderives⟩ := unsigned_derives hb hunsigned
  have hfront : ∃ front, first.Steps front second ∧ (hasSign = false → front = []) := by
    unfold sign at hsigned
    split at hsigned
    · next hs =>
      obtain ⟨t, after, ht, hpure⟩ := Nesting.bind_ok hsigned
      cases hpure
      exact ⟨[t], .token ht, fun hf => absurd hs (by rw [hf]; exact Bool.false_ne_true)⟩
    · cases hsigned
      exact ⟨[], .refl _, fun _ => rfl⟩
  obtain ⟨front, hfront, hnone⟩ := hfront
  have hsteps := hfront.trans hts
  have hall := hderives front hnone
  refine ⟨_, hsteps, ?_⟩
  rwa [hsteps.extentBetween_eq source (hall.ne_nil (List.cons_ne_nil _ _))]

/-! #### Operands -/

section Operands

omit hb

variable {c c' : Cursor} {ts : List Token}

theorem nextKind?_of_nextIs {kind : TokenKind} (h : c.nextIs (· == kind)) :
    c.nextKind? = some kind := by
  obtain ⟨t, rest, hrest, hkind⟩ := Nesting.nextIs_iff.mp h
  rw [Cursor.nextKind?, hrest]
  exact congrArg some (eq_of_beq hkind)

theorem kind_of_token {kind : TokenKind} {t : Token} (hnext : c.nextKind? = some kind)
    (ht : token c = .ok (t, c')) : t.kind = kind := by
  rw [Cursor.nextKind?, (token_ok ht).1] at hnext
  exact Option.some.inj hnext

/-- What is no string and has the extent of what is read. -/
theorem operand_of_extent {e : Expression} {kind : TokenKind} (hts : c.Steps ts c') (hne : ts ≠ [])
    (hextent : e.extent = extentBetween source c c')
    (hvalue : ∀ extent value quote, e ≠ .string extent value quote)
    (hnext : c.nextKind? = some kind) (hkind : kind.isString = false) : e.Operand source ts := by
  refine .other ?_ hvalue fun t ht => ?_
  · rw [hextent, hts.extentBetween_eq source hne]
    exact .tokens hne
  · subst ht
    obtain rfl : kind = t.kind := by
      rw [Cursor.nextKind?, hts.rest] at hnext
      exact (Option.some.inj hnext).symm
    exact hkind

/-- A single token that is a value. -/
theorem operand_tokenExpression {build : Token → Extent → Expression}
    (hbuild : ∀ t extent, c.nextKind? = some t.kind → extent.Spans source [t] →
      (build t extent).Operand source [t]) :
    BuildsAt c (tokenExpression source build) fun ts read => read.node.Operand source ts := by
  intro read c' h
  obtain ⟨made, hmade, rfl⟩ := spanning_ok h
  obtain ⟨t, after, ht, hpure⟩ := Nesting.bind_ok hmade
  cases hpure
  have hsteps := Cursor.Steps.token ht
  refine ⟨[t], hsteps, hbuild t _ (by rw [Cursor.nextKind?, hsteps.rest]; rfl) ?_⟩
  rw [hsteps.extentBetween_eq source (List.cons_ne_nil _ _)]
  exact .tokens (List.cons_ne_nil _ _)

theorem operand_string {kind : TokenKind} (hnext : c.nextKind? = some kind)
    (hkind : kind.isString) : BuildsAt c (tokenExpression source stringExpression)
      fun ts read => read.node.Operand source ts := by
  refine operand_tokenExpression fun t extent ht hspans => ?_
  have htext : t.keyText = (Literal.ofString t).1 :=
    if_pos (Option.some.inj (hnext.symm.trans ht) ▸ hkind)
  unfold stringExpression
  simp only [← htext]
  exact .string hspans

theorem operand_number (hnext : c.nextKind? = some .number) :
    BuildsAt c (tokenExpression source numberExpression)
      fun ts read => read.node.Operand source ts := by
  refine operand_tokenExpression fun t extent ht hspans => ?_
  have hkind : t.kind.isString = false := by
    rw [Option.some.inj (ht.symm.trans hnext)]
    rfl
  have htext : t.keyText = t.text := if_neg (Bool.eq_false_iff.mp hkind)
  unfold numberExpression
  split
  · refine .other hspans nofun fun u hu => ?_
    rwa [← (List.cons.inj hu).1]
  · rw [← htext]
    exact .string hspans

/-- A token that is a value, but no string. -/
theorem operand_sign {kind : TokenKind} {build : Token → Extent → Expression}
    (hnext : c.nextKind? = some kind) (hkind : kind.isString = false)
    (hbuild : ∀ t extent, (build t extent).extent = extent ∧
      ∀ extent' value quote, build t extent ≠ .string extent' value quote) :
    BuildsAt c (tokenExpression source build) fun ts read => read.node.Operand source ts :=
  operand_tokenExpression fun t extent ht hspans =>
    .other ((hbuild t extent).1.symm ▸ hspans) (hbuild t extent).2 fun u hu => by
      rw [← (List.cons.inj hu).1, ← Option.some.inj (hnext.symm.trans ht)]
      exact hkind

/-- A group that is kept as text. -/
theorem operand_group {kind : TokenKind} {build : Extent → Expression}
    (hnext : c.nextKind? = some kind) (hkind : kind.isString = false)
    (hbuild : ∀ extent, (build extent).extent = extent ∧
      ∀ extent' value quote, build extent ≠ .string extent' value quote) :
    BuildsAt c (groupExpression source build) fun ts read => read.node.Operand source ts := by
  intro read c' h
  obtain ⟨made, hmade, rfl⟩ := spanning_ok h
  obtain ⟨_, after, hgroup, hpure⟩ := Nesting.bind_ok hmade
  cases hpure
  obtain ⟨ts, hts, hleast, -⟩ := Cursor.Steps.of_reads Nesting.reads_group hgroup
  exact ⟨ts, hts, operand_of_extent hts (List.ne_nil_of_length_pos hleast) (hbuild _).1
    (hbuild _).2 hnext hkind⟩

/-- Accesses are over some tokens, if there are any. -/
theorem accesses_ne_nil {followed : List Access} (h : accesses c = .ok (followed, c')) :
    ∃ us, c.Steps us c' ∧ (followed = [] → us = []) ∧ (us = [] → followed = []) := by
  have hone : ∀ c, BuildsAt c access fun ts _ => ts ≠ [] := fun c _ _ h =>
    have ⟨ts, hts, hleast, _⟩ := Cursor.Steps.of_reads (Nesting.reads_access c) h
    ⟨ts, hts, List.ne_nil_of_length_pos hleast⟩
  obtain ⟨us, hus, parts, rfl, hparts⟩ := BuildsAt.readWhile hone _ _ _ h
  refine ⟨_, hus, ?_, fun hnil => ?_⟩
  · rintro rfl
    cases hparts
    rfl
  · cases hparts with
    | nil => rfl
    | cons hfirst _ => exact absurd (List.append_eq_nil_iff.mp hnil).1 hfirst

/-- What is accessed on is kept as text, or members of it are known. -/
theorem accessed_ne_string {base : Expression} {followed : List Access} (hne : followed ≠ [])
    (extent : Extent) : (accessed base followed extent).extent = extent ∧
      ∀ extent' value quote, accessed base followed extent ≠ .string extent' value quote := by
  unfold accessed
  split
  · exact absurd rfl hne
  · exact ⟨rfl, nofun⟩
  · exact ⟨rfl, nofun⟩

end Operands

/-- A value without sign, cast and access. -/
theorem operand_primary (c : Cursor) : BuildsAt c (primary source below)
    fun ts read => read.node.Operand source ts := by
  unfold primary
  refine BuildsAt.get ?_
  split
  · next hnext => exact operand_string hnext rfl
  · next hnext => exact operand_string hnext rfl
  · next hnext => exact operand_string hnext rfl
  · next hnext => exact operand_string hnext rfl
  · next hnext => exact operand_number hnext
  · next hnext => exact operand_sign hnext rfl fun _ _ => ⟨rfl, nofun⟩
  · next hnext => exact operand_sign hnext rfl fun _ _ => ⟨rfl, nofun⟩
  · next hnext =>
    intro read c' h
    obtain ⟨ts, hts, hderives⟩ := builds_bracketedArray hb _ _ _ h
    obtain ⟨made, hmade, rfl⟩ := spanning_ok h
    obtain ⟨_, _, -, hrest⟩ := Nesting.bind_ok hmade
    obtain ⟨_, _, -, hrest⟩ := Nesting.bind_ok hrest
    obtain ⟨_, _, -, hpure⟩ := Nesting.bind_ok hrest
    cases hpure
    exact ⟨ts, hts, operand_of_extent hts (hderives.ne_nil (List.cons_ne_nil _ _)) rfl nofun
      hnext rfl⟩
  · next hnext =>
    intro read c' h
    obtain ⟨ts, hts, hderives⟩ := builds_bracketedTable hb _ _ _ h
    obtain ⟨made, hmade, rfl⟩ := spanning_ok h
    obtain ⟨_, _, -, hrest⟩ := Nesting.bind_ok hmade
    obtain ⟨_, _, -, hrest⟩ := Nesting.bind_ok hrest
    obtain ⟨_, _, -, hpure⟩ := Nesting.bind_ok hrest
    cases hpure
    exact ⟨ts, hts, operand_of_extent hts (hderives.ne_nil (List.cons_ne_nil _ _)) rfl nofun
      hnext rfl⟩
  · next hnext => exact operand_group hnext rfl fun _ => ⟨rfl, nofun⟩
  · next hnext => exact operand_group hnext rfl fun _ => ⟨rfl, nofun⟩
  · next hnext => exact operand_group hnext rfl fun _ => ⟨rfl, nofun⟩
  · intro _ _ h
    cases h

/-- **An operand stands over just the tokens that are read.** -/
theorem operand_operand (c : Cursor) : BuildsAt c (operand source below)
    fun ts read => read.node.Operand source ts := by
  intro read c' h
  obtain ⟨ts, hts, hderives⟩ := builds_operand hb _ _ _ h
  have hne := hderives.ne_nil (List.cons_ne_nil _ _)
  refine ⟨ts, hts, ?_⟩
  rw [operand_eq] at h
  obtain ⟨build, hbuild, rfl⟩ := spanning_ok h
  have htext {kind : TokenKind} (hnext : c.nextIs (· == kind)) (hkind : kind.isString = false) :
      (Expression.unrecognized (extentBetween source c c')).Operand source ts :=
    operand_of_extent hts hne rfl nofun (nextKind?_of_nextIs hnext) hkind
  obtain ⟨hasSign, first, hsign, hrest⟩ := Nesting.bind_ok hbuild
  obtain ⟨rfl, rfl⟩ : hasSign = c.nextIs (· == .operator) ∧ first = c := by
    cases hsign
    exact ⟨rfl, rfl⟩
  obtain ⟨_, second, hsigned, hunsigned⟩ := Nesting.bind_ok hrest
  obtain ⟨cast, middle, hcast, hbranch⟩ := Nesting.bind_ok hunsigned
  obtain ⟨rfl, rfl⟩ : cast = second.nextIs (· == .typeLiteral) ∧ middle = second := by
    cases hcast
    exact ⟨rfl, rfl⟩
  cases hoperator : first.nextIs (· == .operator) with
  | true =>
    -- With a sign before it, the operand is kept as text, whatever it is.
    rw [hoperator] at hbranch
    split at hbranch
    · obtain ⟨_, _, -, hrest⟩ := Nesting.bind_ok hbranch
      obtain ⟨_, _, -, hrest⟩ := Nesting.bind_ok hrest
      obtain ⟨_, _, -, hpure⟩ := Nesting.bind_ok hrest
      cases hpure
      exact htext hoperator rfl
    · obtain ⟨_, _, -, hrest⟩ := Nesting.bind_ok hbranch
      obtain ⟨_, _, -, hpure⟩ := Nesting.bind_ok hrest
      cases hpure
      exact htext hoperator rfl
  | false =>
    rw [hoperator] at hsigned hbranch
    obtain rfl : middle = first := by cases hsigned; rfl
    split at hbranch
    · next hliteral =>
      obtain ⟨_, _, -, hrest⟩ := Nesting.bind_ok hbranch
      obtain ⟨_, _, -, hrest⟩ := Nesting.bind_ok hrest
      obtain ⟨_, _, -, hpure⟩ := Nesting.bind_ok hrest
      cases hpure
      exact htext hliteral rfl
    · obtain ⟨base, between, hbase, hrest⟩ := Nesting.bind_ok hbranch
      obtain ⟨followed, last, hfollowed, hpure⟩ := Nesting.bind_ok hrest
      cases hpure
      obtain ⟨vs, hvs, hoperand⟩ := operand_primary hb _ _ _ hbase
      obtain ⟨us, hus, hnone, hsome⟩ := accesses_ne_nil hfollowed
      obtain rfl : ts = vs ++ us :=
        List.append_cancel_right (hts.rest.symm.trans (hvs.trans hus).rest)
      by_cases haccessed : followed = []
      · obtain rfl := hnone haccessed
        subst haccessed
        rwa [List.append_nil]
      · obtain ⟨hextent, hvalue⟩ := @accessed_ne_string base.node followed haccessed
          (extentBetween source middle c')
        refine .other ?_ hvalue fun t ht => ?_
        · change Extent.Spans source _ (accessed _ _ _).extent
          rw [hextent, hts.extentBetween_eq source hne]
          exact .tokens hne
        · -- More than one token is read, since something is accessed.
          have hlength := congrArg List.length ht
          have hvsPos := List.length_pos_of_ne_nil hoperand.ne_nil
          have husPos := List.length_pos_of_ne_nil (mt hsome haccessed)
          rw [List.length_append, List.length_singleton] at hlength
          omega

theorem builds_binary : Builds source (binary source below) fun read => [.expression read] := by
  intro c read c' h
  obtain ⟨build, hbuild, rfl⟩ := spanning_ok h
  obtain ⟨first, middle, hfirst, hrest⟩ := Nesting.bind_ok hbuild
  obtain ⟨more, last, hmore, hpure⟩ := Nesting.bind_ok hrest
  cases hpure
  obtain ⟨ts, hts, hderives⟩ := builds_operand hb _ _ _ hfirst
  have hloop : Builds source (operatorAndOperand source below) fun _ => [] := by
    intro c _ c' h
    obtain ⟨t, first, ht, hrest⟩ := Nesting.bind_ok h
    obtain ⟨_, second, hoperand, hpure⟩ := Nesting.bind_ok hrest
    cases hpure
    obtain ⟨ts, hts, -⟩ := builds_operand hb _ _ _ hoperand
    exact ⟨_, (Cursor.Steps.token ht).trans hts, .nil _⟩
  obtain ⟨us, hus, -⟩ := hloop.readWhile _ _ _ _ hmore
  have hsteps := hts.trans hus
  have hall := hderives.behind us
  refine ⟨_, hsteps, ?_⟩
  have hne := hall.ne_nil (List.cons_ne_nil _ _)
  rw [hsteps.extentBetween_eq source hne]
  split
  · exact hall
  · exact .leaf rfl (.tokens hne)

theorem builds_expression :
    Builds source (expression source below) fun read => [.expression read] := by
  intro c read c' h
  obtain ⟨build, hbuild, rfl⟩ := spanning_ok h
  obtain ⟨first, middle, hfirst, hrest⟩ := Nesting.bind_ok hbuild
  obtain ⟨more, last, hmore, hpure⟩ := Nesting.bind_ok hrest
  cases hpure
  obtain ⟨ts, hts, hderives⟩ := builds_binary hb _ _ _ hfirst
  have hloop : Builds source (commaAndValue source below) fun read => [.expression read] := by
    intro c read c' h
    obtain ⟨t, first, ht, hvalue⟩ := Nesting.bind_ok h
    obtain ⟨ts, hts, hderives⟩ := builds_binary hb _ _ _ hvalue
    exact ⟨_, (Cursor.Steps.token ht).trans hts, hderives.cons t⟩
  obtain ⟨us, hus, hothers⟩ := hloop.readWhile _ _ _ _ hmore
  have hsteps := hts.trans hus
  have hall := hderives.append hothers
  refine ⟨_, hsteps, ?_⟩
  rw [hsteps.extentBetween_eq source (hall.ne_nil (by simp))]
  split
  · next hnone =>
    rw [List.isEmpty_iff.mp hnone] at hall
    exact hall
  · refine .list (List.cons_ne_nil _ _) ?_
    rw [List.map_cons, List.map_eq_flatMap]
    exact hall

/-! #### Arguments -/

theorem argument_derives (c : Cursor) : BuildsAt c (argument source below) (IsPart source) := by
  unfold argument
  refine BuildsAt.get ?_
  split
  · intro read c' h
    obtain ⟨t, first, ht, hpure⟩ := Nesting.bind_ok h
    cases hpure
    exact ⟨[t], .token ht, .parameter (.parameter t _)⟩
  · next hnext =>
    intro read c' h
    obtain ⟨t, first, ht, hpure⟩ := Nesting.bind_ok h
    cases hpure
    exact ⟨[t], .token ht, .comma (kind_of_token hnext ht)⟩
  · next hnext =>
    intro read c' h
    obtain ⟨build, hbuild, rfl⟩ := spanning_ok h
    obtain ⟨t, first, ht, hrest⟩ := Nesting.bind_ok hbuild
    obtain ⟨followed, last, hfollowed, hpure⟩ := Nesting.bind_ok hrest
    cases hpure
    obtain ⟨us, hus, hnone, hsome⟩ := accesses_ne_nil hfollowed
    have hsteps := (Cursor.Steps.token ht).trans hus
    have hne : [t] ++ us ≠ [] := List.cons_ne_nil _ _
    refine ⟨_, hsteps, ?_⟩
    rw [hsteps.extentBetween_eq source hne]
    cases followed with
    | nil =>
      obtain rfl := hnone rfl
      have htext : t.keyText = t.text := if_neg (by
        rw [kind_of_token hnext ht]
        exact Bool.false_ne_true)
      have hword : (bareString t).Operand source [t] := by
        unfold bareString
        rw [← htext]
        exact .string (htext ▸ .token t)
      have halone : (bareString t).Alone source [t] := ⟨.token t, rfl⟩
      exact .value (.argument (e := ⟨_, []⟩) (.leaf rfl (.token t)) halone) hword halone
    | cons access rest =>
      have halone : (Expression.unrecognized (.ofTokens source ([t] ++ us))).Alone source
          ([t] ++ us) := ⟨.tokens hne, rfl⟩
      refine .value (.argument (e := ⟨_, []⟩) (.leaf rfl (.tokens hne)) halone)
        (.other (.tokens hne) nofun fun u hu => ?_) halone
      exact absurd (List.cons.inj hu).2 (mt hsome (List.cons_ne_nil _ _))
  · intro read c' h
    obtain ⟨e, first, he, hpure⟩ := Nesting.bind_ok h
    cases hpure
    obtain ⟨ts, hts, hderives⟩ := builds_operand hb _ _ _ he
    obtain ⟨us, hus, hoperand⟩ := operand_operand hb _ _ _ he
    obtain rfl : ts = us := List.append_cancel_right (hts.rest.symm.trans hus.rest)
    have halone : e.node.Alone source ts := ⟨hoperand.spans, isWhole_operand below _ _ _ he⟩
    exact ⟨ts, hts, .value (.argument hderives halone) hoperand halone⟩

theorem commandArguments_derives (enter : Cursor → Bool) (c : Cursor) :
    BuildsAt c (commandArguments source below enter) fun ts read =>
      ∃ arguments : List (Marked Argument), read = ⟨arguments.map (·.node),
        arguments.flatMap (·.marks)⟩ ∧ Derives source ts (arguments.map .argument) ∧
        ∀ e, arguments.map (·.node) = [.value e] → e.IsName source ts := by
  intro read c' h
  obtain ⟨list, last, hlist, hpure⟩ := Nesting.bind_ok h
  cases hpure
  obtain ⟨ts, hts, parts, rfl, hparts⟩ :=
    BuildsAt.readWhile (argument_derives hb) enter _ _ hlist
  obtain ⟨arguments, hfold, hmarks, hderives⟩ := foldArguments_derives false (.nil []) hparts
  refine ⟨_, hts, arguments, ?_, hderives, fun e he => ?_⟩
  · rw [← hfold, ← hmarks]
    rfl
  · exact foldArguments_isName false ⟨fun _ => List.forall_mem_nil _,
      fun _ hnil => absurd hnil.symm (List.cons_ne_nil _ _)⟩ hparts
      (hfold.trans he)

/-! #### Pipes -/

theorem builds_pipeTarget : Builds source (pipeTarget source below) fun read => [.term read] := by
  intro c read c' h
  obtain ⟨pipe, first, hpipe, hrest⟩ := Nesting.bind_ok h
  obtain ⟨ts, hts, hderives⟩ : ∃ ts, first.Steps ts c' ∧ Derives source ts [.term read] := by
    refine @BuildsAt.nextIs _ first (fun ts read => Derives source ts [.term read]) _ _ ?_ _ _ hrest
    split
    · intro read c' h
      obtain ⟨build, hbuild, rfl⟩ := spanning_ok h
      obtain ⟨head, second, hhead, hrest⟩ := Nesting.bind_ok hbuild
      obtain ⟨all, third, hall, hpure⟩ := Nesting.bind_ok hrest
      cases hpure
      obtain ⟨ts, hts, arguments, rfl, hderives, -⟩ := commandArguments_derives hb _ _ _ _ hall
      have hsteps := (Cursor.Steps.token hhead).trans hts
      refine ⟨_, hsteps, ?_⟩
      rw [hsteps.extentBetween_eq source (List.cons_ne_nil _ _)]
      exact .commandTerm hderives
    · intro read c' h
      obtain ⟨e, second, he, hpure⟩ := Nesting.bind_ok h
      cases hpure
      obtain ⟨ts, hts, hderives⟩ := builds_expression hb _ _ _ he
      exact ⟨ts, hts, .expressionTerm hderives⟩
  exact ⟨_, (Cursor.Steps.token hpipe).trans hts, hderives.cons pipe⟩

/-- Without pipes nothing is read. -/
theorem pipes_derives (c : Cursor) : BuildsAt c (pipes source below) fun ts read =>
    ∃ terms : List (Marked Term), read = ⟨terms.map (·.node), terms.flatMap (·.marks)⟩ ∧
      Derives source ts (terms.map .term) ∧ (terms = [] → ts = []) := by
  intro read c' h
  obtain ⟨terms, last, hterms, hpure⟩ := Nesting.bind_ok h
  cases hpure
  obtain ⟨_, hts, parts, rfl, hparts⟩ := BuildsAt.readWhile (builds_pipeTarget hb) _ _ _ hterms
  refine ⟨_, hts, terms, rfl, ?_, ?_⟩
  · rw [List.map_eq_flatMap]
    exact Builds.flatten hparts
  · rintro rfl
    cases hparts
    rfl

/-! #### Statements -/

theorem builds_expressionOrAssignment :
    Builds source (expressionOrAssignment source below) fun read => [.value read] := by
  intro c read c' h
  obtain ⟨build, hbuild, rfl⟩ := spanning_ok h
  obtain ⟨first, middle, hfirst, hrest⟩ := Nesting.bind_ok hbuild
  obtain ⟨ts, hts, hderives⟩ := builds_expression hb _ _ _ hfirst
  obtain ⟨assigned, middle', hassigned, hbranch⟩ := Nesting.bind_ok hrest
  obtain rfl : middle' = middle := by cases hassigned; rfl
  split at hbranch
  · obtain ⟨equals, second, hequals, hrest⟩ := Nesting.bind_ok hbranch
    obtain ⟨value, last, hvalue, hpure⟩ := Nesting.bind_ok hrest
    cases hpure
    obtain ⟨us, hus, hvalue⟩ := hb.value _ _ _ hvalue
    have hsteps := hts.trans ((Cursor.Steps.token hequals).trans hus)
    have hall := Derives.assignment hderives (hvalue.cons equals)
    refine ⟨_, hsteps, ?_⟩
    rw [hsteps.extentBetween_eq source (hall.ne_nil (List.cons_ne_nil _ _))]
    exact hall
  · obtain ⟨more, last, hmore, hpure⟩ := Nesting.bind_ok hbranch
    cases hpure
    obtain ⟨us, hus, terms, rfl, hterms, -⟩ := pipes_derives hb _ _ _ hmore
    have hsteps := hts.trans hus
    have hboth : Derives source (ts ++ us)
        ((⟨.expression first.node, first.marks⟩ :: terms).map .term) :=
      (Derives.expressionTerm hderives).append hterms
    have hall := Derives.pipeline (List.cons_ne_nil _ _) hboth
    refine ⟨_, hsteps, ?_⟩
    rw [hsteps.extentBetween_eq source (hall.ne_nil (List.cons_ne_nil _ _))]
    exact hall

theorem builds_keyed : Builds source (keyed source below) fun item => [.item item] := by
  intro c item c' h
  obtain ⟨build, hbuild, rfl⟩ := spanning_ok h
  obtain ⟨key, first, hkey, hrest⟩ := Nesting.bind_ok hbuild
  obtain ⟨equals, second, hequals, hrest⟩ := Nesting.bind_ok hrest
  obtain ⟨value, last, hvalue, hpure⟩ := Nesting.bind_ok hrest
  cases hpure
  obtain ⟨ts, hts, hderives⟩ := hb.value _ _ _ hvalue
  have hsteps := (Cursor.Steps.token hkey).trans ((Cursor.Steps.expect hequals).trans hts)
  refine ⟨_, hsteps, ?_⟩
  rw [hsteps.extentBetween_eq source (List.cons_ne_nil _ _)]
  exact .keyed (hderives.cons equals)

theorem builds_command : Builds source (command source below) fun item => [.item item] := by
  intro c item c' h
  obtain ⟨build, hbuild, rfl⟩ := spanning_ok h
  obtain ⟨head, first, hhead, hrest⟩ := Nesting.bind_ok hbuild
  obtain ⟨all, second, hall, hrest⟩ := Nesting.bind_ok hrest
  obtain ⟨read, third, hread, hrest⟩ := Nesting.bind_ok hrest
  obtain ⟨piped, last, hpiped, hpure⟩ := Nesting.bind_ok hrest
  cases hpure
  obtain ⟨ts, hts, arguments, rfl, harguments, hnamed⟩ :=
    commandArguments_derives hb _ _ _ _ hall
  obtain ⟨us, hus, terms, rfl, hterms, hnone⟩ := pipes_derives hb _ _ _ hpiped
  obtain ⟨opens, middle, hopens, hbranch⟩ := Nesting.bind_ok hread
  obtain rfl : middle = second := by cases hopens; rfl
  have hsteps {vs : List Token} (hvs : middle.Steps vs third) :=
    (Cursor.Steps.token hhead).trans (hts.trans (hvs.trans hus))
  split at hbranch
  · obtain ⟨⟨items, bodyExtent⟩, after, hbody, hsome⟩ := Nesting.bind_ok hbranch
    cases hsome
    obtain ⟨opening, inner, closing, hopening, hclosing, hvs, rfl, hitems, hbalanced⟩ :=
      body_derives hb hbody
    refine ⟨_, hsteps hvs, ?_⟩
    rw [(hsteps hvs).extentBetween_eq source (List.cons_ne_nil _ _)]
    exact derives_commandOrBlock hopening hclosing hbalanced harguments hnamed hitems hterms hnone
  · cases hbranch
    refine ⟨_, hsteps (.refl _), ?_⟩
    rw [(hsteps (.refl _)).extentBetween_eq source (List.cons_ne_nil _ _)]
    have hcommand := derives_command head harguments hterms
    exact hcommand

theorem builds_wordStatement :
    Builds source (wordStatement source below) fun item => [.item item] := by
  intro c item c' h
  rcases wordStatement_ok h with hkeyed | ⟨hcommand, -⟩
  · exact builds_keyed hb _ _ _ hkeyed
  · exact builds_command hb _ _ _ hcommand

theorem builds_value : Builds source (value source below) fun read => [.value read] := by
  intro c
  refine BuildsAt.nextIs ?_
  split
  · intro read c' h
    obtain ⟨item, last, hitem, hpure⟩ := Nesting.bind_ok h
    cases hpure
    obtain ⟨ts, hts, hderives⟩ := builds_wordStatement hb _ _ _ hitem
    exact ⟨ts, hts, .value hderives⟩
  · exact builds_expressionOrAssignment hb c

theorem builds_configuration :
    Builds source (configuration source below) fun item => [.item item] := by
  intro c item c' h
  obtain ⟨build, hbuild, rfl⟩ := spanning_ok h
  obtain ⟨keyword, first, hkeyword, hrest⟩ := Nesting.bind_ok hbuild
  obtain ⟨name, second, hname, hrest⟩ := Nesting.bind_ok hrest
  obtain ⟨⟨items, bodyExtent⟩, third, hbody, hpure⟩ := Nesting.bind_ok hrest
  cases hpure
  obtain ⟨opening, inner, closing, -, -, hvs, -, hitems, -⟩ := body_derives hb hbody
  have hsteps := (Cursor.Steps.token hkeyword).trans ((Cursor.Steps.token hname).trans hvs)
  refine ⟨_, hsteps, ?_⟩
  rw [hsteps.extentBetween_eq source (List.cons_ne_nil _ _)]
  exact .configuration _ ((((hitems.cons opening).behind [closing])).cons name)

theorem builds_target : Builds source (target source below) fun read => [.expression read] := by
  intro c
  refine BuildsAt.nextIs ?_
  split
  · intro read c' h
    obtain ⟨t, last, ht, hpure⟩ := Nesting.bind_ok h
    cases hpure
    exact ⟨[t], .token ht, .leaf rfl (.token t)⟩
  · exact builds_operand hb c

theorem builds_node : Builds source (node source below) fun item => [.item item] := by
  intro c item c' h
  obtain ⟨build, hbuild, rfl⟩ := spanning_ok (node_eq source _ ▸ h)
  obtain ⟨keyword, first, hkeyword, hrest⟩ := Nesting.bind_ok hbuild
  obtain ⟨aim, second, haim, hrest⟩ := Nesting.bind_ok hrest
  obtain ⟨⟨items, bodyExtent⟩, third, hbody, hpure⟩ := Nesting.bind_ok hrest
  cases hpure
  obtain ⟨ts, hts, htarget⟩ := builds_target hb _ _ _ haim
  obtain ⟨opening, inner, closing, -, -, hvs, -, hitems, -⟩ := body_derives hb hbody
  have hsteps := (Cursor.Steps.token hkeyword).trans (hts.trans hvs)
  have hall : Derives source (keyword :: (ts ++ (opening :: inner ++ [closing]))) _ :=
    .node htarget ((hitems.cons opening).behind [closing])
  refine ⟨_, hsteps, ?_⟩
  rw [hsteps.extentBetween_eq source (List.cons_ne_nil _ _)]
  exact hall

omit hb in
theorem builds_param : Builds source (param source) fun item => [.item item] := by
  intro c item c' h
  obtain ⟨build, hbuild, rfl⟩ := spanning_ok h
  obtain ⟨keyword, first, hkeyword, hrest⟩ := Nesting.bind_ok hbuild
  obtain ⟨_, second, hgroup, hpure⟩ := Nesting.bind_ok hrest
  cases hpure
  obtain ⟨ts, hts, -⟩ := Cursor.Steps.of_reads Nesting.reads_group hgroup
  have hsteps := (Cursor.Steps.token hkeyword).trans hts
  refine ⟨_, hsteps, ?_⟩
  rw [hsteps.extentBetween_eq source (List.cons_ne_nil _ _)]
  exact .param (List.cons_ne_nil _ _)

theorem builds_statement : Builds source (statement source below) fun item => [.item item] := by
  intro c item c' h
  rcases statement_cases h with hrule | hrule | hrule | ⟨-, hrule⟩ | ⟨read, rfl, hrule⟩
  · exact builds_configuration hb _ _ _ hrule
  · exact builds_node hb _ _ _ hrule
  · exact builds_param _ _ _ hrule
  · exact builds_wordStatement hb _ _ _ hrule
  · obtain ⟨ts, hts, hderives⟩ := builds_expressionOrAssignment hb _ _ _ hrule
    exact ⟨ts, hts, .plain hderives⟩

end Rules

/-- What any level reads is derived. -/
theorem derivesBelow_level (source : Text) (n : Nat) : DerivesBelow source (level source n) := by
  induction n with
  | zero =>
    exact ⟨Nesting.below_level source 0, fun _ _ _ h => (by cases h), fun _ _ _ h => (by cases h)⟩
  | succ n ih =>
    exact ⟨Nesting.below_level source (n + 1), builds_statement ih, builds_value ih⟩

/-- **The statements of a script are derived from its tokens.** -/
theorem derives_of_script {tokens : List Token} {items : List Item}
    (h : script source tokens = .ok items) : Derives source tokens (items.map .item) := by
  obtain ⟨c, hend, hitems⟩ := script_ok h
  obtain ⟨ts, hts, hderives⟩ := builds_items (derivesBelow_level source _) _ _ _ _ hitems
  obtain rfl : tokens = ts := by
    have hrest := hts.rest
    rwa [hend, List.append_nil] at hrest
  exact hderives

end Grammar

end DesiredState

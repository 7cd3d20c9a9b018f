/-
Rules read the same of common tokens.

Rule by rule, in the order of the grammar: what a rule reads of a stretch of common tokens
on the left it reads on the right, to a node that is the same up to what the two sides look
at.  The rules nest in each other through the levels, and the levels need not be of the same
height: the one on the right has to be as high as there are tokens ahead, which is enough
for whatever was read on the left.
-/
import DesiredState.Proofs.Script.Parallel

namespace DesiredState

open Reading Grammar

namespace Parallel

variable (T : Parallel)

/-! ### Results that are the same

Results are compared as the two sides look at them.  Two results that look the same need
not have the same extents, but what is built of them looks the same too.
-/

/-- Items that are the same up to what is looked at. -/
def SameItem (a b : Item) : Prop := a.relabel T.left.look = b.relabel T.right.look

/-- Nodes and marks that are the same up to what is looked at. -/
def SameMarked (node : Relabelling → α → α) (a b : Marked α) : Prop :=
  a.relabel T.left.look (node T.left.look) = b.relabel T.right.look (node T.right.look)

/-- Operands that are the same up to what is looked at, and whose extents go together. -/
def SameOperand (a b : Marked Expression) : Prop :=
  T.Alike a.node b.node ∧
    a.marks.map (Mark.relabel T.left.look) = b.marks.map (Mark.relabel T.right.look)

/-- Parts of an argument list that are the same up to what is looked at. -/
def SamePart : ArgumentPart → ArgumentPart → Prop
  | .parameter e name, .parameter f name' => T.Same e f ∧ name = name'
  | .comma, .comma => True
  | .value a, .value b => T.Alike a b
  | _, _ => False

/-- Parts with the same marks. -/
def SameMarkedPart (a b : Marked ArgumentPart) : Prop :=
  T.SamePart a.node b.node ∧
    a.marks.map (Mark.relabel T.left.look) = b.marks.map (Mark.relabel T.right.look)

/-- Arguments that are the same up to what is looked at. -/
def SameArgument : Argument → Argument → Prop
  | .parameter e name, .parameter f name' => T.Same e f ∧ name = name'
  | .value a, .value b => T.Alike a b
  | _, _ => False

variable {T}

theorem map_eq_of_forall₂ {g : α → γ} {g' : β → γ} {list : List α} {list' : List β}
    (h : List.Forall₂ (fun a b => g a = g' b) list list') : list.map g = list'.map g' := by
  induction h with
  | nil => rfl
  | cons hab _ ih => rw [List.map_cons, List.map_cons, hab, ih]

theorem SameOperand.same {a b : Marked Expression} (h : T.SameOperand a b) :
    T.SameMarked Expression.relabel a b := by
  unfold SameMarked Marked.relabel
  rw [h.1.1, h.2]

theorem SameMarked.node {node : Relabelling → α → α} {a b : Marked α} (h : T.SameMarked node a b) :
    node T.left.look a.node = node T.right.look b.node := congrArg Marked.node h

theorem SameMarked.marks {node : Relabelling → α → α} {a b : Marked α}
    (h : T.SameMarked node a b) :
    a.marks.map (Mark.relabel T.left.look) = b.marks.map (Mark.relabel T.right.look) :=
  congrArg Marked.marks h

theorem SameMarked.mk {node : Relabelling → α → α} {a b : Marked α}
    (hnode : node T.left.look a.node = node T.right.look b.node)
    (hmarks : a.marks.map (Mark.relabel T.left.look) = b.marks.map (Mark.relabel T.right.look)) :
    T.SameMarked node a b := by
  unfold SameMarked Marked.relabel
  rw [hnode, hmarks]

/-- The marks of items, one after another. -/
theorem flatMap_marks (m : Relabelling) (list : List Item) :
    (list.flatMap (·.marks)).map (Mark.relabel m) =
      (list.map (Item.relabel m)).flatMap (·.marks) := by
  rw [List.flatMap_map, List.map_flatMap]
  rfl

theorem statements_eq {list list' : List Item}
    (h : list.map (Item.relabel T.left.look) = list'.map (Item.relabel T.right.look)) :
    (list.map (·.statement)).map (Statement.relabel T.left.look) =
      (list'.map (·.statement)).map (Statement.relabel T.right.look) := by
  have hstatements := congrArg (List.map Item.statement) h
  rw [List.map_map, List.map_map] at hstatements
  rw [List.map_map, List.map_map]
  exact hstatements

theorem marks_eq {list list' : List Item}
    (h : list.map (Item.relabel T.left.look) = list'.map (Item.relabel T.right.look)) :
    (list.flatMap (·.marks)).map (Mark.relabel T.left.look) =
      (list'.flatMap (·.marks)).map (Mark.relabel T.right.look) := by
  rw [flatMap_marks, flatMap_marks, h]

theorem flatMap_marked_eq {node : Relabelling → α → α} {list list' : List (Marked α)}
    (h : List.Forall₂ (T.SameMarked node) list list') :
    (list.map (·.node)).map (node T.left.look) = (list'.map (·.node)).map (node T.right.look) ∧
      (list.flatMap (·.marks)).map (Mark.relabel T.left.look) =
        (list'.flatMap (·.marks)).map (Mark.relabel T.right.look) := by
  induction h with
  | nil => exact ⟨rfl, rfl⟩
  | cons hab _ ih =>
    refine ⟨?_, ?_⟩
    · rw [List.map_cons, List.map_cons, List.map_cons, List.map_cons, hab.node, ih.1]
    · rw [List.flatMap_cons, List.flatMap_cons, List.map_append, List.map_append, hab.marks, ih.2]

/-! ### Arguments -/

theorem joinValues_alike {a b c d : Expression} (h : T.Alike a b) (h' : T.Alike c d) :
    T.Alike (joinValues T.left.source a c) (joinValues T.right.source b d) := by
  have hsame := T.same_joined h.2 h'.2
  rw [joinValues_eq, joinValues_eq]
  refine ⟨?_, hsame⟩
  simp only [Expression.relabel, Term.relabels_eq, ← joined_relabel, h.1, h'.1, T.look_eq hsame]

theorem SameArgument.relabel {a b : Argument} (h : T.SameArgument a b) :
    a.relabel T.left.look = b.relabel T.right.look := by
  cases a <;> cases b
  · obtain ⟨hsame, rfl⟩ := h
    rw [Argument.relabel, Argument.relabel, T.look_eq hsame]
  · exact h.elim
  · exact h.elim
  · rw [Argument.relabel, Argument.relabel, h.1]

/-- Commas join the same arguments on both sides. -/
theorem foldArguments_same {parts parts' : List ArgumentPart}
    (h : List.Forall₂ T.SamePart parts parts') (joining : Bool) {done done' : List Argument}
    (hdone : List.Forall₂ T.SameArgument done done') :
    (foldArguments T.left.source joining done parts).map (Argument.relabel T.left.look) =
      (foldArguments T.right.source joining done' parts').map (Argument.relabel T.right.look) := by
  induction h generalizing joining done done' with
  | nil =>
    unfold foldArguments
    rw [List.map_reverse, List.map_reverse, map_eq_of_forall₂ (hdone.imp fun _ _ => SameArgument.relabel)]
  | @cons part part' rest rest' hpart _ ih =>
    cases part with
    | parameter e name =>
      cases part' with
      | parameter f name' =>
        rw [foldArguments, foldArguments]
        exact ih false (.cons hpart hdone)
      | _ => exact hpart.elim
    | comma =>
      cases part' with
      | comma =>
        rw [foldArguments, foldArguments]
        have hempty : done.isEmpty = done'.isEmpty := by cases hdone <;> rfl
        rw [hempty]
        exact ih _ hdone
      | _ => exact hpart.elim
    | value a =>
      cases part' with
      | value b =>
        cases joining with
        | false =>
          simp only [foldArguments]
          exact ih false (.cons hpart hdone)
        | true =>
          cases hdone with
          | nil =>
            simp only [foldArguments]
            exact ih false (.cons hpart .nil)
          | @cons previous previous' earlier earlier' hprevious hearlier =>
            cases previous <;> cases previous'
            · simp only [foldArguments]
              exact ih false (.cons hpart (.cons hprevious hearlier))
            · exact hprevious.elim
            · exact hprevious.elim
            · simp only [foldArguments]
              exact ih false (.cons (joinValues_alike hprevious hpart) hearlier)
      | _ => exact hpart.elim

theorem parts_same {list list' : List (Marked ArgumentPart)}
    (h : List.Forall₂ T.SameMarkedPart list list') :
    List.Forall₂ T.SamePart (list.map (·.node)) (list'.map (·.node)) ∧
      (list.flatMap (·.marks)).map (Mark.relabel T.left.look) =
        (list'.flatMap (·.marks)).map (Mark.relabel T.right.look) := by
  induction h with
  | nil => exact ⟨.nil, rfl⟩
  | cons hab _ ih =>
    refine ⟨.cons hab.1 ih.1, ?_⟩
    rw [List.flatMap_cons, List.flatMap_cons, List.map_append, List.map_append, hab.2, ih.2]

/-! ### The levels below -/

/-- What the levels below read before at most so many common tokens. -/
structure Agrees (T : Parallel) (size : Nat) (below below' : Level) : Prop where
  nests : Nesting.Below below
  statement : ∀ back ahead, T.Keeps size 0 back ahead below.statement below'.statement
    fun a b _ => T.SameItem a b
  value : ∀ back ahead, T.Keeps size 0 back ahead below.value below'.value
    fun a b _ => T.SameMarked Statement.relabel a b

section Rules

variable {size spare : Nat} {below below' : Level} {back ahead : List (Token × Token)}

theorem Agrees.takes_statement (h : T.Agrees size below below') : Takes 1 below.statement :=
  .of_reads h.nests.statement (Nat.le_refl _)

theorem Agrees.takes_value (h : T.Agrees size below below') : Takes 1 below.value :=
  .of_reads h.nests.value (Nat.le_refl _)

/-! ### Brackets -/

theorem takes_itemOr (h : T.Agrees size below below') (separates : TokenKind → Bool) :
    Takes 1 (itemOr below separates) := by
  refine Takes.nextIs fun b => ?_
  split
  · exact Takes.token.left fun _ => Takes.pure _
  · exact h.takes_statement.left fun _ => Takes.pure _

theorem keeps_itemOr (h : T.Agrees size below below') (separates : TokenKind → Bool) :
    T.Keeps size 0 back ahead (itemOr below separates) (itemOr below' separates) fun o o' _ =>
      o.map (Item.relabel T.left.look) = o'.map (Item.relabel T.right.look) := by
  refine Keeps.choose (takes_itemOr h separates) fun q rest hahead => ?_
  split
  · exact Keeps.token.map fun _ _ _ _ => rfl
  · exact (h.statement back ahead).map fun a b _ hab => congrArg some hab

theorem takes_items (h : T.Agrees size below below') (separates : TokenKind → Bool) :
    Takes 0 (items below separates) :=
  (Takes.readWhile ((takes_itemOr h separates).mono (Nat.zero_le 1))).left fun _ => Takes.pure _

/-- A list of items in which separators have been left out. -/
theorem map_relabel_filterMap {list list' : List (Option Item)} {left right : Relabelling}
    (h : List.Forall₂ (fun o o' => o.map (Item.relabel left) = o'.map (Item.relabel right))
      list list') :
    (list.filterMap id).map (Item.relabel left) = (list'.filterMap id).map (Item.relabel right) := by
  rw [List.map_filterMap, List.map_filterMap]
  have hmaps := congrArg (List.filterMap id) (map_eq_of_forall₂ h)
  rw [List.filterMap_map, List.filterMap_map] at hmaps
  exact hmaps

/-- Items are read up to a token that is left alone, to one that starts no item, or to the end of
what there is. -/
theorem keeps_items (h : T.Agrees size below below') (separates : TokenKind → Bool)
    (hend : spare = 0 → ∀ next, T.right.after.head? = some next →
      (next.kind.startsStatement || separates next.kind) = false) :
    T.Keeps size spare back ahead (items below separates) (items below' separates)
      fun list list' _ =>
        list.map (Item.relabel T.left.look) = list'.map (Item.relabel T.right.look) := by
  have hshut (hspare : spare = 0) :
      T.Shut (fun c => c.nextIs fun kind => kind.startsStatement || separates kind)
        fun _ => True := by
    intro back _ _
    refine Bool.eq_false_iff.mpr fun hnext => ?_
    obtain ⟨next, rest, hafter, hstarts⟩ := nextIs_after hnext
    rw [hend hspare next (by rw [hafter]; rfl)] at hstarts
    cases hstarts
  refine (Keeps.readWhile (I := fun _ => True) (gate_nextIs _) hshut
    (takes_itemOr h separates)
    (fun back ahead _ _ => (keeps_itemOr h separates).mono fun _ _ _ hab => ⟨hab, trivial⟩)
    trivial).map ?_
  rintro list list' - ⟨hall, -⟩
  exact map_relabel_filterMap hall

theorem takes_closing (kind : TokenKind) (a : α) : Takes 1 (expect kind >>= fun _ => pure a) :=
  (Takes.expect kind).left fun _ => Takes.pure a

theorem settled_cons {p : Token × Token} (hk : p.1.kind.endsArgument)
    (hname : p.1.kind.isName = false) : Settled (p :: back) :=
  ⟨p, back, rfl, hk, fun _ => hname⟩

/-- A closing bracket settles what comes before it. -/
theorem keeps_closing {kind : TokenKind} (hk : kind.endsArgument) (hname : kind.isName = false)
    (a : α) (b : β) :
    T.Keeps size spare back ahead (expect kind >>= fun _ => pure a)
      (expect kind >>= fun _ => pure b) fun a' b' back' => a' = a ∧ b' = b ∧ Settled back' := by
  refine (Keeps.expect kind).map ?_
  rintro t u back' ⟨-, rfl, rfl⟩
  exact ⟨rfl, rfl, settled_cons hk hname⟩

theorem keeps_body (h : T.Agrees size below below') :
    T.Keeps (size + 1) 0 back ahead (body T.left.source below) (body T.right.source below')
      fun a b _ => a.1.map (Item.relabel T.left.look) = b.1.map (Item.relabel T.right.look) ∧
        T.Same a.2 b.2 := by
  have hinner : Takes 0 (items below (· == .semicolon) >>= fun list =>
      expect .braceClose >>= fun _ => pure fun extent : Extent => (list, extent)) :=
    (takes_items h _).left fun _ => (takes_closing _ _).mono (Nat.zero_le 1)
  refine Keeps.spanning ((Takes.expect _).left fun _ => hinner) ?_
  refine Keeps.bind_less (Takes.expect _) (Keeps.expect _) (fun _ => hinner) ?_
  intro _ _ back ahead _
  refine Keeps.bind (n := 1) (keeps_items h _ (fun hz => absurd hz (by decide)))
    (fun _ => takes_closing _ _) ?_
  intro list list' back ahead hlist
  refine (keeps_closing rfl rfl _ _).mono ?_
  rintro _ _ _ ⟨rfl, rfl, -⟩ e f hsame
  exact ⟨hlist, hsame⟩

theorem keeps_bracketedArray (h : T.Agrees size below below') :
    T.Keeps (size + 1) 0 back ahead (bracketedArray T.left.source below)
      (bracketedArray T.right.source below')
      fun a b back' => T.SameOperand a b ∧ Settled back' := by
  have hinner : Takes 0 (items below (fun kind => kind == .semicolon || kind == .comma) >>=
      fun list => expect .parenClose >>= fun _ => pure fun extent =>
        (⟨.array extent true (list.flatMap fun item => contributed item.statement),
          list.flatMap (·.marks)⟩ : Marked Expression)) :=
    (takes_items h _).left fun _ => (takes_closing _ _).mono (Nat.zero_le 1)
  refine Keeps.spanning ((Takes.expect _).left fun _ => hinner) ?_
  refine Keeps.bind_less (Takes.expect _) (Keeps.expect _) (fun _ => hinner) ?_
  intro _ _ back ahead _
  refine Keeps.bind (n := 1) (keeps_items h _ (fun hz => absurd hz (by decide)))
    (fun _ => takes_closing _ _) ?_
  intro list list' back ahead hlist
  refine (keeps_closing rfl rfl _ _).mono ?_
  rintro _ _ _ ⟨rfl, rfl, hback⟩ e f hsame
  refine ⟨⟨⟨?_, hsame⟩, marks_eq hlist⟩, hback⟩
  have helements (m : Relabelling) (list : List Item) :
      (list.flatMap fun item => contributed item.statement).map (Term.relabel m) =
        (list.map (Item.relabel m)).flatMap fun item => contributed item.statement := by
    rw [List.map_flatMap, List.flatMap_map]
    exact congrArg (fun g => list.flatMap g)
      (funext fun item => (contributed_relabel m item.statement).symm)
  simp only [Expression.relabel, Term.relabels_eq, helements, hlist, T.look_eq hsame]

/-- The key of an entry is the same text on both sides. -/
theorem keyText_eq {t u : Token} (hmem : (t, u) ∈ T.pairs) :
    (if t.kind.isString then (Literal.ofString t).1 else t.text) =
      if u.kind.isString then (Literal.ofString u).1 else u.text := by
  have hkind : u.kind = t.kind := kind_eq hmem
  have htext : u.text = t.text := text_eq hmem
  simp only [Literal.ofString, hkind, htext]

theorem keeps_tableEntry (h : T.Agrees size below below') :
    T.Keeps (size + 1) 0 back ahead (tableEntry below) (tableEntry below')
      fun a b _ => T.SameMarked Entry.relabel a b := by
  have hvalue (key : Token) : Takes 0 (below.value >>= fun value =>
      pure (⟨⟨if key.kind.isString then (Literal.ofString key).1 else key.text, key.location,
        value.node⟩, value.marks⟩ : Marked Entry)) :=
    (h.takes_value.mono (Nat.zero_le 1)).left fun _ => Takes.pure _
  refine Keeps.bind_less Takes.token Keeps.token
    (fun key => ((Takes.expect _).mono (Nat.zero_le 1)).left fun _ => hvalue key) ?_
  rintro key key' _ _ ⟨hmem, -, -⟩
  refine Keeps.bind (Keeps.expect _) (fun _ => hvalue key) fun _ _ back ahead _ => ?_
  refine (h.value back ahead).map fun a b _ hab => SameMarked.mk ?_ hab.marks
  rw [Entry.relabel, Entry.relabel, hab.node, location_eq hmem, keyText_eq hmem]

theorem takes_tableEntry (h : T.Agrees size below below') : Takes 1 (tableEntry below) := by
  refine Takes.token.left fun key => ((Takes.expect _).mono (Nat.zero_le 1)).left fun _ => ?_
  exact (h.takes_value.mono (Nat.zero_le 1)).left fun _ => Takes.pure _

theorem takes_entryOrSeparator (h : T.Agrees size below below') :
    Takes 1 (entryOrSeparator below) := by
  refine Takes.nextIs fun b => ?_
  split
  · exact Takes.token.left fun _ => Takes.pure _
  · exact (takes_tableEntry h).left fun _ => Takes.pure _

theorem keeps_entryOrSeparator (h : T.Agrees size below below') :
    T.Keeps (size + 1) 0 back ahead (entryOrSeparator below) (entryOrSeparator below')
      fun o o' _ => Option.Rel (T.SameMarked Entry.relabel) o o' := by
  refine Keeps.choose (takes_entryOrSeparator h) fun q rest hahead => ?_
  split
  · exact Keeps.token.map fun _ _ _ _ => .none
  · exact (keeps_tableEntry h).map fun _ _ _ hab => .some hab

theorem forall₂_filterMap {R : α → β → Prop} {list : List (Option α)} {list' : List (Option β)}
    (h : List.Forall₂ (Option.Rel R) list list') :
    List.Forall₂ R (list.filterMap id) (list'.filterMap id) := by
  induction h with
  | nil => exact .nil
  | cons hab _ ih =>
    cases hab with
    | none => exact ih
    | some hab => exact .cons hab ih

theorem keeps_bracketedTable (h : T.Agrees size below below') :
    T.Keeps (size + 1) 0 back ahead (bracketedTable T.left.source below)
      (bracketedTable T.right.source below')
      fun a b back' => T.SameOperand a b ∧ Settled back' := by
  have hloop : Takes 0 (readWhile (·.nextIs fun kind => kind.startsEntry || kind == .semicolon)
      (entryOrSeparator below)) :=
    Takes.readWhile ((takes_entryOrSeparator h).mono (Nat.zero_le 1))
  have hinner : Takes 0 (readWhile (·.nextIs fun kind => kind.startsEntry || kind == .semicolon)
      (entryOrSeparator below) >>= fun read => expect .braceClose >>= fun _ =>
        pure fun extent => (⟨.table ⟨extent, (read.filterMap id).map (·.node)⟩,
          (read.filterMap id).flatMap (·.marks)⟩ : Marked Expression)) :=
    hloop.left fun _ => (takes_closing _ _).mono (Nat.zero_le 1)
  refine Keeps.spanning ((Takes.expect _).left fun _ => hinner) ?_
  refine Keeps.bind_less (Takes.expect _) (Keeps.expect _) (fun _ => hinner) ?_
  intro _ _ back ahead _
  refine Keeps.bind (n := 1) (Keeps.readWhile (I := fun _ => True) (gate_nextIs _)
    (fun hz => absurd hz (by decide)) (takes_entryOrSeparator h)
    (fun back ahead _ _ => ((keeps_entryOrSeparator h).smaller (Nat.le_succ _)).mono
      fun _ _ _ hab => ⟨hab, trivial⟩) trivial) (fun _ => takes_closing _ _) ?_
  rintro list list' back ahead ⟨hall, -⟩
  refine (keeps_closing rfl rfl _ _).mono ?_
  rintro _ _ _ ⟨rfl, rfl, hback⟩ e f hsame
  obtain ⟨hentries, hmarks⟩ := flatMap_marked_eq (forall₂_filterMap hall)
  refine ⟨⟨⟨?_, hsame⟩, hmarks⟩, hback⟩
  simp only [Expression.relabel, Table.relabel, Entry.relabels_eq, hentries, T.look_eq hsame]

/-! ### Operands

Casts and accesses go on as long as the next token touches the one before it or stands
on its line.  What has been read is therefore settled before the question is asked
again.
-/

theorem keeps_tokenExpression {build build' : Token → Extent → Expression}
    (hkind : ∀ q ∈ ahead.head?, q.1.kind.endsArgument ∧ q.1.kind.isName = false)
    (hbuild : ∀ p ∈ ahead.head?, p ∈ T.pairs →
      T.Same (.ofTokens T.left.source [p.1]) (.ofTokens T.right.source [p.2]) →
      T.Alike (build p.1 (.ofTokens T.left.source [p.1]))
        (build' p.2 (.ofTokens T.right.source [p.2]))) :
    T.Keeps size 0 back ahead (tokenExpression T.left.source build)
      (tokenExpression T.right.source build')
      fun a b back' => T.SameOperand a b ∧ Settled back' := by
  refine Keeps.spanning_tokens (Takes.token.left fun _ => Takes.pure _) (Keeps.token.map ?_)
  rintro t u _ ⟨hmem, hhead, rfl⟩ taken htaken hsame
  obtain rfl : taken = [(t, u)] := by
    rw [← List.singleton_append, List.append_left_inj] at htaken
    rw [← List.reverse_reverse taken, ← htaken]
    rfl
  obtain ⟨hk, hname⟩ := hkind (t, u) hhead
  exact ⟨⟨hbuild (t, u) hhead hmem hsame, rfl⟩, settled_cons hk hname⟩

theorem closer?_ends {kind closer : TokenKind} (h : kind.closer? = some closer) :
    closer.endsArgument ∧ closer.isName = false := by
  cases kind <;> first | (cases h; exact ⟨rfl, rfl⟩) | cases h

/-- Groups are closed by the same tokens.  The induction is on the tokens ahead. -/
theorem closeGroups_same {closers : List TokenKind} (hne : closers ≠ [])
    (hends : ∀ closer ∈ closers, closer.endsArgument ∧ closer.isName = false) {c : Cursor}
    (hat : T.pairs = back.reverse ++ ahead)
    (h : closeGroups closers (back.map Prod.fst ++ T.left.before)
      (ahead.map Prod.fst ++ T.left.after) = .ok c)
    (hleft : T.left.after.length ≤ c.rest.length) :
    ∃ taken rest, ahead = taken ++ rest ∧ c = T.cursorLeft (taken.reverse ++ back) rest ∧
      closeGroups closers (back.map Prod.snd ++ T.right.before)
        (ahead.map Prod.snd ++ T.right.after) = .ok (T.cursorRight (taken.reverse ++ back) rest) ∧
      Settled (taken.reverse ++ back) := by
  induction ahead generalizing closers back with
  | nil =>
    obtain ⟨tokens, hrest, -, hmoves⟩ := Nesting.moves_closeGroups h
    have htokens : tokens = [] := by
      rw [List.map_nil, List.nil_append] at hrest
      rw [hrest, List.length_append] at hleft
      exact List.eq_nil_of_length_eq_zero (by omega)
    have hrun := hmoves []
    rw [htokens, List.append_nil, List.append_nil] at hrun
    exact absurd (Option.some.inj hrun) hne
  | cons q more ih =>
    obtain ⟨closer, outer, rfl⟩ := List.exists_cons_of_ne_nil hne
    have hkind : q.2.kind = q.1.kind := kind_eq (mem_ahead hat)
    -- Whatever the token does to the open groups, the rest goes on from there.
    have step (open' : List TokenKind) (hne' : open' ≠ [])
        (hends' : ∀ closer ∈ open', closer.endsArgument ∧ closer.isName = false)
        (hl : closeGroups open' ((q :: back).map Prod.fst ++ T.left.before)
          (more.map Prod.fst ++ T.left.after) = .ok c) :
        ∃ taken rest, q :: more = taken ++ rest ∧ c = T.cursorLeft (taken.reverse ++ back) rest ∧
          closeGroups open' ((q :: back).map Prod.snd ++ T.right.before)
            (more.map Prod.snd ++ T.right.after) =
              .ok (T.cursorRight (taken.reverse ++ back) rest) ∧
          Settled (taken.reverse ++ back) := by
      obtain ⟨taken, rest, rfl, hc, hr, hback⟩ := ih hne' hends' (by simp [hat]) hl
      exact ⟨q :: taken, rest, rfl, by simpa using hc, by simpa using hr, by simpa using hback⟩
    simp only [List.map_cons, List.cons_append, closeGroups] at h ⊢
    rw [hkind]
    cases hk : q.1.kind.closer? with
    | some inner =>
      simp only [hk] at h ⊢
      refine step _ (List.cons_ne_nil _ _) ?_ h
      intro k hmem
      rcases List.mem_cons.mp hmem with rfl | hmem
      · exact closer?_ends hk
      · exact hends k hmem
    | none =>
      simp only [hk] at h ⊢
      by_cases hcontent : q.1.kind.isContent
      · rw [if_pos hcontent] at h ⊢
        exact step _ (List.cons_ne_nil _ _) hends h
      · rw [if_neg hcontent] at h ⊢
        by_cases hcloser : q.1.kind = closer
        · rw [if_pos hcloser] at h ⊢
          cases outer with
          | cons next further =>
            exact step _ (List.cons_ne_nil _ _)
              (fun k hmem => hends k (List.mem_cons_of_mem _ hmem)) h
          | nil =>
            obtain ⟨hend, hname⟩ := hends closer List.mem_cons_self
            rw [← hcloser] at hend hname
            unfold closeGroups at h
            cases h
            exact ⟨[q], more, rfl, rfl, by unfold closeGroups; rfl, settled_cons hend hname⟩
        · rw [if_neg hcloser] at h
          cases h

theorem takes_group : Takes 1 group :=
  Takes.of_reads (fun _ => Nesting.reads_group) (Nat.le_refl 1)

theorem keeps_group :
    T.Keeps size 0 back ahead group group fun _ _ back' => Settled back' := by
  refine Keeps.start takes_group ?_
  rintro q rest rfl hq hat hsize a c hr hleft
  have hkind : q.2.kind = q.1.kind := kind_eq hq
  simp only [group, cursorLeft, List.map_cons, List.cons_append] at hr
  simp only [group, cursorRight, List.map_cons, List.cons_append, hkind]
  cases hk : q.1.kind.closer? with
  | none => simp only [hk] at hr; cases hr
  | some closer =>
    simp only [hk] at hr ⊢
    cases hl : closeGroups [closer] (q.1 :: (back.map Prod.fst ++ T.left.before))
        (rest.map Prod.fst ++ T.left.after) with
    | error e => rw [hl] at hr; cases hr
    | ok after =>
      rw [hl] at hr
      cases hr
      have hends : ∀ k ∈ [closer], k.endsArgument ∧ k.isName = false := by
        intro k hmem
        rw [List.mem_singleton.mp hmem]
        exact closer?_ends hk
      have hat' : T.pairs = (q :: back).reverse ++ rest := by simp [hat]
      obtain ⟨taken, more, rfl, hc, hr, hback⟩ := closeGroups_same (List.cons_ne_nil _ _) hends hat'
        hl (by simpa using hleft)
      refine ⟨q :: taken, more, (), rfl, by simpa using hc, ?_, by simpa using hback⟩
      simp only [List.map_cons, List.cons_append] at hr
      rw [hr]
      simp [cursorRight]

theorem keeps_groupExpression {build : Extent → Expression}
    (hbuild : ∀ e f, T.Same e f → T.Alike (build e) (build f)) :
    T.Keeps size 0 back ahead (groupExpression T.left.source build)
      (groupExpression T.right.source build)
      fun a b back' => T.SameOperand a b ∧ Settled back' := by
  refine Keeps.spanning (takes_group.left fun _ => Takes.pure _) (keeps_group.map ?_)
  intro _ _ _ hback e f hsame
  exact ⟨⟨hbuild e f hsame, rfl⟩, hback⟩

theorem nextKind?_cursorLeft (q : Token × Token) (rest : List (Token × Token)) :
    (T.cursorLeft back (q :: rest)).nextKind? = some q.1.kind := rfl

theorem nextKind?_cursorRight {q : Token × Token} (rest : List (Token × Token))
    (hq : q ∈ T.pairs) : (T.cursorRight back (q :: rest)).nextKind? = some q.1.kind := by
  rw [← kind_eq hq]
  rfl

theorem unrecognized_alike {e f : Extent} (hsame : T.Same e f) :
    T.Alike (.unrecognized e) (.unrecognized f) :=
  ⟨by rw [Expression.relabel, Expression.relabel, T.look_eq hsame], hsame⟩

theorem stringExpression_alike {t u : Token} (hmem : (t, u) ∈ T.pairs) {e f : Extent}
    (hsame : T.Same e f) : T.Alike (stringExpression t e) (stringExpression u f) := by
  have hkind : u.kind = t.kind := kind_eq hmem
  have htext : u.text = t.text := text_eq hmem
  refine ⟨?_, hsame⟩
  simp only [stringExpression, Literal.ofString, hkind, htext, Expression.relabel, T.look_eq hsame]

theorem numberExpression_alike {p : Token × Token} (hmem : p ∈ T.pairs) (hk : p.1.kind = .number)
    (hsame : T.Same (.ofTokens T.left.source [p.1]) (.ofTokens T.right.source [p.2])) :
    T.Alike (numberExpression p.1 (.ofTokens T.left.source [p.1]))
      (numberExpression p.2 (.ofTokens T.right.source [p.2])) := by
  unfold numberExpression
  rw [text_eq hmem]
  cases Literal.number? p.1.text with
  | none => exact ⟨by rw [Expression.relabel, Expression.relabel, T.look_eq hsame], hsame⟩
  | some x =>
    exact ⟨by rw [Expression.relabel, Expression.relabel, T.number_eq p hmem hk], hsame⟩

theorem keeps_primary (h : T.Agrees size below below') :
    T.Keeps (size + 1) 0 back ahead (primary T.left.source below) (primary T.right.source below')
      fun a b back' => T.SameOperand a b ∧ Settled back' := by
  refine Keeps.start (.of_reads (Nesting.reads_primary _ h.nests) (Nat.le_refl 1)) ?_
  rintro q rest rfl hq
  refine Keeps.get ?_
  rw [nextKind?_cursorLeft, nextKind?_cursorRight rest hq]
  have hkind {kind : TokenKind} (hk : q.1.kind = kind) (hends : kind.endsArgument)
      (hname : kind.isName = false) : ∀ p ∈ (q :: rest).head?,
        p.1.kind.endsArgument ∧ p.1.kind.isName = false := by
    rintro _ ⟨⟩
    rw [hk]
    exact ⟨hends, hname⟩
  generalize hk : q.1.kind = kind
  cases kind with
  | hereDouble | hereSingle | doubleQuoted | singleQuoted =>
    exact keeps_tokenExpression (hkind hk rfl rfl) fun _ _ hmem => stringExpression_alike hmem
  | number =>
    refine keeps_tokenExpression (hkind hk rfl rfl) fun p hp hmem => ?_
    obtain rfl : q = p := Option.some.inj hp
    exact numberExpression_alike hmem hk
  | variableName =>
    refine keeps_tokenExpression (hkind hk rfl rfl) fun p _ hmem hsame => ⟨?_, hsame⟩
    simp only [Expression.relabel, Variable.relabel, text_eq hmem, T.look_eq hsame]
  | splat => exact keeps_tokenExpression (hkind hk rfl rfl) fun _ _ _ => unrecognized_alike
  | arrayOpen => exact keeps_bracketedArray h
  | tableOpen => exact keeps_bracketedTable h
  | parenOpen | subexpressionOpen => exact keeps_groupExpression fun _ _ => unrecognized_alike
  | braceOpen =>
    refine keeps_groupExpression fun e f hsame => ⟨?_, hsame⟩
    rw [Expression.relabel, Expression.relabel, T.look_eq hsame]
  | _ => exact Keeps.reject

theorem takes_access : Takes 1 access := .of_reads Nesting.reads_access (Nat.le_refl 1)

theorem keeps_name :
    T.Keeps size spare back ahead (tokenOf "Name" TokenKind.isName)
      (tokenOf "Name" TokenKind.isName) fun t u back' =>
        (t, u) ∈ T.pairs ∧ (∃ p, p.1.kind.endsArgument ∧ back' = p :: back) := by
  refine (Keeps.tokenOf _ _).mono ?_
  rintro t u _ ⟨hmem, hname, rfl⟩
  refine ⟨hmem, (t, u), ?_, rfl⟩
  generalize t.kind = kind at hname
  cases kind <;> first | rfl | exact hname

/-- A name behind a point is settled: the point is one of the common tokens. -/
theorem settled_name {p q : Token × Token} (hp : p.1.kind.endsArgument) :
    Settled (p :: q :: back) :=
  ⟨p, q :: back, rfl, hp, fun h => absurd h (List.cons_ne_nil _ _)⟩

theorem keeps_access :
    T.Keeps size 0 back ahead access access fun a b back' => a = b ∧ Settled back' := by
  refine Keeps.start takes_access ?_
  rintro q rest rfl hq
  refine Keeps.get ?_
  rw [nextKind?_cursorLeft, nextKind?_cursorRight rest hq]
  have hgroup : T.Keeps size 0 back (q :: rest) (group >>= fun _ => pure Access.other)
      (group >>= fun _ => pure Access.other) fun a b back' => a = b ∧ Settled back' :=
    keeps_group.map fun _ _ _ hback => ⟨rfl, hback⟩
  generalize hk : q.1.kind = kind
  cases kind with
  | dot =>
    refine Keeps.bind Keeps.token (fun _ => (Takes.tokenOf _ _).left fun _ => Takes.pure _) ?_
    rintro t u _ ahead ⟨-, -, rfl⟩
    refine keeps_name.map ?_
    rintro name name' _ ⟨hmem, p, hp, rfl⟩
    exact ⟨congrArg Access.member (text_eq hmem).symm, settled_name hp⟩
  | doubleColon =>
    refine Keeps.bind Keeps.token (fun _ => (Takes.tokenOf _ _).left fun _ => Takes.pure _) ?_
    rintro t u _ ahead ⟨-, -, rfl⟩
    refine keeps_name.map ?_
    rintro name name' _ ⟨hmem, p, hp, rfl⟩
    exact ⟨rfl, settled_name hp⟩
  | bracketOpen =>
    have hclose : ∀ list : List Token, Takes 1 (expect .bracketClose >>= fun _ =>
        pure Access.other) := fun _ => takes_closing _ _
    refine Keeps.bind (n := 1) Keeps.token (fun _ =>
      (Takes.readWhile (Takes.token.mono (Nat.zero_le 1))).right hclose) ?_
    intro _ _ back ahead _
    refine Keeps.bind (n := 1) (Keeps.readWhile (I := fun _ => True) (R := fun _ _ => True)
      (gate_nextIs _) (fun hz => absurd hz (by decide)) Takes.token
      (fun back ahead _ _ => Keeps.token.mono fun _ _ _ _ => ⟨trivial, trivial⟩) trivial)
      hclose ?_
    intro _ _ back ahead _
    refine (keeps_closing rfl rfl _ _).mono ?_
    rintro _ _ _ ⟨rfl, rfl, hback⟩
    exact ⟨rfl, hback⟩
  | typeLiteral =>
    refine Keeps.token.map ?_
    rintro t u _ ⟨-, hhead, rfl⟩
    refine ⟨rfl, settled_cons ?_ ?_⟩
    · cases hhead; rw [hk]; rfl
    · cases hhead; rw [hk]; rfl
  | _ => exact hgroup

theorem keeps_accesses (hback : Settled back) :
    T.Keeps size 0 back ahead accesses accesses fun a b back' => a = b ∧ Settled back' := by
  refine (Keeps.readWhile gate_accessFollows (fun _ => shut_accessFollows) takes_access
    (fun _ _ _ _ => keeps_access) hback).mono ?_
  rintro list list' _ ⟨hall, hback⟩
  exact ⟨List.forall₂_eq_eq_eq ▸ hall, hback⟩

theorem takes_primary (h : T.Agrees size below below') :
    Takes 1 (primary T.left.source below) :=
  .of_reads (Nesting.reads_primary _ h.nests) (Nat.le_refl 1)

theorem takes_accesses : Takes 0 accesses := .of_reads Nesting.reads_accesses (Nat.le_refl 0)

theorem keeps_castValue (h : T.Agrees size below below') (hback : Settled back) :
    T.Keeps (size + 1) 0 back ahead (castValue T.left.source below)
      (castValue T.right.source below') fun _ _ back' => Settled back' := by
  refine Keeps.optional gate_castValueFollows shut_castValueFollows hback.endsArgument
    ((takes_primary h).left fun _ => Takes.pure _) (fun _ => ?_) (Keeps.pure hback)
  exact (keeps_primary h).map fun _ _ _ hab => hab.2

/-- The last one of some tokens is a cast. -/
def EndsCast (back : List (Token × Token)) : Prop :=
  ∃ p rest, back = p :: rest ∧ p.1.kind = .typeLiteral

theorem EndsCast.settled (hback : EndsCast back) : Settled back := by
  obtain ⟨p, rest, rfl, hp⟩ := hback
  refine settled_cons ?_ ?_ <;> rw [hp] <;> rfl

theorem shut_cast : T.Shut (fun c => c.nextIs (· == .typeLiteral)) EndsCast := by
  intro back hat hback
  obtain ⟨p, before, rfl, hp⟩ := hback
  refine Bool.eq_false_iff.mpr fun h => ?_
  obtain ⟨next, rest, hafter, hnext⟩ := nextIs_after h
  have hstops := T.stops p next (getLast?_pairs hat) (by rw [hafter]; rfl)
  have hmem : p ∈ T.pairs := by
    rw [hat]
    exact List.mem_reverse.mpr List.mem_cons_self
  exact hstops.2.2 ((kind_eq hmem).trans hp) (beq_iff_eq.mp hnext)

/-- A loop that reads single tokens and is entered reads one and goes on. -/
theorem readWhile_token {enter : Cursor → Bool} {c : Cursor} (he : enter c) (hne : c.rest ≠ []) :
    readWhile enter token c = (do
      let first ← token
      let rest ← readWhile enter token
      pure (first :: rest) : Reading (List Token)) c := by
  obtain ⟨t, rest, hrest⟩ := List.exists_cons_of_ne_nil hne
  unfold readWhile
  rw [hrest, List.length_cons]
  change (if enter c then _ else _ : Reading (List Token)) c = _
  rw [if_pos he]
  have ht : token c = .ok (t, ⟨t :: c.consumed, rest⟩) := by
    unfold token
    rw [hrest]
  rw [bind_of_ok ht, bind_of_ok ht]
  rfl

theorem keeps_casts {q : Token × Token} {rest : List (Token × Token)}
    (hcast : q.1.kind = .typeLiteral) :
    T.Keeps size 0 back (q :: rest) (readWhile (·.nextIs (· == .typeLiteral)) token)
      (readWhile (·.nextIs (· == .typeLiteral)) token) fun _ _ back' => EndsCast back' := by
  have hloop (back ahead : List (Token × Token)) (hback : EndsCast back) :
      T.Keeps size 0 back ahead (readWhile (·.nextIs (· == .typeLiteral)) token)
        (readWhile (·.nextIs (· == .typeLiteral)) token) fun _ _ back' => EndsCast back' := by
    refine (Keeps.readWhile (R := fun _ _ => True) (gate_nextIs _) (fun _ => shut_cast)
      Takes.token (fun back ahead _ he => Keeps.token.mono ?_) hback).mono fun _ _ _ h => h.2
    rintro t u _ ⟨-, hhead, rfl⟩
    obtain ⟨first, more, rfl⟩ : ∃ first more, ahead = first :: more := by
      cases ahead with
      | nil => cases hhead
      | cons first more => exact ⟨first, more, rfl⟩
    cases hhead
    exact ⟨trivial, (t, u), back, rfl, beq_iff_eq.mp he⟩
  refine Keeps.place fun hat => ?_
  have hq : q ∈ T.pairs := mem_ahead hat
  refine Keeps.congr (readWhile_token ?_ ?_) (readWhile_token ?_ ?_) (Keeps.bind Keeps.token
    (fun _ => (Takes.readWhile (Takes.token.mono (Nat.zero_le 1))).left fun _ => Takes.pure _) ?_)
  · rw [nextIs_cursorLeft]; exact beq_iff_eq.mpr hcast
  · exact List.cons_ne_nil _ _
  · rw [nextIs_cursorRight _ hq]; exact beq_iff_eq.mpr hcast
  · exact List.cons_ne_nil _ _
  · rintro t u _ ahead ⟨-, hhead, rfl⟩
    cases hhead
    exact (hloop _ ahead ⟨_, _, rfl, hcast⟩).map fun _ _ _ h => h

theorem keeps_castOperand (h : T.Agrees size below below')
    {q : Token × Token} {rest : List (Token × Token)} (hcast : q.1.kind = .typeLiteral) :
    T.Keeps (size + 1) 0 back (q :: rest) (castOperand T.left.source below)
      (castOperand T.right.source below') fun build build' back' =>
        ∀ e f, T.Same e f → T.SameOperand (build e) (build' f) ∧ Settled back' := by
  have haccesses : Takes 0 (accesses >>= fun _ => pure fun extent =>
      (⟨.unrecognized extent, []⟩ : Marked Expression)) :=
    takes_accesses.left fun _ => Takes.pure _
  have hvalue : Takes 0 (castValue T.left.source below) :=
    .of_reads (Nesting.reads_castValue _ h.nests) (Nat.le_refl 0)
  refine Keeps.bind (keeps_casts hcast) (fun _ => hvalue.left fun _ => haccesses) ?_
  intro _ _ back ahead hback
  refine Keeps.bind (keeps_castValue h hback.settled) (fun _ => haccesses) ?_
  intro _ _ back ahead hback
  refine (keeps_accesses hback).map ?_
  rintro _ _ _ ⟨-, hback'⟩ e f hsame
  exact ⟨⟨unrecognized_alike hsame, rfl⟩, hback'⟩

/-- What is accessed has the extent of all of it, or of the operand if nothing is accessed. -/
theorem same_accessed {a b : Expression} (h : T.Alike a b) (list : List Access) {e f : Extent}
    (hsame : T.Same e f) : T.Same (accessed a list e).extent (accessed b list f).extent := by
  cases list with
  | nil => exact h.2
  | cons first rest =>
    have hextent (base : Expression) (extent : Extent) :
        (accessed base (first :: rest) extent).extent = extent := by
      unfold accessed
      cases base <;> cases membersOf? (first :: rest) <;> rfl
    rw [hextent, hextent]
    exact hsame

theorem keeps_plainOperand (h : T.Agrees size below below') (hasSign : Bool) :
    T.Keeps (size + 1) 0 back ahead (plainOperand T.left.source below hasSign)
      (plainOperand T.right.source below' hasSign) fun build build' back' =>
        ∀ e f, T.Same e f → T.SameOperand (build e) (build' f) ∧ Settled back' := by
  refine Keeps.bind (keeps_primary h) (fun _ => takes_accesses.left fun _ => Takes.pure _) ?_
  rintro a b back ahead ⟨⟨halike, hmarks⟩, hback⟩
  refine (keeps_accesses hback).map ?_
  rintro list _ back' ⟨rfl, hback'⟩ e f hsame
  refine ⟨?_, hback'⟩
  cases hasSign with
  | true => exact ⟨unrecognized_alike hsame, rfl⟩
  | false =>
    refine ⟨⟨?_, same_accessed halike list hsame⟩, hmarks⟩
    simp only [Bool.false_eq_true, if_false, ← accessed_relabel, halike.1, T.look_eq hsame]

theorem takes_unsigned (h : T.Agrees size below below') (hasSign : Bool) :
    Takes 1 (unsigned T.left.source below hasSign) :=
  .of_reads (Nesting.reads_unsigned _ h.nests hasSign) (Nat.le_refl 1)

theorem keeps_unsigned (h : T.Agrees size below below') (hasSign : Bool) :
    T.Keeps (size + 1) 0 back ahead (unsigned T.left.source below hasSign)
      (unsigned T.right.source below' hasSign) fun build build' back' =>
        ∀ e f, T.Same e f → T.SameOperand (build e) (build' f) ∧ Settled back' := by
  refine Keeps.choose (takes_unsigned h hasSign) ?_
  rintro q rest rfl
  split
  · next hcast => exact keeps_castOperand h (beq_iff_eq.mp hcast)
  · exact keeps_plainOperand h hasSign

theorem takes_operand (h : T.Agrees size below below') :
    Takes 1 (operand T.left.source below) :=
  .of_reads (Nesting.reads_operand _ h.nests) (Nat.le_refl 1)

theorem keeps_operand (h : T.Agrees size below below') :
    T.Keeps (size + 1) 0 back ahead (operand T.left.source below) (operand T.right.source below')
      fun a b back' => T.SameOperand a b ∧ Settled back' := by
  rw [operand_eq, operand_eq]
  have hsign (hasSign : Bool) : Takes 0 (sign hasSign) := by
    unfold sign
    split
    · exact (Takes.token.mono (Nat.zero_le 1)).left fun _ => Takes.pure _
    · exact Takes.pure _
  have hrest : Takes 1 (nextIs (· == .operator) >>= fun hasSign =>
      sign hasSign >>= fun _ => unsigned T.left.source below hasSign) :=
    Takes.nextIs fun hasSign => (hsign hasSign).right fun _ => takes_unsigned h hasSign
  refine Keeps.spanning hrest (Keeps.choose hrest ?_)
  intro q rest _
  generalize (q.1.kind == .operator) = hasSign
  refine Keeps.bind (P := fun _ _ _ => True) (n := 1) ?_ (fun _ => takes_unsigned h hasSign)
    fun _ _ _ _ _ => keeps_unsigned h hasSign
  unfold sign
  cases hasSign with
  | true => exact Keeps.token.map fun _ _ _ _ => trivial
  | false => exact Keeps.pure trivial

/-! ### Expressions -/

theorem startsArgument_of_operator (c : Cursor)
    (h : c.nextIs (fun kind => kind == .operator || kind == .parameter)) :
    c.nextIs TokenKind.startsArgument := by
  refine nextIs_mono h fun kind hk => ?_
  cases kind <;> first | rfl | exact absurd hk (by decide)

theorem keeps_operatorAndOperand (h : T.Agrees size below below') :
    T.Keeps (size + 1) 0 back ahead (operatorAndOperand T.left.source below)
      (operatorAndOperand T.right.source below') fun _ _ back' => EndsArgument back' := by
  have hoperand : Takes 0 (operand T.left.source below >>= fun _ => pure ()) :=
    ((takes_operand h).mono (Nat.zero_le 1)).left fun _ => Takes.pure _
  refine Keeps.bind Keeps.token (fun _ => hoperand) fun _ _ back ahead _ => ?_
  exact (keeps_operand h).map fun _ _ _ hab => hab.2.endsArgument

theorem takes_operatorAndOperand (h : T.Agrees size below below') :
    Takes 1 (operatorAndOperand T.left.source below) :=
  Takes.token.left fun _ => ((takes_operand h).mono (Nat.zero_le 1)).left fun _ => Takes.pure _

theorem keeps_binary (h : T.Agrees size below below') :
    T.Keeps (size + 1) 0 back ahead (binary T.left.source below) (binary T.right.source below')
      fun a b _ => T.SameMarked Expression.relabel a b := by
  have hmore : Takes 0 (readWhile
      (fun c => c.onLine && c.nextIs fun kind => kind == .operator || kind == .parameter)
      (operatorAndOperand T.left.source below)) :=
    Takes.readWhile ((takes_operatorAndOperand h).mono (Nat.zero_le 1))
  refine Keeps.spanning ((takes_operand h).left fun _ => hmore.left fun _ => Takes.pure _) ?_
  refine Keeps.bind (keeps_operand h) (fun _ => hmore.left fun _ => Takes.pure _) ?_
  rintro a b back ahead ⟨hab, hback⟩
  refine (Keeps.readWhile (R := fun _ _ => True)
    (gate_onLine (gate_nextIs _) startsArgument_of_operator)
    (fun _ => shut_onLine startsArgument_of_operator) (takes_operatorAndOperand h)
    (fun back ahead _ _ => (keeps_operatorAndOperand h).mono fun _ _ _ h => ⟨trivial, h⟩)
    hback.endsArgument).map ?_
  rintro list list' _ ⟨hall, -⟩ e f hsame
  have hempty : list.isEmpty = list'.isEmpty := by cases hall <;> rfl
  rw [hempty]
  split
  · exact hab.same
  · exact SameMarked.mk (unrecognized_alike hsame).1 rfl

theorem takes_binary (h : T.Agrees size below below') : Takes 1 (binary T.left.source below) :=
  .of_reads (Nesting.reads_binary _ h.nests) (Nat.le_refl 1)

theorem takes_commaAndValue (h : T.Agrees size below below') :
    Takes 1 (commaAndValue T.left.source below) :=
  Takes.token.left fun _ => (takes_binary h).mono (Nat.zero_le 1)

theorem keeps_commaAndValue (h : T.Agrees size below below') :
    T.Keeps (size + 1) 0 back ahead (commaAndValue T.left.source below)
      (commaAndValue T.right.source below') fun a b _ => T.SameMarked Expression.relabel a b :=
  Keeps.bind Keeps.token (fun _ => (takes_binary h).mono (Nat.zero_le 1))
    fun _ _ _ _ _ => keeps_binary h

theorem keeps_expression (h : T.Agrees size below below') :
    T.Keeps (size + 1) 0 back ahead (expression T.left.source below)
      (expression T.right.source below') fun a b _ => T.SameMarked Expression.relabel a b := by
  have hmore : Takes 0 (readWhile (·.nextIs (· == .comma))
      (commaAndValue T.left.source below)) :=
    Takes.readWhile ((takes_commaAndValue h).mono (Nat.zero_le 1))
  refine Keeps.spanning ((takes_binary h).left fun _ => hmore.left fun _ => Takes.pure _) ?_
  refine Keeps.bind (keeps_binary h) (fun _ => hmore.left fun _ => Takes.pure _) ?_
  intro a b back ahead hab
  refine (Keeps.readWhile (I := fun _ => True) (gate_nextIs _)
    (fun _ => shut_nextIs fun kind hk => beq_eq_false_iff_ne.mpr hk.2.2.1) (takes_commaAndValue h)
    (fun back ahead _ _ => (keeps_commaAndValue h).mono fun _ _ _ h => ⟨h, trivial⟩) trivial).map ?_
  rintro list list' _ ⟨hall, -⟩ e f hsame
  have hempty : list.isEmpty = list'.isEmpty := by cases hall <;> rfl
  rw [hempty]
  split
  · exact hab
  · obtain ⟨hnodes, hmarks⟩ := flatMap_marked_eq (List.Forall₂.cons hab hall)
    refine SameMarked.mk ?_ hmarks
    have helements (m : Relabelling) (all : List (Marked Expression)) :
        (all.map fun e => Term.expression e.node).map (Term.relabel m) =
          ((all.map (·.node)).map (Expression.relabel m)).map Term.expression := by
      rw [List.map_map, List.map_map, List.map_map]
      rfl
    simp only [Expression.relabel, Term.relabels_eq, helements, hnodes, T.look_eq hsame]

theorem takes_expression (h : T.Agrees size below below') :
    Takes 1 (expression T.left.source below) :=
  .of_reads (Nesting.reads_expression _ h.nests) (Nat.le_refl 1)

/-! ### Commands -/

theorem bareString_alike {t u : Token} (hmem : (t, u) ∈ T.pairs) :
    T.Alike (bareString t) (bareString u) := by
  have hsame := T.same_token _ hmem
  have htext : u.text = t.text := text_eq hmem
  refine ⟨?_, hsame⟩
  simp only [bareString, Expression.relabel, T.look_eq hsame, htext]

theorem takes_argument (h : T.Agrees size below below') :
    Takes 1 (argument T.left.source below) :=
  .of_reads (Nesting.reads_argument _ h.nests) (Nat.le_refl 1)

theorem keeps_argument (h : T.Agrees size below below') (hback : EndsArgument back) :
    T.Keeps (size + 1) 0 back ahead (argument T.left.source below)
      (argument T.right.source below') fun a b back' =>
        T.SameMarkedPart a b ∧ EndsArgument back' := by
  refine Keeps.start (takes_argument h) ?_
  rintro q rest rfl hq
  refine Keeps.get ?_
  rw [nextKind?_cursorLeft, nextKind?_cursorRight rest hq]
  have hoperand : T.Keeps (size + 1) 0 back (q :: rest)
      (operand T.left.source below >>= fun e => pure (Marked.mk (.value e.node) e.marks))
      (operand T.right.source below' >>= fun e => pure (Marked.mk (.value e.node) e.marks))
      fun a b back' => T.SameMarkedPart a b ∧ EndsArgument back' :=
    (keeps_operand h).map fun _ _ _ hab => ⟨⟨hab.1.1, hab.1.2⟩, hab.2.endsArgument⟩
  generalize hk : q.1.kind = kind
  cases kind with
  | parameter =>
    refine Keeps.token.map ?_
    rintro t u _ ⟨hmem, hhead, rfl⟩
    cases hhead
    have htext : u.text = t.text := text_eq hmem
    exact ⟨⟨⟨T.same_token _ hmem, by rw [htext]⟩, rfl⟩, _, _, rfl, by rw [hk]; rfl⟩
  | comma =>
    refine Keeps.token.map ?_
    rintro t u _ ⟨hmem, hhead, rfl⟩
    cases hhead
    exact ⟨⟨trivial, rfl⟩, _, _, rfl, by rw [hk]; rfl⟩
  | bareword =>
    refine Keeps.spanning (Takes.token.left fun _ => takes_accesses.left fun _ => Takes.pure _) ?_
    refine Keeps.bind Keeps.token (fun _ => takes_accesses.left fun _ => Takes.pure _) ?_
    rintro t u _ ahead ⟨hmem, hhead, rfl⟩
    cases hhead
    obtain ⟨p, before, rfl, -⟩ := hback
    refine (keeps_accesses (settled_name (by rw [hk]; rfl))).map ?_
    rintro list _ _ ⟨rfl, hback'⟩ e f hsame
    refine ⟨⟨?_, rfl⟩, hback'.endsArgument⟩
    split
    · exact bareString_alike hmem
    · exact unrecognized_alike hsame
  | _ => exact hoperand

theorem takes_commandArguments (h : T.Agrees size below below') (enter : Cursor → Bool) :
    Takes 0 (commandArguments T.left.source below enter) :=
  .of_reads (Nesting.reads_commandArguments _ h.nests enter) (Nat.le_refl 0)

theorem keeps_commandArguments (h : T.Agrees size below below') {enter : Cursor → Bool}
    (hgate : T.Gate enter EndsArgument) (hshut : T.Shut enter EndsArgument)
    (hback : EndsArgument back) :
    T.Keeps (size + 1) 0 back ahead (commandArguments T.left.source below enter)
      (commandArguments T.right.source below' enter) fun a b _ =>
        T.SameMarked (fun m => List.map (Argument.relabel m)) a b := by
  refine (Keeps.readWhile hgate (fun _ => hshut) (takes_argument h)
    (fun _ _ hback _ => keeps_argument h hback) hback).map ?_
  rintro list list' _ ⟨hall, -⟩
  obtain ⟨hparts, hmarks⟩ := parts_same hall
  exact SameMarked.mk (foldArguments_same hparts false .nil) hmarks

/-- The question whether another argument follows. -/
theorem gate_argument :
    T.Gate (fun c => c.onLine && c.nextIs TokenKind.startsArgument) EndsArgument :=
  gate_onLine (gate_nextIs _) fun _ h => h

theorem takes_pipeTarget (h : T.Agrees size below below') :
    Takes 1 (pipeTarget T.left.source below) := by
  refine Takes.token.left fun _ => Takes.nextIs fun b => ?_
  split
  · exact Takes.spanning ((Takes.token.mono (Nat.zero_le 1)).left fun _ =>
      (takes_commandArguments h _).left fun _ => Takes.pure _)
  · exact ((takes_expression h).mono (Nat.zero_le 1)).left fun _ => Takes.pure _

theorem keeps_pipeTarget (h : T.Agrees size below below') :
    T.Keeps (size + 1) 0 back ahead (pipeTarget T.left.source below)
      (pipeTarget T.right.source below') fun a b _ => T.SameMarked Term.relabel a b := by
  have hcommand : Takes 1 (spanning T.left.source do
      let head ← token
      let read ← commandArguments T.left.source below
        fun c => c.onLine && c.nextIs TokenKind.startsArgument
      pure fun extent => (⟨.command ⟨extent, head.text, read.node⟩, read.marks⟩ : Marked Term)) :=
    Takes.spanning (Takes.token.left fun _ =>
      (takes_commandArguments h _).left fun _ => Takes.pure _)
  have htarget : Takes 1 (nextIs (· == .bareword) >>= fun b =>
      if b then spanning T.left.source do
        let head ← token
        let read ← commandArguments T.left.source below
          fun c => c.onLine && c.nextIs TokenKind.startsArgument
        pure fun extent => (⟨.command ⟨extent, head.text, read.node⟩, read.marks⟩ : Marked Term)
      else expression T.left.source below >>= fun e =>
        pure (⟨.expression e.node, e.marks⟩ : Marked Term)) := by
    refine Takes.nextIs fun b => ?_
    split
    · exact hcommand
    · exact (takes_expression h).left fun _ => Takes.pure _
  refine Keeps.bind (n := 1) Keeps.token (fun _ => htarget) fun _ _ back ahead _ => ?_
  refine Keeps.choose htarget ?_
  rintro q rest rfl
  split
  · next hword =>
    refine Keeps.spanning (Takes.token.left fun _ =>
      (takes_commandArguments h _).left fun _ => Takes.pure _) ?_
    refine Keeps.bind Keeps.token (fun _ => (takes_commandArguments h _).left fun _ =>
      Takes.pure _) ?_
    rintro t u _ ahead ⟨hmem, hhead, rfl⟩
    cases hhead
    have hk : t.kind = .bareword := beq_iff_eq.mp hword
    refine (keeps_commandArguments h gate_argument (shut_onLine fun _ h => h)
      ⟨_, _, rfl, by rw [hk]; rfl⟩).map ?_
    intro a b _ hab e f hsame
    refine SameMarked.mk ?_ hab.marks
    simp only [Term.relabel, Command.relabel, Argument.relabels_eq, T.look_eq hsame,
      T.head_eq _ hmem, hab.node]
  · exact (keeps_expression h).map fun a b _ hab =>
      SameMarked.mk (congrArg Term.expression hab.node) hab.marks

theorem takes_pipes (h : T.Agrees size below below') : Takes 0 (pipes T.left.source below) :=
  .of_reads (Nesting.reads_pipes _ h.nests) (Nat.le_refl 0)

theorem keeps_pipes (h : T.Agrees size below below') :
    T.Keeps (size + 1) 0 back ahead (pipes T.left.source below) (pipes T.right.source below')
      fun a b _ => T.SameMarked (fun m => List.map (Term.relabel m)) a b := by
  refine (Keeps.readWhile (I := fun _ => True) (gate_nextIs _)
    (fun _ => shut_nextIs fun kind hk => beq_eq_false_iff_ne.mpr hk.2.1) (takes_pipeTarget h)
    (fun back ahead _ _ => (keeps_pipeTarget h).mono fun _ _ _ h => ⟨h, trivial⟩) trivial).map ?_
  rintro list list' _ ⟨hall, -⟩
  obtain ⟨hnodes, hmarks⟩ := flatMap_marked_eq hall
  exact SameMarked.mk hnodes hmarks

theorem keeps_expressionOrAssignment (h : T.Agrees size below below') :
    T.Keeps (size + 1) 0 back ahead (expressionOrAssignment T.left.source below)
      (expressionOrAssignment T.right.source below')
      fun a b _ => T.SameMarked Statement.relabel a b := by
  have hvalue (first : Marked Expression) : Takes 1 (token >>= fun _ => below.value >>= fun value =>
      pure fun extent => (⟨.assignment extent first.node value.node,
        first.marks ++ value.marks⟩ : Marked Statement)) :=
    Takes.token.left fun _ => (h.takes_value.mono (Nat.zero_le 1)).left fun _ => Takes.pure _
  have hpipes (first : Marked Expression) : Takes 0 (pipes T.left.source below >>= fun more =>
      pure fun extent => (⟨.pipeline extent (.expression first.node :: more.node),
        first.marks ++ more.marks⟩ : Marked Statement)) :=
    (takes_pipes h).left fun _ => Takes.pure _
  have hrest (first : Marked Expression) : Takes 0 (nextIs (· == .equals) >>= fun b =>
      if b then token >>= fun _ => below.value >>= fun value =>
        pure fun extent => (⟨.assignment extent first.node value.node,
          first.marks ++ value.marks⟩ : Marked Statement)
      else pipes T.left.source below >>= fun more =>
        pure fun extent => (⟨.pipeline extent (.expression first.node :: more.node),
          first.marks ++ more.marks⟩ : Marked Statement)) := by
    refine Takes.nextIs fun b => ?_
    split
    · exact (hvalue first).mono (Nat.zero_le 1)
    · exact hpipes first
  refine Keeps.spanning ((takes_expression h).left hrest) ?_
  refine Keeps.bind_less (takes_expression h) (keeps_expression h) hrest ?_
  intro a b back ahead hab
  refine Keeps.optionalKind (fun kind hk => beq_eq_false_iff_ne.mpr hk.2.2.2) (hvalue a) ?_ ?_
  · refine Keeps.bind Keeps.token (fun _ => (h.takes_value.mono (Nat.zero_le 1)).left
      fun _ => Takes.pure _) fun _ _ back ahead _ => ?_
    refine (h.value back ahead).map fun v v' _ hv e f hsame => SameMarked.mk ?_ ?_
    · rw [Statement.relabel, Statement.relabel, hab.node, hv.node, T.look_eq hsame]
    · rw [List.map_append, List.map_append, hab.marks, hv.marks]
  · refine ((keeps_pipes h).smaller (Nat.le_succ _)).map fun p p' _ hp e f hsame =>
      SameMarked.mk ?_ ?_
    · simp only [Statement.relabel, Term.relabels_eq, List.map_cons, Term.relabel, hab.node,
        hp.node, T.look_eq hsame]
    · rw [List.map_append, List.map_append, hab.marks, hp.marks]

/-! ### Statements that start with a word

The first two tokens decide what such a statement is.  Where only one of them is common,
the other side has to come to the same decision with another token, and so it can be a
command only.
-/

theorem takes_keyed (h : T.Agrees size below below') : Takes 2 (keyed T.left.source below) := by
  refine Takes.spanning (Takes.token.bind fun _ => (Takes.expect _).left fun _ => ?_)
  exact (h.takes_value.mono (Nat.zero_le 1)).left fun _ => Takes.pure _

theorem keeps_keyed (h : T.Agrees size below below') :
    T.Keeps (size + 1) 0 back ahead (keyed T.left.source below) (keyed T.right.source below')
      fun a b _ => T.SameItem a b := by
  have hvalue (head : Token) : Takes 0 (below.value >>= fun value => pure fun extent =>
      (⟨.assignment extent (bareString head) value.node, some (head, value.node),
        value.marks⟩ : Item)) :=
    (h.takes_value.mono (Nat.zero_le 1)).left fun _ => Takes.pure _
  have hrest (head : Token) : Takes 0 (expect .equals >>= fun _ => below.value >>= fun value =>
      pure fun extent => (⟨.assignment extent (bareString head) value.node,
        some (head, value.node), value.marks⟩ : Item)) :=
    ((Takes.expect _).mono (Nat.zero_le 1)).left fun _ => hvalue head
  refine Keeps.spanning (Takes.token.left hrest) ?_
  refine Keeps.bind_less Takes.token Keeps.token hrest ?_
  rintro head head' back ahead ⟨hmem, -, -⟩
  refine Keeps.bind (Keeps.expect _) (fun _ => hvalue head) fun _ _ back ahead _ => ?_
  refine (h.value back ahead).map fun v v' _ hv e f hsame => ?_
  simp only [SameItem, Item.relabel, Statement.relabel, Option.map_some, T.look_eq hsame,
    (bareString_alike hmem).1, T.token_eq _ hmem, hv.node, hv.marks]

theorem takes_body (h : T.Agrees size below below') : Takes 1 (body T.left.source below) :=
  .of_reads (Nesting.reads_body _ h.nests) (by decide)

/-- Bodies that are the same up to what is looked at, if there are any. -/
def SameBody (T : Parallel) (read read' : Option (List Item × Extent)) : Prop :=
  (read.map fun (inner, extent) =>
      (inner.map (Item.relabel T.left.look), T.left.look.extent extent)) =
    read'.map fun (inner, extent) =>
      (inner.map (Item.relabel T.right.look), T.right.look.extent extent)

theorem takes_optionalBody (h : T.Agrees size below below') :
    Takes 0 (optionalBody T.left.source below) :=
  .of_reads (Nesting.reads_optionalBody _ h.nests) (Nat.le_refl 0)

theorem keeps_optionalBody (h : T.Agrees size below below') :
    T.Keeps (size + 1) 0 back ahead (optionalBody T.left.source below)
      (optionalBody T.right.source below') fun a b _ => T.SameBody a b := by
  refine Keeps.optionalKind (fun kind hk => beq_eq_false_iff_ne.mpr hk.1)
    ((takes_body h).left fun _ => Takes.pure _) ?_ (Keeps.pure rfl)
  refine (keeps_body h).map ?_
  rintro ⟨inner, e⟩ ⟨inner', f⟩ _ ⟨hitems, hsame⟩
  exact congrArg some (Prod.ext hitems (T.look_eq hsame))

theorem commandOrBlock_same {head head' : Token} (hmem : (head, head') ∈ T.pairs)
    {arguments arguments' : Marked (List Argument)}
    (harguments : T.SameMarked (fun m => List.map (Argument.relabel m)) arguments arguments')
    {read read' : Option (List Item × Extent)} (hread : T.SameBody read read')
    {piped piped' : Marked (List Term)}
    (hpiped : T.SameMarked (fun m => List.map (Term.relabel m)) piped piped')
    {e f : Extent} (hsame : T.Same e f) :
    T.SameItem (commandOrBlock head arguments read piped e)
      (commandOrBlock head' arguments' read' piped' f) := by
  have hhead : head.relabelHead T.left.look = head'.relabelHead T.right.look := by
    unfold Token.relabelHead
    rw [T.token_eq _ hmem, T.head_eq _ hmem]
  unfold SameItem
  rw [commandOrBlock_relabel, commandOrBlock_relabel, hhead, harguments, hread, hpiped,
    T.look_eq hsame]

theorem keeps_command (h : T.Agrees size below below') {q : Token × Token}
    {rest : List (Token × Token)} (hname : q.1.kind.isName) :
    T.Keeps (size + 1) 0 back (q :: rest) (command T.left.source below)
      (command T.right.source below') fun a b _ => T.SameItem a b := by
  have hgate : T.Gate (fun c => c.onLine && !c.nextIs (· == .braceOpen) &&
      c.nextIs TokenKind.startsArgument) EndsArgument ∧
      T.Shut (fun c => c.onLine && !c.nextIs (· == .braceOpen) &&
        c.nextIs TokenKind.startsArgument) EndsArgument := by
    have hassoc : (fun c : Cursor => c.onLine && !c.nextIs (· == .braceOpen) &&
        c.nextIs TokenKind.startsArgument) = fun c => c.onLine &&
          (!c.nextIs (· == .braceOpen) && c.nextIs TokenKind.startsArgument) :=
      funext fun c => Bool.and_assoc _ _ _
    have himp (c : Cursor) (hc : (!c.nextIs (· == .braceOpen) &&
        c.nextIs TokenKind.startsArgument) = true) : c.nextIs TokenKind.startsArgument :=
      (Bool.and_eq_true_iff.mp hc).2
    rw [hassoc]
    refine ⟨gate_onLine (fun back q rest hat _ => ?_) himp, shut_onLine himp⟩
    rw [nextIs_cursorRight _ (mem_ahead hat), nextIs_cursorRight _ (mem_ahead hat),
      nextIs_cursorLeft, nextIs_cursorLeft]
  have hpipes := takes_pipes h
  refine Keeps.spanning (Takes.token.left fun _ => (takes_commandArguments h _).left fun _ =>
    (takes_optionalBody h).left fun _ => hpipes.left fun _ => Takes.pure _) ?_
  refine Keeps.bind Keeps.token (fun _ => (takes_commandArguments h _).left fun _ =>
    (takes_optionalBody h).left fun _ => hpipes.left fun _ => Takes.pure _) ?_
  rintro head head' _ ahead ⟨hmem, hhead, rfl⟩
  cases hhead
  have hback : EndsArgument ((head, head') :: back) := by
    refine ⟨_, back, rfl, ?_⟩
    generalize head.kind = kind at hname
    cases kind <;> first | rfl | exact hname
  refine Keeps.bind (keeps_commandArguments h hgate.1 hgate.2 hback)
    (fun _ => (takes_optionalBody h).left fun _ => hpipes.left fun _ => Takes.pure _) ?_
  intro arguments arguments' back ahead harguments
  refine Keeps.bind (keeps_optionalBody h) (fun _ => hpipes.left fun _ => Takes.pure _) ?_
  intro read read' back ahead hread
  exact (keeps_pipes h).map fun piped piped' _ hpiped e f hsame =>
    commandOrBlock_same hmem harguments hread hpiped hsame

/-- What a statement that starts with a word is, by the kinds of its first two tokens. -/
theorem wordStatement_of_two (source : Text) (below : Level) {c : Cursor} {first second : Token}
    {rest : List Token} (hc : c.rest = first :: second :: rest) :
    wordStatement source below c = (if first.kind.isKeyword || second.kind == .equals
      then keyed source below else command source below) c := by
  obtain ⟨back, ahead⟩ := c
  obtain rfl : ahead = first :: second :: rest := hc
  rfl

theorem wordStatement_of_one (source : Text) (below : Level) {c : Cursor} {first : Token}
    (hc : c.rest = [first]) :
    wordStatement source below c = (if first.kind.isKeyword then keyed source below
      else command source below) c := by
  obtain ⟨back, ahead⟩ := c
  obtain rfl : ahead = [first] := hc
  rfl

/-- Where the last common token is no keyword and no sign of equality comes after it, a command
starts with it; otherwise more would have to come. -/
theorem keeps_wordStatement (h : T.Agrees size below below') {q : Token × Token}
    {rest : List (Token × Token)} (hname : q.1.kind.isName) :
    T.Keeps (size + 1) 0 back (q :: rest) (wordStatement T.left.source below)
      (wordStatement T.right.source below') fun a b _ => T.SameItem a b := by
  refine Keeps.place fun hat => ?_
  have hq : q.2.kind = q.1.kind := kind_eq (mem_ahead hat)
  cases rest with
  | cons p more =>
    have hp : p.2.kind = p.1.kind := kind_eq (by rw [hat]; simp)
    refine Keeps.congr (wordStatement_of_two _ _ rfl) (wordStatement_of_two _ _ rfl) ?_
    rw [hq, hp]
    split
    · exact keeps_keyed h
    · exact keeps_command h hname
  | nil =>
    -- A key would need a sign of equality, which is not among the common tokens.
    have hkeyed {r : Reading Item} : T.Keeps (size + 1) 0 back [q] (keyed T.left.source below) r
        fun a b _ => T.SameItem a b :=
      Keeps.start_two (takes_keyed h) fun _ _ _ heq => by cases heq
    have hright (hk : q.1.kind.isKeyword = false) :
        wordStatement T.right.source below' (T.cursorRight back [q]) =
          command T.right.source below' (T.cursorRight back [q]) := by
      cases hafter : T.right.after with
      | nil =>
        have hone : (T.cursorRight back [q]).rest = [q.2] := by simp [cursorRight, hafter]
        rw [wordStatement_of_one _ _ hone, hq, if_neg]
        rw [hk]
        exact Bool.false_ne_true
      | cons next rest =>
        have htwo : (T.cursorRight back [q]).rest = q.2 :: next :: rest := by
          simp [cursorRight, hafter]
        rw [wordStatement_of_two _ _ htwo, hq, hk, if_neg]
        rw [Bool.false_or, beq_iff_eq]
        exact (T.stops_kind next (by rw [hafter]; rfl)).2.2.2
    cases hafter : T.left.after with
    | nil =>
      have hone : (T.cursorLeft back [q]).rest = [q.1] := by simp [cursorLeft, hafter]
      refine Keeps.congr (wordStatement_of_one _ _ hone) rfl ?_
      split
      · exact hkeyed
      · next hk => exact Keeps.congr rfl (hright (Bool.eq_false_iff.mpr hk)) (keeps_command h hname)
    | cons next rest =>
      have htwo : (T.cursorLeft back [q]).rest = q.1 :: next :: rest := by
        simp [cursorLeft, hafter]
      refine Keeps.congr (wordStatement_of_two _ _ htwo) rfl ?_
      split
      · exact hkeyed
      · next hk =>
        rw [Bool.or_eq_true, not_or] at hk
        exact Keeps.congr rfl (hright (Bool.eq_false_iff.mpr hk.1)) (keeps_command h hname)

theorem keeps_value (h : T.Agrees size below below') :
    T.Keeps (size + 1) 0 back ahead (value T.left.source below) (value T.right.source below')
      fun a b _ => T.SameMarked Statement.relabel a b := by
  refine Keeps.choose (.of_reads (Nesting.reads_value _ h.nests) (Nat.le_refl 1)) ?_
  rintro q rest rfl
  split
  · next hname =>
    refine (keeps_wordStatement h hname).map fun a b _ hab => SameMarked.mk ?_ ?_
    · exact congrArg Item.statement hab
    · exact congrArg Item.marks hab
  · exact keeps_expressionOrAssignment h

/-! ### Statements -/

theorem keeps_configuration (h : T.Agrees size below below') :
    T.Keeps (size + 1) 0 back ahead (configuration T.left.source below)
      (configuration T.right.source below') fun a b _ => T.SameItem a b := by
  have hbody := (takes_body h).mono (Nat.zero_le 1)
  refine Keeps.spanning (Takes.token.left fun _ =>
    (Takes.token.mono (Nat.zero_le 1)).left fun _ => hbody.left fun _ => Takes.pure _) ?_
  refine Keeps.bind Keeps.token (fun _ => (Takes.token.mono (Nat.zero_le 1)).left fun _ =>
    hbody.left fun _ => Takes.pure _) fun _ _ back ahead _ => ?_
  refine Keeps.bind Keeps.token (fun _ => hbody.left fun _ => Takes.pure _) ?_
  rintro name name' back ahead ⟨hmem, -, -⟩
  refine (keeps_body h).map ?_
  rintro ⟨list, _⟩ ⟨list', _⟩ _ ⟨hlist, -⟩ e f hsame
  simp only [SameItem, Item.relabel, Statement.relabel, Statement.relabels_eq, T.look_eq hsame,
    keyText_eq hmem, statements_eq hlist, marks_eq hlist, Option.map_none]

theorem takes_target (h : T.Agrees size below below') : Takes 1 (target T.left.source below) :=
  .of_reads (Nesting.reads_target _ h.nests) (Nat.le_refl 1)

theorem keeps_target (h : T.Agrees size below below') :
    T.Keeps (size + 1) 0 back ahead (target T.left.source below) (target T.right.source below')
      fun a b _ => T.SameMarked Expression.relabel a b := by
  refine Keeps.choose (takes_target h) ?_
  rintro q rest rfl
  split
  · exact Keeps.token.map fun t u _ ht => SameMarked.mk (bareString_alike ht.1).1 rfl
  · exact (keeps_operand h).mono fun _ _ _ hab => hab.1.same

theorem takes_node (h : T.Agrees size below below') : Takes 2 (node T.left.source below) := by
  rw [node_eq]
  refine Takes.spanning (Takes.token.bind fun _ => (takes_target h).left fun _ => ?_)
  exact ((takes_body h).mono (Nat.zero_le 1)).left fun _ => Takes.pure _

theorem keeps_node (h : T.Agrees size below below') :
    T.Keeps (size + 1) 0 back ahead (node T.left.source below) (node T.right.source below')
      fun a b _ => T.SameItem a b := by
  rw [node_eq, node_eq]
  have hbody := (takes_body h).mono (Nat.zero_le 1)
  have htarget := (takes_target h).mono (Nat.zero_le 1)
  refine Keeps.spanning (Takes.token.left fun _ => htarget.left fun _ =>
    hbody.left fun _ => Takes.pure _) ?_
  refine Keeps.bind Keeps.token (fun _ => htarget.left fun _ =>
    hbody.left fun _ => Takes.pure _) fun _ _ back ahead _ => ?_
  refine Keeps.bind (keeps_target h) (fun _ => hbody.left fun _ => Takes.pure _) ?_
  intro a b back ahead hab
  refine (keeps_body h).map ?_
  rintro ⟨list, _⟩ ⟨list', _⟩ _ ⟨hlist, -⟩ e f hsame
  simp only [SameItem, Item.relabel, Statement.relabel, Statement.relabels_eq, T.look_eq hsame,
    hab.node, statements_eq hlist, List.map_append, hab.marks, marks_eq hlist, Option.map_none]

theorem takes_param (source : Text) : Takes 2 (param source) :=
  Takes.spanning (Takes.token.bind fun _ => takes_group.left fun _ => Takes.pure _)

theorem keeps_param :
    T.Keeps size 0 back ahead (param T.left.source) (param T.right.source)
      fun a b _ => T.SameItem a b := by
  have hgroup := takes_group.mono (Nat.zero_le 1)
  refine Keeps.spanning (Takes.token.left fun _ => hgroup.left fun _ => Takes.pure _) ?_
  refine Keeps.bind Keeps.token (fun _ => hgroup.left fun _ => Takes.pure _)
    fun _ _ back ahead _ => ?_
  refine keeps_group.map fun _ _ _ _ e f hsame => ?_
  simp only [SameItem, Item.relabel, Statement.relabel, T.look_eq hsame, List.map_nil,
    Option.map_none]

/-- The kind of the token after the next. -/
def secondKind (c : Cursor) : Option TokenKind := (c.rest.drop 1).head?.map Token.kind

/-- A keyword is one where what follows it says so, and before `=` it is a key.  In both cases it
takes two tokens at least, so the second one is a common one too. -/
theorem keeps_keyword (h : T.Agrees size below below') {q : Token × Token}
    {rest : List (Token × Token)} (hkeyword : q.1.kind.isKeyword) (starts : TokenKind → Bool)
    {rule rule' : Reading Item} (ht : Takes 2 rule)
    (hrule : T.Keeps (size + 1) 0 back (q :: rest) rule rule' fun a b _ => T.SameItem a b) :
    T.Keeps (size + 1) 0 back (q :: rest)
      (if (secondKind (T.cursorLeft back (q :: rest))).any starts then rule
        else if (secondKind (T.cursorLeft back (q :: rest))).any (· == .equals)
        then wordStatement T.left.source below else reject .noAlternative)
      (if (secondKind (T.cursorRight back (q :: rest))).any starts then rule'
        else if (secondKind (T.cursorRight back (q :: rest))).any (· == .equals)
        then wordStatement T.right.source below' else reject .noAlternative)
      fun a b _ => T.SameItem a b := by
  have hname : q.1.kind.isName := by
    generalize q.1.kind = kind at hkeyword
    cases kind <;> first | rfl | exact hkeyword
  refine Keeps.place fun hat => ?_
  cases rest with
  | cons p more =>
    have hp : p.2.kind = p.1.kind := kind_eq (by rw [hat]; simp)
    have hsecond : secondKind (T.cursorRight back (q :: p :: more)) =
        secondKind (T.cursorLeft back (q :: p :: more)) := congrArg some hp
    rw [hsecond]
    split
    · exact hrule
    · split
      · exact keeps_wordStatement h hname
      · exact Keeps.reject
  | nil =>
    have hword {r : Reading Item} : T.Keeps (size + 1) 0 back [q]
        (wordStatement T.left.source below) r fun a b _ => T.SameItem a b := by
      have hkeyed : wordStatement T.left.source below (T.cursorLeft back [q]) =
          keyed T.left.source below (T.cursorLeft back [q]) := by
        cases hafter : T.left.after with
        | nil =>
          have hone : (T.cursorLeft back [q]).rest = [q.1] := by simp [cursorLeft, hafter]
          rw [wordStatement_of_one _ _ hone, if_pos hkeyword]
        | cons next rest =>
          have htwo : (T.cursorLeft back [q]).rest = q.1 :: next :: rest := by
            simp [cursorLeft, hafter]
          rw [wordStatement_of_two _ _ htwo, if_pos (by rw [hkeyword, Bool.true_or])]
      exact Keeps.congr hkeyed rfl
        (Keeps.start_two (takes_keyed h) fun _ _ _ heq => by cases heq)
    split
    · exact Keeps.start_two ht fun _ _ _ heq => by cases heq
    · split
      · exact hword
      · exact Keeps.reject

theorem keeps_statement (h : T.Agrees size below below') :
    T.Keeps (size + 1) 0 back ahead (statement T.left.source below)
      (statement T.right.source below') fun a b _ => T.SameItem a b := by
  refine Keeps.start (.of_reads (Nesting.reads_statement _ h.nests) (Nat.le_refl 1)) ?_
  rintro q rest rfl hq
  have hconfiguration : Takes 2 (configuration T.left.source below) :=
    Takes.spanning (Takes.token.bind fun _ => Takes.token.left fun _ =>
      ((takes_body h).mono (Nat.zero_le 1)).left fun _ => Takes.pure _)
  refine Keeps.get ?_
  simp only []
  rw [nextKind?_cursorLeft, nextKind?_cursorRight rest hq]
  have hexpression : T.Keeps (size + 1) 0 back (q :: rest)
      (expressionOrAssignment T.left.source below >>= fun read =>
        pure (⟨read.node, none, read.marks⟩ : Item))
      (expressionOrAssignment T.right.source below' >>= fun read =>
        pure (⟨read.node, none, read.marks⟩ : Item)) fun a b _ => T.SameItem a b := by
    refine (keeps_expressionOrAssignment h).map fun a b _ hab => ?_
    simp only [SameItem, Item.relabel, hab.node, hab.marks, Option.map_none]
  generalize hk : q.1.kind = kind
  cases kind with
  | configuration =>
    exact keeps_keyword h (by rw [hk]; rfl) _ hconfiguration (keeps_configuration h)
  | node => exact keeps_keyword h (by rw [hk]; rfl) _ (takes_node h) (keeps_node h)
  | param => exact keeps_keyword h (by rw [hk]; rfl) _ (takes_param _) keeps_param
  | bareword => exact keeps_wordStatement h (by rw [hk]; rfl)
  | _ => exact hexpression

end Rules

/-- **Levels read the same of common tokens.**  The level on the right has to be as high as there
are tokens ahead; the one on the left may be of any height. -/
theorem agrees_level (T : Parallel) (n size : Nat) :
    T.Agrees size (level T.left.source n) (level T.right.source size) := by
  have hnests := Nesting.below_level T.left.source n
  induction size generalizing n with
  | zero =>
    refine ⟨hnests, fun back ahead => ?_, fun back ahead => ?_⟩
    · refine Keeps.start (.of_reads hnests.statement (Nat.le_refl 1)) ?_
      rintro q rest rfl - - hsize
      cases hsize
    · refine Keeps.start (.of_reads hnests.value (Nat.le_refl 1)) ?_
      rintro q rest rfl - - hsize
      cases hsize
  | succ size ih =>
    cases n with
    | zero => exact ⟨hnests, fun _ _ => Keeps.reject, fun _ _ => Keeps.reject⟩
    | succ n =>
      have hbelow := ih n (Nesting.below_level T.left.source n)
      exact ⟨hnests, fun _ _ => keeps_statement hbelow, fun _ _ => keeps_value hbelow⟩

end Parallel

/-! ### Whole scripts -/

theorem Grammar.script_ok {source : Text} {tokens : List Token} {read : List Item}
    (h : script source tokens = .ok read) : ∃ c : Cursor, c.rest = [] ∧
      items (level source tokens.length) (· == .semicolon) ⟨[], tokens⟩ = .ok (read, c) := by
  unfold script at h
  cases hitems : items (level source tokens.length) (· == .semicolon) ⟨[], tokens⟩ with
  | error e => rw [hitems] at h; cases h
  | ok result =>
    obtain ⟨list, back, ahead⟩ := result
    rw [hitems] at h
    cases ahead with
    | nil =>
      obtain rfl : list = read := Except.ok.inj h
      exact ⟨_, rfl, rfl⟩
    | cons next rest =>
      have he : (.error ⟨.redundant, some next⟩ : Except GrammarError (List Item)) = .ok read := h
      cases he

/-- In a script brackets nest. -/
theorem Grammar.balanced_of_script {source : Text} {tokens : List Token} {read : List Item}
    (h : script source tokens = .ok read) : Nesting.Balanced tokens := by
  obtain ⟨c, hrest, hitems⟩ := script_ok h
  have hsemicolon : ∀ kind : TokenKind, (kind == .semicolon) = true → kind.isContent :=
    fun kind hk => by rw [beq_iff_eq.mp hk]; rfl
  obtain ⟨taken, htaken, -, -, hmoves⟩ :=
    Nesting.reads_items (Nesting.below_level source _) hsemicolon _ _ _ hitems
  obtain rfl : tokens = taken := by rwa [hrest, List.append_nil] at htaken
  exact hmoves

/-- **Two scripts of the same tokens** are read alike, if the tokens are all there is. -/
theorem Parallel.script_same (T : Parallel) (hleft : T.left.before = [] ∧ T.left.after = [])
    (hright : T.right.before = [] ∧ T.right.after = []) {read : List Item}
    (h : Grammar.script T.left.source (T.pairs.map Prod.fst) = .ok read) :
    ∃ read', Grammar.script T.right.source (T.pairs.map Prod.snd) = .ok read' ∧
      read.map (Item.relabel T.left.look) = read'.map (Item.relabel T.right.look) := by
  obtain ⟨c, hrest, hitems⟩ := Grammar.script_ok h
  have hcursor : T.cursorLeft [] T.pairs = ⟨[], T.pairs.map Prod.fst⟩ := by
    simp [cursorLeft, hleft.1, hleft.2]
  have hcursor' : T.cursorRight [] T.pairs = ⟨[], T.pairs.map Prod.snd⟩ := by
    simp [cursorRight, hright.1, hright.2]
  have hagrees := T.agrees_level (T.pairs.map Prod.fst).length (T.pairs.map Prod.snd).length
  rw [← hcursor] at hitems
  obtain ⟨taken, rest, read', hpairs, hc, hread', hsame⟩ :=
    @keeps_items T _ 0 _ _ _ _ hagrees (· == .semicolon)
      (fun _ next hnext => by rw [hright.2] at hnext; cases hnext) (by simp) (by simp) read c hitems (by rw [hleft.2]; exact Nat.zero_le _)
  have hnil : rest = [] := by
    rw [hc] at hrest
    exact List.map_eq_nil_iff.mp (List.append_eq_nil_iff.mp hrest).1
  refine ⟨read', ?_, hsame⟩
  have hend : T.cursorRight (taken.reverse ++ []) [] =
      ⟨(taken.reverse ++ []).map Prod.snd ++ T.right.before, []⟩ := by
    simp [cursorRight, hright.2]
  unfold Grammar.script
  rw [← hcursor', hread', hnil, hend]
  rfl

theorem Shared.script_same (S : Shared) (hleft : S.left.before = [] ∧ S.left.after = [])
    (hright : S.right.before = [] ∧ S.right.after = []) {read : List Item}
    (h : Grammar.script S.left.source S.tokens = .ok read) :
    ∃ read', Grammar.script S.right.source S.tokens = .ok read' ∧
      read.map (Item.relabel S.left.look) = read'.map (Item.relabel S.right.look) := by
  have hsame : Grammar.script S.left.source (S.parallel.pairs.map Prod.fst) = .ok read → _ :=
    S.parallel.script_same hleft hright
  rw [show S.parallel.pairs = Shared.doubled S.tokens from rfl, Shared.map_fst_doubled,
    Shared.map_snd_doubled] at hsame
  exact hsame h

end DesiredState

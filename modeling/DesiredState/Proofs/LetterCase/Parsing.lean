/-
Two texts that are alike, parsed.

Rule by rule, in the order of the grammar: what is read of one text is read of the other,
to nodes that are the same up to the letter case of words.  No rule looks at the text of a
token to decide, so the only texts that count are those that become part of a node.
-/
import DesiredState.Proofs.LetterCase.Twins
import DesiredState.Proofs.Script.Transfer

namespace DesiredState

open Reading Grammar

variable {S : TextPair} {free : Location → Prop}

/-! ### Nodes -/

theorem Block.Recased.stretch {a b : Block} (h : a.Recased S free b) :
    S.Stretch a.extent b.extent := by
  cases h with
  | mk hextent => exact hextent

theorem Expression.Recased.stretch {a b : Expression} (h : a.Recased S free b) :
    S.Stretch a.extent b.extent := by
  cases h <;> assumption

theorem Statement.Recased.stretch {a b : Statement} (h : a.Recased S free b) :
    S.Stretch a.extent b.extent := by
  cases h with
  | block hb => exact hb.stretch
  | _ => assumption

/-- Accesses of one sort. -/
inductive Grammar.Access.Recased : Access → Access → Prop
  | member (name name' : Text) : Access.Recased (.member name) (.member name')
  | other : Access.Recased .other .other

/-- Parts of an argument list that are the same up to the letter case of words. -/
inductive Grammar.ArgumentPart.Recased (S : TextPair) (free : Location → Prop) :
    ArgumentPart → ArgumentPart → Prop
  | parameter {e f : Extent} {name name' : Text} (hname : name.Alike name') :
    ArgumentPart.Recased S free (.parameter e name) (.parameter f name')
  | comma : ArgumentPart.Recased S free .comma .comma
  | value {a b : Expression} (h : a.Recased S free b) :
    ArgumentPart.Recased S free (.value a) (.value b)

/-- Items that are the same up to the letter case of words. -/
structure Item.Recased (S : TextPair) (free : Location → Prop) (a b : Item) : Prop where
  statement : a.statement.Recased S free b.statement
  keyed : Option.Rel (fun p q => p.1.Twin S free q.1 ∧ p.2.Recased S free q.2) a.keyed? b.keyed?

theorem contributed_of_two (extent : Extent) (first second : Term) (more : List Term) :
    contributed (.pipeline extent (first :: second :: more)) =
      [.expression (.unrecognized extent)] := by
  cases first with
  | expression e =>
    cases e with
    | array _ bracketed _ => cases bracketed <;> rfl
    | _ => rfl
  | _ => rfl

/-- What statements contribute to an array. -/
theorem contributed_recased {s s' : Statement} (h : s.Recased S free s') :
    List.Forall₂ (Term.Recased S free) (contributed s) (contributed s') := by
  have hother (h : S.Stretch s.extent s'.extent) : List.Forall₂ (Term.Recased S free)
      [.expression (.unrecognized s.extent)] [.expression (.unrecognized s'.extent)] :=
    .cons (.expression (.unrecognized h)) .nil
  cases h with
  | block hb => exact .cons (.block hb) .nil
  | pipeline hextent helements =>
    cases helements with
    | nil => exact hother hextent
    | cons hfirst hrest =>
      cases hrest with
      | cons hsecond hmore =>
        rw [contributed_of_two, contributed_of_two]
        exact hother hextent
      | nil =>
        cases hfirst with
        | expression he =>
          cases he with
          | @array e f bracketed elements elements' hextent hinner =>
            cases bracketed with
            | false => exact hinner
            | true => exact .cons (.expression (.array hextent hinner)) .nil
          | _ => exact .cons (.expression (by constructor <;> assumption)) .nil
        | command hc => exact .cons (.command hc) .nil
        | block hb => exact .cons (.block hb) .nil
  | _ => exact hother (by assumption)

theorem membersOf?_isSome {list list' : List Access} (h : List.Forall₂ Access.Recased list list') :
    (membersOf? list').isSome = (membersOf? list).isSome := by
  induction h with
  | nil => rfl
  | cons hab _ ih =>
    cases hab with
    | member name name' => simp [membersOf?, ih]
    | other => rfl

theorem accessed_recased {a b : Expression} (h : a.Recased S free b) {list list' : List Access}
    (hlist : List.Forall₂ Access.Recased list list') {e f : Extent} (hextent : S.Stretch e f) :
    (accessed a list e).Recased S free (accessed b list' f) := by
  have hmembers := membersOf?_isSome hlist
  cases hlist with
  | nil => cases a <;> cases b <;> exact h
  | @cons first first' rest rest' hfirst hrest =>
    unfold accessed
    cases hm : membersOf? (first :: rest) with
    | none =>
      obtain hm' : membersOf? (first' :: rest') = none := by simpa [hm] using hmembers
      rw [hm']
      cases h <;> exact .unrecognized hextent
    | some members =>
      obtain ⟨members', hm'⟩ := Option.isSome_iff_exists.mp (by rw [hmembers, hm]; rfl)
      rw [hm']
      cases h with
      | «variable» _ => exact .member hextent
      | _ => exact .unrecognized hextent

/-! ### Arguments -/

theorem joinValues_recased {a b a' b' : Expression} (h : a.Recased S free b)
    (h' : a'.Recased S free b') :
    (joinValues S.left a a').Recased S free (joinValues S.right b b') := by
  have hextent : S.Stretch
      ⟨S.left.slice (a.extent.location.offsetIn S.left)
        (a'.extent.location.offsetIn S.left + a'.extent.text.size), a.extent.location⟩
      ⟨S.right.slice (b.extent.location.offsetIn S.right)
        (b'.extent.location.offsetIn S.right + b'.extent.text.size), b.extent.location⟩ := by
    refine ⟨h.stretch.location, _, _, rfl, ?_⟩
    rw [S.offsetIn_eq, S.offsetIn_eq, h.stretch.location, h'.stretch.location,
      h'.stretch.text.size]
  have hboth : List.Forall₂ (Term.Recased S free) [.expression a, .expression a']
      [.expression b, .expression b'] := .cons (.expression h) (.cons (.expression h') .nil)
  unfold joinValues
  cases h with
  | @array e f bracketed elements elements' he hinner =>
    cases bracketed with
    | false => exact .array hextent (List.rel_append hinner (.cons (.expression h') .nil))
    | true => exact .array hextent hboth
  | _ => exact .array hextent hboth

theorem foldArguments_recased {parts parts' : List ArgumentPart}
    (h : List.Forall₂ (ArgumentPart.Recased S free) parts parts') (joining : Bool)
    {done done' : List Argument} (hdone : List.Forall₂ (Argument.Recased S free) done done') :
    List.Forall₂ (Argument.Recased S free) (foldArguments S.left joining done parts)
      (foldArguments S.right joining done' parts') := by
  induction h generalizing joining done done' with
  | nil =>
    unfold foldArguments
    exact List.rel_reverse hdone
  | cons hpart _ ih =>
    cases hpart with
    | parameter hname =>
      rw [foldArguments, foldArguments]
      exact ih false (.cons (.parameter hname) hdone)
    | comma =>
      rw [foldArguments, foldArguments]
      have hempty : done'.isEmpty = done.isEmpty := by cases hdone <;> rfl
      rw [hempty]
      exact ih _ hdone
    | value hvalue =>
      cases joining with
      | false =>
        simp only [foldArguments]
        exact ih false (.cons (.value hvalue) hdone)
      | true =>
        cases hdone with
        | nil =>
          simp only [foldArguments]
          exact ih false (.cons (.value hvalue) .nil)
        | cons hprevious hearlier =>
          cases hprevious with
          | parameter hname =>
            simp only [foldArguments]
            exact ih false (.cons (.value hvalue) (.cons (.parameter hname) hearlier))
          | value hprevious =>
            simp only [foldArguments]
            exact ih false (.cons (.value (joinValues_recased hprevious hvalue)) hearlier)

theorem dropTail?_small {tail : Text} (h : tail.NoLetters) (t : Text) :
    Text.dropTail? tail t.small = (Text.dropTail? tail t).map Text.small := by
  have hreverse (t : Text) : t.small.reverse = Text.small t.reverse := List.map_reverse.symm
  unfold Text.dropTail?
  rw [hreverse, Text.dropHead?_small fun c hc => h c (List.mem_reverse.mp hc), Option.map_map,
    Option.map_map]
  exact congrArg (fun f => Option.map f _) (funext hreverse)

theorem parameterName_alike {t u : Text} (h : t.Alike u) :
    (parameterName t).Alike (parameterName u) := by
  have hsmall (t : Text) : parameterName t.small = (parameterName t).small := by
    have hdrop : t.small.drop 1 = Text.small (t.drop 1) := List.map_drop.symm
    unfold parameterName
    dsimp only
    rw [hdrop, dropTail?_small (by decide)]
    cases Text.dropTail? [':'] (t.drop 1) <;> rfl
  rw [Text.Alike, ← hsmall, h, hsmall]

/-! ### Tokens as nodes

A key may be written as a string.  What it says is then the content of the string, which
is alike where the tokens are.
-/

theorem Token.Twin.keyText {t u : Token} (h : t.Twin S free u) :
    Text.Alike (if t.kind.isString then (Literal.ofString t).1 else t.text)
      (if u.kind.isString then (Literal.ofString u).1 else u.text) := by
  rw [h.kind]
  split
  · next hstring =>
    have htext : u.text = t.text := by
      refine h.text_eq ?_ ?_
      · generalize t.kind = kind at hstring
        cases kind <;> first | rfl | cases hstring
      · generalize t.kind = kind at hstring
        cases kind <;> first | exact TokenKind.noConfusion | cases hstring
    rw [Literal.ofString, Literal.ofString, h.kind, htext]
    exact .refl _
  · exact h.alike

/-- A key at a place that is not free is the same. -/
theorem Token.Twin.keyText_eq {t u : Token} (h : t.Twin S free u) (hplace : ¬ free t.location) :
    (if u.kind.isString then (Literal.ofString u).1 else u.text) =
      if t.kind.isString then (Literal.ofString t).1 else t.text := by
  rw [Literal.ofString, Literal.ofString, h.kind, h.same fun _ => hplace]

theorem Token.Twin.bareString {t u : Token} (h : t.Twin S free u) :
    (Grammar.bareString t).Recased S free (Grammar.bareString u) :=
  .string h.stretch fun hplace => h.same fun _ => hplace

/-! ### Rules

The rules nest in each other through the rules below, so that these are assumed to read
twins.  Each rule is followed part by part with the rules for binds and loops.
-/

/-- What the rules below read of both texts. -/
structure Grammar.TwinLevels (S : TextPair) (free : Location → Prop) (below below' : Level) :
    Prop where
  statement : Twins S free (Item.Recased S free) below.statement below'.statement
  value : Twins S free (fun a b => a.node.Recased S free b.node) below.value below'.value

namespace Grammar

section Rules

variable {below below' : Level} (hb : TwinLevels S free below below')
include hb

theorem twins_itemOr (separates : TokenKind → Bool) :
    Twins S free (Option.Rel (Item.Recased S free)) (itemOr below separates)
      (itemOr below' separates) := by
  refine Twins.nextIs fun b => ?_
  split
  · exact Twins.token.map fun _ _ _ => .none
  · exact hb.statement.map fun _ _ h => .some h

theorem twins_items (separates : TokenKind → Bool) :
    Twins S free (List.Forall₂ (Item.Recased S free)) (items below separates)
      (items below' separates) :=
  ((twins_itemOr hb separates).readWhile fun _ _ h => h.nextIs _).map fun _ _ h =>
    List.rel_filterMap (fun _ _ h => h) h

theorem twins_body :
    Twins S free (fun a b => List.Forall₂ (Item.Recased S free) a.1 b.1 ∧ S.Stretch a.2 b.2)
      (body S.left below) (body S.right below') := by
  refine Twins.spanning ((Twins.expect _).bind fun _ _ _ => ?_)
  refine (twins_items hb _).bind fun list list' hlist => ?_
  exact (Twins.expect _).map fun _ _ _ e f hextent => ⟨hlist, hextent⟩

theorem twins_bracketedArray :
    Twins S free (fun a b => a.node.Recased S free b.node) (bracketedArray S.left below)
      (bracketedArray S.right below') := by
  refine Twins.spanning ((Twins.expect _).bind fun _ _ _ => ?_)
  refine (twins_items hb _).bind fun list list' hlist => ?_
  refine (Twins.expect _).map fun _ _ _ e f hextent => .array hextent ?_
  exact List.rel_flatMap hlist fun _ _ h => contributed_recased h.statement

theorem twins_tableEntry :
    Twins S free (fun a b => a.node.Recased S free b.node) (tableEntry below)
      (tableEntry below') := by
  refine Twins.token.bind fun t u ht => (Twins.expect _).bind fun _ _ _ => ?_
  refine hb.value.map fun a b h => ?_
  change Entry.Recased S free ⟨_, t.location, a.node⟩ ⟨_, u.location, b.node⟩
  rw [ht.location]
  refine .mk ht.keyText (fun hplace => ?_) h
  rw [ht.keyText_eq hplace]

theorem twins_entryOrSeparator :
    Twins S free (Option.Rel fun a b => a.node.Recased S free b.node) (entryOrSeparator below)
      (entryOrSeparator below') := by
  refine Twins.nextIs fun b => ?_
  split
  · exact Twins.token.map fun _ _ _ => .none
  · exact (twins_tableEntry hb).map fun _ _ h => .some h

theorem twins_bracketedTable :
    Twins S free (fun a b => a.node.Recased S free b.node) (bracketedTable S.left below)
      (bracketedTable S.right below') := by
  refine Twins.spanning ((Twins.expect _).bind fun _ _ _ => ?_)
  refine ((twins_entryOrSeparator hb).readWhile fun _ _ h => h.nextIs _).bind fun _ _ hlist => ?_
  refine (Twins.expect _).map fun _ _ _ e f hextent => .table hextent ?_
  exact List.forall₂_map_left_iff.mpr (List.forall₂_map_right_iff.mpr
    (List.rel_filterMap (fun _ _ h => h) hlist))

/-! ### Operands -/

omit hb in
theorem twins_group {build : Extent → Expression}
    (h : ∀ e f, S.Stretch e f → (build e).Recased S free (build f)) :
    Twins S free (fun a b => a.node.Recased S free b.node) (groupExpression S.left build)
      (groupExpression S.right build) :=
  Twins.spanning (Twins.group.map fun _ _ _ => h)

omit hb in
/-- The extent of a single token is the token. -/
theorem twinsAt_tokenExpression {build build' : Token → Extent → Expression} {c d : Cursor}
    (hcd : c.Twin S free d) {kind : TokenKind} (hkind : c.nextKind? = some kind)
    (h : ∀ t u, t.kind = kind → t.Twin S free u →
      (build t ⟨t.text, t.location⟩).Recased S free (build' u ⟨u.text, u.location⟩)) :
    TwinsAt S free c d (fun a b => a.node.Recased S free b.node) (tokenExpression S.left build)
      (tokenExpression S.right build') := by
  obtain ⟨consumed, rest⟩ := c
  obtain ⟨consumed', rest'⟩ := d
  obtain ⟨hconsumed, hrest⟩ := hcd
  cases hrest with
  | nil => cases hkind
  | @cons t u rest rest' ht hrest =>
    intro a c' hr
    have hleft : tokenExpression S.left build ⟨consumed, t :: rest⟩ =
        .ok (⟨build t ⟨S.left.slice t.start.offset t.stop.offset, t.location⟩, []⟩,
          ⟨t :: consumed, rest⟩) := rfl
    have hright : tokenExpression S.right build' ⟨consumed', u :: rest'⟩ =
        .ok (⟨build' u ⟨S.right.slice u.start.offset u.stop.offset, u.location⟩, []⟩,
          ⟨u :: consumed', rest'⟩) := rfl
    rw [hleft] at hr
    cases hr
    refine ⟨_, _, hright, ⟨.cons ht hconsumed, hrest⟩, List.suffix_cons _ _, ?_⟩
    change (build t _).Recased S free (build' u _)
    rw [ht.left, ht.right]
    exact h t u (Option.some.inj hkind) ht

omit hb in
theorem stringExpression_recased {t u : Token} (h : t.Twin S free u) (htext : u.text = t.text) :
    (stringExpression t ⟨t.text, t.location⟩).Recased S free
      (stringExpression u ⟨u.text, u.location⟩) := by
  have hliteral : Literal.ofString u = Literal.ofString t := by
    rw [Literal.ofString, Literal.ofString, h.kind, htext]
  have hstretch := h.stretch
  unfold stringExpression
  rw [hliteral]
  exact .string hstretch fun _ => rfl

omit hb in
theorem numberExpression_recased {t u : Token} (h : t.Twin S free u) (htext : u.text = t.text) :
    (numberExpression t ⟨t.text, t.location⟩).Recased S free
      (numberExpression u ⟨u.text, u.location⟩) := by
  have hstretch := h.stretch
  unfold numberExpression
  rw [htext] at hstretch ⊢
  cases Literal.number? t.text with
  | none => exact .string hstretch fun _ => rfl
  | some x => exact .number hstretch rfl

theorem twins_primary :
    Twins S free (fun a b => a.node.Recased S free b.node) (primary S.left below)
      (primary S.right below') := by
  refine Twins.get fun c d hcd => ?_
  rw [hcd.nextKind?]
  have hsame {kind : TokenKind} (hname : kind.isName = false) (hparameter : kind ≠ .parameter)
      {t u : Token} (hk : t.kind = kind) (ht : t.Twin S free u) : u.text = t.text :=
    ht.text_eq (hk ▸ hname) (hk ▸ hparameter)
  cases hkind : c.nextKind? with
  | none => exact Twins.reject c d hcd
  | some kind =>
    cases kind with
    | hereDouble | hereSingle | doubleQuoted | singleQuoted =>
      exact twinsAt_tokenExpression hcd hkind fun t u hk ht =>
        stringExpression_recased ht (hsame rfl TokenKind.noConfusion hk ht)
    | number =>
      exact twinsAt_tokenExpression hcd hkind fun t u hk ht =>
        numberExpression_recased ht (hsame rfl TokenKind.noConfusion hk ht)
    | variableName =>
      refine twinsAt_tokenExpression hcd hkind fun t u hk ht => ?_
      have hstretch := ht.stretch
      rw [hsame rfl TokenKind.noConfusion hk ht] at hstretch ⊢
      exact .variable hstretch
    | splat => exact twinsAt_tokenExpression hcd hkind fun t u hk ht => .unrecognized ht.stretch
    | arrayOpen => exact twins_bracketedArray hb c d hcd
    | tableOpen => exact twins_bracketedTable hb c d hcd
    | parenOpen | subexpressionOpen => exact twins_group (fun _ _ h => .unrecognized h) c d hcd
    | braceOpen => exact twins_group (fun _ _ h => .scriptBlock h) c d hcd
    | _ => exact Twins.reject c d hcd

omit hb in
theorem twins_access : Twins S free Access.Recased access access := by
  refine Twins.get fun c d hcd => ?_
  rw [hcd.nextKind?]
  have hgroup : Twins S free Access.Recased (group >>= fun _ => pure Access.other)
      (group >>= fun _ => pure Access.other) := Twins.group.map fun _ _ _ => .other
  generalize c.nextKind? = kind?
  refine (?_ : Twins S free Access.Recased _ _) c d hcd
  cases kind? with
  | none => exact hgroup
  | some kind =>
    cases kind with
    | dot =>
      exact Twins.token.bind fun _ _ _ => (Twins.tokenOf _ _).map fun _ _ _ => .member _ _
    | doubleColon =>
      exact Twins.token.bind fun _ _ _ => (Twins.tokenOf _ _).map fun _ _ _ => .other
    | bracketOpen =>
      refine Twins.token.bind fun _ _ _ => ?_
      refine (Twins.token.readWhile fun _ _ h => h.nextIs _).bind fun _ _ _ => ?_
      exact (Twins.expect _).map fun _ _ _ => .other
    | typeLiteral => exact Twins.token.map fun _ _ _ => .other
    | _ => exact hgroup

omit hb in
theorem twins_accesses : Twins S free (List.Forall₂ Access.Recased) accesses accesses :=
  twins_access.readWhile fun _ _ h => h.accessFollows

theorem twins_castValue :
    Twins S free (fun _ _ => True) (castValue S.left below) (castValue S.right below') := by
  refine Twins.get fun c d hcd => ?_
  rw [hcd.castValueFollows]
  split
  · exact (twins_primary hb).map (fun _ _ _ => trivial) c d hcd
  · exact Twins.pure trivial c d hcd

theorem twins_operand :
    Twins S free (fun a b => a.node.Recased S free b.node) (operand S.left below)
      (operand S.right below') := by
  -- What follows an optional sign.
  have hrest (hasSign : Bool) : Twins S free
      (fun (build build' : Extent → Marked Expression) => ∀ e f, S.Stretch e f →
        (build e).node.Recased S free (build' f).node)
      (do
        if ← nextIs (· == .typeLiteral) then
          let _ ← readWhile (·.nextIs (· == .typeLiteral)) token
          castValue S.left below
          let _ ← accesses
          pure fun extent => ⟨.unrecognized extent, []⟩
        else
          let base ← primary S.left below
          let followed ← accesses
          pure fun extent =>
            if hasSign then ⟨.unrecognized extent, []⟩
            else ⟨accessed base.node followed extent, base.marks⟩)
      (do
        if ← nextIs (· == .typeLiteral) then
          let _ ← readWhile (·.nextIs (· == .typeLiteral)) token
          castValue S.right below'
          let _ ← accesses
          pure fun extent => ⟨.unrecognized extent, []⟩
        else
          let base ← primary S.right below'
          let followed ← accesses
          pure fun extent =>
            if hasSign then ⟨.unrecognized extent, []⟩
            else ⟨accessed base.node followed extent, base.marks⟩) := by
    refine Twins.nextIs fun b => ?_
    split
    · refine (Twins.token.readWhile fun _ _ h => h.nextIs _).bind fun _ _ _ => ?_
      refine (twins_castValue hb).bind fun _ _ _ => ?_
      exact twins_accesses.map fun _ _ _ _ _ hextent => .unrecognized hextent
    · refine (twins_primary hb).bind fun base base' hbase => ?_
      refine twins_accesses.map fun list list' hlist e f hextent => ?_
      cases hasSign with
      | true => exact .unrecognized hextent
      | false => exact accessed_recased hbase hlist hextent
  refine Twins.spanning (Twins.nextIs fun hasSign => ?_)
  cases hasSign with
  | true => exact Twins.token.bind fun _ _ _ => hrest true
  | false => exact hrest false

theorem twins_binary :
    Twins S free (fun a b => a.node.Recased S free b.node) (binary S.left below)
      (binary S.right below') := by
  refine Twins.spanning ((twins_operand hb).bind fun first first' hfirst => ?_)
  have hmore : Twins S free (fun _ _ => True) (operatorAndOperand S.left below)
      (operatorAndOperand S.right below') :=
    Twins.token.bind fun _ _ _ => (twins_operand hb).map fun _ _ _ => trivial
  refine (hmore.readWhile fun c d h => by rw [h.onLine, h.nextIs]).map ?_
  intro list list' hlist e f hextent
  cases hlist with
  | nil => exact hfirst
  | cons _ _ => exact .unrecognized hextent

theorem twins_expression :
    Twins S free (fun a b => a.node.Recased S free b.node) (expression S.left below)
      (expression S.right below') := by
  refine Twins.spanning ((twins_binary hb).bind fun first first' hfirst => ?_)
  have hmore : Twins S free (fun a b => a.node.Recased S free b.node)
      (commaAndValue S.left below) (commaAndValue S.right below') :=
    Twins.token.bind fun _ _ _ => twins_binary hb
  refine (hmore.readWhile fun c d h => h.nextIs _).map ?_
  intro list list' hlist e f hextent
  cases hlist with
  | nil => exact hfirst
  | cons hsecond hrest =>
    refine .array hextent (List.forall₂_map_left_iff.mpr (List.forall₂_map_right_iff.mpr ?_))
    exact .cons (.expression hfirst) (.cons (.expression hsecond)
      (hrest.imp fun _ _ h => .expression h))

/-! ### Commands -/

theorem twins_argument :
    Twins S free (fun a b => a.node.Recased S free b.node) (argument S.left below)
      (argument S.right below') := by
  refine Twins.get fun c d hcd => ?_
  rw [hcd.nextKind?]
  generalize c.nextKind? = kind?
  refine (?_ : Twins S free (fun (a b : Marked ArgumentPart) => a.node.Recased S free b.node)
    _ _) c d hcd
  have hoperand : Twins S free (fun (a b : Marked ArgumentPart) => a.node.Recased S free b.node)
      (operand S.left below >>= fun e => pure (Marked.mk (.value e.node) e.marks))
      (operand S.right below' >>= fun e => pure (Marked.mk (.value e.node) e.marks)) :=
    (twins_operand hb).map fun _ _ h => ArgumentPart.Recased.value h
  cases kind? with
  | none => exact hoperand
  | some kind =>
    cases kind with
    | parameter =>
      exact Twins.token.map fun t u ht =>
        ArgumentPart.Recased.parameter (parameterName_alike ht.alike)
    | comma => exact Twins.token.map fun _ _ _ => ArgumentPart.Recased.comma
    | bareword =>
      refine Twins.spanning (Twins.token.bind fun t u ht => ?_)
      refine twins_accesses.map fun list list' hlist e f hextent => ArgumentPart.Recased.value ?_
      cases hlist with
      | nil => exact ht.bareString
      | cons _ _ => exact .unrecognized hextent
    | _ => exact hoperand

theorem twins_commandArguments {enter : Cursor → Bool}
    (henter : ∀ c d, c.Twin S free d → enter d = enter c) :
    Twins S free (fun a b => List.Forall₂ (Argument.Recased S free) a.node b.node)
      (commandArguments S.left below enter) (commandArguments S.right below' enter) := by
  refine ((twins_argument hb).readWhile henter).map fun list list' hlist => ?_
  exact foldArguments_recased
    (List.forall₂_map_left_iff.mpr (List.forall₂_map_right_iff.mpr hlist)) false .nil

theorem twins_pipeTarget :
    Twins S free (fun a b => a.node.Recased S free b.node) (pipeTarget S.left below)
      (pipeTarget S.right below') := by
  refine Twins.token.bind fun _ _ _ => Twins.nextIs fun b => ?_
  split
  · refine Twins.spanning_token fun t u ht => ?_
    refine (twins_commandArguments hb fun c d h => by rw [h.onLine, h.nextIs]).map ?_
    intro arguments arguments' harguments e f hextent hplace
    exact .command (.mk hextent (fun hkept => ht.same fun _ => hplace ▸ hkept) ht.alike harguments)
  · exact (twins_expression hb).map fun _ _ h => Term.Recased.expression h

theorem twins_pipes :
    Twins S free (fun a b => List.Forall₂ (Term.Recased S free) a.node b.node)
      (pipes S.left below) (pipes S.right below') :=
  ((twins_pipeTarget hb).readWhile fun _ _ h => h.nextIs _).map fun _ _ h =>
    List.forall₂_map_left_iff.mpr (List.forall₂_map_right_iff.mpr h)

theorem twins_expressionOrAssignment :
    Twins S free (fun a b => a.node.Recased S free b.node) (expressionOrAssignment S.left below)
      (expressionOrAssignment S.right below') := by
  refine Twins.spanning ((twins_expression hb).bind fun first first' hfirst => ?_)
  refine Twins.nextIs fun b => ?_
  split
  · exact Twins.token.bind fun _ _ _ => hb.value.map fun _ _ _ _ _ hextent => .assignment hextent
  · exact (twins_pipes hb).map fun _ _ hmore _ _ hextent =>
      .pipeline hextent (.cons (.expression hfirst) hmore)

/-! ### Statements that start with a word -/

theorem twins_keyed :
    Twins S free (Item.Recased S free) (keyed S.left below) (keyed S.right below') := by
  refine Twins.spanning (Twins.token.bind fun t u ht => (Twins.expect _).bind fun _ _ _ => ?_)
  exact hb.value.map fun _ _ h _ _ hextent => ⟨.assignment hextent, .some ⟨ht, h⟩⟩

omit hb in
theorem mapM_keyed? {inner inner' : List Item}
    (h : List.Forall₂ (Item.Recased S free) inner inner') :
    Option.Rel (List.Forall₂ fun p q => p.1.Twin S free q.1 ∧ p.2.Recased S free q.2)
      (inner.mapM (·.keyed?)) (inner'.mapM (·.keyed?)) := by
  induction h with
  | nil => exact .some .nil
  | @cons item item' rest rest' hitem _ ih =>
    rw [List.mapM_cons, List.mapM_cons]
    have hkeyed := hitem.keyed
    generalize item.keyed? = first, item'.keyed? = first' at hkeyed
    generalize rest.mapM (·.keyed?) = more, rest'.mapM (·.keyed?) = more' at ih
    cases hkeyed with
    | none => exact .none
    | some hfirst =>
      cases ih with
      | none => exact .none
      | some hmore => exact .some (.cons hfirst hmore)

omit hb in
theorem entriesOf_recased {inner inner' : List Item}
    (h : List.Forall₂ (Item.Recased S free) inner inner') :
    Option.Rel (List.Forall₂ (Entry.Recased S free)) (entriesOf inner).1 (entriesOf inner').1 := by
  have hkeyed := mapM_keyed? h
  unfold entriesOf
  generalize inner.mapM (·.keyed?) = keyed, inner'.mapM (·.keyed?) = keyed' at hkeyed
  cases hkeyed with
  | none => exact .none
  | some hall =>
    refine .some (List.forall₂_map_left_iff.mpr (List.forall₂_map_right_iff.mpr ?_))
    refine hall.imp ?_
    rintro ⟨t, value⟩ ⟨u, value'⟩ ⟨ht, hvalue⟩
    change Entry.Recased S free ⟨_, t.location, value⟩ ⟨_, u.location, value'⟩
    rw [ht.location]
    refine .mk ht.alike (fun hplace => ?_) hvalue
    rw [ht.same fun _ => hplace]

omit hb in
theorem blockName?_recased {arguments arguments' : List Argument}
    (h : List.Forall₂ (Argument.Recased S free) arguments arguments') :
    Option.Rel (Option.Rel (Expression.Recased S free)) (blockName? arguments)
      (blockName? arguments') := by
  cases h with
  | nil => exact .some .none
  | cons hfirst hrest =>
    cases hrest with
    | nil =>
      cases hfirst with
      | parameter _ => exact .none
      | value he => exact .some (.some he)
    | cons _ _ => cases hfirst <;> exact .none

omit hb in
theorem commandOrBlock_recased {head head' : Token} (hhead : head.Twin S free head')
    {arguments arguments' : Marked (List Argument)}
    (harguments : List.Forall₂ (Argument.Recased S free) arguments.node arguments'.node)
    {read read' : Option (List Item × Extent)}
    (hread : Option.Rel (fun a b => List.Forall₂ (Item.Recased S free) a.1 b.1 ∧ S.Stretch a.2 b.2)
      read read') {piped piped' : Marked (List Term)}
    (hpiped : List.Forall₂ (Term.Recased S free) piped.node piped'.node) {e f : Extent}
    (hextent : S.Stretch e f) (hplace : e.location = head.location) :
    (commandOrBlock head arguments read piped e).Recased S free
      (commandOrBlock head' arguments' read' piped' f) := by
  have hcommand (marks marks' : List Mark) : Item.Recased S free
      ⟨.pipeline e (.command ⟨e, head.text, arguments.node⟩ :: piped.node), none, marks⟩
      ⟨.pipeline f (.command ⟨f, head'.text, arguments'.node⟩ :: piped'.node), none, marks'⟩ :=
    ⟨.pipeline hextent (.cons (.command (.mk hextent
      (fun hkept => hhead.same fun _ => hplace ▸ hkept) hhead.alike harguments)) hpiped), .none⟩
  have hname := blockName?_recased harguments
  unfold commandOrBlock
  cases hread with
  | none => exact hcommand _ _
  | @some inner inner' hinner =>
    obtain ⟨list, bodyExtent⟩ := inner
    obtain ⟨list', bodyExtent'⟩ := inner'
    have hentries := entriesOf_recased hinner.1
    obtain ⟨piped, pipedMarks⟩ := piped
    obtain ⟨piped', pipedMarks'⟩ := piped'
    cases hpiped with
    | cons hfirst hrest => exact hcommand _ _
    | nil =>
      generalize blockName? arguments.node = name, blockName? arguments'.node = name' at hname
      rcases hfound : entriesOf list with ⟨entries, marks⟩
      rcases hfound' : entriesOf list' with ⟨entries', marks'⟩
      rw [hfound, hfound'] at hentries
      cases hname with
      | none => exact hcommand _ _
      | some hname =>
        dsimp only
        rw [hfound, hfound']
        cases hentries with
        | none => exact hcommand _ _
        | some hentries =>
          refine ⟨.block ?_, .none⟩
          rw [hhead.location]
          exact .mk hextent hhead.alike hname hentries

theorem twins_command :
    Twins S free (Item.Recased S free) (command S.left below) (command S.right below') := by
  refine Twins.spanning_token fun t u ht => ?_
  refine (twins_commandArguments hb fun c d h => by
    rw [h.onLine, h.nextIs, h.nextIs]).bind fun arguments arguments' harguments => ?_
  have hbody : Twins S free
      (Option.Rel fun a b => List.Forall₂ (Item.Recased S free) a.1 b.1 ∧ S.Stretch a.2 b.2)
      (optionalBody S.left below) (optionalBody S.right below') := by
    refine Twins.nextIs fun b => ?_
    split
    · exact (twins_body hb).map fun _ _ h => .some h
    · exact Twins.pure .none
  refine hbody.bind fun read read' hread => ?_
  exact (twins_pipes hb).map fun _ _ hpiped _ _ hextent hplace =>
    commandOrBlock_recased ht harguments hread hpiped hextent hplace

theorem twins_wordStatement :
    Twins S free (Item.Recased S free) (wordStatement S.left below)
      (wordStatement S.right below') := by
  refine Twins.get fun c d hcd => ?_
  have hkeyed := twins_keyed hb c d hcd
  have hcommand := twins_command hb c d hcd
  obtain ⟨consumed, rest⟩ := c
  obtain ⟨consumed', rest'⟩ := d
  cases hcd.rest with
  | nil => exact Twins.reject _ _ hcd
  | cons hfirst hmore =>
    cases hmore with
    | nil =>
      dsimp only
      rw [hfirst.kind]
      split
      · exact hkeyed
      · exact hcommand
    | cons hsecond _ =>
      dsimp only
      rw [hfirst.kind, hsecond.kind]
      split
      · exact hkeyed
      · exact hcommand

theorem twins_value :
    Twins S free (fun a b => a.node.Recased S free b.node) (value S.left below)
      (value S.right below') := by
  refine Twins.nextIs fun b => ?_
  split
  · exact (twins_wordStatement hb).map fun _ _ h => h.statement
  · exact twins_expressionOrAssignment hb

/-! ### Statements -/

theorem twins_configuration :
    Twins S free (Item.Recased S free) (configuration S.left below)
      (configuration S.right below') := by
  refine Twins.spanning (Twins.token.bind fun _ _ _ => Twins.token.bind fun _ _ _ => ?_)
  exact (twins_body hb).map fun a b h _ _ hextent => ⟨.configuration hextent
    (List.forall₂_map_left_iff.mpr (List.forall₂_map_right_iff.mpr
      (h.1.imp fun _ _ hitem => hitem.statement))), .none⟩

theorem twins_node :
    Twins S free (Item.Recased S free) (node S.left below) (node S.right below') := by
  rw [node_eq, node_eq]
  have htarget : Twins S free (fun _ _ => True) (target S.left below) (target S.right below') := by
    refine Twins.nextIs fun b => ?_
    split
    · exact Twins.token.map fun _ _ _ => trivial
    · exact (twins_operand hb).mono fun _ _ _ => trivial
  refine Twins.spanning (Twins.token.bind fun _ _ _ => htarget.bind fun _ _ _ => ?_)
  exact (twins_body hb).map fun a b h _ _ hextent => ⟨.node hextent
    (List.forall₂_map_left_iff.mpr (List.forall₂_map_right_iff.mpr
      (h.1.imp fun _ _ hitem => hitem.statement))), .none⟩

omit hb in
theorem twins_param : Twins S free (Item.Recased S free) (param S.left) (param S.right) :=
  Twins.spanning (Twins.token.bind fun _ _ _ => Twins.group.map fun _ _ _ _ _ hextent =>
    ⟨.param hextent, .none⟩)

theorem twins_statement :
    Twins S free (Item.Recased S free) (statement S.left below) (statement S.right below') := by
  refine Twins.get fun c d hcd => ?_
  have hsecond : (d.rest.drop 1).head?.map Token.kind = (c.rest.drop 1).head?.map Token.kind := by
    obtain ⟨consumed, rest⟩ := c
    obtain ⟨consumed', rest'⟩ := d
    cases hcd.rest with
    | nil => rfl
    | cons _ hmore =>
      cases hmore with
      | nil => rfl
      | cons ht _ => exact congrArg some ht.kind
  rw [hcd.nextKind?, hsecond]
  generalize c.nextKind? = kind?, (c.rest.drop 1).head?.map Token.kind = second
  refine (?_ : Twins S free (Item.Recased S free) _ _) c d hcd
  have hexpression : Twins S free (Item.Recased S free)
      (expressionOrAssignment S.left below >>= fun read => pure ⟨read.node, none, read.marks⟩)
      (expressionOrAssignment S.right below' >>= fun read => pure ⟨read.node, none, read.marks⟩) :=
    (twins_expressionOrAssignment hb).map fun _ _ h => ⟨h, .none⟩
  have hkeyword {starts : TokenKind → Bool} {rule rule' : Reading Item}
      (hrule : Twins S free (Item.Recased S free) rule rule') :
      Twins S free (Item.Recased S free)
        (if second.any starts then rule
          else if second.any (· == .equals) then wordStatement S.left below
          else reject .noAlternative)
        (if second.any starts then rule'
          else if second.any (· == .equals) then wordStatement S.right below'
          else reject .noAlternative) := by
    split
    · exact hrule
    · split
      · exact twins_wordStatement hb
      · exact Twins.reject
  cases kind? with
  | none => exact hexpression
  | some kind =>
    cases kind with
    | configuration => exact hkeyword (twins_configuration hb)
    | node => exact hkeyword (twins_node hb)
    | param => exact hkeyword twins_param
    | bareword => exact twins_wordStatement hb
    | _ => exact hexpression

end Rules

/-! ### Scripts -/

theorem twinLevels (S : TextPair) (free : Location → Prop) (n : Nat) :
    TwinLevels S free (level S.left n) (level S.right n) := by
  induction n with
  | zero => exact ⟨Twins.reject, Twins.reject⟩
  | succ n ih => exact ⟨twins_statement ih, twins_value ih⟩

/-- **Scripts of twins are read to the same trees**, up to the letter case of words. -/
theorem script_recased {tokens tokens' : List Token}
    (h : List.Forall₂ (Token.Twin S free) tokens tokens') {read : List Item}
    (hread : script S.left tokens = .ok read) :
    ∃ read', script S.right tokens' = .ok read' ∧
      List.Forall₂ (Item.Recased S free) read read' := by
  obtain ⟨c, hrest, hitems⟩ := script_ok hread
  obtain ⟨read', d, hitems', hcd, -, hall⟩ := twins_items (twinLevels S free tokens.length)
    (· == .semicolon) ⟨[], tokens⟩ ⟨[], tokens'⟩ ⟨.nil, h⟩ read c hitems
  refine ⟨read', ?_, hall⟩
  obtain ⟨consumed, rest⟩ := c
  obtain ⟨consumed', rest'⟩ := d
  obtain rfl : rest = [] := hrest
  cases hcd.rest
  unfold script
  rw [← h.length_eq, hitems']
  rfl

end Grammar

end DesiredState

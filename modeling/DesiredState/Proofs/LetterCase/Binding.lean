/-
Binding entries whose keys are alike.

Two sessions are followed side by side.  Whatever is asked of them is asked by names that
are alike, and everything that is looked up is looked up without regard to letter case, so
they answer the same and note the same.  A repeated key is found under the same earlier
spelling of it on both sides, and so the same value is replaced; a new key is held on both
sides, since it is the name of a parent on both or on neither.
-/
import DesiredState.Proofs.Binding
import DesiredState.Proofs.LetterCase.Values
import DesiredState.Proofs.Session
import DesiredState.Value.Binding

namespace DesiredState

variable {S : TextPair}

/-! ### Keys -/

namespace Fields

theorem sameName_spelling (key : Text) (fields : Fields α) :
    Text.sameName (fields.spelling key) key := by
  unfold spelling
  cases hfind : fields.names.find? fun name => Text.sameName name key with
  | none => exact beq_self_eq_true _
  | some name => simpa using List.find?_some hfind

/-- A key is given to the first field of its name. -/
theorem bind_cons (key : Text) (value : α) (other : Text) (old : α) (rest : Fields α) :
    bind key value ((other, old) :: rest) =
      if Text.sameName other key then (other, value) :: rest
      else (other, old) :: bind key value rest := by
  have hspelling : spelling key ((other, old) :: rest) =
      if Text.sameName other key then other else spelling key rest := by
    rw [spelling, names, List.map_cons, List.find?_cons]
    split
    · next h => rw [if_pos h]; rfl
    · next h => rw [h]; rfl
  unfold bind
  rw [hspelling, names, List.map_cons]
  split
  · simp [set]
  · next hother =>
    have hne : other ≠ spelling key rest := fun he =>
      hother (by rw [he]; exact sameName_spelling key rest)
    have hmem : spelling key rest ∉ other :: rest.map (·.1) ↔ spelling key rest ∉ rest.names := by
      rw [List.mem_cons, not_or, names]
      exact and_iff_right hne.symm
    simp only [hmem, set, if_neg hne]
    split <;> rfl

/-- **Repeated keys are merged alike.** -/
theorem bind_recased {fields fields' : Fields Value} {key key' : Text} {x y : Value}
    (h : List.Forall₂ (Property.Recased S) fields fields') (hkey : key.Alike key')
    (hparent : key' = parentName ↔ key = parentName) (hx : x.Recased S y) :
    List.Forall₂ (Property.Recased S) (fields.bind key x) (fields'.bind key' y) := by
  induction h with
  | nil =>
    by_cases hlost : key = parentName
    · obtain rfl := hlost
      obtain rfl := hparent.mpr rfl
      exact .nil
    · rw [Binding.bind_of_new x (fun _ h => absurd h List.not_mem_nil) hlost,
        Binding.bind_of_new y (fun _ h => absurd h List.not_mem_nil) (hparent.not.mpr hlost)]
      exact .cons (.mk hkey hx) .nil
  | @cons p q rest rest' hfirst hrest ih =>
    cases hfirst with
    | mk hname hvalue =>
      rw [bind_cons, bind_cons, ← hname.sameName hkey]
      split
      · exact .cons (.mk hname hx) hrest
      · exact .cons (.mk hname hvalue) ih

end Fields

theorem Schema.Property.find?_alike {name name' : Text} (h : name.Alike name')
    (properties : List Schema.Property) : find? name' properties = find? name properties := by
  simp only [find?, Text.sameName, h.lower]

/-! ### Two sessions

The sessions differ in the spelling of what was asked.  A memo disregards spelling, so
that they are asked for the same and remember the same.
-/

/-- Sessions that consult the same look-up, and in which the same has happened. -/
structure Session.Recased (S : TextPair) (lookup : DeclLookup) (scope : ImportScope)
    (s s' : Session) : Prop where
  left : s.Consults lookup scope
  right : s'.Consults lookup scope
  events : List.Forall₂ (Event.Recased S) s.events s'.events

/-- Work that comes to related values in two such sessions, and leaves them so. -/
def Interpreting.Recased (S : TextPair) (lookup : DeclLookup) (scope : ImportScope)
    (P : α → β → Prop) (work : Interpreting α) (work' : Interpreting β) : Prop :=
  ∀ s s', Session.Recased S lookup scope s s' → P (work s).1 (work' s').1 ∧
    Session.Recased S lookup scope (work s).2 (work' s').2

namespace Interpreting.Recased

variable {lookup : DeclLookup} {scope : ImportScope} {α β γ δ : Type}

theorem pure {P : α → β → Prop} {a : α} {b : β} (h : P a b) :
    Recased S lookup scope P (Pure.pure a) (Pure.pure b) := fun _ _ hs => ⟨h, hs⟩

theorem bind {P : α → β → Prop} {Q : γ → δ → Prop} {work : Interpreting α}
    {work' : Interpreting β} {next : α → Interpreting γ} {next' : β → Interpreting δ}
    (h : Recased S lookup scope P work work')
    (hnext : ∀ a b, P a b → Recased S lookup scope Q (next a) (next' b)) :
    Recased S lookup scope Q (work >>= next) (work' >>= next') := by
  intro s s' hs
  obtain ⟨hp, hafter⟩ := h s s' hs
  exact hnext _ _ hp _ _ hafter

theorem note {e e' : Event} (h : e.Recased S e') :
    Recased S lookup scope (fun _ _ => True) (Interpreting.note e) (Interpreting.note e') := by
  intro s s' hs
  refine ⟨trivial, ⟨hs.left.lookup, hs.left.scope, hs.left.answers⟩,
    ⟨hs.right.lookup, hs.right.scope, hs.right.answers⟩, ?_⟩
  exact List.rel_append hs.events (.cons h .nil)

theorem report {cause cause' : Diagnostic.Cause} {subject subject' : Subject}
    {extent extent' : Option Extent} (hcause : cause.Recased cause')
    (hsubject : subject.Recased S subject')
    (hextent : extent'.map (·.range) = extent.map (·.range)) :
    Recased S lookup scope (fun _ _ => True) (Interpreting.report cause subject extent)
      (Interpreting.report cause' subject' extent') :=
  note (.diagnosed (hcause.diagnostic hsubject hextent))

theorem resolve (hcase : lookup.IgnoresCase) {name name' : Text} (h : name.Alike name') :
    Recased S lookup scope (fun found found' => found' = found) (Interpreting.resolve name)
      (Interpreting.resolve name') := by
  intro s s' hs
  obtain ⟨hfound, hleft⟩ := resolve_eq hcase hs.left name
  obtain ⟨hfound', hright⟩ := resolve_eq hcase hs.right name'
  have hsame : Text.sameName name' name := by rw [Text.sameName, h.lower, beq_self_eq_true]
  refine ⟨?_, hleft, hright, hs.events⟩
  change (s'.memo.resolve name').1 = (s.memo.resolve name).1
  rw [hfound, hfound', Schema.Resource.found?, hcase name' name scope hsame,
    Schema.Resource.found?]

theorem resolveClass (hcase : lookup.IgnoresCase) {owner owner' name name' : Text}
    (howner : owner.Alike owner') (h : name.Alike name') :
    Recased S lookup scope (fun found found' => found' = found)
      (Interpreting.resolveClass owner name) (Interpreting.resolveClass owner' name') := by
  intro s s' hs
  obtain ⟨hsame, hafter⟩ := resolve hcase howner s s' hs
  refine ⟨?_, hafter⟩
  change Schema.Resource.classOf? (Interpreting.resolve owner' s').1 _ =
    Schema.Resource.classOf? (Interpreting.resolve owner s).1 _
  rw [hsame, h.lower]

end Interpreting.Recased

/-! ### Binding -/

theorem Subject.Recased.resourceName_or {s s' : Subject} (h : s.Recased S s') {owner owner' : Text}
    (howner : owner.Alike owner') :
    Option.Rel Text.Alike (s.resourceName.or (some owner)) (s'.resourceName.or (some owner')) := by
  obtain ⟨resource, _, _⟩ := s
  obtain ⟨resource', _, _⟩ := s'
  cases h.resourceName with
  | none => exact .some howner
  | some hresource => exact .some hresource

namespace Binding

open Interpreting

variable {lookup : DeclLookup} {scope : ImportScope} {owner owner' : Text} {records : Bool}

/-- Both sides come to values that are read of the same. -/
abbrev RecasedValue (S : TextPair) (lookup : DeclLookup) (scope : ImportScope)
    (work work' : Interpreting Value) : Prop :=
  Interpreting.Recased S lookup scope (Value.Recased S) work work'

theorem loneBlock_recased (expected : DeclaredType) {b b' : SubObject} (h : b.Recased S b') :
    (loneBlock expected b).Recased S (loneBlock expected b') := by
  unfold loneBlock
  split
  · exact .subObjectArray (.cons h .nil)
  · exact .subObject h

theorem literal_recased {subject subject' : Subject} (hsubject : subject.Recased S subject')
    (expected : DeclaredType) {t u : Term} (h : t.Recased S Nowhere u) :
    RecasedValue S lookup scope (literal subject expected t) (literal subject' expected u) := by
  have hcoercion := Coercion.of_recased expected h
  unfold literal
  dsimp only
  rw [hcoercion.failure]
  split
  · next target _ =>
    refine .bind (.report (.failedCoercion target h.stretch.text.alike) hsubject ?_) fun _ _ _ =>
      .pure hcoercion.value
    exact congrArg some h.stretch.range
  · exact .pure hcoercion.value

theorem reportSkipped_recased {subject subject' : Subject} (hsubject : subject.Recased S subject')
    (skipped : Nat) : Interpreting.Recased S lookup scope (fun _ _ => True)
      (reportSkipped subject skipped) (reportSkipped subject' skipped) := by
  unfold reportSkipped
  split
  · exact .pure trivial
  · exact .report (.mixedArray skipped) hsubject rfl

theorem isClassBlock_recased {t u : Term} (h : t.Recased S Nowhere u) :
    u.isClassBlock = t.isClassBlock := by
  cases h with
  | block hb =>
    cases hb with
    | mk _ _ hname => cases hname <;> rfl
  | _ => rfl

/-- What is picked by being a block of a class stands in the same places. -/
theorem filter_isClassBlock {ts us : List Term} (h : List.Forall₂ (Term.Recased S Nowhere) ts us)
    (p : Bool → Bool) :
    List.Forall₂ (Term.Recased S Nowhere) (ts.filter fun t => p t.isClassBlock)
      (us.filter fun u => p u.isClassBlock) :=
  List.rel_filter (fun t u htu => by simp only [isClassBlock_recased htu]) h

theorem countP_isClassBlock {ts us : List Term} (h : List.Forall₂ (Term.Recased S Nowhere) ts us)
    (p : Bool → Bool) :
    us.countP (fun u => p u.isClassBlock) = ts.countP fun t => p t.isClassBlock := by
  rw [List.countP_eq_length_filter, List.countP_eq_length_filter,
    (filter_isClassBlock h p).length_eq]

theorem head?_isClassBlock {ts us : List Term} (h : List.Forall₂ (Term.Recased S Nowhere) ts us) :
    us.head?.any Term.isClassBlock = ts.head?.any Term.isClassBlock := by
  cases h with
  | nil => rfl
  | cons hfirst _ => exact isClassBlock_recased hfirst

/-- What is left of an array without blocks is read alike. -/
theorem scalars_recased {subject subject' : Subject} (hsubject : subject.Recased S subject')
    (expected : DeclaredType) {e f : Extent} {bracketed : Bool} (hextent : S.Stretch e f)
    {ts us : List Term} (h : List.Forall₂ (Term.Recased S Nowhere) ts us) :
    RecasedValue S lookup scope
      (do
        reportSkipped subject (ts.countP Term.isClassBlock)
        literal subject expected
          (.expression (.array e bracketed (ts.filter fun t => !t.isClassBlock))))
      (do
        reportSkipped subject' (us.countP Term.isClassBlock)
        literal subject' expected
          (.expression (.array f bracketed (us.filter fun u => !u.isClassBlock)))) := by
  have hcount : us.countP Term.isClassBlock = ts.countP Term.isClassBlock :=
    countP_isClassBlock h id
  rw [hcount]
  exact .bind (reportSkipped_recased hsubject _) fun _ _ _ =>
    literal_recased hsubject expected (.expression (.array hextent (filter_isClassBlock h (!·))))

mutual

/-- A block of a class is bound alike. -/
theorem classBlock_recased (hcase : lookup.IgnoresCase) (howner : owner.Alike owner')
    {subject subject' : Subject} (hsubject : subject.Recased S subject')
    {keyword keyword' : Text} (hkeyword : keyword.Alike keyword') (place : Location) :
    ∀ {body body' : Table}, List.Forall₂ (Entry.Recased S Nowhere) body.entries body'.entries →
      Interpreting.Recased S lookup scope (SubObject.Recased S)
        (classBlock ⟨owner, records⟩ subject keyword place body)
        (classBlock ⟨owner', records⟩ subject' keyword' place body')
  | ⟨be, list⟩, ⟨bf, list'⟩, h => by
    rw [classBlock, classBlock]
    refine .bind (.resolveClass hcase howner hkeyword) ?_
    rintro _ schema rfl
    have hinner : Subject.Recased S
        { subject with resourceName := subject.resourceName.or (some owner) }
        { subject' with resourceName := subject'.resourceName.or (some owner') } :=
      ⟨hsubject.resourceName_or howner, hsubject.instanceName, hsubject.propertyName⟩
    have hname : ((schema.map (·.typeName)).getD keyword).Alike
        ((schema.map (·.typeName)).getD keyword') := by
      cases schema with
      | none => exact hkeyword
      | some c => exact .refl _
    have htag : Option.Rel Text.Alike
        (if records then some ((schema.map (·.typeName)).getD keyword) else none)
        (if records then some ((schema.map (·.typeName)).getD keyword') else none) := by
      split
      · exact .some hname
      · exact .none
    have hrest := Interpreting.Recased.bind
      (entries_recased hcase howner hinner hkeyword (schema.map (·.properties)) .nil h)
      fun _ _ hproperties => .pure (SubObject.Recased.mk htag hproperties)
    by_cases hnone : schema.isNone
    · simp only [hnone, if_true]
      refine .bind (.report (.unknownClass hkeyword howner) hsubject ?_) fun _ _ _ => hrest
      exact congrArg some (Extent.range_alike rfl hkeyword.symm)
    · simp only [hnone]
      exact hrest
termination_by structural body => body

/-- Entries are bound alike. -/
theorem entries_recased (hcase : lookup.IgnoresCase) (howner : owner.Alike owner')
    {subject subject' : Subject} (hsubject : subject.Recased S subject')
    {declaredBy declaredBy' : Text} (hdeclared : declaredBy.Alike declaredBy')
    (schema : Option (List Schema.Property)) {done done' : Fields Value}
    (hdone : List.Forall₂ (Property.Recased S) done done') :
    ∀ {list list' : List Entry}, List.Forall₂ (Entry.Recased S Nowhere) list list' →
      Interpreting.Recased S lookup scope (List.Forall₂ (Property.Recased S))
        (entries ⟨owner, records⟩ subject declaredBy schema done list)
        (entries ⟨owner', records⟩ subject' declaredBy' schema done' list')
  | [], _, h => by
    cases h
    rw [entries, entries]
    exact .pure hdone
  | ⟨key, place, value⟩ :: rest, _, h => by
    cases h with
    | cons hfirst hrest =>
      cases hfirst with
      | @mk _ key' _ _ value' hkey hparent hvalue =>
        have hmore {x y : Value} (hxy : x.Recased S y) :=
          entries_recased hcase howner hsubject hdeclared schema
            (Fields.bind_recased hdone hkey (hparent not_false) hxy) hrest
        have hhere : Subject.Recased S { subject with propertyName := some key }
            { subject' with propertyName := some key' } :=
          ⟨hsubject.resourceName, hsubject.instanceName, .some hkey⟩
        cases schema with
        | none =>
          rw [entries, entries]
          exact hmore (.raw hvalue.stretch.text)
        | some declared =>
          rw [entries, entries, Schema.Property.find?_alike hkey]
          cases Schema.Property.find? key declared with
          | none =>
            refine .bind (.report (.unknownProperty hkey hdeclared) hhere ?_) fun _ _ _ =>
              entries_recased hcase howner hsubject hdeclared (some declared) hdone hrest
            exact congrArg some (Extent.range_alike rfl hkey.symm)
          | some property =>
            exact .bind (statement_recased hcase howner hhere property.type hvalue)
              fun _ _ hxy => hmore hxy
termination_by structural list => list

/-- A statement comes to the same value. -/
theorem statement_recased (hcase : lookup.IgnoresCase) (howner : owner.Alike owner')
    {subject subject' : Subject} (hsubject : subject.Recased S subject')
    (expected : DeclaredType) : ∀ {s s' : Statement}, s.Recased S Nowhere s' →
      RecasedValue S lookup scope (statement ⟨owner, records⟩ subject expected s)
        (statement ⟨owner', records⟩ subject' expected s')
  | .block ⟨extent, keyword, place, none, ⟨be, list⟩⟩, _, h => by
    cases h with
    | block hb =>
      cases hb with
      | mk hextent hhead hname hentries =>
        cases hname
        rw [statement, statement]
        exact .bind (classBlock_recased hcase howner hsubject hhead place hentries) fun b b' hb =>
          .pure (loneBlock_recased expected hb)
  | .block ⟨extent, keyword, place, some name, ⟨be, list⟩⟩, _, h => by
    cases h with
    | block hb =>
      cases hb with
      | mk hextent _ hname _ =>
        cases hname
        rw [statement, statement]
        exact .pure (.raw hextent.text)
  | .pipeline _ [t], _, h => by
    cases h with
    | pipeline _ helements =>
      cases helements with
      | cons ht hnil =>
        cases hnil
        rw [statement, statement]
        exact term_recased hcase howner hsubject expected ht
  | .pipeline _ [], _, h => by
    cases h with
    | pipeline hextent helements =>
      cases helements
      exact .pure (.raw hextent.text)
  | .pipeline _ (_ :: _ :: _), _, h => by
    cases h with
    | pipeline hextent helements =>
      cases helements with
      | cons _ hmore =>
        cases hmore
        exact .pure (.raw hextent.text)
  | .configuration .., _, h | .node .., _, h | .param _, _, h | .assignment .., _, h => by
    have htext := h.stretch.text
    cases h
    exact .pure (.raw htext)
termination_by structural s => s

/-- A term comes to the same value. -/
theorem term_recased (hcase : lookup.IgnoresCase) (howner : owner.Alike owner')
    {subject subject' : Subject} (hsubject : subject.Recased S subject')
    (expected : DeclaredType) : ∀ {t u : Term}, t.Recased S Nowhere u →
      RecasedValue S lookup scope (term ⟨owner, records⟩ subject expected t)
        (term ⟨owner', records⟩ subject' expected u)
  | .block ⟨extent, keyword, place, none, ⟨be, list⟩⟩, _, h => by
    cases h with
    | block hb =>
      cases hb with
      | mk hextent hhead hname hentries =>
        cases hname
        rw [term, term]
        exact .bind (classBlock_recased hcase howner hsubject hhead place hentries) fun b b' hb =>
          .pure (loneBlock_recased expected hb)
  | .block ⟨extent, keyword, place, some name, ⟨be, list⟩⟩, _, h => by
    cases h with
    | block hb =>
      cases hb with
      | mk hextent _ hname _ =>
        cases hname
        rw [term, term]
        exact .pure (.raw hextent.text)
  | .expression (.array extent bracketed elements), _, h => by
    cases h with
    | expression he =>
      cases he with
      | @array _ f _ _ elements' hextent helements =>
        have hblocks := classBlocks_recased hcase howner hsubject helements
        have hscalars := @scalars_recased S lookup scope _ _ hsubject expected _ _ bracketed
          hextent _ _ helements
        rw [term.eq_def, term.eq_def]
        cases helements with
        | nil =>
          cases expected with
          | subObjectArray => exact .pure (.subObjectArray .nil)
          | _ => exact hscalars
        | cons hfirst hrest =>
          dsimp only
          rw [head?_isClassBlock (.cons hfirst hrest),
            countP_isClassBlock (.cons hfirst hrest) (!·)]
          split
          · refine .bind (reportSkipped_recased hsubject _) fun _ _ _ => ?_
            exact .bind hblocks fun _ _ hall => .pure (.subObjectArray hall)
          · exact hscalars
  | .command _, _, h => by
    have hliteral := @literal_recased S lookup scope _ _ hsubject expected _ _ h
    cases h
    rw [term.eq_def, term.eq_def]
    exact hliteral
  | .expression (.string ..), _, h | .expression (.number ..), _, h
  | .expression (.variable _), _, h | .expression (.member ..), _, h
  | .expression (.table _), _, h | .expression (.scriptBlock _), _, h
  | .expression (.unrecognized _), _, h => by
    have hliteral := @literal_recased S lookup scope _ _ hsubject expected _ _ h
    cases h with
    | expression he =>
      cases he
      rw [term.eq_def, term.eq_def]
      exact hliteral
termination_by structural t => t

/-- The blocks of an array are bound alike. -/
theorem classBlocks_recased (hcase : lookup.IgnoresCase) (howner : owner.Alike owner')
    {subject subject' : Subject} (hsubject : subject.Recased S subject') :
    ∀ {list list' : List Term}, List.Forall₂ (Term.Recased S Nowhere) list list' →
      Interpreting.Recased S lookup scope (List.Forall₂ (SubObject.Recased S))
        (classBlocks ⟨owner, records⟩ subject list) (classBlocks ⟨owner', records⟩ subject' list')
  | [], _, h => by
    cases h
    rw [classBlocks, classBlocks]
    exact .pure .nil
  | .block ⟨extent, keyword, place, none, ⟨be, body⟩⟩ :: rest, _, h => by
    cases h with
    | cons hfirst hrest =>
      cases hfirst with
      | block hb =>
        cases hb with
        | mk hextent hhead hname hentries =>
          cases hname
          rw [classBlocks, classBlocks]
          refine .bind (classBlock_recased hcase howner hsubject hhead place hentries)
            fun _ _ hb => ?_
          exact .bind (classBlocks_recased hcase howner hsubject hrest)
            fun _ _ hmore => .pure (.cons hb hmore)
  | .block ⟨extent, keyword, place, some name, ⟨be, body⟩⟩ :: rest, _, h => by
    cases h with
    | cons hfirst hrest =>
      cases hfirst with
      | block hb =>
        cases hb with
        | mk _ _ hname _ =>
          cases hname
          rw [classBlocks, classBlocks]
          · exact classBlocks_recased hcase howner hsubject hrest
          all_goals
            intro _ _ _ _ h
            cases h
  | .command _ :: rest, _, h | .expression _ :: rest, _, h => by
    cases h with
    | cons hfirst hrest =>
      cases hfirst
      rw [classBlocks, classBlocks]
      · exact classBlocks_recased hcase howner hsubject hrest
      all_goals
        intro _ _ _ _ h
        cases h
termination_by structural list => list

end

end Binding

end DesiredState

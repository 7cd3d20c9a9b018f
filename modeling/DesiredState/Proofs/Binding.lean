/-
Binding what was written.

A statement that carries a value which fits the declared type is bound to what maps hold
of this value, and leaves no diagnostic; of values without blocks it has to be said what
they are bound to, and literals are bound to themselves.
-/
import DesiredState.Proofs.Fitting
import DesiredState.Proofs.Session
import DesiredState.Value.Binding

namespace DesiredState

namespace Binding

/-! ### Keys -/

section

variable {fields : Fields Value} {key : Text}

/-- A key of which there is no spelling yet is kept as it is, and is no name yet. -/
theorem spelling_of_new (h : ∀ name ∈ fields.names, Text.sameName name key = false) :
    fields.spelling key = key ∧ key ∉ fields.names := by
  refine ⟨?_, fun hm => ?_⟩
  · unfold Fields.spelling
    rw [List.find?_eq_none.mpr fun name hn => by rw [h name hn]; exact Bool.false_ne_true]
    rfl
  · have := h key hm
    rw [Text.sameName, beq_self_eq_true] at this
    exact Bool.false_ne_true this.symm

/-- A new key is put behind the others. -/
theorem bind_of_new (x : Value) (h : ∀ name ∈ fields.names, Text.sameName name key = false)
    (hkey : key ≠ Fields.parentName) : fields.bind key x = fields ++ [(key, x)] := by
  obtain ⟨hspelling, hnew⟩ := spelling_of_new h
  simp only [Fields.bind, hspelling, hkey, false_and, if_false]
  exact Fields.set_of_new x hnew

/-- A value for the parent is lost. -/
theorem bind_parentName (x : Value)
    (h : ∀ name ∈ fields.names, Text.sameName name Fields.parentName = false) :
    fields.bind Fields.parentName x = fields := by
  obtain ⟨hspelling, hnew⟩ := spelling_of_new h
  rw [Fields.bind, hspelling]
  exact if_pos ⟨rfl, hnew⟩

end

/-! ### Statements

The induction is on the value.  The statement that carries it is laid out like it, so
that a step into the value is a step into the statement, and what maps hold of the value
is said layer by layer.
-/

variable {lookup : DeclLookup} {scope : ImportScope} {allowed : Diagnostic → Prop}
variable {owner : Text} {leaf : Value → Prop} {stated : Value → Statement → Prop}
variable {f : Value → Value}

open Interpreting

/-- Statements that carry values without blocks are bound to values that are mapped alike. -/
def BindsLeaves (lookup : DeclLookup) (scope : ImportScope) (allowed : Diagnostic → Prop)
    (owner : Text) (leaf : Value → Prop) (stated : Value → Statement → Prop)
    (f : Value → Value) : Prop :=
  ∀ (subject : Subject) (type : DeclaredType) (x : Value) (s : Statement), x.isFlat → leaf x →
    type.takes x → stated x s → Gives lookup scope allowed
      (Binding.statement ⟨owner, true⟩ subject type s) fun y => y.mapLeaves f = x.mapLeaves f

mutual

/-- A statement is bound to what is held of the value that it carries. -/
theorem gives_statement (hcase : lookup.IgnoresCase)
    (hleaf : BindsLeaves lookup scope allowed owner leaf stated f) {x : Value} {type : DeclaredType} {s : Statement}
    (hfit : x.Fits leaf (Schema.Resource.found? lookup scope owner) type)
    (hs : x.Carried stated s) (subject : Subject) :
    Gives lookup scope allowed (Binding.statement ⟨owner, true⟩ subject type s)
      fun y => y.mapLeaves f = x.kept.mapLeaves f := by
  match x with
  | .subObject b =>
    obtain ⟨⟨extent, keyword, place, name, body⟩, rfl, hcarried⟩ := hs
    obtain ⟨htakes, hb⟩ := hfit
    obtain ⟨hname, hblock⟩ := gives_classBlock hcase hleaf hb hcarried subject
    cases hname
    rw [Binding.statement]
    refine Gives.bind hblock ?_
    intro c hc
    refine Gives.pure ?_
    have hlone : loneBlock type c = .subObject c := by
      cases type <;> first | rfl | exact absurd htakes Bool.false_ne_true
    rw [hlone, Value.kept, Value.mapLeaves, hc, Value.mapLeaves]
  | .subObjectArray items =>
    obtain ⟨extent, inner, terms, rfl, hcarried⟩ := hs
    obtain ⟨htakes, hall⟩ := hfit
    obtain ⟨hblocks, hclass, hempty⟩ := gives_classBlocks hcase hleaf hall hcarried subject
    rw [Binding.statement]
    cases terms with
    | nil =>
      obtain rfl := hempty.mpr rfl
      have htype : ∃ typeName, type = .subObjectArray typeName := by
        cases type <;> first | exact ⟨_, rfl⟩ | exact absurd htakes Bool.false_ne_true
      obtain ⟨typeName, rfl⟩ := htype
      rw [Binding.term]
      exact Gives.pure rfl
    | cons term more =>
      have hskipped : (term :: more).countP (fun e => !e.isClassBlock) = 0 := by
        rw [List.countP_eq_zero]
        intro e he
        rw [hclass e he]
        exact Bool.false_ne_true
      have hfirst : (term :: more).head?.any Term.isClassBlock = true :=
        hclass term List.mem_cons_self
      rw [Binding.term]
      · simp only [hfirst, if_true, hskipped]
        have hnothing : Gives lookup scope allowed (reportSkipped subject 0) fun _ => True :=
          Gives.pure trivial
        refine Gives.bind hnothing ?_
        intro _ _
        refine Gives.bind hblocks ?_
        intro read hread
        refine Gives.pure ?_
        rw [Value.kept, Value.mapLeaves, hread, Value.mapLeaves]
      · intro _ h
        cases h
  | .string t => exact hleaf subject type _ s rfl hfit.2 hfit.1 hs
  | .integer n => exact hleaf subject type _ s rfl hfit.2 hfit.1 hs
  | .boolean v => exact hleaf subject type _ s rfl hfit.2 hfit.1 hs
  | .stringArray ts => exact hleaf subject type _ s rfl hfit.2 hfit.1 hs
  | .integerArray ns => exact hleaf subject type _ s rfl hfit.2 hfit.1 hs
  | .raw t => exact hleaf subject type _ s rfl hfit.2 hfit.1 hs

/-- A block is bound to what is held of the block that it carries. -/
theorem gives_classBlock (hcase : lookup.IgnoresCase)
    (hleaf : BindsLeaves lookup scope allowed owner leaf stated f) {b : SubObject} {block : Block}
    (hfit : b.Fits leaf (Schema.Resource.found? lookup scope owner))
    (hb : b.Carried stated block) (subject : Subject) :
    block.instanceName = none ∧ Gives lookup scope allowed
      (Binding.classBlock ⟨owner, true⟩ subject block.keyword block.keywordLocation block.body)
      fun c => c.mapLeaves f = b.kept.mapLeaves f := by
  obtain ⟨extent, keyword, place, name, ⟨inner, entries⟩⟩ := block
  match b with
  | ⟨typeName, properties⟩ =>
    obtain ⟨c, rfl, -, hclass, hkeys, hfields⟩ := hfit
    obtain ⟨hkeyword, hname, hcarried⟩ := hb
    obtain rfl : c.typeName = keyword := Option.some.inj hkeyword
    refine ⟨hname, ?_⟩
    rw [Binding.classBlock]
    refine Gives.bind (gives_resolveClass hcase owner c.typeName) ?_
    rintro _ rfl
    rw [hclass]
    have hnew : (Fields.names ([] : Fields Value) ++ Fields.names properties).Pairwise
        fun a b => Text.sameName a b = false := hkeys.distinct
    refine Gives.bind (gives_entries hcase hleaf hfields hcarried
      { subject with resourceName := subject.resourceName.or (some owner) } c.typeName hnew) ?_
    rintro read ⟨more, rfl, hmore⟩
    refine Gives.pure ?_
    simp [SubObject.kept, SubObject.mapLeaves, hmore]

/-- Terms are bound to what is held of the blocks that they carry. -/
theorem gives_classBlocks (hcase : lookup.IgnoresCase)
    (hleaf : BindsLeaves lookup scope allowed owner leaf stated f) {items : List SubObject} {terms : List Term}
    (hfit : SubObject.FitAll leaf (Schema.Resource.found? lookup scope owner) items)
    (hb : SubObject.CarriedAll stated items terms) (subject : Subject) :
    Gives lookup scope allowed (Binding.classBlocks ⟨owner, true⟩ subject terms)
      (fun read => SubObject.mapAll f read = SubObject.mapAll f (SubObject.keptAll items)) ∧
        (∀ term ∈ terms, term.isClassBlock) ∧ (items = [] ↔ terms = []) := by
  match items with
  | [] =>
    obtain rfl : terms = [] := hb
    exact ⟨Gives.pure rfl, fun _ h => absurd h List.not_mem_nil, by simp⟩
  | b :: rest =>
    obtain ⟨⟨extent, keyword, place, name, body⟩, more, rfl, hcarried, hmore⟩ := hb
    obtain ⟨hfirst, hrest⟩ := hfit
    obtain ⟨hname, hblock⟩ := gives_classBlock hcase hleaf hfirst hcarried subject
    obtain ⟨hblocks, hclass, -⟩ := gives_classBlocks hcase hleaf hrest hmore subject
    cases hname
    refine ⟨?_, ?_, by simp⟩
    · rw [Binding.classBlocks]
      refine Gives.bind hblock ?_
      intro c hc
      refine Gives.bind hblocks ?_
      intro read hread
      refine Gives.pure ?_
      rw [SubObject.mapAll, hc, hread, SubObject.keptAll, SubObject.mapAll]
    · intro term hterm
      rcases List.mem_cons.mp hterm with rfl | hterm
      · rfl
      · exact hclass term hterm

/-- Entries are bound to what is held of the properties that they carry. -/
theorem gives_entries (hcase : lookup.IgnoresCase)
    (hleaf : BindsLeaves lookup scope allowed owner leaf stated f) {fields : List (Text × Value)} {entries : List Entry}
    {declared : List Schema.Property}
    (hfit : Value.FitFields leaf (Schema.Resource.found? lookup scope owner) declared fields)
    (hs : Value.CarriedFields stated fields entries) (subject : Subject) (declaredBy : Text)
    {done : Fields Value}
    (hnew : (done.names ++ Fields.names fields).Pairwise fun a b => Text.sameName a b = false) :
    Gives lookup scope allowed
      (Binding.entries ⟨owner, true⟩ subject declaredBy (some declared) done entries)
      fun read => ∃ more, read = done ++ more ∧
        Value.mapFields f more = Value.mapFields f (Value.keptFields fields) := by
  match fields with
  | [] =>
    obtain rfl : entries = [] := hs
    exact Gives.pure ⟨[], (List.append_nil done).symm, rfl⟩
  | (key, x) :: rest =>
    obtain ⟨⟨entryKey, place, value⟩, more, rfl, rfl, hx, hmore⟩ := hs
    obtain ⟨⟨p, hp, hfits⟩, hrest⟩ := hfit
    have hkey : ∀ name ∈ done.names, Text.sameName name entryKey = false :=
      fun name hn => (List.pairwise_append.mp hnew).2.2 name hn entryKey List.mem_cons_self
    rw [Binding.entries]
    simp only [hp]
    refine Gives.bind (gives_statement hcase hleaf hfits hx
      { subject with propertyName := some entryKey }) ?_
    intro y hy
    rw [Value.keptFields]
    by_cases hparent : entryKey = Fields.parentName
    · subst hparent
      rw [bind_parentName y hkey, if_pos rfl]
      have hlater : (done.names ++ Fields.names rest).Pairwise
          fun a b => Text.sameName a b = false :=
        hnew.sublist ((List.sublist_cons_self _ _).append_left _)
      exact gives_entries hcase hleaf hrest hmore subject declaredBy hlater
    · rw [bind_of_new y hkey hparent, if_neg hparent]
      have hlater : (Fields.names (done ++ [(entryKey, y)]) ++ Fields.names rest).Pairwise
          fun a b => Text.sameName a b = false := by
        simpa [Fields.names] using hnew
      refine (gives_entries hcase hleaf hrest hmore subject declaredBy hlater).mono ?_
      rintro read ⟨later, rfl, hlaterFields⟩
      refine ⟨(entryKey, y) :: later, by simp, ?_⟩
      rw [Value.mapFields, hy, hlaterFields, Value.mapFields]

end

/-! ### Literals -/

/-- An expression that denotes a value is read as it by every type that takes it. -/
theorem coercion_of_denoted {x : Value} {type : DeclaredType} {e : Expression}
    (htakes : type.takes x) (he : x.Denoted e) :
    Coercion.of type (.expression e) = Coercion.success x := by
  cases x with
  | string t =>
    obtain ⟨extent, rfl⟩ := he
    cases type <;> first | rfl | exact absurd htakes Bool.false_ne_true
  | integer x =>
    obtain ⟨extent, rfl, n, hn, rfl⟩ := he
    have hsafe := Binary64.toSafeInt?_ofInt hn
    cases type <;> first
      | exact absurd htakes Bool.false_ne_true
      | simp [Coercion.of, Coercion.ofStatic, Coercion.toInteger, Coercion.asIs, Term.isAtom,
          Term.integer?, hsafe]
  | boolean value =>
    obtain ⟨extent, name, rfl, hname⟩ := he
    simp only [Coercion.of, hname]
    cases value <;> rfl
  | stringArray texts =>
    obtain ⟨extent, terms, rfl, -, rfl⟩ := he
    cases type <;> first | rfl | exact absurd htakes Bool.false_ne_true
  | integerArray numbers =>
    obtain ⟨extent, terms, rfl, -, hnumbers⟩ := he
    cases type <;> first
      | exact absurd htakes Bool.false_ne_true
      | simp [Coercion.of, Coercion.ofStatic, Coercion.toIntegers, Term.elements, hnumbers]
  | _ => exact he.elim

theorem gives_literal {x : Value} {type : DeclaredType} {t : Term} (subject : Subject)
    (h : Coercion.of type t = Coercion.success x) :
    Gives lookup scope allowed (Binding.literal subject type t) (· = x) := by
  unfold Binding.literal
  rw [h]
  exact Gives.pure rfl

theorem isClassBlock_of_isAtom {t : Term} (h : t.isAtom) : t.isClassBlock = false := by
  cases t with
  | block b => exact absurd h Bool.false_ne_true
  | _ => rfl

/-- Atoms in brackets are bound like any array without blocks. -/
theorem gives_array {x : Value} {type : DeclaredType} {extent : Extent} {terms : List Term}
    (subject : Subject) (hatoms : ∀ t ∈ terms, t.isAtom)
    (htype : ∀ name, type ≠ .subObjectArray name)
    (h : Coercion.of type (.expression (.array extent true terms)) = Coercion.success x) :
    Gives lookup scope allowed
      (Binding.term ⟨owner, true⟩ subject type (.expression (.array extent true terms)))
      (· = x) := by
  have hhead : terms.head?.any Term.isClassBlock = false := by
    cases terms with
    | nil => rfl
    | cons t more => exact isClassBlock_of_isAtom (hatoms t List.mem_cons_self)
  have hskipped : terms.countP Term.isClassBlock = 0 := by
    rw [List.countP_eq_zero]
    intro t ht
    rw [isClassBlock_of_isAtom (hatoms t ht)]
    exact Bool.false_ne_true
  have hall : (terms.filter fun t => !t.isClassBlock) = terms := by
    rw [List.filter_eq_self]
    intro t ht
    rw [isClassBlock_of_isAtom (hatoms t ht)]
    rfl
  rw [Binding.term]
  · simp only [hhead, Bool.false_eq_true, if_false, hskipped, hall]
    have hnothing : Gives lookup scope allowed (reportSkipped subject 0) fun _ => True :=
      Gives.pure trivial
    exact Gives.bind hnothing fun _ _ => gives_literal subject h
  · exact fun name _ hname => htype name hname

/-- **Literals are bound to the values that they denote.** -/
theorem bindsLeaves_literal (f : Value → Value) :
    BindsLeaves lookup scope allowed owner Value.IsLiteral Value.Stated f := by
  intro subject type x s _ _ htakes hstated
  obtain ⟨extent, e, rfl, he⟩ := hstated
  have hcoercion := coercion_of_denoted htakes he
  have hsame : ∀ y, y = x → y.mapLeaves f = x.mapLeaves f := fun y hy => hy ▸ rfl
  rw [Binding.statement]
  refine Gives.mono ?_ hsame
  cases x with
  | string t =>
    obtain ⟨inner, rfl⟩ := he
    exact gives_literal subject hcoercion
  | integer x =>
    obtain ⟨inner, rfl, -⟩ := he
    exact gives_literal subject hcoercion
  | boolean value =>
    obtain ⟨inner, name, rfl, -⟩ := he
    exact gives_literal subject hcoercion
  | stringArray texts =>
    obtain ⟨inner, terms, rfl, hatoms, -⟩ := he
    refine gives_array subject hatoms ?_ hcoercion
    rintro name rfl
    exact Bool.false_ne_true htakes
  | integerArray numbers =>
    obtain ⟨inner, terms, rfl, hatoms, -⟩ := he
    refine gives_array subject hatoms ?_ hcoercion
    rintro name rfl
    exact Bool.false_ne_true htakes
  | _ => exact he.elim

end Binding

end DesiredState

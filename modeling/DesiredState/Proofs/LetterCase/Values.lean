/-
What is read, up to the letter case of names.

Of two texts that are alike the same values are read, of the same kinds and in the same
order.  A text among them is the same, or it is the same stretch of the two sources, as
values that are not interpreted are.  Names are alike, and so is what is said in a
diagnostic; its kind and its range are the same.
-/
import DesiredState.Proofs.LetterCase.Parsing
import DesiredState.Session

namespace DesiredState

variable {S : TextPair}

/-- The same text, or the same stretch of the two sources. -/
def TextPair.Kept (S : TextPair) (t u : Text) : Prop := u = t ∨ S.Excerpts t u

theorem TextPair.Kept.alike {t u : Text} (h : S.Kept t u) : t.Alike u := by
  rcases h with rfl | h
  · exact .refl u
  · exact h.alike

/-! ### Relations

Source text among the values may be cut out of both texts at the same place, and then it
is alike; text that stands for something, as a string does, is the same.  `Kept` allows
for either.
-/

/-- Causes that differ in texts that are alike. -/
inductive Diagnostic.Cause.Recased : Cause → Cause → Prop
  | unknownResource {name name' : Text} : name.Alike name' →
      Cause.Recased (.unknownResource name) (.unknownResource name')
  | unknownClass {name name' owner owner' : Text} : name.Alike name' → owner.Alike owner' →
      Cause.Recased (.unknownClass name owner) (.unknownClass name' owner')
  | unknownProperty {name name' declaredBy declaredBy' : Text} : name.Alike name' →
      declaredBy.Alike declaredBy' →
      Cause.Recased (.unknownProperty name declaredBy) (.unknownProperty name' declaredBy')
  | failedCoercion {text text' : Text} (target : Coercion.Target) : text.Alike text' →
      Cause.Recased (.failedCoercion text target) (.failedCoercion text' target)
  | mixedArray (skipped : Nat) : Cause.Recased (.mixedArray skipped) (.mixedArray skipped)
  | notResource {text text' : Text} : text.Alike text' →
      Cause.Recased (.notResource text) (.notResource text')

section Relations

variable (S)

mutual

/-- Values of one kind, whose texts are kept and whose names are alike. -/
inductive Value.Recased : Value → Value → Prop
  | string (text : Text) : Value.Recased (.string text) (.string text)
  | integer (number : Binary64) : Value.Recased (.integer number) (.integer number)
  | boolean (value : Bool) : Value.Recased (.boolean value) (.boolean value)
  | stringArray {texts texts' : List Text} : List.Forall₂ S.Kept texts texts' →
      Value.Recased (.stringArray texts) (.stringArray texts')
  | integerArray (numbers : List Binary64) :
      Value.Recased (.integerArray numbers) (.integerArray numbers)
  | subObject {b b' : SubObject} : SubObject.Recased b b' →
      Value.Recased (.subObject b) (.subObject b')
  | subObjectArray {blocks blocks' : List SubObject} :
      List.Forall₂ SubObject.Recased blocks blocks' →
      Value.Recased (.subObjectArray blocks) (.subObjectArray blocks')
  | raw {text text' : Text} : S.Excerpts text text' → Value.Recased (.raw text) (.raw text')

/-- Blocks whose classes are alike and whose properties are. -/
inductive SubObject.Recased : SubObject → SubObject → Prop
  | mk {typeName typeName' : Option Text} {properties properties' : Fields Value} :
      Option.Rel Text.Alike typeName typeName' →
      List.Forall₂ Property.Recased properties properties' →
      SubObject.Recased ⟨typeName, properties⟩ ⟨typeName', properties'⟩

/-- Properties whose names are alike. -/
inductive Property.Recased : Text × Value → Text × Value → Prop
  | mk {name name' : Text} {value value' : Value} : name.Alike name' →
      Value.Recased value value' → Property.Recased (name, value) (name', value')

end

/-- Instances whose types are alike, and so are the names of their properties. -/
structure Instance.Recased (i j : Instance) : Prop where
  resourceName : i.resourceName.Alike j.resourceName
  instanceName : S.Kept i.instanceName j.instanceName
  properties : List.Forall₂ (Property.Recased S) i.properties j.properties

/-- Subjects whose names are alike. -/
structure Subject.Recased (s s' : Subject) : Prop where
  resourceName : Option.Rel Text.Alike s.resourceName s'.resourceName
  instanceName : Option.Rel S.Kept s.instanceName s'.instanceName
  propertyName : Option.Rel Text.Alike s.propertyName s'.propertyName

/-- Diagnostics of one kind at one place, whose wordings are alike. -/
structure Diagnostic.Recased (d d' : Diagnostic) : Prop where
  kindName : d'.kindName = d.kindName
  severity : d'.severity = d.severity
  range : d'.range = d.range
  message : d.message.Alike d'.message
  subject : d.subject.Recased S d'.subject

/-- Events of one kind, and with the same numbers. -/
inductive Event.Recased : Event → Event → Prop
  | diagnosed {d d' : Diagnostic} : d.Recased S d' → Event.Recased (.diagnosed d) (.diagnosed d')
  | severalNodes (count : Nat) : Event.Recased (.severalNodes count) (.severalNodes count)
  | readInstance {resource resource' instanceName instanceName' : Text} (properties : Nat) :
      resource.Alike resource' → S.Kept instanceName instanceName' →
      Event.Recased (.readInstance resource instanceName properties)
        (.readInstance resource' instanceName' properties)
  | processed (count total : Nat) :
      Event.Recased (.processed count total) (.processed count total)

end Relations

/-- What is said of a cause follows from it and from the subject. -/
theorem Diagnostic.Cause.Recased.diagnostic {cause cause' : Diagnostic.Cause}
    (h : cause.Recased cause') {subject subject' : Subject} (hs : subject.Recased S subject')
    {range range' : Option Range} (hr : range' = range) :
    Diagnostic.Recased S ⟨cause, subject, range⟩ ⟨cause', subject', range'⟩ := by
  obtain ⟨resource, name, property⟩ := subject
  obtain ⟨resource', name', property'⟩ := subject'
  have hproperty : (property.getD ['?']).Alike (property'.getD ['?']) := by
    cases hs.propertyName with
    | none => exact .refl _
    | some h => exact h
  have hquoted {before after t t' u u' : Text} (ht : t.Alike t') (hu : u.Alike u') :
      (t ++ before ++ u ++ after).Alike (t' ++ before ++ u' ++ after) :=
    ((ht.append (.refl _)).append hu).append (.refl _)
  refine ⟨by cases h <;> rfl, by cases h <;> rfl, hr, ?_, hs⟩
  cases h with
  | unknownResource hname => exact ((Text.Alike.refl _).append hname).append (.refl _)
  | unknownClass hname howner => exact hquoted ((Text.Alike.refl _).append hname) howner
  | unknownProperty hname howner => exact hquoted ((Text.Alike.refl _).append hname) howner
  | failedCoercion target htext =>
    exact hquoted ((((Text.Alike.refl _).append htext).append (.refl _)).append (.refl _)) hproperty
  | mixedArray skipped =>
    exact ((((Text.Alike.refl _).append hproperty).append (.refl _)).append (.refl _)).append
      (.refl _)
  | notResource htext => exact (Text.Alike.refl _).append htext.firstLine

/-! ### Terms -/

theorem Term.Recased.stretch {t u : Term} (h : t.Recased S Nowhere u) :
    S.Stretch t.extent u.extent := by
  cases h with
  | expression he => exact he.stretch
  | command hc =>
    cases hc with
    | mk hextent => exact hextent
  | block hb => exact hb.stretch

namespace Term

variable {t u : Term}

theorem isBare_recased (h : t.Recased S Nowhere u) : u.isBare = t.isBare := by
  cases h with
  | command hc =>
    cases hc with
    | mk _ _ _ harguments => cases harguments <;> rfl
  | _ => rfl

theorem isAtom_recased (h : t.Recased S Nowhere u) : u.isAtom = t.isAtom := by
  have hbare := isBare_recased h
  cases h with
  | expression he => cases he <;> rfl
  | _ => exact hbare

/-- Strings, numbers and bare words say the same. -/
theorem atomText_recased_of_isAtom (h : t.Recased S Nowhere u) (hatom : t.isAtom) :
    u.atomText = t.atomText := by
  cases h with
  | expression he =>
    cases he with
    | string _ hsame => exact hsame not_false
    | number _ htext => exact htext
    | _ => cases hatom
  | command hc =>
    cases hc with
    | mk _ hsame _ harguments =>
      cases harguments with
      | nil => exact hsame not_false
      | cons _ _ => cases hatom
  | block => cases hatom

theorem atomText_recased (h : t.Recased S Nowhere u) : S.Kept t.atomText u.atomText := by
  by_cases hatom : t.isAtom
  · exact .inl (atomText_recased_of_isAtom h hatom)
  · right
    have htext := h.stretch.text
    cases h with
    | expression he =>
      cases he with
      | string => exact absurd rfl hatom
      | _ => exact htext
    | command hc =>
      cases hc with
      | mk _ _ _ harguments =>
        cases harguments with
        | nil => exact absurd rfl hatom
        | cons _ _ => exact htext
    | block => exact htext

theorem integer?_recased (h : t.Recased S Nowhere u) : u.integer? = t.integer? := by
  cases h with
  | expression he =>
    cases he with
    | string _ hsame => exact congrArg integerOfText? (hsame not_false)
    | _ => rfl
  | command hc =>
    cases hc with
    | mk _ hsame _ harguments =>
      cases harguments with
      | nil => exact congrArg integerOfText? (hsame not_false)
      | cons _ _ => rfl
  | block => rfl

theorem elements_recased (h : t.Recased S Nowhere u) :
    List.Forall₂ (Term.Recased S Nowhere) t.elements u.elements := by
  have hone : List.Forall₂ (Term.Recased S Nowhere) [t] [u] := .cons h .nil
  cases h with
  | expression he =>
    cases he with
    | array _ helements => exact helements
    | _ => exact hone
  | _ => exact hone

end Term

/-! ### Coercions

A coercion asks what a term says and never how it is spelled.  Where it gives up, it
keeps the source text, which is cut out of both texts alike.
-/

/-- Coercions that come to the same, and fail alike. -/
structure Coercion.Recased (S : TextPair) (c d : Coercion) : Prop where
  value : c.value.Recased S d.value
  failure : d.failure = c.failure

namespace Coercion

variable {t u : Term}

theorem verbatim_recased (h : t.Recased S Nowhere u) : (verbatim t).Recased S (verbatim u) :=
  ⟨.raw h.stretch.text, rfl⟩

theorem notScalar_recased (target : Target) (h : t.Recased S Nowhere u) :
    (notScalar target t).Recased S (notScalar target u) := by
  have hverbatim := verbatim_recased h
  cases h with
  | expression he =>
    cases he with
    | array hextent => exact ⟨.raw hextent.text, rfl⟩
    | _ => exact hverbatim
  | _ => exact hverbatim

theorem atomTexts_recased {ts us : List Term} (h : List.Forall₂ (Term.Recased S Nowhere) ts us) :
    List.Forall₂ S.Kept (ts.map Term.atomText) (us.map Term.atomText) :=
  List.forall₂_map_left_iff.mpr (List.forall₂_map_right_iff.mpr
    (h.imp fun _ _ => Term.atomText_recased))

theorem integers_recased {ts us : List Term} (h : List.Forall₂ (Term.Recased S Nowhere) ts us) :
    us.mapM Term.integer? = ts.mapM Term.integer? := by
  induction h with
  | nil => rfl
  | cons hfirst _ ih => rw [List.mapM_cons, List.mapM_cons, Term.integer?_recased hfirst, ih]

theorem toString_recased (h : t.Recased S Nowhere u) : (toString t).Recased S (toString u) := by
  unfold toString
  rw [Term.isAtom_recased h]
  split
  · next hatom =>
    rw [Term.atomText_recased_of_isAtom h hatom]
    exact ⟨.string _, rfl⟩
  · exact notScalar_recased .string h

theorem toInteger_recased (h : t.Recased S Nowhere u) : (toInteger t).Recased S (toInteger u) := by
  unfold toInteger
  rw [Term.isAtom_recased h, Term.integer?_recased h]
  split
  · next hatom =>
    rw [Term.atomText_recased_of_isAtom h hatom]
    split
    · exact ⟨.integer _, rfl⟩
    · exact ⟨.string _, rfl⟩
  · exact notScalar_recased .integer h

/-- A word as a truth value. -/
def ofWord (text : Text) : Coercion :=
  let word := Text.lower text
  if word = "true".toList then success (.boolean true)
  else if word = "false".toList then success (.boolean false)
  else ⟨.string text, some .boolean⟩

theorem toBoolean_recased (h : t.Recased S Nowhere u) : (toBoolean t).Recased S (toBoolean u) := by
  have hword (text : Text) : Coercion.Recased S (ofWord text) (ofWord text) := by
    unfold ofWord
    dsimp only
    split
    · exact ⟨.boolean true, rfl⟩
    · split
      · exact ⟨.boolean false, rfl⟩
      · exact ⟨.string text, rfl⟩
  have hother : Coercion.Recased S (if t.isAtom then ofWord t.atomText else notScalar .boolean t)
      (if u.isAtom then ofWord u.atomText else notScalar .boolean u) := by
    rw [Term.isAtom_recased h]
    split
    · next hatom =>
      rw [Term.atomText_recased_of_isAtom h hatom]
      exact hword _
    · exact notScalar_recased .boolean h
  cases h with
  | expression he =>
    cases he with
    | number => exact ⟨.boolean _, rfl⟩
    | _ => exact hother
  | _ => exact hother

theorem toIntegers_recased (h : t.Recased S Nowhere u) :
    (toIntegers t).Recased S (toIntegers u) := by
  have helements := Term.elements_recased h
  unfold toIntegers
  rw [integers_recased helements]
  split
  · exact ⟨.integerArray _, rfl⟩
  · exact ⟨.stringArray (atomTexts_recased helements), rfl⟩

theorem asIs_recased (h : t.Recased S Nowhere u) : (asIs t).Recased S (asIs u) := by
  have hother : Coercion.Recased S
      (if t.isAtom then success (.string t.atomText) else verbatim t)
      (if u.isAtom then success (.string u.atomText) else verbatim u) := by
    rw [Term.isAtom_recased h]
    split
    · next hatom =>
      rw [Term.atomText_recased_of_isAtom h hatom]
      exact ⟨.string _, rfl⟩
    · exact verbatim_recased h
  cases h with
  | expression he =>
    cases he with
    | number hextent htext =>
      simp only [asIs, htext]
      split
      · exact ⟨.integer _, rfl⟩
      · split
        · exact ⟨.string _, rfl⟩
        · exact ⟨.raw hextent.text, rfl⟩
    | array _ helements => exact ⟨.stringArray (atomTexts_recased helements), rfl⟩
    | _ => exact hother
  | _ => exact hother

theorem ofStatic_recased (expected : DeclaredType) (h : t.Recased S Nowhere u) :
    (ofStatic expected t).Recased S (ofStatic expected u) := by
  cases expected with
  | string => exact toString_recased h
  | stringArray => exact ⟨.stringArray (atomTexts_recased (Term.elements_recased h)), rfl⟩
  | integer => exact toInteger_recased h
  | integerArray => exact toIntegers_recased h
  | boolean => exact toBoolean_recased h
  | _ => exact asIs_recased h

theorem of_recased (expected : DeclaredType) (h : t.Recased S Nowhere u) :
    (of expected t).Recased S (of expected u) := by
  have hstatic := ofStatic_recased expected h
  have hverbatim := verbatim_recased h
  cases h with
  | expression he =>
    cases he with
    | string | number | array => exact hstatic
    | @«variable» _ _ name hextent =>
      simp only [of]
      split
      · exact ⟨.boolean true, rfl⟩
      · split
        · exact ⟨.boolean false, rfl⟩
        · exact hverbatim
    | _ => exact hverbatim
  | command hc =>
    cases hc with
    | mk _ _ _ harguments =>
      cases harguments with
      | nil => exact hstatic
      | cons _ _ => exact hverbatim
  | block => exact hverbatim

end Coercion

end DesiredState

/-
Imports up to letter case.

The name of an import and those of its parameters are compared in lower case, and what
follows them are values.  So statements that differ in names only import the same modules,
in the same versions.
-/
import DesiredState.Configuration.Build
import DesiredState.Proofs.LetterCase.Parsing
import DesiredState.Proofs.LetterCase.Scanning

namespace DesiredState

variable {S : TextPair} {free : Location → Prop}

namespace Import

/-! ### Commands -/

theorem isImportName_small (name : Text) : isImportName name.small = isImportName name := by
  unfold isImportName
  rw [Text.dropWord?_small]
  cases Text.dropWord? "import-" name with
  | none => rfl
  | some rest =>
    have hwords : (Text.small rest).all Pattern.isWord = rest.all Pattern.isWord := by
      rw [Text.small, List.all_map]
      exact congrArg rest.all (funext Pattern.isWord_caseless)
    have hlower : (Text.small rest).map Char.toLower = rest.map Char.toLower := by
      rw [Text.small, List.map_map]
      exact congrArg (List.map · rest) (funext Text.toLower_caseless)
    simp only [Option.map_some, hwords, hlower]

theorem isImportName_alike {name name' : Text} (h : name.Alike name') :
    isImportName name' = isImportName name := by
  rw [← isImportName_small name', ← h, isImportName_small]

/-! ### Values -/

theorem plainText?_recased {e e' : Expression} (h : e.Recased S Nowhere e') :
    plainText? e' = plainText? e := by
  cases h with
  | string _ hsame => exact congrArg some (hsame not_false)
  | number _ htext => exact congrArg some htext
  | _ => rfl

theorem entryText?_recased {s s' : Statement} (h : s.Recased S Nowhere s') :
    entryText? s' = entryText? s := by
  cases h with
  | pipeline _ helements =>
    cases helements with
    | nil => rfl
    | cons hfirst _ =>
      cases hfirst with
      | expression he => exact plainText?_recased he
      | command hc =>
        cases hc with
        | mk _ hsame => exact congrArg some (hsame not_false)
      | block => rfl
  | _ => rfl

theorem lastText?_recased (keys : List String) {list list' : List Entry}
    (h : List.Forall₂ (Entry.Recased S Nowhere) list list') :
    lastText? keys list' = lastText? keys list := by
  have hreverse := List.rel_reverse h
  unfold lastText?
  generalize list.reverse = back, list'.reverse = back' at hreverse
  induction hreverse with
  | nil => rfl
  | cons hfirst _ ih =>
    cases hfirst with
    | @mk _ key' _ _ _ hkey _ hvalue =>
      rw [List.find?_cons, List.find?_cons, hkey.lower]
      cases keys.contains (String.ofList key'.lower) with
      | true => exact entryText?_recased hvalue
      | false => exact ih

theorem ofTable?_recased {t t' : Table}
    (h : List.Forall₂ (Entry.Recased S Nowhere) t.entries t'.entries) :
    ofTable? t' = ofTable? t := by
  simp only [ofTable?, lastText?_recased _ h]

theorem name?_recased {t u : Term} (h : t.Recased S Nowhere u) : name? u = name? t := by
  cases h with
  | expression he => simp only [name?, plainText?_recased he]
  | _ => rfl

theorem specified?_recased {t u : Term} (h : t.Recased S Nowhere u) :
    specified? u = specified? t := by
  cases h with
  | expression he =>
    cases he with
    | table _ hentries => exact ofTable?_recased hentries
    | _ => rfl
  | _ => rfl

theorem valuesOf_recased {e e' : Expression} (h : e.Recased S Nowhere e') :
    List.Forall₂ (Term.Recased S Nowhere) (valuesOf e) (valuesOf e') := by
  have hone : List.Forall₂ (Term.Recased S Nowhere) [.expression e] [.expression e'] :=
    .cons (.expression h) .nil
  cases h with
  | array _ helements => exact helements
  | _ => exact hone

/-! ### Arguments

Parameters are found by their names in lower case, and which values are theirs depends
on the order alone.
-/

/-- Parameters whose names are alike, with their values. -/
abbrev Named (S : TextPair) (p q : Text × Expression) : Prop :=
  p.1.Alike q.1 ∧ p.2.Recased S Nowhere q.2

theorem named_recased {list list' : List Argument}
    (h : List.Forall₂ (Argument.Recased S Nowhere) list list') :
    List.Forall₂ (Named S) (named list) (named list') := by
  -- A parameter may take the value behind it, so two arguments are looked at in one step.
  induction h with
  | nil => exact .nil
  | cons hfirst hrest ih =>
    cases hfirst with
    | value => exact ih
    | parameter hname =>
      cases hrest with
      | nil => exact .nil
      | cons hsecond _ =>
        cases hsecond with
        | parameter => exact ih
        | value hx => exact .cons ⟨hname, hx⟩ ih

theorem valuesFor_recased (parameter : Text) {given given' : List (Text × Expression)}
    (h : List.Forall₂ (Named S) given given') :
    List.Forall₂ (Expression.Recased S Nowhere) (valuesFor parameter given)
      (valuesFor parameter given') := by
  unfold valuesFor
  refine List.forall₂_map_left_iff.mpr (List.forall₂_map_right_iff.mpr ?_)
  refine .imp (fun _ _ hpair => hpair.2) (List.rel_filter ?_ h)
  intro p q hpair
  simp only [hpair.1.lower]

/-- The last value says the same. -/
theorem getLast?_recased {values values' : List Expression}
    (h : List.Forall₂ (Expression.Recased S Nowhere) values values') :
    values'.getLast?.bind plainText? = values.getLast?.bind plainText? := by
  have hreverse := List.rel_reverse h
  rw [List.getLast?_eq_head?_reverse, List.getLast?_eq_head?_reverse]
  generalize values.reverse = back, values'.reverse = back' at hreverse
  cases hreverse with
  | nil => rfl
  | cons hlast _ => exact plainText?_recased hlast

theorem version?_recased {given given' : List (Text × Expression)}
    (h : List.Forall₂ (Named S) given given') : version? given' = version? given := by
  refine getLast?_recased (List.rel_filter ?_ (valuesFor_recased "moduleversion" h))
  intro e e' he
  cases he <;> rfl

/-- What is picked of terms by what they say is the same. -/
theorem filterMap_recased {ts us : List Term} (h : List.Forall₂ (Term.Recased S Nowhere) ts us)
    {f : Term → Option α} (hf : ∀ t u, t.Recased S Nowhere u → f u = f t) :
    us.filterMap f = ts.filterMap f := by
  induction h with
  | nil => rfl
  | cons hfirst _ ih => rw [List.filterMap_cons, List.filterMap_cons, hf _ _ hfirst, ih]

theorem ofArguments_recased {list list' : List Argument}
    (h : List.Forall₂ (Argument.Recased S Nowhere) list list') :
    ofArguments list' = ofArguments list := by
  have hgiven := named_recased h
  have hvalues : List.Forall₂ (Term.Recased S Nowhere)
      ((valuesFor "modulename" (named list)).flatMap valuesOf)
      ((valuesFor "modulename" (named list')).flatMap valuesOf) :=
    List.rel_flatMap (valuesFor_recased "modulename" hgiven) fun _ _ => valuesOf_recased
  simp only [ofArguments, version?_recased hgiven]
  rw [filterMap_recased hvalues fun t u => name?_recased,
    filterMap_recased hvalues fun t u => specified?_recased]

end Import

end DesiredState

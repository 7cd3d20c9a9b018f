/-
Literals are not read as another type in silence.

What a script says outright, a string, a number, an array or a bare word, is read as a value
of the declared kind, or else as one of another kind, and only then there is a report: one, about
this literal.  What the host would have to evaluate is kept as its text, which is no failure
of the script and is not reported.  So a value without a report can be trusted to be of the
declared kind, and an integer can be trusted to be the number that was written.
-/
import DesiredState.Proofs.Conversion.Values

namespace DesiredState

/-- The kind of value that a declared type asks for; types without a reading of their own ask for
none. -/
def DeclaredType.valueKind? : DeclaredType → Option ValueKind
  | .string => some .string
  | .stringArray => some .stringArray
  | .integer => some .integer
  | .integerArray => some .integerArray
  | .boolean => some .boolean
  | .subObject _ | .subObjectArray _ | .other _ => none

/-- The integers that a value holds. -/
def Value.integers : Value → List Binary64
  | .integer x => [x]
  | .integerArray xs => xs
  | _ => []

namespace Term

/-- Whether a term says outright what it is: a string, a number, an array or a bare word. -/
def isStatic : Term → Bool
  | .expression (.array ..) => true
  | t => t.isAtom

/-- The truth value that a variable is the name of, in any letter case. -/
def truth? : Term → Option Bool
  | .expression (.variable v) =>
    if Text.lower v.name = "true".toList then some true
    else if Text.lower v.name = "false".toList then some false
    else none
  | _ => none

/-- Whether a term is an integral number beyond those that are exact. -/
def isInexact : Term → Bool
  | .expression (.number _ x) => x.isInteger && !x.toSafeInt?.isSome
  | _ => false

end Term

namespace Coercion

/-- A coercion that fails if and only if its value is not of the kind that was asked for. -/
def IsCandid (kind : ValueKind) (c : Coercion) : Prop := c.failure = none ↔ c.value.kind = kind

theorem isCandid_success {kind : ValueKind} {x : Value} (h : x.kind = kind) :
    (success x).IsCandid kind := iff_of_true rfl h

theorem isCandid_failure {kind : ValueKind} {x : Value} {target : Target} (h : x.kind ≠ kind) :
    IsCandid kind ⟨x, some target⟩ := iff_of_false (Option.some_ne_none _) h

/-- What is said outright and is no scalar is an array. -/
theorem isCandid_notScalar {t : Term} {kind : ValueKind} (target : Target) (hs : t.isStatic)
    (ha : ¬ t.isAtom) (hraw : ValueKind.raw ≠ kind) : (notScalar target t).IsCandid kind := by
  unfold notScalar
  split
  · exact isCandid_failure hraw
  · next hother =>
    unfold Term.isStatic at hs
    split at hs
    · next extent bracketed elements => exact absurd rfl (hother extent bracketed elements)
    · exact absurd hs ha

theorem isCandid_toString {t : Term} (hs : t.isStatic) : (toString t).IsCandid .string := by
  unfold toString
  split
  · exact isCandid_success rfl
  · next ha => exact isCandid_notScalar _ hs ha (by decide)

theorem isCandid_toInteger {t : Term} (hs : t.isStatic) : (toInteger t).IsCandid .integer := by
  unfold toInteger
  split
  · split
    · exact isCandid_success rfl
    · exact isCandid_failure nofun
  · next ha => exact isCandid_notScalar _ hs ha (by decide)

theorem isCandid_toBoolean {t : Term} (hs : t.isStatic) : (toBoolean t).IsCandid .boolean := by
  unfold toBoolean
  split
  · exact isCandid_success rfl
  · dsimp only
    split
    · split
      · exact isCandid_success rfl
      · split
        · exact isCandid_success rfl
        · exact isCandid_failure nofun
    · next ha => exact isCandid_notScalar _ hs ha (by decide)

theorem isCandid_toIntegers (t : Term) : (toIntegers t).IsCandid .integerArray := by
  unfold toIntegers
  split
  · exact isCandid_success rfl
  · exact isCandid_failure nofun

/-- What is said outright becomes a value of the declared kind, or fails. -/
theorem isCandid_ofStatic {expected : DeclaredType} {kind : ValueKind} {t : Term}
    (hk : expected.valueKind? = some kind) (hs : t.isStatic) :
    (ofStatic expected t).IsCandid kind := by
  cases expected with
  | string => cases hk; exact isCandid_toString hs
  | stringArray => cases hk; exact isCandid_success rfl
  | integer => cases hk; exact isCandid_toInteger hs
  | integerArray => cases hk; exact isCandid_toIntegers t
  | boolean => cases hk; exact isCandid_toBoolean hs
  | subObject | subObjectArray | other => cases hk

/-- Taken for what it is, only an inexact number fails, and it is kept as it was written. -/
theorem asIs_failure (t : Term) :
    (asIs t).failure = (if t.isInexact then some .integer else none) ∧
      (t.isInexact → (asIs t).value = .string t.extent.text) := by
  have hother (h : t.isInexact = false) (hnone : (asIs t).failure = none) :
      (asIs t).failure = (if t.isInexact then some .integer else none) ∧
        (t.isInexact → (asIs t).value = .string t.extent.text) := by
    rw [h, hnone]
    exact ⟨rfl, fun hinexact => absurd hinexact Bool.false_ne_true⟩
  cases t with
  | expression e =>
    cases e with
    | number extent x =>
      unfold asIs Term.isInexact
      by_cases hsafe : x.toSafeInt?.isSome
      · simp [hsafe, success]
      · by_cases hinteger : x.isInteger
        · simp [hsafe, hinteger, Term.extent, Expression.extent]
        · simp [hsafe, hinteger, verbatim, success]
    | _ => exact hother rfl rfl
  | block b => exact hother rfl rfl
  | command c =>
    refine hother rfl ?_
    unfold asIs
    dsimp only
    split <;> rfl

/-- The declared type counts only for what is said outright. -/
theorem of_static (expected : DeclaredType) {t : Term} (hs : t.isStatic) :
    of expected t = ofStatic expected t := by
  cases t with
  | expression e =>
    cases e with
    | string | number | array => rfl
    | «variable» | member | table | scriptBlock | unrecognized => cases hs
  | command c => exact if_pos hs
  | block b => cases hs

/-- Everything else is kept as its text, if it is not the name of a truth value. -/
theorem of_evaluated (expected : DeclaredType) {t : Term} (hs : ¬ t.isStatic) :
    of expected t = success ((t.truth?.map .boolean).getD (.raw t.extent.text)) := by
  cases t with
  | expression e =>
    cases e with
    | string | number | array => exact absurd rfl hs
    | «variable» v =>
      dsimp only [of, Term.truth?]
      split
      · rfl
      · split <;> rfl
    | member | table | scriptBlock | unrecognized => rfl
  | command c => exact if_neg hs
  | block b => rfl

/-- Whatever is read, its integers are exact. -/
theorem isSafe_of_mem_integers (expected : DeclaredType) (t : Term) {x : Binary64}
    (hx : x ∈ (of expected t).value.integers) : x.toSafeInt?.isSome := by
  by_cases hs : t.isStatic
  · rw [of_static expected hs] at hx
    have hscalar (target : Target) (h : x ∈ (notScalar target t).value.integers) : False := by
      unfold notScalar at h
      split at h <;> cases h
    cases expected with
    | string =>
      unfold ofStatic toString at hx
      dsimp only at hx
      split at hx
      · cases hx
      · exact (hscalar _ hx).elim
    | stringArray => cases hx
    | integer =>
      unfold ofStatic toInteger at hx
      dsimp only at hx
      split at hx
      · split at hx
        · next y hy =>
          rw [List.mem_singleton.mp hx]
          exact Term.isSafe_of_integer? hy
        · cases hx
      · exact (hscalar _ hx).elim
    | integerArray =>
      unfold ofStatic toIntegers at hx
      dsimp only at hx
      split at hx
      · next numbers hnumbers =>
        obtain ⟨element, -, helement⟩ := exists_of_mem_mapM hnumbers hx
        exact Term.isSafe_of_integer? helement
      · cases hx
    | boolean =>
      unfold ofStatic toBoolean at hx
      dsimp only at hx
      split at hx
      · cases hx
      · split at hx
        · split at hx
          · cases hx
          · split at hx <;> cases hx
        · exact (hscalar _ hx).elim
    | subObject | subObjectArray | other =>
      unfold ofStatic asIs at hx
      dsimp only at hx
      split at hx
      · split at hx
        · next hsafe =>
          rw [List.mem_singleton.mp hx]
          exact hsafe
        · split at hx <;> cases hx
      · cases hx
      · split at hx <;> cases hx
  · rw [of_evaluated expected hs] at hx
    cases htruth : t.truth? <;> rw [htruth] at hx <;> cases hx

end Coercion

/-! ### Reports

A coercion says by itself whether it gave up, and reading a literal turns this into one
report.  What is said of reports is therefore said of coercions first.
-/

/-- A report that a literal does not fit the declared type: it names what the literal was read for,
and where it stands. -/
def Diagnostic.IsMisfit (d : Diagnostic) (subject : Subject) (t : Term) : Prop :=
  d.kindName = "TypeCoercionFailure".toList ∧ d.subject = subject ∧
    d.range = some t.extent.range

namespace Binding

/-- A literal is read to the value of its coercion, and a failure is reported once. -/
theorem literal_run (subject : Subject) (expected : DeclaredType) (t : Term) (s : Session) :
    ((Coercion.of expected t).failure = none →
      literal subject expected t s = ((Coercion.of expected t).value, s)) ∧
    ((Coercion.of expected t).failure ≠ none → ∃ d, d.IsMisfit subject t ∧
      literal subject expected t s = ((Coercion.of expected t).value, s.reporting d)) := by
  unfold literal
  cases hfailure : (Coercion.of expected t).failure with
  | none => exact ⟨fun _ => rfl, fun h => absurd rfl h⟩
  | some target =>
    refine ⟨fun h => (Option.some_ne_none _ h).elim, fun _ => ?_⟩
    exact ⟨⟨.failedCoercion t.extent.text target, subject, some t.extent.range⟩,
      ⟨rfl, rfl, rfl⟩, rfl⟩

/-- **No silent degradation.**  What is said outright is read as a value of the declared kind without
a report, or as one of another kind with one report.  A type without a reading of its own takes a
literal for what it is, with one report if that is an integral number which is not exact.  What the
host would have to evaluate is kept as its text, or is the truth value that it names, without a
report.  And every integer is exact. -/
theorem literal_degrades_aloud (subject : Subject) (expected : DeclaredType) (t : Term)
    (s : Session) : ∃ x after, literal subject expected t s = (x, after) ∧
      (t.isStatic → ∀ kind, expected.valueKind? = some kind →
        (x.kind = kind ∧ after = s) ∨
          (x.kind ≠ kind ∧ ∃ d, d.IsMisfit subject t ∧ after = s.reporting d)) ∧
      (t.isStatic → expected.valueKind? = none →
        if t.isInexact then
          x = .string t.extent.text ∧ ∃ d, d.IsMisfit subject t ∧ after = s.reporting d
        else after = s) ∧
      (¬ t.isStatic → x = (t.truth?.map .boolean).getD (.raw t.extent.text) ∧ after = s) ∧
      ∀ n ∈ x.integers, n.toSafeInt?.isSome := by
  obtain ⟨hsilent, haloud⟩ := literal_run subject expected t s
  have hsafe := fun n => Coercion.isSafe_of_mem_integers expected t (x := n)
  by_cases hfailure : (Coercion.of expected t).failure = none
  · refine ⟨_, _, hsilent hfailure, fun hs kind hk => ?_, fun hs hk => ?_, fun hs => ?_, hsafe⟩
    · rw [Coercion.of_static expected hs] at hfailure ⊢
      exact .inl ⟨(Coercion.isCandid_ofStatic hk hs).mp hfailure, rfl⟩
    · have hasIs : Coercion.ofStatic expected t = Coercion.asIs t := by
        cases expected <;> first | rfl | cases hk
      rw [Coercion.of_static expected hs, hasIs, (Coercion.asIs_failure t).1] at hfailure
      split at hfailure
      · cases hfailure
      · next h => rw [if_neg h]
    · rw [Coercion.of_evaluated expected hs]
      exact ⟨rfl, rfl⟩
  · obtain ⟨d, hd, hrun⟩ := haloud hfailure
    refine ⟨_, _, hrun, fun hs kind hk => ?_, fun hs hk => ?_, fun hs => ?_, hsafe⟩
    · rw [Coercion.of_static expected hs] at hfailure ⊢
      exact .inr ⟨fun h => hfailure ((Coercion.isCandid_ofStatic hk hs).mpr h), d, hd, rfl⟩
    · have hasIs : Coercion.ofStatic expected t = Coercion.asIs t := by
        cases expected <;> first | rfl | cases hk
      rw [Coercion.of_static expected hs, hasIs] at hfailure ⊢
      obtain ⟨hiff, hvalue⟩ := Coercion.asIs_failure t
      rw [hiff] at hfailure
      split at hfailure
      · next h =>
        rw [if_pos h]
        exact ⟨hvalue h, d, hd, rfl⟩
      · exact absurd rfl hfailure
    · rw [Coercion.of_evaluated expected hs] at hfailure
      exact absurd rfl hfailure

end Binding

end DesiredState

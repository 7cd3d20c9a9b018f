/-
Integers are exact or kept as text.

A scalar that is read for an integer may denote one in decimal or hexadecimal digits, with a
multiple, or as the content of a string, and of any size.  What is read of it goes through a
number that rounds; but rounding never makes a safe integer of one that is not.  So the
value is the integer that was written, exactly, if that is a safe one, and it is the text
that was written, with one report, in every other case.
-/
import DesiredState.Proofs.Number.Images
import DesiredState.Proofs.Value.Literals
import DesiredState.Script.Grammar

namespace DesiredState

open Literal

theorem Binary64.toSafeInt?_eq_some {x : Binary64} {n : Int} :
    x.toSafeInt? = some n ↔ x.toInt? = some n ∧ n.natAbs ≤ maxSafe := by
  rw [toSafeInt?, Option.filter_eq_some_iff, decide_eq_true_iff]

namespace Term

/-- The scalars of a number: it is read if it is a safe integer. -/
theorem integer?_number (extent : Extent) (x : Binary64) (n : Int) :
    (∃ y, integer? (.expression (.number extent x)) = some y ∧ y.toInt? = some n) ↔
      x.toSafeInt? = some n := by
  unfold integer?
  dsimp only
  constructor
  · rintro ⟨y, hy, hn⟩
    split at hy
    · next hsafe =>
      cases hy
      obtain ⟨m, hm⟩ := Option.isSome_iff_exists.mp hsafe
      obtain rfl : n = m := Option.some_inj.mp (hn.symm.trans (Binary64.toSafeInt?_eq_some.mp hm).1)
      exact hm
    · cases hy
  · intro hn
    rw [hn]
    exact ⟨x, rfl, (Binary64.toSafeInt?_eq_some.mp hn).1⟩

/-- **The integer that is read of an image is the one that it denotes, if that is safe.** -/
theorem integer?_image (i : IntegerImage) (token : Token) (place : Location) (n : Int) :
    (∃ x, integer? (.expression (Grammar.numberExpression { token with text := i.text }
        ⟨i.text, place⟩)) = some x ∧ x.toInt? = some n) ↔
      i.value = n ∧ n.natAbs ≤ Binary64.maxSafe := by
  unfold Grammar.numberExpression
  dsimp only
  cases hread : number? i.text with
  | some x =>
    rw [integer?_number, i.toSafeInt?_number? hread, ← i.natAbs_value]
    constructor
    · intro h
      split at h
      · next hsafe =>
        cases h
        exact ⟨rfl, hsafe⟩
      · cases h
    · rintro ⟨rfl, hsafe⟩
      exact if_pos hsafe
  | none =>
    have hlarge : Binary64.maxSafe < i.value.natAbs := by
      rw [i.natAbs_value]
      exact i.maxSafe_lt_of_number? hread
    constructor
    · rintro ⟨x, hx, -⟩
      rw [show integer? (.expression (.string ⟨i.text, place⟩ i.text .bare)) = none from
        integerOfText?_image i hlarge] at hx
      cases hx
    · rintro ⟨rfl, hsafe⟩
      omega

end Term

namespace Grammar

theorem isAtom_numberExpression (t : Token) (extent : Extent) :
    (Term.expression (numberExpression t extent)).isAtom := by
  unfold numberExpression
  split <;> rfl

theorem atomText_numberExpression (t : Token) (place : Location) :
    (Term.expression (numberExpression t ⟨t.text, place⟩)).atomText = t.text := by
  unfold numberExpression
  split <;> rfl

end Grammar

namespace Binding

/-- Reading for an integer that is exact: the value is the integer that is denoted if this is a safe
one, and else the text that is kept, with one report. -/
structure ReadsExactly (denotes : Int → Prop) (kept : Text) (subject : Subject) (t : Term)
    (s : Session) (x : Value) (after : Session) : Prop where
  integer_iff : ∀ n, (∃ b, x = .integer b ∧ b.toInt? = some n) ↔
    denotes n ∧ n.natAbs ≤ Binary64.maxSafe
  exactOrKept : (∃ b n, x = .integer b ∧ b.toInt? = some n ∧ after = s) ∨
    (x = .string kept ∧ ∃ d, d.IsMisfit subject t ∧ after = s.reporting d)

/-- A scalar whose integer is the one that it denotes is read exactly. -/
theorem readsExactly_of_integer? {denotes : Int → Prop} (subject : Subject) {t : Term}
    (hatom : t.isAtom) (hinteger : ∀ n, (∃ x, t.integer? = some x ∧ x.toInt? = some n) ↔
      denotes n ∧ n.natAbs ≤ Binary64.maxSafe) (s : Session) :
    ∃ x after, literal subject .integer t s = (x, after) ∧
      ReadsExactly denotes t.atomText subject t s x after := by
  have hstatic : t.isStatic := by
    unfold Term.isStatic
    split
    · rfl
    · exact hatom
  have hcoercion : Coercion.of .integer t = Coercion.toInteger t :=
    Coercion.of_static .integer hstatic
  unfold Coercion.toInteger at hcoercion
  rw [if_pos hatom] at hcoercion
  obtain ⟨hsilent, haloud⟩ := literal_run subject .integer t s
  cases hread : t.integer? with
  | some x =>
    rw [hread] at hcoercion
    rw [hcoercion] at hsilent
    obtain ⟨m, hm⟩ := Option.isSome_iff_exists.mp (Term.isInteger_of_integer? hread)
    refine ⟨_, _, hsilent rfl, fun n => ?_, .inl ⟨x, m, rfl, hm, rfl⟩⟩
    rw [← hinteger, hread]
    constructor
    · rintro ⟨b, hx, hb⟩
      cases hx
      exact ⟨x, rfl, hb⟩
    · rintro ⟨b, hx, hb⟩
      cases hx
      exact ⟨x, rfl, hb⟩
  | none =>
    rw [hread] at hcoercion
    rw [hcoercion] at haloud
    obtain ⟨d, hd, hrun⟩ := haloud (Option.some_ne_none _)
    refine ⟨_, _, hrun, fun n => ?_, .inr ⟨rfl, d, hd, rfl⟩⟩
    rw [← hinteger, hread]
    constructor
    · rintro ⟨b, hb, -⟩
      cases hb
    · rintro ⟨b, hb, -⟩
      cases hb

/-- **Integers are exact or kept as text.**  Number tokens without a point and an exponent are
images of integers, of any size and with any multiple; an image and a string constant are read for
an integer as the safe integer that they denote, which for a string is a sign and digits with white
space around them.  If they denote none, the text of the image and the value of the string are kept,
with one report. -/
theorem integer_exact_or_kept (subject : Subject) (s : Session) :
    (∀ t, Pattern.number t = some [] → '.' ∉ t →
      (Pattern.hexadecimal (Pattern.optional (Pattern.one (· == '-')) t) = none →
        'e' ∉ t ∧ 'E' ∉ t) → ∃ i : IntegerImage, i.text = t) ∧
      (∀ (i : IntegerImage) (token : Token) (place : Location),
        let t : Term := .expression (Grammar.numberExpression { token with text := i.text }
          ⟨i.text, place⟩)
        ∃ x after, literal subject .integer t s = (x, after) ∧
          ReadsExactly (i.value = ·) i.text subject t s x after) ∧
      ∀ (extent : Extent) (value : Text) (quote : Quote),
        let t : Term := .expression (.string extent value quote)
        ∃ x after, literal subject .integer t s = (x, after) ∧
          ReadsExactly (fun n => ∃ d : SignedDigits, d.text = Text.trim value ∧ d.value = n) value
            subject t s x after := by
  refine ⟨fun t => IntegerImage.exists_text, fun i token place => ?_, fun extent value quote => ?_⟩
  · have hread := readsExactly_of_integer? subject
      (Grammar.isAtom_numberExpression { token with text := i.text } ⟨i.text, place⟩)
      (Term.integer?_image i token place) s
    rwa [Grammar.atomText_numberExpression] at hread
  · have hread (n : Int) := Term.integerOfText?_iff value n
    exact readsExactly_of_integer? (t := .expression (.string extent value quote)) subject rfl
      hread s

/-- Eight kilobytes. -/
def eightKilobytes : IntegerImage where
  negative := true
  radix := .decimal
  digits := "8"
  nonempty := by decide
  valid := List.all_eq_true.mp (by decide)
  multiple := some ⟨'k', 'B', by decide, rfl⟩

/-- A number with a multiple, and a string with white space around the digits. -/
theorem integer_exact_or_kept_bytes :
    let s : Session := .new (.new (fun _ _ => none) .everything)
    (∃ i : IntegerImage, i.text = "-0xFEkb") ∧
      (∃ x, (literal .unknown .integer (.expression (Grammar.numberExpression
        ⟨.number, "-8kB", .start⟩ ⟨"-8kB", ⟨1, 1⟩⟩)) s).1 = .integer x ∧
          x.toInt? = some (-8192)) ∧
      ∃ x, (literal .unknown .integer (.expression (.string ⟨"' +42'", ⟨1, 1⟩⟩ " +42" .single))
        s).1 = .integer x ∧ x.toInt? = some 42 := by
  intro s
  obtain ⟨htokens, himages, hstrings⟩ := integer_exact_or_kept .unknown s
  refine ⟨htokens "-0xFEkb" (by decide) (by decide) nofun, ?_, ?_⟩
  · obtain ⟨x, after, hrun, hread⟩ := himages eightKilobytes ⟨.number, [], .start⟩ ⟨1, 1⟩
    obtain ⟨b, rfl, hb⟩ := (hread.integer_iff (-8192)).mpr (by decide)
    exact ⟨b, congrArg Prod.fst hrun, hb⟩
  · obtain ⟨x, after, hrun, hread⟩ := hstrings ⟨"' +42'", ⟨1, 1⟩⟩ " +42" .single
    obtain ⟨b, rfl, hb⟩ := (hread.integer_iff 42).mpr
      ⟨⟨⟨['+'], "42", by decide, by decide, List.all_eq_true.mp (by decide)⟩, by decide, by decide⟩,
        by decide⟩
    exact ⟨b, congrArg Prod.fst hrun, hb⟩

end Binding

end DesiredState

/-
Integers as they are written.

A number without a point and an exponent is written with decimal or hexadecimal digits, of
any number, and may have a minus before them and a multiple after them; a string may hold
an integer as a sign and decimal digits.  What they denote is said here by the positions of
the digits, and what is read of them is compared with it.
-/
import DesiredState.Proofs.Number.Rounding
import DesiredState.Value.Coercion
import Mathlib.Data.List.Basic
import Mathlib.Data.Nat.Digits.Defs

namespace DesiredState

/-! ### Digits -/

namespace Text

/-- The value of a digit, decimal or hexadecimal. -/
def digitValue (c : Char) : Nat := (Binary64.hexDigit? c).getD 0

/-- What digits denote to a base, the last of them being the units. -/
def magnitude (base : Nat) (digits : Text) : Nat :=
  Nat.ofDigits base (digits.map digitValue).reverse

theorem magnitude_eq_foldl (base : Nat) (digits : Text) :
    magnitude base digits = digits.foldl (fun n c => digitValue c + base * n) 0 := by
  rw [magnitude, Nat.ofDigits_eq_foldr, List.foldr_reverse, List.foldl_map]
  rfl

theorem natOfDigits_eq {digits : Text} (h : ∀ c ∈ digits, c.isDigit) :
    natOfDigits digits = magnitude 10 digits := by
  rw [magnitude_eq_foldl, natOfDigits, Nat.ofDigitChars]
  refine List.foldl_ext _ _ _ fun n c hc => ?_
  rw [digitValue, Binary64.hexDigit?, if_pos (h c hc), Option.getD_some, Nat.add_comm]

theorem natOfHex?_eq {digits : Text} (h : ∀ c ∈ digits, (Binary64.hexDigit? c).isSome) :
    Binary64.natOfHex? 0 digits = some (magnitude 16 digits) := by
  rw [magnitude_eq_foldl]
  generalize 0 = value
  induction digits generalizing value with
  | nil => rfl
  | cons c rest ih =>
    obtain ⟨d, hd⟩ := Option.isSome_iff_exists.mp (h c List.mem_cons_self)
    rw [Binary64.natOfHex?, hd, List.foldl_cons, digitValue, hd, Option.getD_some, Nat.add_comm d]
    exact ih (fun b hb => h b (List.mem_cons_of_mem c hb)) _

end Text

theorem Text.isBlank_of_visible {c : Char} (hlow : 33 ≤ c.toNat) (hhigh : c.toNat < 128) :
    isBlank c = false := by
  have hspace : c ≠ ' ' := by
    rintro rfl
    exact absurd hlow (by decide)
  rw [isBlank, if_pos hhigh, beq_eq_false_iff_ne.mpr hspace, Bool.false_or, Bool.and_eq_false_iff]
  exact .inr (decide_eq_false (by omega))

/-- Where there is no white space there is nothing to trim. -/
theorem Text.trim_eq_self {t : Text} (h : ∀ c ∈ t, isBlank c = false) : trim t = t := by
  have hstart {s : Text} (hs : ∀ c ∈ s, isBlank c = false) : s.dropWhile isBlank = s := by
    cases s with
    | nil => rfl
    | cons c rest => rw [List.dropWhile_cons, hs c List.mem_cons_self]; rfl
  rw [trim, trimStart, hstart h, trimEnd, hstart fun c hc => h c (List.mem_reverse.mp hc),
    List.reverse_reverse]

namespace Literal

/-! ### Images

An image is taken apart into what the digits say and what stands around them.  So its
value is defined without reading it, for as many digits as there are.
-/

/-- How the digits of an integer are written. -/
inductive Radix where
  | decimal
  /-- Digits after `0x`, whose letter may be a capital one. -/
  | hexadecimal (capital : Bool)
  deriving DecidableEq, Repr

namespace Radix

def base : Radix → Nat
  | decimal => 10
  | hexadecimal _ => 16

/-- What stands before the digits. -/
def mark : Radix → Text
  | decimal => []
  | hexadecimal capital => ['0', if capital then 'X' else 'x']

def isDigit : Radix → Char → Bool
  | decimal, c => c.isDigit
  | hexadecimal _, c => (Binary64.hexDigit? c).isSome

end Radix

/-- The letters of the multiples, one power of 1024 after another. -/
def multipleUnits : List Char := ['k', 'm', 'g', 't', 'p']

/-- The two letters of a multiple, each small or capital. -/
structure Multiple where
  unit : Char
  byte : Char
  isUnit : unit.toLower ∈ multipleUnits
  isByte : byte.toLower = 'b'

/-- How many times 1024 a multiple stands for. -/
def Multiple.power (m : Multiple) : Nat := multipleUnits.idxOf m.unit.toLower + 1

/-- An integer as a number without a point and an exponent writes it. -/
structure IntegerImage where
  negative : Bool
  radix : Radix
  digits : Text
  nonempty : digits ≠ []
  valid : ∀ c ∈ digits, radix.isDigit c
  multiple : Option Multiple

namespace IntegerImage

variable (i : IntegerImage)

/-- The digits and what belongs to them. -/
def unsigned : Text := i.radix.mark ++ i.digits

/-- The letters after the digits. -/
def suffix : Text := (i.multiple.map fun m => [m.unit, m.byte]).getD []

def power : Nat := (i.multiple.map Multiple.power).getD 0

/-- The image of the integer. -/
def text : Text := (if i.negative then ['-'] else []) ++ i.unsigned ++ i.suffix

/-- The value without its sign. -/
def magnitude : Nat := Text.magnitude i.radix.base i.digits * 1024 ^ i.power

/-- The integer that the image denotes. -/
def value : Int := if i.negative then -(i.magnitude : Int) else i.magnitude

end IntegerImage

/-- An integer as a string holds it: a sign or none, and decimal digits. -/
structure SignedDigits where
  sign : Text
  digits : Text
  isSign : sign ∈ [[], ['-'], ['+']]
  nonempty : digits ≠ []
  valid : ∀ c ∈ digits, c.isDigit

namespace SignedDigits

variable (d : SignedDigits)

def text : Text := d.sign ++ d.digits

/-- The integer that the digits denote. -/
def value : Int :=
  if d.sign = ['-'] then -(Text.magnitude 10 d.digits : Int) else Text.magnitude 10 d.digits

end SignedDigits

/-! ### Reading images

The letters of a multiple are looked for at the end of the text, where hexadecimal
digits may be letters as well.  None of these is one of the letters of a multiple.
-/

/-- Where the digits are. -/
theorem toNat_of_hexDigit? {c : Char} (h : (Binary64.hexDigit? c).isSome) :
    48 ≤ c.toNat ∧ c.toNat ≤ 102 := by
  have hrange {a b : Char} (hc : a.val ≤ c.val ∧ c.val ≤ b.val) :
      a.toNat ≤ c.toNat ∧ c.toNat ≤ b.toNat := hc
  have hbounds : '0'.toNat = 48 ∧ '9'.toNat = 57 ∧ 'A'.toNat = 65 ∧ 'F'.toNat = 70 ∧
      'a'.toNat = 97 ∧ 'f'.toNat = 102 := by decide
  unfold Binary64.hexDigit? at h
  split at h
  · next hdigit =>
    have := hrange (a := '0') (b := '9') (by simpa [Char.isDigit] using hdigit)
    omega
  · split at h
    · next hsmall =>
      have := hrange hsmall
      omega
    · split at h
      · next hcapital =>
        have := hrange hcapital
        omega
      · cases h

/-- No letter that is a digit is one of a multiple. -/
theorem not_isUnit_of_hexDigit? {c : Char} (h : (Binary64.hexDigit? c).isSome) :
    c.toLower ∉ multipleUnits := by
  have hall : ∀ n < 128, (Binary64.hexDigit? (Char.ofNat n)).isSome →
      (Char.ofNat n).toLower ∉ multipleUnits := by decide
  have hc := hall c.toNat (by have := toNat_of_hexDigit? h; omega)
  rw [Char.ofNat_toNat] at hc
  exact hc h

/-- A text without letters of multiples has none at its end. -/
theorem splitMultiple_of_units {t : Text} (h : ∀ c ∈ t, c.toLower ∉ multipleUnits) :
    splitMultiple t = (t, 0) := by
  unfold splitMultiple
  split
  · next b u body heq =>
    have hu : u.toLower ∉ multipleUnits := by
      refine h u (List.mem_reverse.mp ?_)
      rw [heq]
      exact List.mem_cons_of_mem b List.mem_cons_self
    simp only [multipleUnits, List.mem_cons, List.not_mem_nil, or_false, not_or] at hu
    split
    · split <;> simp_all
    · rfl
  · rfl

/-- The letters of a multiple at the end of a text. -/
theorem splitMultiple_append (t : Text) (m : Multiple) :
    splitMultiple (t ++ [m.unit, m.byte]) = (t, m.power) := by
  obtain ⟨unit, byte, hunit, hbyte⟩ := m
  have hreverse : (t ++ [unit, byte]).reverse = byte :: unit :: t.reverse := by
    rw [List.reverse_append]
    rfl
  unfold splitMultiple Multiple.power
  dsimp only
  rw [hreverse]
  dsimp only
  rw [if_pos hbyte, List.reverse_reverse]
  simp only [multipleUnits, List.mem_cons, List.not_mem_nil, or_false] at hunit
  rcases hunit with h | h | h | h | h <;> rw [h] <;> rfl

namespace IntegerImage

variable (i : IntegerImage)

theorem hexDigit?_of_mem_digits {c : Char} (h : c ∈ i.digits) : (Binary64.hexDigit? c).isSome := by
  have hvalid := i.valid c h
  revert hvalid
  cases i.radix with
  | hexadecimal capital => exact id
  | decimal =>
    intro (hdigit : c.isDigit)
    rw [Binary64.hexDigit?, if_pos hdigit]
    rfl

/-- The characters before a multiple: a minus, digits, and the letter of hexadecimal ones. -/
theorem mem_front {c : Char} (h : c ∈ (if i.negative then ['-'] else []) ++ i.unsigned) :
    c = '-' ∨ c = 'x' ∨ c = 'X' ∨ (Binary64.hexDigit? c).isSome := by
  rcases List.mem_append.mp h with h | h
  · split at h
    · exact .inl (List.mem_singleton.mp h)
    · cases h
  · rcases List.mem_append.mp h with h | h
    · cases hradix : i.radix with
      | decimal =>
        rw [hradix] at h
        cases h
      | hexadecimal capital =>
        rw [hradix] at h
        rcases List.mem_cons.mp h with rfl | h
        · exact .inr (.inr (.inr (by decide)))
        · rw [List.mem_singleton.mp h]
          cases capital
          · exact .inr (.inl rfl)
          · exact .inr (.inr (.inl rfl))
    · exact .inr (.inr (.inr (i.hexDigit?_of_mem_digits h)))

/-- The letters of the multiple are told from the digits. -/
theorem splitMultiple_text :
    splitMultiple i.text = ((if i.negative then ['-'] else []) ++ i.unsigned, i.power) := by
  unfold text suffix power
  cases i.multiple with
  | some m => exact splitMultiple_append _ m
  | none =>
    refine (congrArg splitMultiple (List.append_nil _)).trans ?_
    refine splitMultiple_of_units fun c hc => ?_
    rcases i.mem_front hc with rfl | rfl | rfl | hdigit
    · decide
    · decide
    · decide
    · exact not_isUnit_of_hexDigit? hdigit

/-- The digits are read as the number nearest to what they denote. -/
theorem readUnsigned?_unsigned :
    Binary64.readUnsigned? i.unsigned =
      some (.ofNat false (Text.magnitude i.radix.base i.digits)) := by
  obtain ⟨negative, radix, digits, nonempty, valid, multiple⟩ := i
  cases radix with
  | decimal =>
    change Binary64.readUnsigned? digits = some (.ofNat false (Text.magnitude 10 digits))
    rw [Binary64.readUnsigned?_digits nonempty valid, Text.natOfDigits_eq valid]
  | hexadecimal capital =>
    have hmark : (if capital then 'X' else 'x') = 'x' ∨ (if capital then 'X' else 'x') = 'X' := by
      cases capital
      · exact .inl rfl
      · exact .inr rfl
    change Binary64.readUnsigned? ('0' :: (if capital then 'X' else 'x') :: digits) = _
    rw [Binary64.readUnsigned?, if_pos hmark, Text.natOfHex?_eq valid]
    rfl

/-- Digits come first. -/
theorem unsigned_ne_minus (rest : Text) : i.unsigned ≠ '-' :: rest := by
  intro h
  have hmem : '-' ∈ i.unsigned := by
    rw [h]
    exact List.mem_cons_self
  rcases List.mem_append.mp hmem with hmark | hdigit
  · revert hmark
    cases i.radix with
    | decimal => exact List.not_mem_nil
    | hexadecimal capital => cases capital <;> decide
  · exact absurd (i.hexDigit?_of_mem_digits hdigit) (by decide)

/-- What the digits denote before they are multiplied. -/
def units : Nat := Text.magnitude i.radix.base i.digits

theorem magnitude_eq : i.magnitude = i.units * Binary64.twoTo (10 * i.power) := by
  unfold magnitude Binary64.twoTo
  rw [Nat.pow_eq, Nat.pow_mul]
  rfl

/-- An image is read as its digits are, with its multiple and its sign. -/
theorem number?_text :
    number? i.text =
      if (Binary64.ofNat false i.units).isFinite then
        let value := (Binary64.ofNat false i.units).scale (10 * i.power)
        some (if i.negative then value.negate else value)
      else none := by
  have hread : Binary64.readUnsigned? i.unsigned = some (.ofNat false i.units) :=
    i.readUnsigned?_unsigned
  have hsplit := i.splitMultiple_text
  have hminus := i.unsigned_ne_minus
  -- The cases are those of the reader; a minus that it finds is the one of the image.
  fun_cases number? i.text <;> grind

/-- **What is read of an image is a safe integer if the image denotes one, and is this integer.** -/
theorem toSafeInt?_number? {x : Binary64} (h : number? i.text = some x) :
    x.toSafeInt? = if i.magnitude ≤ Binary64.maxSafe then some i.value else none := by
  rw [i.number?_text] at h
  split at h
  · cases h
    have hscale := Binary64.toSafeInt?_scale i.units (10 * i.power)
    rw [← i.magnitude_eq] at hscale
    unfold value
    cases i.negative with
    | false => exact hscale
    | true =>
      rw [if_pos rfl, if_pos rfl, Binary64.toSafeInt?_negate, hscale]
      split <;> rfl
  · cases h

theorem natAbs_value : i.value.natAbs = i.magnitude :=
  Binary64.natAbs_signed_nat i.negative i.magnitude

/-- An image of which no number is read denotes no safe integer. -/
theorem maxSafe_lt_of_number? (h : number? i.text = none) : Binary64.maxSafe < i.magnitude := by
  rw [i.number?_text] at h
  split at h
  · cases h
  · next hinfinite =>
    rw [i.magnitude_eq]
    refine Nat.lt_of_lt_of_le (Nat.not_le.mp fun hle => hinfinite (Binary64.isFinite_ofNat hle)) ?_
    exact Nat.le_mul_of_pos_right _ (Binary64.twoTo_pos _)

end IntegerImage

/-! ### Reading strings

A string is not read as a number token is: it may have a plus, and neither hexadecimal
digits nor a multiple.  Where a text can be read in both ways, the two agree.
-/

namespace SignedDigits

variable (d : SignedDigits)

theorem readInteger?_text :
    Binary64.readInteger? d.text = some (decide (d.sign = ['-']), Text.magnitude 10 d.digits) := by
  obtain ⟨sign, digits, hsign, hne, hvalid⟩ := d
  have hdigits : ¬(digits.isEmpty ∨ !digits.all Char.isDigit) := by
    rw [List.isEmpty_eq_false_iff.mpr hne, List.all_eq_true.mpr hvalid]
    decide
  simp only [List.mem_cons, List.not_mem_nil, or_false] at hsign
  unfold text
  dsimp only
  rw [← Text.natOfDigits_eq hvalid]
  rcases hsign with rfl | rfl | rfl
  · have hhead : ∀ rest, digits ≠ '-' :: rest ∧ digits ≠ '+' :: rest := by
      refine fun rest => ⟨?_, ?_⟩ <;>
        · rintro rfl
          exact absurd (hvalid _ List.mem_cons_self) (by decide)
    fun_cases Binary64.readInteger? digits <;> grind
  · unfold Binary64.readInteger?
    exact if_neg hdigits
  · unfold Binary64.readInteger?
    exact if_neg hdigits

end SignedDigits

/-- What is read as an integer is a sign or none, and digits. -/
theorem exists_signedDigits {t : Text} {negative : Bool} {n : Nat}
    (h : Binary64.readInteger? t = some (negative, n)) : ∃ d : SignedDigits, d.text = t := by
  have hdigits {digits : Text} (hread : ¬(digits.isEmpty ∨ !digits.all Char.isDigit)) :
      digits ≠ [] ∧ ∀ c ∈ digits, c.isDigit := by
    simpa [not_or] using hread
  revert h
  fun_cases Binary64.readInteger? t with
  | case1 => exact nofun
  | case2 sign digits hsign hread =>
    obtain ⟨hne, hvalid⟩ := hdigits hread
    intro _
    split at hsign <;> cases hsign
    · exact ⟨⟨['-'], _, by decide, hne, hvalid⟩, rfl⟩
    · exact ⟨⟨['+'], _, by decide, hne, hvalid⟩, rfl⟩
    · exact ⟨⟨[], _, by decide, hne, hvalid⟩, rfl⟩

theorem SignedDigits.value_eq (d : SignedDigits) :
    d.value = Binary64.signed (decide (d.sign = ['-'])) (Text.magnitude 10 d.digits) := by
  unfold value Binary64.signed
  by_cases h : d.sign = ['-']
  · rw [if_pos h, if_pos (decide_eq_true h)]
  · rw [if_neg h, if_neg (by rw [decide_eq_false h]; exact Bool.false_ne_true)]

/-- What is written as the same text denotes the same integer. -/
theorem SignedDigits.value_eq_of_text {d d' : SignedDigits} (h : d.text = d'.text) :
    d.value = d'.value := by
  have hread := d.readInteger?_text
  rw [h, d'.readInteger?_text, Option.some_inj, Prod.mk.injEq] at hread
  rw [value_eq, value_eq, hread.1, hread.2]

theorem SignedDigits.mem_text (d : SignedDigits) {c : Char} (h : c ∈ d.text) :
    c = '-' ∨ c = '+' ∨ c.isDigit := by
  rcases List.mem_append.mp h with h | h
  · have hsign := d.isSign
    simp only [List.mem_cons, List.not_mem_nil, or_false] at hsign
    rcases hsign with hs | hs | hs <;> rw [hs] at h
    · cases h
    · exact .inl (List.mem_singleton.mp h)
    · exact .inr (.inl (List.mem_singleton.mp h))
  · exact .inr (.inr (d.valid c h))

/-- Where an image is also a sign and digits, both denote the same integer. -/
theorem IntegerImage.value_eq_of_text {i : IntegerImage} {d : SignedDigits} (h : d.text = i.text) :
    d.value = i.value := by
  obtain ⟨negative, radix, digits, nonempty, valid, multiple⟩ := i
  have hmem {c : Char} (hc : c ∈ (if negative then ['-'] else []) ++ (radix.mark ++ digits) ++
      (multiple.map fun m => [m.unit, m.byte]).getD []) : c = '-' ∨ c = '+' ∨ c.isDigit :=
    d.mem_text (h ▸ hc)
  cases multiple with
  | some m =>
    have hbyte := m.isByte
    rcases hmem (c := m.byte) (by simp) with hc | hc | hc
    · rw [hc] at hbyte
      exact absurd hbyte (by decide)
    · rw [hc] at hbyte
      exact absurd hbyte (by decide)
    · have halpha : m.byte.isAlpha := Pattern.isAlpha_of_toLower (hbyte ▸ by decide)
      rw [Pattern.isDigit_of_isWordStart (by simp [Pattern.isWordStart, halpha])] at hc
      cases hc
  | none =>
    cases radix with
    | hexadecimal capital =>
      have hletter := hmem (c := if capital then 'X' else 'x') (by simp [Radix.mark])
      exact absurd hletter (by cases capital <;> decide)
    | decimal =>
      have hsign : (if negative then ['-'] else []) ∈ [[], ['-'], ['+']] := by
        cases negative <;> decide
      have htext : d.text = SignedDigits.text ⟨_, digits, hsign, nonempty, valid⟩ :=
        h.trans (List.append_nil _)
      rw [SignedDigits.value_eq_of_text htext]
      cases negative <;> simp [SignedDigits.value, value, magnitude, power, Radix.base]

/-- A letter of a multiple, of either case. -/
theorem IntegerImage.isLower_of_mem_suffix {i : IntegerImage} {c : Char} (h : c ∈ i.suffix) :
    c.toLower.isLower := by
  unfold suffix at h
  cases hm : i.multiple with
  | none => rw [hm] at h; cases h
  | some m =>
    rw [hm] at h
    have hunits : multipleUnits.all Char.isLower := by decide
    rcases List.mem_cons.mp h with rfl | h
    · exact List.all_eq_true.mp hunits _ m.isUnit
    · rw [List.mem_singleton.mp h, m.isByte]
      decide

/-- There is no white space in an image. -/
theorem IntegerImage.trim_text (i : IntegerImage) : Text.trim i.text = i.text := by
  refine Text.trim_eq_self fun c hc => ?_
  rcases List.mem_append.mp hc with hc | hc
  · rcases i.mem_front hc with rfl | rfl | rfl | hdigit
    · rfl
    · rfl
    · rfl
    · have := toNat_of_hexDigit? hdigit
      exact Text.isBlank_of_visible (by omega) (by omega)
  · have := Pattern.toNat_of_isAlpha (Pattern.isAlpha_of_toLower (isLower_of_mem_suffix hc))
    exact Text.isBlank_of_visible (by omega) (by omega)

/-! ### Number tokens -/

/-- A run of characters and what follows it. -/
theorem exists_run_of_some1 {p : Char → Bool} {t rest : Text} (h : Pattern.some1 p t = some rest) :
    ∃ run, run ≠ [] ∧ (∀ c ∈ run, p c) ∧ t = run ++ rest := by
  cases t with
  | nil => cases h
  | cons c t =>
    rw [Pattern.some1, Option.ite_none_right_eq_some, Option.some_inj] at h
    obtain ⟨hc, rfl⟩ := h
    refine ⟨c :: t.takeWhile p, List.cons_ne_nil c _, ?_, ?_⟩
    · exact List.forall_mem_cons.mpr ⟨hc, fun d hd => List.mem_takeWhile_imp hd⟩
    · rw [List.cons_append, List.takeWhile_append_dropWhile]

theorem exists_multiple {t : Text} (h : Pattern.optional Pattern.multiple t = []) :
    ∃ m : Option Multiple, t = (m.map fun m => [m.unit, m.byte]).getD [] := by
  unfold Pattern.optional Pattern.multiple at h
  split at h
  · next unit byte rest =>
    split at h
    · next hletters =>
      cases h
      exact ⟨some ⟨unit, byte, hletters.1, hletters.2⟩, rfl⟩
    · cases h
  · exact ⟨none, h⟩

theorem exists_hexadecimal {t rest : Text} (h : Pattern.hexadecimal t = some rest) :
    ∃ capital digits, digits ≠ [] ∧ (∀ c ∈ digits, (Binary64.hexDigit? c).isSome) ∧
      t = (Radix.hexadecimal capital).mark ++ digits ++ rest := by
  unfold Pattern.hexadecimal at h
  split at h
  · next letter t =>
    rw [Option.ite_none_right_eq_some] at h
    obtain ⟨hletter, h⟩ := h
    obtain ⟨digits, hne, hdigits, rfl⟩ := exists_run_of_some1 h
    have hvalid : ∀ c ∈ digits, (Binary64.hexDigit? c).isSome := by
      intro c hc
      have := hdigits c hc
      unfold Binary64.hexDigit?
      grind
    rcases hletter with rfl | rfl
    · exact ⟨false, digits, hne, hvalid, rfl⟩
    · exact ⟨true, digits, hne, hvalid, rfl⟩
  · cases h

/-- Without a point and an exponent mark a decimal number is a run of digits. -/
theorem exists_decimal {t rest : Text} (h : Pattern.decimal t = some rest) (hpoint : '.' ∉ t)
    (hmark : 'e' ∉ t ∧ 'E' ∉ t) :
    ∃ digits, digits ≠ [] ∧ (∀ c ∈ digits, c.isDigit) ∧ t = digits ++ rest := by
  obtain ⟨after, hrun, hrest⟩ := Option.map_eq_some_iff.mp h
  obtain ⟨digits, hne, hdigits, rfl⟩ := exists_run_of_some1 hrun
  have hafter {c : Char} (hc : c ∉ digits ++ after) : c ∉ after := fun hm =>
    hc (List.mem_append_right digits hm)
  have hfraction : Pattern.fraction after = none := by
    unfold Pattern.fraction
    split
    · exact absurd List.mem_cons_self (hafter hpoint)
    · rfl
  have hrepeated (n : Nat) : Pattern.repeated Pattern.fraction n after = after := by
    cases n with
    | zero => rfl
    | succ n => rw [Pattern.repeated, hfraction]
  have hexponent : Pattern.exponent after = none := by
    cases after with
    | nil => rfl
    | cons c after =>
      rw [Pattern.exponent, if_neg]
      rintro (rfl | rfl)
      · exact hafter hmark.1 List.mem_cons_self
      · exact hafter hmark.2 List.mem_cons_self
  rw [hrepeated, Pattern.optional, hexponent, Option.getD_none] at hrest
  subst hrest
  exact ⟨digits, hne, hdigits, rfl⟩

/-- A minus or none, and what follows it. -/
theorem exists_minus (t : Text) : ∃ negative : Bool, t =
    (if negative then ['-'] else []) ++ Pattern.optional (Pattern.one (· == '-')) t := by
  cases t with
  | nil => exact ⟨false, rfl⟩
  | cons c t =>
    rw [Pattern.optional, Pattern.one]
    split
    · next hc =>
      rw [beq_iff_eq.mp hc]
      exact ⟨true, rfl⟩
    · exact ⟨false, rfl⟩

/-- **A number token without a point and an exponent is the image of an integer.**  The letter of an
exponent is none among hexadecimal digits. -/
theorem IntegerImage.exists_text {t : Text} (h : Pattern.number t = some []) (hpoint : '.' ∉ t)
    (hexponent : Pattern.hexadecimal (Pattern.optional (Pattern.one (· == '-')) t) = none →
      'e' ∉ t ∧ 'E' ∉ t) : ∃ i : IntegerImage, i.text = t := by
  obtain ⟨rest, hdigits, hrest⟩ := Option.map_eq_some_iff.mp h
  obtain ⟨m, rfl⟩ := exists_multiple hrest
  obtain ⟨negative, hsign⟩ := exists_minus t
  revert hdigits hexponent
  generalize Pattern.optional (Pattern.one (· == '-')) t = unsigned at hsign
  subst hsign
  intro hexponent hdigits
  have hunsigned {c : Char} (hc : c ∉ (if negative then ['-'] else []) ++ unsigned) :
      c ∉ unsigned := fun hm => hc (List.mem_append_right _ hm)
  cases hhexadecimal : Pattern.hexadecimal unsigned with
  | some rest =>
    rw [hhexadecimal, Option.some_or, Option.some_inj] at hdigits
    subst hdigits
    obtain ⟨capital, digits, hne, hvalid, rfl⟩ := exists_hexadecimal hhexadecimal
    refine ⟨⟨negative, .hexadecimal capital, digits, hne, hvalid, m⟩, ?_⟩
    exact List.append_assoc ..
  | none =>
    rw [hhexadecimal, Option.none_or] at hdigits
    have hmark := hexponent hhexadecimal
    obtain ⟨digits, hne, hvalid, rfl⟩ := exists_decimal hdigits (hunsigned hpoint)
      ⟨hunsigned hmark.1, hunsigned hmark.2⟩
    refine ⟨⟨negative, .decimal, digits, hne, hvalid, m⟩, ?_⟩
    exact List.append_assoc ..

end Literal

namespace Term

open Literal

/-- A sign and digits are read as the integer that they denote, if it is a safe one. -/
theorem integerOfText?_text {t : Text} {d : SignedDigits} (h : d.text = Text.trim t) :
    integerOfText? t =
      if d.value.natAbs ≤ Binary64.maxSafe then
        some (.ofNat (decide (d.sign = ['-'])) (Text.magnitude 10 d.digits))
      else none := by
  unfold integerOfText?
  rw [← h, d.readInteger?_text, Option.bind_some, d.value_eq, Binary64.natAbs_signed_nat]
  dsimp only
  rw [Binary64.toSafeInt?_ofNat]
  split
  · exact if_pos rfl
  · exact if_neg Bool.false_ne_true

/-- **What is read of a string is the safe integer that its text denotes, if it denotes one.** -/
theorem integerOfText?_iff (t : Text) (n : Int) :
    (∃ x, integerOfText? t = some x ∧ x.toInt? = some n) ↔
      (∃ d : SignedDigits, d.text = Text.trim t ∧ d.value = n) ∧ n.natAbs ≤ Binary64.maxSafe := by
  constructor
  · rintro ⟨x, hx, hn⟩
    obtain ⟨⟨negative, m⟩, hread, -⟩ := Option.bind_eq_some_iff.mp hx
    obtain ⟨d, hd⟩ := exists_signedDigits hread
    rw [integerOfText?_text hd] at hx
    split at hx
    · next hsafe =>
      cases hx
      rw [d.value_eq, Binary64.natAbs_signed_nat] at hsafe
      rw [Binary64.toInt?_ofNat _ hsafe, ← d.value_eq, Option.some_inj] at hn
      subst hn
      refine ⟨⟨d, hd, rfl⟩, ?_⟩
      rwa [d.value_eq, Binary64.natAbs_signed_nat]
    · cases hx
  · rintro ⟨⟨d, hd, rfl⟩, hsafe⟩
    rw [integerOfText?_text hd, if_pos hsafe]
    rw [d.value_eq, Binary64.natAbs_signed_nat] at hsafe
    exact ⟨_, rfl, by rw [Binary64.toInt?_ofNat _ hsafe, d.value_eq]⟩

/-- An image of an integer that is not safe is not read as one where it is a string. -/
theorem integerOfText?_image (i : IntegerImage) (h : Binary64.maxSafe < i.value.natAbs) :
    integerOfText? i.text = none := by
  by_contra hsome
  obtain ⟨x, hx⟩ := Option.ne_none_iff_exists'.mp hsome
  obtain ⟨⟨negative, m⟩, hread, -⟩ := Option.bind_eq_some_iff.mp hx
  obtain ⟨d, hd⟩ := exists_signedDigits hread
  rw [i.trim_text] at hd
  rw [integerOfText?_text (hd.trans i.trim_text.symm), IntegerImage.value_eq_of_text hd,
    if_neg (Nat.not_le.mpr h)] at hx
  cases hx

end Term

end DesiredState

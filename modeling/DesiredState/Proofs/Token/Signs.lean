/-
A sign of arithmetic right behind a text.

Whatever is read from a text is mostly read from it again when a sign follows without a
space.  There are three ways in which the sign changes what stands before it.  A dash goes on
with a name and with a parameter; a plus or a dash is part of a number where digits and the
letter of an exponent end the text; and behind a dash a number is read with its sign.

For a part of a recogniser it is enough to compare what it leaves of the text alone and of the
text with more behind it: `Extends` says that the one is the other with more behind it.
-/
import DesiredState.Proofs.Token.Gap

namespace DesiredState

/-- A recogniser makes the same of a text with another one behind it. -/
def Recogniser.Extends (r : Recogniser) (t after : Text) : Prop :=
  r (t ++ after) = (r t).map (· ++ after)

namespace Pattern

/-- The signs of arithmetic. -/
def isArithmetic (c : Char) : Bool := ['+', '-', '*', '/', '%'].contains c

variable {p : Char → Bool} {o : Char} {t rest more : Text} {r : Recogniser}

theorem cases_of_isArithmetic (ho : isArithmetic o) :
    o = '+' ∨ o = '-' ∨ o = '*' ∨ o = '/' ∨ o = '%' := by
  simpa [isArithmetic] using ho

theorem not_of_isArithmetic (ho : isArithmetic o)
    (hp : ['+', '-', '*', '/', '%'].all fun c => !p c) : p o = false := by
  simpa using List.all_eq_true.mp hp o (List.contains_iff_mem.mp ho)

theorem ne_of_isArithmetic (ho : isArithmetic o) {c : Char}
    (hc : ['+', '-', '*', '/', '%'].all fun d => !(d == c)) : o ≠ c :=
  beq_eq_false_iff_ne.mp (not_of_isArithmetic (p := (· == c)) ho hc)

/-- Of the signs only the dash continues a bare word. -/
theorem isBare_sign (ho : isArithmetic o) (hdash : o ≠ '-') : isBare o = false := by
  rcases cases_of_isArithmetic ho with rfl | rfl | rfl | rfl | rfl <;> first | rfl | exact absurd rfl hdash

/-! ### Parts of recognisers

`Extends` says that a part is found or missed with the sign behind the text as it was
without.  Classes of characters have it if the sign is none of theirs.
-/

theorem dropWhile_sign (hp : t.dropWhile p = [] → p o = false) :
    (t ++ o :: more).dropWhile p = t.dropWhile p ++ o :: more := by
  rw [List.dropWhile_append]
  by_cases hnil : t.dropWhile p = []
  · rw [hnil, List.isEmpty_nil, if_pos rfl, List.dropWhile_cons, hp hnil]
    rfl
  · rw [if_neg (by rwa [List.isEmpty_iff])]

theorem one_sign (hp : t = [] → p o = false) : Recogniser.Extends (one p) t (o :: more) := by
  cases t with
  | nil => simp [Recogniser.Extends, one, hp rfl]
  | cons c t =>
    simp only [Recogniser.Extends, List.cons_append, one]
    split <;> rfl

theorem some1_sign (hp : p o = false) : Recogniser.Extends (some1 p) t (o :: more) := by
  cases t with
  | nil => simp [Recogniser.Extends, some1, hp]
  | cons c t =>
    simp only [Recogniser.Extends, List.cons_append, some1]
    split
    · rw [dropWhile_sign fun _ => hp, Option.map_some]
    · rfl

theorem word_sign (ho : isArithmetic o) (hp : word p t = some [] → p o = false) :
    Recogniser.Extends (word p) t (o :: more) := by
  cases t with
  | nil => simp [Recogniser.Extends, word, not_of_isArithmetic (p := isWordStart) ho rfl]
  | cons c t =>
    simp only [Recogniser.Extends, List.cons_append, word] at hp ⊢
    split
    · next hc =>
      rw [if_pos hc, Option.some.injEq] at hp
      rw [dropWhile_sign hp, Option.map_some]
    · rfl

theorem dropHead?_sign {m : Text} (hm : o ∉ m) :
    Recogniser.Extends (Text.dropHead? m) t (o :: more) := by
  induction m generalizing t with
  | nil => rfl
  | cons c m ih =>
    cases t with
    | nil =>
      have hne : c ≠ o := fun h => hm (h ▸ List.mem_cons_self)
      simp [Recogniser.Extends, Text.dropHead?, hne]
    | cons d t =>
      unfold Recogniser.Extends
      rw [List.cons_append, Text.dropHead?, Text.dropHead?]
      split
      · exact ih fun h => hm (List.mem_cons_of_mem c h)
      · rfl

theorem optional_extends {after : Text} (h : Recogniser.Extends r t after) :
    optional r (t ++ after) = optional r t ++ after := by
  unfold optional
  rw [h]
  cases r t <;> rfl

theorem repeated_extends {after : Text} (hr : ∀ t, Recogniser.Extends r t after)
    (htakes : Recogniser.Takes r) {n m : Nat} (hn : t.length ≤ n) (hm : (t ++ after).length ≤ m) :
    repeated r m (t ++ after) = repeated r n t ++ after := by
  induction n generalizing t m with
  | zero =>
    rw [List.eq_nil_of_length_eq_zero (Nat.le_zero.mp hn)] at *
    cases m with
    | zero => rfl
    | succ m => rw [repeated, repeated, hr, nil_eq_none htakes, Option.map_none]
  | succ n ih =>
    cases m with
    | zero =>
      rw [List.length_append] at hm
      rw [List.eq_nil_of_length_eq_zero (l := t) (by omega), repeated, repeated,
        nil_eq_none htakes]
    | succ m =>
      rw [repeated, repeated, hr]
      cases h : r t with
      | none => rfl
      | some rest =>
        have hlt := (htakes _ _ h).2
        rw [List.length_append] at hm
        exact ih (by omega) (by rw [List.length_append]; omega)

/-- A first character, and what is made of the text behind it. -/
theorem afterChar_extends {r' : Recogniser} {c : Char} (hcons : ∀ t, r' (c :: t) = r t)
    (hother : ∀ d t, d ≠ c → r' (d :: t) = none) (hnil : r' [] = none) (hc : o ≠ c)
    (h : ∀ back, t = c :: back → Recogniser.Extends r back (o :: more)) :
    Recogniser.Extends r' t (o :: more) := by
  unfold Recogniser.Extends
  cases t with
  | nil => rw [hnil, List.nil_append, hother o more hc, Option.map_none]
  | cons d t =>
    by_cases hd : d = c
    · subst hd
      rw [List.cons_append, hcons, hcons]
      exact h t rfl
    · rw [List.cons_append, hother d _ hd, hother d _ hd, Option.map_none]

/-! ### Numbers

Behind a number the letter of an exponent waits for digits or a sign, and a sign of
arithmetic could be taken for it.  This is the one case that is left out.
-/

theorem fraction_sign (ho : isArithmetic o) : Recogniser.Extends fraction t (o :: more) :=
  afterChar_extends (c := '.') (fun _ => rfl) (fun _ t h => fraction_cons_of_ne t h) rfl
    (ne_of_isArithmetic ho rfl) fun _ _ => some1_sign (not_of_isArithmetic ho rfl)

/-- An exponent is found or missed as before, unless the text is its letter alone. -/
theorem exponent_sign (ho : isArithmetic o)
    (he : o = '+' ∨ o = '-' → t ≠ ['e'] ∧ t ≠ ['E']) :
    Recogniser.Extends exponent t (o :: more) := by
  have hdigit : Char.isDigit o = false := not_of_isArithmetic ho rfl
  cases t with
  | nil =>
    have hletter : (o == 'e' || o == 'E') = false :=
      not_of_isArithmetic (p := fun c => c == 'e' || c == 'E') ho rfl
    have hnot : ¬ (o = 'e' ∨ o = 'E') := by simpa using hletter
    simp [Recogniser.Extends, exponent, hnot]
  | cons c t =>
    unfold Recogniser.Extends
    rw [List.cons_append, exponent, exponent]
    by_cases hc : c = 'e' ∨ c = 'E'
    · rw [if_pos hc, if_pos hc]
      have hsign : t = [] → (o == '+' || o == '-') = false := by
        rintro rfl
        rw [Bool.eq_false_iff]
        intro hsign
        have hne := he (by simpa using hsign)
        rcases hc with rfl | rfl
        · exact hne.1 rfl
        · exact hne.2 rfl
      rw [optional_extends (one_sign hsign)]
      exact some1_sign hdigit
    · rw [if_neg hc, if_neg hc]
      rfl

theorem multiple_sign (ho : isArithmetic o) :
    Recogniser.Extends multiple t (o :: more) := by
  have hunit : (['k', 'm', 'g', 't', 'p'].contains o.toLower) = false :=
    not_of_isArithmetic (p := fun c => ['k', 'm', 'g', 't', 'p'].contains c.toLower) ho (by decide)
  have hbyte : (o.toLower == 'b') = false :=
    not_of_isArithmetic (p := fun c => c.toLower == 'b') ho (by decide)
  have hunit' : o.toLower ∉ ['k', 'm', 'g', 't', 'p'] := by
    simpa using Bool.eq_false_iff.mp hunit
  have hbyte' : o.toLower ≠ 'b' := by simpa using hbyte
  match t with
  | [] => cases more <;> simp [Recogniser.Extends, multiple, hunit']
  | [c] => simp [Recogniser.Extends, multiple, hbyte']
  | c :: d :: t =>
    simp only [Recogniser.Extends, List.cons_append, multiple]
    split <;> rfl

theorem hexadecimal_sign (ho : isArithmetic o) :
    Recogniser.Extends hexadecimal t (o :: more) := by
  have hdigit := not_of_isArithmetic
    (p := fun c => c.isDigit || ('a' ≤ c && c ≤ 'f') || ('A' ≤ c && c ≤ 'F')) ho (by decide)
  have hzero : (o == '0') = false := not_of_isArithmetic (p := (· == '0')) ho rfl
  have hmark : (o == 'x' || o == 'X') = false :=
    not_of_isArithmetic (p := fun c => c == 'x' || c == 'X') ho rfl
  have hmark' : ¬ (o = 'x' ∨ o = 'X') := by simpa using hmark
  match t with
  | [] =>
    unfold Recogniser.Extends hexadecimal
    split
    · next heq => rw [(List.cons.inj heq).1] at hzero; cases hzero
    · rfl
  | [c] =>
    by_cases hc : c = '0'
    · subst hc
      simp [Recogniser.Extends, hexadecimal, hmark']
    · unfold Recogniser.Extends hexadecimal
      split
      · next heq => exact absurd (List.cons.inj heq).1 hc
      · simp
  | c :: x :: t =>
    by_cases hc : c = '0'
    · subst hc
      simp only [Recogniser.Extends, List.cons_append, hexadecimal]
      split
      · exact some1_sign hdigit
      · rfl
    · unfold Recogniser.Extends hexadecimal
      split
      · next heq => exact absurd (List.cons.inj heq).1 hc
      · split
        · next heq => exact absurd (List.cons.inj heq).1 hc
        · rfl

/-- A decimal number ends where it did, unless the letter of an exponent is all that is left. -/
theorem decimal_sign (ho : isArithmetic o)
    (he : o = '+' ∨ o = '-' → decimal t ≠ some ['e'] ∧ decimal t ≠ some ['E']) :
    Recogniser.Extends decimal t (o :: more) := by
  have hdigit : Char.isDigit o = false := not_of_isArithmetic ho rfl
  have hdigits : Recogniser.Extends (some1 Char.isDigit) t (o :: more) := some1_sign hdigit
  unfold Recogniser.Extends at hdigits ⊢
  unfold decimal at he ⊢
  rw [hdigits]
  cases hs : some1 Char.isDigit t with
  | none => rfl
  | some digits =>
    rw [hs, Option.map_some] at he
    rw [Option.map_some, Option.map_some, Option.map_some,
      repeated_extends (fun _ => fraction_sign ho) fraction_takes (Nat.le_refl _) (Nat.le_refl _)]
    refine congrArg some (optional_extends (exponent_sign ho fun hsign => ?_))
    obtain ⟨hsmall, hcapital⟩ := he hsign
    constructor
    · intro heq
      exact hsmall (by rw [heq]; rfl)
    · intro heq
      exact hcapital (by rw [heq]; rfl)

/-- A number is found as before, unless the letter of an exponent is all that is left. -/
theorem number_sign (ho : isArithmetic o) (h : number t = some rest)
    (he : o = '+' ∨ o = '-' → rest ≠ ['e'] ∧ rest ≠ ['E']) :
    number (t ++ o :: more) = some (rest ++ o :: more) := by
  have hne : t ≠ [] := fun hnil => by rw [hnil] at h; cases h
  have hunsigned : optional (one (· == '-')) (t ++ o :: more) =
      optional (one (· == '-')) t ++ o :: more :=
    optional_extends (one_sign fun hnil => absurd hnil hne)
  unfold number at h ⊢
  simp only [hunsigned]
  generalize optional (one (· == '-')) t = unsigned at h
  obtain ⟨digits, hdigits, rfl⟩ := Option.map_eq_some_iff.mp h
  have hmultiple : optional multiple (digits ++ o :: more) =
      optional multiple digits ++ o :: more := optional_extends (multiple_sign ho)
  have hboth : (hexadecimal (unsigned ++ o :: more)).or (decimal (unsigned ++ o :: more)) =
      some (digits ++ o :: more) := by
    rw [hexadecimal_sign ho]
    cases hx : hexadecimal unsigned with
    | some found =>
      rw [hx, Option.some_or] at hdigits
      rw [Option.map_some, Option.some_or, Option.some.inj hdigits]
    | none =>
      rw [hx, Option.none_or] at hdigits
      rw [Option.map_none, Option.none_or, decimal_sign ho, hdigits, Option.map_some]
      intro hsign
      rw [hdigits]
      obtain ⟨hsmall, hcapital⟩ := he hsign
      constructor
      · intro heq
        exact hsmall (by rw [Option.some.inj heq]; rfl)
      · intro heq
        exact hcapital (by rw [Option.some.inj heq]; rfl)
  rw [hboth, Option.map_some, hmultiple]

/-- No number starts at a dash that none started at. -/
theorem number_dash_sign (ho : isArithmetic o) (h : number ('-' :: t) = none) :
    number ('-' :: (t ++ o :: more)) = none := by
  have hdigit : Char.isDigit o = false := not_of_isArithmetic ho rfl
  simp only [number, optional, one, beq_self_eq_true, if_true, Option.getD_some,
    Option.map_eq_none_iff, Option.or_eq_none_iff, decimal] at h ⊢
  rw [hexadecimal_sign ho, h.1, (some1_sign hdigit : Recogniser.Extends _ t (o :: more)), h.2]
  exact ⟨rfl, rfl⟩

/-! ### Variables, parameters and types -/

theorem qualifier_sign (ho : isArithmetic o) : Recogniser.Extends qualifier t (o :: more) :=
  afterChar_extends (c := ':') (fun _ => rfl) (fun _ t h => qualifier_cons_of_ne t h) rfl
    (ne_of_isArithmetic ho rfl) fun _ _ => some1_sign (not_of_isArithmetic ho rfl)

theorem variableName_sign (ho : isArithmetic o) (h : variableName t = some rest) :
    variableName (t ++ o :: more) = some (rest ++ o :: more) := by
  have hword : isWord o = false := not_of_isArithmetic ho rfl
  unfold variableName at h
  split at h
  · next inner =>
    have hne : inner.dropWhile (· != '\x7d') ≠ [] := fun hnil => by
      rw [hnil] at h
      cases h
    show one _ ((inner ++ o :: more).dropWhile _) = _
    rw [dropWhile_sign fun hnil => absurd hnil hne, one_sign fun hnil => absurd hnil hne, h]
    rfl
  · next c inner hbrace =>
    show variableName ('$' :: c :: (inner ++ o :: more)) = _
    rw [variableName.eq_def]
    split
    · next heq => exact absurd (List.cons.inj (List.cons.inj heq).2).1 hbrace
    · next heq =>
      obtain ⟨rfl, rfl⟩ := List.cons.inj (List.cons.inj heq).2
      by_cases hc : isWordStart c
      · rw [if_pos hc, Option.some.injEq] at h
        rw [if_pos hc, dropWhile_sign fun _ => hword, optional_extends (qualifier_sign ho), h]
      · rw [if_neg hc, Option.ite_none_right_eq_some, Option.some.injEq] at h
        rw [if_neg hc, if_pos h.1, h.2]
    · next hno => exact absurd rfl (hno c (inner ++ o :: more))
  · exact absurd h.symm (Option.some_ne_none _)

theorem splat_sign (ho : isArithmetic o) : Recogniser.Extends splat t (o :: more) :=
  afterChar_extends (c := '@') (fun _ => rfl) (fun _ t h => splat_cons_of_ne t h) rfl
    (ne_of_isArithmetic ho rfl) fun _ _ => word_sign ho fun _ => not_of_isArithmetic ho rfl

/-- A parameter goes on with a dash and with no other sign. -/
theorem parameter_sign (ho : isArithmetic o) (hne : t ≠ [])
    (hdash : parameter t = some [] → o ≠ '-') : Recogniser.Extends parameter t (o :: more) := by
  cases t with
  | nil => exact absurd rfl hne
  | cons c t =>
    by_cases hc : c = '-'
    · subst hc
      have hname : Recogniser.Extends (word fun c => isWord c || c == '-') t (o :: more) := by
        refine word_sign ho fun hnil => ?_
        have hsign : o ≠ '-' := hdash (by rw [parameter, hnil]; rfl)
        simp only [not_of_isArithmetic (p := isWord) ho rfl, Bool.false_or, beq_eq_false_iff_ne]
        exact hsign
      unfold Recogniser.Extends
      rw [List.cons_append, parameter, parameter, hname]
      cases word (fun c => isWord c || c == '-') t with
      | none => rfl
      | some name =>
        exact congrArg some (optional_extends (one_sign fun _ =>
          not_of_isArithmetic (p := (· == ':')) ho rfl))
    · rw [Recogniser.Extends, List.cons_append, parameter_cons_of_ne _ hc, parameter_cons_of_ne _ hc,
        Option.map_none]

theorem typeLiteral_sign (ho : isArithmetic o) :
    Recogniser.Extends typeLiteral t (o :: more) := by
  have hbrackets : o ∉ ['[', ']'] := by
    simpa using not_of_isArithmetic (p := ['[', ']'].contains) ho rfl
  refine afterChar_extends (c := '[') (fun _ => rfl) (fun _ t h => typeLiteral_cons_of_ne t h) rfl
    (ne_of_isArithmetic ho rfl) fun back _ => ?_
  have hname : Recogniser.Extends (word fun c => isWord c || c == '.') back (o :: more) :=
    word_sign ho fun _ => not_of_isArithmetic (p := fun c => isWord c || c == '.') ho rfl
  change (word (fun c => isWord c || c == '.') (back ++ o :: more)).bind _ = _
  rw [hname]
  change _ = ((word (fun c => isWord c || c == '.') back).bind _).map _
  cases word (fun c => isWord c || c == '.') back with
  | none => rfl
  | some name =>
    rw [Option.map_some, Option.bind_some, Option.bind_some,
      optional_extends (dropHead?_sign hbrackets)]
    exact one_sign fun _ => not_of_isArithmetic (p := (· == ']')) ho rfl

end Pattern

/-- No letter starts an operand. -/
theorem TokenKind.isWordStart_of_startsOperand {kind : TokenKind} {c : Char}
    (hk : kind.startsOperand) (h : kind.mayStart c) : Pattern.isWordStart c = false := by
  cases kind
  case number =>
    rw [Bool.eq_false_iff]
    intro hs
    rcases Bool.or_eq_true_iff.mp h with h | h
    · rw [beq_iff_eq.mp h] at hs
      cases hs
    · rw [Pattern.isDigit_of_isWordStart hs] at h
      cases h
  case operator =>
    have hall : ['+', '*', '/', '%', '!', '&', '<', '>', '-'].all
        fun d => !Pattern.isWordStart d := rfl
    simpa using List.all_eq_true.mp hall c (by simpa [mayStart] using h)
  all_goals first
    | exact absurd hk (by decide)
    | (rw [beq_iff_eq.mp h]; rfl)

namespace Token

variable {kind : TokenKind} {o : Char} {token rest more : Text}

/-! ### One token -/

/-- What a sign behind the text can change a token in it by is not there. -/
structure EndsBefore (kind : TokenKind) (rest : Text) (o : Char) : Prop where
  /-- A token can start behind it, or nothing is there. -/
  behind : rest ≠ [] → (next? rest).isSome
  comment : kind.isComment = false
  /-- Blanks end at something that is none. -/
  blank : kind = .blank → ∃ c back, rest = c :: back ∧ TokenKind.blank.mayStart c = false
  /-- What could open a comment is not followed by the rest of the mark. -/
  open_ : kind = .operator → rest.head? ≠ some '#'
  /-- A name and a parameter go on with a dash. -/
  dash : o = '-' → kind.isName ∨ kind = .parameter → rest ≠ []
  /-- Digits and the letter of an exponent go on with the sign of one. -/
  exponent : kind = .number → o = '+' ∨ o = '-' → rest ≠ ['e'] ∧ rest ≠ ['E']

theorem head?_sign {c : Char} (hc : o ≠ c) (h : rest.head? ≠ some c) :
    (rest ++ o :: more).head? ≠ some c := by
  cases rest with
  | nil => simpa using hc
  | cons d rest => exact h

theorem recognise_before_sign (ho : Pattern.isArithmetic o) (hname : ¬ kind.isName)
    (hends : EndsBefore kind rest o) (h : kind.recognise (token ++ rest) = some rest) :
    kind.recognise (token ++ (rest ++ o :: more)) = some (rest ++ o :: more) := by
  have hextends {r : Recogniser} (hr : r (token ++ rest) = some rest)
      (he : Recogniser.Extends r (token ++ rest) (o :: more)) :
      r (token ++ (rest ++ o :: more)) = some (rest ++ o :: more) := by
    rw [← List.append_assoc, he, hr, Option.map_some]
  have hne : token ++ rest ≠ [] := fun hnil => by
    rw [hnil] at h
    exact absurd (kind.recognise_takes _ _ h).2 (Nat.not_lt_zero _)
  cases kind
  all_goals try exact absurd rfl hname
  case blank =>
    obtain ⟨c, back, rfl, hc⟩ := hends.blank rfl
    have hblanks : Pattern.blanks (token ++ (c :: back ++ [])) = some (c :: back ++ []) := by
      rw [List.append_nil]
      exact h
    exact blanks_moved hc hblanks
  case blockComment | comment => exact absurd hends.comment (by decide)
  case hereDouble => exact Pattern.hereString_moved _ h
  case hereSingle => exact Pattern.hereString_moved _ h
  case doubleQuoted =>
    exact doubleQuoted_moved (head?_sign (Pattern.ne_of_isArithmetic ho rfl)) hends.behind h
  case singleQuoted =>
    exact singleQuoted_moved (head?_sign (Pattern.ne_of_isArithmetic ho rfl)) hends.behind h
  case splat => exact hextends h (Pattern.splat_sign ho)
  case variableName =>
    rw [← List.append_assoc]
    exact Pattern.variableName_sign ho h
  case number =>
    rw [← List.append_assoc]
    exact Pattern.number_sign ho h (hends.exponent rfl)
  case typeLiteral => exact hextends h (Pattern.typeLiteral_sign ho)
  case parameter =>
    refine hextends h (Pattern.parameter_sign ho hne fun hnil hdash => ?_)
    exact hends.dash hdash (.inr rfl) (Option.some.inj (h.symm.trans hnil))
  case operator => exact hextends h (Pattern.one_sign fun hnil => absurd hnil hne)
  case unknown => exact absurd h.symm (Option.some_ne_none _)
  all_goals exact Pattern.mark_found _ h

theorem blockComment_of_head? {c : Char} {t : Text} (h : t.head? ≠ some '#') :
    Pattern.blockComment (c :: t) = none := by
  unfold Pattern.blockComment
  split
  · next heq => exact absurd (by rw [(List.cons.inj heq).2]; rfl) h
  · rfl

/-- **A token is read again when a sign is put behind the text**, unless the sign can belong to
it. -/
theorem next?_before_sign (ho : Pattern.isArithmetic o) (hends : EndsBefore kind rest o)
    (h : next? (token ++ rest) = some (kind, rest)) :
    next? (token ++ (rest ++ o :: more)) = some (kind, rest ++ o :: more) := by
  cases token with
  | nil => exact absurd (next?_takes h).2.2 (Nat.lt_irrefl _)
  | cons c token =>
    by_cases hname : kind.isName
    · refine next?_word_again hname h fun hdrop => ?_
      rw [← List.append_assoc, Pattern.dropWhile_sign, hdrop]
      exact fun hnil => Pattern.isBare_sign ho fun hdash =>
        hends.dash hdash (.inl hname) (hdrop.symm.trans hnil)
    · obtain ⟨hstart, hrec⟩ := recognise_of_next? h
      have hfound := @recognise_before_sign kind o (c :: token) rest more ho hname hends hrec
      have hsingle (hk : kind = .operator) : token = [] := by
        subst hk
        simp only [TokenKind.recognise, Pattern.operator, Pattern.one,
          Option.ite_none_right_eq_some, Option.some.injEq] at hrec
        exact List.append_left_eq_self.mp hrec.2
      rw [List.cons_append] at h hfound ⊢
      refine next?_of_recognise hname hstart hfound ?_ ?_ ?_
      · rintro rfl
        have hc : c = '[' := by simpa [TokenKind.mayStart] using hstart
        subst hc
        have hmissed : Recogniser.Extends Pattern.typeLiteral ('[' :: (token ++ rest))
            (o :: more) := Pattern.typeLiteral_sign ho
        rwa [Recogniser.Extends, missed_of_next?_bracket h, Option.map_none, List.cons_append,
          List.append_assoc] at hmissed
      · rintro hk rfl
        have hhash := @head?_sign o rest more _ (Pattern.ne_of_isArithmetic ho rfl) (hends.open_ hk)
        rw [hsingle hk]
        exact blockComment_of_head? hhash
      · rintro hk rfl
        subst hk
        rw [hsingle rfl, List.nil_append] at h ⊢
        obtain ⟨hp, hn⟩ := missed_of_next?_dash h
        refine ⟨?_, Pattern.number_dash_sign ho hn⟩
        have hmissed : Recogniser.Extends Pattern.parameter ('-' :: rest) (o :: more) :=
          Pattern.parameter_sign ho (List.cons_ne_nil _ _) fun hnil =>
            absurd (hp.symm.trans hnil).symm (Option.some_ne_none _)
        rwa [Recogniser.Extends, hp, Option.map_none] at hmissed

/-! ### The sign itself -/

/-- A dash is an operator before what is neither a letter nor a digit. -/
theorem next?_dash_of_head? (hword : ∀ c ∈ rest.head?, Pattern.isWordStart c = false)
    (hdigit : ∀ c ∈ rest.head?, c.isDigit = false) : next? ('-' :: rest) = some (.operator, rest) := by
  cases rest with
  | nil => rfl
  | cons c rest =>
    have hnot := hdigit c rfl
    refine next?_dash ?_ ?_
    · simp [Pattern.parameter, Pattern.word, hword c rfl]
    · simp [Pattern.number, Pattern.optional, Pattern.one, Pattern.hexadecimal_cons_eq_none hnot,
        Pattern.decimal_cons_eq_none hnot]

/-- **A sign of arithmetic is an operator**, a dash if neither a letter nor a digit follows. -/
theorem next?_arithmetic (ho : Pattern.isArithmetic o)
    (hword : ∀ c ∈ rest.head?, Pattern.isWordStart c = false)
    (hdigit : o = '-' → ∀ c ∈ rest.head?, c.isDigit = false) :
    next? (o :: rest) = some (.operator, rest) := by
  rcases Pattern.cases_of_isArithmetic ho with rfl | rfl | rfl | rfl | rfl
  case inr.inl => exact next?_dash_of_head? hword (hdigit rfl)
  all_goals exact next?_of_first rfl rfl

end Token

namespace Piece

variable {o : Char} {more : Text} {pieces rest : List Piece} {piece : Piece}

/-! ### Many tokens

The sign stands behind the last piece, but the text is longer for all of them.  What it
may do there depends on the last two, so that the condition holds of every end of the
pieces.
-/

/-- Pieces that can have a sign right behind them: they are no comments and end in no blanks, a dash
stands neither behind a name nor behind a parameter, and the sign of an exponent not behind a
number and a name. -/
structure EndBefore (pieces : List Piece) (o : Char) : Prop where
  sign : Pattern.isArithmetic o
  comments : ∀ piece ∈ pieces, piece.kind.isComment = false
  blank : ∀ last ∈ pieces.getLast?, last.kind ≠ .blank
  dash : o = '-' → ∀ last ∈ pieces.getLast?, ¬ (last.kind.isName ∨ last.kind = .parameter)
  exponent : ∀ front first last, pieces = front ++ [first, last] → first.kind = .number →
    ¬ last.kind.isName

theorem EndBefore.tail (h : EndBefore (piece :: rest) o) : EndBefore rest o where
  sign := h.sign
  comments other hother := h.comments other (List.mem_cons_of_mem _ hother)
  blank last hlast := h.blank last (by rw [List.getLast?_cons, hlast]; rfl)
  dash ho last hlast := h.dash ho last (by rw [List.getLast?_cons, hlast]; rfl)
  exponent front first last heq := h.exponent (piece :: front) first last (by rw [heq]; rfl)

/-- A single letter is the text of a name alone. -/
theorem eq_name_of_textOf {c : Char} (h : Lexes pieces []) (htext : textOf pieces = [c])
    (hc : Token.next? [c] = some (.bareword, [])) : ∃ name, pieces = [name] ∧ name.kind.isName := by
  cases pieces with
  | nil => cases htext
  | cons name others =>
    obtain ⟨d, text, hd⟩ := List.exists_cons_of_ne_nil h.1.text_ne_nil
    rw [textOf_cons, hd, List.cons_append, List.cons.injEq, List.append_eq_nil_iff] at htext
    obtain ⟨rfl, rfl, hothers⟩ := htext
    have hname := h.1
    rw [IsNext, hothers, hd, List.append_nil, List.append_nil, hc] at hname
    cases others with
    | nil => exact ⟨name, rfl, by rw [← (Prod.mk.inj (Option.some.inj hname)).1]; rfl⟩
    | cons other others =>
      rw [textOf_cons, List.append_eq_nil_iff] at hothers
      exact absurd hothers.1 h.2.1.text_ne_nil

/-- What is read without comments does not start with the mark of one. -/
theorem head?_ne_hash (h : Lexes pieces [])
    (hcomments : ∀ piece ∈ pieces, piece.kind.isComment = false) :
    (textOf pieces).head? ≠ some '#' := by
  cases pieces with
  | nil => exact Option.some_ne_none _ ∘ Eq.symm
  | cons next others =>
    intro hhash
    have hnext := h.1
    obtain ⟨c, text, hc⟩ := List.exists_cons_of_ne_nil hnext.text_ne_nil
    rw [textOf_cons, hc, List.cons_append, List.head?_cons, Option.some.injEq] at hhash
    rw [IsNext, hc, hhash, List.cons_append, Token.next?_hash, Option.some.injEq] at hnext
    have hcomment := hcomments next List.mem_cons_self
    rw [← (Prod.mk.inj hnext).1] at hcomment
    cases hcomment

/-- Pieces without comments are read again before what separates. -/
theorem lexes_before_separator (h : Lexes pieces [])
    (hcomments : ∀ piece ∈ pieces, piece.kind.isComment = false)
    (hblank : ∀ last ∈ pieces.getLast?, last.kind ≠ .blank) (hmore : more.Separates) :
    Lexes pieces more := by
  refine @lexes_moved pieces [] [] more (by rwa [List.append_nil, List.append_nil])
    ⟨hmore, fun front piece rest heq hk => ?_, fun _ last hlast => ⟨hblank last hlast, ?_⟩⟩
  · rw [List.append_nil]
    subst heq
    obtain ⟨hnext, hrest⟩ := ((lexes_append _ _ _).mp h).2
    rw [IsNext, hk] at hnext
    obtain ⟨c, hc, -⟩ := Token.blockComment_of_operator hnext
    have hhead := head?_ne_hash hrest fun p hp => hcomments p (by simp [hp])
    rw [hc]
    refine Token.blockComment_of_head? ?_
    cases hback : textOf rest with
    | nil => exact hmore.head?_ne (by decide)
    | cons d back => rwa [hback] at hhead
  · intro hk
    have hcomment := hcomments last (List.mem_of_getLast? hlast)
    rw [hk] at hcomment
    cases hcomment

theorem endsBefore_cons (h : Lexes (piece :: rest) []) (hends : EndBefore (piece :: rest) o) :
    Token.EndsBefore piece.kind (textOf rest) o where
  behind hne := by
    cases rest with
    | nil => exact absurd rfl hne
    | cons next others =>
      have hnext := h.2.1
      rw [IsNext, List.append_nil, ← textOf_cons] at hnext
      rw [hnext]
      rfl
  comment := hends.comments piece List.mem_cons_self
  blank hk := by
    cases rest with
    | nil => exact absurd hk (hends.blank piece rfl)
    | cons next others =>
      have hblank := h.1
      have hnext := h.2.1
      obtain ⟨c, text, hc⟩ := List.exists_cons_of_ne_nil hnext.text_ne_nil
      rw [IsNext, List.append_nil] at hblank hnext
      rw [hk] at hblank
      refine ⟨c, text ++ textOf others, by rw [textOf_cons, hc]; rfl, ?_⟩
      exact Token.mayStart_behind_blank hblank (by rw [textOf_cons, hc]; rfl) hnext
  open_ _ := head?_ne_hash h.2 hends.tail.comments
  dash ho hk hnil := by
    cases rest with
    | nil => exact hends.dash ho piece rfl hk
    | cons next others =>
      rw [textOf_cons, List.append_eq_nil_iff] at hnil
      exact h.2.1.text_ne_nil hnil.1
  exponent hk _ := by
    have hletter {c : Char} (hc : Token.next? [c] = some (.bareword, [])) : textOf rest ≠ [c] := by
      intro htext
      obtain ⟨name, rfl, hname⟩ := eq_name_of_textOf h.2 htext hc
      exact hends.exponent [] piece name rfl hk hname
    exact ⟨hletter rfl, hletter rfl⟩

/-- **Pieces are read again when a sign is put right behind them.** -/
theorem lexes_before_sign (h : Lexes pieces []) (hends : EndBefore pieces o) :
    Lexes pieces (o :: more) := by
  induction pieces with
  | nil => trivial
  | cons piece rest ih =>
    refine ⟨?_, ih h.2 hends.tail⟩
    have hnext := h.1
    rw [IsNext, List.append_nil] at hnext
    exact Token.next?_before_sign hends.sign (endsBefore_cons h hends) hnext

end Piece

end DesiredState

/-
Every token takes something.

A recogniser gives what follows a token, and that is always a proper end of the text
it was asked about.  So a source is read in as many steps as it has characters, and
cutting it where tokens end loses nothing.
-/
import DesiredState.Token.Scan

namespace DesiredState

/-- What a recogniser leaves is a proper end of the text. -/
def Recogniser.Takes (r : Recogniser) : Prop :=
  ∀ t rest, r t = some rest → rest <:+ t ∧ rest.length < t.length

namespace Pattern

/-! ### Parts of a token -/

theorem dropWhile_suffix (p : Char → Bool) (t : Text) : t.dropWhile p <:+ t :=
  List.dropWhile_suffix p

/-- A recogniser that goes on after a first character takes something. -/
theorem suffix_cons {rest t : Text} (c : Char) (h : rest <:+ t) :
    rest <:+ c :: t ∧ rest.length < (c :: t).length := by
  refine ⟨h.trans (List.suffix_cons c t), ?_⟩
  have := h.length_le
  simp only [List.length_cons]
  omega

theorem one_takes (p : Char → Bool) : Recogniser.Takes (one p) := by
  intro t rest h
  cases t with
  | nil => simp [one] at h
  | cons c t =>
    simp only [one, Option.ite_none_right_eq_some, Option.some.injEq] at h
    obtain ⟨-, rfl⟩ := h
    exact suffix_cons c List.suffix_rfl

theorem some1_takes (p : Char → Bool) : Recogniser.Takes (some1 p) := by
  intro t rest h
  cases t with
  | nil => simp [some1] at h
  | cons c t =>
    simp only [some1, Option.ite_none_right_eq_some, Option.some.injEq] at h
    obtain ⟨-, rfl⟩ := h
    exact suffix_cons c (dropWhile_suffix p t)

theorem word_takes (p : Char → Bool) : Recogniser.Takes (word p) := by
  intro t rest h
  cases t with
  | nil => simp [word] at h
  | cons c t =>
    simp only [word, Option.ite_none_right_eq_some, Option.some.injEq] at h
    obtain ⟨-, rfl⟩ := h
    exact suffix_cons c (dropWhile_suffix p t)

theorem dropHead?_suffix {head t rest : Text} (h : Text.dropHead? head t = some rest) :
    rest <:+ t := by
  rw [Text.eq_append_of_dropHead? h]
  exact List.suffix_append head rest

theorem mark_takes {m : Text} (hm : m ≠ []) : Recogniser.Takes (mark m) := by
  intro t rest h
  refine ⟨dropHead?_suffix h, ?_⟩
  rw [Text.eq_append_of_dropHead? h]
  have := List.length_pos_iff.mpr hm
  simp only [List.length_append]
  omega

/-- What may be missing leaves an end of the text. -/
theorem optional_suffix {r : Recogniser} (hr : Recogniser.Takes r) (t : Text) :
    optional r t <:+ t := by
  unfold optional
  cases h : r t with
  | none => exact List.suffix_rfl
  | some rest => exact (hr t rest h).1

theorem repeated_suffix {r : Recogniser} (hr : Recogniser.Takes r) (n : Nat) (t : Text) :
    repeated r n t <:+ t := by
  induction n generalizing t with
  | zero => exact List.suffix_rfl
  | succ n ih =>
    unfold repeated
    cases h : r t with
    | none => exact List.suffix_rfl
    | some rest => exact (ih rest).trans (hr t rest h).1

theorem afterFirst?_suffix {m t rest : Text} (h : Text.afterFirst? m t = some rest) :
    rest <:+ t := by
  induction t with
  | nil => exact dropHead?_suffix h
  | cons c t ih =>
    simp only [Text.afterFirst?] at h
    cases hd : Text.dropHead? m (c :: t) with
    | none => rw [hd] at h; exact (ih h).trans (List.suffix_cons c t)
    | some after =>
      rw [hd, Option.some.injEq] at h
      rw [← h]
      exact dropHead?_suffix hd

theorem skipBlanks_suffix (t : Text) : skipBlanks t <:+ t := by
  fun_induction skipBlanks t with
  | case1 rest ih | case2 rest ih | case3 rest ih | case4 rest ih =>
    exact ih.trans (List.suffix_cons _ _)
  | case5 rest ih => exact ih.trans ((List.suffix_cons _ _).trans (List.suffix_cons _ _))
  | case6 rest ih =>
    exact ih.trans ((List.suffix_cons _ _).trans
      ((List.suffix_cons _ _).trans (List.suffix_cons _ _)))
  | case7 t => exact List.suffix_rfl

theorem closeDouble_takes : Recogniser.Takes closeDouble := by
  intro t
  fun_induction closeDouble t with
  | case1 => simp
  | case2 => simp
  | case3 c rest ih =>
    intro after h
    have := ih after h
    exact suffix_cons _ (this.1.trans (List.suffix_cons _ _))
  | case4 rest ih =>
    intro after h
    cases hr : closeDouble rest with
    | none =>
      rw [hr, Option.none_or, Option.some.injEq] at h
      rw [← h]
      exact suffix_cons _ List.suffix_rfl
    | some r =>
      rw [hr, Option.some_or, Option.some.injEq] at h
      rw [← h]
      exact suffix_cons _ ((ih r hr).1.trans (List.suffix_cons _ _))
  | case5 rest hq =>
    intro after h
    rw [Option.some.injEq] at h
    rw [← h]
    exact suffix_cons _ List.suffix_rfl
  | case6 c rest _ _ _ _ ih =>
    intro after h
    exact suffix_cons _ (ih after h).1

theorem closeSingle_takes : Recogniser.Takes closeSingle := by
  intro t
  fun_induction closeSingle t with
  | case1 => simp
  | case2 rest ih =>
    intro after h
    cases hr : closeSingle rest with
    | none =>
      rw [hr, Option.none_or, Option.some.injEq] at h
      rw [← h]
      exact suffix_cons _ List.suffix_rfl
    | some r =>
      rw [hr, Option.some_or, Option.some.injEq] at h
      rw [← h]
      exact suffix_cons _ ((ih r hr).1.trans (List.suffix_cons _ _))
  | case3 rest hq =>
    intro after h
    rw [Option.some.injEq] at h
    rw [← h]
    exact suffix_cons _ List.suffix_rfl
  | case4 c rest _ _ ih =>
    intro after h
    exact suffix_cons _ (ih after h).1

/-! ### Tokens

Of each kind it is enough that its first part takes something, since what follows never
gives anything back.
-/

theorem blanks_takes : Recogniser.Takes blanks := by
  intro t rest h
  unfold blanks at h
  split at h
  all_goals first
    | (rw [Option.some.injEq] at h
       rw [← h])
    | simp at h
  all_goals first
    | exact suffix_cons _ (skipBlanks_suffix _)
    | exact suffix_cons _ ((skipBlanks_suffix _).trans (List.suffix_cons _ _))
    | exact suffix_cons _ ((skipBlanks_suffix _).trans
        ((List.suffix_cons _ _).trans (List.suffix_cons _ _)))

theorem lineComment_takes : Recogniser.Takes lineComment := by
  intro t rest h
  unfold lineComment at h
  split at h
  · rw [Option.some.injEq] at h
    rw [← h]
    exact suffix_cons _ (dropWhile_suffix _ _)
  · simp at h

theorem blockComment_takes : Recogniser.Takes blockComment := by
  intro t rest h
  unfold blockComment at h
  split at h
  · exact suffix_cons _ ((afterFirst?_suffix h).trans (List.suffix_cons _ _))
  · simp at h

theorem doubleQuoted_takes : Recogniser.Takes doubleQuoted := by
  intro t rest h
  unfold doubleQuoted at h
  split at h
  · exact suffix_cons _ (closeDouble_takes _ _ h).1
  · simp at h

theorem singleQuoted_takes : Recogniser.Takes singleQuoted := by
  intro t rest h
  unfold singleQuoted at h
  split at h
  · exact suffix_cons _ (closeSingle_takes _ _ h).1
  · simp at h

theorem lineBreak_suffix {t rest : Text} (h : lineBreak t = some rest) : rest <:+ t := by
  unfold lineBreak at h
  split at h
  · rw [Option.some.injEq] at h
    rw [← h]
    exact List.suffix_cons _ _
  · rw [Option.some.injEq] at h
    rw [← h]
    exact (List.suffix_cons _ _).trans (List.suffix_cons _ _)
  · simp at h

theorem hereString_takes (quote : Char) : Recogniser.Takes (hereString quote) := by
  intro t rest h
  unfold hereString at h
  split at h
  · next q t =>
    rw [Option.ite_none_right_eq_some, Option.bind_eq_some_iff] at h
    obtain ⟨-, body, hb, hrest⟩ := h
    have hbody : body <:+ t := (lineBreak_suffix hb).trans (dropWhile_suffix _ _)
    exact suffix_cons _ ((afterFirst?_suffix hrest).trans (hbody.trans (List.suffix_cons _ _)))
  · simp at h

theorem fraction_takes : Recogniser.Takes fraction := by
  intro t rest h
  unfold fraction at h
  split at h
  · exact suffix_cons _ (some1_takes _ _ _ h).1
  · simp at h

theorem exponent_takes : Recogniser.Takes exponent := by
  intro t rest h
  unfold exponent at h
  split at h
  · rw [Option.ite_none_right_eq_some] at h
    exact suffix_cons _ ((some1_takes _ _ _ h.2).1.trans (optional_suffix (one_takes _) _))
  · simp at h

theorem multiple_takes : Recogniser.Takes multiple := by
  intro t rest h
  unfold multiple at h
  split at h
  · rw [Option.ite_none_right_eq_some, Option.some.injEq] at h
    rw [← h.2]
    exact suffix_cons _ (List.suffix_cons _ _)
  · simp at h

theorem hexadecimal_takes : Recogniser.Takes hexadecimal := by
  intro t rest h
  unfold hexadecimal at h
  split at h
  · rw [Option.ite_none_right_eq_some] at h
    exact suffix_cons _ ((some1_takes _ _ _ h.2).1.trans (List.suffix_cons _ _))
  · simp at h

theorem decimal_takes : Recogniser.Takes decimal := by
  intro t rest h
  simp only [decimal, Option.map_eq_some_iff] at h
  obtain ⟨digits, hd, rfl⟩ := h
  have hdigits := some1_takes _ _ _ hd
  have hrest := (optional_suffix exponent_takes (repeated fraction digits.length digits)).trans
    (repeated_suffix fraction_takes digits.length digits)
  exact ⟨hrest.trans hdigits.1, Nat.lt_of_le_of_lt hrest.length_le hdigits.2⟩

theorem number_takes : Recogniser.Takes number := by
  intro t rest h
  simp only [number, Option.map_eq_some_iff] at h
  obtain ⟨digits, hd, rfl⟩ := h
  have hsign := optional_suffix (one_takes (· == '-')) t
  have hdigits : digits <:+ t ∧ digits.length < t.length := by
    have hlen := hsign.length_le
    rcases Option.or_eq_some_iff.mp hd with hx | ⟨-, hx⟩
    · have := hexadecimal_takes _ _ hx
      exact ⟨this.1.trans hsign, Nat.lt_of_lt_of_le this.2 hlen⟩
    · have := decimal_takes _ _ hx
      exact ⟨this.1.trans hsign, Nat.lt_of_lt_of_le this.2 hlen⟩
  have hrest := optional_suffix multiple_takes digits
  exact ⟨hrest.trans hdigits.1, Nat.lt_of_le_of_lt hrest.length_le hdigits.2⟩

theorem qualifier_takes : Recogniser.Takes qualifier := by
  intro t rest h
  unfold qualifier at h
  split at h
  · exact suffix_cons _ (some1_takes _ _ _ h).1
  · simp at h

theorem variableName_takes : Recogniser.Takes variableName := by
  intro t rest h
  unfold variableName at h
  split at h
  · have := (one_takes _ _ _ h).1.trans (dropWhile_suffix _ _)
    exact suffix_cons _ (this.trans (List.suffix_cons _ _))
  · next c t _ =>
    by_cases hw : isWordStart c
    · rw [if_pos hw, Option.some.injEq] at h
      rw [← h]
      have := (optional_suffix qualifier_takes (t.dropWhile isWord)).trans (dropWhile_suffix _ _)
      exact suffix_cons _ (this.trans (List.suffix_cons _ _))
    · rw [if_neg hw, Option.ite_none_right_eq_some, Option.some.injEq] at h
      rw [← h.2]
      exact suffix_cons _ (List.suffix_cons _ _)
  · simp at h

theorem splat_takes : Recogniser.Takes splat := by
  intro t rest h
  unfold splat at h
  split at h
  · exact suffix_cons _ (word_takes _ _ _ h).1
  · simp at h

theorem parameter_takes : Recogniser.Takes parameter := by
  intro t rest h
  unfold parameter at h
  split at h
  · rw [Option.map_eq_some_iff] at h
    obtain ⟨name, hn, rfl⟩ := h
    exact suffix_cons _ ((optional_suffix (one_takes _) _).trans (word_takes _ _ _ hn).1)
  · simp at h

theorem typeLiteral_takes : Recogniser.Takes typeLiteral := by
  intro t rest h
  unfold typeLiteral at h
  split at h
  · rw [Option.bind_eq_some_iff] at h
    obtain ⟨name, hn, hrest⟩ := h
    have hm : Recogniser.Takes (Text.dropHead? ['[', ']']) := mark_takes (by decide)
    have := (one_takes _ _ _ hrest).1.trans (optional_suffix hm name)
    exact suffix_cons _ (this.trans (word_takes _ _ _ hn).1)
  · simp at h

theorem dropWord?_suffix {w t rest : Text} (h : Text.dropWord? w t = some rest) : rest <:+ t := by
  fun_induction Text.dropWord? w t with
  | case1 t => exact (Option.some.inj h) ▸ List.suffix_rfl
  | case2 => simp at h
  | case3 w c t ih => exact (ih h).trans (List.suffix_cons _ _)
  | case4 => simp at h

theorem keyword_takes {c : Char} {w : Text} : Recogniser.Takes (keyword (c :: w)) := by
  intro t rest h
  cases t with
  | nil => simp [keyword, Text.dropWord?] at h
  | cons d t =>
    simp only [keyword, Option.filter_eq_some_iff, Text.dropWord?,
      Option.ite_none_right_eq_some] at h
    exact suffix_cons _ (dropWord?_suffix h.1.2)

end Pattern

/-- Every kind takes something. -/
theorem TokenKind.recognise_takes (kind : TokenKind) : Recogniser.Takes kind.recognise := by
  cases kind with
  | blank => exact Pattern.blanks_takes
  | blockComment => exact Pattern.blockComment_takes
  | comment => exact Pattern.lineComment_takes
  | hereDouble => exact Pattern.hereString_takes _
  | hereSingle => exact Pattern.hereString_takes _
  | doubleQuoted => exact Pattern.doubleQuoted_takes
  | singleQuoted => exact Pattern.singleQuoted_takes
  | splat => exact Pattern.splat_takes
  | variableName => exact Pattern.variableName_takes
  | typeLiteral => exact Pattern.typeLiteral_takes
  | parameter => exact Pattern.parameter_takes
  | number => exact Pattern.number_takes
  | operator => exact Pattern.one_takes _
  | configuration => exact Pattern.keyword_takes
  | node => exact Pattern.keyword_takes
  | param => exact Pattern.keyword_takes
  | bareword => exact Pattern.word_takes _
  | unknown => intro t rest h; simp [recognise] at h
  | _ => exact Pattern.mark_takes (by decide)

namespace Token

/-- A token is a kind of the order, and takes something. -/
theorem next?_takes {t rest : Text} {kind : TokenKind} (h : next? t = some (kind, rest)) :
    kind ∈ TokenKind.order ∧ rest <:+ t ∧ rest.length < t.length := by
  obtain ⟨k, hk, hm⟩ := List.exists_of_findSome?_eq_some h
  obtain ⟨r, hr, he⟩ := Option.map_eq_some_iff.mp hm
  obtain ⟨rfl, rfl⟩ := Prod.mk.injEq .. ▸ he
  exact ⟨hk, k.recognise_takes t r hr⟩

/-- No token is of unknown kind. -/
theorem next?_ne_unknown {t rest : Text} {kind : TokenKind} (h : next? t = some (kind, rest)) :
    kind ≠ .unknown := by
  rintro rfl
  exact absurd (next?_takes h).1 (by decide)

end Token

end DesiredState

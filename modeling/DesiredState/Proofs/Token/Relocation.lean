/-
Moving a stretch of a source.

Pieces of a source that is read without unknown tokens are read again when they are
followed by nothing, a line feed or a space instead of what followed them.  The stretch has to end with a
token that is not blank, since a run of blanks would go on, and must hold no open block
comment, which would find its end in the other text.
-/
import DesiredState.Proofs.Token.Locality

namespace DesiredState

namespace Pattern

/-! ### Strings

A quote directly behind a string would belong to it.  A string that was closed although
one stands there was closed for want of another, and that is no longer so before another
text.
-/

/-- A double-quoted string that is followed by another quote was closed for want of a later one,
so that no string starts at the quote. -/
theorem closeDouble_eq_none {t rest : Text} (h : closeDouble t = some ('"' :: rest)) :
    closeDouble rest = none := by
  fun_induction closeDouble t with
  | case1 => exact absurd h.symm (Option.some_ne_none _)
  | case2 => exact absurd h.symm (Option.some_ne_none _)
  | case3 c t ih => exact ih h
  | case4 t ih =>
    cases hr : closeDouble t with
    | none =>
      rw [hr, Option.none_or, Option.some.injEq, List.cons.injEq] at h
      rw [← h.2]
      exact hr
    | some r =>
      rw [hr, Option.some_or] at h
      exact ih (hr.trans h)
  | case5 t hq =>
    rw [Option.some.injEq] at h
    exact absurd h (fun he => hq rest he)
  | case6 c t _ _ _ _ ih => exact ih h

theorem closeSingle_eq_none {t rest : Text} (h : closeSingle t = some ('\'' :: rest)) :
    closeSingle rest = none := by
  fun_induction closeSingle t with
  | case1 => exact absurd h.symm (Option.some_ne_none _)
  | case2 t ih =>
    cases hr : closeSingle t with
    | none =>
      rw [hr, Option.none_or, Option.some.injEq, List.cons.injEq] at h
      rw [← h.2]
      exact hr
    | some r =>
      rw [hr, Option.some_or] at h
      exact ih (hr.trans h)
  | case3 t hq =>
    rw [Option.some.injEq] at h
    exact absurd h (fun he => hq rest he)
  | case4 c t _ _ ih => exact ih h

/-- A text is no end of itself after more characters. -/
theorem cons_append_ne {c : Char} {token behind : Text} : c :: (token ++ behind) ≠ behind := by
  intro h
  have := congrArg List.length h
  rw [List.length_cons, List.length_append] at this
  omega

theorem closeDouble_cons {c : Char} (t : Text) (hb : c ≠ '`') (hq : c ≠ '"') :
    closeDouble (c :: t) = closeDouble t := by
  rw [closeDouble.eq_def]
  split <;> simp_all

theorem closeDouble_quote {t : Text} (h : t.head? ≠ some '"') :
    closeDouble ('"' :: t) = some t := by
  rw [closeDouble]
  rintro rest rfl
  exact h rfl

theorem closeSingle_cons {c : Char} (t : Text) (hq : c ≠ '\'') :
    closeSingle (c :: t) = closeSingle t := by
  rw [closeSingle.eq_def]
  split <;> simp_all

theorem closeSingle_quote {t : Text} (h : t.head? ≠ some '\'') :
    closeSingle ('\'' :: t) = some t := by
  rw [closeSingle]
  rintro rest rfl
  exact h rfl

/-- A closing quote that is not followed by a quote closes the string whatever follows. -/
theorem closeDouble_append {behind behind' : Text} (hb' : behind'.head? ≠ some '"') :
    ∀ (n : Nat) (token : Text), token.length ≤ n → closeDouble (token ++ behind) = some behind →
      closeDouble (token ++ behind') = some behind' := by
  intro n
  induction n with
  | zero =>
    intro token hn h
    rw [List.eq_nil_of_length_eq_zero (Nat.le_zero.mp hn)] at h
    exact absurd (closeDouble_takes _ _ h).2 (Nat.lt_irrefl _)
  | succ n ih =>
    intro token hn h
    cases token with
    | nil => exact absurd (closeDouble_takes _ _ h).2 (Nat.lt_irrefl _)
    | cons c token =>
      rw [List.cons_append] at h ⊢
      rw [List.length_cons] at hn
      by_cases hc : c = '`'
      · subst hc
        cases token with
        | nil =>
          exfalso
          cases behind with
          | nil => exact absurd h.symm (Option.some_ne_none _)
          | cons d t =>
            have ht : closeDouble t = some (d :: t) := h
            have := (closeDouble_takes _ _ ht).2
            rw [List.length_cons] at this
            omega
        | cons d token =>
          rw [List.cons_append, closeDouble] at h ⊢
          exact ih token (by rw [List.length_cons] at hn; omega) h
      by_cases hq : c = '"'
      · subst hq
        cases token with
        | nil => exact closeDouble_quote hb'
        | cons d token =>
          by_cases hd : d = '"'
          · subst hd
            rw [List.cons_append, closeDouble] at h ⊢
            cases hr : closeDouble (token ++ behind) with
            | none =>
              rw [hr, Option.none_or, Option.some.injEq] at h
              exact absurd h cons_append_ne
            | some rest =>
              rw [hr, Option.some_or] at h
              rw [ih token (by rw [List.length_cons] at hn; omega) (hr.trans h), Option.some_or]
          · have hhead : (d :: token ++ behind).head? ≠ some '"' := by simpa using hd
            rw [closeDouble_quote hhead, Option.some.injEq] at h
            exact absurd h cons_append_ne
      · rw [closeDouble_cons _ hc hq] at h ⊢
        exact ih token (by omega) h

theorem closeSingle_append {behind behind' : Text} (hb' : behind'.head? ≠ some '\'') :
    ∀ (n : Nat) (token : Text), token.length ≤ n → closeSingle (token ++ behind) = some behind →
      closeSingle (token ++ behind') = some behind' := by
  intro n
  induction n with
  | zero =>
    intro token hn h
    rw [List.eq_nil_of_length_eq_zero (Nat.le_zero.mp hn)] at h
    exact absurd (closeSingle_takes _ _ h).2 (Nat.lt_irrefl _)
  | succ n ih =>
    intro token hn h
    cases token with
    | nil => exact absurd (closeSingle_takes _ _ h).2 (Nat.lt_irrefl _)
    | cons c token =>
      rw [List.cons_append] at h ⊢
      rw [List.length_cons] at hn
      by_cases hq : c = '\''
      · subst hq
        cases token with
        | nil => exact closeSingle_quote hb'
        | cons d token =>
          by_cases hd : d = '\''
          · subst hd
            rw [List.cons_append, closeSingle] at h ⊢
            cases hr : closeSingle (token ++ behind) with
            | none =>
              rw [hr, Option.none_or, Option.some.injEq] at h
              exact absurd h cons_append_ne
            | some rest =>
              rw [hr, Option.some_or] at h
              rw [ih token (by rw [List.length_cons] at hn; omega) (hr.trans h), Option.some_or]
          · have hhead : (d :: token ++ behind).head? ≠ some '\'' := by simpa using hd
            rw [closeSingle_quote hhead, Option.some.injEq] at h
            exact absurd h cons_append_ne
      · rw [closeSingle_cons _ hq] at h ⊢
        exact ih token (by omega) h

/-! ### Marks that are looked for -/

/-- A first mark that ends where a text ends stands within that text. -/
theorem afterFirst?_eq_nil {m behind : Text} (hm : m ≠ []) {token : Text}
    (h : Text.afterFirst? m (token ++ behind) = some behind) :
    Text.afterFirst? m token = some [] := by
  have hpos := List.length_pos_iff.mpr hm
  induction token with
  | nil =>
    have := Token.length_le_of_afterFirst? h
    rw [List.nil_append] at this
    omega
  | cons c token ih =>
    have hlen := Token.length_le_of_afterFirst? h
    rw [List.cons_append, List.length_cons, List.length_append] at hlen
    have hle : m.length ≤ (c :: token).length := by rw [List.length_cons]; omega
    have happ := Token.dropHead?_append_of_le behind hle
    rw [List.cons_append] at h happ
    simp only [Text.afterFirst?, happ] at h ⊢
    cases hd : Text.dropHead? m (c :: token) with
    | none =>
      rw [hd] at h
      exact ih h
    | some after =>
      rw [hd, Option.map_some, Option.some.injEq, List.append_left_eq_self] at h
      rw [h]

/-- A first mark that ends where a text ends is the first one whatever follows. -/
theorem afterFirst?_moved {m token behind : Text} (hm : m ≠ []) (behind' : Text)
    (h : Text.afterFirst? m (token ++ behind) = some behind) :
    Text.afterFirst? m (token ++ behind') = some behind' :=
  Token.afterFirst?_append behind' (afterFirst?_eq_nil hm h)

theorem lineBreak_moved {token behind rest : Text} (behind' : Text)
    (h : lineBreak (token ++ behind) = some (rest ++ behind)) :
    lineBreak (token ++ behind') = some (rest ++ behind') := by
  unfold lineBreak at h
  split at h
  · next r heq =>
    rw [Option.some.injEq] at h
    rw [h, ← List.cons_append] at heq
    rw [List.append_cancel_right heq]
    rfl
  · next r heq =>
    rw [Option.some.injEq] at h
    rw [h, ← List.cons_append, ← List.cons_append] at heq
    rw [List.append_cancel_right heq]
    rfl
  · exact absurd h.symm (Option.some_ne_none _)

/-- A here-string is read again whatever follows. -/
theorem hereString_moved {quote : Char} {token behind : Text} (behind' : Text)
    (h : hereString quote (token ++ behind) = some behind) :
    hereString quote (token ++ behind') = some behind' := by
  have hm : ['\n', quote, '@'] ≠ [] := List.cons_ne_nil _ _
  obtain ⟨blank, hblank⟩ : ∃ blank : Char → Bool, (fun c => c == ' ' || c == '\t') = blank :=
    ⟨_, rfl⟩
  unfold hereString at h
  split at h
  · next q rest heq =>
    rw [Option.ite_none_right_eq_some, Option.bind_eq_some_iff] at h
    obtain ⟨rfl, body, hbreak, hbody⟩ := h
    rw [hblank] at hbreak
    have hlen := Token.length_le_of_afterFirst? hbody
    have hlines := (lineBreak_suffix hbreak).length_le
    have hblanks := (dropWhile_suffix blank rest).length_le
    rw [List.length_cons, List.length_cons, List.length_cons, List.length_nil] at hlen
    -- What is left of the first line is longer than what follows, so it lies in the token.
    obtain ⟨first, inner, rfl, hinner⟩ : ∃ first inner, token = first ++ inner ∧
        rest = inner ++ behind :=
      exists_split ⟨['@', q], heq.symm⟩ (by omega)
    have hfirst : first = ['@', q] := by
      rw [hinner, List.append_assoc] at heq
      exact List.append_cancel_right heq
    rw [hinner] at hbreak hlines
    have hdrop : (inner ++ behind).dropWhile blank = inner.dropWhile blank ++ behind := by
      rw [List.dropWhile_append]
      by_cases he : (inner.dropWhile blank).isEmpty
      · have hall := List.dropWhile_eq_nil_iff.mp (List.isEmpty_iff.mp he)
        have := (dropWhile_suffix blank behind).length_le
        rw [List.dropWhile_append_of_pos hall] at hlines
        omega
      · rw [if_neg he]
    have hne : inner.dropWhile blank ≠ [] := by
      intro he
      rw [hdrop, he, List.nil_append] at hlines
      omega
    rw [hdrop] at hbreak
    obtain ⟨_, second, -, rfl⟩ := exists_split (lineBreak_suffix hbreak) (by omega)
    rw [hfirst, List.cons_append, List.cons_append, List.cons_append, List.cons_append,
      List.nil_append, hereString, if_pos rfl, hblank, List.dropWhile_append,
      if_neg (by rwa [List.isEmpty_iff]), lineBreak_moved behind' hbreak, Option.bind_some]
    exact afterFirst?_moved hm behind' hbody
  · exact absurd h.symm (Option.some_ne_none _)

/-! ### Blanks -/

/-- Blanks that are skipped before a text are blanks by themselves, unless they end in a backtick
and the line break after it belongs to the text. -/
theorem skipBlanks_eq_nil {blank behind : Text} (hb : behind.head? ≠ some '\n')
    (hr : behind.head? ≠ some '\r') (h : skipBlanks (blank ++ behind) = behind) : skipBlanks blank = [] := by
  fun_induction skipBlanks blank with
  | case1 rest ih | case2 rest ih | case3 rest ih | case4 rest ih =>
    rw [List.cons_append, skipBlanks] at h
    exact ih h
  | case5 rest ih =>
    rw [List.cons_append, List.cons_append, skipBlanks] at h
    exact ih h
  | case6 rest ih =>
    rw [List.cons_append, List.cons_append, List.cons_append, skipBlanks] at h
    exact ih h
  | case7 blank h₁ h₂ h₃ h₄ h₅ h₆ =>
    cases blank with
    | nil => rfl
    | cons c blank =>
      exfalso
      have hself : skipBlanks (c :: blank ++ behind) = c :: (blank ++ behind) := by
        rw [List.cons_append, skipBlanks.eq_def]
        split
        · next heq => exact absurd (congrArg (· :: blank) (List.cons.inj heq).1) (h₁ blank)
        · next heq => exact absurd (congrArg (· :: blank) (List.cons.inj heq).1) (h₂ blank)
        · next heq => exact absurd (congrArg (· :: blank) (List.cons.inj heq).1) (h₃ blank)
        · next heq => exact absurd (congrArg (· :: blank) (List.cons.inj heq).1) (h₄ blank)
        · next rest heq =>
          obtain ⟨rfl, ht⟩ := List.cons.inj heq
          cases blank with
          | nil =>
            rw [List.nil_append] at ht
            exact absurd (by rw [ht]; rfl) hb
          | cons d blank =>
            exact absurd (by rw [(List.cons.inj ht).1]) (h₅ blank)
        · next rest heq =>
          obtain ⟨rfl, ht⟩ := List.cons.inj heq
          cases blank with
          | nil =>
            rw [List.nil_append] at ht
            exact absurd (by rw [ht]; rfl) hr
          | cons d blank =>
            cases blank with
            | nil =>
              rw [List.cons_append, List.nil_append] at ht
              exact absurd (by rw [(List.cons.inj ht).2]; rfl) hb
            | cons e blank =>
              obtain ⟨rfl, hrest⟩ := List.cons.inj ht
              have he : e = '\n' := (List.cons.inj hrest).1
              exact (h₆ blank (by rw [he])).elim
        · rfl
      rw [hself] at h
      exact cons_append_ne h

/-! ### Tokens by kind -/

theorem mark_found {m token behind : Text} (behind' : Text)
    (h : mark m (token ++ behind) = some behind) : mark m (token ++ behind') = some behind' := by
  rw [List.append_cancel_right (Text.eq_append_of_dropHead? h)]
  exact Text.dropHead?_append m behind'

theorem lineComment_found {token kept cut after : Text}
    (hend : kept = [] → ∀ c, after.head? = some c → c = '\n')
    (h : lineComment (token ++ (kept ++ cut)) = some (kept ++ cut)) :
    lineComment (token ++ (kept ++ after)) = some (kept ++ after) := by
  cases token with
  | nil => exact absurd (lineComment_takes _ _ h).2 (Nat.lt_irrefl _)
  | cons c token =>
    unfold lineComment at h
    split at h
    · next heq =>
      rw [List.cons_append, List.cons.injEq] at heq
      obtain ⟨rfl, rfl⟩ := heq
      rw [Option.some.injEq] at h
      rw [List.cons_append, lineComment,
        dropWhile_cut (fun hk c hc => by rw [hend hk c hc]; rfl) h]
    · exact absurd h.symm (Option.some_ne_none _)

theorem blockComment_found {token behind : Text} (behind' : Text)
    (h : blockComment (token ++ behind) = some behind) :
    blockComment (token ++ behind') = some behind' := by
  unfold blockComment at h
  split at h
  · next rest heq =>
    have hlen := Token.length_le_of_afterFirst? h
    rw [List.length_cons, List.length_cons, List.length_nil] at hlen
    obtain ⟨first, inner, rfl, rfl⟩ := exists_split (⟨['<', '#'], heq.symm⟩ : rest <:+ _) (by omega)
    rw [List.append_assoc] at heq
    have hfirst : first = ['<', '#'] := List.append_cancel_right heq
    rw [hfirst, List.append_assoc]
    exact afterFirst?_moved (List.cons_ne_nil _ _) behind' h
  · exact absurd h.symm (Option.some_ne_none _)

theorem splat_local : Recogniser.Local splat :=
  afterChar_local (c := '@') (word_local (p := isWord) ⟨rfl, rfl⟩) (by decide) (fun _ => rfl)
    (fun _ t h => splat_cons_of_ne t h) rfl

/-- A parameter without its dash. -/
theorem parameterName_local :
    Recogniser.Local fun t =>
      (word (fun c => isWord c || c == '-') t).map (optional (one (· == ':'))) where
  takes := by
    intro t rest h
    rw [Option.map_eq_some_iff] at h
    obtain ⟨name, hn, rfl⟩ := h
    have hcolon := optional_suffix (one_takes (· == ':')) name
    have hname := word_takes _ _ _ hn
    exact ⟨hcolon.trans hname.1, Nat.lt_of_le_of_lt hcolon.length_le hname.2⟩
  found := by
    intro token kept cut after hafter h
    rw [Option.map_eq_some_iff] at h ⊢
    obtain ⟨name, hn, hcolon⟩ := h
    have hrest := optional_suffix (one_takes (· == ':')) name
    rw [hcolon] at hrest
    obtain ⟨second, rfl, hagain⟩ :=
      found_then (word_local (p := fun c => isWord c || c == '-') ⟨rfl, rfl⟩) hn hrest
    exact ⟨_, hagain hafter, optional_cut (one_local (p := (· == ':')) ⟨rfl, rfl⟩) hafter hcolon⟩
  missed := by
    intro kept cut after hafter h
    rw [Option.map_eq_none_iff] at h ⊢
    exact (word_local (p := fun c => isWord c || c == '-') ⟨rfl, rfl⟩).missed hafter h

theorem parameter_local : Recogniser.Local parameter :=
  afterChar_local (c := '-') parameterName_local (by decide) (fun _ => rfl)
    (fun _ t h => parameter_cons_of_ne t h) rfl

theorem mark_local {m : Text} (hm : m ≠ []) (hn : '\n' ∉ m ∧ ' ' ∉ m) :
    Recogniser.Local (mark m) where
  takes := mark_takes hm
  found := fun _ h => mark_found _ h
  missed := by
    intro kept cut after hafter h
    induction m generalizing kept with
    | nil => exact absurd rfl hm
    | cons a m ih =>
      cases kept with
      | nil =>
        cases after with
        | nil => rfl
        | cons c more =>
          rw [List.nil_append, mark, Text.dropHead?, if_neg]
          rintro rfl
          rcases hafter a rfl with rfl | rfl
          · exact hn.1 List.mem_cons_self
          · exact hn.2 List.mem_cons_self
      | cons c kept =>
        rw [List.cons_append, mark, Text.dropHead?] at h ⊢
        by_cases hc : a = c
        · rw [if_pos hc] at h ⊢
          cases m with
          | nil =>
            have : Text.dropHead? [] (kept ++ cut) = some (kept ++ cut) := by
              cases kept ++ cut <;> rfl
            rw [this] at h
            exact absurd h (Option.some_ne_none _)
          | cons b m =>
            exact ih (List.cons_ne_nil b m) ⟨fun hb => hn.1 (List.mem_cons_of_mem a hb),
              fun hb => hn.2 (List.mem_cons_of_mem a hb)⟩ h
        · rw [if_neg hc]

/-- A type literal without its opening bracket. -/
theorem typeName_local :
    Recogniser.Local fun t =>
      (word (fun c => isWord c || c == '.') t).bind fun rest =>
        one (· == ']') (optional (Text.dropHead? ['[', ']']) rest) where
  takes := by
    intro t rest h
    rw [Option.bind_eq_some_iff] at h
    obtain ⟨name, hn, hclose⟩ := h
    have hm : Recogniser.Takes (Text.dropHead? ['[', ']']) := mark_takes (by decide)
    have hrest := (one_takes _ _ _ hclose).1.trans (optional_suffix hm name)
    have hname := word_takes _ _ _ hn
    exact ⟨hrest.trans hname.1, Nat.lt_of_le_of_lt hrest.length_le hname.2⟩
  found := by
    intro token kept cut after hafter h
    rw [Option.bind_eq_some_iff] at h ⊢
    obtain ⟨name, hn, hclose⟩ := h
    have hm : Recogniser.Local (Text.dropHead? ['[', ']']) := mark_local (by decide) (by decide)
    have hbrackets := optional_suffix hm.takes name
    have hrest := (one_takes _ _ _ hclose).1.trans hbrackets
    obtain ⟨second, rfl, hagain⟩ :=
      found_then (word_local (p := fun c => isWord c || c == '.') ⟨rfl, rfl⟩) hn hrest
    refine ⟨_, hagain hafter, ?_⟩
    -- The brackets leave a stretch of the token, in which the closing one stands.
    obtain ⟨first, third, hsplit, hthird⟩ :=
      exists_split hbrackets (one_takes _ _ _ hclose).1.length_le
    have hagain' := optional_cut (k := third ++ kept) (c := cut) (t := first) hm hafter (by
      rw [List.append_assoc, ← List.append_assoc first, ← hsplit]
      exact hthird)
    rw [List.append_assoc, ← List.append_assoc first, ← hsplit] at hagain'
    rw [hthird] at hclose
    rw [hagain']
    exact (one_local (p := (· == ']')) ⟨rfl, rfl⟩).found hafter hclose
  missed := by
    intro kept cut after hafter h
    have hclose := one_local (p := (· == ']')) ⟨rfl, rfl⟩
    have hm : Recogniser.Local (Text.dropHead? ['[', ']']) := mark_local (by decide) (by decide)
    cases kept with
    | nil => rcases hafter.cases with rfl | ⟨more, rfl | rfl⟩ <;> rfl
    | cons c kept =>
      by_cases hc : isWordStart c
      · simp only [List.cons_append, word, if_pos hc, Option.bind_some, optional] at h ⊢
        rw [List.dropWhile_append] at h ⊢
        by_cases he : (kept.dropWhile fun c => isWord c || c == '.').isEmpty
        · rcases hafter.cases with rfl | ⟨more, rfl | rfl⟩
          · rw [if_pos he]
            rfl
          all_goals
            (rw [if_pos he, List.dropWhile_cons, if_neg (by decide)]; rfl)
        · rw [if_neg he] at h ⊢
          cases hd : Text.dropHead? ['[', ']']
              ((kept.dropWhile fun c => isWord c || c == '.') ++ cut) with
          | none =>
            rw [hd, Option.getD_none] at h
            rw [hm.missed hafter hd, Option.getD_none]
            exact hclose.missed hafter h
          | some rest =>
            rw [hd, Option.getD_some] at h
            have heq := Text.eq_append_of_dropHead? hd
            generalize (kept.dropWhile fun c => isWord c || c == '.') = tail at heq he ⊢
            cases tail with
            | nil => exact absurd rfl he
            | cons d tail =>
              cases tail with
              | nil =>
                rw [List.cons_append, List.cons_append, List.cons.injEq] at heq
                rw [heq.1]
                rcases hafter.cases with rfl | ⟨more, rfl | rfl⟩ <;> rfl
              | cons e tail =>
                rw [List.cons_append, List.cons_append, List.cons_append, List.cons_append,
                  List.nil_append, List.cons.injEq, List.cons.injEq] at heq
                obtain ⟨rfl, rfl, rfl⟩ := heq
                show one _ (tail ++ after) = none
                exact hclose.missed hafter h
      · simp only [List.cons_append, word, if_neg hc, Option.bind_none]

theorem typeLiteral_local : Recogniser.Local typeLiteral :=
  afterChar_local (c := '[') typeName_local (by decide) (fun _ => rfl)
    (fun _ t h => typeLiteral_cons_of_ne t h) rfl

theorem variableName_found {token kept cut after : Text}
    (hafter : after.Separates)
    (h : variableName (token ++ (kept ++ cut)) = some (kept ++ cut)) :
    variableName (token ++ (kept ++ after)) = some (kept ++ after) := by
  unfold variableName at h
  split at h
  · next rest heq =>
    have hclose := one_takes _ _ _ h
    have hlen := (dropWhile_suffix (· != '}') rest).length_le
    obtain ⟨first, inner, rfl, rfl⟩ :=
      exists_split (⟨['$', '\x7b'], heq.symm⟩ : rest <:+ _) (by omega)
    rw [List.append_assoc] at heq
    have hfirst : first = ['$', '\x7b'] := List.append_cancel_right heq
    rw [List.dropWhile_append] at h hlen
    by_cases he : (inner.dropWhile (· != '}')).isEmpty
    · have := (dropWhile_suffix (· != '}') (kept ++ cut)).length_le
      rw [if_pos he] at h
      have := (one_takes _ _ _ h).2
      omega
    · rw [if_neg he] at h
      rw [hfirst, List.append_assoc]
      show one _ ((inner ++ (kept ++ after)).dropWhile _) = _
      rw [List.dropWhile_append, if_neg he]
      exact (one_local (p := (· == '}')) ⟨rfl, rfl⟩).found hafter h
  · next c rest hbrace heq =>
    by_cases hc : isWordStart c
    · rw [if_pos hc, Option.some.injEq] at h
      have hqualifier := optional_suffix qualifier_takes (rest.dropWhile isWord)
      rw [h] at hqualifier
      have hlen := (hqualifier.trans (dropWhile_suffix isWord rest)).length_le
      obtain ⟨first, inner, rfl, rfl⟩ :=
        exists_split (⟨['$', c], heq.symm⟩ : rest <:+ _) hlen
      rw [List.append_assoc] at heq
      have hfirst : first = ['$', c] := List.append_cancel_right heq
      have hword : word isWord (c :: inner ++ (kept ++ cut)) =
          some ((inner ++ (kept ++ cut)).dropWhile isWord) := by
        rw [List.cons_append, word, if_pos hc]
      obtain ⟨second, hsecond, hagain⟩ :=
        found_then (word_local (p := isWord) ⟨rfl, rfl⟩) hword hqualifier
      rw [hsecond] at h
      have := hagain hafter
      rw [List.cons_append, word, if_pos hc, Option.some.injEq] at this
      rw [hfirst, List.append_assoc]
      show variableName ('$' :: c :: (inner ++ (kept ++ after))) = _
      rw [variableName.eq_def]
      split
      · next heq' =>
        simp only [List.cons.injEq, true_and] at heq'
        exact absurd heq'.1 (by rintro rfl; exact absurd hc (by decide))
      · next heq' =>
        simp only [List.cons.injEq, true_and] at heq'
        rw [← heq'.1, ← heq'.2, if_pos hc, this, optional_cut qualifier_local hafter h]
      · next hno => exact absurd rfl (hno c (inner ++ (kept ++ after)))
    · rw [if_neg hc, Option.ite_none_right_eq_some, Option.some.injEq] at h
      obtain ⟨hsign, rfl⟩ := h
      have htoken : token = ['$', c] := by
        exact List.append_cancel_right (heq : token ++ (kept ++ cut) = ['$', c] ++ (kept ++ cut))
      rw [htoken]
      show variableName ('$' :: c :: (kept ++ after)) = _
      rcases hsign with rfl | rfl | rfl <;> rfl
  · exact absurd h.symm (Option.some_ne_none _)

end Pattern

namespace Token

/-! ### One token

A token is the first kind that is recognised, so that more is asked than that this kind
is recognised again: those before it in the order have to be missed again.
-/

/-- What one token is read as depends on the cut text behind it in few ways only: a string must not
be followed by its own quote, a `<` must open no block comment in the text that is put there,
blanks must be followed by something that is none, and a comment by a line feed. -/
structure Firm (kind : TokenKind) (token kept cut after : Text) : Prop where
  /-- A token can start behind it, or nothing is there. -/
  behind : kept ++ cut ≠ [] → (next? (kept ++ cut)).isSome
  /-- It opens no block comment. -/
  open_ : kind = .operator → Pattern.blockComment (token ++ (kept ++ after)) = none
  /-- Blanks end at something that is kept. -/
  blank : kind = .blank → ∃ c rest, kept = c :: rest ∧ TokenKind.blank.mayStart c = false
  /-- A comment ends at something that is kept, or at the end of its line. -/
  comment : kind = .comment → kept = [] → ∀ c, after.head? = some c → c = '\n'

theorem head?_ne_doubleQuote {token behind : Text}
    (h : Pattern.closeDouble token = some behind) (hb : behind ≠ [] → (next? behind).isSome) :
    behind.head? ≠ some '"' := by
  intro hq
  cases behind with
  | nil => exact absurd hq (by simp)
  | cons c t =>
    rw [List.head?_cons, Option.some.injEq] at hq
    subst hq
    have := hb (List.cons_ne_nil _ _)
    rw [next?_doubleQuote, Pattern.closeDouble_eq_none h] at this
    exact absurd this (by decide)

theorem head?_ne_singleQuote {token behind : Text}
    (h : Pattern.closeSingle token = some behind) (hb : behind ≠ [] → (next? behind).isSome) :
    behind.head? ≠ some '\'' := by
  intro hq
  cases behind with
  | nil => exact absurd hq (by simp)
  | cons c t =>
    rw [List.head?_cons, Option.some.injEq] at hq
    subst hq
    have := hb (List.cons_ne_nil _ _)
    rw [next?_singleQuote, Pattern.closeSingle_eq_none h] at this
    exact absurd this (by decide)

theorem head?_separator (kept : Text) {after : Text} (hafter : after.Separates)
    {c : Char} (hc : c ≠ '\n' ∧ c ≠ ' ') {cut : Text} (h : (kept ++ cut).head? ≠ some c) : (kept ++ after).head? ≠ some c := by
  cases kept with
  | nil => exact hafter.head?_ne hc
  | cons d kept => exact h

theorem doubleQuoted_moved {token behind behind' : Text}
    (hq : behind.head? ≠ some '"' → behind'.head? ≠ some '"')
    (hb : behind ≠ [] → (next? behind).isSome)
    (h : Pattern.doubleQuoted (token ++ behind) = some behind) :
    Pattern.doubleQuoted (token ++ behind') = some behind' := by
  cases token with
  | nil => exact absurd (Pattern.doubleQuoted_takes _ _ h).2 (Nat.lt_irrefl _)
  | cons c token =>
    unfold Pattern.doubleQuoted at h
    split at h
    · next heq =>
      obtain ⟨rfl, rfl⟩ := List.cons.inj heq
      exact Pattern.closeDouble_append (hq (head?_ne_doubleQuote h hb)) _ token (Nat.le_refl _) h
    · exact absurd h.symm (Option.some_ne_none _)

theorem singleQuoted_moved {token behind behind' : Text}
    (hq : behind.head? ≠ some '\'' → behind'.head? ≠ some '\'')
    (hb : behind ≠ [] → (next? behind).isSome)
    (h : Pattern.singleQuoted (token ++ behind) = some behind) :
    Pattern.singleQuoted (token ++ behind') = some behind' := by
  cases token with
  | nil => exact absurd (Pattern.singleQuoted_takes _ _ h).2 (Nat.lt_irrefl _)
  | cons c token =>
    unfold Pattern.singleQuoted at h
    split at h
    · next heq =>
      obtain ⟨rfl, rfl⟩ := List.cons.inj heq
      exact Pattern.closeSingle_append (hq (head?_ne_singleQuote h hb)) _ token (Nat.le_refl _) h
    · exact absurd h.symm (Option.some_ne_none _)

/-- Blanks are read again before something that is none. -/
theorem blanks_moved {c : Char} {token rest cut after : Text}
    (hc : TokenKind.blank.mayStart c = false)
    (h : Pattern.blanks (token ++ (c :: rest ++ cut)) = some (c :: rest ++ cut)) :
    Pattern.blanks (token ++ (c :: rest ++ after)) = some (c :: rest ++ after) := by
  have hself : Pattern.skipBlanks (c :: rest ++ after) = c :: rest ++ after :=
    skipBlanks_of_blanks_eq_none (TokenKind.recognise_cons (k := .blank) _ hc)
  have hne : ∀ d, TokenKind.blank.mayStart d = true → (c :: rest ++ cut).head? ≠ some d := by
    intro d hd he
    rw [List.cons_append, List.head?_cons, Option.some.injEq] at he
    rw [he, hd] at hc
    exact Bool.false_ne_true hc.symm
  have hnil := Pattern.skipBlanks_eq_nil (hne _ (by decide)) (hne _ (by decide))
    (skipBlanks_of_blanks h)
  cases hb : Pattern.blanks (token ++ (c :: rest ++ after)) with
  | some after =>
    rw [← skipBlanks_of_blanks hb, Pattern.skipBlanks_append hnil, hself]
  | none =>
    exfalso
    have := skipBlanks_of_blanks_eq_none hb
    rw [Pattern.skipBlanks_append hnil, hself] at this
    rw [List.self_eq_append_left.mp this, List.nil_append] at h
    exact absurd (Pattern.blanks_takes _ _ h).2 (Nat.lt_irrefl _)

/-- The kind of a token is found again behind the cut. -/
theorem recognise_moved {kind : TokenKind} {token kept cut after : Text}
    (hafter : after.Separates)
    (hk : kind.isKeyword = false) (hf : Firm kind token kept cut after)
    (h : kind.recognise (token ++ (kept ++ cut)) = some (kept ++ cut)) :
    kind.recognise (token ++ (kept ++ after)) = some (kept ++ after) := by
  cases kind
  case blank =>
    obtain ⟨c, rest, rfl, hc⟩ := hf.blank rfl
    exact blanks_moved hc h
  case blockComment => exact Pattern.blockComment_found _ h
  case comment => exact Pattern.lineComment_found (hf.comment rfl) h
  case hereDouble => exact Pattern.hereString_moved _ h
  case hereSingle => exact Pattern.hereString_moved _ h
  case doubleQuoted =>
    exact doubleQuoted_moved (head?_separator kept hafter (by decide)) hf.behind h
  case singleQuoted =>
    exact singleQuoted_moved (head?_separator kept hafter (by decide)) hf.behind h
  case splat => exact Pattern.splat_local.found hafter h
  case variableName => exact Pattern.variableName_found hafter h
  case typeLiteral => exact Pattern.typeLiteral_local.found hafter h
  case parameter => exact Pattern.parameter_local.found hafter h
  case number => exact Pattern.number_found hafter h
  case operator => exact (Pattern.one_local ⟨rfl, rfl⟩).found hafter h
  case bareword => exact (Pattern.word_local (p := Pattern.isBare) ⟨rfl, rfl⟩).found hafter h
  case unknown => exact absurd h.symm (Option.some_ne_none _)
  case configuration | node | param => exact absurd hk (by decide)
  all_goals exact Pattern.mark_found _ h

/-- A kind that alone of those a character can start is recognised. -/
theorem next?_of_alone {c : Char} {t rest : Text} {kind : TokenKind} (hk : kind ∈ TokenKind.order)
    (hr : kind.recognise (c :: t) = some rest)
    (hother : ∀ other : TokenKind, other.mayStart c → other ≠ kind →
      other.recognise (c :: t) = none) : next? (c :: t) = some (kind, rest) := by
  obtain ⟨before, after, horder, hnot⟩ := List.eq_append_cons_of_mem hk
  have hbefore : before.findSome? (fun k => (k.recognise (c :: t)).map (k, ·)) = none := by
    rw [List.findSome?_eq_none_iff]
    intro other hmem
    rw [Option.map_eq_none_iff]
    by_cases hs : other.mayStart c
    · exact hother other hs (fun he => hnot (he ▸ hmem))
    · exact TokenKind.recognise_cons t (by simpa using hs)
  rw [next?, horder, List.findSome?_append, hbefore, Option.none_or, List.findSome?_cons, hr]
  rfl

/-- A kind that is tried before the others a character can start. -/
theorem next?_of_first {c : Char} {t rest : Text} {kind : TokenKind}
    (h : (TokenKind.order.filter (·.mayStart c)).head? = some kind)
    (hr : kind.recognise (c :: t) = some rest) : next? (c :: t) = some (kind, rest) := by
  obtain ⟨others, ho⟩ := List.head?_eq_some_iff.mp h
  rw [next?_cons, ho, List.findSome?_cons, hr]
  rfl

/-- What a kind that starts with `@` or `$` needs as its next character. -/
def secondOf : TokenKind → Char → Bool
  | .hereDouble, d => d == '"'
  | .hereSingle, d => d == '\''
  | .arrayOpen, d | .subexpressionOpen, d => d == '('
  | .tableOpen, d => d == '\x7b'
  | .splat, d => Pattern.isWordStart d
  | .variableName, d => d != '('
  | _, _ => false

theorem mem_of_mayStart_at {kind : TokenKind} (h : kind.mayStart '@') :
    kind ∈ [TokenKind.hereDouble, .hereSingle, .arrayOpen, .tableOpen, .splat] := by
  cases kind <;> first | decide | exact absurd h (by decide)

theorem mem_of_mayStart_dollar {kind : TokenKind} (h : kind.mayStart '$') :
    kind ∈ [TokenKind.subexpressionOpen, .variableName] := by
  cases kind <;> first | decide | exact absurd h (by decide)

theorem mark_cons_cons {a b c d : Char} {t rest : Text}
    (h : Pattern.mark [a, b] (c :: d :: t) = some rest) : d = b := by
  have := Text.eq_append_of_dropHead? h
  rw [List.cons_append, List.cons_append, List.cons.injEq, List.cons.injEq] at this
  exact this.2.1

/-- A kind that starts with `@` or `$` is told by the next character. -/
theorem secondOf_of_recognise {kind : TokenKind} {c d : Char} {t rest : Text}
    (hc : c = '@' ∨ c = '$') (hs : kind.mayStart c)
    (hr : kind.recognise (c :: d :: t) = some rest) : secondOf kind d := by
  have hhere : ∀ quote, Pattern.hereString quote (c :: d :: t) = some rest → d = quote := by
    intro quote h
    unfold Pattern.hereString at h
    split at h
    · next heq =>
      rw [Option.ite_none_right_eq_some] at h
      rw [List.cons.injEq, List.cons.injEq] at heq
      exact heq.2.1.trans h.1
    · exact absurd h.symm (Option.some_ne_none _)
  have hmem : kind ∈ [TokenKind.hereDouble, .hereSingle, .arrayOpen, .tableOpen, .splat] ∨
      kind ∈ [TokenKind.subexpressionOpen, .variableName] := by
    rcases hc with rfl | rfl
    · exact Or.inl (mem_of_mayStart_at hs)
    · exact Or.inr (mem_of_mayStart_dollar hs)
  simp only [List.mem_cons, List.not_mem_nil, or_false] at hmem
  rcases hmem with (rfl | rfl | rfl | rfl | rfl) | (rfl | rfl)
  · exact beq_iff_eq.mpr (hhere _ hr)
  · exact beq_iff_eq.mpr (hhere _ hr)
  · exact beq_iff_eq.mpr (mark_cons_cons hr)
  · exact beq_iff_eq.mpr (mark_cons_cons hr)
  · simp only [TokenKind.recognise] at hr
    unfold Pattern.splat at hr
    split at hr
    · next heq =>
      rw [List.cons.injEq] at heq
      rw [← heq.2, Pattern.word, Option.ite_none_right_eq_some] at hr
      exact hr.1
    · exact absurd hr.symm (Option.some_ne_none _)
  · exact beq_iff_eq.mpr (mark_cons_cons hr)
  · show (d != '(') = true
    rw [bne_iff_ne]
    rintro rfl
    simp only [TokenKind.recognise] at hr
    unfold Pattern.variableName at hr
    split at hr
    · next heq =>
      simp only [List.cons.injEq] at heq
      exact absurd heq.2.1 (by decide)
    · next heq =>
      simp only [List.cons.injEq] at heq
      rw [← heq.2.1] at hr
      exact absurd hr.symm (Option.some_ne_none _)
    · exact absurd hr.symm (Option.some_ne_none _)

theorem secondOf_injective {c d : Char} (hc : c = '@' ∨ c = '$') {first second : TokenKind}
    (hf : first.mayStart c) (hs : second.mayStart c) (hfd : secondOf first d)
    (hsd : secondOf second d) : first = second := by
  have hword : ∀ e, Pattern.isWordStart e = false → Pattern.isWordStart d → d ≠ e := by
    rintro e he hd rfl
    rw [hd] at he
    exact Bool.false_ne_true he.symm
  have h₁ := hword '"' rfl
  have h₂ := hword '\'' rfl
  have h₃ := hword '(' rfl
  have h₄ := hword '\x7b' rfl
  rcases hc with rfl | rfl
  · have hf' := mem_of_mayStart_at hf
    have hs' := mem_of_mayStart_at hs
    simp only [List.mem_cons, List.not_mem_nil, or_false] at hf' hs'
    rcases hf' with rfl | rfl | rfl | rfl | rfl <;>
      rcases hs' with rfl | rfl | rfl | rfl | rfl <;>
        simp_all [secondOf]
  · have hf' := mem_of_mayStart_dollar hf
    have hs' := mem_of_mayStart_dollar hs
    simp only [List.mem_cons, List.not_mem_nil, or_false] at hf' hs'
    rcases hf' with rfl | rfl <;> rcases hs' with rfl | rfl <;> simp_all [secondOf]

/-- A kind that starts with `@` or `$` excludes the others. -/
theorem next?_sign {kind : TokenKind} {c : Char} {t rest : Text} (hc : c = '@' ∨ c = '$')
    (hk : kind ∈ TokenKind.order) (hs : kind.mayStart c)
    (hr : kind.recognise (c :: t) = some rest) : next? (c :: t) = some (kind, rest) := by
  refine next?_of_alone hk hr ?_
  intro other ho hne
  cases hr' : other.recognise (c :: t) with
  | none => rfl
  | some rest' =>
    exfalso
    cases t with
    | nil =>
      rcases hc with rfl | rfl
      · have hmem := mem_of_mayStart_at ho
        simp only [List.mem_cons, List.not_mem_nil, or_false] at hmem
        rcases hmem with rfl | rfl | rfl | rfl | rfl <;>
          exact absurd hr'.symm (Option.some_ne_none _)
      · have hmem := mem_of_mayStart_dollar ho
        simp only [List.mem_cons, List.not_mem_nil, or_false] at hmem
        rcases hmem with rfl | rfl <;> exact absurd hr'.symm (Option.some_ne_none _)
    | cons d t =>
      exact hne (secondOf_injective hc ho hs (secondOf_of_recognise hc ho hr')
        (secondOf_of_recognise hc hs hr))

/-- A dash is an operator where neither a parameter nor a number starts. -/
theorem next?_dash {t : Text} (hp : Pattern.parameter ('-' :: t) = none)
    (hn : Pattern.number ('-' :: t) = none) : next? ('-' :: t) = some (.operator, t) := by
  rw [next?_cons]
  show [TokenKind.parameter, .number, .operator].findSome? _ = _
  simp only [List.findSome?_cons, TokenKind.recognise, hp, hn]
  rfl

theorem missed_of_next?_dash {t rest : Text} (h : next? ('-' :: t) = some (.operator, rest)) :
    Pattern.parameter ('-' :: t) = none ∧ Pattern.number ('-' :: t) = none := by
  rw [next?_cons] at h
  change [TokenKind.parameter, .number, .operator].findSome? _ = _ at h
  simp only [List.findSome?_cons, TokenKind.recognise] at h
  cases hp : Pattern.parameter ('-' :: t) with
  | some r => rw [hp] at h; exact absurd h (by simp)
  | none =>
    cases hn : Pattern.number ('-' :: t) with
    | some r => rw [hp, hn] at h; exact absurd h (by simp)
    | none => exact ⟨rfl, rfl⟩

/-- A number with a sign is no parameter. -/
theorem parameter_of_number {t rest : Text} (h : Pattern.number ('-' :: t) = some rest) :
    Pattern.parameter ('-' :: t) = none := by
  cases t with
  | nil => exact absurd h.symm (Option.some_ne_none _)
  | cons d t =>
    by_cases hd : Pattern.isWordStart d
    · have hdigit := Pattern.isDigit_of_isWordStart hd
      simp only [Pattern.number, Pattern.optional, Pattern.one, beq_self_eq_true, if_true,
        Option.getD_some, Pattern.hexadecimal_cons_eq_none hdigit,
        Pattern.decimal_cons_eq_none hdigit] at h
      exact absurd h.symm (Option.some_ne_none _)
    · rw [Pattern.parameter, Pattern.word, if_neg hd, Option.map_none]

/-- A word is read again before a text that it does not go on with either. -/
theorem next?_word_again {kind : TokenKind} {c : Char} {token behind behind' : Text}
    (hk : kind.isName) (h : next? (c :: (token ++ behind)) = some (kind, behind))
    (hend : (token ++ behind).dropWhile Pattern.isBare = behind →
      (token ++ behind').dropWhile Pattern.isBare = behind') :
    next? (c :: (token ++ behind')) = some (kind, behind') := by
  have hc := isWordStart_of_next? hk h
  rw [next?_word hc, Option.some.injEq, Prod.mk.injEq] at h ⊢
  have hdrop := hend h.2
  refine ⟨?_, hdrop⟩
  -- A run is what is left when its rest is taken off.
  have htake : ∀ behind, (token ++ behind).dropWhile Pattern.isBare = behind →
      (token ++ behind).takeWhile Pattern.isBare = token := by
    intro behind hb
    have := List.takeWhile_append_dropWhile (p := Pattern.isBare) (l := token ++ behind)
    rw [hb] at this
    exact List.append_cancel_right this
  rw [htake _ hdrop]
  rw [htake _ h.2] at h
  exact h.1

theorem missed_of_next?_bracket {t rest : Text}
    (h : next? ('[' :: t) = some (.bracketOpen, rest)) :
    Pattern.typeLiteral ('[' :: t) = none := by
  have hfirst := next?_of_two (c := '[') (k := .typeLiteral) (l := .bracketOpen) rfl t
  rw [h] at hfirst
  cases hr : Pattern.typeLiteral ('[' :: t) with
  | none => rfl
  | some rest => simp [TokenKind.recognise, hr] at hfirst

/-- A kind other than a name that is recognised is the kind of the token, unless a bracket could
start a type, or a sign a comment, a parameter or a number. -/
theorem next?_of_recognise {kind : TokenKind} {c : Char} {t rest : Text}
    (hname : ¬ kind.isName) (hstart : kind.mayStart c) (hr : kind.recognise (c :: t) = some rest)
    (htype : kind = .bracketOpen → Pattern.typeLiteral (c :: t) = none)
    (hcomment : kind = .operator → c = '<' → Pattern.blockComment (c :: t) = none)
    (hdash : kind = .operator → c = '-' →
      Pattern.parameter (c :: t) = none ∧ Pattern.number (c :: t) = none) :
    next? (c :: t) = some (kind, rest) := by
  cases kind
  all_goals try exact absurd rfl hname
  case hereDouble | hereSingle | arrayOpen | tableOpen | splat =>
    have hc : c = '@' := by simpa [TokenKind.mayStart] using hstart
    exact next?_sign (Or.inl hc) (by decide) hstart hr
  case subexpressionOpen | variableName =>
    have hc : c = '$' := by simpa [TokenKind.mayStart] using hstart
    exact next?_sign (Or.inr hc) (by decide) hstart hr
  case blank =>
    have hc : c = ' ' ∨ c = '\t' ∨ c = '\r' ∨ c = '\n' ∨ c = '`' := by
      simpa [TokenKind.mayStart] using hstart
    rcases hc with rfl | rfl | rfl | rfl | rfl <;> exact next?_of_first rfl hr
  case bracketOpen =>
    have hc : c = '[' := by simpa [TokenKind.mayStart] using hstart
    subst hc
    rw [next?_of_two (c := '[') (k := .typeLiteral) (l := .bracketOpen) rfl, hr]
    simp only [TokenKind.recognise, htype rfl, Option.map_none, Option.none_or, Option.map_some]
  case number =>
    have hc : c = '-' ∨ c.isDigit := by simpa [TokenKind.mayStart] using hstart
    rcases hc with rfl | hc
    · have hparameter := parameter_of_number hr
      rw [next?_cons]
      show [TokenKind.parameter, .number, .operator].findSome? _ = _
      simp only [List.findSome?_cons, TokenKind.recognise] at hr ⊢
      simp only [hparameter, hr, Option.map_none, Option.map_some]
    · rw [next?_digit hc]
      exact Option.map_eq_some_iff.mpr ⟨_, hr, rfl⟩
  case operator =>
    have hc : c = '<' ∨ c = '-' ∨ c ∈ ['+', '*', '/', '%', '!', '&', '>'] := by
      simp only [TokenKind.mayStart, List.contains_eq_mem, List.mem_cons, List.not_mem_nil,
        decide_eq_true_eq, or_false] at hstart ⊢
      rcases hstart with hc | hc | hc | hc | hc | hc | hc | hc | hc <;> simp [hc]
    rcases hc with rfl | rfl | hc
    · rw [next?_of_two (c := '<') (k := .blockComment) (l := .operator) rfl, hr]
      simp only [TokenKind.recognise, hcomment rfl rfl, Option.map_none, Option.none_or,
        Option.map_some]
    · obtain ⟨hp, hn⟩ := hdash rfl rfl
      obtain rfl : t = rest := Option.some.inj hr
      exact next?_dash hp hn
    · simp only [List.mem_cons, List.not_mem_nil, or_false] at hc
      rcases hc with rfl | rfl | rfl | rfl | rfl | rfl | rfl <;> exact next?_of_first rfl hr
  case unknown => exact absurd hstart Bool.false_ne_true
  all_goals
    simp only [TokenKind.mayStart, beq_iff_eq] at hstart
    subst hstart
    exact next?_of_first rfl hr

/-- **A token is read again when the text behind it is cut off** and a text that separates is put
there. -/
theorem next?_moved {kind : TokenKind} {token kept cut after : Text}
    (hafter : after.Separates)
    (hf : Firm kind token kept cut after)
    (h : next? (token ++ (kept ++ cut)) = some (kind, kept ++ cut)) :
    next? (token ++ (kept ++ after)) = some (kind, kept ++ after) := by
  cases token with
  | nil => exact absurd (next?_takes h).2.2 (Nat.lt_irrefl _)
  | cons c token =>
    by_cases hname : kind.isName
    · exact next?_word_again hname h
        (Pattern.dropWhile_cut fun _ _ hc => hafter.not_of ⟨rfl, rfl⟩ hc)
    have hkey : kind.isKeyword = false := by
      cases kind <;> first | rfl | exact absurd rfl hname
    obtain ⟨hstart, hrec⟩ := recognise_of_next? h
    have hmoved := recognise_moved hafter hkey hf hrec
    rw [List.cons_append] at h hmoved ⊢
    refine next?_of_recognise hname hstart hmoved ?_ (fun hk _ => hf.open_ hk) ?_
    · rintro rfl
      have hc : c = '[' := by simpa [TokenKind.mayStart] using hstart
      subst hc
      have hmissed := missed_of_next?_bracket h
      rw [← List.append_assoc, ← List.cons_append] at hmissed
      have hagain := Pattern.typeLiteral_local.missed hafter hmissed
      rwa [List.cons_append, List.append_assoc] at hagain
    · rintro rfl rfl
      have htoken : token = [] := by
        simp only [TokenKind.recognise, Pattern.operator, Pattern.one,
          Option.ite_none_right_eq_some, Option.some.injEq] at hrec
        exact List.append_left_eq_self.mp hrec.2
      subst htoken
      rw [List.nil_append] at h ⊢
      obtain ⟨hp, hn⟩ := missed_of_next?_dash h
      rw [← List.cons_append] at hp
      exact ⟨Pattern.parameter_local.missed hafter hp, Pattern.number_dash_missed hafter hn⟩

/-! ### Many tokens

Between what is read again and the cut a few pieces may be kept.  They need not be read
again themselves, and they keep the text behind the last token as it was.
-/

theorem skipBlanks_idem (t : Text) :
    Pattern.skipBlanks (Pattern.skipBlanks t) = Pattern.skipBlanks t := by
  fun_induction Pattern.skipBlanks t with
  | case1 rest ih | case2 rest ih | case3 rest ih | case4 rest ih => exact ih
  | case5 rest ih => exact ih
  | case6 rest ih => exact ih
  | case7 t h₁ h₂ h₃ h₄ h₅ h₆ => rw [Pattern.skipBlanks] <;> assumption

/-- What a blank can start with starts blanks alone. -/
theorem eq_blank_of_mayStart {kind : TokenKind} {c : Char} (hc : TokenKind.blank.mayStart c)
    (h : kind.mayStart c) : kind = .blank := by
  have hcases : c = ' ' ∨ c = '\t' ∨ c = '\r' ∨ c = '\n' ∨ c = '`' := by
    simpa [TokenKind.mayStart] using hc
  rcases hcases with rfl | rfl | rfl | rfl | rfl <;>
    cases kind <;> first | rfl | exact absurd h (by decide)

/-- Blanks are read to their end, so no blank starts behind them. -/
theorem mayStart_behind_blank {token behind : Text} {c : Char} {rest after : Text}
    {kind : TokenKind} (h : next? (token ++ behind) = some (.blank, behind))
    (hb : behind = c :: rest) (hn : next? behind = some (kind, after)) :
    TokenKind.blank.mayStart c = false := by
  rw [Bool.eq_false_iff]
  intro hc
  have hself : Pattern.skipBlanks behind = behind := by
    have := skipBlanks_idem (token ++ behind)
    rwa [skipBlanks_of_blanks (blanks_of_next? h)] at this
  rw [hb] at hn
  have hk := eq_blank_of_mayStart hc (recognise_of_next? hn).1
  rw [hk, ← hb] at hn
  rw [skipBlanks_of_blanks (blanks_of_next? hn)] at hself
  have hlt := (next?_takes hn).2.2
  rw [hself] at hlt
  exact Nat.lt_irrefl _ hlt

theorem afterFirst?_eq_none_of_append {m first second : Text}
    (h : Text.afterFirst? m (first ++ second) = none) : Text.afterFirst? m second = none := by
  induction first with
  | nil => exact h
  | cons c first ih =>
    rw [List.cons_append, Text.afterFirst?] at h
    cases hd : Text.dropHead? m (c :: (first ++ second)) with
    | none => rw [hd] at h; exact ih h
    | some after => rw [hd] at h; exact absurd h (Option.some_ne_none _)

end Token

namespace Piece

/-- A stretch behind which the text may be cut and another one be put there. -/
structure Movable (pieces kept : List Piece) (after : Text) : Prop where
  separates : after.Separates
  /-- No block comment is opened. -/
  open_ : ∀ front piece rest, pieces = front ++ piece :: rest → piece.kind = .operator →
    Pattern.blockComment (piece.text ++ (textOf (rest ++ kept) ++ after)) = none
  /-- If nothing behind it is kept, it does not end in blanks, and in a comment only before the end
  of its line. -/
  last : kept = [] → ∀ piece ∈ pieces.getLast?, piece.kind ≠ .blank ∧
    (piece.kind = .comment → ∀ c, after.head? = some c → c = '\n')

theorem Movable.tail {piece : Piece} {rest kept : List Piece} {after : Text}
    (h : Movable (piece :: rest) kept after) : Movable rest kept after where
  separates := h.separates
  open_ front other behind heq := h.open_ (piece :: front) other behind (by rw [heq]; rfl)
  last hkept other hl := h.last hkept other (by rw [List.getLast?_cons, hl]; rfl)

/-- **Pieces are read again when the text behind them**, or behind a few more that are kept, **is
cut off**, and nothing put there or a text that separates. -/
theorem lexes_moved {pieces kept behind : List Piece} {after : Text}
    (h : Lexes (pieces ++ (kept ++ behind)) []) (hm : Movable pieces kept after) :
    Lexes pieces (textOf kept ++ after) := by
  induction pieces with
  | nil => trivial
  | cons piece rest ih =>
    rw [List.cons_append, Lexes] at h
    obtain ⟨hp, hrest⟩ := h
    refine ⟨?_, ih hrest hm.tail⟩
    rw [IsNext, List.append_nil, ← List.append_assoc, textOf_append] at hp
    rw [IsNext, ← List.append_assoc (textOf rest), ← textOf_append]
    refine Token.next?_moved hm.separates ⟨?_, hm.open_ [] piece rest rfl, ?_, ?_⟩ hp
    · intro hne
      rw [← textOf_append, List.append_assoc] at hne ⊢
      cases hcons : rest ++ (kept ++ behind) with
      | nil => rw [hcons] at hne; exact absurd rfl hne
      | cons next others =>
        rw [hcons] at hrest
        have hn := hrest.1
        rw [IsNext, List.append_nil] at hn
        rw [textOf_cons, hn]
        rfl
    · intro hk
      cases hcons : rest ++ kept with
      | nil =>
        obtain ⟨rfl, hkept⟩ := List.append_eq_nil_iff.mp hcons
        exact absurd hk (hm.last hkept piece rfl).1
      | cons next others =>
        rw [← List.append_assoc, hcons] at hrest
        rw [hcons] at hp
        have hn := hrest.1
        obtain ⟨c, text, hc⟩ := List.exists_cons_of_ne_nil hn.text_ne_nil
        refine ⟨c, text ++ textOf others, by rw [textOf_cons, hc]; rfl, ?_⟩
        rw [IsNext, List.append_nil] at hn
        rw [hk, textOf_cons, List.append_assoc, ← textOf_append] at hp
        exact Token.mayStart_behind_blank hp (by rw [hc]; rfl) hn
    · intro hk hnil
      cases hcons : rest ++ kept with
      | nil =>
        obtain ⟨rfl, hkept⟩ := List.append_eq_nil_iff.mp hcons
        exact (hm.last hkept piece rfl).2 hk
      | cons next others =>
        rw [← List.append_assoc, hcons] at hrest
        rw [hcons, textOf_cons, List.append_eq_nil_iff] at hnil
        exact absurd hnil.1 hrest.1.text_ne_nil

/-- Where `<` and `#` do not stand next to each other, nothing opens a block comment. -/
theorem blockComment_eq_none {pieces kept : List Piece} {after : Text} (hafter : after.Separates)
    (hopen : Text.afterFirst? ['<', '#'] (textOf (pieces ++ kept)) = none) :
    ∀ front piece rest, pieces = front ++ piece :: rest → piece.kind = .operator →
      Pattern.blockComment (piece.text ++ (textOf (rest ++ kept) ++ after)) = none := by
  rintro front piece rest rfl -
  have hbehind : Text.afterFirst? ['<', '#'] (piece.text ++ textOf (rest ++ kept)) = none := by
    refine @Token.afterFirst?_eq_none_of_append _ (textOf front) _ ?_
    simpa using hopen
  rw [← List.append_assoc]
  generalize piece.text ++ textOf (rest ++ kept) = text at hbehind
  unfold Pattern.blockComment
  split
  · next t heq =>
    exfalso
    cases text with
    | nil => exact hafter.head?_ne (d := '<') (by decide) (congrArg List.head? heq)
    | cons c text =>
      cases text with
      | nil =>
        exact hafter.head?_ne (d := '#') (by decide) (congrArg List.head? (List.cons.inj heq).2)
      | cons d text =>
        obtain ⟨rfl, hrest⟩ := List.cons.inj heq
        obtain ⟨rfl, -⟩ := List.cons.inj hrest
        rw [Text.afterFirst?] at hbehind
        exact absurd hbehind (Option.some_ne_none _)
  · rfl

end Piece

end DesiredState

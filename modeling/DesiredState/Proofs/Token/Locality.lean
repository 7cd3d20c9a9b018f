/-
What a token needs of the text after it.

A token is read where it stands, but how far it goes may depend on what follows.  Here
it is shown that a token which ends within a text is read in the same way when the
text is cut off behind, and nothing is put there, or a line feed or a space and then
anything.  So a stretch of a source can be taken out of it and written into another one,
on lines of its own, token by token.

Most kinds look at a run of characters and at a few that follow; for those the parts
of a recogniser are shown to be `Local` one by one.  Strings look further, since a
doubled quote closes a string when no other quote is left; but then what follows the
string is no token, and that is ruled out.
-/
import DesiredState.Proofs.Token.Recognition
import DesiredState.Proofs.Token.Spelling

namespace DesiredState

/-- A text that may be put behind a cut: none, or one that starts with a line feed or a space. -/
def Text.Separates (after : Text) : Prop := ∀ c, after.head? = some c → c = '\n' ∨ c = ' '

namespace Text.Separates

theorem nil : Separates [] := fun _ h => by cases h

theorem lineFeed (more : Text) : Separates ('\n' :: more) := fun c h => by
  cases h
  exact .inl rfl

theorem space (more : Text) : Separates (' ' :: more) := fun c h => by
  cases h
  exact .inr rfl

theorem cases {after : Text} (h : after.Separates) :
    after = [] ∨ ∃ more, after = '\n' :: more ∨ after = ' ' :: more := by
  cases after with
  | nil => exact .inl rfl
  | cons c more => exact .inr ⟨more, (h c rfl).imp (by rintro rfl; rfl) (by rintro rfl; rfl)⟩

theorem not_of {after : Text} (h : after.Separates) {p : Char → Bool}
    (hp : p '\n' = false ∧ p ' ' = false) {c : Char} (hc : after.head? = some c) : p c = false := by
  rcases h c hc with rfl | rfl
  · exact hp.1
  · exact hp.2

theorem head?_ne {after : Text} (h : after.Separates) {d : Char} (hd : d ≠ '\n' ∧ d ≠ ' ') :
    after.head? ≠ some d := fun hc => (h d hc).elim hd.1 hd.2

end Text.Separates

/-- A recogniser finds and misses the same at a text that is cut off, as long as what it finds ends
within that text. -/
structure Recogniser.Local (r : Recogniser) : Prop where
  /-- What it finds takes something. -/
  takes : Recogniser.Takes r
  /-- What ends before the cut is found again. -/
  found : ∀ {token kept cut after : Text}, after.Separates →
    r (token ++ (kept ++ cut)) = some (kept ++ cut) →
    r (token ++ (kept ++ after)) = some (kept ++ after)
  /-- What is missed is missed again. -/
  missed : ∀ {kept cut after : Text}, after.Separates →
    r (kept ++ cut) = none →
    r (kept ++ after) = none

namespace Pattern

/-! ### Runs

A run ends before the cut or at the cut.  In the first case nothing behind the cut was
looked at, and in the second the text that is put there ends the run as well.
-/

/-- A run that ends before the cut ends there again. -/
theorem dropWhile_cut {p : Char → Bool} {run kept cut after : Text}
    (hp : kept = [] → ∀ c, after.head? = some c → p c = false)
    (h : (run ++ (kept ++ cut)).dropWhile p = kept ++ cut) :
    (run ++ (kept ++ after)).dropWhile p = kept ++ after := by
  have hrun : ∀ c ∈ run, p c := by
    rw [List.dropWhile_append] at h
    by_cases he : (run.dropWhile p).isEmpty
    · exact List.dropWhile_eq_nil_iff.mp (List.isEmpty_iff.mp he)
    · rw [if_neg he, List.append_left_eq_self] at h
      exact absurd (List.isEmpty_iff.mpr h) he
  rw [List.dropWhile_append_of_pos hrun] at h ⊢
  cases kept with
  | nil =>
    cases after with
    | nil => rfl
    | cons c more => rw [List.nil_append, List.dropWhile_cons, if_neg (by simp [hp rfl c rfl])]
  | cons c kept =>
    have hc : p c = false := by
      rw [Bool.eq_false_iff]
      intro hc
      have := (dropWhile_suffix p (kept ++ cut)).length_le
      rw [List.cons_append, List.dropWhile_cons, if_pos hc] at h
      rw [h, List.length_cons] at this
      omega
    rw [List.cons_append, List.dropWhile_cons, if_neg (by simp [hc])]

/-- The end of a text behind a cut, seen from before it. -/
theorem exists_split {token behind rest : Text} (h : rest <:+ token ++ behind)
    (hl : behind.length ≤ rest.length) : ∃ first second, token = first ++ second ∧
      rest = second ++ behind := by
  obtain ⟨first, hf⟩ := h
  obtain ⟨second, hs⟩ := List.suffix_of_suffix_length_le (List.suffix_append token behind)
    (⟨first, hf⟩ : rest <:+ token ++ behind) hl
  refine ⟨first, second, ?_, hs.symm⟩
  rw [← hs, ← List.append_assoc] at hf
  exact (List.append_cancel_right hf).symm

theorem one_local {p : Char → Bool} (hp : p '\n' = false ∧ p ' ' = false) :
    Recogniser.Local (one p) where
  takes := one_takes p
  found := by
    intro token kept cut after hafter h
    cases token with
    | nil => exact absurd (one_takes p _ _ h).2 (Nat.lt_irrefl _)
    | cons c token =>
      simp only [List.cons_append, one, Option.ite_none_right_eq_some, Option.some.injEq] at h ⊢
      refine ⟨h.1, ?_⟩
      rw [List.append_left_eq_self.mp h.2, List.nil_append]
  missed := by
    intro kept cut after hafter h
    cases kept with
    | nil =>
      cases after with
      | nil => rfl
      | cons c more => simp [one, hafter.not_of hp rfl]
    | cons c kept =>
      simp only [List.cons_append, one, ite_eq_right_iff, reduceCtorEq, imp_false] at h ⊢
      exact h

theorem some1_local {p : Char → Bool} (hp : p '\n' = false ∧ p ' ' = false) :
    Recogniser.Local (some1 p) where
  takes := some1_takes p
  found := by
    intro token kept cut after hafter h
    cases token with
    | nil => exact absurd (some1_takes p _ _ h).2 (Nat.lt_irrefl _)
    | cons c token =>
      simp only [List.cons_append, some1, Option.ite_none_right_eq_some, Option.some.injEq] at h ⊢
      exact ⟨h.1, dropWhile_cut (fun _ _ hc => hafter.not_of hp hc) h.2⟩
  missed := by
    intro kept cut after hafter h
    cases kept with
    | nil =>
      cases after with
      | nil => rfl
      | cons c more => simp [some1, hafter.not_of hp rfl]
    | cons c kept =>
      simp only [List.cons_append, some1, ite_eq_right_iff, reduceCtorEq, imp_false] at h ⊢
      exact h

theorem word_local {p : Char → Bool} (hp : p '\n' = false ∧ p ' ' = false) :
    Recogniser.Local (word p) where
  takes := word_takes p
  found := by
    intro token kept cut after hafter h
    cases token with
    | nil => exact absurd (word_takes p _ _ h).2 (Nat.lt_irrefl _)
    | cons c token =>
      simp only [List.cons_append, word, Option.ite_none_right_eq_some, Option.some.injEq] at h ⊢
      exact ⟨h.1, dropWhile_cut (fun _ _ hc => hafter.not_of hp hc) h.2⟩
  missed := by
    intro kept cut after hafter h
    cases kept with
    | nil =>
      cases after with
      | nil => rfl
      | cons c more => simp [word, hafter.not_of (p := isWordStart) ⟨rfl, rfl⟩ rfl]
    | cons c kept =>
      simp only [List.cons_append, word, ite_eq_right_iff, reduceCtorEq, imp_false] at h ⊢
      exact h

/-! ### Parts after another

A part that was not found has to be missed again.  This is asked of each part along with
the other, since the next part depends on both.
-/

/-- A part that may be missing, at the end of a token. -/
theorem optional_cut {r : Recogniser} (hr : Recogniser.Local r) {t k c : Text}
    {after : Text} (hafter : after.Separates) (h : optional r (t ++ (k ++ c)) = k ++ c) :
    optional r (t ++ (k ++ after)) = k ++ after := by
  unfold optional at h ⊢
  cases hf : r (t ++ (k ++ c)) with
  | some rest =>
    rw [hf, Option.getD_some] at h
    rw [h] at hf
    rw [hr.found hafter hf, Option.getD_some]
  | none =>
    rw [hf, Option.getD_none, List.append_left_eq_self] at h
    rw [h, List.nil_append] at hf ⊢
    rw [hr.missed hafter hf, Option.getD_none]

/-- A first part, and a rest of the token behind it. -/
theorem found_then {r : Recogniser} (hr : Recogniser.Local r) {token kept cut rest : Text}
    (h : r (token ++ (kept ++ cut)) = some rest) (hrest : kept ++ cut <:+ rest) :
    ∃ second, rest = second ++ (kept ++ cut) ∧
      ∀ {after : Text}, after.Separates →
        r (token ++ (kept ++ after)) = some (second ++ (kept ++ after)) := by
  obtain ⟨hs, -⟩ := hr.takes _ _ h
  obtain ⟨first, second, rfl, rfl⟩ := exists_split hs hrest.length_le
  refine ⟨second, rfl, ?_⟩
  intro after hafter
  rw [List.append_assoc, ← List.append_assoc second] at h
  have := hr.found hafter h
  rwa [List.append_assoc second, ← List.append_assoc] at this

/-- A first character, and what is found behind it. -/
theorem afterChar_local {r : Recogniser} (hr : Recogniser.Local r) {c : Char} (hc : c ≠ '\n' ∧ c ≠ ' ')
    {r' : Recogniser} (hcons : ∀ t, r' (c :: t) = r t) (hother : ∀ d t, d ≠ c → r' (d :: t) = none)
    (hnil : r' [] = none) : Recogniser.Local r' where
  takes := by
    intro t rest h
    cases t with
    | nil => rw [hnil] at h; exact absurd h.symm (Option.some_ne_none _)
    | cons d t =>
      by_cases hd : d = c
      · rw [hd, hcons] at h
        exact suffix_cons d (hr.takes t rest h).1
      · rw [hother d t hd] at h
        exact absurd h.symm (Option.some_ne_none _)
  found := by
    intro token kept cut after hafter h
    cases token with
    | nil =>
      exfalso
      cases hk : kept ++ cut with
      | nil => rw [List.nil_append, hk, hnil] at h; exact absurd h.symm (Option.some_ne_none _)
      | cons d t =>
        rw [List.nil_append, hk] at h
        by_cases hd : d = c
        · rw [hd, hcons] at h
          have := (hr.takes t _ h).2
          rw [List.length_cons] at this
          omega
        · rw [hother d t hd] at h
          exact absurd h.symm (Option.some_ne_none _)
    | cons d token =>
      by_cases hd : d = c
      · rw [hd, List.cons_append, hcons] at h ⊢
        exact hr.found hafter h
      · rw [List.cons_append, hother d _ hd] at h
        exact absurd h.symm (Option.some_ne_none _)
  missed := by
    intro kept cut after hafter h
    cases kept with
    | nil =>
      cases after with
      | nil => exact hnil
      | cons d more => exact hother d more fun hd => hafter.head?_ne hc (congrArg some hd)
    | cons d kept =>
      by_cases hd : d = c
      · rw [hd, List.cons_append, hcons] at h ⊢
        exact hr.missed hafter h
      · exact hother d _ hd

theorem qualifier_local : Recogniser.Local qualifier :=
  afterChar_local (c := ':') (some1_local (p := isWord) ⟨rfl, rfl⟩) (by decide) (fun _ => rfl)
    (fun _ t h => qualifier_cons_of_ne t h) rfl

theorem fraction_local : Recogniser.Local fraction :=
  afterChar_local (c := '.') (some1_local (p := Char.isDigit) ⟨rfl, rfl⟩) (by decide) (fun _ => rfl)
    (fun _ t h => fraction_cons_of_ne t h) rfl

/-- An optional sign and digits. -/
theorem signedDigits_local :
    Recogniser.Local fun t =>
      some1 Char.isDigit (optional (one fun c => c == '+' || c == '-') t) where
  takes := by
    intro t rest h
    have hs := optional_suffix (one_takes fun c => c == '+' || c == '-') t
    have hd := some1_takes _ _ _ h
    exact ⟨hd.1.trans hs, Nat.lt_of_lt_of_le hd.2 hs.length_le⟩
  found := by
    intro token kept cut after hafter h
    have hsign := one_local (p := fun c => c == '+' || c == '-') ⟨rfl, rfl⟩
    have hdigits := some1_local (p := Char.isDigit) ⟨rfl, rfl⟩
    unfold optional at h ⊢
    cases hf : one (fun c => c == '+' || c == '-') (token ++ (kept ++ cut)) with
    | some rest =>
      simp only [hf, Option.getD_some] at h
      obtain ⟨second, rfl, hagain⟩ := found_then hsign hf (hdigits.takes _ _ h).1
      simp only [hagain hafter, Option.getD_some]
      exact hdigits.found hafter h
    | none =>
      simp only [hf, Option.getD_none] at h
      rw [← List.append_assoc] at hf
      have := hsign.missed hafter hf
      rw [List.append_assoc] at this
      simp only [this, Option.getD_none]
      exact hdigits.found hafter h
  missed := by
    intro kept cut after hafter h
    have hdigits := some1_local (p := Char.isDigit) ⟨rfl, rfl⟩
    cases kept with
    | nil => rcases hafter.cases with rfl | ⟨more, rfl | rfl⟩ <;> rfl
    | cons c kept =>
      by_cases hc : (c == '+' || c == '-') = true
      · simp only [List.cons_append, optional, one, hc, if_true, Option.getD_some] at h ⊢
        exact hdigits.missed hafter h
      · simp only [List.cons_append, optional, one, hc, if_false, Option.getD_none,
          Bool.false_eq_true] at h ⊢
        rw [← List.cons_append] at h ⊢
        exact hdigits.missed hafter h

theorem exponent_local : Recogniser.Local exponent where
  takes := exponent_takes
  found := by
    intro token kept cut after hafter h
    cases token with
    | nil => exact absurd (exponent_takes _ _ h).2 (Nat.lt_irrefl _)
    | cons c token =>
      rw [List.cons_append, exponent, Option.ite_none_right_eq_some] at h ⊢
      exact ⟨h.1, signedDigits_local.found hafter h.2⟩
  missed := by
    intro kept cut after hafter h
    cases kept with
    | nil => rcases hafter.cases with rfl | ⟨more, rfl | rfl⟩ <;> rfl
    | cons c kept =>
      rw [List.cons_append, exponent] at h ⊢
      by_cases hc : c = 'e' ∨ c = 'E'
      · rw [if_pos hc] at h ⊢
        exact signedDigits_local.missed hafter h
      · rw [if_neg hc]

theorem multiple_local : Recogniser.Local multiple where
  takes := multiple_takes
  found := by
    intro token kept cut after hafter h
    cases token with
    | nil => exact absurd (multiple_takes _ _ h).2 (Nat.lt_irrefl _)
    | cons c token =>
      cases token with
      | nil =>
        exfalso
        cases hk : kept ++ cut with
        | nil => rw [hk] at h; exact absurd h.symm (Option.some_ne_none _)
        | cons d t =>
          rw [hk, List.cons_append, List.nil_append, multiple, Option.ite_none_right_eq_some,
            Option.some.injEq] at h
          have := congrArg List.length h.2
          rw [List.length_cons] at this
          omega
      | cons d token =>
        rw [List.cons_append, List.cons_append, multiple, Option.ite_none_right_eq_some,
          Option.some.injEq] at h ⊢
        refine ⟨h.1, ?_⟩
        rw [List.append_left_eq_self.mp h.2, List.nil_append]
  missed := by
    intro kept cut after hafter h
    cases kept with
    | nil =>
      cases after with
      | nil => rfl
      | cons c after =>
        cases after with
        | nil => rfl
        | cons d more =>
          rw [List.nil_append, multiple, if_neg]
          rintro ⟨hunit, -⟩
          rcases hafter c rfl with rfl | rfl <;> exact absurd hunit (by decide)
    | cons c kept =>
      cases kept with
      | nil =>
        cases after with
        | nil => rfl
        | cons d more =>
          rw [List.cons_append, List.nil_append, multiple, if_neg]
          rintro ⟨-, hbyte⟩
          rcases hafter d rfl with rfl | rfl <;> exact absurd hbyte (by decide)
      | cons d kept =>
        rw [List.cons_append, List.cons_append, multiple, ite_eq_right_iff] at h ⊢
        intro hc
        exact absurd (h hc) (Option.some_ne_none _)

/-! ### Numbers -/

theorem nil_eq_none {r : Recogniser} (h : Recogniser.Takes r) : r [] = none := by
  cases hr : r [] with
  | none => rfl
  | some rest => exact absurd (h [] rest hr).2 (Nat.not_lt_zero _)

/-- Repeated parts that end before the cut end there again.  The bounds are those of the texts, so
that the parts end because the next one is missed. -/
theorem repeated_cut {r : Recogniser} (hr : Recogniser.Local r) {kept cut after : Text} (hafter : after.Separates) :
    ∀ (n m : Nat) (token : Text), (token ++ (kept ++ cut)).length ≤ n →
      (token ++ (kept ++ after)).length ≤ m →
      repeated r n (token ++ (kept ++ cut)) = kept ++ cut →
      repeated r m (token ++ (kept ++ after)) = kept ++ after := by
  have hstop : ∀ m, r (kept ++ cut) = none →
      repeated r m (kept ++ after) = kept ++ after := by
    intro m h
    cases m with
    | zero => rfl
    | succ m => rw [repeated, hr.missed hafter h]
  intro n
  induction n with
  | zero =>
    intro m token hn hm h
    have hnil := List.eq_nil_of_length_eq_zero (Nat.le_zero.mp hn)
    rw [List.append_eq_nil_iff] at hnil
    rw [hnil.1, List.nil_append]
    refine hstop m ?_
    rw [hnil.2]
    exact nil_eq_none hr.takes
  | succ n ih =>
    intro m token hn hm h
    rw [repeated] at h
    cases hf : r (token ++ (kept ++ cut)) with
    | none =>
      simp only [hf, List.append_left_eq_self] at h
      rw [h, List.nil_append] at hf ⊢
      exact hstop m hf
    | some rest =>
      simp only [hf] at h
      have hrest : kept ++ cut <:+ rest := by
        rw [← h]
        exact repeated_suffix hr.takes n rest
      have hlt := (hr.takes _ _ hf).2
      obtain ⟨second, rfl, hagain⟩ := found_then hr hf hrest
      have hlt' := (hr.takes _ _ (hagain hafter)).2
      cases m with
      | zero => exact absurd hlt' (by omega)
      | succ m =>
        rw [repeated, hagain hafter]
        exact ih m second (by omega) (by omega) h

theorem hexadecimal_local : Recogniser.Local hexadecimal where
  takes := hexadecimal_takes
  found := by
    intro token kept cut after hafter h
    have hdigits := some1_local
      (p := fun c => c.isDigit || ('a' ≤ c && c ≤ 'f') || ('A' ≤ c && c ≤ 'F')) ⟨rfl, rfl⟩
    cases token with
    | nil => exact absurd (hexadecimal_takes _ _ h).2 (Nat.lt_irrefl _)
    | cons c token =>
      cases token with
      | nil =>
        exfalso
        unfold hexadecimal at h
        split at h
        · next heq =>
          rw [List.cons_append, List.nil_append, List.cons.injEq] at heq
          rw [Option.ite_none_right_eq_some] at h
          have := (hdigits.takes _ _ h.2).2
          rw [heq.2, List.length_cons] at this
          omega
        · exact absurd h.symm (Option.some_ne_none _)
      | cons x token =>
        unfold hexadecimal at h
        split at h
        · next heq =>
          rw [List.cons_append, List.cons_append, List.cons.injEq, List.cons.injEq] at heq
          obtain ⟨rfl, rfl, rfl⟩ := heq
          rw [Option.ite_none_right_eq_some] at h
          rw [List.cons_append, List.cons_append, hexadecimal, if_pos h.1]
          exact hdigits.found hafter h.2
        · exact absurd h.symm (Option.some_ne_none _)
  missed := by
    intro kept cut after hafter h
    have hdigits := some1_local
      (p := fun c => c.isDigit || ('a' ≤ c && c ≤ 'f') || ('A' ≤ c && c ≤ 'F')) ⟨rfl, rfl⟩
    cases kept with
    | nil => rcases hafter.cases with rfl | ⟨more, rfl | rfl⟩ <;> rfl
    | cons c kept =>
      cases kept with
      | nil =>
        unfold hexadecimal
        split
        · next heq =>
          rw [List.cons_append, List.nil_append, List.cons.injEq] at heq
          rw [if_neg]
          rintro (rfl | rfl)
          · exact hafter.head?_ne (d := 'x') (by decide) (by rw [heq.2]; rfl)
          · exact hafter.head?_ne (d := 'X') (by decide) (by rw [heq.2]; rfl)
        · rfl
      | cons x kept =>
        by_cases hc : c = '0'
        · rw [hc, List.cons_append, List.cons_append, hexadecimal] at h ⊢
          by_cases hx : x = 'x' ∨ x = 'X'
          · rw [if_pos hx] at h ⊢
            exact hdigits.missed hafter h
          · rw [if_neg hx]
        · unfold hexadecimal
          split
          · next heq => exact absurd (List.cons.inj heq).1 hc
          · rfl

theorem decimal_found {token kept cut after : Text} (hafter : after.Separates)
    (h : decimal (token ++ (kept ++ cut)) = some (kept ++ cut)) :
    decimal (token ++ (kept ++ after)) = some (kept ++ after) := by
  simp only [decimal, Option.map_eq_some_iff] at h ⊢
  obtain ⟨digits, hd, he⟩ := h
  have hfraction := repeated_suffix fraction_takes digits.length digits
  have hexponent := optional_suffix exponent_takes (repeated fraction digits.length digits)
  rw [he] at hexponent
  obtain ⟨second, rfl, hagain⟩ :=
    found_then (some1_local (p := Char.isDigit) ⟨rfl, rfl⟩) hd (hexponent.trans hfraction)
  refine ⟨_, hagain hafter, ?_⟩
  obtain ⟨first, third, rfl, hrep⟩ := exists_split hfraction hexponent.length_le
  rw [hrep] at he
  rw [List.append_assoc, ← List.append_assoc third] at hrep
  have := repeated_cut fraction_local hafter _ _ first (Nat.le_refl _) (Nat.le_refl _) hrep
  rw [List.append_assoc, ← List.append_assoc third, this, List.append_assoc]
  exact optional_cut exponent_local hafter he

theorem decimal_missed {kept cut after : Text} (hafter : after.Separates) (h : decimal (kept ++ cut) = none) :
    decimal (kept ++ after) = none := by
  rw [decimal, Option.map_eq_none_iff] at h ⊢
  exact (some1_local (p := Char.isDigit) ⟨rfl, rfl⟩).missed hafter h

theorem decimal_local : Recogniser.Local decimal where
  takes := decimal_takes
  found := decimal_found
  missed := decimal_missed

/-- A number without a sign. -/
theorem unsigned_found {token kept cut after : Text} (hafter : after.Separates)
    (h : ((hexadecimal (token ++ (kept ++ cut))).or (decimal (token ++ (kept ++ cut)))).map
      (optional multiple) = some (kept ++ cut)) :
    ((hexadecimal (token ++ (kept ++ after))).or
      (decimal (token ++ (kept ++ after)))).map (optional multiple) =
      some (kept ++ after) := by
  rw [Option.map_eq_some_iff] at h ⊢
  obtain ⟨digits, hd, hm⟩ := h
  have hrest := optional_suffix multiple_takes digits
  rw [hm] at hrest
  rcases Option.or_eq_some_iff.mp hd with hx | ⟨hx, hdec⟩
  · obtain ⟨second, rfl, hagain⟩ := found_then hexadecimal_local hx hrest
    exact ⟨_, by rw [hagain hafter, Option.some_or], optional_cut multiple_local hafter hm⟩
  · obtain ⟨second, rfl, hagain⟩ := found_then decimal_local hdec hrest
    rw [← List.append_assoc] at hx
    have hnone := hexadecimal_local.missed hafter hx
    rw [List.append_assoc] at hnone
    exact ⟨_, by rw [hnone, Option.none_or, hagain hafter], optional_cut multiple_local hafter hm⟩

theorem number_found {token kept cut after : Text} (hafter : after.Separates)
    (h : number (token ++ (kept ++ cut)) = some (kept ++ cut)) :
    number (token ++ (kept ++ after)) = some (kept ++ after) := by
  cases token with
  | nil => exact absurd (number_takes _ _ h).2 (Nat.lt_irrefl _)
  | cons c token =>
    by_cases hc : (c == '-') = true
    · simp only [number, List.cons_append, optional, one, hc, if_true, Option.getD_some] at h ⊢
      exact unsigned_found hafter h
    · simp only [number, List.cons_append, optional, one, hc, if_false, Option.getD_none,
        Bool.false_eq_true] at h ⊢
      rw [← List.cons_append] at h ⊢
      exact unsigned_found hafter h

/-- Whether a number follows a dash is seen at the next character. -/
theorem number_dash_missed {kept cut after : Text} (hafter : after.Separates)
    (h : number ('-' :: (kept ++ cut)) = none) : number ('-' :: (kept ++ after)) = none := by
  simp only [number, optional, one, beq_self_eq_true, if_true, Option.getD_some,
    Option.map_eq_none_iff, Option.or_eq_none_iff] at h ⊢
  exact ⟨hexadecimal_local.missed hafter h.1, decimal_local.missed hafter h.2⟩

end Pattern

end DesiredState

/-
The tokens of what is written.

Names, quoted strings, integers, truth values and comments are each read back as one
token, provided that what comes next cannot go on with it.  Everything that is written
is followed by a space, a line feed, a comma, a bracket or a brace, so one condition on
what follows serves them all; at the end of a text it holds as well.
-/
import DesiredState.Number.Decimal
import DesiredState.Proofs.Token.FirstCharacter
import DesiredState.Text.Quoted
import Mathlib.Data.List.TakeWhile

namespace DesiredState

/-- A text that ends whatever is written before it: it is empty or starts with a character that
does. -/
def Text.Delimits (after : Text) : Prop :=
  ∀ c rest, after = c :: rest → c ∈ [' ', '\n', ',', ')', '\x7b']

namespace Text.Delimits

variable {after : Text}

theorem nil : Delimits [] := by
  intro c rest h
  cases h

theorem cons {c : Char} (h : c ∈ [' ', '\n', ',', ')', '\x7b']) (rest : Text) :
    Delimits (c :: rest) := by
  rintro d more hd
  rw [← (List.cons.inj hd).1]
  exact h

theorem space (rest : Text) : Delimits (' ' :: rest) := cons (by decide) rest

theorem lineFeed (rest : Text) : Delimits ('\n' :: rest) := cons (by decide) rest

theorem comma (rest : Text) : Delimits (',' :: rest) := cons (by decide) rest

theorem parenClose (rest : Text) : Delimits (')' :: rest) := cons (by decide) rest

theorem braceOpen (rest : Text) : Delimits ('\x7b' :: rest) := cons (by decide) rest

theorem not_of_all {p : Char → Bool} (hp : [' ', '\n', ',', ')', '\x7b'].all fun c => !p c)
    {c : Char} (hc : c ∈ [' ', '\n', ',', ')', '\x7b']) : p c = false := by
  simpa using List.all_eq_true.mp hp c hc

/-- A run of characters of a class that holds no delimiter ends where it is delimited. -/
theorem dropWhile_append (h : Delimits after) {p : Char → Bool}
    (hp : [' ', '\n', ',', ')', '\x7b'].all fun c => !p c) {run : Text} (hrun : ∀ c ∈ run, p c) :
    (run ++ after).dropWhile p = after := by
  rw [List.dropWhile_append_of_pos hrun]
  cases after with
  | nil => rfl
  | cons c rest => rw [List.dropWhile_cons, if_neg (by simp [not_of_all hp (h c rest rfl)])]

theorem takeWhile_append (h : Delimits after) {p : Char → Bool}
    (hp : [' ', '\n', ',', ')', '\x7b'].all fun c => !p c) {run : Text} (hrun : ∀ c ∈ run, p c) :
    (run ++ after).takeWhile p = run := by
  rw [List.takeWhile_append_of_pos hrun]
  cases after with
  | nil => exact List.append_nil run
  | cons c rest =>
    rw [List.takeWhile_cons, if_neg (by simp [not_of_all hp (h c rest rfl)]), List.append_nil]

end Text.Delimits

namespace Token

/-! ### Names

Whether a text is a word is tested by reading it.  What the test says is turned into the
shape of the text, which no longer depends on what comes behind.
-/

/-- A text that is one word, and nothing after it. -/
def IsWord (kind : TokenKind) (name : Text) : Prop :=
  kind.isName ∧ next? name = some (kind, [])

instance (kind : TokenKind) (name : Text) : Decidable (IsWord kind name) :=
  inferInstanceAs (Decidable (_ ∧ _))

theorem isWordStart_of_mayStart {kind : TokenKind} {c : Char} (hk : kind.isName)
    (h : kind.mayStart c) : Pattern.isWordStart c := by
  have halpha : ∀ l : Char, l.isLower → c.toLower = l → Pattern.isWordStart c := by
    intro l hl hc
    have : c.isAlpha := Pattern.isAlpha_of_toLower (hc ▸ hl)
    simp [Pattern.isWordStart, this]
  cases kind <;> simp only [TokenKind.isName, Bool.false_eq_true] at hk
  all_goals simp only [TokenKind.mayStart, beq_iff_eq] at h
  case bareword => exact h
  all_goals exact halpha _ (by decide) h

/-- Where a word is read its first character starts words. -/
theorem isWordStart_of_next? {kind : TokenKind} {c : Char} {t rest : Text} (hk : kind.isName)
    (h : next? (c :: t) = some (kind, rest)) : Pattern.isWordStart c :=
  isWordStart_of_mayStart hk (recognise_of_next? h).1

/-- The shape of a word: bare characters, the first of which starts words. -/
theorem IsWord.shape {kind : TokenKind} {name : Text} (h : IsWord kind name) :
    ∃ c run, name = c :: run ∧ Pattern.isWordStart c ∧ (∀ d ∈ run, Pattern.isBare d) ∧
      kind = wordKind name := by
  obtain ⟨hk, hn⟩ := h
  cases name with
  | nil => exact absurd (next?_takes hn).2.2 (Nat.lt_irrefl _)
  | cons c run =>
    have hs := isWordStart_of_next? hk hn
    rw [next?_word hs, Option.some.injEq, Prod.mk.injEq, List.dropWhile_eq_nil_iff] at hn
    have hrun : run.takeWhile Pattern.isBare = run :=
      List.takeWhile_eq_self_iff.mpr hn.2
    rw [hrun] at hn
    exact ⟨c, run, rfl, hs, hn.2, hn.1.symm⟩

theorem IsWord.ne_nil {kind : TokenKind} {name : Text} (h : IsWord kind name) : name ≠ [] := by
  obtain ⟨c, run, rfl, -⟩ := h.shape
  exact List.cons_ne_nil c run

/-- A word is what the pattern of bare words takes as a whole. -/
theorem isWord_wordKind_iff {name : Text} :
    IsWord (wordKind name) name ↔ Pattern.bareword name = some [] := by
  constructor
  · intro h
    obtain ⟨c, run, rfl, hs, hrun, -⟩ := h.shape
    rw [Pattern.bareword, Pattern.word, if_pos hs, List.dropWhile_eq_nil_iff.mpr hrun]
  · intro h
    cases name with
    | nil => cases h
    | cons c run =>
      rw [Pattern.bareword, Pattern.word] at h
      split at h
      · next hs =>
        have hrun := Option.some.inj h
        have htake : run.takeWhile Pattern.isBare = run :=
          List.takeWhile_eq_self_iff.mpr (List.dropWhile_eq_nil_iff.mp hrun)
        exact ⟨isName_wordKind _, by rw [next?_word hs, hrun, htake]⟩
      · cases h
theorem isBare_delimiter :
    [' ', '\n', ',', ')', '\x7b'].all fun c => !Pattern.isBare c := by
  decide

/-- A name is read back where it is delimited. -/
theorem IsWord.next? {kind : TokenKind} {name after : Text} (h : IsWord kind name)
    (ha : Text.Delimits after) : Token.next? (name ++ after) = some (kind, after) := by
  obtain ⟨c, run, rfl, hs, hrun, rfl⟩ := h.shape
  rw [List.cons_append, next?_word hs, ha.takeWhile_append isBare_delimiter hrun,
    ha.dropWhile_append isBare_delimiter hrun]

/-! ### Strings

Escaping doubles what would close the string, so that the quote at its end is the first
that closes it.  Another quote behind that would be taken for a doubled one.
-/

/-- The closing quote is found behind what was escaped. -/
theorem closeDouble_escapeDouble (value : Text) {after : Text} (ha : after.head? ≠ some '"') :
    Pattern.closeDouble (Text.escapeDouble value ++ '"' :: after) = some after := by
  fun_induction Text.escapeDouble value with
  | case1 =>
    rw [List.nil_append, Pattern.closeDouble]
    intro rest hr
    rw [hr] at ha
    exact ha rfl
  | case2 rest ih => rw [List.cons_append, List.cons_append, Pattern.closeDouble, ih]
  | case3 rest ih => rw [List.cons_append, List.cons_append, Pattern.closeDouble, ih]
  | case4 c rest hb hq ih =>
    rw [List.cons_append, Pattern.closeDouble, ih]
    all_goals simp_all

theorem Delimits.head?_ne {after : Text} (h : Text.Delimits after) : after.head? ≠ some '"' := by
  intro he
  obtain ⟨rest, rfl⟩ := List.head?_eq_some_iff.mp he
  exact absurd (h '"' rest rfl) (by decide)

/-- A quoted string is read back where no other quote follows. -/
theorem next?_quoted_of_head? (value : Text) {after : Text} (ha : after.head? ≠ some '"') :
    next? (('"' :: Text.escapeDouble value ++ ['"']) ++ after) = some (.doubleQuoted, after) := by
  rw [List.cons_append, List.cons_append, List.append_assoc, next?_doubleQuote,
    List.singleton_append, closeDouble_escapeDouble value ha]
  rfl

/-- A quoted string is read back where it is delimited. -/
theorem next?_quoted (value : Text) {after : Text} (ha : Text.Delimits after) :
    next? (('"' :: Text.escapeDouble value ++ ['"']) ++ after) = some (.doubleQuoted, after) :=
  next?_quoted_of_head? value (Delimits.head?_ne ha)

/-! ### Numbers

A number could go on with a point, an exponent or a multiple.  None of these starts
where the text is delimited.
-/

/-- The parts of a number that come after its digits are not there. -/
theorem number_ends {after : Text} (ha : Text.Delimits after) (n : Nat) :
    Pattern.optional Pattern.multiple
      (Pattern.optional Pattern.exponent (Pattern.repeated Pattern.fraction n after)) = after := by
  have hfraction : Pattern.fraction after = none := by
    unfold Pattern.fraction
    split
    · exact absurd (ha _ _ rfl) (by decide)
    · rfl
  have hexponent : Pattern.exponent after = none := by
    cases after with
    | nil => rfl
    | cons c rest =>
      have hc := ha c rest rfl
      rw [Pattern.exponent, if_neg]
      rintro (rfl | rfl) <;> exact absurd hc (by decide)
  have hmultiple : Pattern.multiple after = none := by
    match after, ha with
    | [], _ => rfl
    | [c], _ => rfl
    | c :: d :: rest, ha =>
      have hletter : [' ', '\n', ',', ')', '\x7b'].all fun u =>
          decide (u.toLower ∉ ['k', 'm', 'g', 't', 'p']) := by decide
      have hc := of_decide_eq_true (List.all_eq_true.mp hletter c (ha c _ rfl))
      rw [Pattern.multiple, if_neg fun h => hc h.1]
  have hrepeated : Pattern.repeated Pattern.fraction n after = after := by
    cases n with
    | zero => rfl
    | succ n => rw [Pattern.repeated, hfraction]
  rw [hrepeated, Pattern.optional, Pattern.optional, hexponent, Option.getD_none, hmultiple,
    Option.getD_none]

/-- Digits are no hexadecimal number where they are delimited. -/
theorem hexadecimal_eq_none {digits after : Text} (hd : ∀ c ∈ digits, c.isDigit)
    (hne : digits ≠ []) (ha : Text.Delimits after) :
    Pattern.hexadecimal (digits ++ after) = none := by
  have hx : ∀ x rest, digits ++ after = '0' :: x :: rest → ¬(x = 'x' ∨ x = 'X') := by
    intro x rest h
    cases digits with
    | nil => exact absurd rfl hne
    | cons c run =>
      cases run with
      | nil =>
        have hmem := ha x rest (List.cons.inj h).2
        rintro (rfl | rfl) <;> exact absurd hmem (by decide)
      | cons d run =>
        have hxd : d = x := (List.cons.inj (List.cons.inj h).2).1
        have := hd d (List.mem_cons_of_mem c List.mem_cons_self)
        rintro (rfl | rfl) <;> rw [hxd] at this <;> exact absurd this (by decide)
  unfold Pattern.hexadecimal
  split
  · next x rest heq => rw [if_neg (hx x rest heq)]
  · rfl

/-- The digits of a natural number are read back where they are delimited. -/
theorem number_digits (n : Nat) {after : Text} (ha : Text.Delimits after) :
    ((Pattern.hexadecimal (Text.ofNat n ++ after)).or
      (Pattern.decimal (Text.ofNat n ++ after))).map (Pattern.optional Pattern.multiple) =
      some after := by
  have hdigits : ∀ c ∈ Text.ofNat n, c.isDigit :=
    fun c hc => Nat.isDigit_of_mem_toDigits (by decide) (by decide) hc
  rw [hexadecimal_eq_none hdigits Nat.toDigits_ne_nil ha, Option.none_or]
  obtain ⟨c, run, hrun⟩ := List.exists_cons_of_ne_nil (Nat.toDigits_ne_nil (b := 10) (n := n))
  have hsome : Pattern.some1 Char.isDigit (Text.ofNat n ++ after) = some after := by
    rw [Text.ofNat, hrun] at hdigits ⊢
    rw [List.cons_append, Pattern.some1, if_pos (hdigits c List.mem_cons_self),
      ha.dropWhile_append (by decide) fun d hd => hdigits d (List.mem_cons_of_mem c hd)]
  rw [Pattern.decimal, hsome, Option.map_some, Option.map_some, number_ends ha]

/-- A character that is a digit starts numbers alone. -/
theorem next?_digit {c : Char} (h : c.isDigit) (t : Text) :
    next? (c :: t) = (Pattern.number (c :: t)).map (.number, ·) := by
  have hc : c ∈ ['0', '1', '2', '3', '4', '5', '6', '7', '8', '9'] := by
    rw [Char.isDigit_iff_toNat, show '0'.toNat = 48 from rfl, show '9'.toNat = 57 from rfl] at h
    have hv := Char.ofNat_toNat c
    have hn : c.toNat = 48 ∨ c.toNat = 49 ∨ c.toNat = 50 ∨ c.toNat = 51 ∨ c.toNat = 52 ∨
        c.toNat = 53 ∨ c.toNat = 54 ∨ c.toNat = 55 ∨ c.toNat = 56 ∨ c.toNat = 57 := by omega
    rcases hn with hn | hn | hn | hn | hn | hn | hn | hn | hn | hn <;>
      (rw [hn] at hv; rw [← hv]; decide)
  simp only [List.mem_cons, List.not_mem_nil, or_false] at hc
  rcases hc with rfl | rfl | rfl | rfl | rfl | rfl | rfl | rfl | rfl | rfl <;>
    exact next?_of_only rfl t

/-- An integer is read back where it is delimited. -/
theorem next?_integer (n : Int) {after : Text} (ha : Text.Delimits after) :
    next? (Binary64.textOfInt n ++ after) = some (.number, after) := by
  obtain ⟨c, run, hrun⟩ :=
    List.exists_cons_of_ne_nil (Nat.toDigits_ne_nil (b := 10) (n := n.natAbs))
  have hc : c.isDigit := Nat.isDigit_of_mem_toDigits (b := 10) (n := n.natAbs) (by decide)
    (by decide) (by rw [hrun]; exact List.mem_cons_self)
  have hdigits := number_digits n.natAbs ha
  unfold Binary64.textOfInt
  rw [Text.ofNat, hrun] at hdigits ⊢
  by_cases hn : n < 0
  · have hparameter : Pattern.parameter ('-' :: (c :: run ++ after)) = none := by
      rw [List.cons_append, Pattern.parameter, Pattern.word, if_neg, Option.map_none]
      intro hs
      rw [Pattern.isDigit_of_isWordStart hs] at hc
      exact Bool.false_ne_true hc
    have hnumber : Pattern.number ('-' :: (c :: run ++ after)) = some after := by
      rw [Pattern.number, Pattern.optional, Pattern.one, if_pos (beq_self_eq_true '-'),
        Option.getD_some]
      exact hdigits
    rw [if_pos hn, List.cons_append, next?_cons]
    show [TokenKind.parameter, .number, .operator].findSome? _ = _
    simp only [List.findSome?_cons, TokenKind.recognise, hparameter, hnumber, Option.map_none,
      Option.map_some]
  · have hsign : (c == '-') = false := by
      rw [beq_eq_false_iff_ne]
      rintro rfl
      exact absurd hc (by decide)
    rw [if_neg hn, List.cons_append, next?_digit hc, Pattern.number, Pattern.optional,
      Pattern.one, hsign]
    rw [List.cons_append] at hdigits
    simp only [Bool.false_eq_true, if_false, Option.getD_none]
    rw [hdigits]
    rfl

/-! ### Truth values and comments -/

/-- A variable whose name is a word is read back where it is delimited. -/
theorem next?_variable {c : Char} {run after : Text} (hc : Pattern.isWordStart c)
    (hrun : ∀ d ∈ run, Pattern.isWord d) (ha : Text.Delimits after) :
    next? ('$' :: c :: run ++ after) = some (.variableName, after) := by
  have hne : ∀ d, Pattern.isWordStart d = false → c ≠ d := by
    rintro d hd rfl
    exact absurd hc (by simp [hd])
  have hopen : Pattern.mark ['$', '('] ('$' :: c :: (run ++ after)) = none := by
    simp [Pattern.mark, Text.dropHead?, (hne '(' rfl).symm]
  have hqualifier : Pattern.qualifier after = none := by
    unfold Pattern.qualifier
    split
    · exact absurd (ha _ _ rfl) (by decide)
    · rfl
  have hvariable : Pattern.variableName ('$' :: c :: (run ++ after)) = some after := by
    unfold Pattern.variableName
    split
    · next heq =>
      simp only [List.cons.injEq, true_and] at heq
      exact absurd heq.1 (hne '\x7b' rfl)
    · next heq =>
      simp only [List.cons.injEq, true_and] at heq
      rw [← heq.1, ← heq.2, if_pos hc, ha.dropWhile_append (by decide) hrun, Pattern.optional,
        hqualifier, Option.getD_none]
    · next hno => exact absurd rfl (hno c (run ++ after))
  rw [List.cons_append, List.cons_append, next?_dollar, hopen, hvariable]
  rfl

/-- A mark is found where it stands, whatever comes after a text that is long enough. -/
theorem dropHead?_append_of_le {m t : Text} (x : Text) (h : m.length ≤ t.length) :
    Text.dropHead? m (t ++ x) = (Text.dropHead? m t).map (· ++ x) := by
  induction m generalizing t with
  | nil => simp [Text.dropHead?]
  | cons a m ih =>
    cases t with
    | nil => exact absurd h (Nat.not_succ_le_zero _)
    | cons c t =>
      by_cases hc : a = c
      · simp only [List.cons_append, Text.dropHead?, if_pos hc]
        exact ih (Nat.le_of_succ_le_succ h)
      · simp only [List.cons_append, Text.dropHead?, if_neg hc, Option.map_none]

theorem length_le_of_dropHead? {m t rest : Text} (h : Text.dropHead? m t = some rest) :
    m.length + rest.length = t.length := by
  rw [Text.eq_append_of_dropHead? h, List.length_append]

theorem length_le_of_afterFirst? {m t rest : Text} (h : Text.afterFirst? m t = some rest) :
    m.length + rest.length ≤ t.length := by
  induction t with
  | nil => exact Nat.le_of_eq (length_le_of_dropHead? h)
  | cons c t ih =>
    simp only [Text.afterFirst?] at h
    cases hd : Text.dropHead? m (c :: t) with
    | none =>
      rw [hd] at h
      exact Nat.le_succ_of_le (ih h)
    | some after =>
      rw [hd, Option.some.injEq] at h
      rw [← h]
      exact Nat.le_of_eq (length_le_of_dropHead? hd)

/-- What follows the first mark in a text is the same when the text goes on. -/
theorem afterFirst?_append {m t rest : Text} (x : Text) (h : Text.afterFirst? m t = some rest) :
    Text.afterFirst? m (t ++ x) = some (rest ++ x) := by
  induction t with
  | nil =>
    have := length_le_of_dropHead? h
    rw [List.length_nil, Nat.add_eq_zero_iff] at this
    rw [List.eq_nil_of_length_eq_zero this.1, List.eq_nil_of_length_eq_zero this.2]
    cases x <;> rfl
  | cons c t ih =>
    have hlen := Nat.le_of_add_right_le (length_le_of_afterFirst? h)
    have happ := dropHead?_append_of_le x hlen
    simp only [Text.afterFirst?] at h
    rw [List.cons_append] at happ ⊢
    simp only [Text.afterFirst?, happ]
    cases hd : Text.dropHead? m (c :: t) with
    | none =>
      rw [hd] at h
      exact ih h
    | some after =>
      rw [hd, Option.some.injEq] at h
      rw [h, Option.map_some]

/-- A text that is one comment, and nothing after it. -/
def IsNote (kind : TokenKind) (note : Text) : Prop :=
  kind.isComment ∧ next? note = some (kind, [])

instance (kind : TokenKind) (note : Text) : Decidable (IsNote kind note) :=
  inferInstanceAs (Decidable (_ ∧ _))

/-- A comment is read back at the end of a line. -/
theorem IsNote.next? {kind : TokenKind} {note : Text} (h : IsNote kind note) (rest : Text) :
    Token.next? (note ++ '\n' :: rest) = some (kind, '\n' :: rest) := by
  obtain ⟨hk, hn⟩ := h
  cases note with
  | nil => exact absurd (next?_takes hn).2.2 (Nat.lt_irrefl _)
  | cons c t =>
    obtain ⟨hc, hr⟩ := recognise_of_next? hn
    cases kind <;> simp only [TokenKind.isComment, Bool.false_eq_true] at hk
    case blockComment =>
      simp only [TokenKind.mayStart, beq_iff_eq] at hc
      subst hc
      simp only [TokenKind.recognise] at hr
      unfold Pattern.blockComment at hr
      split at hr
      · next body heq =>
        have := afterFirst?_append ('\n' :: rest) hr
        rw [heq, List.cons_append, List.cons_append, next?_of_two rfl]
        simp only [TokenKind.recognise, Pattern.blockComment, this]
        rfl
      · exact absurd hr.symm (Option.some_ne_none _)
    case comment =>
      simp only [TokenKind.mayStart, beq_iff_eq] at hc
      subst hc
      rw [next?_hash, Option.some.injEq, Prod.mk.injEq, List.dropWhile_eq_nil_iff] at hn
      rw [List.cons_append, next?_hash, List.dropWhile_append_of_pos hn.2, List.dropWhile_cons,
        if_neg (by decide)]

end Token

end DesiredState

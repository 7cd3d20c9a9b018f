/-
The first character of a token.

A kind can start with few characters, and most characters can start few kinds.  So
of the many kinds that are tried at a place only those count that its first character
can start, and what the next token is comes down to one or two recognisers.  A word is the longest
run of bare characters, and a keyword only if that run as a whole is one.
-/
import DesiredState.Proofs.Token.Progress

namespace DesiredState

/-- Whether a token of a kind can start with a character. -/
def TokenKind.mayStart : TokenKind → Char → Bool
  | blank, c => [' ', '\t', '\r', '\n', '`'].contains c
  | blockComment, c => c == '<'
  | comment, c => c == '#'
  | doubleQuoted, c => c == '"'
  | singleQuoted, c => c == '\''
  | hereDouble, c | hereSingle, c | arrayOpen, c | tableOpen, c | splat, c => c == '@'
  | subexpressionOpen, c | variableName, c => c == '$'
  | parenOpen, c => c == '('
  | parenClose, c => c == ')'
  | braceOpen, c => c == '\x7b'
  | braceClose, c => c == '\x7d'
  | typeLiteral, c | bracketOpen, c => c == '['
  | bracketClose, c => c == ']'
  | doubleColon, c => c == ':'
  | semicolon, c => c == ';'
  | comma, c => c == ','
  | pipe, c => c == '|'
  | equals, c => c == '='
  | parameter, c => c == '-'
  | number, c => c == '-' || c.isDigit
  | dot, c => c == '.'
  | operator, c => ['+', '*', '/', '%', '!', '&', '<', '>', '-'].contains c
  | configuration, c => c.toLower == 'c'
  | node, c => c.toLower == 'n'
  | param, c => c.toLower == 'p'
  | bareword, c => Pattern.isWordStart c
  | unknown, _ => false

namespace Pattern

theorem mark_cons_of_ne {m c : Char} (ms t : Text) (h : c ≠ m) : mark (m :: ms) (c :: t) = none := by
  simp [mark, Text.dropHead?, h.symm]

/-! What has to start with one character is not found at another. -/

theorem lineComment_cons_of_ne {c : Char} (t : Text) (h : c ≠ '#') : lineComment (c :: t) = none := by
  simp [lineComment, h]

theorem doubleQuoted_cons_of_ne {c : Char} (t : Text) (h : c ≠ '"') : doubleQuoted (c :: t) = none := by
  simp [doubleQuoted, h]

theorem singleQuoted_cons_of_ne {c : Char} (t : Text) (h : c ≠ '\'') : singleQuoted (c :: t) = none := by
  simp [singleQuoted, h]

theorem fraction_cons_of_ne {c : Char} (t : Text) (h : c ≠ '.') : fraction (c :: t) = none := by
  simp [fraction, h]

theorem qualifier_cons_of_ne {c : Char} (t : Text) (h : c ≠ ':') : qualifier (c :: t) = none := by
  simp [qualifier, h]

theorem splat_cons_of_ne {c : Char} (t : Text) (h : c ≠ '@') : splat (c :: t) = none := by
  simp [splat, h]

theorem parameter_cons_of_ne {c : Char} (t : Text) (h : c ≠ '-') : parameter (c :: t) = none := by
  simp [parameter, h]

theorem typeLiteral_cons_of_ne {c : Char} (t : Text) (h : c ≠ '[') : typeLiteral (c :: t) = none := by
  simp [typeLiteral, h]

theorem keyword_cons (w : Char) (ws : Text) (c : Char) (t : Text) :
    keyword (w :: ws) (c :: t) = if c.toLower = w then keyword ws t else none := by
  by_cases h : c.toLower = w <;> simp [keyword, Text.dropWord?, h]

theorem decimal_cons_eq_none {c : Char} {t : Text} (h : c.isDigit = false) :
    decimal (c :: t) = none := by
  simp [decimal, some1, h]

theorem hexadecimal_cons_eq_none {c : Char} {t : Text} (h : c.isDigit = false) :
    hexadecimal (c :: t) = none := by
  unfold hexadecimal
  split
  · next heq =>
    have : c = '0' := (List.cons.inj heq).1
    subst this
    simp at h
  · rfl

theorem number_cons_eq_none {c : Char} {t : Text} (h : c ≠ '-') (hd : c.isDigit = false) :
    number (c :: t) = none := by
  simp [number, optional, one, h, hexadecimal_cons_eq_none hd, decimal_cons_eq_none hd]

theorem isBare_of_isAlpha {c : Char} (h : c.isAlpha) : isBare c := by
  simp [isBare, isWord, Char.isAlphanum, h]

theorem isAlpha_of_toLower {c : Char} (h : c.toLower.isLower) : c.isAlpha := by
  change (c.isUpper || c.isLower) = true
  by_cases hc : c.val ≥ 'A'.val ∧ c.val ≤ 'Z'.val
  · exact Bool.or_eq_true_iff.mpr (Or.inl (decide_eq_true hc))
  · have hsame : c.toLower = c := dif_neg hc
    rw [hsame] at h
    exact Bool.or_eq_true_iff.mpr (Or.inr h)

/-- Where the letters are. -/
theorem toNat_of_isAlpha {c : Char} (h : c.isAlpha) : 65 ≤ c.toNat ∧ c.toNat ≤ 122 := by
  have hupper : 'A'.val.toNat = 65 ∧ 'Z'.val.toNat = 90 := ⟨rfl, rfl⟩
  have hlower : 'a'.val.toNat = 97 ∧ 'z'.val.toNat = 122 := ⟨rfl, rfl⟩
  have hnat : c.toNat = c.val.toNat := rfl
  change (c.isUpper || c.isLower) = true at h
  rcases Bool.or_eq_true_iff.mp h with h | h
  · have hrange : c.val ≥ 'A'.val ∧ c.val ≤ 'Z'.val := of_decide_eq_true h
    simp only [ge_iff_le, UInt32.le_iff_toNat_le] at hrange
    omega
  · have hrange : (decide (c.val ≥ 'a'.val) && decide (c.val ≤ 'z'.val)) = true := h
    simp only [Bool.and_eq_true, decide_eq_true_eq, ge_iff_le, UInt32.le_iff_toNat_le] at hrange
    omega

theorem isBare_of_isWordStart {c : Char} (h : isWordStart c) : isBare c := by
  simp only [isWordStart, Bool.or_eq_true] at h
  rcases h with h | h
  · exact isBare_of_isAlpha h
  · simp [isBare, isWord, h]

theorem isDigit_of_isWordStart {c : Char} (h : isWordStart c) : c.isDigit = false := by
  rw [Bool.eq_false_iff]
  intro hd
  simp only [isWordStart, Bool.or_eq_true, beq_iff_eq] at h
  rcases h with h | rfl
  · have hrange := toNat_of_isAlpha h
    have hdigit : (decide (c.val ≥ '0'.val) && decide (c.val ≤ '9'.val)) = true := hd
    simp only [Bool.and_eq_true, decide_eq_true_eq, ge_iff_le, UInt32.le_iff_toNat_le] at hdigit
    have : '9'.val.toNat = 57 := rfl
    have : c.toNat = c.val.toNat := rfl
    omega
  · exact absurd hd (by decide)

/-- A keyword matches a run of bare characters as a whole, or not at all. -/
theorem keyword_eq {w : Text} (hw : ∀ c ∈ w, c.isLower) (t : Text) :
    keyword w t =
      if (t.takeWhile isBare).map Char.toLower = w then some (t.dropWhile isBare) else none := by
  induction w generalizing t with
  | nil =>
    cases t with
    | nil => rfl
    | cons c t => by_cases hc : isBare c <;> simp [keyword, Text.dropWord?, one, hc]
  | cons a w ih =>
    cases t with
    | nil => simp [keyword, Text.dropWord?]
    | cons c t =>
      rw [keyword_cons]
      by_cases hc : c.toLower = a
      · have ha : c.isAlpha := by
          refine isAlpha_of_toLower ?_
          rw [hc]
          exact hw a List.mem_cons_self
        rw [if_pos hc, ih fun d hd => hw d (List.mem_cons_of_mem a hd)]
        simp [isBare_of_isAlpha ha, hc]
      · rw [if_neg hc, if_neg]
        by_cases hb : isBare c <;> simp [hb, hc]

end Pattern

/-- A kind is not recognised at a character that it cannot start with. -/
theorem TokenKind.recognise_cons {k : TokenKind} {c : Char} (t : Text)
    (h : k.mayStart c = false) : k.recognise (c :: t) = none := by
  cases k <;> simp only [mayStart, beq_eq_false_iff_ne, ne_eq] at h
  case blank => simp only [recognise]; unfold Pattern.blanks; split <;> simp_all
  case blockComment => simp only [recognise]; unfold Pattern.blockComment; split <;> simp_all
  case comment => exact Pattern.lineComment_cons_of_ne t h
  case hereDouble | hereSingle =>
    simp only [recognise]; unfold Pattern.hereString; split <;> simp_all
  case doubleQuoted => exact Pattern.doubleQuoted_cons_of_ne t h
  case singleQuoted => exact Pattern.singleQuoted_cons_of_ne t h
  case splat => exact Pattern.splat_cons_of_ne t h
  case variableName => simp only [recognise]; unfold Pattern.variableName; split <;> simp_all
  case typeLiteral => exact Pattern.typeLiteral_cons_of_ne t h
  case parameter => exact Pattern.parameter_cons_of_ne t h
  case number =>
    simp only [Bool.or_eq_false_iff, beq_eq_false_iff_ne] at h
    exact Pattern.number_cons_eq_none h.1 h.2
  case operator =>
    simp only [recognise, Pattern.operator, Pattern.one, h, Bool.false_eq_true, if_false]
  case configuration | node | param =>
    simp only [recognise]
    exact (Pattern.keyword_cons ..).trans (if_neg h)
  case bareword =>
    simp only [recognise, Pattern.bareword, Pattern.word, h, Bool.false_eq_true, if_false]
  case unknown => rfl
  all_goals exact Pattern.mark_cons_of_ne _ _ h

namespace Token

/-- A token is recognised by its kind, which its first character can start. -/
theorem recognise_of_next? {kind : TokenKind} {c : Char} {t rest : Text}
    (h : next? (c :: t) = some (kind, rest)) :
    kind.mayStart c ∧ kind.recognise (c :: t) = some rest := by
  obtain ⟨k, -, hm⟩ := List.exists_of_findSome?_eq_some h
  obtain ⟨r, hr, he⟩ := Option.map_eq_some_iff.mp hm
  obtain ⟨rfl, rfl⟩ := Prod.mk.injEq .. ▸ he
  refine ⟨?_, hr⟩
  cases hs : k.mayStart c with
  | true => rfl
  | false =>
    rw [TokenKind.recognise_cons t hs] at hr
    exact absurd hr.symm (Option.some_ne_none _)

/-- Only the kinds that a character can start decide what the token at it is. -/
theorem next?_cons (c : Char) (t : Text) :
    next? (c :: t) = (TokenKind.order.filter (·.mayStart c)).findSome?
      fun kind => (kind.recognise (c :: t)).map (kind, ·) := by
  unfold next?
  induction TokenKind.order with
  | nil => rfl
  | cons kind rest ih =>
    by_cases h : kind.mayStart c
    · simp only [List.filter_cons, h, if_true, List.findSome?_cons, ih]
    · rw [Bool.not_eq_true] at h
      simp only [List.filter_cons, h, List.findSome?_cons, TokenKind.recognise_cons t h, ih,
        Option.map_none, Bool.false_eq_true, if_false]

/-- A character that starts one kind alone. -/
theorem next?_of_only {c : Char} {kind : TokenKind}
    (h : TokenKind.order.filter (·.mayStart c) = [kind]) (t : Text) :
    next? (c :: t) = (kind.recognise (c :: t)).map (kind, ·) := by
  rw [next?_cons, h, List.findSome?_cons, List.findSome?_nil]
  cases kind.recognise (c :: t) <;> rfl

/-- A character that starts two kinds. -/
theorem next?_of_two {c : Char} {k l : TokenKind}
    (h : TokenKind.order.filter (·.mayStart c) = [k, l]) (t : Text) :
    next? (c :: t) =
      ((k.recognise (c :: t)).map (k, ·)).or
        ((l.recognise (c :: t)).map (l, ·)) := by
  rw [next?_cons, h]
  simp only [List.findSome?_cons, List.findSome?_nil]
  cases k.recognise (c :: t) <;> cases l.recognise (c :: t) <;> rfl

/-! ### Marks -/

theorem next?_parenClose (t : Text) : next? (')' :: t) = some (.parenClose, t) := rfl

theorem next?_braceOpen (t : Text) : next? ('\x7b' :: t) = some (.braceOpen, t) := rfl

theorem next?_braceClose (t : Text) : next? ('\x7d' :: t) = some (.braceClose, t) := rfl

theorem next?_comma (t : Text) : next? (',' :: t) = some (.comma, t) := rfl

theorem next?_equals (t : Text) : next? ('=' :: t) = some (.equals, t) := rfl

theorem next?_arrayOpen (t : Text) : next? ('@' :: '(' :: t) = some (.arrayOpen, t) := rfl

/-! ### Strings, comments and variables

Each of these starts with a character that starts nothing else, or one thing else.  What
is read there is what its own recogniser takes.
-/

theorem next?_doubleQuote (t : Text) :
    next? ('"' :: t) = (Pattern.closeDouble t).map (.doubleQuoted, ·) :=
  next?_of_only rfl t

theorem next?_singleQuote (t : Text) :
    next? ('\'' :: t) = (Pattern.closeSingle t).map (.singleQuoted, ·) :=
  next?_of_only rfl t

theorem next?_hash (t : Text) :
    next? ('#' :: t) = some (.comment, t.dropWhile fun c => c != '\r' && c != '\n') := rfl

theorem next?_dollar (t : Text) :
    next? ('$' :: t) =
      ((Pattern.mark ['$', '('] ('$' :: t)).map (.subexpressionOpen, ·)).or
        ((Pattern.variableName ('$' :: t)).map (.variableName, ·)) :=
  next?_of_two rfl t

/-! ### Words

Letters start names and keywords only.  The longest run is taken, and then it is looked
at whether the run is a keyword.
-/

/-- The kind of a word: a keyword in any letter case, or else a bare word. -/
def wordKind (w : Text) : TokenKind :=
  if w.map Char.toLower = "configuration".toList then .configuration
  else if w.map Char.toLower = "node".toList then .node
  else if w.map Char.toLower = "param".toList then .param
  else .bareword

/-- A character that starts a word starts words alone. -/
theorem mayStart_of_isWordStart {c : Char} (h : Pattern.isWordStart c) {kind : TokenKind}
    (hk : kind.mayStart c) : kind ∈ [TokenKind.configuration, .node, .param, .bareword] := by
  cases kind <;> simp [TokenKind.mayStart] at hk ⊢
  case number =>
    rcases hk with rfl | hd
    · exact absurd h (by decide)
    · rw [Pattern.isDigit_of_isWordStart h] at hd
      exact Bool.false_ne_true hd
  case blank => rcases hk with rfl | rfl | rfl | rfl | rfl <;> exact absurd h (by decide)
  case operator =>
    rcases hk with rfl | rfl | rfl | rfl | rfl | rfl | rfl | rfl | rfl <;>
      exact absurd h (by decide)
  all_goals subst hk; exact absurd h (by decide)

/-- The longest run of bare characters is one token. -/
theorem next?_word {c : Char} (h : Pattern.isWordStart c) (t : Text) :
    next? (c :: t) =
      some (wordKind (c :: t.takeWhile Pattern.isBare), t.dropWhile Pattern.isBare) := by
  have hother : (TokenKind.order.take 28).findSome?
      (fun kind => (kind.recognise (c :: t)).map (kind, ·)) = none := by
    rw [List.findSome?_eq_none_iff]
    intro kind hkind
    rw [TokenKind.recognise_cons t, Option.map_none]
    rw [Bool.eq_false_iff]
    intro hk
    have := mayStart_of_isWordStart h hk
    revert hkind
    simp only [List.mem_cons, List.not_mem_nil, or_false] at this
    rcases this with rfl | rfl | rfl | rfl <;> decide
  have hrun : (c :: t).takeWhile Pattern.isBare = c :: t.takeWhile Pattern.isBare := by
    simp [Pattern.isBare_of_isWordStart h]
  have hrest : (c :: t).dropWhile Pattern.isBare = t.dropWhile Pattern.isBare := by
    simp [Pattern.isBare_of_isWordStart h]
  have hword : Pattern.bareword (c :: t) = some (t.dropWhile Pattern.isBare) := by
    simp [Pattern.bareword, Pattern.word, h]
  rw [next?, ← List.take_append_drop 28 TokenKind.order, List.findSome?_append, hother,
    Option.none_or]
  show [TokenKind.configuration, .node, .param, .bareword].findSome? _ = _
  simp only [List.findSome?_cons, List.findSome?_nil, TokenKind.recognise, hword, hrun, hrest,
    Pattern.keyword_eq (w := "configuration".toList) (List.all_eq_true.mp rfl),
    Pattern.keyword_eq (w := "node".toList) (List.all_eq_true.mp rfl),
    Pattern.keyword_eq (w := "param".toList) (List.all_eq_true.mp rfl), wordKind]
  by_cases h₁ : (c :: t.takeWhile Pattern.isBare).map Char.toLower = "configuration".toList
  · simp only [if_pos h₁, Option.map_some]
  by_cases h₂ : (c :: t.takeWhile Pattern.isBare).map Char.toLower = "node".toList
  · simp only [if_neg h₁, if_pos h₂, Option.map_some, Option.map_none]
  by_cases h₃ : (c :: t.takeWhile Pattern.isBare).map Char.toLower = "param".toList
  · simp only [if_neg h₁, if_neg h₂, if_pos h₃, Option.map_some, Option.map_none]
  · simp only [if_neg h₁, if_neg h₂, if_neg h₃, Option.map_some, Option.map_none]

theorem isName_wordKind (w : Text) : (wordKind w).isName := by
  unfold wordKind
  split
  · rfl
  split
  · rfl
  split <;> rfl

end Token

end DesiredState

/-
Letter case and the reading of tokens.

Every recogniser takes as much of a text in small letters as of the text itself: a class
of characters holds a letter in both cases or not at all, the fixed marks have no
letters in them, and where letters do count, as in a keyword or a hexadecimal mark, both
cases are let through.  So two texts that are alike are read into tokens of the same
kinds at the same places.
-/
import DesiredState.Proofs.LetterCase
import DesiredState.Proofs.Token.FirstCharacter

namespace DesiredState

open Text (small Caseless caseless_of_capitals dropWhile_small toLower_eq_iff)

/-- As much is taken of a text in small letters as of the text itself. -/
def Recogniser.Caseless (r : Recogniser) : Prop := ∀ t, r (small t) = (r t).map small

/-- A text starts with a mark if it does so in small letters. -/
theorem Text.small_eq_append {m t u : Text} (hm : Text.NoLetters m)
    (h : small t = m ++ u) : ∃ v, t = m ++ v ∧ small v = u := by
  induction m generalizing t with
  | nil => exact ⟨t, rfl, h⟩
  | cons c m ih =>
    obtain ⟨d, v, rfl, hd, hv⟩ := List.map_eq_cons_iff.mp h
    rw [toLower_eq_iff (hm c List.mem_cons_self)] at hd
    obtain ⟨w, rfl, hw⟩ := ih (fun e he => hm e (List.mem_cons_of_mem c he)) hv
    exact ⟨w, by rw [hd, List.cons_append], hw⟩

theorem Text.small_ne_append {m t : Text} (hm : Text.NoLetters m)
    (h : ∀ u, t = m ++ u → False) (u : Text) (hu : small t = m ++ u) : False := by
  obtain ⟨v, hv, -⟩ := small_eq_append hm hu
  exact h v hv

namespace Pattern

/-! ### Parts of recognisers

A recogniser that is made of classes and of marks without letters takes as much of a
text in small letters.  It is said once for each way to put parts together.
-/

theorem one_caseless {p : Char → Bool} (hp : Text.Caseless p) : Recogniser.Caseless (one p) := by
  intro t
  cases t with
  | nil => rfl
  | cons c t =>
    rw [Text.small_cons, one, one, hp]
    split <;> rfl

theorem some1_caseless {p : Char → Bool} (hp : Text.Caseless p) :
    Recogniser.Caseless (some1 p) := by
  intro t
  cases t with
  | nil => rfl
  | cons c t =>
    rw [Text.small_cons, some1, some1, hp, dropWhile_small hp]
    split <;> rfl

theorem isWordStart_caseless : Text.Caseless isWordStart := caseless_of_capitals (by decide)

theorem word_caseless {p : Char → Bool} (hp : Text.Caseless p) :
    Recogniser.Caseless (word p) := by
  intro t
  cases t with
  | nil => rfl
  | cons c t =>
    rw [Text.small_cons, word, word, isWordStart_caseless, dropWhile_small hp]
    split <;> rfl

theorem mark_caseless {m : Text} (hm : Text.NoLetters m) :
    Recogniser.Caseless (mark m) := Text.dropHead?_small hm

theorem optional_small {r : Recogniser} (hr : Recogniser.Caseless r) (t : Text) :
    optional r (small t) = small (optional r t) := by
  rw [optional, optional, hr]
  cases r t <;> rfl

theorem repeated_small {r : Recogniser} (hr : Recogniser.Caseless r) (n : Nat) (t : Text) :
    repeated r n (small t) = small (repeated r n t) := by
  induction n generalizing t with
  | zero => rfl
  | succ n ih =>
    rw [repeated, repeated, hr]
    cases r t with
    | none => rfl
    | some rest => exact ih rest

/-- A part, and then one that is given by what the first one leaves. -/
theorem map_caseless {r : Recogniser} (hr : Recogniser.Caseless r) {f : Text → Text}
    (hf : ∀ t, f (small t) = small (f t)) : Recogniser.Caseless fun t => (r t).map f := by
  intro t
  simp only [hr t]
  cases r t with
  | none => rfl
  | some rest => exact congrArg some (hf rest)

theorem bind_caseless {r s : Recogniser} (hr : Recogniser.Caseless r)
    (hs : Recogniser.Caseless s) : Recogniser.Caseless fun t => (r t).bind s := by
  intro t
  simp only [hr t]
  cases r t with
  | none => rfl
  | some rest => exact hs rest

/-- A first character that is no letter, and then what another recogniser takes. -/
theorem afterChar_caseless {r r' : Recogniser} (hr : Recogniser.Caseless r) {c : Char}
    (hc : c.isAlpha = false) (hcons : ∀ t, r' (c :: t) = r t)
    (hother : ∀ d t, d ≠ c → r' (d :: t) = none) (hnil : r' [] = none) :
    Recogniser.Caseless r' := by
  intro t
  cases t with
  | nil => rw [Text.small_nil, hnil, Option.map_none]
  | cons d t =>
    have hd := toLower_eq_iff (c := d) hc
    by_cases h : d = c
    · rw [Text.small_cons, hd.mpr h, h, hcons, hcons, hr]
    · rw [Text.small_cons, hother _ _ (mt hd.mp h), hother _ _ h, Option.map_none]

/-! ### White space, comments and strings -/

theorem skipBlanks_small (t : Text) : skipBlanks (small t) = small (skipBlanks t) := by
  fun_induction skipBlanks t with
  | case1 rest ih | case2 rest ih | case3 rest ih | case4 rest ih | case5 rest ih
  | case6 rest ih => exact ih
  | case7 t hspace htab hreturn hfeed hcontinued hpair =>
    rw [skipBlanks]
    · exact Text.small_ne_append (m := [' ']) (by decide) hspace
    · exact Text.small_ne_append (m := ['\t']) (by decide) htab
    · exact Text.small_ne_append (m := ['\r']) (by decide) hreturn
    · exact Text.small_ne_append (m := ['\n']) (by decide) hfeed
    · exact Text.small_ne_append (m := ['`', '\n']) (by decide) hcontinued
    · exact Text.small_ne_append (m := ['`', '\r', '\n']) (by decide) hpair

theorem blanks_caseless : Recogniser.Caseless blanks := by
  intro t
  fun_cases blanks t with
  | case1 rest | case2 rest | case3 rest | case4 rest | case5 rest | case6 rest =>
    exact congrArg some (skipBlanks_small rest)
  | case7 _ hspace htab hreturn hfeed hcontinued hpair =>
    rw [blanks]
    · rfl
    · exact Text.small_ne_append (m := [' ']) (by decide) hspace
    · exact Text.small_ne_append (m := ['\t']) (by decide) htab
    · exact Text.small_ne_append (m := ['\r']) (by decide) hreturn
    · exact Text.small_ne_append (m := ['\n']) (by decide) hfeed
    · exact Text.small_ne_append (m := ['`', '\n']) (by decide) hcontinued
    · exact Text.small_ne_append (m := ['`', '\r', '\n']) (by decide) hpair

theorem lineComment_caseless : Recogniser.Caseless lineComment :=
  afterChar_caseless
    (r := fun rest => some (rest.dropWhile fun c => c != '\r' && c != '\n'))
    (fun t => congrArg some (dropWhile_small (caseless_of_capitals (by decide)) t))
    (c := '#') rfl (fun _ => rfl) (fun _ t h => lineComment_cons_of_ne t h) rfl

theorem blockComment_caseless : Recogniser.Caseless blockComment := by
  intro t
  fun_cases blockComment t with
  | case1 rest => exact Text.afterFirst?_small (by decide) rest
  | case2 _ hopen =>
    rw [blockComment]
    · rfl
    · exact Text.small_ne_append (m := ['<', '#']) (by decide) hopen

theorem closeDouble_caseless : Recogniser.Caseless closeDouble := by
  intro t
  fun_induction closeDouble t with
  | case1 => rfl
  | case2 => rfl
  | case3 c rest ih => exact ih
  | case4 rest ih =>
    rw [Text.small_cons, Text.small_cons, show '"'.toLower = '"' from rfl, closeDouble, ih]
    cases closeDouble rest <;> rfl
  | case5 rest hquote =>
    rw [Text.small_cons, show '"'.toLower = '"' from rfl, closeDouble]
    · rfl
    · exact Text.small_ne_append (m := ['"']) (by decide) hquote
  | case6 c rest hlast htick hdoubled hquote ih =>
    rw [Text.small_cons, closeDouble, ih]
    · intro hc ht
      exact hlast ((toLower_eq_iff rfl).mp hc) (List.map_eq_nil_iff.mp ht)
    · intro d more hc ht
      obtain ⟨e, rest, rfl, -, -⟩ := List.map_eq_cons_iff.mp ht
      exact htick e rest ((toLower_eq_iff rfl).mp hc) rfl
    · intro more hc ht
      exact hquote ((toLower_eq_iff rfl).mp hc)
    · intro hc
      exact hquote ((toLower_eq_iff rfl).mp hc)

theorem closeSingle_caseless : Recogniser.Caseless closeSingle := by
  intro t
  fun_induction closeSingle t with
  | case1 => rfl
  | case2 rest ih =>
    rw [Text.small_cons, Text.small_cons, show '\''.toLower = '\'' from rfl, closeSingle, ih]
    cases closeSingle rest <;> rfl
  | case3 rest hquote =>
    rw [Text.small_cons, show '\''.toLower = '\'' from rfl, closeSingle]
    · rfl
    · exact Text.small_ne_append (m := ['\'']) (by decide) hquote
  | case4 c rest hdoubled hquote ih =>
    rw [Text.small_cons, closeSingle, ih]
    · intro more hc ht
      exact hquote ((toLower_eq_iff rfl).mp hc)
    · intro hc
      exact hquote ((toLower_eq_iff rfl).mp hc)

theorem doubleQuoted_caseless : Recogniser.Caseless doubleQuoted :=
  afterChar_caseless closeDouble_caseless (c := '"') rfl (fun _ => rfl)
    (fun _ t h => doubleQuoted_cons_of_ne t h) rfl

theorem singleQuoted_caseless : Recogniser.Caseless singleQuoted :=
  afterChar_caseless closeSingle_caseless (c := '\'') rfl (fun _ => rfl)
    (fun _ t h => singleQuoted_cons_of_ne t h) rfl

theorem lineBreak_caseless : Recogniser.Caseless lineBreak := by
  intro t
  fun_cases lineBreak t with
  | case1 rest => rfl
  | case2 rest => rfl
  | case3 _ hfeed hpair =>
    rw [lineBreak]
    · rfl
    · exact Text.small_ne_append (m := ['\n']) (by decide) hfeed
    · exact Text.small_ne_append (m := ['\r', '\n']) (by decide) hpair

theorem hereString_caseless {quote : Char} (hq : quote.isAlpha = false) :
    Recogniser.Caseless (hereString quote) := by
  intro t
  fun_cases hereString quote t with
  | case1 rest =>
    have hblank : Text.Caseless fun c => c == ' ' || c == '\t' := caseless_of_capitals (by decide)
    have hclosing : Text.NoLetters ['\n', quote, '@'] := by simp [Text.NoLetters, hq]
    rw [Text.small_cons, Text.small_cons, show '@'.toLower = '@' from rfl,
      (toLower_eq_iff hq).mpr rfl, hereString, if_pos rfl, dropWhile_small hblank,
      lineBreak_caseless]
    cases lineBreak (rest.dropWhile fun c => c == ' ' || c == '\t') with
    | none => rfl
    | some body => exact Text.afterFirst?_small hclosing body
  | case2 q rest hne =>
    rw [Text.small_cons, Text.small_cons, show '@'.toLower = '@' from rfl, hereString,
      if_neg (mt (toLower_eq_iff hq).mp hne), Option.map_none]
  | case3 _ hopen =>
    rw [hereString]
    · rfl
    · intro q rest ht
      obtain ⟨v, rfl, hv⟩ := Text.small_eq_append (m := ['@']) (by decide) ht
      obtain ⟨d, more, rfl, -, -⟩ := List.map_eq_cons_iff.mp hv
      exact hopen d more rfl

/-! ### Numbers, variables and words -/

theorem isDigit_caseless : Text.Caseless Char.isDigit := caseless_of_capitals (by decide)

theorem isWord_caseless : Text.Caseless isWord := caseless_of_capitals (by decide)

theorem isBare_caseless : Text.Caseless isBare := caseless_of_capitals (by decide)

theorem fraction_caseless : Recogniser.Caseless fraction :=
  afterChar_caseless (some1_caseless isDigit_caseless) (c := '.') rfl (fun _ => rfl)
    (fun _ t h => fraction_cons_of_ne t h) rfl

theorem qualifier_caseless : Recogniser.Caseless qualifier :=
  afterChar_caseless (some1_caseless isWord_caseless) (c := ':') rfl (fun _ => rfl)
    (fun _ t h => qualifier_cons_of_ne t h) rfl

theorem splat_caseless : Recogniser.Caseless splat :=
  afterChar_caseless (word_caseless isWord_caseless) (c := '@') rfl (fun _ => rfl)
    (fun _ t h => splat_cons_of_ne t h) rfl

theorem exponent_caseless : Recogniser.Caseless exponent := by
  have hmark : Text.Caseless fun c => decide (c = 'e' ∨ c = 'E') :=
    caseless_of_capitals (by decide)
  have hsign : Text.Caseless fun c => c == '+' || c == '-' := caseless_of_capitals (by decide)
  intro t
  cases t with
  | nil => rfl
  | cons c t =>
    have hc : (c.toLower = 'e' ∨ c.toLower = 'E') = (c = 'e' ∨ c = 'E') :=
      propext (decide_eq_decide.mp (hmark c))
    rw [Text.small_cons, exponent, exponent, optional_small (one_caseless hsign),
      some1_caseless isDigit_caseless]
    simp only [hc]
    split <;> rfl

theorem multiple_caseless : Recogniser.Caseless multiple := by
  intro t
  cases t with
  | nil => rfl
  | cons u t =>
    cases t with
    | nil => rfl
    | cons b t =>
      rw [Text.small_cons, Text.small_cons, multiple, multiple, Text.toLower_caseless,
        Text.toLower_caseless]
      split <;> rfl

theorem hexadecimal_caseless : Recogniser.Caseless hexadecimal := by
  have hmark : Text.Caseless fun c => decide (c = 'x' ∨ c = 'X') :=
    caseless_of_capitals (by decide)
  have hdigit : Text.Caseless fun c =>
      c.isDigit || ('a' ≤ c && c ≤ 'f') || ('A' ≤ c && c ≤ 'F') :=
    caseless_of_capitals (by decide)
  intro t
  fun_cases hexadecimal t with
  | case1 x rest hx =>
    rw [Text.small_cons, Text.small_cons, show '0'.toLower = '0' from rfl, hexadecimal,
      if_pos ((decide_eq_decide.mp (hmark x)).mpr hx), some1_caseless hdigit]
  | case2 x rest hx =>
    rw [Text.small_cons, Text.small_cons, show '0'.toLower = '0' from rfl, hexadecimal,
      if_neg (mt (decide_eq_decide.mp (hmark x)).mp hx), Option.map_none]
  | case3 _ hopen =>
    rw [hexadecimal]
    · rfl
    · intro x rest ht
      obtain ⟨v, rfl, hv⟩ := Text.small_eq_append (m := ['0']) (by decide) ht
      obtain ⟨d, more, rfl, -, -⟩ := List.map_eq_cons_iff.mp hv
      exact hopen d more rfl

theorem decimal_caseless : Recogniser.Caseless decimal := by
  refine map_caseless (some1_caseless isDigit_caseless) fun t => ?_
  rw [Text.length_small, repeated_small fraction_caseless, optional_small exponent_caseless]

theorem number_caseless : Recogniser.Caseless number := by
  intro t
  have hsign : Text.Caseless (· == '-') := caseless_of_capitals (by decide)
  unfold number
  simp only [optional_small (one_caseless hsign), hexadecimal_caseless _, decimal_caseless _]
  cases hexadecimal (optional (one (· == '-')) t) with
  | some rest => exact congrArg some (optional_small multiple_caseless rest)
  | none =>
    cases decimal (optional (one (· == '-')) t) with
    | some rest => exact congrArg some (optional_small multiple_caseless rest)
    | none => rfl

theorem variableName_caseless : Recogniser.Caseless variableName := by
  have hbrace : Text.Caseless (· != '\x7d') := caseless_of_capitals (by decide)
  have hclose : Text.Caseless (· == '\x7d') := caseless_of_capitals (by decide)
  have hsign : Text.Caseless fun c => decide (c = '?' ∨ c = '^' ∨ c = '$') :=
    caseless_of_capitals (by decide)
  have hsecond (c : Char) (rest : Text) (h : c = '\x7b' → False) :
      variableName (small ('$' :: c :: rest)) =
        if isWordStart c.toLower then
          some (optional qualifier ((small rest).dropWhile isWord))
        else if c.toLower = '?' ∨ c.toLower = '^' ∨ c.toLower = '$' then some (small rest)
        else none := by
    rw [Text.small_cons, Text.small_cons, show '$'.toLower = '$' from rfl, variableName]
    exact fun hc => h ((toLower_eq_iff rfl).mp hc)
  intro t
  fun_cases variableName t with
  | case1 rest =>
    rw [← one_caseless hclose, ← dropWhile_small hbrace]
    rfl
  | case2 c rest hbraced hc =>
    rw [hsecond c rest hbraced, isWordStart_caseless, if_pos hc, dropWhile_small isWord_caseless,
      optional_small qualifier_caseless, Option.map_some]
  | case3 c rest hbraced hc hs =>
    rw [hsecond c rest hbraced, isWordStart_caseless, if_neg hc,
      if_pos ((decide_eq_decide.mp (hsign c)).mpr hs), Option.map_some]
  | case4 c rest hbraced hc hs =>
    rw [hsecond c rest hbraced, isWordStart_caseless, if_neg hc,
      if_neg (mt (decide_eq_decide.mp (hsign c)).mp hs), Option.map_none]
  | case5 _ hbraced hopen =>
    rw [variableName]
    · rfl
    · exact Text.small_ne_append (m := ['$', '\x7b']) (by decide) hbraced
    · intro c rest ht
      obtain ⟨v, rfl, hv⟩ := Text.small_eq_append (m := ['$']) (by decide) ht
      obtain ⟨d, more, rfl, -, -⟩ := List.map_eq_cons_iff.mp hv
      exact hopen d more rfl

theorem parameter_caseless : Recogniser.Caseless parameter :=
  afterChar_caseless
    (map_caseless (word_caseless (p := fun c => isWord c || c == '-')
        (caseless_of_capitals (by decide)))
      (optional_small (one_caseless (p := (· == ':')) (caseless_of_capitals (by decide)))))
    (c := '-') rfl (fun _ => rfl) (fun _ t h => parameter_cons_of_ne t h) rfl

theorem typeLiteral_caseless : Recogniser.Caseless typeLiteral := by
  refine afterChar_caseless (c := '[')
    (bind_caseless (word_caseless (p := fun c => isWord c || c == '.')
      (caseless_of_capitals (by decide)))
      (s := fun rest => one (· == ']') (optional (Text.dropHead? ['[', ']']) rest)) ?_)
    rfl (fun _ => rfl) (fun _ t h => typeLiteral_cons_of_ne t h) rfl
  intro t
  exact (congrArg _ (optional_small (mark_caseless (m := ['[', ']']) (by decide)) t)).trans
    (one_caseless (p := (· == ']')) (caseless_of_capitals (by decide)) _)

theorem keyword_caseless (w : Text) : Recogniser.Caseless (keyword w) := by
  intro t
  rw [keyword, keyword, Text.dropWord?_small]
  cases Text.dropWord? w t with
  | none => rfl
  | some rest =>
    have hends : (one isBare (small rest)).isSome = (one isBare rest).isSome := by
      rw [one_caseless isBare_caseless, Option.isSome_map]
    rw [Option.map_some, Option.filter_some, Option.filter_some, hends]
    split <;> rfl

theorem operator_caseless : Recogniser.Caseless operator :=
  one_caseless (caseless_of_capitals (by decide))

end Pattern

theorem TokenKind.recognise_caseless (kind : TokenKind) : Recogniser.Caseless kind.recognise := by
  cases kind
  case blank => exact Pattern.blanks_caseless
  case blockComment => exact Pattern.blockComment_caseless
  case comment => exact Pattern.lineComment_caseless
  case hereDouble | hereSingle => exact Pattern.hereString_caseless rfl
  case doubleQuoted => exact Pattern.doubleQuoted_caseless
  case singleQuoted => exact Pattern.singleQuoted_caseless
  case splat => exact Pattern.splat_caseless
  case variableName => exact Pattern.variableName_caseless
  case typeLiteral => exact Pattern.typeLiteral_caseless
  case parameter => exact Pattern.parameter_caseless
  case number => exact Pattern.number_caseless
  case operator => exact Pattern.operator_caseless
  case configuration | node | param => exact Pattern.keyword_caseless _
  case bareword => exact Pattern.word_caseless Pattern.isBare_caseless
  case unknown => exact fun _ => rfl
  all_goals exact Pattern.mark_caseless (by decide)

namespace Token

/-! ### Tokens -/

theorem next?_small (t : Text) :
    next? (small t) = (next? t).map fun found => (found.1, small found.2) := by
  have hkinds (kinds : List TokenKind) :
      (kinds.findSome? fun kind => (kind.recognise (small t)).map (kind, ·)) =
        (kinds.findSome? fun kind => (kind.recognise t).map (kind, ·)).map
          fun found => (found.1, small found.2) := by
    induction kinds with
    | nil => rfl
    | cons kind rest ih =>
      rw [List.findSome?_cons, List.findSome?_cons, kind.recognise_caseless t, ih]
      cases kind.recognise t <;> rfl
  exact hkinds TokenKind.order

theorem skipUnknown_small (t : Text) : skipUnknown (small t) = small (skipUnknown t) := by
  induction t with
  | nil => rfl
  | cons c t ih =>
    rw [Text.small_cons, skipUnknown, skipUnknown, ← Text.small_cons, next?_small,
      Option.isSome_map, ih]
    split <;> rfl

theorem nextPiece_small (t : Text) :
    nextPiece (small t) = ((nextPiece t).1, small (nextPiece t).2) := by
  rw [nextPiece, nextPiece, next?_small, skipUnknown_small]
  cases next? t <;> rfl

/-- A token in small letters. -/
def small (t : Token) : Token := { t with text := t.text.small }

theorem scanFrom_small (steps : Nat) (place : Position) (t : Text) :
    scanFrom steps place (Text.small t) = (scanFrom steps place t).map small := by
  induction steps generalizing place t with
  | zero => rfl
  | succ steps ih =>
    cases t with
    | nil => rfl
    | cons c t =>
      have hstep (c : Char) (t : Text) : scanFrom (steps + 1) place (c :: t) =
          let rest := (nextPiece (c :: t)).2
          let text := (c :: t).take (t.length + 1 - rest.length)
          ⟨(nextPiece (c :: t)).1, text, place⟩ :: scanFrom steps (place.advance text) rest := rfl
      have htake (n : Nat) : (Text.small (c :: t)).take n = Text.small ((c :: t).take n) :=
        List.map_take.symm
      rw [Text.small_cons, hstep, ← Text.small_cons, nextPiece_small, hstep]
      simp only [Text.length_small, htake, Position.advance_small, ih]
      rfl

/-- **Reading tokens does not depend on letter case.** -/
theorem scan_small (source : Text) : scan source.small = (scan source).map small := by
  rw [scan, Text.length_small, scanFrom_small, scan]

end Token

end DesiredState

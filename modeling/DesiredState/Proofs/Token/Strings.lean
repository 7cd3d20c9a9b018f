/-
String literals.

A value can be written between double quotes, between single quotes or on the lines of
a here-string.  In each form the literal ends where it was meant to end, whatever comes
after it, and stands for the value.  What may come after it is limited by the doubled
quote: a quote behind the closing one would be taken for the second half of a pair.  A
here-string cannot hold the line that would close it, and a carriage return at its end
would be taken with the last line break.
-/
import DesiredState.Proofs.Token.Recognition
import DesiredState.Proofs.Token.Relocation
import DesiredState.Render.Scalar
import DesiredState.Script.Literal

namespace DesiredState

/-! ### Between single quotes -/

/-- A value as it is written between single quotes. -/
def Text.escapeSingle : Text → Text
  | [] => []
  | '\'' :: rest => '\'' :: '\'' :: escapeSingle rest
  | c :: rest => c :: escapeSingle rest

/-- Writing a value between single quotes and reading it gives the value. -/
theorem Text.decodeSingle_escapeSingle (value : Text) :
    decodeSingle (escapeSingle value) = value := by
  fun_induction escapeSingle value with
  | case1 => rfl
  | case2 rest ih => rw [decodeSingle, ih]
  | case3 c rest hq ih =>
    rw [decodeSingle]
    · rw [ih]
    · intro more hc
      exact absurd hc hq

/-- The closing quote is found behind what was doubled. -/
theorem Pattern.closeSingle_escapeSingle (value : Text) {after : Text}
    (ha : after.head? ≠ some '\'') :
    closeSingle (Text.escapeSingle value ++ '\'' :: after) = some after := by
  fun_induction Text.escapeSingle value with
  | case1 => exact closeSingle_quote ha
  | case2 rest ih => rw [List.cons_append, List.cons_append, closeSingle, ih, Option.some_or]
  | case3 c rest hq ih => rw [List.cons_append, closeSingle_cons _ hq, ih]

/-- A value in single quotes. -/
def Text.inSingleQuotes (value : Text) : Text := '\'' :: escapeSingle value ++ ['\'']

/-- A single-quoted string ends where it was closed. -/
theorem Token.next?_inSingleQuotes (value : Text) {after : Text} (ha : after.head? ≠ some '\'') :
    next? (Text.inSingleQuotes value ++ after) = some (.singleQuoted, after) := by
  rw [Text.inSingleQuotes, List.cons_append, List.cons_append, List.append_assoc,
    next?_singleQuote, List.singleton_append, Pattern.closeSingle_escapeSingle value ha]
  rfl

/-! ### The lines of a here-string

A here-string ends at the first line that starts with its closing mark, and its value
cannot say this in any other way.  So not every value can be written on such lines.
-/

/-- A mark whose first character is not found again in it is first found where it is put behind
a text that does not hold it. -/
theorem Text.afterFirst?_put {c : Char} {m value : Text} (hc : c ∉ m)
    (hv : ¬(c :: m) <:+: value) (after : Text) :
    afterFirst? (c :: m) (value ++ (c :: m ++ after)) = some after := by
  induction value with
  | nil => rw [List.nil_append, List.cons_append, afterFirst?, ← List.cons_append, dropHead?_append]
  | cons d value ih =>
    have hnone : dropHead? (c :: m) (d :: (value ++ (c :: m ++ after))) = none := by
      cases h : dropHead? (c :: m) (d :: (value ++ (c :: m ++ after))) with
      | none => rfl
      | some rest =>
        exfalso
        have hsplit := eq_append_of_dropHead? h
        -- Either the mark reaches beyond the value, so that what is put behind the value starts
        -- inside the mark, or the value holds it.
        obtain ⟨more, hmark, hbehind⟩ | ⟨more, hvalue, -⟩ :=
          List.append_eq_append_iff.mp ((List.cons_append ..).trans hsplit)
        · cases more with
          | nil => exact hv (hmark.trans (List.append_nil _) ▸ List.infix_refl _)
          | cons e more =>
            have he : c = e := (List.cons.inj hbehind).1
            have hm : m = value ++ e :: more := (List.cons.inj hmark).2
            exact hc (by rw [hm, he]; exact List.mem_append_right _ List.mem_cons_self)
        · exact hv (by rw [hvalue]; exact (List.prefix_append _ more).isInfix)
    rw [List.cons_append, afterFirst?, hnone]
    exact ih fun h => hv (h.trans (List.suffix_cons d value).isInfix)

/-- A character is no tail of a text that does not end in it. -/
theorem Text.dropTail?_eq_none {c : Char} {value : Text} (h : value.getLast? ≠ some c) :
    dropTail? [c] value = none := by
  rw [dropTail?, List.reverse_singleton, Option.map_eq_none_iff]
  rw [← List.head?_reverse] at h
  cases hv : value.reverse with
  | nil => rfl
  | cons d rest =>
    rw [hv] at h
    exact if_neg fun hd => h (congrArg some hd.symm)

/-- A value as it is written on the lines of a here-string. -/
def Text.hereLines (value : Text) : Text := '@' :: '\'' :: '\n' :: value ++ ['\n', '\'', '@']

/-- What stands between the marks of a here-string is the value. -/
theorem Literal.hereBody_hereLines {value : Text} (hr : value.getLast? ≠ some '\r') :
    hereBody (Text.hereLines value) = value := by
  have hinner : ((Text.hereLines value).drop 2).dropLast.dropLast = '\n' :: (value ++ ['\n']) := by
    have hends : (Text.hereLines value).drop 2 =
        ('\n' :: (value ++ ['\n'])) ++ ['\''] ++ ['@'] := by
      simp [Text.hereLines]
    rw [hends, List.dropLast_concat, List.dropLast_concat]
  have hbehind : Text.dropTail? ['\n'] (value ++ ['\n']) = some value := by
    simp [Text.dropTail?, Text.dropHead?]
  rw [hereBody, hinner, dropFirstBreak, List.dropWhile_cons, if_neg (by decide), Pattern.lineBreak,
    Option.getD_some, dropLastBreak, hbehind]
  simp only [Text.dropTail?_eq_none hr, Option.getD_none]

namespace Token

/-- A here-string ends with the first line that starts with its closing mark. -/
theorem next?_hereLines {value : Text} (hv : ¬['\n', '\'', '@'] <:+: value) (after : Text) :
    next? (Text.hereLines value ++ after) = some (.hereSingle, after) := by
  have hclose := Text.afterFirst?_put (c := '\n') (m := ['\'', '@']) (by decide) hv after
  have hshape : Text.hereLines value ++ after =
      '@' :: '\'' :: '\n' :: (value ++ (['\n', '\'', '@'] ++ after)) := by
    simp [Text.hereLines]
  have hsingle : Pattern.hereString '\'' (Text.hereLines value ++ after) = some after := by
    rw [hshape, Pattern.hereString, if_pos rfl, List.dropWhile_cons, if_neg (by decide),
      Pattern.lineBreak, Option.bind_some]
    exact hclose
  have hdouble : Pattern.hereString '"' (Text.hereLines value ++ after) = none := by
    rw [hshape, Pattern.hereString, if_neg (by decide)]
  rw [hshape] at hsingle hdouble ⊢
  rw [next?_cons]
  show [TokenKind.hereDouble, .hereSingle, .arrayOpen, .tableOpen, .splat].findSome? _ = _
  simp only [List.findSome?_cons, TokenKind.recognise, hdouble, hsingle, Option.map_none,
    Option.map_some]

/-! ### What a literal is read as -/

/-- A text that starts with a literal has it as its first token, and the literal stands for a
value. -/
structure Opens (kind : TokenKind) (literal value after : Text) : Prop where
  /-- The first token is the literal and nothing more. -/
  first : (Token.scan (literal ++ after)).head? = some ⟨kind, literal, .start⟩
  /-- What the literal stands for. -/
  stands : (Literal.ofString ⟨kind, literal, .start⟩).1 = value

/-- What is next in a text is its first token. -/
theorem head?_scan {kind : TokenKind} {literal after : Text}
    (h : next? (literal ++ after) = some (kind, after)) :
    (Token.scan (literal ++ after)).head? = some ⟨kind, literal, .start⟩ := by
  obtain ⟨fewer, -, hscan⟩ := scanFrom_next .start h (Nat.le_refl _)
  rw [scan, hscan, List.head?_cons]

theorem opens_quoted (value : Text) {after : Text} (ha : after.head? ≠ some '"') :
    Opens .doubleQuoted (Render.quoted value) value after where
  first := head?_scan (next?_quoted_of_head? value ha)
  stands := by
    have hcontent : ((Render.quoted value).drop 1).dropLast = Text.escapeDouble value := by
      simp [Render.quoted]
    simp only [Literal.ofString, hcontent, Text.decodeDouble_escapeDouble]

theorem opens_singleQuoted (value : Text) {after : Text} (ha : after.head? ≠ some '\'') :
    Opens .singleQuoted (Text.inSingleQuotes value) value after where
  first := head?_scan (next?_inSingleQuotes value ha)
  stands := by
    have hcontent : ((Text.inSingleQuotes value).drop 1).dropLast = Text.escapeSingle value := by
      simp [Text.inSingleQuotes]
    simp only [Literal.ofString, hcontent, Text.decodeSingle_escapeSingle]

theorem opens_hereLines {value : Text} (hv : ¬['\n', '\'', '@'] <:+: value)
    (hr : value.getLast? ≠ some '\r') (after : Text) :
    Opens .hereSingle (Text.hereLines value) value after where
  first := head?_scan (next?_hereLines hv after)
  stands := by simp only [Literal.ofString, Literal.hereBody_hereLines hr]

end Token

/-- A text that is one string literal has the value that the literal stands for. -/
theorem Literal.string?_of_next? {kind : TokenKind} {literal : Text} (hk : kind.isString)
    (h : Token.next? literal = some (kind, [])) :
    string? literal = some (ofString ⟨kind, literal, .start⟩).1 := by
  have hsignificant : kind.isSignificant := by
    cases kind <;> first | rfl | exact absurd hk Bool.false_ne_true
  have hscan : Token.scan literal = [⟨kind, literal, .start⟩] := by
    rw [← List.append_nil literal] at h ⊢
    obtain ⟨fewer, -, hscan⟩ := Token.scanFrom_next .start h (Nat.le_refl _)
    cases fewer <;> simpa [Token.scan, Token.scanFrom] using hscan
  have hstop : (Token.stop ⟨kind, literal, .start⟩).offset = literal.size := by
    rw [Token.stop, Position.advance_offset]
    exact Nat.zero_add _
  simp only [string?, hscan, Token.significant, List.filter_cons, hsignificant, if_true,
    List.filter_nil, hk, hstop, and_self]

theorem Literal.string?_quoted (value : Text) : string? (Render.quoted value) = some value := by
  have hend : ([] : Text).head? ≠ some '"' := by decide
  have hnext := Token.next?_quoted_of_head? value hend
  rw [List.append_nil] at hnext
  exact (string?_of_next? rfl hnext).trans (congrArg some (Token.opens_quoted value hend).stands)

theorem Literal.string?_inSingleQuotes (value : Text) :
    string? (Text.inSingleQuotes value) = some value := by
  have hend : ([] : Text).head? ≠ some '\'' := by decide
  have hnext := Token.next?_inSingleQuotes value hend
  rw [List.append_nil] at hnext
  exact (string?_of_next? rfl hnext).trans
    (congrArg some (Token.opens_singleQuoted value hend).stands)

theorem Literal.string?_hereLines {value : Text} (hv : ¬['\n', '\'', '@'] <:+: value)
    (hr : value.getLast? ≠ some '\r') : string? (Text.hereLines value) = some value := by
  have hnext := Token.next?_hereLines hv []
  rw [List.append_nil] at hnext
  exact (string?_of_next? rfl hnext).trans
    (congrArg some (Token.opens_hereLines hv hr []).stands)

/-- **String literals are read back.**  A value between double quotes, between single quotes or
on the lines of a here-string is the first token of any text that starts with it, provided that
the text does not go on with the quote, and that no line of the here-string closes it and no
carriage return stands at its end.  The token stands for the value, and so does the literal
alone. -/
theorem literals_read_back (value after : Text) :
    (after.head? ≠ some '"' → Token.Opens .doubleQuoted (Render.quoted value) value after) ∧
      (after.head? ≠ some '\'' →
        Token.Opens .singleQuoted (Text.inSingleQuotes value) value after) ∧
      (¬['\n', '\'', '@'] <:+: value → value.getLast? ≠ some '\r' →
        Token.Opens .hereSingle (Text.hereLines value) value after ∧
          Literal.string? (Text.hereLines value) = some value) ∧
      Literal.string? (Render.quoted value) = some value ∧
      Literal.string? (Text.inSingleQuotes value) = some value :=
  ⟨Token.opens_quoted value, Token.opens_singleQuoted value,
    fun hv hr => ⟨Token.opens_hereLines hv hr after, Literal.string?_hereLines hv hr⟩,
    Literal.string?_quoted value, Literal.string?_inSingleQuotes value⟩

/-- A value with both quotes, a backtick and a line break at its end, before a word. -/
theorem literals_read_back_quotes :
    Token.Opens .doubleQuoted (Render.quoted "'`\"\n") "'`\"\n" "x" ∧
      Token.Opens .singleQuoted (Text.inSingleQuotes "'`\"\n") "'`\"\n" "x" ∧
      Token.Opens .hereSingle (Text.hereLines "'`\"\n") "'`\"\n" "x" :=
  have h := literals_read_back "'`\"\n" "x"
  ⟨h.1 (by decide), h.2.1 (by decide), (h.2.2.1 (by decide) (by decide)).1⟩

end DesiredState

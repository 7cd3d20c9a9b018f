/-
References.

A name goes out without quotes if it is a variable with members behind points, and in the
first of these parts colons may stand anywhere.  Reading is stricter.  A variable takes
one colon with the word behind it; then a point or two colons lead to what is accessed on
it, and that is one word up to the end of the name.  A colon by itself is no token, and
two colons with no word behind them access nothing.

So a reference falls into a variable and the rest, and `isOperand` asks of the rest
whether it is read as it is written.
-/
import DesiredState.Proofs.Token.Concatenation
import DesiredState.Proofs.Token.Recognition
import DesiredState.Render.Scalar

namespace DesiredState

/-- Whether a reference is read as one operand: behind its variable there is nothing, a member, or
two colons and a word. -/
def Text.isOperand (name : Text) : Bool :=
  match Pattern.variableName name with
  | some [] | some ('.' :: _) => true
  | some (':' :: ':' :: c :: _) => Pattern.isWordStart c
  | _ => false

/-! ### The shape of a reference

A reference is checked part by part between points, while its tokens end where runs of
characters end.  The shape says where the one meets the other.
-/

namespace Text

theorem splitOn_ne_nil (separator : Char) (t : Text) : Text.splitOn separator t ≠ [] := by
  cases t with
  | nil => exact List.cons_ne_nil _ _
  | cons c t =>
    rw [Text.splitOn]
    split
    · exact List.cons_ne_nil _ _
    · split <;> exact List.cons_ne_nil _ _

/-- A text is its first part and the others, each behind a separator. -/
theorem eq_of_splitOn {separator : Char} {t first : Text} {more : List Text}
    (h : Text.splitOn separator t = first :: more) :
    t = first ++ more.flatMap (separator :: ·) := by
  induction t generalizing first more with
  | nil =>
    cases h
    rfl
  | cons c t ih =>
    obtain ⟨part, parts, hparts⟩ := List.exists_cons_of_ne_nil (splitOn_ne_nil separator t)
    rw [Text.splitOn, hparts] at h
    split at h
    · next hc =>
      obtain ⟨rfl, rfl⟩ := List.cons.inj h
      rw [hc, List.flatMap_cons, List.nil_append, List.cons_append, ← ih hparts]
    · obtain ⟨rfl, rfl⟩ := List.cons.inj h
      rw [List.cons_append, ← ih hparts]

end Text

namespace Pattern

/-- A run of characters of a class ends before a tail that does not go on with it. -/
theorem dropWhile_append_of_head? {p : Char → Bool} {tail : Text}
    (h : ∀ d ∈ tail.head?, p d = false) (t : Text) :
    (t ++ tail).dropWhile p = t.dropWhile p ++ tail := by
  have htail : tail.dropWhile p = tail := by
    cases tail with
    | nil => rfl
    | cons d tail => rw [List.dropWhile_cons, if_neg (by rw [h d rfl]; exact Bool.false_ne_true)]
  rw [List.dropWhile_append]
  split
  · next he => rw [htail, List.isEmpty_iff.mp he, List.nil_append]
  · rfl

theorem head?_dropWhile_isWord (t : Text) : ∀ d ∈ (t.dropWhile isWord).head?, isWord d = false := by
  intro d hd
  have := List.head?_dropWhile_not isWord t
  rw [Option.mem_def.mp hd] at this
  simpa using this

/-- The word of a variable and its qualified part, if there is one, end before a tail that does not
go on with them. -/
theorem exists_optional_qualifier (t : Text) {tail : Text}
    (h : ∀ d ∈ tail.head?, isWord d = false ∧ d ≠ ':') :
    ∃ left, left <:+ t ∧ (∀ d ∈ left.head?, isWord d = false) ∧
      optional qualifier ((t ++ tail).dropWhile isWord) = left ++ tail := by
  have hword : ∀ d ∈ tail.head?, isWord d = false := fun d hd => (h d hd).1
  have hsuffix := List.dropWhile_suffix isWord (l := t)
  have hhead := head?_dropWhile_isWord t
  rw [dropWhile_append_of_head? hword]
  generalize t.dropWhile isWord = run at hsuffix hhead
  have hnone : ∀ u : Text, (∀ d ∈ u.head?, d ≠ ':') → optional qualifier u = u := by
    intro u hu
    rw [optional, qualifier, Option.getD_none]
    rintro rest rfl
    exact hu ':' rfl rfl
  cases run with
  | nil => exact ⟨[], List.nil_suffix, hhead, hnone _ fun d hd => (h d hd).2⟩
  | cons c run =>
    by_cases hc : c = ':'
    · subst hc
      cases run with
      | nil =>
        refine ⟨_, hsuffix, hhead, ?_⟩
        cases tail with
        | nil => rfl
        | cons e tail => simp [optional, qualifier, some1, hword e rfl]
      | cons e run =>
        by_cases he : isWord e
        · refine ⟨run.dropWhile isWord, ?_, head?_dropWhile_isWord run, ?_⟩
          · exact ((List.dropWhile_suffix isWord).trans ⟨[':', e], rfl⟩).trans hsuffix
          · simp [optional, qualifier, some1, he, dropWhile_append_of_head? hword]
        · exact ⟨_, hsuffix, hhead, by simp [optional, qualifier, some1, he]⟩
    · refine ⟨_, hsuffix, hhead, hnone _ ?_⟩
      rintro _ ⟨⟩
      exact hc

end Pattern

/-- The variable that a reference starts with, and the rest of it. -/
structure Text.IsReference (name stem rest : Text) : Prop where
  eq : name = stem ++ rest
  variableName : Pattern.variableName name = some rest
  stem : ∃ c run, stem = '$' :: c :: run ∧ Pattern.isWordStart c
  chars : ∀ d ∈ rest, Pattern.isWord d ∨ d = ':' ∨ d = '.'
  stops : ∀ d ∈ rest.head?, d = ':' ∨ d = '.'
  member : ∀ back, rest = '.' :: back → ∃ c run, back = c :: run ∧ Pattern.isWordStart c

/-- A variable whose name starts like a word. -/
theorem Pattern.variableName_word {c : Char} (hc : isWordStart c) (t : Text) :
    variableName ('$' :: c :: t) = some (optional qualifier (t.dropWhile isWord)) := by
  rw [variableName, if_pos hc]
  rintro rfl
  exact absurd hc (by decide)

theorem Pattern.isWord_of_isWordStart {c : Char} (h : isWordStart c) : isWord c := by
  rcases Bool.or_eq_true_iff.mp h with h | h
  · simp [isWord, Char.isAlphanum, h]
  · rw [isWord, h, Bool.or_true]

/-- What stands behind the first part of a reference: members, each behind a point. -/
theorem Text.of_mem_members {members : List Text}
    (h : ∀ m ∈ members, Render.isWordOf Pattern.isWord m) :
    (∀ d ∈ (members.flatMap ('.' :: ·)).head?, d = '.') ∧
      (∀ d ∈ members.flatMap ('.' :: ·), Pattern.isWord d ∨ d = '.') ∧
      ∀ back, members.flatMap ('.' :: ·) = '.' :: back →
        ∃ c run, back = c :: run ∧ Pattern.isWordStart c := by
  refine ⟨?_, ?_, ?_⟩
  · intro d hd
    cases members with
    | nil => cases hd
    | cons m members =>
      cases hd
      rfl
  · intro d hd
    obtain ⟨m, hm, hd⟩ := List.mem_flatMap.mp hd
    have hword := h m hm
    rcases List.mem_cons.mp hd with rfl | hd
    · exact .inr rfl
    · cases m with
      | nil => cases hd
      | cons c run =>
        obtain ⟨hc, hrun⟩ := Bool.and_eq_true_iff.mp hword
        rcases List.mem_cons.mp hd with rfl | hd
        · exact .inl (Pattern.isWord_of_isWordStart hc)
        · exact .inl (List.all_eq_true.mp hrun d hd)
  · intro back hback
    cases members with
    | nil => cases hback
    | cons m members =>
      obtain rfl := (List.cons.inj hback).2
      have hword := h m List.mem_cons_self
      cases m with
      | nil => cases hword
      | cons c run => exact ⟨c, _, rfl, (Bool.and_eq_true_iff.mp hword).1⟩

/-- A reference falls into a variable and the rest. -/
theorem Text.exists_isReference {name : Text} (h : Render.isReference name) :
    ∃ stem rest, IsReference name stem rest := by
  unfold Render.isReference at h
  split at h
  · next t =>
    obtain ⟨first, more, hparts⟩ := List.exists_cons_of_ne_nil (splitOn_ne_nil '.' t)
    rw [hparts] at h
    obtain ⟨hfirst, hmore⟩ := Bool.and_eq_true_iff.mp h
    rw [eq_of_splitOn hparts]
    obtain ⟨hhead, htail, hmember⟩ := of_mem_members (List.all_eq_true.mp hmore)
    generalize more.flatMap ('.' :: ·) = tail at *
    cases first with
    | nil => cases hfirst
    | cons c run =>
      obtain ⟨hc, hrun⟩ := Bool.and_eq_true_iff.mp hfirst
      obtain ⟨left, ⟨front, rfl⟩, hstop, hqualifier⟩ :=
        Pattern.exists_optional_qualifier run fun d hd => by rw [hhead d hd]; decide
      have hleft : ∀ d ∈ left, Pattern.isWord d ∨ d = ':' := fun d hd => by
        simpa using List.all_eq_true.mp hrun d (List.mem_append_right _ hd)
      refine ⟨'$' :: c :: front, left ++ tail, by simp, ?_, ⟨c, front, rfl, hc⟩, ?_, ?_, ?_⟩
      · rw [List.cons_append, Pattern.variableName_word hc, hqualifier]
      · intro d hd
        rcases List.mem_append.mp hd with hd | hd
        · exact (hleft d hd).imp_right .inl
        · exact (htail d hd).imp_right .inr
      · intro d hd
        cases left with
        | nil => exact .inr (hhead d hd)
        | cons e left =>
          cases hd
          refine .inl ((hleft d List.mem_cons_self).resolve_left ?_)
          rw [hstop d rfl]
          exact Bool.false_ne_true
      · intro back hback
        cases left with
        | nil => exact hmember back hback
        | cons e left =>
          obtain ⟨rfl, -⟩ := List.cons.inj hback
          exact absurd (hleft '.' List.mem_cons_self) (by decide)
  · cases h

/-! ### The tokens of a reference

The first part may have a colon in it, behind which the variable may end too early.
What is left is then one of three things: a member, two colons, or no token.
-/

/-- What separates delimits. -/
theorem Text.Separates.delimits {after : Text} (h : after.Separates) : after.Delimits := by
  rintro c rest rfl
  rcases h c rfl with rfl | rfl <;> decide

/-- A colon with no other behind it is no token. -/
theorem Token.next?_colon {t : Text} (h : t.head? ≠ some ':') : next? (':' :: t) = none := by
  have hmark : TokenKind.doubleColon.recognise (':' :: t) = none := by
    cases t with
    | nil => rfl
    | cons c t =>
      have hc : ':' ≠ c := fun hc => h (congrArg some hc.symm)
      simp [TokenKind.recognise, Pattern.mark, Text.dropHead?, hc]
  rw [next?_of_only rfl, hmark]
  rfl

/-- The pieces of an operand: a variable, and maybe a mark and a word that is accessed on it. -/
inductive Piece.AreOperand : List Piece → Prop where
  | alone (stem : Text) : AreOperand [⟨.variableName, stem⟩]
  | access (stem : Text) {mark word : Piece} (hmark : mark.kind = .dot ∨ mark.kind = .doubleColon)
      (hword : word.kind.isName) : AreOperand [⟨.variableName, stem⟩, mark, word]

/-- The first piece of a text is the token that is read first. -/
theorem Piece.Lexes.cons_of_next? {pieces : List Piece} (h : Lexes pieces []) {text rest : Text}
    {kind : TokenKind} (htext : textOf pieces = text ++ rest)
    (hnext : Token.next? (text ++ rest) = some (kind, rest)) :
    ∃ more, pieces = ⟨kind, text⟩ :: more ∧ Lexes more [] ∧ textOf more = rest := by
  cases pieces with
  | nil =>
    rw [← htext] at hnext
    cases hnext
  | cons piece more =>
    obtain ⟨hpiece, hmore⟩ := h
    rw [IsNext, List.append_nil, ← textOf_cons, htext, hnext, Option.some.injEq,
      Prod.mk.injEq] at hpiece
    obtain ⟨hkind, hrest⟩ := hpiece
    rw [textOf_cons, ← hrest] at htext
    refine ⟨more, ?_, hmore, hrest.symm⟩
    rw [← List.append_cancel_right htext, hkind]

/-- A text at which no token starts does not fall into pieces. -/
theorem Piece.Lexes.next?_ne_none {pieces : List Piece} (h : Lexes pieces [])
    (hne : textOf pieces ≠ []) : Token.next? (textOf pieces) ≠ none := by
  cases pieces with
  | nil => exact absurd rfl hne
  | cons piece more =>
    obtain ⟨hpiece, -⟩ := h
    rw [IsNext, List.append_nil, ← textOf_cons] at hpiece
    rw [hpiece]
    exact Option.some_ne_none _

namespace Text.IsReference

open Piece

variable {name stem rest after : Text}

/-- The variable of a reference is read up to the rest. -/
theorem next?_stem (h : name.IsReference stem rest) (hafter : after.Separates) :
    Token.next? (stem ++ (rest ++ after)) = some (.variableName, rest ++ after) := by
  obtain ⟨c, run, hstem, hc⟩ := h.stem
  have hvariable : Pattern.variableName (stem ++ (rest ++ after)) = some (rest ++ after) := by
    have halone : Pattern.variableName (stem ++ (rest ++ [])) = some (rest ++ []) := by
      rw [List.append_nil, ← h.eq]
      exact h.variableName
    exact Pattern.variableName_found hafter halone
  rw [hstem] at hvariable ⊢
  have hopen : Pattern.mark ['$', '('] ('$' :: c :: run ++ (rest ++ after)) = none := by
    have hne : '(' ≠ c := by
      rintro rfl
      exact absurd hc (by decide)
    simp [Pattern.mark, Text.dropHead?, hne]
  rw [List.cons_append, List.cons_append] at hvariable hopen ⊢
  rw [Token.next?_dollar, hopen, hvariable]
  rfl

theorem isBare (h : name.IsReference stem rest) : ∀ d ∈ rest, Pattern.isBare d := by
  intro d hd
  rcases h.chars d hd with hd | rfl | rfl
  · simp [Pattern.isBare, hd]
  · rfl
  · rfl

/-- What starts like a word within the rest of a reference is one word. -/
theorem isWord (h : name.IsReference stem rest) {c : Char} {run : Text}
    (hc : Pattern.isWordStart c) (hsuffix : (c :: run) <:+ rest) :
    Token.IsWord (Token.wordKind (c :: run)) (c :: run) := by
  refine Token.isWord_wordKind_iff.mpr ?_
  rw [Pattern.bareword, Pattern.word, if_pos hc, Option.some.injEq, List.dropWhile_eq_nil_iff]
  exact fun d hd => h.isBare d (hsuffix.subset (List.mem_cons_of_mem c hd))

/-- **A reference that is an operand is read as one** before a separator. -/
theorem exists_pieces (h : name.IsReference stem rest) (ho : name.isOperand) :
    ∃ pieces, AreOperand pieces ∧ textOf pieces = name ∧
      ∀ after : Text, after.Separates → Lexes pieces after := by
  have haccess : ∀ (mark : Piece) (c : Char) (run : Text),
      (mark.kind = .dot ∨ mark.kind = .doubleColon) →
      (∀ t, Token.next? (mark.text ++ t) = some (mark.kind, t)) →
      rest = mark.text ++ c :: run → Pattern.isWordStart c →
      ∃ pieces, AreOperand pieces ∧ textOf pieces = name ∧
        ∀ after : Text, after.Separates → Lexes pieces after := by
    intro mark c run hkind hmark hrest hc
    have hword := h.isWord hc ⟨mark.text, hrest.symm⟩
    refine ⟨[⟨.variableName, stem⟩, mark, ⟨Token.wordKind (c :: run), c :: run⟩],
      .access stem hkind hword.1, ?_, ?_⟩
    · rw [h.eq, hrest]
      simp
    · intro after hafter
      have hstem := h.next?_stem hafter
      refine ⟨?_, hmark _, ?_, trivial⟩
      · rw [hrest] at hstem
        simpa [IsNext] using hstem
      · exact hword.next? hafter.delimits
  unfold isOperand at ho
  rw [h.variableName] at ho
  split at ho
  · next hrest =>
    obtain rfl : rest = [] := Option.some.inj hrest
    refine ⟨_, .alone stem, by simp [h.eq], fun after hafter => ⟨?_, trivial⟩⟩
    simpa [IsNext] using h.next?_stem hafter
  · next back hrest =>
    obtain rfl : rest = '.' :: back := Option.some.inj hrest
    obtain ⟨c, run, rfl, hc⟩ := h.member back rfl
    exact haccess ⟨.dot, ['.']⟩ c run (.inl rfl) (fun _ => rfl) rfl hc
  · next c run hrest =>
    obtain rfl : rest = ':' :: ':' :: c :: run := Option.some.inj hrest
    exact haccess ⟨.doubleColon, [':', ':']⟩ c run (.inr rfl) (fun _ => rfl) rfl ho
  · cases ho

/-- **A reference that is no operand** is not read, or there are two colons behind its variable and
no word behind these. -/
theorem exists_doubleColon (h : name.IsReference stem rest) (ho : name.isOperand = false)
    (hafter : after.Separates) {pieces : List Piece} (hlexes : Lexes pieces [])
    (htext : textOf pieces = name ++ after) :
    ∃ back more, pieces = ⟨.variableName, stem⟩ :: ⟨.doubleColon, [':', ':']⟩ :: more ∧
      back <:+ rest ∧ (∀ d ∈ back.head?, Pattern.isWordStart d = false) ∧
      Lexes more [] ∧ textOf more = back ++ after := by
  rw [h.eq, List.append_assoc] at htext
  obtain ⟨more, rfl, hmore, hrest⟩ := hlexes.cons_of_next? htext (h.next?_stem hafter)
  unfold isOperand at ho
  rw [h.variableName] at ho
  cases rest with
  | nil => cases ho
  | cons d back =>
    obtain rfl | rfl := h.stops d rfl
    · rw [List.cons_append] at hrest
      -- a second colon has to follow, since one by itself is no token
      have hcolon : (back ++ after).head? = some ':' := by
        refine Decidable.byContradiction fun hne => ?_
        refine hmore.next?_ne_none (by rw [hrest]; exact List.cons_ne_nil _ _) ?_
        rw [hrest]
        exact Token.next?_colon hne
      cases back with
      | nil => exact absurd hcolon (hafter.head?_ne (by decide))
      | cons d back =>
        obtain rfl : d = ':' := Option.some.inj hcolon
        have hnext : Token.next? ([':', ':'] ++ (back ++ after)) =
            some (.doubleColon, back ++ after) := rfl
        obtain ⟨more, rfl, hmore, htail⟩ := hmore.cons_of_next? hrest hnext
        refine ⟨back, more, rfl, ⟨[':', ':'], rfl⟩, fun c hc => ?_, hmore, htail⟩
        cases back with
        | nil => cases hc
        | cons e back =>
          cases hc
          exact ho
    · cases ho

end Text.IsReference

end DesiredState

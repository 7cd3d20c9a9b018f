/-
Comments blanked out.

Comments may be blanked out: a space for each unit of them, line breaks apart.  Then all
other tokens are read as they were, in the places where they were.  The blanks around a
comment run together with the spaces in its place, which is why tokens are compared with
the blank ones left out; and a `<` before a comment opens no block comment now, because
blanking out leaves no mark that closes one.
-/
import DesiredState.Proofs.Token.Endings
import DesiredState.Proofs.Token.Gap

namespace DesiredState

/-! ### Texts

One space for each unit and not for each character keeps offsets and columns where they
are.  Line breaks stay, so that lines do.
-/

namespace Text

/-- A text with spaces for all characters that end no line, one for each unit. -/
def blanked (t : Text) : Text :=
  t.flatMap fun c => if c = '\n' ∨ c = '\r' then [c] else spaces (width c)

@[simp] theorem blanked_nil : blanked [] = [] := rfl

theorem blanked_lineBreak {c : Char} (h : c = '\n' ∨ c = '\r') (t : Text) :
    blanked (c :: t) = c :: blanked t := by
  rw [blanked, List.flatMap_cons, if_pos h]
  rfl

theorem blanked_cons {c : Char} (hn : c ≠ '\n') (hr : c ≠ '\r') (t : Text) :
    blanked (c :: t) = spaces (width c) ++ blanked t := by
  rw [blanked, List.flatMap_cons, if_neg fun h => h.elim hn hr]
  rfl

/-- Only spaces and line breaks are left. -/
theorem of_mem_blanked {t : Text} {c : Char} (h : c ∈ blanked t) : c = ' ' ∨ c = '\n' ∨ c = '\r' := by
  obtain ⟨d, -, hc⟩ := List.mem_flatMap.mp h
  split at hc
  · next hd =>
    rw [List.mem_singleton.mp hc]
    exact .inr hd
  · exact .inl (List.eq_of_mem_replicate hc)

/-- What does not start with a line break starts with a space then. -/
theorem blanked_eq_cons {c : Char} (hn : c ≠ '\n') (hr : c ≠ '\r') (t : Text) :
    ∃ more, blanked (c :: t) = ' ' :: more := by
  obtain ⟨n, hwidth⟩ := Nat.exists_eq_succ_of_ne_zero (Nat.ne_of_gt (width_pos c))
  refine ⟨spaces n ++ blanked t, ?_⟩
  rw [blanked_cons hn hr, hwidth]
  rfl

theorem size_spaces (n : Nat) : (spaces n).size = n := by
  induction n with
  | zero => rfl
  | succ n ih =>
    rw [show spaces (n + 1) = ' ' :: spaces n from rfl, size_cons, ih, Nat.add_comm]
    rfl

@[simp] theorem size_blanked (t : Text) : (blanked t).size = t.size := by
  induction t with
  | nil => rfl
  | cons c t ih =>
    by_cases h : c = '\n' ∨ c = '\r'
    · rw [blanked_lineBreak h, size_cons, size_cons, ih]
    · rw [not_or] at h
      rw [blanked_cons h.1 h.2, size_append, size_spaces, size_cons, ih]

theorem skipBlanks_spaces (n : Nat) (t : Text) :
    Pattern.skipBlanks (spaces n ++ t) = Pattern.skipBlanks t := by
  induction n with
  | zero => rfl
  | succ n ih =>
    rw [show spaces (n + 1) ++ t = ' ' :: (spaces n ++ t) from rfl, Pattern.skipBlanks, ih]

theorem skipBlanks_blanked (t : Text) : Pattern.skipBlanks (blanked t) = [] := by
  induction t with
  | nil => rfl
  | cons c t ih =>
    by_cases h : c = '\n' ∨ c = '\r'
    · rw [blanked_lineBreak h]
      rcases h with rfl | rfl <;> rw [Pattern.skipBlanks, ih]
    · rw [not_or] at h
      rw [blanked_cons h.1 h.2, skipBlanks_spaces, ih]

theorem getLast?_blanked {t : Text} (h : t.getLast? ≠ some '\r') :
    (blanked t).getLast? ≠ some '\r' := by
  intro hlast
  rcases List.eq_nil_or_concat t with rfl | ⟨init, c, rfl⟩
  · cases hlast
  · rw [List.concat_eq_append, List.getLast?_concat] at h
    rw [List.concat_eq_append, blanked, List.flatMap_append, List.flatMap_singleton] at hlast
    split at hlast
    · rw [List.getLast?_concat] at hlast
      exact h hlast
    · obtain ⟨n, hwidth⟩ := Nat.exists_eq_succ_of_ne_zero (Nat.ne_of_gt (width_pos c))
      rw [spaces, hwidth, List.replicate_succ', ← List.append_assoc, List.getLast?_concat] at hlast
      exact absurd (Option.some.inj hlast) (by decide)

theorem ReturnsPaired.spaces (n : Nat) : (Text.spaces n).ReturnsPaired := by
  induction n with
  | zero => trivial
  | succ n ih => exact ⟨fun h => absurd h (by decide), ih⟩

theorem ReturnsPaired.blanked {t : Text} (h : t.ReturnsPaired) : t.blanked.ReturnsPaired := by
  induction t with
  | nil => trivial
  | cons c t ih =>
    by_cases hc : c = '\n' ∨ c = '\r'
    · rw [blanked_lineBreak hc]
      refine ⟨fun hr => ?_, ih h.2⟩
      obtain ⟨more, rfl⟩ := List.head?_eq_some_iff.mp (h.1 hr)
      rw [blanked_lineBreak (.inl rfl), List.head?_cons]
    · rw [not_or] at hc
      rw [blanked_cons hc.1 hc.2]
      exact (ReturnsPaired.spaces _).append (ih h.2)

end Text

namespace Position

theorem advance_spaces (p : Position) (n : Nat) (t : Text) :
    p.advance (Text.spaces n ++ t) =
      Position.advance ⟨⟨p.line, p.column + n⟩, p.offset + n⟩ t := by
  induction n generalizing p with
  | zero => rfl
  | succ n ih =>
    rw [show Text.spaces (n + 1) ++ t = ' ' :: (Text.spaces n ++ t) from rfl,
      advance.eq_5 p ' ' _ (by simp) (by simp) (by simp), ih]
    simp only [show Text.width ' ' = 1 from rfl, Nat.add_comm n 1, Nat.add_assoc]

/-- Blanking out moves no place. -/
theorem advance_blanked (p : Position) (t : Text) : p.advance t.blanked = p.advance t := by
  fun_induction advance p t with
  | case1 p => rfl
  | case2 p rest ih =>
    rw [Text.blanked_lineBreak (.inr rfl), Text.blanked_lineBreak (.inl rfl), advance, ih]
  | case3 p rest hn ih =>
    rw [Text.blanked_lineBreak (.inr rfl), advance.eq_3, ih]
    intro more hmore
    cases rest with
    | nil => cases hmore
    | cons d rest =>
      by_cases hd : d = '\n' ∨ d = '\r'
      · rw [Text.blanked_lineBreak hd] at hmore
        exact hn rest (by rw [(List.cons.inj hmore).1])
      · rw [not_or] at hd
        obtain ⟨tail, htail⟩ := Text.blanked_eq_cons hd.1 hd.2 rest
        rw [htail] at hmore
        exact absurd (List.cons.inj hmore).1 (by decide)
  | case4 p rest ih => rw [Text.blanked_lineBreak (.inl rfl), advance, ih]
  | case5 p c rest h₁ hr hn ih =>
    rw [Text.blanked_cons hn hr, advance_spaces, ih]

theorem lineOffset_spaces (n k offset line : Nat) (t : Text) :
    lineOffset n offset line (Text.spaces k ++ t) = lineOffset n (offset + k) line t := by
  induction k generalizing offset with
  | zero => rfl
  | succ k ih =>
    rw [show Text.spaces (k + 1) ++ t = ' ' :: (Text.spaces k ++ t) from rfl,
      lineOffset_cons (by decide), ih, show Text.width ' ' = 1 from rfl, Nat.add_assoc,
      Nat.add_comm 1]

theorem lineOffset_append_congr (n offset line : Nat) (s : Text) {t t' : Text}
    (h : ∀ n offset line, lineOffset n offset line t' = lineOffset n offset line t) :
    lineOffset n offset line (s ++ t') = lineOffset n offset line (s ++ t) := by
  induction s generalizing n offset line with
  | nil => exact h n offset line
  | cons c s ih =>
    simp only [List.cons_append, lineOffset, ih]

/-- Blanking out moves no line. -/
theorem lineOffset_blanked (n offset line : Nat) (s : Text) {t t' : Text}
    (h : ∀ n offset line, lineOffset n offset line t' = lineOffset n offset line t) :
    lineOffset n offset line (s.blanked ++ t') = lineOffset n offset line (s ++ t) := by
  induction s generalizing n offset line with
  | nil => exact h n offset line
  | cons c s ih =>
    by_cases hn : c = '\n'
    · subst hn
      rw [Text.blanked_lineBreak (.inl rfl), List.cons_append, List.cons_append]
      cases n with
      | zero => rw [lineOffset_zero, lineOffset_zero]
      | succ n => rw [lineOffset_lineFeed, lineOffset_lineFeed, ih]
    · rw [List.cons_append, lineOffset_cons hn]
      by_cases hr : c = '\r'
      · subst hr
        rw [Text.blanked_lineBreak (.inr rfl), List.cons_append, lineOffset_cons hn, ih]
      · rw [Text.blanked_cons hn hr, List.append_assoc, lineOffset_spaces, ih]

end Position

/-! ### Pieces

Spaces in the place of a comment join the blanks beside it, so that there may be fewer
pieces than before.  What is not blank is read again, in the same place.
-/

/-- The text of tokens with those of some sort blanked out. -/
def Token.blankedText (p : Token → Bool) (tokens : List Token) : Text :=
  tokens.flatMap fun t => if p t then t.text.blanked else t.text

namespace Piece

/-- Pieces with the tokens of some sort blanked out. -/
def blanked (p : Token → Bool) : Position → List Piece → List Piece
  | _, [] => []
  | start, piece :: rest =>
    (if p ⟨piece.kind, piece.text, start⟩ then ⟨.blank, piece.text.blanked⟩ else piece) ::
      blanked p (start.advance piece.text) rest

variable {p : Token → Bool} {start : Position}

theorem textOf_blanked (start : Position) (pieces : List Piece) :
    textOf (blanked p start pieces) = Token.blankedText p (place start pieces) := by
  induction pieces generalizing start with
  | nil => rfl
  | cons piece rest ih =>
    rw [blanked, textOf_cons, ih, place, Token.blankedText, Token.blankedText, List.flatMap_cons]
    split <;> rfl

/-- What is left to see are the other tokens, in their places. -/
theorem visible_place_blanked (hp : ∀ t, p t → t.kind.isComment) (start : Position)
    (pieces : List Piece) :
    Token.visible (place start (blanked p start pieces)) =
      (Token.visible (place start pieces)).filter fun t => !p t := by
  induction pieces generalizing start with
  | nil => rfl
  | cons piece rest ih =>
    rw [blanked, place, place]
    by_cases h : p ⟨piece.kind, piece.text, start⟩
    · have hkind : piece.kind ≠ .blank := by
        intro hk
        have := hp _ h
        rw [hk] at this
        exact Bool.false_ne_true this
      rw [if_pos h, Token.visible_cons_blank rfl, Position.advance_blanked, ih,
        Token.visible_cons hkind, List.filter_cons_of_neg (by simpa using h)]
    · rw [if_neg h]
      by_cases hk : piece.kind = .blank
      · rw [Token.visible_cons_blank hk, Token.visible_cons_blank hk, ih]
      · rw [Token.visible_cons hk, Token.visible_cons hk, ih,
          List.filter_cons_of_pos (by simpa using h)]

/-- Blanking out closes no block comment. -/
theorem afterFirst?_blanked {front : Text} {pieces : List Piece}
    (h : Text.afterFirst? ['#', '>'] (front ++ textOf pieces) = none)
    (hne : ∀ piece ∈ pieces, piece.text ≠ []) :
    Text.afterFirst? ['#', '>'] (front ++ textOf (blanked p start pieces)) = none := by
  induction pieces generalizing front start with
  | nil => exact h
  | cons piece rest ih =>
    have hrest : ∀ other ∈ rest, other.text ≠ [] := fun other ho =>
      hne other (List.mem_cons_of_mem _ ho)
    rw [textOf_cons] at h
    rw [blanked, textOf_cons]
    split
    · rw [← List.append_assoc]
      refine ih ?_ hrest
      rw [List.append_assoc]
      refine @Text.afterFirst?_replaced _ piece.text _ _ (fun c hc => ?_) ?_ h
      · rcases Text.of_mem_blanked hc with rfl | rfl | rfl <;> decide
      · intro (hnil : piece.text.blanked = [])
        have hsize := Text.size_blanked piece.text
        have hpos := Text.size_pos (hne piece List.mem_cons_self)
        rw [hnil, Text.size_nil] at hsize
        omega
    · rw [← List.append_assoc] at h ⊢
      exact ih h hrest

/-- A comment starts with a mark. -/
theorem exists_text_of_isComment {piece : Piece} {after : Text} (h : piece.IsNext after)
    (hk : piece.kind.isComment) : ∃ c t, piece.text = c :: t ∧ (c = '#' ∨ c = '<') := by
  obtain ⟨c, t, hc⟩ := List.exists_cons_of_ne_nil h.text_ne_nil
  rw [IsNext, hc] at h
  have hstart := (Token.recognise_of_next? h).1
  refine ⟨c, t, hc, ?_⟩
  generalize piece.kind = kind at hk hstart
  cases kind with
  | comment => exact .inl (beq_iff_eq.mp hstart)
  | blockComment => exact .inr (beq_iff_eq.mp hstart)
  | _ => cases hk

/-- Pieces are as they were up to the first that is blanked out. -/
theorem blanked_cases {pieces : List Piece} (h : Lexes pieces [])
    (hp : ∀ t, p t → t.kind.isComment) (start : Position) :
    blanked p start pieces = pieces ∨ ∃ kept comment behind more,
      pieces = kept ++ comment :: behind ∧ comment.kind.isComment ∧
        textOf (blanked p start pieces) = textOf kept ++ ' ' :: more := by
  induction pieces generalizing start with
  | nil => exact .inl rfl
  | cons piece rest ih =>
    rw [blanked]
    by_cases hpiece : p ⟨piece.kind, piece.text, start⟩
    · obtain ⟨c, t, hc, hmark⟩ := exists_text_of_isComment h.1 (hp _ hpiece)
      obtain ⟨more, hmore⟩ := Text.blanked_eq_cons (c := c)
        (by rcases hmark with rfl | rfl <;> decide) (by rcases hmark with rfl | rfl <;> decide) t
      refine .inr ⟨[], piece, rest, more ++ textOf (blanked p (start.advance piece.text) rest), rfl,
        hp _ hpiece, ?_⟩
      rw [if_pos hpiece, textOf_cons, hc, hmore]
      rfl
    · rw [if_neg hpiece]
      rcases ih h.2 (start.advance piece.text) with hsame | ⟨kept, comment, behind, more, rfl, hk, ht⟩
      · exact .inl (by rw [hsame])
      · exact .inr ⟨piece :: kept, comment, behind, more, rfl, hk, by
          rw [textOf_cons, textOf_cons, ht, List.append_assoc]⟩

/-- What was read as an operator opens no block comment. -/
theorem blockComment_blanked {piece : Piece} {rest : List Piece} (h : Lexes (piece :: rest) [])
    (hp : ∀ t, p t → t.kind.isComment) (hk : piece.kind = .operator) :
    Pattern.blockComment (piece.text ++ textOf (blanked p start rest)) = none := by
  have hnext := h.1
  rw [IsNext, hk, List.append_nil] at hnext
  obtain ⟨c, hc, hnone⟩ := Token.blockComment_of_operator hnext
  rw [hc, List.singleton_append]
  unfold Pattern.blockComment at hnone ⊢
  split
  · next t heq =>
    obtain ⟨rfl, htail⟩ := List.cons.inj heq
    cases rest with
    | nil => cases htail
    | cons next others =>
      have hne : ∀ other ∈ others, other.text ≠ [] := by
        intro other ho
        obtain ⟨front, behind, rfl⟩ := List.append_of_mem ho
        exact ((lexes_append front (other :: behind) []).mp h.2.2).2.1.text_ne_nil
      rw [blanked, textOf_cons] at htail
      obtain ⟨d, text, hd⟩ := List.exists_cons_of_ne_nil h.2.1.text_ne_nil
      by_cases hselected : p ⟨next.kind, next.text, start⟩
      · obtain ⟨e, text', he, hmark⟩ := exists_text_of_isComment h.2.1 (hp _ hselected)
        obtain ⟨more, hmore⟩ := Text.blanked_eq_cons (c := e)
          (by rcases hmark with rfl | rfl <;> decide) (by rcases hmark with rfl | rfl <;> decide)
          text'
        rw [if_pos hselected, he, hmore] at htail
        exact absurd (List.cons.inj htail).1 (by decide)
      · rw [if_neg hselected, hd, List.cons_append] at htail
        obtain ⟨rfl, rfl⟩ := List.cons.inj htail
        rw [textOf_cons, hd] at hnone
        exact afterFirst?_blanked hnone hne
  · rfl

/-- A token is read again when comments behind it are blanked out. -/
theorem isNext_blanked {piece : Piece} {rest : List Piece} (h : Lexes (piece :: rest) [])
    (hp : ∀ t, p t → t.kind.isComment) (hk : piece.kind ≠ .blank) :
    piece.IsNext (textOf (blanked p start rest)) := by
  rcases blanked_cases h.2 hp start with hsame | ⟨kept, comment, behind, more, rfl, hcomment, ht⟩
  · rw [hsame]
    simpa using h.1
  · rw [ht]
    refine (@lexes_moved [piece] _ _ _ h ⟨.space _, ?_, ?_⟩).1
    · intro front other others heq hoperator
      obtain ⟨rfl, rfl, rfl⟩ : front = [] ∧ piece = other ∧ others = [] := by
        cases front with
        | nil => exact ⟨rfl, (List.cons.inj heq).1, (List.cons.inj heq).2.symm⟩
        | cons x front => simp at heq
      rw [List.nil_append, ← ht]
      exact blockComment_blanked h hp hoperator
    · intro hkept other hother
      obtain rfl : piece = other := Option.some.inj hother
      refine ⟨hk, fun hline => ?_⟩
      have hnext := h.1
      obtain ⟨c, t, hc, hmark⟩ := exists_text_of_isComment
        ((lexes_append kept _ _).mp h.2).2.1 hcomment
      rw [hkept, IsNext, List.nil_append, textOf_cons, hc, List.append_nil, List.cons_append]
        at hnext
      refine absurd hline (Token.kind_ne_comment ?_ hnext)
      rcases hmark with rfl | rfl <;> decide

/-- Blanks that are read are blanks by themselves. -/
theorem skipBlanks_text {piece : Piece} {rest : List Piece} (h : Lexes (piece :: rest) [])
    (hk : piece.kind = .blank) : Pattern.skipBlanks piece.text = [] := by
  have hnext := h.1
  rw [IsNext, hk, List.append_nil] at hnext
  have hskip := Token.skipBlanks_of_blanks (Token.blanks_of_next? hnext)
  have hhead {c : Char} (hc : TokenKind.blank.mayStart c) : (textOf rest).head? ≠ some c := by
    intro hfirst
    obtain ⟨more, hmore⟩ := List.head?_eq_some_iff.mp hfirst
    cases rest with
    | nil => cases hmore
    | cons next others =>
      have hbehind := h.2.1
      rw [IsNext, List.append_nil, ← textOf_cons] at hbehind
      rw [Token.mayStart_behind_blank hnext hmore hbehind] at hc
      exact Bool.false_ne_true hc
  exact Pattern.skipBlanks_eq_nil (hhead rfl) (hhead rfl) hskip

/-- No line feed comes to stand behind a piece. -/
theorem keepsBreaks_blanked {piece : Piece} {rest : List Piece} (h : Lexes (piece :: rest) [])
    (hp : ∀ t, p t → t.kind.isComment) (start : Position) :
    Text.KeepsBreaks piece.text (textOf (blanked p start rest)) := by
  have hkeeps := keepsBreaks h
  rcases blanked_cases h.2 hp start with hsame | ⟨kept, comment, behind, more, rfl, -, ht⟩
  · rwa [hsame]
  · intro hlast hfeed
    rw [textOf_append] at hkeeps
    rw [ht, List.head?_append, Option.or_eq_some_iff] at hfeed
    rcases hfeed with hkept | ⟨-, hspace⟩
    · exact hkeeps.left hlast hkept
    · exact absurd (Option.some.inj hspace) (by decide)

/-- **Pieces are read again when comments are blanked out.** -/
theorem spells_blanked {pieces : List Piece} (h : Lexes pieces [])
    (hp : ∀ t, p t → t.kind.isComment) (start : Position) :
    Spells (blanked p start pieces) [] := by
  induction pieces generalizing start with
  | nil => trivial
  | cons piece rest ih =>
    refine ⟨?_, ih h.2 _⟩
    rw [List.append_nil]
    split
    · next hpiece =>
      have hk : piece.kind ≠ .blank := fun hk => by
        have hcomment := hp _ hpiece
        rw [hk] at hcomment
        exact Bool.false_ne_true hcomment
      have hlast := Text.getLast?_blanked (h.1.getLast?_ne_return hk)
      exact .inl ⟨rfl, Text.skipBlanks_blanked _, fun hr => absurd hr hlast⟩
    · by_cases hk : piece.kind = .blank
      · exact .inl ⟨hk, skipBlanks_text h hk, keepsBreaks_blanked h hp _⟩
      · exact .inr (isNext_blanked h hp hk)

end Piece

/-! ### Sources

Tokens stand apart in their source, so that what is cut out between two of them has a
comment either within it or outside of it, and never half of one.
-/

namespace Token

variable {source : Text} {p : Token → Bool}

/-- **When comments are blanked out the other tokens stay**, blanks aside. -/
theorem visible_scan_blanked (h : unknowns (scan source) = [])
    (hp : ∀ t, p t → t.kind.isComment) :
    visible (scan (blankedText p (scan source))) =
      (visible (scan source)).filter fun t => !p t := by
  obtain ⟨pieces, rfl, hlexes, hscan⟩ := exists_pieces h
  rw [hscan, ← Piece.textOf_blanked, visible_scan (Piece.spells_blanked hlexes hp .start),
    Piece.visible_place_blanked hp]

/-- The grammar sees the same tokens. -/
theorem significant_scan_blanked (h : unknowns (scan source) = [])
    (hp : ∀ t, p t → t.kind.isComment) :
    significant (scan (blankedText p (scan source))) = significant (scan source) := by
  rw [← significant_visible, visible_scan_blanked h hp, ← significant_visible (scan source),
    significant, List.filter_filter]
  refine List.filter_congr fun t _ => ?_
  cases hselected : p t with
  | false => simp
  | true =>
    simp [TokenKind.isSignificant_eq_false (hp t hselected)]

theorem unknowns_scan_blanked (h : unknowns (scan source) = [])
    (hp : ∀ t, p t → t.kind.isComment) :
    unknowns (scan (blankedText p (scan source))) = [] := by
  rw [← unknowns_visible, visible_scan_blanked h hp, unknowns, List.filter_filter,
    List.filter_eq_nil_iff]
  intro t ht hunknown
  rw [← unknowns_visible, unknowns, List.filter_eq_nil_iff] at h
  exact h t ht (Bool.and_eq_true_iff.mp hunknown).1

/-- Line breaks stay too, so places lead to the same offsets. -/
theorem offsetIn_blanked (h : unknowns (scan source) = []) (location : Location) :
    location.offsetIn (blankedText p (scan source)) = location.offsetIn source := by
  obtain ⟨pieces, rfl, -, hscan⟩ := exists_pieces h
  rw [hscan]
  have hlines (start : Position) : ∀ n offset line,
      lineOffset n offset line (blankedText p (Piece.place start pieces)) =
        lineOffset n offset line (Piece.textOf pieces) := by
    clear h hscan
    induction pieces generalizing start with
    | nil => exact fun _ _ _ => rfl
    | cons piece rest ih =>
      intro n offset line
      rw [Piece.place, blankedText, List.flatMap_cons, Piece.textOf_cons]
      split
      · exact Position.lineOffset_blanked n offset line _ (ih _)
      · exact Position.lineOffset_append_congr n offset line _ (ih _)
  rw [Location.offsetIn, Location.offsetIn, hlines]

theorem textOf_scan (h : unknowns (scan source) = []) : textOf (scan source) = source := by
  obtain ⟨pieces, rfl, -, hscan⟩ := exists_pieces h
  rw [hscan, Piece.textOf_place]

theorem textOf_append (first second : List Token) :
    textOf (first ++ second) = textOf first ++ textOf second := List.flatMap_append

theorem blankedText_append (first second : List Token) :
    blankedText p (first ++ second) = blankedText p first ++ blankedText p second :=
  List.flatMap_append

theorem size_blankedText (tokens : List Token) :
    (blankedText p tokens).size = (textOf tokens).size := by
  induction tokens with
  | nil => rfl
  | cons t rest ih =>
    rw [blankedText, textOf, List.flatMap_cons, List.flatMap_cons, Text.size_append,
      Text.size_append]
    refine congrArg₂ (· + ·) ?_ ih
    split
    · exact Text.size_blanked _
    · rfl

theorem blankedText_eq {tokens : List Token} (h : ∀ t ∈ tokens, p t = false) :
    blankedText p tokens = textOf tokens := by
  rw [blankedText, textOf, List.flatMap_def, List.flatMap_def,
    List.map_congr_left fun t ht => if_neg (by rw [h t ht]; exact Bool.false_ne_true)]

/-- What stands between the tokens that are blanked out is cut out of both texts. -/
theorem slice_blanked (h : unknowns (scan source) = []) {front middle behind : List Token}
    (hscan : scan source = front ++ middle ++ behind) (hmiddle : ∀ t ∈ middle, p t = false)
    {a b : Nat} (ha : (textOf front).size ≤ a)
    (hb : b ≤ (textOf front).size + (textOf middle).size) :
    (blankedText p (scan source)).slice a b = source.slice a b := by
  rcases Nat.le_total b a with hab | hab
  · rw [Text.slice_eq_nil _ hab, Text.slice_eq_nil _ hab]
  · obtain ⟨a, rfl⟩ := Nat.exists_eq_add_of_le ha
    obtain ⟨b, rfl⟩ := Nat.exists_eq_add_of_le (Nat.le_trans ha hab)
    have hb : b ≤ (textOf middle).size := by omega
    have hsource : source = textOf front ++ textOf middle ++ textOf behind := by
      rw [← textOf_append, ← textOf_append, ← hscan, textOf_scan h]
    have hright := Text.slice_stretch (textOf front) (textOf middle) (textOf behind) (a := a) hb
    rw [← hsource] at hright
    rw [hscan, blankedText_append, blankedText_append, blankedText_eq hmiddle, hright,
      ← size_blankedText (p := p) front, Text.slice_stretch _ _ _ hb]

/-- Carriage returns stay paired. -/
theorem returnsPaired_blanked (h : unknowns (scan source) = []) (hpaired : source.ReturnsPaired) :
    (blankedText p (scan source)).ReturnsPaired := by
  obtain ⟨pieces, rfl, hlexes, hscan⟩ := exists_pieces h
  have hreturn := Piece.getLast?_ne_return hlexes hpaired
  rw [hscan]
  generalize Position.start = start
  clear h hscan hlexes
  induction pieces generalizing start with
  | nil => trivial
  | cons piece rest ih =>
    rw [Piece.textOf_cons] at hpaired
    have hrest := ih hpaired.right (fun other ho => hreturn other (List.mem_cons_of_mem _ ho))
      (start.advance piece.text)
    have hpiece := hpaired.left (hreturn piece List.mem_cons_self)
    rw [Piece.place, blankedText, List.flatMap_cons]
    refine Text.ReturnsPaired.append ?_ hrest
    split
    · exact hpiece.blanked
    · exact hpiece

theorem start_lt_stop (h : unknowns (scan source) = []) {t : Token} (ht : t ∈ scan source) :
    t.start.offset < t.stop.offset :=
  Position.offset_lt_advance t.start (text_ne_nil_of_scan h ht)

/-- Every token starts before the next one. -/
theorem pairwise_start (h : unknowns (scan source) = []) :
    (scan source).Pairwise fun t u => t.start.offset < u.start.offset :=
  (pairwise_scan h).imp_of_mem fun ht _ hstop => Nat.lt_of_lt_of_le (start_lt_stop h ht) hstop

/-- A token starts behind all the text before it. -/
theorem start_offset (h : unknowns (scan source) = []) {front behind : List Token} {t : Token}
    (hscan : scan source = front ++ t :: behind) : t.start.offset = (textOf front).size := by
  obtain ⟨pieces, rfl, -, hplace⟩ := exists_pieces h
  obtain ⟨first, piece, rest, rfl, rfl, rfl, -⟩ := Piece.place_eq_append (hplace.symm.trans hscan)
  rw [Piece.textOf_place]
  exact (Piece.stop_offset _ _).trans (Nat.zero_add _)

/-- From a token some text leads to every later one. -/
theorem exists_advance (h : unknowns (scan source) = []) {front behind : List Token} {t u : Token}
    (hscan : scan source = front ++ t :: behind) (hu : u ∈ behind) :
    ∃ w, w ≠ [] ∧ u.start = t.start.advance w := by
  obtain ⟨pieces, rfl, hlexes, hplace⟩ := exists_pieces h
  obtain ⟨first, piece, rest, rfl, -, rfl, rfl⟩ :=
    Piece.place_eq_append (hplace.symm.trans hscan)
  obtain ⟨middle, other, last, rfl, rfl⟩ := Piece.mem_place hu
  have hrest := (Piece.lexes_append _ _ _).mp hlexes |>.2
  refine ⟨Piece.textOf (piece :: middle), ?_, ?_⟩
  · rw [Piece.textOf_cons]
    exact List.append_ne_nil_of_left_ne_nil hrest.1.text_ne_nil _
  · exact @Piece.stop_eq_advance_of_lexes (piece :: middle) _ hrest _

/-- Two tokens are the same, or text leads from one to the other. -/
theorem eq_or_advance (h : unknowns (scan source) = []) {t u : Token} (ht : t ∈ scan source)
    (hu : u ∈ scan source) : t = u ∨
      ∃ w, w ≠ [] ∧ (u.start = t.start.advance w ∨ t.start = u.start.advance w) := by
  obtain ⟨front, behind, hscan⟩ := List.append_of_mem ht
  rw [hscan] at hu
  rcases List.mem_append.mp hu with hfront | hcons
  · obtain ⟨first, second, rfl⟩ := List.append_of_mem hfront
    rw [List.append_assoc, List.cons_append] at hscan
    obtain ⟨w, hne, hw⟩ := exists_advance h hscan (List.mem_append_right _ List.mem_cons_self)
    exact .inr ⟨w, hne, .inr hw⟩
  · rcases List.mem_cons.mp hcons with rfl | hbehind
    · exact .inl rfl
    · obtain ⟨w, hne, hw⟩ := exists_advance h hscan hbehind
      exact .inr ⟨w, hne, .inl hw⟩

/-- Tokens that start at the same offset are the same. -/
theorem eq_of_start (h : unknowns (scan source) = []) {t u : Token} (ht : t ∈ scan source)
    (hu : u ∈ scan source) (hstart : t.start.offset = u.start.offset) : t = u := by
  refine (eq_or_advance h ht hu).resolve_right fun ⟨w, hne, hw⟩ => ?_
  have hpos := Text.size_pos hne
  rcases hw with hw | hw <;> rw [hw, Position.advance_offset] at hstart <;> omega

/-- Tokens that start at the same place are the same. -/
theorem eq_of_location (h : unknowns (scan source) = []) {t u : Token} (ht : t ∈ scan source)
    (hu : u ∈ scan source) (hlocation : t.location = u.location) : t = u := by
  refine (eq_or_advance h ht hu).resolve_right fun ⟨w, hne, hw⟩ => ?_
  rcases hw with hw | hw
  · exact Position.advance_ne t.start hne (by rw [← hw]; exact hlocation.symm)
  · exact Position.advance_ne u.start hne (by rw [← hw]; exact hlocation)

end Token

end DesiredState

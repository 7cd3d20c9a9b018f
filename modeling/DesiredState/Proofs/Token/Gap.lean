/-
A gap between two tokens.

Spaces and tabs between two tokens may be replaced by a space, a backtick and a line
feed: the tokens before them and behind them are read as they were.  What has to be
looked at is the token before the gap, which could have ended in another way, and any
`<` before it, which could now open a block comment; it does not, because the gap holds
no part of a mark that closes one.
-/
import DesiredState.Proofs.Token.Relocation

namespace DesiredState

/-- A space, a backtick and a line feed: a line that goes on. -/
def Text.continuation : Text := [' ', '`', '\n']

/-- A text of spaces and tabs. -/
def Text.IsGap (gap : Text) : Prop := ∀ c ∈ gap, c = ' ' ∨ c = '\t'

/-- The text that tokens were read from. -/
def Token.textOf (tokens : List Token) : Text := tokens.flatMap (·.text)

/-- What holds no part of a mark that closes a block comment may be put in the place of anything. -/
theorem Text.afterFirst?_replaced {front gap other behind : Text}
    (ho : ∀ c ∈ other, c ≠ '#' ∧ c ≠ '>') (hne : other ≠ [])
    (h : afterFirst? ['#', '>'] (front ++ (gap ++ behind)) = none) :
    afterFirst? ['#', '>'] (front ++ (other ++ behind)) = none := by
  induction front with
  | nil =>
    clear hne
    induction other with
    | nil => exact Token.afterFirst?_eq_none_of_append h
    | cons c other ih =>
      rw [List.nil_append, List.cons_append, afterFirst?, dropHead?,
        if_neg (Ne.symm (ho c List.mem_cons_self).1)]
      exact ih fun d hd => ho d (List.mem_cons_of_mem _ hd)
  | cons c front ih =>
    rw [List.cons_append, afterFirst?] at h ⊢
    cases hd : dropHead? ['#', '>'] (c :: (front ++ (gap ++ behind))) with
    | some rest => rw [hd] at h; cases h
    | none =>
      rw [hd] at h
      have hnone : dropHead? ['#', '>'] (c :: (front ++ (other ++ behind))) = none := by
        rw [dropHead?] at hd ⊢
        by_cases hc : '#' = c
        · rw [if_pos hc] at hd ⊢
          cases front with
          | nil =>
            obtain ⟨d, more, rfl⟩ := List.exists_cons_of_ne_nil hne
            rw [List.nil_append, List.cons_append, dropHead?,
              if_neg (Ne.symm (ho d List.mem_cons_self).2)]
          | cons d front =>
            rw [List.cons_append, dropHead?] at hd ⊢
            by_cases hcd : '>' = d
            · rw [if_pos hcd] at hd
              cases front ++ (gap ++ behind) <;> cases hd
            · rw [if_neg hcd]
        · rw [if_neg hc]
      rw [hnone]
      exact ih h

theorem Text.continuation_ne {c : Char} (h : c ∈ continuation) : c ≠ '#' ∧ c ≠ '>' := by
  rw [continuation] at h
  simp only [List.mem_cons, List.not_mem_nil, or_false] at h
  rcases h with rfl | rfl | rfl <;> decide

namespace Token

/-- A line comment goes on to the end of the line. -/
theorem kind_ne_comment {kind : TokenKind} {token more : Text} {c : Char}
    (hc : c ≠ '\r' ∧ c ≠ '\n') (h : next? (token ++ c :: more) = some (kind, c :: more)) :
    kind ≠ .comment := by
  rintro rfl
  cases token with
  | nil => exact absurd (next?_takes h).2.2 (Nat.lt_irrefl _)
  | cons d token =>
    have hrec := (recognise_of_next? h).2
    simp only [TokenKind.recognise, Pattern.lineComment] at hrec
    split at hrec
    · next rest _ =>
      have hhead := List.head?_dropWhile_not (fun c => c != '\r' && c != '\n') rest
      rw [Option.some.inj hrec, List.head?_cons] at hhead
      simp [hc.1, hc.2] at hhead
    · cases hrec

/-- Blanks go on over spaces and tabs. -/
theorem kind_ne_blank {kind : TokenKind} {token gap behind : Text} (hgap : gap.IsGap)
    (hne : gap ≠ []) (h : next? (token ++ (gap ++ behind)) = some (kind, gap ++ behind))
    (hnext : next? (gap ++ behind) = some (.blank, behind)) : kind ≠ .blank := by
  rintro rfl
  obtain ⟨c, more, rfl⟩ := List.exists_cons_of_ne_nil hne
  have := mayStart_behind_blank h rfl hnext
  rcases hgap c List.mem_cons_self with rfl | rfl <;> exact absurd this (by decide)

/-- What is read as an operator opens no block comment. -/
theorem blockComment_of_operator {token behind : Text}
    (h : next? (token ++ behind) = some (.operator, behind)) :
    ∃ c, token = [c] ∧ Pattern.blockComment (c :: behind) = none := by
  cases token with
  | nil => exact absurd (next?_takes h).2.2 (Nat.lt_irrefl _)
  | cons c token =>
    have hrec := (recognise_of_next? h).2
    simp only [TokenKind.recognise, Pattern.operator, Pattern.one, Option.ite_none_right_eq_some,
      Option.some.injEq] at hrec
    obtain rfl : token = [] := List.append_left_eq_self.mp hrec.2
    refine ⟨c, rfl, ?_⟩
    by_cases hc : c = '<'
    · subst hc
      have hfirst := next?_of_two (c := '<') (k := .blockComment) (l := .operator) rfl behind
      rw [show ('<' :: behind : Text) = ['<'] ++ behind from rfl, h] at hfirst
      cases hb : Pattern.blockComment ('<' :: behind) with
      | none => rfl
      | some rest =>
        rw [show TokenKind.recognise .blockComment (['<'] ++ behind) = some rest from hb] at hfirst
        cases hfirst
    · exact TokenKind.recognise_cons (k := .blockComment) behind (by simpa [TokenKind.mayStart])

end Token

namespace Piece

/-- The tokens before a gap are read again when the line is continued there. -/
theorem lexes_before_gap {front behind : List Piece} {gap : Piece} (hgap : gap.text.IsGap)
    (hkind : gap.kind = .blank) (h : Lexes (front ++ gap :: behind) []) :
    Lexes front (Text.continuation ++ textOf behind) := by
  have hgapNext := ((lexes_append _ _ _).mp h).2.1
  have hne : gap.text ≠ [] := hgapNext.text_ne_nil
  rw [IsNext, hkind, List.append_nil] at hgapNext
  refine @lexes_moved front [] (gap :: behind) (' ' :: '`' :: '\n' :: textOf behind) h
    ⟨.space _, ?_, ?_⟩
  · rintro first piece rest rfl hoperator
    have hnext := ((lexes_append _ _ _).mp
      (show Lexes (first ++ (piece :: (rest ++ gap :: behind))) [] by simpa using h)).2.1
    rw [IsNext, hoperator, List.append_nil] at hnext
    obtain ⟨c, hc, hnone⟩ := Token.blockComment_of_operator hnext
    rw [hc, List.append_nil]
    rw [textOf_append, textOf_cons] at hnone
    change Pattern.blockComment (c :: (textOf rest ++ (Text.continuation ++ textOf behind))) = none
    unfold Pattern.blockComment at hnone ⊢
    split
    · next t heq =>
      obtain ⟨rfl, htail⟩ := List.cons.inj heq
      cases hrest : textOf rest with
      | nil =>
        rw [hrest] at htail
        exact absurd (List.cons.inj htail).1 (by decide)
      | cons d more =>
        rw [hrest, List.cons_append] at htail
        obtain ⟨rfl, rfl⟩ := List.cons.inj htail
        rw [hrest] at hnone
        exact Text.afterFirst?_replaced (fun _ => Text.continuation_ne) (List.cons_ne_nil _ _) hnone
    · rfl
  · intro _ last hlast
    obtain ⟨init, rfl⟩ := List.getLast?_eq_some_iff.mp hlast
    have hnext := ((lexes_append _ _ _).mp
      (show Lexes (init ++ last :: gap :: behind) [] by simpa using h)).2.1
    rw [IsNext, List.append_nil, textOf_cons] at hnext
    refine ⟨Token.kind_ne_blank hgap hne hnext hgapNext, fun hk => ?_⟩
    obtain ⟨c, more, hc⟩ := List.exists_cons_of_ne_nil hne
    rw [hc, List.cons_append] at hnext
    refine absurd hk (Token.kind_ne_comment ?_ hnext)
    rcases hgap c (by rw [hc]; exact List.mem_cons_self) with rfl | rfl <;> decide

/-- **A gap may be replaced by a continued line.** -/
theorem lexes_continued {front behind : List Piece} {gap : Piece} (hgap : gap.text.IsGap)
    (hkind : gap.kind = .blank) (h : Lexes (front ++ gap :: behind) []) :
    Lexes (front ++ ⟨.blank, Text.continuation⟩ :: behind) [] := by
  obtain ⟨-, hnext, hbehind⟩ := (lexes_append _ _ _).mp h
  refine (lexes_append _ _ _).mpr ⟨?_, ?_, hbehind⟩
  · rw [textOf_cons, List.append_nil]
    exact lexes_before_gap hgap hkind h
  · rw [IsNext, List.append_nil] at hnext ⊢
    rw [hkind] at hnext
    have hskip : Pattern.skipBlanks (textOf behind) = textOf behind := by
      have := Token.skipBlanks_idem (gap.text ++ textOf behind)
      rwa [Token.skipBlanks_of_blanks (Token.blanks_of_next? hnext)] at this
    refine Token.next?_of_first (c := ' ') rfl ?_
    change some (Pattern.skipBlanks ('`' :: '\n' :: textOf behind)) = _
    rw [Pattern.skipBlanks, hskip]

/-- A token among those of pieces is one of the pieces, and splits them. -/
theorem place_eq_append {start : Position} {pieces : List Piece} {front behind : List Token}
    {t : Token} (h : place start pieces = front ++ t :: behind) :
    ∃ first piece rest, pieces = first ++ piece :: rest ∧ front = place start first ∧
      t = ⟨piece.kind, piece.text, stop start first⟩ ∧
      behind = place ((stop start first).advance piece.text) rest := by
  induction pieces generalizing start front with
  | nil => exact absurd h (by simp)
  | cons piece rest ih =>
    cases front with
    | nil =>
      obtain ⟨rfl, rfl⟩ := List.cons.inj h
      exact ⟨[], piece, rest, rfl, rfl, rfl, rfl⟩
    | cons u front =>
      obtain ⟨rfl, hrest⟩ := List.cons.inj h
      obtain ⟨first, other, others, rfl, rfl, rfl, rfl⟩ := ih hrest
      exact ⟨piece :: first, other, others, rfl, rfl, rfl, rfl⟩

theorem textOf_place (start : Position) (pieces : List Piece) :
    Token.textOf (place start pieces) = textOf pieces := by
  induction pieces generalizing start with
  | nil => rfl
  | cons piece rest ih =>
    rw [place, textOf_cons, ← ih (start.advance piece.text)]
    rfl

end Piece

end DesiredState

/-
A source that is cut before a token.

What stands before a token is read again when the source is cut there and goes on with a
line feed, as long as the text behind the line feed holds no part of a mark that closes a
block comment.  Only the blanks at the cut are different: those before it and the line feed
are read as one token.
-/
import DesiredState.Proofs.Token.Gap
import DesiredState.Proofs.Layout.Parsed

namespace DesiredState

namespace Piece

/-- What opened no block comment opens none before a text that cannot close one. -/
theorem blockComment_cut {pieces behind : List Piece} {other : Text}
    (h : Lexes (pieces ++ behind) []) (ho : ∀ c ∈ other, c ≠ '#' ∧ c ≠ '>') (hne : other ≠ [])
    {front rest : List Piece} {piece : Piece} (hpieces : pieces = front ++ piece :: rest)
    (hk : piece.kind = .operator) :
    Pattern.blockComment (piece.text ++ (textOf rest ++ other)) = none := by
  subst hpieces
  rw [List.append_assoc, List.cons_append] at h
  have hnext := ((lexes_append _ _ _).mp h).2.1
  rw [IsNext, hk, List.append_nil] at hnext
  obtain ⟨c, hc, hnone⟩ := Token.blockComment_of_operator hnext
  rw [hc]
  change Pattern.blockComment (c :: (textOf rest ++ other)) = none
  unfold Pattern.blockComment at hnone ⊢
  split
  · next back heq =>
    obtain ⟨rfl, hback⟩ := List.cons.inj heq
    rw [textOf_append] at hnone
    cases hrest : textOf rest with
    | nil =>
      obtain ⟨d, more, rfl⟩ := List.exists_cons_of_ne_nil hne
      rw [hrest] at hback
      exact absurd (List.cons.inj hback).1 (ho d List.mem_cons_self).1
    | cons d more =>
      rw [hrest, List.cons_append] at hback
      obtain ⟨rfl, rfl⟩ := List.cons.inj hback
      rw [hrest] at hnone
      have hbehind : Text.afterFirst? ['#', '>'] (more ++ (textOf behind ++ [])) = none := by
        rwa [List.append_nil]
      have hreplaced := Text.afterFirst?_replaced ho hne hbehind
      rwa [List.append_nil] at hreplaced
  · rfl

/-- Nothing that continues blanks stands behind them. -/
theorem head?_behind_blank {piece : Piece} {behind : List Piece}
    (h : Lexes (piece :: behind) []) (hk : piece.kind = .blank) :
    (textOf behind).head? ≠ some '\n' ∧ (textOf behind).head? ≠ some '\r' := by
  cases behind with
  | nil => exact ⟨nofun, nofun⟩
  | cons next rest =>
    have hblank := h.1
    have hnext := h.2.1
    obtain ⟨c, text, hc⟩ := List.exists_cons_of_ne_nil hnext.text_ne_nil
    rw [IsNext, List.append_nil, hk] at hblank
    rw [IsNext, List.append_nil] at hnext
    have htext : textOf (next :: rest) = c :: (text ++ textOf rest) := by
      rw [textOf_cons, hc, List.cons_append]
    have hstart := Token.mayStart_behind_blank hblank htext hnext
    rw [htext, List.head?_cons]
    constructor <;>
      · intro heq
        rw [Option.some.inj heq] at hstart
        cases hstart

/-- The blanks before a cut, and what is read before them if the text goes on with a line feed
there. -/
theorem exists_before_cut {pieces behind : List Piece} (h : Lexes (pieces ++ behind) [])
    {more : Text} (hmore : ∀ c ∈ more, c ≠ '#' ∧ c ≠ '>') :
    ∃ init blanks, pieces = init ++ blanks ∧ (∀ p ∈ blanks, p.kind = .blank) ∧
      Pattern.skipBlanks (textOf blanks) = [] ∧ Lexes init (textOf blanks ++ '\n' :: more) := by
  have hother : ∀ c ∈ '\n' :: more, c ≠ '#' ∧ c ≠ '>' := by
    intro c hc
    rcases List.mem_cons.mp hc with rfl | hc
    · decide
    · exact hmore c hc
  cases hlast : pieces.getLast? with
  | none =>
    rw [List.getLast?_eq_none_iff.mp hlast]
    exact ⟨[], [], rfl, fun _ hp => absurd hp List.not_mem_nil, rfl, trivial⟩
  | some last =>
    obtain ⟨init, rfl⟩ := List.getLast?_eq_some_iff.mp hlast
    have hall : Lexes (init ++ ([last] ++ behind)) [] := by simpa using h
    by_cases hk : last.kind = .blank
    · have hlexes : Lexes (last :: behind) [] := ((lexes_append _ _ _).mp hall).2
      obtain ⟨hline, hreturn⟩ := head?_behind_blank hlexes hk
      refine ⟨init, [last], rfl, fun p hp => by rw [List.mem_singleton.mp hp, hk], ?_, ?_⟩
      · have hnext := hlexes.1
        rw [IsNext, List.append_nil, hk] at hnext
        rw [textOf_cons, textOf_nil, List.append_nil]
        exact Pattern.skipBlanks_eq_nil hline hreturn
          (Token.skipBlanks_of_blanks (Token.blanks_of_next? hnext))
      · refine @lexes_moved init [last] behind _ hall
          ⟨.lineFeed more, ?_, fun hnil => absurd hnil (List.cons_ne_nil _ _)⟩
        rintro front piece rest rfl hoperator
        rw [List.append_assoc, List.cons_append] at h
        have hlexes : Lexes ((front ++ piece :: (rest ++ [last])) ++ behind) [] := by simpa using h
        exact blockComment_cut hlexes hother (List.cons_ne_nil _ _) rfl hoperator
    · refine ⟨init ++ [last], [], by simp, fun _ hp => absurd hp List.not_mem_nil, rfl, ?_⟩
      refine @lexes_moved (init ++ [last]) [] behind _ (by simpa using h) ⟨.lineFeed more, ?_, ?_⟩
      · intro front piece rest heq hoperator
        rw [List.append_nil]
        exact blockComment_cut h hother (List.cons_ne_nil _ _) heq hoperator
      · intro _ piece hpiece
        rw [List.getLast?_concat] at hpiece
        rw [← Option.some.inj hpiece]
        exact ⟨hk, fun _ c hc => (Option.some.inj hc).symm⟩

/-! ### Pieces on lines of their own

A line feed behind a token ends it, whatever comes on the next line.  So tokens of one
character each can be put there one after another, and each is read by itself.
-/

/-- Each piece with a line feed behind it. -/
def inLines (pieces : List Piece) : List Piece :=
  pieces.flatMap fun piece => [piece, ⟨.blank, ['\n']⟩]

/-- A piece that is read before any line feed, and is no blank. -/
def IsLine (piece : Piece) : Prop :=
  piece.kind ≠ .blank ∧ ∀ more : Text, piece.IsNext ('\n' :: more)

theorem skipBlanks_inLines {pieces : List Piece} (h : ∀ piece ∈ pieces, piece.IsLine) :
    Pattern.skipBlanks (textOf (inLines pieces)) = textOf (inLines pieces) := by
  cases pieces with
  | nil => rfl
  | cons piece rest =>
    obtain ⟨hk, hnext⟩ := h piece List.mem_cons_self
    exact Token.skipBlanks_of_blanks_eq_none
      (Token.blanks_eq_none (hnext (textOf (inLines rest))) hk)

theorem isNext_lineFeed {blanks more : Text} (h : Pattern.skipBlanks blanks = [])
    (hmore : Pattern.skipBlanks more = more) :
    IsNext ⟨.blank, blanks ++ ['\n']⟩ more := by
  have hskip : Pattern.skipBlanks (blanks ++ ['\n']) = [] := by
    rw [Pattern.skipBlanks_append h]
    rfl
  have hnext := Token.next?_blank hskip (by simp) more
  rwa [hmore] at hnext

theorem lexes_inLines {pieces : List Piece} (h : ∀ piece ∈ pieces, piece.IsLine) :
    Lexes (inLines pieces) [] := by
  induction pieces with
  | nil => trivial
  | cons piece rest ih =>
    have hrest : ∀ piece ∈ rest, piece.IsLine := fun p hp => h p (List.mem_cons_of_mem _ hp)
    refine ⟨?_, ?_, ih hrest⟩
    · rw [List.append_nil]
      exact (h piece List.mem_cons_self).2 (textOf (inLines rest))
    · rw [List.append_nil]
      exact @isNext_lineFeed [] _ rfl (skipBlanks_inLines hrest)

end Piece

end DesiredState

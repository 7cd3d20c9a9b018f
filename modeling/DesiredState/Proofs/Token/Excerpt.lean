/-
Tokens cut out of a source.

The text from one token of a source to another is read by itself as the same tokens.  So
of such a text it is known whether it is a string literal: it is one if it is the text of
a single token that is a string.
-/
import DesiredState.Proofs.Token.Blanking

namespace DesiredState

namespace Pattern

/-- A text in which a block comment is closed starts with one, whatever comes then. -/
theorem blockComment_eq_none_of_append {t more : Text} (h : blockComment (t ++ more) = none) :
    blockComment t = none := by
  cases hfound : blockComment t with
  | none => rfl
  | some rest =>
    obtain ⟨comment, rfl⟩ := (blockComment_takes t rest hfound).1
    have hlonger : blockComment (comment ++ (rest ++ more)) = some (rest ++ more) :=
      blockComment_found _ hfound
    rw [← List.append_assoc, h] at hlonger
    cases hlonger

end Pattern

namespace Piece

/-- The tokens of two stretches of pieces. -/
theorem exists_append_of_place {start : Position} {pieces : List Piece} {front behind : List Token}
    (h : place start pieces = front ++ behind) :
    ∃ first rest, pieces = first ++ rest ∧ front = place start first ∧
      behind = place (stop start first) rest := by
  induction front generalizing start pieces with
  | nil => exact ⟨[], pieces, rfl, rfl, h.symm⟩
  | cons t front ih =>
    cases pieces with
    | nil => cases h
    | cons piece pieces =>
      obtain ⟨rfl, hrest⟩ := List.cons.inj h
      obtain ⟨first, rest, rfl, rfl, rfl⟩ := ih hrest
      exact ⟨piece :: first, rest, rfl, rfl, rfl⟩

/-- Pieces are read again when what stands behind them is left out, if the last one is seen by the
grammar. -/
theorem lexes_excerpt {pieces behind : List Piece} (h : Lexes (pieces ++ behind) [])
    (hlast : ∀ piece ∈ pieces.getLast?, piece.kind.isSignificant) : Lexes pieces [] := by
  refine @lexes_moved pieces [] behind [] h ⟨.nil, ?_, fun _ piece hpiece => ?_⟩
  · rintro front piece rest rfl hoperator
    rw [List.append_assoc, List.cons_append] at h
    have hnext := ((lexes_append _ _ _).mp h).2.1
    rw [IsNext, hoperator, List.append_nil] at hnext
    obtain ⟨c, hc, hnone⟩ := Token.blockComment_of_operator hnext
    rw [textOf_append] at hnone
    rw [hc, List.append_nil, List.append_nil]
    exact @Pattern.blockComment_eq_none_of_append (c :: textOf rest) (textOf behind) hnone
  · have hsignificant := hlast piece hpiece
    refine ⟨fun hk => ?_, fun hk => ?_⟩ <;> rw [hk] at hsignificant <;> cases hsignificant

/-- Kinds and texts of tokens do not depend on where they stand. -/
theorem significant_place (start : Position) (pieces : List Piece) :
    (Token.significant (place start pieces)).map (fun t => Piece.mk t.kind t.text) =
      pieces.filter (·.kind.isSignificant) := by
  induction pieces generalizing start with
  | nil => rfl
  | cons piece rest ih =>
    rw [place, Token.significant, List.filter_cons, List.filter_cons]
    by_cases hk : piece.kind.isSignificant
    · rw [if_pos hk, if_pos hk, List.map_cons]
      exact congrArg _ (ih _)
    · rw [if_neg hk, if_neg hk]
      exact ih _

end Piece

namespace Token

variable {source : Text} {front middle behind : List Token}

/-- Pieces as reading finds them are found again, blanks included. -/
theorem scanFrom_of_lexes {pieces : List Piece} (h : Piece.Lexes pieces []) {steps : Nat}
    (hsteps : (Piece.textOf pieces).length ≤ steps) (start : Position) :
    scanFrom steps start (Piece.textOf pieces) = Piece.place start pieces := by
  induction pieces generalizing steps start with
  | nil => cases steps <;> rfl
  | cons piece rest ih =>
    have hnext := h.1
    rw [Piece.IsNext, List.append_nil] at hnext
    rw [Piece.textOf_cons] at hsteps ⊢
    obtain ⟨fewer, hfewer, hscan⟩ := scanFrom_next start hnext hsteps
    rw [hscan, ih h.2 hfewer]
    rfl

/-- **A text that is cut out of a source from one token to another has the same tokens.** -/
theorem scan_excerpt (h : unknowns (scan source) = [])
    (hscan : scan source = front ++ middle ++ behind)
    (hlast : ∀ t ∈ middle.getLast?, t.kind.isSignificant) :
    ∃ start pieces, middle = Piece.place start pieces ∧
      scan (textOf middle) = Piece.place .start pieces := by
  obtain ⟨pieces, rfl, hlexes, hplace⟩ := exists_pieces h
  rw [List.append_assoc] at hscan
  obtain ⟨first, rest, rfl, rfl, hrest⟩ :=
    Piece.exists_append_of_place (hplace.symm.trans hscan)
  obtain ⟨excerpt, last, rfl, rfl, rfl⟩ := Piece.exists_append_of_place hrest.symm
  have hpieces : Piece.Lexes excerpt [] := by
    refine Piece.lexes_excerpt ((Piece.lexes_append _ _ _).mp hlexes).2 fun piece hpiece => ?_
    obtain ⟨init, rfl⟩ := List.getLast?_eq_some_iff.mp hpiece
    refine hlast ⟨piece.kind, piece.text, Piece.stop (Piece.stop .start first) init⟩ ?_
    rw [Piece.place_append, Piece.place, Piece.place, List.getLast?_concat]
    rfl
  refine ⟨_, excerpt, rfl, ?_⟩
  rw [Piece.textOf_place]
  exact scanFrom_of_lexes hpieces (Nat.le_refl _) .start

/-- The text of a stretch of tokens is cut out of the source where they stand. -/
theorem slice_excerpt (h : unknowns (scan source) = [])
    (hscan : scan source = front ++ middle ++ behind) :
    source.slice (textOf front).size ((textOf front).size + (textOf middle).size) =
      textOf middle := by
  have hsource : source = textOf front ++ textOf middle ++ textOf behind := by
    rw [← textOf_append, ← textOf_append, ← hscan, textOf_scan h]
  rw [hsource]
  exact Text.slice_append _ _ _

/-- A token stops behind its text and all the text before it. -/
theorem stop_offset_of_scan (h : unknowns (scan source) = []) {t : Token}
    (hscan : scan source = front ++ t :: behind) :
    t.stop.offset = (textOf (front ++ [t])).size := by
  have ht : textOf [t] = t.text := List.append_nil _
  rw [textOf_append, Text.size_append, ← start_offset h hscan, ht]
  exact Position.advance_offset _ _

end Token

/-! ### String literals

A text stands for a string if it is one literal and nothing more.  Cut out of a source,
that is a question of how many tokens it has.
-/

namespace Literal

variable {source : Text} {front behind : List Token}

/-- The text of a single token is a string literal if the token is a string. -/
theorem string?_token (h : Token.unknowns (Token.scan source) = []) {t : Token}
    (hscan : Token.scan source = front ++ t :: behind) (ht : t.kind.isSignificant) :
    string? t.text = if t.kind.isString then some (ofString t).1 else none := by
  obtain ⟨start, pieces, hplace, hagain⟩ := @Token.scan_excerpt source front [t] behind h
    (by rw [hscan, List.append_assoc, List.singleton_append])
    (fun u hu => (Option.some.inj hu) ▸ ht)
  obtain ⟨piece, rfl⟩ : ∃ piece, pieces = [piece] := by
    match pieces, hplace with
    | [piece], _ => exact ⟨piece, rfl⟩
  obtain ⟨rfl, -⟩ := List.cons.inj hplace
  have hscanned : Token.scan piece.text = [⟨piece.kind, piece.text, .start⟩] := by
    rwa [show Token.textOf [⟨piece.kind, piece.text, start⟩] = piece.text from
      List.append_nil _] at hagain
  have hseen : Token.significant [⟨piece.kind, piece.text, .start⟩] =
      [⟨piece.kind, piece.text, .start⟩] := List.filter_eq_self.mpr (by simpa using ht)
  have hstop : (Token.stop ⟨piece.kind, piece.text, .start⟩).offset = piece.text.size :=
    (Position.advance_offset _ _).trans (Nat.zero_add _)
  unfold string?
  rw [hscanned, hseen]
  simp only [hstop, and_true]
  rfl

/-- The text of several tokens is no string literal. -/
theorem string?_tokens (h : Token.unknowns (Token.scan source) = []) {middle : List Token}
    (hscan : Token.scan source = front ++ middle ++ behind)
    (hlast : ∀ t ∈ middle.getLast?, t.kind.isSignificant)
    (hseveral : 1 < (Token.significant middle).length) : string? (Token.textOf middle) = none := by
  obtain ⟨start, pieces, rfl, hagain⟩ := Token.scan_excerpt h hscan hlast
  have hlength : (Token.significant (Piece.place .start pieces)).length =
      (Token.significant (Piece.place start pieces)).length := by
    have hshapes := (Piece.significant_place .start pieces).trans
      (Piece.significant_place start pieces).symm
    simpa using congrArg List.length hshapes
  unfold string?
  rw [hagain]
  split
  · next t hone =>
    rw [hone] at hlength
    rw [← hlength] at hseveral
    exact absurd hseveral (Nat.lt_irrefl 1)
  · rfl

end Literal

end DesiredState

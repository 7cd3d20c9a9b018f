/-
Stretches of a script.

What a value was read from, from its first token to its last, is a stretch of its script:
pieces of which the first and the last are tokens that the grammar sees.  A stretch is
read again wherever it is put before the end of a line, or before the end of the text.
It falls into the same pieces there, and the rule for values reads just their tokens, to
a tree that is the same up to texts and places.

What a value keeps as its text is the text of its stretch, comments and line breaks in it
included.  So this is what it takes for a text that is handed on as it stands to be read
as the same value again.
-/
import DesiredState.Proofs.Layout.Parsed
import DesiredState.Proofs.Script.Continuation
import DesiredState.Proofs.Script.Sections

namespace DesiredState

open Reading Grammar

/-- Every mark that could open a block comment opens one that is closed. -/
def Text.ClosesComments (t : Text) : Prop :=
  ∀ back, ('<' :: '#' :: back) <:+ t → (afterFirst? ['#', '>'] back).isSome

theorem Text.closesComments_of_not_infix {t : Text} (h : ¬ ['<', '#'] <:+: t) :
    t.ClosesComments := by
  rintro back ⟨front, rfl⟩
  exact absurd ⟨front, back, by simp⟩ h

/-! ### The extent of a value -/

namespace Grammar

variable {source : Text} {below : Level} {before after taken : List Token}

theorem extent_commandOrBlock (head : Token) (arguments : Marked (List Argument))
    (read : Option (List Item × Extent)) (piped : Marked (List Term)) (extent : Extent) :
    (commandOrBlock head arguments read piped extent).statement.extent = extent := by
  unfold commandOrBlock
  simp only []
  split
  · split <;> rfl
  · rfl

/-- What is built with an extent is built with that of the tokens read. -/
theorem extent_of_yields (extent : α → Extent) {r : Reading (Extent → α)} {a : α}
    (hne : taken ≠ [])
    (h : spanning source r ⟨before, taken ++ after⟩ = .ok (a, ⟨taken.reverse ++ before, after⟩))
    (hr : Yields r fun build => ∀ e, extent (build e) = e) : extent a = .ofTokens source taken := by
  obtain ⟨build, hbuild, rfl⟩ := spanning_ok h
  rw [← extentBetween_eq source before after hne]
  exact hr _ _ _ hbuild _

theorem extent_wordStatement {item : Item} (hne : taken ≠ [])
    (h : wordStatement source below ⟨before, taken ++ after⟩ =
      .ok (item, ⟨taken.reverse ++ before, after⟩)) :
    item.statement.extent = .ofTokens source taken := by
  have hkeyed (hk : keyed source below ⟨before, taken ++ after⟩ =
      .ok (item, ⟨taken.reverse ++ before, after⟩)) :
      item.statement.extent = .ofTokens source taken :=
    extent_of_yields (fun item : Item => item.statement.extent) hne hk <|
      Yields.bind fun _ => Yields.bind fun _ => Yields.bind fun _ => Yields.pure fun _ => rfl
  have hcommand (hc : command source below ⟨before, taken ++ after⟩ =
      .ok (item, ⟨taken.reverse ++ before, after⟩)) :
      item.statement.extent = .ofTokens source taken :=
    extent_of_yields (fun item : Item => item.statement.extent) hne hc <|
      Yields.bind fun _ => Yields.bind fun _ => Yields.bind fun _ => Yields.bind fun _ =>
        Yields.pure fun _ => extent_commandOrBlock _ _ _ _ _
  rcases wordStatement_ok h with h | ⟨h, -⟩
  · exact hkeyed h
  · exact hcommand h

/-- The extent of a value is that of the tokens it was read from. -/
theorem extent_value {v : Marked Statement} (hne : taken ≠ [])
    (h : value source below ⟨before, taken ++ after⟩ =
      .ok (v, ⟨taken.reverse ++ before, after⟩)) :
    v.node.extent = .ofTokens source taken := by
  obtain ⟨isName, middle, hname, hrule⟩ := Nesting.bind_ok h
  obtain rfl : middle = ⟨before, taken ++ after⟩ := by cases hname; rfl
  split at hrule
  · obtain ⟨item, c', hword, hpure⟩ := Nesting.bind_ok hrule
    cases hpure
    exact extent_wordStatement hne hword
  · refine extent_of_yields (fun v : Marked Statement => v.node.extent) hne hrule ?_
    refine Yields.bind fun _ => Yields.bind fun _ => ?_
    split
    · exact Yields.bind fun _ => Yields.bind fun _ => Yields.pure fun _ => rfl
    · exact Yields.bind fun _ => Yields.pure fun _ => rfl

end Grammar

namespace Piece

/-! ### Cutting a stretch out

Between the first and the last token of a value there may be white space and comments.
They belong to its text, and so they are taken along.
-/

/-- A token that the grammar sees of pieces is one of the pieces, and splits them. -/
theorem tokens_eq_append_cons {start : Position} {pieces : List Piece} {front behind : List Token}
    {t : Token} (h : tokens start pieces = front ++ t :: behind) :
    ∃ first piece rest, pieces = first ++ piece :: rest ∧ piece.kind.isSignificant ∧
      front = tokens start first ∧ t = ⟨piece.kind, piece.text, stop start first⟩ ∧
      behind = tokens ((stop start first).advance piece.text) rest := by
  induction pieces generalizing start front with
  | nil => exact absurd h (by simp)
  | cons piece rest ih =>
    by_cases hk : piece.kind.isSignificant
    · rw [tokens_cons hk] at h
      cases front with
      | nil =>
        obtain ⟨rfl, rfl⟩ := List.cons.inj h
        exact ⟨[], piece, rest, rfl, hk, rfl, rfl, rfl⟩
      | cons u front =>
        obtain ⟨rfl, hrest⟩ := List.cons.inj h
        obtain ⟨first, other, others, rfl, hother, rfl, rfl, rfl⟩ := ih hrest
        refine ⟨piece :: first, other, others, rfl, hother, ?_, rfl, rfl⟩
        rw [tokens_cons hk]
    · have hskip := Bool.eq_false_iff.mpr hk
      rw [tokens_cons_skip hskip] at h
      obtain ⟨first, other, others, rfl, hother, rfl, rfl, rfl⟩ := ih h
      refine ⟨piece :: first, other, others, rfl, hother, ?_, rfl, rfl⟩
      rw [tokens_cons_skip hskip]

/-- Pieces from one token that the grammar sees to another. -/
structure IsClosed (pieces : List Piece) : Prop where
  ne_nil : pieces ≠ []
  first : ∀ piece ∈ pieces.head?, piece.kind.isSignificant
  last : ∀ piece ∈ pieces.getLast?, piece.kind.isSignificant

/-- The tokens that a rule has taken are those of a part of the pieces. -/
theorem exists_isClosed {start : Position} {pieces : List Piece} {front taken behind : List Token}
    (h : tokens start pieces = front ++ (taken ++ behind)) (hne : taken ≠ []) :
    ∃ first part rest, pieces = first ++ (part ++ rest) ∧ IsClosed part ∧
      taken = tokens (stop start first) part := by
  obtain ⟨t, more, rfl⟩ := List.exists_cons_of_ne_nil hne
  rw [List.cons_append] at h
  obtain ⟨first, piece, others, rfl, hpiece, rfl, rfl, hothers⟩ := tokens_eq_append_cons h
  rcases List.eq_nil_or_concat more with rfl | ⟨init, u, rfl⟩
  · refine ⟨first, [piece], others, rfl, ⟨List.cons_ne_nil _ _, ?_, ?_⟩, ?_⟩
    · rintro _ ⟨⟩
      exact hpiece
    · rintro _ ⟨⟩
      exact hpiece
    · rw [tokens_cons hpiece, tokens_nil]
  · rw [List.concat_eq_append, List.append_assoc] at hothers
    obtain ⟨inner, last, rest, rfl, hlast, hinit, rfl, -⟩ := tokens_eq_append_cons hothers.symm
    refine ⟨first, piece :: (inner ++ [last]), rest, by simp, ⟨List.cons_ne_nil _ _, ?_, ?_⟩, ?_⟩
    · rintro _ ⟨⟩
      exact hpiece
    · intro other hother
      rw [← List.cons_append, List.getLast?_concat] at hother
      obtain rfl := Option.some.inj hother
      exact hlast
    · rw [tokens_cons hpiece, tokens_append, tokens_cons hlast, tokens_nil, hinit,
        List.concat_eq_append]

theorem IsClosed.exists_cons {pieces : List Piece} (h : IsClosed pieces) :
    ∃ piece rest, pieces = piece :: rest ∧ piece.kind.isSignificant := by
  obtain ⟨piece, rest, rfl⟩ := List.exists_cons_of_ne_nil h.ne_nil
  exact ⟨piece, rest, rfl, h.first piece rfl⟩

theorem IsClosed.exists_concat {pieces : List Piece} (h : IsClosed pieces) :
    ∃ init piece, pieces = init ++ [piece] ∧ piece.kind.isSignificant := by
  obtain ⟨init, piece, rfl⟩ := (List.eq_nil_or_concat pieces).resolve_left h.ne_nil
  rw [List.concat_eq_append] at h ⊢
  exact ⟨init, piece, rfl, h.last piece List.getLast?_concat⟩

theorem IsClosed.tokens_ne_nil {pieces : List Piece} (h : IsClosed pieces) (start : Position) :
    tokens start pieces ≠ [] := by
  obtain ⟨piece, rest, rfl, hk⟩ := h.exists_cons
  rw [tokens_cons hk]
  exact List.cons_ne_nil _ _

/-- The last token of closed pieces ends where the pieces do. -/
theorem IsClosed.stop_of_getLast? {pieces : List Piece} (h : IsClosed pieces) {start : Position}
    {t : Token} (ht : (tokens start pieces).getLast? = some t) : t.stop = stop start pieces := by
  obtain ⟨init, piece, rfl, hk⟩ := h.exists_concat
  rw [tokens_append, tokens_cons hk, tokens_nil, List.getLast?_concat] at ht
  rw [← Option.some.inj ht, stop_append]
  rfl

/-- The extent of the tokens of closed pieces has the text of the pieces, whatever else there is
between the tokens. -/
theorem IsClosed.ofTokens {pieces : List Piece} (h : IsClosed pieces) {source : Text}
    {start : Position} (hstands : Stands source start pieces) :
    Extent.ofTokens source (tokens start pieces) = ⟨textOf pieces, start.toLocation⟩ := by
  have hhead : ∃ kind text, (tokens start pieces).head? = some ⟨kind, text, start⟩ := by
    obtain ⟨piece, rest, rfl, hk⟩ := h.exists_cons
    exact ⟨piece.kind, piece.text, by rw [tokens_cons hk]; rfl⟩
  obtain ⟨kind, text, hhead⟩ := hhead
  have hlast := List.getLast?_eq_some_getLast (h.tokens_ne_nil start)
  have hstop := h.stop_of_getLast? hlast
  obtain ⟨before, after, rfl, hstart⟩ := hstands
  have hslice := Text.slice_append before (textOf pieces) after
  rw [List.append_assoc] at hslice
  unfold Extent.ofTokens
  rw [hhead, hlast]
  simp only [hstop, stop_offset, hstart, hslice]
  rfl

/-! ### Putting a stretch elsewhere

What stands behind a text may change how its end is read.  A line end leaves it as it
is, unless a block comment is open, which would go on over the line.
-/

/-- Closed pieces that are read again wherever the text goes on with the end of a line or ends. -/
structure IsStretch (pieces : List Piece) : Prop extends IsClosed pieces where
  lexes : ∀ after : Text, after.Separates → Lexes pieces after

/-- What opens no block comment where it was read opens none elsewhere, if those in its own text
are closed there. -/
theorem blockComment_of_closesComments {front pieces behind : List Piece}
    (h : Lexes (front ++ (pieces ++ behind)) []) (hclosed : (textOf pieces).ClosesComments)
    {after : Text} (hafter : after.Separates) {first rest : List Piece} {piece : Piece}
    (hpieces : pieces = first ++ piece :: rest) (hk : piece.kind = .operator) :
    Pattern.blockComment (piece.text ++ (textOf rest ++ after)) = none := by
  subst hpieces
  have hnext := ((lexes_append _ _ _).mp
    (show Lexes ((front ++ first) ++ piece :: (rest ++ behind)) [] by simpa using h)).2.1
  rw [IsNext, hk, List.append_nil] at hnext
  obtain ⟨c, hc, hnone⟩ := Token.blockComment_of_operator hnext
  rw [hc]
  change Pattern.blockComment (c :: (textOf rest ++ after)) = none
  unfold Pattern.blockComment at hnone ⊢
  split
  · next back heq =>
    obtain ⟨rfl, hback⟩ := List.cons.inj heq
    cases hrest : textOf rest with
    | nil =>
      rw [hrest, List.nil_append] at hback
      exact absurd (congrArg List.head? hback) (hafter.head?_ne (by decide))
    | cons d more =>
      rw [hrest, List.cons_append] at hback
      obtain ⟨rfl, -⟩ := List.cons.inj hback
      obtain ⟨found, hfound⟩ := Option.isSome_iff_exists.mp
        (hclosed more ⟨textOf first, by simp [hc, hrest]⟩)
      have hsome := Token.afterFirst?_append (textOf behind) hfound
      rw [textOf_append, hrest] at hnone
      exact absurd (hsome.symm.trans hnone) (Option.some_ne_none _)
  · rfl

/-- **Closed pieces of a source are a stretch.** -/
theorem IsClosed.isStretch {front pieces behind : List Piece} (hpieces : IsClosed pieces)
    (h : Lexes (front ++ (pieces ++ behind)) []) (hclosed : (textOf pieces).ClosesComments) :
    IsStretch pieces where
  toIsClosed := hpieces
  lexes after hafter := by
    refine @lexes_moved pieces [] behind after ((lexes_append _ _ _).mp h).2
      ⟨hafter, fun first piece rest heq hk => ?_, fun _ piece hpiece => ?_⟩
    · rw [List.append_nil]
      exact blockComment_of_closesComments h hclosed hafter heq hk
    · have hlast := hpieces.last piece hpiece
      refine ⟨fun hk => ?_, fun hk => ?_⟩ <;>
        · rw [hk] at hlast
          exact absurd hlast Bool.false_ne_true

/-- The text of a stretch falls into the pieces of the stretch. -/
theorem IsStretch.ofText {pieces : List Piece} (h : IsStretch pieces) :
    ofText (textOf pieces) = pieces := ofText_textOf (h.lexes [] .nil)

/-! ### Reading a stretch again

A value depends on the tokens behind it only as far as these could go on with it.
Something that ends values stood there before, and something else that ends values
stands there now.
-/

/-- The tokens of pieces in one source and in another, where what comes after them ends values. -/
def restated {pieces : List Piece} (hpieces : IsClosed pieces) {start start' : Position}
    {after' : List Token} (left right : Text) (before before' after : List Token)
    (hends : Cursor.Ends (stop start' pieces).line after')
    (hbalanced : Nesting.Balanced (tokens start pieces)) : Parallel where
  left := ⟨left, before, after, .bare⟩
  right := ⟨right, before', after', .bare⟩
  pairs := seenPairs start start' pieces
  Same _ _ := True
  look_eq _ := rfl
  token_eq p hp := by
    simp only [Token.relabel, (twins hp).kind, (twins hp).text, Relabelling.bare]
  head_eq p hp := (twins hp).text.symm
  same_token _ _ := trivial
  same_span _ _ _ _ _ := trivial
  same_joined _ _ := trivial
  number_eq _ _ _ := rfl
  touches_eq front p q rest h :=
    (List.isChain_iff_forall_rel_of_append_cons_cons.mp Gapped.adjoins_of_twins h).1
  onLine_eq front p q rest h :=
    (List.isChain_iff_forall_rel_of_append_cons_cons.mp Gapped.adjoins_of_twins h).2
  stops last next hlast hnext := by
    have hstop : last.2.stop = stop start' pieces := by
      refine hpieces.stop_of_getLast? ?_
      rw [tokens, ← map_snd_seenPairs start, List.getLast?_map, hlast]
      rfl
    unfold Token.Stops
    rcases hends next hnext with hk | hk | ⟨hk, hline⟩
    · simp [hk, TokenKind.startsArgument, TokenKind.startsOperand, TokenKind.startsPrimary,
        TokenKind.startsAccess]
    · simp [hk, TokenKind.startsArgument, TokenKind.startsOperand, TokenKind.startsPrimary,
        TokenKind.startsAccess]
    · refine ⟨fun hon => ?_, fun _ => ?_, fun _ hliteral => ?_⟩
      · have hle := of_decide_eq_true hon
        rw [hstop] at hle
        omega
      · cases hkind : next.kind <;> rw [hkind] at hk <;>
          first | rfl | exact absurd hk Bool.false_ne_true
      · rw [hliteral] at hk
        exact absurd hk Bool.false_ne_true
  stops_kind next hnext := by
    rcases hends next hnext with hk | hk | ⟨hk, -⟩
    · rw [hk]
      decide
    · rw [hk]
      decide
    · refine ⟨?_, ?_, ?_, ?_⟩ <;> intro hkind <;> rw [hkind] at hk <;>
        exact absurd hk Bool.false_ne_true
  closes := ⟨[], by rw [map_fst_seenPairs]; exact hbalanced []⟩

/-- A rule that keeps to tokens that go together reads closed pieces again wherever they are put
before something that ends values. -/
theorem IsClosed.again {pieces : List Piece} (h : IsClosed pieces) {source source' : Text}
    {start start' : Position} {before before' after after' : List Token} {size : Nat}
    {r : Reading α} {r' : Reading β} {a : α} {P : α → β → Prop}
    (hends : Cursor.Ends (stop start' pieces).line after')
    (hbalanced : Nesting.Balanced (tokens start pieces))
    (hkeeps : (restated h source source' before before' after hends hbalanced).Keeps size 0 []
      (seenPairs start start' pieces) r r' fun a b _ => P a b)
    (hread : r ⟨before, tokens start pieces ++ after⟩ =
      .ok (a, ⟨(tokens start pieces).reverse ++ before, after⟩))
    (hsize : (tokens start' pieces).length ≤ size) :
    Passes r' before' (tokens start' pieces) after' (P a) := by
  let T := restated h source source' before before' after hends hbalanced
  have hfst : T.pairs.map Prod.fst = tokens start pieces := map_fst_seenPairs _ _ _
  have hsnd : T.pairs.map Prod.snd = tokens start' pieces := map_snd_seenPairs _ _ _
  have hleft : T.cursorLeft [] T.pairs = ⟨before, tokens start pieces ++ after⟩ := by
    simp only [Parallel.cursorLeft, hfst]
    rfl
  have hright : T.cursorRight [] T.pairs = ⟨before', tokens start' pieces ++ after'⟩ := by
    simp only [Parallel.cursorRight, hsnd]
    rfl
  rw [← hleft] at hread
  have hlength : T.pairs.length ≤ size := by
    rw [← List.length_map (f := Prod.snd), hsnd]
    exact hsize
  obtain ⟨done, rest, b, hdone, hc, hb, hsame⟩ := hkeeps rfl hlength a _ hread (Nat.le_refl _)
  have hrest : rest = [] := by
    have hafter := congrArg Cursor.rest hc
    exact List.map_eq_nil_iff.mp (List.append_left_eq_self.mp hafter.symm)
  rw [hrest, List.append_nil] at hdone
  refine ⟨b, ?_, hsame⟩
  change r' (T.cursorRight [] T.pairs) = .ok (b, T.cursorRight (done.reverse ++ []) rest) at hb
  rw [hright, hrest, ← hdone] at hb
  refine hb.trans ?_
  simp only [Parallel.cursorRight, List.append_nil, List.map_reverse]
  rw [show (seenPairs start start' pieces).map Prod.snd = tokens start' pieces from hsnd]
  rfl

/-- **A value is read again** wherever its stretch is put before something that ends values. -/
theorem IsStretch.value_again {pieces : List Piece} (h : IsStretch pieces)
    {source source' : Text} {start start' : Position} {n m : Nat}
    {before before' after after' : List Token} {v : Marked Statement}
    (hread : (level source n).value ⟨before, tokens start pieces ++ after⟩ =
      .ok (v, ⟨(tokens start pieces).reverse ++ before, after⟩))
    (hm : (tokens start' pieces).length ≤ m)
    (hends : Cursor.Ends (stop start' pieces).line after') :
    Passes (level source' m).value before' (tokens start' pieces) after' fun v' =>
      v'.node.relabel .bare = v.node.relabel .bare := by
  obtain ⟨taken, htaken, -, -, hbalanced⟩ := (Nesting.below_level source n).value _ _ _ hread
  obtain rfl : tokens start pieces = taken := List.append_cancel_right htaken
  have hagain := h.toIsClosed.again hends hbalanced
    ((Parallel.agrees_level (restated h.toIsClosed source source' before before' after hends
      hbalanced) n m).value [] _) hread hm
  exact hagain.mono fun _ hsame => hsame.node.symm

/-- **An operand is read again** wherever its pieces are put at the end of a text. -/
theorem IsClosed.operand_again {pieces : List Piece} (h : IsClosed pieces)
    {source source' : Text} {start start' : Position} {n m : Nat} {before before' : List Token}
    (hread : Passes (operand source (level source n)) before (tokens start pieces) []
      fun _ => True)
    (hm : (tokens start' pieces).length ≤ m + 1) :
    Passes (operand source' (level source' m)) before' (tokens start' pieces) [] fun _ => True := by
  obtain ⟨e, hread, -⟩ := hread
  obtain ⟨taken, htaken, -, -, hbalanced⟩ :=
    Nesting.reads_operand source (Nesting.below_level source n) _ _ _ hread
  obtain rfl : tokens start pieces = taken := List.append_cancel_right htaken
  have hends : Cursor.Ends (stop start' pieces).line [] := fun t ht => by cases ht
  have hagrees := Parallel.agrees_level (restated h source source' before before' [] hends
    hbalanced) n m
  exact h.again hends hbalanced ((Parallel.keeps_operand hagrees).mono fun _ _ _ _ => trivial)
    hread hm

end Piece

/-! ### Texts of values -/

/-- A text states a value: it is that of a stretch which was read as this value somewhere. -/
def Text.States (t : Text) (s : Statement) : Prop :=
  ∃ (pieces : List Piece) (source : Text) (start : Position) (n : Nat) (before after : List Token)
    (v : Marked Statement), Piece.IsStretch pieces ∧ Piece.textOf pieces = t ∧ v.node = s ∧
      (level source n).value ⟨before, Piece.tokens start pieces ++ after⟩ =
        .ok (v, ⟨(Piece.tokens start pieces).reverse ++ before, after⟩)

namespace Text.States

variable {t : Text} {s : Statement}

/-- A text that states a value ends before the end of a line. -/
theorem lexes (h : t.States s) {after : Text} (hafter : after.Separates) :
    Piece.Lexes (Piece.ofText t) after := by
  obtain ⟨pieces, _, _, _, _, _, _, hpieces, rfl, -⟩ := h
  rw [hpieces.ofText]
  exact hpieces.lexes after hafter

/-- **A text that states a value is read as this value**, and the value has this text. -/
theorem passes (h : t.States s) {source : Text} {start : Position} {m : Nat}
    {before after : List Token} (hstands : Piece.Stands source start (Piece.ofText t))
    (hm : (Piece.tokens start (Piece.ofText t)).length ≤ m)
    (hends : Cursor.Ends (Piece.stop start (Piece.ofText t)).line after) :
    Passes (level source m).value before (Piece.tokens start (Piece.ofText t)) after fun v =>
      v.node.extent.text = t ∧ v.node.relabel .bare = s.relabel .bare := by
  obtain ⟨pieces, _, _, _, _, _, v, hpieces, rfl, rfl, hread⟩ := h
  rw [hpieces.ofText] at hstands hm hends ⊢
  have hagain : Passes (level source m).value before (Piece.tokens start pieces) after fun v' =>
      v'.node.relabel .bare = v.node.relabel .bare := hpieces.value_again hread hm hends
  obtain ⟨v', hv', hsame⟩ := hagain
  refine ⟨v', hv', ?_, hsame⟩
  have hne := hpieces.tokens_ne_nil start
  cases m with
  | zero => exact absurd (List.eq_nil_of_length_eq_zero (Nat.le_zero.mp hm)) hne
  | succ m => rw [extent_value hne hv', hpieces.ofTokens hstands]

end Text.States

end DesiredState

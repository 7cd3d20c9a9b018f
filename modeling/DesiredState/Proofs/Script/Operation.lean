/-
Operations of arithmetic.

An operation is two operands with a sign of arithmetic between them.  As the value of a key it
is read as one expression, which is kept as text, with any number of spaces before the sign and
behind it.  Its operands are read in it as they are read alone, and the sign is an operator.

The dash is the exception.  It belongs to a number right behind it and to a name right before
it, both of which are tried before the operator, and then there are two statements.
-/
import DesiredState.Proofs.Layout.Document
import DesiredState.Proofs.Script.Form.Operand
import DesiredState.Proofs.Script.Stretch
import DesiredState.Proofs.Token.Signs

namespace DesiredState

open Reading Grammar Piece

/-- A text is an operand by itself, with no comment in it and no blanks around it. -/
structure Text.IsOperand (t : Text) : Prop where
  unknowns : Token.unknowns (Token.scan t) = []
  comments : Token.comments (Token.scan t) = []
  first : ∀ token ∈ (Token.scan t).head?, token.kind ≠ .blank
  last : ∀ token ∈ (Token.scan t).getLast?, token.kind ≠ .blank
  /-- The rule for operands reads all of it. -/
  reads : (operand t (level t (Token.significant (Token.scan t)).length)
    ⟨[], Token.significant (Token.scan t)⟩).toOption.any fun read => read.2.rest.isEmpty

instance (t : Text) : Decidable t.IsOperand :=
  decidable_of_iff (_ ∧ _ ∧ _ ∧ _ ∧ _)
    ⟨fun h => ⟨h.1, h.2.1, h.2.2.1, h.2.2.2.1, h.2.2.2.2⟩,
      fun h => ⟨h.unknowns, h.comments, h.first, h.last, h.reads⟩⟩

/-- Two operands with a sign between them, so many spaces before it and so many behind it. -/
def Text.operation (a : Text) (m : Nat) (o : Char) (n : Nat) (b : Text) : Text :=
  a ++ (Text.spaces m ++ o :: (Text.spaces n ++ b))

/-- If the sign is a dash, neither does a name end right before it nor a number start right behind
it. -/
structure Text.SignApart (a : Text) (m : Nat) (o : Char) (n : Nat) (b : Text) : Prop where
  before : o = '-' → m = 0 → ((Token.scan a).getLast?.any fun last => last.kind.isName) = false
  behind : o = '-' → n = 0 → b.head?.any Char.isDigit = false

instance (a b : Text) (m n : Nat) (o : Char) : Decidable (Text.SignApart a m o n b) :=
  decidable_of_iff (_ ∧ _) ⟨fun h => ⟨h.1, h.2⟩, fun h => ⟨h.before, h.behind⟩⟩

/-- An expression that is given to a key is one value, and it is kept as text. -/
def Script.KeepsValue (expression : Text) : Prop :=
  ∃ tokens, Script.parse ("V = ".toList ++ expression) =
    .ok ⟨[.assignment ⟨"V = ".toList ++ expression, ⟨1, 1⟩⟩
      (.string ⟨"V".toList, ⟨1, 1⟩⟩ "V".toList .bare)
      (.pipeline ⟨expression, ⟨1, 5⟩⟩ [.expression (.unrecognized ⟨expression, ⟨1, 5⟩⟩)])], tokens⟩

/-! ### Operands in pieces

An operand is found at the end of a text and put before a sign.  What it may not do
there is go on with the sign, and this depends on its last token alone.
-/

/-- The rule for operands reads just the tokens of an operand. -/
theorem Text.IsOperand.passes {t : Text} (h : t.IsOperand) :
    Passes (operand t (level t (Token.significant (Token.scan t)).length)) []
      (Token.significant (Token.scan t)) [] fun _ => True := by
  have hreads := h.reads
  cases hread : operand t (level t (Token.significant (Token.scan t)).length)
      ⟨[], Token.significant (Token.scan t)⟩ with
  | error _ =>
    rw [hread] at hreads
    cases hreads
  | ok read =>
    obtain ⟨e, consumed, rest⟩ := read
    rw [hread] at hreads
    obtain rfl : rest = [] := List.isEmpty_iff.mp hreads
    obtain ⟨taken, htaken, hconsumed, -⟩ :=
      Nesting.reads_operand _ (Nesting.below_level _ _) _ _ _ hread
    rw [List.append_nil] at htaken hconsumed
    obtain rfl : Token.significant (Token.scan t) = taken := htaken
    obtain rfl : consumed = (Token.significant (Token.scan t)).reverse := hconsumed
    exact ⟨e, by rw [List.append_nil, List.append_nil, hread], trivial⟩

namespace Piece

/-- Pieces are an operand by themselves. -/
structure MakeOperand (pieces : List Piece) : Prop extends IsClosed pieces where
  lexes : Lexes pieces []
  comments : ∀ piece ∈ pieces, piece.kind.isComment = false
  passes : Passes (operand (textOf pieces) (level (textOf pieces) (tokens .start pieces).length)) []
    (tokens .start pieces) [] fun _ => True

variable {pieces : List Piece} {o : Char} {more : Text}

/-- The pieces of a text that is an operand. -/
theorem exists_makeOperand {t : Text} (h : t.IsOperand) :
    ∃ pieces, textOf pieces = t ∧ Token.scan t = place .start pieces ∧ MakeOperand pieces := by
  obtain ⟨pieces, rfl, hlexes, hscan⟩ := Token.exists_pieces h.unknowns
  have hpieces : pieces = (Token.scan (textOf pieces)).map fun t => ⟨t.kind, t.text⟩ := by
    rw [hscan, ofText_place]
  have htokens : Token.significant (Token.scan (textOf pieces)) = tokens .start pieces := by
    rw [hscan]
    rfl
  have hkinds : ∀ piece ∈ pieces, piece.kind ≠ .unknown ∧ piece.kind.isComment = false := by
    intro piece hpiece
    rw [hpieces] at hpiece
    obtain ⟨t, ht, rfl⟩ := List.mem_map.mp hpiece
    have hunknown := List.filter_eq_nil_iff.mp h.unknowns t ht
    have hcomment := List.filter_eq_nil_iff.mp h.comments t ht
    exact ⟨by simpa using hunknown, by simpa using hcomment⟩
  have hsignificant : ∀ piece ∈ pieces, piece.kind ≠ .blank → piece.kind.isSignificant :=
    fun piece hpiece hblank =>
      TokenKind.isSignificant_of_ne hblank (hkinds piece hpiece).2 (hkinds piece hpiece).1
  refine ⟨pieces, rfl, hscan, ⟨⟨?_, ?_, ?_⟩, hlexes, fun piece h => (hkinds piece h).2, ?_⟩⟩
  · rintro rfl
    cases h.reads
  · intro piece hpiece
    refine hsignificant piece (List.mem_of_head? hpiece) ?_
    rw [hpieces, List.head?_map] at hpiece
    obtain ⟨t, ht, rfl⟩ := Option.map_eq_some_iff.mp hpiece
    exact h.first t ht
  · intro piece hpiece
    refine hsignificant piece (List.mem_of_getLast? hpiece) ?_
    rw [hpieces, List.getLast?_map] at hpiece
    obtain ⟨t, ht, rfl⟩ := Option.map_eq_some_iff.mp hpiece
    exact h.last t ht
  · exact htokens ▸ h.passes

/-- What the last token of an operand is. -/
theorem MakeOperand.endsOperand (h : MakeOperand pieces) :
    Cursor.EndsOperand ⟨(tokens .start pieces).reverse, []⟩ := by
  obtain ⟨e, hread, -⟩ := h.passes
  rw [List.append_nil, List.append_nil] at hread
  have hfollows := follows_operand (textOf pieces)
    (followsBelow_level (textOf pieces) (tokens .start pieces).length)
    (c := ⟨[], tokens .start pieces⟩) (Nat.le_succ _)
  exact endsOperand_of_operand (hfollows.passed hread)

/-- An operand starts with what an operand can start with. -/
theorem MakeOperand.startsOperand (h : MakeOperand pieces) :
    ∃ piece rest, pieces = piece :: rest ∧ piece.kind.startsOperand := by
  obtain ⟨piece, rest, rfl, hk⟩ := h.exists_cons
  obtain ⟨e, hread, -⟩ := h.passes
  rw [List.append_nil] at hread
  have hfollows := follows_operand (textOf (piece :: rest))
    (followsBelow_level (textOf (piece :: rest)) (tokens .start (piece :: rest)).length)
    (c := ⟨[], tokens .start (piece :: rest)⟩) (Nat.le_succ _)
  exact ⟨piece, rest, rfl, startsOperand_of_operand (hfollows.passed hread) (tokens_cons hk _ _)⟩

/-- No letter starts an operand. -/
theorem MakeOperand.head?_not_word (h : MakeOperand pieces) :
    ∀ c ∈ (textOf pieces).head?, Pattern.isWordStart c = false := by
  obtain ⟨piece, rest, rfl, hk⟩ := h.startsOperand
  intro c hc
  have hnext := h.lexes.1
  obtain ⟨d, text, hd⟩ := List.exists_cons_of_ne_nil hnext.text_ne_nil
  rw [textOf_cons, hd, List.cons_append, List.head?_cons, Option.mem_some_iff] at hc
  rw [IsNext, hd, List.cons_append] at hnext
  exact hc ▸ TokenKind.isWordStart_of_startsOperand hk (Token.recognise_of_next? hnext).1

/-- What an operand ends with can have a sign behind it, a dash only if it is no name. -/
theorem MakeOperand.endBefore (h : MakeOperand pieces) (ho : Pattern.isArithmetic o)
    (hdash : o = '-' → ∀ last ∈ pieces.getLast?, last.kind.isName = false) :
    EndBefore pieces o := by
  obtain ⟨init, last, rfl, hlast⟩ := h.exists_concat
  have hends := h.endsOperand
  rw [tokens_append, tokens_cons hlast, tokens_nil, List.reverse_append] at hends
  obtain ⟨t, before, hconsumed, hparameter, hmark⟩ := hends
  obtain ⟨rfl, rfl⟩ := List.cons.inj hconsumed
  simp only at hparameter hmark
  refine ⟨ho, h.comments, ?_, ?_, ?_⟩
  · intro piece hpiece hblank
    rw [List.getLast?_concat] at hpiece
    cases hpiece
    rw [hblank] at hlast
    cases hlast
  · intro hsign piece hpiece hk
    have hname := hdash hsign piece hpiece
    rw [List.getLast?_concat] at hpiece
    cases hpiece
    rcases hk with hk | hk
    · rw [hname] at hk
      cases hk
    · exact hparameter hk
  · intro front first name heq hfirst hname
    rw [List.append_cons front] at heq
    obtain ⟨rfl, hlastName⟩ := List.append_inj' heq rfl
    obtain rfl := List.singleton_inj.mp hlastName
    obtain ⟨mark, hmem, hk⟩ := hmark hname
    rw [tokens_append, tokens_cons (by rw [hfirst]; rfl), tokens_nil, List.reverse_append] at hmem
    cases hmem
    simp only [hfirst] at hk
    rcases hk with hk | hk <;> cases hk

/-- **An operand is read again before a sign**, with spaces between them or without. -/
theorem MakeOperand.lexes_before (h : MakeOperand pieces) (n : Nat) (ho : Pattern.isArithmetic o)
    (hdash : o = '-' → n = 0 → ∀ last ∈ pieces.getLast?, last.kind.isName = false) :
    Lexes pieces (Text.spaces n ++ o :: more) := by
  cases n with
  | zero => exact lexes_before_sign h.lexes (h.endBefore ho fun hsign => hdash hsign rfl)
  | succ n =>
    refine lexes_before_separator h.lexes h.comments (fun last hlast hblank => ?_) (.space _)
    have hsignificant := h.last last hlast
    rw [hblank] at hsignificant
    cases hsignificant

end Piece

/-! ### Reading an operation

Whether a sign stands apart is asked of the two texts beside it.  If it does not, it
belongs to one of them, and the operation is read as something else.
-/

namespace Grammar

open Cursor

variable {source : Text} {below : Level} {consumed rest first second : List Token} {sign : Token}

/-- Two operands with an operator between them, on the line on which the first one ends, are kept
as text. -/
theorem passes_operator (hsign : sign.kind = .operator) (hne : first ≠ [])
    (hline : ∀ last ∈ first.getLast?, sign.onLineOf last)
    (hfirst : Passes (operand source below) consumed first (sign :: second ++ rest) fun _ => True)
    (hsecond : Passes (operand source below) (sign :: (first.reverse ++ consumed)) second rest
      fun _ => True)
    (hrest : Meets rest endsElement) :
    Passes (binary source below) consumed (first ++ sign :: second) rest
      (· = ⟨.unrecognized (.ofTokens source (first ++ sign :: second)), []⟩) := by
  refine Passes.spanning (by simp) (Passes.bind hfirst fun _ _ => ?_)
  refine Passes.map (P := (· ≠ [])) (Passes.readWhile fun n hn => ?_) fun more hmore => ?_
  · obtain ⟨n, rfl⟩ : ∃ k, n = k + 1 := ⟨n - 1, by rw [List.length_cons] at hn; omega⟩
    have hboth : Passes (operatorAndOperand source below) (first.reverse ++ consumed)
        (sign :: second) ([] ++ rest) fun _ => True :=
      Passes.bind (s := [sign]) (Passes.token sign) fun _ _ => Passes.map hsecond fun _ h => h
    rw [← List.append_nil (sign :: second)]
    refine Passes.whileAtMost_step ?_ hboth fun _ _ => ?_
    · obtain ⟨init, last, rfl⟩ := (List.eq_nil_or_concat first).resolve_left hne
      rw [List.concat_eq_append] at hline ⊢
      simp [Cursor.onLine, Cursor.nextIs, hsign, hline last List.getLast?_concat]
    · refine Passes.whileAtMost_stop n ?_ (List.cons_ne_nil _ _)
      rw [hrest.nextIs, Bool.and_false]
      intro kind hk
      cases kind <;> first | rfl | exact absurd hk (by decide)
  · exact if_neg (by rwa [List.isEmpty_iff])

/-- A key with an expression is a script. -/
theorem script_keyed {key equals t : Token} {tokens : List Token} {e : Marked Expression}
    (hkey : key.kind = .bareword) (he : equals.kind = .equals) (ht : t.kind.isName = false)
    (h : Passes (binary source (level source (tokens.length + 1))) [equals, key] (t :: tokens) []
      (· = e)) :
    script source (key :: equals :: t :: tokens) =
      .ok [keyedItem source key equals (t :: tokens)
        ⟨.pipeline (.ofTokens source (t :: tokens)) [.expression e.node], e.marks⟩] := by
  have hvalue : Passes (level source (tokens.length + 2)).value [equals, key] (t :: tokens) []
      fun v => ∃ f, f = e ∧ v =
        ⟨.pipeline (.ofTokens source (t :: tokens)) [.expression f.node], f.marks⟩ :=
    passes_value_expression ht
      (passes_expressionOrAssignment (passes_expression h .nil) .nil)
  have hone : PassesItems (level source (tokens.length + 3)) (· == .semicolon) []
      (key :: equals :: t :: tokens) [] _ :=
    PassesItems.one (by rw [hkey]; rfl) (by rw [hkey]; rfl)
      (passes_statement_keyed (by rw [hkey]; rfl) he hvalue) .nil
  obtain ⟨read, hread, _, rfl, _, ⟨_, rfl, rfl⟩, rfl⟩ := @script_of_passesItems source
    (key :: equals :: t :: tokens) _ hone
  exact hread

end Grammar

namespace Piece

/-- The pieces of an operation. -/
def operation (ps : List Piece) (m : Nat) (o : Char) (n : Nat) (qs : List Piece) : List Piece :=
  ps ++ Layout.gap m :: ⟨.operator, [o]⟩ :: Layout.gap n :: qs

variable {ps qs : List Piece} {m n : Nat} {o : Char}

theorem textOf_operation :
    textOf (operation ps m o n qs) = (textOf ps).operation m o n (textOf qs) := by
  simp [operation, Text.operation, Layout.gap]

theorem isClosed_operation (hps : IsClosed ps) (hqs : IsClosed qs) :
    IsClosed (operation ps m o n qs) where
  ne_nil := by simp [operation]
  first piece hpiece := by
    obtain ⟨first, rest, rfl, hk⟩ := hps.exists_cons
    cases hpiece
    exact hk
  last piece hpiece := by
    obtain ⟨init, last, rfl, hk⟩ := hqs.exists_concat
    rw [operation, ← List.cons_append, ← List.cons_append, ← List.cons_append, ← List.append_assoc,
      List.getLast?_concat] at hpiece
    cases hpiece
    exact hk

theorem spells_operation (hps : MakeOperand ps) (hqs : MakeOperand qs)
    (ho : Pattern.isArithmetic o)
    (hbefore : o = '-' → m = 0 → ∀ last ∈ ps.getLast?, last.kind.isName = false)
    (hbehind : o = '-' → n = 0 → ∀ c ∈ (textOf qs).head?, c.isDigit = false) :
    Spells (operation ps m o n qs) [] := by
  have hsign : IsNext ⟨.operator, [o]⟩ (Text.spaces n ++ textOf qs) := by
    refine Token.next?_arithmetic ho ?_ fun hdash => ?_
    · cases n with
      | zero => exact hqs.head?_not_word
      | succ n =>
        rintro _ ⟨⟩
        rfl
    · cases n with
      | zero => exact hbehind hdash rfl
      | succ n =>
        rintro _ ⟨⟩
        rfl
  refine (spells_append _ _ _).mpr ⟨Lexes.spells ?_, .inl (Layout.isGap_gap m), .inr ?_,
    .inl (Layout.isGap_gap n), hqs.lexes.spells⟩
  · rw [List.append_nil]
    exact hps.lexes_before m ho hbefore
  · rw [List.append_nil]
    exact hsign

/-- The tokens of an operation: the sign is on the line on which the first operand ends. -/
theorem exists_tokens_operation (start : Position) :
    ∃ (sign : Token) (place : Position), sign.kind = .operator ∧
      sign.start.line = (stop start ps).line ∧
      tokens start (operation ps m o n qs) = tokens start ps ++ sign :: tokens place qs := by
  let place := (stop start ps).advance (Text.spaces m)
  refine ⟨⟨.operator, [o], place⟩, (place.advance [o]).advance (Text.spaces n), rfl, ?_, ?_⟩
  · refine Gapped.advance_gap _ fun c hc => .inl ?_
    exact List.eq_of_mem_replicate hc
  · rw [operation, tokens_append, tokens_cons_skip rfl, tokens_cons rfl, tokens_cons_skip rfl]
    rfl

/-- The rule for expressions without commas reads an operation and keeps it as text. -/
theorem passes_operation (hps : MakeOperand ps) (hqs : MakeOperand qs) {source : Text}
    {start : Position} {consumed : List Token} {size : Nat}
    (hsize : (tokens start (operation ps m o n qs)).length ≤ size + 1) :
    Passes (binary source (level source size)) consumed (tokens start (operation ps m o n qs)) []
      (· = ⟨.unrecognized (.ofTokens source (tokens start (operation ps m o n qs))), []⟩) := by
  obtain ⟨sign, place, hsign, hline, htokens⟩ := @exists_tokens_operation ps qs m n o start
  rw [htokens] at hsize ⊢
  have hfirst : Passes (operand source (level source size)) consumed (tokens start ps)
      (sign :: tokens place qs) fun _ => True := by
    rw [List.length_append] at hsize
    refine passes_operand_before (hps.operand_again hps.passes (by omega)) ?_
      (.cons (by rw [hsign]; rfl))
    rw [List.length_append]
    exact hsize
  have hsecond : Passes (operand source (level source size))
      (sign :: ((tokens start ps).reverse ++ consumed)) (tokens place qs) [] fun _ => True := by
    rw [List.length_append, List.length_cons] at hsize
    exact hqs.operand_again hqs.passes (by omega)
  refine passes_operator hsign (hps.tokens_ne_nil start) (fun last hlast => ?_)
    (by rwa [List.append_nil]) hsecond .nil
  rw [Token.onLineOf, decide_eq_true_iff, hline, hps.stop_of_getLast? hlast]

end Piece

namespace Script

/-- What stands before the value that a key is given. -/
def keyPieces : List Piece := [Layout.word "V", Layout.gap 1, Layout.equals, Layout.gap 1]

theorem spells_keyPieces (after : Text) : Spells keyPieces after := by
  have hkey : Token.IsWord .bareword "V" := ⟨rfl, rfl⟩
  exact ⟨.inr (Layout.isNext_word hkey (Text.Delimits.space _)), .inl (Layout.isGap_gap 1),
    .inr (Token.next?_equals _), .inl (Layout.isGap_gap 1), trivial⟩

/-- A key with pieces that are read as one expression is a script of one assignment. -/
theorem parse_keyPieces {pieces : List Piece} (hclosed : IsClosed pieces)
    (hspells : Spells pieces []) (hname : ∀ piece ∈ pieces.head?, piece.kind.isName = false)
    {e : Extent → Expression}
    (hread : ∀ (source : Text) (start : Position) (consumed : List Token) (size : Nat),
      (Piece.tokens start pieces).length ≤ size + 1 →
      Passes (binary source (level source size)) consumed (Piece.tokens start pieces) []
        (· = ⟨e (.ofTokens source (Piece.tokens start pieces)), []⟩)) :
    ∃ stream, parse ("V = ".toList ++ textOf pieces) =
      .ok ⟨[.assignment ⟨"V = ".toList ++ textOf pieces, ⟨1, 1⟩⟩
        (.string ⟨"V".toList, ⟨1, 1⟩⟩ "V".toList .bare)
        (.pipeline ⟨textOf pieces, ⟨1, 5⟩⟩ [.expression (e ⟨textOf pieces, ⟨1, 5⟩⟩)])],
        stream⟩ := by
  let source := textOf (keyPieces ++ pieces)
  let start : Position := ⟨⟨1, 5⟩, 4⟩
  let key : Token := ⟨.bareword, ['V'], .start⟩
  let equals : Token := ⟨.equals, ['='], ⟨⟨1, 3⟩, 2⟩⟩
  have hall : IsClosed (keyPieces ++ pieces) := by
    refine ⟨by simp [keyPieces], ?_, fun piece hpiece => hclosed.last piece ?_⟩
    · rintro _ ⟨⟩
      rfl
    · rwa [List.getLast?_append_of_ne_nil _ hclosed.ne_nil] at hpiece
  have htokens : Piece.tokens .start (keyPieces ++ pieces) =
      key :: equals :: Piece.tokens start pieces := by
    rw [tokens_append]
    rfl
  have hstands : Stands source .start (keyPieces ++ pieces) := ⟨[], [], by simp [source], rfl⟩
  have hwhole := hall.ofTokens hstands
  have hvalue : Extent.ofTokens source (Piece.tokens start pieces) = ⟨textOf pieces, ⟨1, 5⟩⟩ :=
    hclosed.ofTokens hstands.right
  have hscript : script source (Piece.tokens .start (keyPieces ++ pieces)) =
      .ok [keyedItem source key equals (Piece.tokens start pieces)
        ⟨.pipeline ⟨textOf pieces, ⟨1, 5⟩⟩ [.expression (e ⟨textOf pieces, ⟨1, 5⟩⟩)], []⟩] := by
    obtain ⟨first, rest, rfl, hk⟩ := hclosed.exists_cons
    have hone := hread source start [equals, key]
      ((Piece.tokens (start.advance first.text) rest).length + 1)
    rw [htokens, ← hvalue]
    rw [tokens_cons hk] at hone ⊢
    exact script_keyed rfl rfl (hname first rfl) (hone (Nat.le_succ _))
  have hparse := Layout.parse_textOf
    ((spells_append _ _ _).mpr ⟨spells_keyPieces _, hspells⟩) hscript
  rw [htokens] at hwhole
  simp only [List.map_cons, List.map_nil, keyedItem, hwhole] at hparse
  exact ⟨_, hparse⟩

/-- **An operation is one value**, which is kept as text, unless its sign is a dash that goes with
the name before it or with the number behind it. -/
theorem parse_operation {a b : Text} {o : Char} {m n : Nat} (ha : a.IsOperand) (hb : b.IsOperand)
    (ho : Pattern.isArithmetic o) (hapart : Text.SignApart a m o n b) :
    KeepsValue (a.operation m o n b) := by
  obtain ⟨ps, rfl, hscan, hps⟩ := exists_makeOperand ha
  obtain ⟨qs, rfl, -, hqs⟩ := exists_makeOperand hb
  have hbefore : o = '-' → m = 0 → ∀ last ∈ ps.getLast?, last.kind.isName = false := by
    intro hdash hm last hlast
    rw [← ofText_place .start ps, List.getLast?_map, ← hscan] at hlast
    obtain ⟨t, ht, rfl⟩ := Option.map_eq_some_iff.mp hlast
    have hname := hapart.before hdash hm
    rwa [ht, Option.any_some] at hname
  have hbehind : o = '-' → n = 0 → ∀ c ∈ (textOf qs).head?, c.isDigit = false := by
    intro hdash hn c hc
    have hdigit := hapart.behind hdash hn
    rwa [hc, Option.any_some] at hdigit
  have hspells : Spells (operation ps m o n qs) [] :=
    spells_operation hps hqs ho hbefore hbehind
  have hname : ∀ piece ∈ (operation ps m o n qs).head?, piece.kind.isName = false := by
    obtain ⟨first, rest, rfl, hstarts⟩ := hps.startsOperand
    rintro _ ⟨⟩
    cases hk : first.kind <;> rw [hk] at hstarts <;> first | rfl | cases hstarts
  rw [KeepsValue, ← textOf_operation]
  exact parse_keyPieces (e := .unrecognized)
    (isClosed_operation hps.toIsClosed hqs.toIsClosed) hspells hname
    fun _ _ _ _ hsize => passes_operation hps hqs hsize

theorem parse_operation_member :
    Text.IsOperand "$x.Count" ∧ Text.IsOperand "(1)" ∧ Pattern.isArithmetic '-' ∧
      Text.SignApart "$x.Count" 1 '-' 0 "(1)" ∧
      KeepsValue (Text.operation "$x.Count" 1 '-' 0 "(1)") := by
  have ha : Text.IsOperand "$x.Count" := by decide +kernel
  have hb : Text.IsOperand "(1)" := by decide +kernel
  have hapart : Text.SignApart "$x.Count" 1 '-' 0 "(1)" := by decide +kernel
  exact ⟨ha, hb, rfl, hapart, parse_operation ha hb rfl hapart⟩

/-- A number right behind a dash is read with its sign, as a statement of its own. -/
theorem parse_operation_signed :
    ¬ ∀ (a b : Text) (o : Char) (m n : Nat), a.IsOperand → b.IsOperand →
      Pattern.isArithmetic o → KeepsValue (a.operation m o n b) := by
  intro h
  have hfirst : Text.IsOperand "1" := by decide +kernel
  have hsecond : Text.IsOperand "2" := by decide +kernel
  obtain ⟨tokens, hone⟩ := h "1" "2" '-' 1 0 hfirst hsecond rfl
  have htwo : (parse ("V = ".toList ++ Text.operation "1" 1 '-' 0 "2")).toOption.map
      (·.statements.length) = some 2 := by decide +kernel
  rw [hone] at htwo
  cases htwo

end Script

end DesiredState

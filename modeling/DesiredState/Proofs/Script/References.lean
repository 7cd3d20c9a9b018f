/-
References as names of blocks.

A variable, alone or with one member, is an operand whose text is its own.  The opening
brace on the next line touches nothing, so it is no access, and the operand is the only
argument of the word before it.

Two colons that touch a variable are an access already, and it goes on with a name.
Where none follows nothing is read: the rule for accesses fails, and with it every rule
that has come to it, since no rule tries another way.  `Fails` says this of a reading and
goes through binds, loops and extents as `Passes` does.
-/
import DesiredState.Proofs.Script.Names
import DesiredState.Proofs.Script.Stretch
import DesiredState.Proofs.Token.References

namespace DesiredState

open Piece Grammar Reading Cursor

namespace Grammar

/-! ### What is accessed on a variable -/

/-- What is built of a value with something accessed on it goes by its text. -/
theorem instanceName_accessed (base : Expression) (first : Access) (more : List Access)
    (extent : Extent) :
    Building.instanceName (accessed base (first :: more) extent) = extent.text := by
  unfold accessed
  split
  · next h => cases h
  · rfl
  · rfl

variable {source : Text} {below : Level} {consumed rest : List Token}

/-- A mark and a name. -/
theorem passes_access {mark name : Token} (hm : mark.kind = .dot ∨ mark.kind = .doubleColon)
    (hn : name.kind.isName) : Passes access consumed [mark, name] rest fun _ => True := by
  unfold access
  refine Passes.get ?_
  have hkind : Cursor.nextKind? ⟨consumed, [mark, name] ++ rest⟩ = some mark.kind := rfl
  rw [hkind]
  rcases hm with hm | hm <;> rw [hm]
  all_goals
    refine Passes.bind (s := [mark]) (Passes.token mark) fun _ _ => ?_
    exact Passes.map (Passes.tokenOf _ hn) fun _ _ => trivial

/-- A mark that touches what stands before it is an access. -/
theorem accessFollows_mark {last mark : Token} (ht : mark.touches last)
    (hm : mark.kind = .dot ∨ mark.kind = .doubleColon) :
    Cursor.accessFollows ⟨last :: consumed, mark :: rest⟩ = true := by
  unfold Cursor.accessFollows Cursor.touching Cursor.nextIs
  rcases hm with hm | hm <;> simp [ht, hm, TokenKind.startsAccess]

/-- What does not touch the last token is no access. -/
theorem accessFollows_apart {last : Token}
    (h : ∀ t ∈ rest.head?, t.start.offset ≠ last.stop.offset) :
    Cursor.accessFollows ⟨last :: consumed, rest⟩ = false := by
  cases rest with
  | nil => rfl
  | cons t rest =>
    have ht : t.touches last = false := beq_eq_false_iff_ne.mpr (h t rfl)
    unfold Cursor.accessFollows Cursor.touching
    simp [ht]

/-- A variable and a name that is accessed on it are an operand that goes by its text. -/
theorem passes_accessOperand {base mark name : Token} (hb : base.kind = .variableName)
    (hm : mark.kind = .dot ∨ mark.kind = .doubleColon) (hn : name.kind.isName)
    (ht : mark.touches base) (hrest : ∀ t ∈ rest.head?, t.start.offset ≠ name.stop.offset) :
    Passes (operand source below) consumed [base, mark, name] rest fun e => e.marks = [] ∧
      Building.instanceName e.node = (Extent.ofTokens source [base, mark, name]).text := by
  have hatom : base.kind.isAtom := by
    rw [hb]
    rfl
  have hloop : Passes accesses ([base].reverse ++ consumed) [mark, name] rest
      fun followed => ∃ first, followed = [first] := by
    refine Passes.readWhile fun n hlen => ?_
    obtain ⟨n, rfl⟩ : ∃ k, n = k + 1 := ⟨n - 1, by simp at hlen; omega⟩
    refine Passes.whileAtMost_step (s := [mark, name]) (t := []) (accessFollows_mark ht hm)
      (passes_access hm hn) fun first _ => ?_
    exact Passes.whileAtMost_stop n (accessFollows_apart hrest) ⟨first, rfl⟩
  refine (passes_accessedOperand (startsPrimary_of_isAtom hatom) (passes_atom hatom) hloop).mono ?_
  rintro _ ⟨_, _, rfl, ⟨first, rfl⟩, rfl⟩
  exact ⟨rfl, instanceName_accessed _ first [] _⟩

/-- An operand between a word and braces is the name of a block without entries. -/
theorem script_of_operand {head t opener closer : Token} {more : List Token} {e : Marked Expression}
    (hh : head.kind = .bareword) (ht : t.kind.isAtom) (hline : t.onLineOf head)
    (ho : opener.kind = .braceOpen) (hc : closer.kind = .braceClose) (hmarks : e.marks = [])
    (h : Passes (operand source (level source (more.length + 3))) [head] (t :: more)
      [opener, closer] (· = e)) :
    ∃ read b, script source (head :: (t :: more ++ [opener, closer])) = .ok read ∧
      read.map (·.statement) = [.block b] ∧ b.keyword = head.text ∧
      b.instanceName = some e.node ∧ b.body.entries = [] := by
  have harguments := passes_operandArgument ht hline ho h
  rw [hmarks] at harguments
  have hbody : PassesItems (level source (more.length + 3)) (· == .semicolon)
      (opener :: ((t :: more).reverse ++ [head])) [] [closer] (· = []) :=
    PassesItems.stop (Meets.cons (by rw [hc]; rfl)) rfl
  have hsecond : t.kind ≠ .equals := by
    intro he
    rw [he] at ht
    cases ht
  have hentries : ∀ read : List Item, read = [] → ∃ entries marks,
      entriesOf read = (some entries, marks) ∧ entries = [] := by
    rintro _ rfl
    exact ⟨[], [], rfl, rfl⟩
  have hlength : (head :: (t :: more ++ opener :: ([] ++ [closer]))).length = more.length + 4 := by
    simp
  have hitems : PassesItems (level source (head :: (t :: more ++ opener :: ([] ++ [closer]))).length)
      (· == .semicolon) [] (head :: (t :: more ++ opener :: ([] ++ [closer]))) [] fun read =>
        ∃ item, read = [item] ∧ ∃ b, item.statement = .block b ∧ b.keyword = head.text ∧
          b.instanceName = some e.node ∧ b.body.entries = [] := by
    rw [hlength]
    refine PassesItems.one (by rw [hh]; rfl) (by rw [hh]; rfl) ?_ Meets.nil
    have hcommand := passes_command harguments rfl ho hc hbody hentries Meets.nil
    have hstatement := passes_statement_word hh (passes_wordStatement_command hh hsecond hcommand)
    refine Passes.mono hstatement ?_
    rintro _ ⟨extent, bodyExtent, entries, marks, rfl, rfl⟩
    exact ⟨_, rfl, rfl, rfl, rfl⟩
  obtain ⟨_, hscript, item, rfl, b, hstatement, hb⟩ := script_of_passesItems hitems
  exact ⟨_, b, hscript, by rw [List.map_singleton, hstatement], hb⟩

end Grammar

namespace Piece

theorem isSignificant_mark {mark : Piece} (h : mark.kind = .dot ∨ mark.kind = .doubleColon) :
    mark.kind.isSignificant := by
  rcases h with h | h <;> rw [h] <;> rfl

/-- The pieces of an operand are closed. -/
theorem AreOperand.isClosed {pieces : List Piece} (h : AreOperand pieces) : IsClosed pieces := by
  cases h with
  | alone stem =>
    refine ⟨List.cons_ne_nil _ _, ?_, ?_⟩ <;>
    · rintro _ ⟨⟩
      rfl
  | access stem hmark hword =>
    refine ⟨List.cons_ne_nil _ _, ?_, ?_⟩
    · rintro _ ⟨⟩
      rfl
    · rintro _ ⟨⟩
      exact TokenKind.isSignificant_of_isName hword

/-- An operand starts with its variable. -/
theorem AreOperand.exists_tokens {pieces : List Piece} (h : AreOperand pieces) (start : Position) :
    ∃ t more, tokens start pieces = t :: more ∧ t.kind.isAtom ∧ t.start = start := by
  cases h with
  | alone stem | access stem => exact ⟨_, _, tokens_cons rfl start _, rfl, rfl⟩

/-- **A variable, alone or with one member, is an operand** that goes by its text. -/
theorem AreOperand.passes {pieces : List Piece} (h : AreOperand pieces) {source : Text}
    {below : Level} {start : Position} (hstands : Stands source start pieces)
    {consumed rest : List Token}
    (hrest : ∀ t ∈ rest.head?, t.start.offset ≠ (stop start pieces).offset) :
    Passes (operand source below) consumed (tokens start pieces) rest fun e => e.marks = [] ∧
      Building.instanceName e.node = textOf pieces := by
  have hextent := congrArg Extent.text (h.isClosed.ofTokens hstands)
  cases h with
  | alone stem =>
    refine (passes_operand rfl (passes_atom rfl) (accessFollows_apart hrest)).mono ?_
    rintro _ rfl
    exact ⟨rfl, hextent⟩
  | @access stem mark word hmark hword =>
    have htokens : tokens start [⟨.variableName, stem⟩, mark, word] =
        [⟨.variableName, stem, start⟩, ⟨mark.kind, mark.text, start.advance stem⟩,
          ⟨word.kind, word.text, (start.advance stem).advance mark.text⟩] := by
      rw [tokens_cons rfl, tokens_cons (isSignificant_mark hmark),
        tokens_cons (TokenKind.isSignificant_of_isName hword), tokens_nil]
    rw [htokens] at hextent ⊢
    exact (passes_accessOperand rfl hmark hword (beq_self_eq_true _) hrest).mono
      fun e he => ⟨he.1, he.2.trans hextent⟩

end Piece

/-! ### Where nothing is accessed

Here it has to be shown that a text is no script.  It is followed rule by rule to the
token at which there is no way on, and a failure is a failure for all that stands around
it.
-/

namespace Piece

theorem tokens_blanks {blanks : List Piece} (h : ∀ p ∈ blanks, p.kind = .blank)
    (start : Position) : tokens start blanks = [] := by
  rw [tokens, ← Token.significant_visible, visible_place_blank h]
  rfl

/-- A character that starts only tokens which the grammar sees and which are no names. -/
def StartsNoName (c : Char) : Prop :=
  ∀ kind : TokenKind, kind.mayStart c → kind.isSignificant ∧ kind.isName = false

/-- What may go on with a word, but starts none, starts no name. -/
theorem startsNoName_of_isBare {c : Char} (hbare : Pattern.isBare c)
    (hword : Pattern.isWordStart c = false) : StartsNoName c := by
  intro kind hk
  refine ⟨?_, ?_⟩
  · -- blanks and comments start with characters that stand in no word
    have hnot : [' ', '\t', '\r', '\n', '`', '<', '#'].all fun d => !Pattern.isBare d := by decide
    by_contra hs
    have hmem : c ∈ [' ', '\t', '\r', '\n', '`', '<', '#'] := by
      cases kind <;> simp [TokenKind.isSignificant, TokenKind.mayStart] at hs hk ⊢ <;> grind
    have hc := List.all_eq_true.mp hnot c hmem
    rw [hbare] at hc
    cases hc
  · rw [Bool.eq_false_iff]
    intro hn
    rw [Token.isWordStart_of_mayStart hn hk] at hword
    cases hword

theorem StartsNoName.skipBlanks {c : Char} (h : StartsNoName c) (t : Text) :
    Pattern.skipBlanks (c :: t) = c :: t := by
  refine Token.skipBlanks_of_blanks_eq_none (TokenKind.recognise_cons (k := .blank) t ?_)
  rw [Bool.eq_false_iff]
  intro hk
  exact absurd (h .blank hk).1 (by decide)

/-- Behind blanks such a character starts the next token of the grammar. -/
theorem StartsNoName.meets {c : Char} (h : StartsNoName c) {pieces : List Piece} {t : Text}
    (hlexes : Lexes pieces []) (htext : Pattern.skipBlanks (textOf pieces) = c :: t)
    (start : Position) : Meets (tokens start pieces) fun kind => !kind.isName := by
  obtain ⟨blanks, rest, rfl, hblanks, hskip, hrest, -⟩ := exists_behind_blanks hlexes
  rw [htext] at hskip
  rw [tokens_append, tokens_blanks hblanks, List.nil_append]
  cases rest with
  | nil => cases hskip
  | cons piece rest =>
    have hnext : Token.next? (c :: t) = some (piece.kind, textOf rest) := by
      have := hrest.1
      rwa [IsNext, List.append_nil, ← textOf_cons, ← hskip] at this
    obtain ⟨hsignificant, hname⟩ := h _ (Token.recognise_of_next? hnext).1
    rw [tokens_cons hsignificant]
    exact Meets.cons (by simp [hname])

end Piece

namespace Reading

/-- A reading fails at these tokens. -/
def Fails (r : Reading α) (consumed tokens : List Token) : Prop :=
  ∃ e, r ⟨consumed, tokens⟩ = .error e

variable {r : Reading α} {f : α → Reading β} {consumed tokens rest : List Token}

theorem Fails.bind (h : Fails r consumed tokens) : Fails (r >>= f) consumed tokens := by
  obtain ⟨e, he⟩ := h
  refine ⟨e, ?_⟩
  change (r ⟨consumed, tokens⟩ >>= fun result => f result.1 result.2) = _
  rw [he]
  rfl

/-- What comes after tokens that are read fails. -/
theorem Fails.after {P : α → Prop} (hr : Passes r consumed tokens rest P)
    (hf : ∀ a, P a → Fails (f a) (tokens.reverse ++ consumed) rest) :
    Fails (r >>= f) consumed (tokens ++ rest) := by
  obtain ⟨a, hr, ha⟩ := hr
  obtain ⟨e, he⟩ := hf a ha
  refine ⟨e, ?_⟩
  change (r ⟨consumed, tokens ++ rest⟩ >>= fun result => f result.1 result.2) = _
  rw [hr]
  exact he

theorem Fails.nextIs {p : TokenKind → Bool} {f : Bool → Reading β}
    (h : Fails (f (Cursor.nextIs ⟨consumed, tokens⟩ p)) consumed tokens) :
    Fails (Reading.nextIs p >>= f) consumed tokens := h

theorem Fails.get {f : Cursor → Reading β} (h : Fails (f ⟨consumed, tokens⟩) consumed tokens) :
    Fails (MonadState.get >>= f) consumed tokens := h

theorem Fails.spanning {source : Text} {r : Reading (Extent → α)} (h : Fails r consumed tokens) :
    Fails (Reading.spanning source r) consumed tokens := by
  obtain ⟨e, he⟩ := h
  refine ⟨e, ?_⟩
  unfold Reading.spanning
  rw [he]
  rfl

theorem Fails.tokenOf (what : Text) {p : TokenKind → Bool}
    (h : Meets tokens fun kind => !p kind) : Fails (Reading.tokenOf what p) consumed tokens := by
  cases tokens with
  | nil => exact ⟨_, rfl⟩
  | cons t tokens =>
    have ht : p t.kind = false := by simpa using h t rfl
    refine ⟨⟨.expected what, some t⟩, ?_⟩
    simp [Reading.tokenOf, ht]

/-- A loop that is entered fails where its first round does. -/
theorem Fails.readWhile {enter : Cursor → Bool} {t : Token}
    (he : enter ⟨consumed, t :: tokens⟩ = true) (h : Fails r consumed (t :: tokens)) :
    Fails (Reading.readWhile enter r) consumed (t :: tokens) := by
  change Fails (whileAtMost enter r (tokens.length + 1)) consumed (t :: tokens)
  refine Fails.get ?_
  rw [if_pos he]
  exact h.bind

end Reading

namespace Grammar

variable {source : Text} {below : Level} {consumed rest : List Token}

/-- Two colons without a name behind them are no access. -/
theorem fails_access {mark : Token} (hm : mark.kind = .doubleColon)
    (hrest : Meets rest fun kind => !kind.isName) : Fails access consumed (mark :: rest) := by
  refine Fails.get ?_
  have hkind : Cursor.nextKind? ⟨consumed, mark :: rest⟩ = some .doubleColon := congrArg some hm
  rw [hkind]
  exact Fails.after (Passes.token mark) fun _ _ => (Fails.tokenOf _ hrest).bind

/-- A variable with two colons that access nothing is no operand. -/
theorem fails_operand {base mark : Token} (hb : base.kind = .variableName)
    (hm : mark.kind = .doubleColon) (ht : mark.touches base)
    (hrest : Meets rest fun kind => !kind.isName) :
    Fails (operand source below) consumed (base :: mark :: rest) := by
  have hatom : base.kind.isAtom := by
    rw [hb]
    rfl
  have hnot : ∀ kind : TokenKind, kind ≠ .variableName →
      Cursor.nextIs ⟨consumed, base :: mark :: rest⟩ (· == kind) = false := by
    intro kind hk
    refine beq_eq_false_iff_ne.mpr ?_
    rw [hb]
    exact hk.symm
  refine Fails.spanning (Fails.nextIs ?_)
  rw [hnot .operator (by decide)]
  refine Fails.nextIs ?_
  rw [hnot .typeLiteral (by decide), if_neg Bool.false_ne_true]
  refine Fails.after (passes_atom hatom) fun _ _ => Fails.bind ?_
  exact Fails.readWhile (accessFollows_mark ht (.inr hm)) (fails_access hm hrest)

/-- A block whose name is no operand is no statement. -/
theorem fails_command {head base mark : Token} (hb : base.kind = .variableName)
    (hline : base.onLineOf head) (hm : mark.kind = .doubleColon) (ht : mark.touches base)
    (hrest : Meets rest fun kind => !kind.isName) :
    Fails (command source below) consumed (head :: base :: mark :: rest) := by
  refine Fails.spanning (Fails.after (Passes.token head) fun _ _ => Fails.bind (Fails.bind ?_))
  refine Fails.readWhile ?_ ?_
  · simp [Cursor.onLine, Cursor.nextIs, hline, hb, TokenKind.startsArgument,
      TokenKind.startsOperand, TokenKind.startsPrimary]
  · refine Fails.get ?_
    have hkind : Cursor.nextKind? ⟨[head].reverse ++ consumed, base :: mark :: rest⟩ =
        some .variableName := congrArg some hb
    rw [hkind]
    exact (fails_operand hb hm ht hrest).bind

/-- A script that starts with such a block is none. -/
theorem fails_script {head base mark : Token} (hh : head.kind = .bareword)
    (hb : base.kind = .variableName) (hline : base.onLineOf head) (hm : mark.kind = .doubleColon)
    (ht : mark.touches base) (hrest : Meets rest fun kind => !kind.isName) :
    ∃ e, script source (head :: base :: mark :: rest) = .error e := by
  have hstatement (below : Level) :
      Fails (statement source below) [] (head :: base :: mark :: rest) := by
    have hword : Fails (wordStatement source below) [] (head :: base :: mark :: rest) := by
      refine Fails.get ?_
      have hkeyed : ¬(head.kind.isKeyword || base.kind == .equals) = true := by
        rw [hh, hb]
        decide
      simp only []
      rw [if_neg hkeyed]
      exact fails_command hb hline hm ht hrest
    refine Fails.get ?_
    have hkind : Cursor.nextKind? ⟨[], head :: base :: mark :: rest⟩ = some .bareword :=
      congrArg some hh
    simp only [hkind]
    exact hword
  have hitems : Fails (items (level source (rest.length + 3)) (· == .semicolon)) []
      (head :: base :: mark :: rest) := by
    refine (Fails.readWhile ?_ ?_).bind
    · simp [Cursor.nextIs, hh, TokenKind.startsStatement]
    · have hseparator : Cursor.nextIs ⟨[], head :: base :: mark :: rest⟩ (· == .semicolon) =
          false := by simp [Cursor.nextIs, hh]
      refine Fails.nextIs ?_
      rw [hseparator]
      exact (hstatement _).bind
  obtain ⟨e, he⟩ := hitems
  refine ⟨e, ?_⟩
  unfold script
  simp only [List.length_cons, he]
  rfl

end Grammar

end DesiredState

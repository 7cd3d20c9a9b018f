/-
Names of instances.

The name of an instance goes out in quotes, unless it is a reference.  Quotes keep every
name.  A reference is kept if it is read as one operand, and exactly then: of any other
the text is no script at all.  So what is written of an instance without properties
declares it again, or it is not read, and which of the two is decided by its name.
-/
import DesiredState.Proofs.Layout.Document
import DesiredState.Proofs.Script.References

namespace DesiredState

open Piece Grammar Reading Cursor

/-- A script that is one declaration with no properties, of these names. -/
def Script.DeclaresBare (resource name : Text) (script : Script) : Prop :=
  ∃ b e, script.statements = [.block b] ∧ Building.declaration? (.block b) = some (b, e) ∧
    b.keyword = resource ∧ b.body.entries = [] ∧ Building.instanceName e = name

namespace Layout

/-- An instance without properties, whose name is written as some pieces. -/
def bare (n : Nat) (resource : Text) (name : List Piece) : List Piece :=
  [gap (4 * n), word resource, gap 1] ++ (name ++
    [lineEnd, gap (4 * n), braceOpen, lineEnd, gap (4 * n), braceClose, lineEnd])

/-- Where the name of an instance stands. -/
def namePlace (n : Nat) (resource : Text) : Position :=
  stop .start [gap (4 * n), word resource, gap 1]

/-- The text of an instance without properties. -/
theorem write_bare {resource : Text} (hr : Token.IsWord .bareword resource) (n : Nat) {name : Text}
    {pieces : List Piece}
    (h : textOf pieces = if Render.isReference name then name else Render.quoted name) :
    Configuration.write (.whole n) [⟨resource, name, []⟩] =
      .ok (textOf (bare n resource pieces)) := by
  have hname : Render.instanceName (some (.string name)) = .ok (textOf pieces) := by
    rw [instanceName_string, h]
  have hbody (path : Path) : Render.body (.whole n) path (Value.encodeFields [])
      (Render.fieldTexts (.whole n) path (Value.encodeFields [])) = .ok [] := rfl
  unfold Configuration.write Render.entries
  rw [List.map_singleton, Render.blocks, Instance.toJson, Render.block, bodyOf_instance]
  · simp only []
    rw [header_instance hr.ne_nil hname, hbody]
    simp [bind, Except.bind, Render.blocks, bare, gap, word, braceOpen, braceClose, lineEnd,
      Render.indent, Text.spaces]
  all_goals
    intro _ h
    cases h

/-- Pieces that are read as a name on its line. -/
structure IsNamePieces (name : Text) (pieces : List Piece) : Prop where
  spells : ∀ rest, Spells pieces ('\n' :: rest)
  starts : ∀ start, ∃ t more, tokens start pieces = t :: more ∧ t.kind.isAtom ∧ t.start = start
  reads : ∀ {source : Text} {below : Level} {start : Position} {consumed rest : List Token},
    Stands source start pieces →
    (∀ t ∈ rest.head?, t.kind = .braceOpen ∧ t.start.offset ≠ (stop start pieces).offset) →
    Passes (operand source below) consumed (tokens start pieces) rest fun e => e.marks = [] ∧
      Building.instanceName e.node = name

/-- A name in quotes is read as a name. -/
theorem isNamePieces_quoted (name : Text) : IsNamePieces name [quoted name] where
  spells := fun rest => ⟨.inr (isNext_quoted name (Text.Delimits.lineFeed rest)), trivial⟩
  starts := fun start => ⟨⟨.doubleQuoted, Render.quoted name, start⟩, [], rfl, rfl, rfl⟩
  reads := by
    intro source below start consumed rest _ hrest
    obtain ⟨extent, hatom⟩ := atom_quoted source name start
    refine (passes_operand rfl (passes_atom rfl) ?_).mono ?_
    · cases rest with
      | nil => rfl
      | cons t rest => exact accessFollows_brace rfl (hrest t rfl).1
    · rintro _ rfl
      exact ⟨rfl, congrArg Building.instanceName hatom⟩

/-- A name that is no reference, or an operand, is written as pieces that are read as it. -/
theorem exists_isNamePieces {name : Text} (h : Render.isReference name → name.isOperand) :
    ∃ pieces, (textOf pieces = if Render.isReference name then name else Render.quoted name) ∧
      IsNamePieces name pieces := by
  by_cases href : Render.isReference name
  · obtain ⟨stem, rest, hsplit⟩ := Text.exists_isReference href
    obtain ⟨pieces, hoperand, rfl, hlexes⟩ := hsplit.exists_pieces (h href)
    exact ⟨pieces, (if_pos href).symm, fun rest => (hlexes _ (.lineFeed rest)).spells,
      hoperand.exists_tokens,
      fun hstands hrest => hoperand.passes hstands fun t ht => (hrest t ht).2⟩
  · refine ⟨[quoted name], ?_, isNamePieces_quoted name⟩
    rw [if_neg href, textOf_cons, textOf_nil, List.append_nil]
    rfl

theorem spells_bare {resource : Text} (hr : Token.IsWord .bareword resource) (n : Nat)
    {pieces : List Piece} (h : ∀ rest, Spells pieces ('\n' :: rest)) :
    Spells (bare n resource pieces) [] := by
  refine (spells_append _ _ _).mpr ⟨⟨.inl (isGap_gap _), .inr (isNext_word hr ?_),
    .inl (isGap_gap 1), trivial⟩, (spells_append _ _ _).mpr ⟨h _, .inl isGap_lineEnd,
      .inl (isGap_gap _), .inr (Token.next?_braceOpen _), .inl isGap_lineEnd,
      .inl (isGap_gap _), .inr (Token.next?_braceClose _), .inl isGap_lineEnd, trivial⟩⟩
  exact Text.Delimits.space _

/-- The tokens of an instance without properties: the word at the head, on its line those of the
name, and two braces, of which the first touches nothing. -/
theorem tokens_bare {resource : Text} (hr : Token.IsWord .bareword resource) (n : Nat)
    (pieces : List Piece) :
    ∃ head opener closer : Token, head.kind = .bareword ∧ head.text = resource ∧
      head.stop.advance [' '] = namePlace n resource ∧
      opener.kind = .braceOpen ∧ opener.start.offset ≠ (stop (namePlace n resource) pieces).offset ∧
      closer.kind = .braceClose ∧
      tokens .start (bare n resource pieces) =
        head :: (tokens (namePlace n resource) pieces ++ [opener, closer]) := by
  obtain ⟨opener, closer, hopener, hapart, hcloser, hclosing⟩ : ∃ opener closer : Token,
      opener.kind = .braceOpen ∧ opener.start.offset ≠ (stop (namePlace n resource) pieces).offset ∧
      closer.kind = .braceClose ∧
      tokens (stop (namePlace n resource) pieces)
        [lineEnd, gap (4 * n), braceOpen, lineEnd, gap (4 * n), braceClose, lineEnd] =
          [opener, closer] := by
    refine ⟨_, _, rfl, ?_, rfl, rfl⟩
    rw [Position.advance_offset, Position.advance_offset]
    have hbreak : lineEnd.text.size = 1 := rfl
    omega
  refine ⟨⟨.bareword, resource, headPlace n .start⟩, opener, closer, rfl, rfl, rfl, hopener, hapart,
    hcloser, ?_⟩
  rw [bare, tokens_append, tokens_append, tokens_cons_skip rfl, word_eq hr, tokens_cons rfl,
    tokens_cons_skip rfl, tokens_nil, ← hclosing]
  rfl

/-- An instance is declared by a name that is read. -/
theorem parse_bare {resource : Text} (hr : Token.IsWord .bareword resource) (n : Nat) {name : Text}
    {pieces : List Piece} (h : IsNamePieces name pieces) :
    ∃ script, Script.parse (textOf (bare n resource pieces)) = .ok script ∧
      script.DeclaresBare resource name := by
  have hstands : Stands (textOf (bare n resource pieces)) .start (bare n resource pieces) :=
    ⟨[], [], by simp, rfl⟩
  obtain ⟨head, opener, closer, hhead, htext, hplace, hopener, hapart, hcloser, hbare⟩ :=
    tokens_bare hr n pieces
  obtain ⟨t, more, htokens, hatom, hstart⟩ := h.starts (namePlace n resource)
  have hrest : ∀ u ∈ [opener, closer].head?, u.kind = .braceOpen ∧
      u.start.offset ≠ (stop (namePlace n resource) pieces).offset := by
    rintro _ ⟨⟩
    exact ⟨hopener, hapart⟩
  have hoperand : Passes (operand (textOf (bare n resource pieces))
      (level (textOf (bare n resource pieces)) (more.length + 3))) [head]
        (tokens (namePlace n resource) pieces) [opener, closer] _ :=
    h.reads hstands.right.left hrest
  obtain ⟨e, ⟨hmarks, hname⟩, hoperand⟩ := hoperand.exists_eq
  rw [htokens] at hoperand hbare
  have hline : t.onLineOf head := by
    unfold Token.onLineOf
    rw [hstart, ← hplace]
    simp [Position.advance]
  obtain ⟨read, b, hscript, hread, hkeyword, hb, hentries⟩ :=
    script_of_operand hhead hatom hline hopener hcloser hmarks hoperand
  rw [← hbare] at hscript
  refine ⟨_, parse_textOf (spells_bare hr n h.spells) hscript, b, e.node, hread, ?_,
    hkeyword.trans htext, hentries, hname⟩
  simp [Building.declaration?, hb]

/-! ### Names that are not read

A text with something in it that is no token is no script anyway.  In any other, two
colons stand behind the variable of such a reference, and there the grammar wants a name
where none is left.
-/

/-- Behind the two colons of a reference that is no operand there is no name, for nothing of the
reference is left that could be one, and a brace is next. -/
theorem meets_back {name stem rest back line after : Text} (href : name.IsReference stem rest)
    (hsuffix : back <:+ rest) (hstops : ∀ d ∈ back.head?, Pattern.isWordStart d = false)
    (hbrace : Pattern.skipBlanks line = '\x7b' :: after) {pieces : List Piece}
    (hlexes : Lexes pieces []) (htext : textOf pieces = back ++ line) (start : Position) :
    Meets (tokens start pieces) fun kind => !kind.isName := by
  cases back with
  | nil =>
    have hopener : StartsNoName '\x7b' := by
      intro kind hk
      cases kind <;> first | exact ⟨rfl, rfl⟩ | cases hk
    exact hopener.meets hlexes (by rw [htext, List.nil_append, hbrace]) start
  | cons d back =>
    have hd : StartsNoName d := startsNoName_of_isBare
      (href.isBare d (hsuffix.subset List.mem_cons_self)) (hstops d rfl)
    exact hd.meets hlexes (by rw [htext, List.cons_append, hd.skipBlanks]) start

/-- The tokens of an instance whose name is a reference, but no operand. -/
theorem exists_tokens_bare {resource : Text} (hr : Token.IsWord .bareword resource) {name : Text}
    (h : Render.isReference name) (ho : name.isOperand = false) {margin line after : Text}
    (hmargin : Pattern.skipBlanks margin = []) (hseparates : Text.Separates line)
    (hbrace : Pattern.skipBlanks line = '\x7b' :: after) {pieces : List Piece}
    (hlexes : Lexes pieces [])
    (htext : textOf pieces = margin ++ (resource ++ ([' '] ++ (name ++ line)))) :
    ∃ (head base mark : Token) (rest : List Token),
      tokens .start pieces = head :: base :: mark :: rest ∧ head.kind = .bareword ∧
      base.kind = .variableName ∧ base.onLineOf head ∧ mark.kind = .doubleColon ∧
      mark.touches base ∧ Meets rest fun kind => !kind.isName := by
  obtain ⟨stem, rest, href⟩ := Text.exists_isReference h
  -- the word at the head, behind the margin
  have hhead : Token.next? (resource ++ ([' '] ++ (name ++ line))) =
      some (.bareword, [' '] ++ (name ++ line)) := hr.next? (.space _)
  obtain ⟨blanks, pieces, rfl, hblanks, hskip, hlexes, -⟩ := exists_behind_blanks hlexes
  rw [htext, Pattern.skipBlanks_append hmargin, Token.skipBlanks_of_blanks_eq_none
    (Token.blanks_eq_none hhead (by decide))] at hskip
  obtain ⟨pieces, rfl, hlexes, htext⟩ := hlexes.cons_of_next? hskip.symm hhead
  -- the variable, behind a space
  have hstem := href.next?_stem hseparates
  rw [← List.append_assoc, ← href.eq] at hstem
  have hgap : Token.next? ([' '] ++ (name ++ line)) = some (.blank, name ++ line) := by
    rw [Token.next?_blank rfl (List.cons_ne_nil _ _), Token.skipBlanks_of_blanks_eq_none
      (Token.blanks_eq_none hstem (by decide))]
  obtain ⟨pieces, rfl, hlexes, htext⟩ := hlexes.cons_of_next? htext hgap
  -- two colons, and no name behind them
  obtain ⟨back, more, rfl, hsuffix, hstops, hlexes, htext⟩ :=
    href.exists_doubleColon ho hseparates hlexes htext
  have hmeets := meets_back href hsuffix hstops hbrace hlexes htext
  rw [tokens_append, tokens_blanks hblanks, List.nil_append, tokens_cons rfl, tokens_cons_skip rfl,
    tokens_cons rfl, tokens_cons rfl]
  refine ⟨_, _, _, _, rfl, rfl, rfl, ?_, rfl, beq_self_eq_true _, hmeets _⟩
  unfold Token.onLineOf Token.stop
  simp [Position.advance]

/-- The text of an instance whose name is a reference, but no operand, is no script. -/
theorem parse_bare_ne_ok {resource : Text} (hr : Token.IsWord .bareword resource) (n : Nat)
    {name : Text} (h : Render.isReference name) (ho : name.isOperand = false) (script : Script) :
    Script.parse (textOf (bare n resource (ofText name))) ≠ .ok script := by
  intro hparse
  obtain ⟨hunknowns, items, hitems, -⟩ := Script.parse_eq_ok_iff.mp hparse
  obtain ⟨pieces, htext, hlexes, hscan⟩ := Token.exists_pieces hunknowns
  have hspaces : Pattern.skipBlanks (Text.spaces (4 * n)) = [] :=
    (isGap_gap (4 * n) : IsGap _ []).blank
  obtain ⟨after, hafter⟩ : ∃ after, textOf (bare n resource (ofText name)) =
      Text.spaces (4 * n) ++ (resource ++ ([' '] ++ (name ++ '\n' :: (Text.spaces (4 * n) ++
        '\x7b' :: after)))) := by
    refine ⟨'\n' :: (Text.spaces (4 * n) ++ ['\x7d', '\n']), ?_⟩
    simp [bare, gap, word, lineEnd, braceOpen, braceClose, textOf_ofText]
    rfl
  have hbrace : Pattern.skipBlanks ('\n' :: (Text.spaces (4 * n) ++ '\x7b' :: after)) =
      '\x7b' :: after := by
    rw [Pattern.skipBlanks, Pattern.skipBlanks_append hspaces]
    rfl
  obtain ⟨head, base, mark, rest, htokens, hhead, hbase, hline, hmark, htouches, hrest⟩ :=
    exists_tokens_bare hr h ho hspaces (.lineFeed _) hbrace hlexes (htext.trans hafter)
  obtain ⟨e, he⟩ := fails_script hhead hbase hline hmark htouches hrest
  rw [hscan, ← tokens, htokens, he] at hitems
  cases hitems

end Layout

namespace Configuration

/-- **Names of instances are kept, save for references that are no operands.**  An instance without
properties is written, and its text is parsed to one declaration without properties, by just its
names, if and only if a name that goes out as a reference is read as one operand. -/
theorem parse_write_bare {resource : Text} (hr : Token.IsWord .bareword resource) (n : Nat)
    (name : Text) :
    ∃ text, write (.whole n) [⟨resource, name, []⟩] = .ok text ∧
      ((∃ script, Script.parse text = .ok script ∧ script.DeclaresBare resource name) ↔
        (Render.isReference name → name.isOperand)) := by
  by_cases h : Render.isReference name → name.isOperand
  · obtain ⟨pieces, htext, hpieces⟩ := Layout.exists_isNamePieces h
    exact ⟨_, Layout.write_bare hr n htext, fun _ => h, fun _ => Layout.parse_bare hr n hpieces⟩
  · obtain ⟨href, ho⟩ := Classical.not_imp.mp h
    have htext : textOf (ofText name) =
        if Render.isReference name then name else Render.quoted name := by
      rw [if_pos href, textOf_ofText]
    refine ⟨_, Layout.write_bare hr n htext, ?_, fun hread => absurd hread h⟩
    rintro ⟨script, hparse, -⟩
    exact absurd hparse (Layout.parse_bare_ne_ok hr n href (Bool.eq_false_iff.mpr ho) script)

/-- A variable of a scope, with a static member. -/
theorem parse_write_bare_scoped :
    Token.IsWord .bareword "File" ∧
      ∃ text, write (.whole 0) [⟨"File", "$env:Path::Length", []⟩] = .ok text ∧
      ∃ script, Script.parse text = .ok script ∧
        script.DeclaresBare "File" "$env:Path::Length" := by
  have hfile : Token.IsWord .bareword "File" := by decide +kernel
  obtain ⟨text, hwrite, hparse⟩ := parse_write_bare hfile 0 "$env:Path::Length"
  exact ⟨hfile, text, hwrite, hparse.mpr fun _ => by decide +kernel⟩

/-- A reference with two single colons goes out as it is, and its text is no script. -/
theorem parse_write_bare_colons :
    ¬ ∀ name : Text, ∃ text script, write (.whole 0) [⟨"File", name, []⟩] = .ok text ∧
      Script.parse text = .ok script ∧ script.DeclaresBare "File" name := by
  intro h
  obtain ⟨text, script, hwrite, hparse, -⟩ := h "$a:b:c"
  have hnone : (write (.whole 0) [⟨"File", "$a:b:c", []⟩]).toOption.bind
      (fun text => (Script.parse text).toOption.map fun script => script.statements.length) =
        none := by
    decide +kernel
  rw [hwrite] at hnone
  simp [Except.toOption, hparse] at hnone

end Configuration

end DesiredState

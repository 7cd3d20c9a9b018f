/-
A document around instances.

Written instances become a script when a configuration with one node block is put around
them.  Parsing it gives back this one configuration, and in its node block a statement
for each instance, which declares it: the head and the name are those of the instance,
and the entries of the body carry its properties.
-/
import DesiredState.Proofs.Layout.Literals

namespace DesiredState

/-- The text of a configuration around the text of blocks. -/
def Configuration.wrapped (blocks : Text) : Text :=
  "Configuration Test\n\x7b\n    Node localhost\n    \x7b\n".toList ++ blocks ++
    "    \x7d\n\x7d\n".toList

namespace Layout

open Piece Grammar Reading Cursor

/-! ### Declarations -/

/-- What stands before the lines of an instance. -/
def declarationOpening (n : Nat) (i : Instance) : List Piece :=
  [gap (4 * n), word i.resourceName, gap 1, quoted i.instanceName, lineEnd, gap (4 * n), braceOpen,
    lineEnd]

/-- Where the head of an instance stands. -/
def headPlace (n : Nat) (start : Position) : Position := start.advance (gap (4 * n)).text

/-- Where the lines of an instance start. -/
def bodyPlace (n : Nat) (start : Position) (i : Instance) : Position :=
  stop start (declarationOpening n i)

variable {leaf : Value → Statement → Prop} {quiet : Prop}

/-- A statement that declares an instance. -/
structure IsDeclared (leaf : Value → Statement → Prop) (quiet : Prop) (n : Nat)
    (notes : Text → List Piece) (start : Position) (i : Instance) (item : Item) (block : Block) :
    Prop where
  statement : item.statement = .block block
  keyword : block.keyword = i.resourceName
  name : ∃ extent, block.instanceName = some (.string extent i.instanceName .double)
  carried : Value.CarriedFields leaf i.properties block.body.entries
  marks : quiet → ∃ marks, item.marks = marks ++ [⟨(headPlace n start).offset, .dynamicKeyword⟩] ∧
    LineMarks n (width i.properties.names) notes (bodyPlace n start i) i.properties marks

/-- The tokens of a declaration. -/
theorem tokens_declaration {i : Instance} (h : Token.IsWord .bareword i.resourceName) (n : Nat)
    (notes : Text → List Piece) (start : Position) :
    ∃ head name opener closer : Token, head.kind = .bareword ∧ head.text = i.resourceName ∧
      head.start = headPlace n start ∧ (∃ place, name = ⟨.doubleQuoted, Render.quoted i.instanceName,
        place⟩) ∧ name.onLineOf head ∧ opener.kind = .braceOpen ∧ closer.kind = .braceClose ∧
      tokens start (declaration n notes i) = head :: name :: opener ::
        (tokens (bodyPlace n start i)
          (lines n (width i.properties.names) notes i.properties) ++ [closer]) := by
  have hsignificant := isSignificant_word h
  obtain ⟨closer, hcloser, hclosing⟩ : ∃ closer : Token, closer.kind = .braceClose ∧
      tokens (stop (bodyPlace n start i) (lines n (width i.properties.names) notes i.properties))
        [gap (4 * n), braceClose, lineEnd] = [closer] := ⟨_, rfl, rfl⟩
  have hsplit : tokens start (declaration n notes i) = tokens start (declarationOpening n i) ++
      (tokens (bodyPlace n start i) (lines n (width i.properties.names) notes i.properties) ++
        [closer]) := by
    rw [declaration, tokens_append, tokens_append]
    rw [← hclosing]
    rfl
  obtain ⟨opener, hopener, hopening⟩ : ∃ opener : Token, opener.kind = .braceOpen ∧
      tokens start (declarationOpening n i) =
        [⟨.bareword, i.resourceName, headPlace n start⟩, ⟨.doubleQuoted, Render.quoted i.instanceName,
          ((headPlace n start).advance i.resourceName).advance [' ']⟩, opener] := by
    refine ⟨⟨.braceOpen, ['\x7b'], stop start [gap (4 * n), word i.resourceName, gap 1,
      quoted i.instanceName, lineEnd, gap (4 * n)]⟩, rfl, ?_⟩
    rw [declarationOpening, tokens_cons_skip rfl, tokens_cons hsignificant, word_eq h]
    rfl
  refine ⟨⟨.bareword, i.resourceName, headPlace n start⟩, ⟨.doubleQuoted, Render.quoted i.instanceName,
    ((headPlace n start).advance i.resourceName).advance [' ']⟩, opener, closer, rfl, rfl, rfl,
    ⟨_, rfl⟩, ?_, hopener, hcloser, ?_⟩
  · unfold Token.onLineOf Token.stop
    simp [Position.advance]
  · rw [hsplit, hopening]
    rfl

theorem declaration_eq (n : Nat) (notes : Text → List Piece) (i : Instance) :
    declaration n notes i = declarationOpening n i ++
      (lines n (width i.properties.names) notes i.properties ++
        [gap (4 * n), braceClose, lineEnd]) := rfl

/-- What it takes for the blocks of an instance to be read. -/
structure IsReadable (leaf : Value → Statement → Prop) (quiet : Prop) (n : Nat)
    (notes : Text → List Piece) (i : Instance) : Prop where
  resourceName : Token.IsWord .bareword i.resourceName
  keys : ∀ p ∈ i.properties, IsKey p.1
  values : ∀ p ∈ i.properties, IsRead leaf quiet n (notes p.1) p.2

/-- A declaration is read as a statement that declares its instance. -/
theorem passes_declaration {n : Nat} {notes : Text → List Piece} {i : Instance}
    (h : IsReadable leaf quiet n notes i) {source : Text} {start : Position} {m : Nat}
    {consumed rest : List Token} (hstands : Stands source start (declaration n notes i))
    (hm : (tokens start (declaration n notes i)).length ≤ m) (hrest : Meets rest endsValue) :
    ∃ head more, tokens start (declaration n notes i) = head :: more ∧ head.kind = .bareword ∧
      Passes (level source m).statement consumed (tokens start (declaration n notes i)) rest
        fun item => ∃ block, IsDeclared leaf quiet n notes start i item block := by
  obtain ⟨head, name, opener, closer, hhead, htext, hstart, ⟨place, rfl⟩, hline, hopener, hcloser,
    htokens⟩ := tokens_declaration h.resourceName n notes start
  refine ⟨head, _, htokens, hhead, ?_⟩
  rw [htokens] at hm ⊢
  obtain ⟨m, rfl⟩ : ∃ k, m = k + 1 := ⟨m - 1, by simp at hm; omega⟩
  have hlines : PassesItems (level source m) (· == .semicolon)
      (opener :: ([⟨.doubleQuoted, Render.quoted i.instanceName, place⟩].reverse ++ head :: consumed))
      (tokens (bodyPlace n start i) (lines n (width i.properties.names) notes i.properties))
      (closer :: rest) (AreEntries leaf quiet n (width i.properties.names) notes
        (bodyPlace n start i) i.properties) := by
    rw [declaration_eq] at hstands
    exact passes_lines h.keys h.values hstands.right.left (by simp at hm; omega)
      (Meets.cons (by rw [hcloser]; rfl))
  obtain ⟨extent, hatom⟩ := atom_quoted source i.instanceName place
  refine passes_statement_word hhead (passes_wordStatement_command hhead ?_ ?_)
  · intro h
    cases h
  refine (passes_command (s := [_]) (passes_nameArgument rfl hline hopener) rfl
    hopener hcloser hlines (fun read hread => hread) hrest).mono ?_
  rintro item ⟨extent', bodyExtent, entries, marks, ⟨hcarried, hmarks⟩, rfl⟩
  refine ⟨⟨extent', head.text, head.location, _, ⟨bodyExtent, entries⟩⟩, rfl, htext,
    ⟨extent, congrArg some hatom⟩, hcarried, ?_⟩
  intro hq
  refine ⟨marks, ?_, hmarks hq⟩
  rw [← hstart]
  rfl

/-- Statements that declare instances, one by one. -/
def AreDeclared (leaf : Value → Statement → Prop) (quiet : Prop) (n : Nat)
    (notes : Instance → Text → List Piece) : Position → List Instance → List Item → Prop
  | _, [], read => read = []
  | start, i :: rest, read => ∃ item block more, read = item :: more ∧
      IsDeclared leaf quiet n (notes i) start (laidOut i) item block ∧
      AreDeclared leaf quiet n notes (stop start (declaration n (notes i) (laidOut i))) rest more

theorem declarations_cons (n : Nat) (notes : Instance → Text → List Piece) (i : Instance)
    (rest : List Instance) :
    declarations n notes (i :: rest) =
      declaration n (notes i) (laidOut i) ++ declarations n notes rest := List.flatMap_cons

/-- Declarations are read as statements that declare their instances. -/
theorem passes_declarations {n : Nat} {notes : Instance → Text → List Piece}
    {instances : List Instance}
    (h : ∀ i ∈ instances, IsReadable leaf quiet n (notes i) (laidOut i)) {source : Text}
    {start : Position} {m : Nat} {consumed rest : List Token}
    (hstands : Stands source start (declarations n notes instances))
    (hm : (tokens start (declarations n notes instances)).length ≤ m)
    (hrest : Meets rest (· == .braceClose)) :
    PassesItems (level source m) (· == .semicolon) consumed
      (tokens start (declarations n notes instances)) rest
      (AreDeclared leaf quiet n notes start instances) := by
  induction instances generalizing start consumed with
  | nil =>
    refine PassesItems.stop (hrest.mono ?_) rfl
    intro kind hk
    rw [beq_iff_eq.mp hk]
    rfl
  | cons i instances ih =>
    rw [declarations_cons] at hstands hm ⊢
    rw [tokens_append] at hm ⊢
    rw [List.length_append] at hm
    have hmeets : Meets (tokens (stop start (declaration n (notes i) (laidOut i)))
        (declarations n notes instances) ++ rest) endsValue := by
      cases instances with
      | nil => exact hrest.mono fun kind hk => by rw [beq_iff_eq.mp hk]; rfl
      | cons j instances =>
        have hj := h j (List.mem_cons_of_mem i List.mem_cons_self)
        obtain ⟨head, _, _, _, hhead, -, -, -, -, -, -, htokens⟩ :=
          tokens_declaration hj.resourceName n (notes j)
            (stop start (declaration n (notes i) (laidOut i)))
        rw [declarations_cons, tokens_append, htokens]
        exact Meets.cons (by rw [hhead]; rfl)
    obtain ⟨head, more, htokens, hhead, hpasses⟩ :=
      passes_declaration (h i List.mem_cons_self) hstands.left (m := m) (by omega) hmeets
    have hlater : ∀ consumed, PassesItems (level source m) (· == .semicolon) consumed
        (tokens (stop start (declaration n (notes i) (laidOut i)))
          (declarations n notes instances)) rest _ := fun consumed =>
      ih (fun j hj => h j (List.mem_cons_of_mem i hj)) hstands.right (by omega)
    rw [htokens] at hpasses ⊢
    refine PassesItems.step (by rw [hhead]; rfl) (by rw [hhead]; rfl) hpasses ?_
    rintro item ⟨block, hdeclared⟩
    refine (hlater _).mono ?_
    intro read hread
    exact ⟨item, block, read, rfl, hdeclared, hread⟩

/-! ### The document -/

/-- What stands before the blocks of a document. -/
def documentOpening : List Piece :=
  [word "Configuration", gap 1, word "Test", lineEnd, braceOpen, lineEnd, gap 4, word "Node", gap 1,
    word "localhost", lineEnd, gap 4, braceOpen, lineEnd]

/-- What stands behind the blocks of a document. -/
def documentClosing : List Piece := [gap 4, braceClose, lineEnd, braceClose, lineEnd]

/-- A configuration around blocks. -/
def document (pieces : List Piece) : List Piece := documentOpening ++ (pieces ++ documentClosing)

theorem textOf_document (pieces : List Piece) :
    textOf (document pieces) = Configuration.wrapped (textOf pieces) := by
  have hopening : textOf documentOpening =
      "Configuration Test\n\x7b\n    Node localhost\n    \x7b\n".toList := by
    decide +kernel
  have hclosing : textOf documentClosing = "    \x7d\n\x7d\n".toList := by decide +kernel
  rw [document, textOf_append, textOf_append, hopening, hclosing]
  exact (List.append_assoc _ _ _).symm

theorem spells_documentOpening (after : Text) : Spells documentOpening after := by
  have hconfiguration : Token.IsWord .configuration "Configuration" := ⟨rfl, rfl⟩
  have htest : Token.IsWord .bareword "Test" := ⟨rfl, rfl⟩
  have hnode : Token.IsWord .node "Node" := ⟨rfl, rfl⟩
  have htarget : Token.IsWord .bareword "localhost" := ⟨rfl, rfl⟩
  exact ⟨Or.inr (isNext_word hconfiguration (Text.Delimits.space _)), Or.inl (isGap_gap 1),
    Or.inr (isNext_word htest (Text.Delimits.lineFeed _)), Or.inl isGap_lineEnd,
    Or.inr (Token.next?_braceOpen _), Or.inl isGap_lineEnd, Or.inl (isGap_gap 4),
    Or.inr (isNext_word hnode (Text.Delimits.space _)), Or.inl (isGap_gap 1),
    Or.inr (isNext_word htarget (Text.Delimits.lineFeed _)), Or.inl isGap_lineEnd,
    Or.inl (isGap_gap 4), Or.inr (Token.next?_braceOpen _), Or.inl isGap_lineEnd, trivial⟩

theorem spells_documentClosing (after : Text) : Spells documentClosing after :=
  ⟨Or.inl (isGap_gap 4), Or.inr (Token.next?_braceClose _), Or.inl isGap_lineEnd,
    Or.inr (Token.next?_braceClose _), Or.inl isGap_lineEnd, trivial⟩

theorem spells_document {pieces : List Piece} (h : ∀ rest, Spells pieces rest) :
    Spells (document pieces) [] := by
  rw [document, spells_append, spells_append]
  exact ⟨spells_documentOpening _, h _, spells_documentClosing _⟩

/-- The grammar sees of a source made of pieces the tokens of these. -/
theorem significant_scan {pieces : List Piece} (h : Spells pieces []) :
    Token.significant (Token.scan (textOf pieces)) = tokens .start pieces := by
  rw [← Token.significant_visible, Token.visible_scan h, Token.significant_visible]
  rfl

/-- A source made of pieces is parsed by the tokens of these. -/
theorem parse_textOf {pieces : List Piece} (h : Spells pieces []) {read : List Item}
    (hread : script (textOf pieces) (tokens .start pieces) = .ok read) :
    Script.parse (textOf pieces) = .ok ⟨read.map (·.statement),
      Script.streamOf (read.flatMap (·.marks)) (place .start pieces)⟩ := by
  have hvisible := Token.visible_scan h
  have hunknowns : Token.unknowns (Token.scan (textOf pieces)) = [] := by
    rw [← Token.unknowns_visible, hvisible, Token.unknowns_visible, unknowns_place h]
  have hstream := Script.streamOf_visible (read.flatMap (·.marks)) (Token.scan (textOf pieces))
  rw [hvisible, Script.streamOf_visible] at hstream
  unfold Script.parse
  simp only [hunknowns, significant_scan h, hread, hstream]

/-- Where the blocks of a document start. -/
def blocksPlace : Position := stop .start documentOpening

theorem tokens_documentOpening :
    ∃ head name opener node target opener' : Token, head.kind = .configuration ∧
      name.kind = .bareword ∧ opener.kind = .braceOpen ∧ node.kind = .node ∧
      target.kind = .bareword ∧ opener'.kind = .braceOpen ∧
      tokens .start documentOpening = [head, name, opener, node, target, opener'] :=
  ⟨_, _, _, _, _, _, rfl, rfl, rfl, rfl, rfl, rfl, rfl⟩

theorem tokens_documentClosing (start : Position) :
    ∃ closer' closer : Token, closer'.kind = .braceClose ∧ closer.kind = .braceClose ∧
      tokens start documentClosing = [closer', closer] :=
  ⟨_, _, rfl, rfl, rfl⟩

/-- **A document is parsed to one configuration whose node block declares the instances.** -/
theorem parse_document {n : Nat} {notes : Instance → Text → List Piece}
    {instances : List Instance}
    (hspells : ∀ rest, Spells (declarations n notes instances) rest)
    (h : ∀ i ∈ instances, IsReadable leaf quiet n (notes i) (laidOut i)) :
    ∃ extent name inner target read, AreDeclared leaf quiet n notes blocksPlace instances read ∧
      Script.parse (Configuration.wrapped (textOf (declarations n notes instances))) =
        .ok ⟨[.configuration extent name [.node inner target (read.map (·.statement))]],
          Script.streamOf (read.flatMap (·.marks))
            (place .start (document (declarations n notes instances)))⟩ := by
  have hdocument := spells_document hspells
  have hstands : Stands (textOf (document (declarations n notes instances))) .start
      (document (declarations n notes instances)) := ⟨[], [], by simp, rfl⟩
  generalize hsource : textOf (document (declarations n notes instances)) = source at hstands
  obtain ⟨head, name, opener, node, target, opener', hhead, hname, hopener, hnode, htarget, hopener',
    hopening⟩ := tokens_documentOpening
  obtain ⟨closer', closer, hcloser', hcloser, hclosing⟩ :=
    tokens_documentClosing (stop blocksPlace (declarations n notes instances))
  obtain ⟨blocks, hblocks⟩ : ∃ blocks, tokens blocksPlace (declarations n notes instances) = blocks :=
    ⟨_, rfl⟩
  have htokens : tokens .start (document (declarations n notes instances)) =
      head :: name :: opener :: ((node :: target :: opener' :: (blocks ++ [closer'])) ++ [closer]) := by
    rw [document, tokens_append, tokens_append, hopening, show stop .start documentOpening = blocksPlace
      from rfl, hclosing, hblocks]
    simp
  have hdeclared : PassesItems (level source (blocks.length + 6)) (· == .semicolon)
      [opener', target, node, opener, name, head] blocks [closer', closer]
      (AreDeclared leaf quiet n notes blocksPlace instances) := by
    rw [← hblocks]
    exact passes_declarations h hstands.right.left (by omega) (Meets.cons (by rw [hcloser']; rfl))
  have hnodeRead : PassesItems (level source (blocks.length + 7)) (· == .semicolon)
      [opener, name, head] (node :: target :: opener' :: (blocks ++ [closer'])) [closer] fun read =>
        ∃ item, read = [item] ∧ ∃ inner target declared,
          AreDeclared leaf quiet n notes blocksPlace instances declared ∧
            item = ⟨.node inner target (declared.map (·.statement)), none,
              declared.flatMap (·.marks)⟩ :=
    PassesItems.one (by rw [hnode]; rfl) (by rw [hnode]; rfl)
      (passes_node hnode htarget hopener' hcloser' hdeclared) (Meets.cons (by rw [hcloser]; rfl))
  have hconfiguration : PassesItems (level source (blocks.length + 8)) (· == .semicolon) []
      (tokens .start (document (declarations n notes instances))) [] fun read => ∃ item,
        read = [item] ∧ ∃ extent name, ∃ inside : List Item,
          (∃ item, inside = [item] ∧ ∃ inner target declared,
            AreDeclared leaf quiet n notes blocksPlace instances declared ∧
              item = ⟨.node inner target (declared.map (·.statement)), none,
                declared.flatMap (·.marks)⟩) ∧
          item = ⟨.configuration extent name (inside.map (·.statement)), none,
            inside.flatMap (·.marks)⟩ := by
    rw [htokens]
    exact PassesItems.one (by rw [hhead]; rfl) (by rw [hhead]; rfl)
      (passes_configuration hhead (by rw [hname]; rfl) hopener hcloser hnodeRead) Meets.nil
  have hlength : (tokens .start (document (declarations n notes instances))).length =
      blocks.length + 8 := by
    rw [htokens]
    simp
  rw [← hlength] at hconfiguration
  obtain ⟨_, hscript, _, rfl, extent, configurationName, _, ⟨_, rfl, inner, target, declared,
    hall, rfl⟩, rfl⟩ := script_of_passesItems hconfiguration
  rw [← hsource] at hscript
  refine ⟨extent, configurationName, inner, target, declared, hall, ?_⟩
  rw [← textOf_document, parse_textOf hdocument hscript]
  simp

end Layout

end DesiredState

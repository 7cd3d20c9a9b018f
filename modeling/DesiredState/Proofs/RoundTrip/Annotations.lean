/-
Comments on properties.

A comment is written behind the value that it is on, or behind what opens its block, up
to the end of the line.  If its text as it is written is nothing but comments and white
space, then it stays so where it stands: the string before it has ended, the line break
behind it ends it, and the tokens of the configuration are those of the instances
without comments.

A text that goes on behind its first line, or behind the end of a block comment, is
written all the same, and what is then outside of the comment is read as tokens of the
configuration.
-/
import DesiredState.Proofs.Conversion.Projection
import DesiredState.Proofs.RoundTrip.Unquoted
import DesiredState.Proofs.Token.Blanking

namespace DesiredState

/-- Whether a kind is none of the configuration: white space or a comment. -/
def TokenKind.isSilent (kind : TokenKind) : Bool := kind == .blank || kind.isComment

namespace Piece

/-- What a text says: its tokens, without white space and comments. -/
def bare (t : Text) : List Piece := (ofText t).filter fun piece => !piece.kind.isSilent

/-- A text that is written piece by piece says what its pieces do. -/
theorem bare_textOf {pieces : List Piece} (h : Spells pieces []) :
    bare (textOf pieces) = pieces.filter fun piece => !piece.kind.isSilent := by
  have hbare : ∀ tokens : List Token,
      (tokens.map fun t => (⟨t.kind, t.text⟩ : Piece)).filter (fun piece => !piece.kind.isSilent) =
        ((Token.visible tokens).filter fun t => !t.kind.isSilent).map fun t => ⟨t.kind, t.text⟩ := by
    intro tokens
    rw [List.filter_map, Token.visible, List.filter_filter]
    refine congrArg _ (List.filter_congr fun t _ => ?_)
    cases hk : t.kind <;> simp [TokenKind.isSilent, hk]
  rw [bare, ofText, hbare, Token.visible_scan h, ← hbare, ofText_place]

/-- A text without unknown characters falls into pieces that are read one by one. -/
theorem lexes_ofText {t : Text} (h : Token.unknowns (Token.scan t) = []) : Lexes (ofText t) [] := by
  obtain ⟨pieces, rfl, hlexes, -⟩ := Token.exists_pieces h
  rwa [ofText_textOf hlexes]

end Piece

/-! ### Comments as they are written

A comment goes out with a mark in front, and what it says may hold anything.  Whether it
stays a comment is therefore asked of the text that is written: is nothing but comments
left of it?
-/

/-- A text of which nothing but comments is left when it is written as one. -/
def Text.IsCommentary (t : Text) : Prop :=
  ∀ piece ∈ Piece.ofText (Render.comment t), piece.kind.isSilent

instance (t : Text) : Decidable t.IsCommentary :=
  inferInstanceAs (Decidable (∀ piece ∈ Piece.ofText (Render.comment t), piece.kind.isSilent = true))

/-- White space ends in a character that trimming removes. -/
theorem Pattern.isBlank_of_skipBlanks {t : Text} (h : skipBlanks t = []) :
    ∀ c, t.getLast? = some c → Text.isBlank c := by
  have step : ∀ (a : Char) (rest : Text), Text.isBlank a →
      (∀ c, rest.getLast? = some c → Text.isBlank c) →
      ∀ c, (a :: rest).getLast? = some c → Text.isBlank c := by
    intro a rest ha hrest c hc
    rw [List.getLast?_cons, Option.some.injEq] at hc
    cases hlast : rest.getLast? with
    | none => rwa [← hc, hlast]
    | some d =>
      rw [hlast, Option.getD_some] at hc
      exact hc ▸ hrest d hlast
  fun_induction skipBlanks t with
  | case1 rest ih | case2 rest ih | case3 rest ih | case4 rest ih => exact step _ rest rfl (ih h)
  | case5 rest ih =>
    rw [List.getLast?_cons_cons]
    exact step _ rest rfl (ih h)
  | case6 rest ih =>
    rw [List.getLast?_cons_cons, List.getLast?_cons_cons]
    exact step _ rest rfl (ih h)
  | case7 t => rw [h]; exact fun c hc => absurd hc.symm (Option.some_ne_none c)

/-- A trimmed text does not end in a character that trimming removes. -/
theorem Text.not_isBlank_of_trim {t : Text} {c : Char} (h : (trim t).getLast? = some c) :
    ¬isBlank c := by
  rw [trim, trimEnd, List.getLast?_reverse] at h
  intro hc
  have := List.head?_dropWhile_not isBlank (trimStart t).reverse
  rw [h] at this
  simp [hc] at this

/-- A comment as it is written ends in what trimming leaves, or it is empty. -/
theorem Render.comment_cases (t : Text) : comment t = ['#', ' '] ∨
    ∀ c, (comment t).getLast? = some c → ¬Text.isBlank c := by
  unfold comment
  simp only []
  split
  · exact Or.inr fun c => Text.not_isBlank_of_trim
  · cases htrim : Text.trim t with
    | nil => exact Or.inl rfl
    | cons d rest =>
      right
      intro c hc
      rw [List.getLast?_append_of_ne_nil _ (List.cons_ne_nil d rest), ← htrim] at hc
      exact Text.not_isBlank_of_trim hc

namespace Piece

/-- Nothing that is silent is unknown. -/
theorem unknowns_of_isSilent {t : Text} (h : ∀ piece ∈ ofText t, piece.kind.isSilent) :
    Token.unknowns (Token.scan t) = [] := by
  refine List.filter_eq_nil_iff.mpr fun token htoken hk => ?_
  have := h ⟨token.kind, token.text⟩ (List.mem_map_of_mem htoken)
  rw [show token.kind = .unknown from beq_iff_eq.mp hk] at this
  cases this

/-- The last piece of a comment as it is written is no white space. -/
theorem kind_ne_blank_of_getLast? {t : Text} {pieces : List Piece} (h : Lexes pieces [])
    (htext : textOf pieces = Render.comment t) {piece : Piece}
    (hlast : pieces.getLast? = some piece) : piece.kind ≠ .blank := by
  obtain ⟨init, rfl⟩ := List.getLast?_eq_some_iff.mp hlast
  intro hk
  have hlexes : Lexes [piece] [] := ((lexes_append _ _ _).mp h).2
  obtain ⟨c, hc⟩ : ∃ c, piece.text.getLast? = some c := by
    cases hc : piece.text.getLast? with
    | none => exact absurd (List.getLast?_eq_none_iff.mp hc) hlexes.1.text_ne_nil
    | some c => exact ⟨c, rfl⟩
  have hblank := Pattern.isBlank_of_skipBlanks (skipBlanks_text hlexes hk) c hc
  have hend : (Render.comment t).getLast? = some c := by
    rw [← htext, textOf_append, textOf_cons, textOf_nil, List.append_nil,
      List.getLast?_append_of_ne_nil _ hlexes.1.text_ne_nil, hc]
  rcases Render.comment_cases t with hempty | hcomment
  · -- An empty comment is one token, which takes the space behind the mark.
    have hpieces := ofText_textOf h
    rw [htext, hempty] at hpieces
    have hone : (init ++ [piece]).getLast? = some ⟨.comment, ['#', ' ']⟩ := by
      rw [← hpieces]
      rfl
    rw [List.getLast?_concat, Option.some.injEq] at hone
    rw [hone] at hk
    cases hk
  · exact hcomment c hend hblank

end Piece

namespace Layout

open Piece

/-- What is nothing but comments stays so in front of the end of a line. -/
theorem lexes_commentary {t : Text} (h : t.IsCommentary) (rest : Text) :
    Lexes (ofText (Render.comment t)) ('\n' :: rest) := by
  have hlexes := lexes_ofText (unknowns_of_isSilent h)
  have hmovable : Movable (ofText (Render.comment t)) [] ('\n' :: rest) := by
    refine ⟨.lineFeed rest, ?_, ?_⟩
    · intro front piece behind heq hk
      have := h piece (heq ▸ List.mem_append_right _ List.mem_cons_self)
      rw [hk] at this
      cases this
    · intro _ piece hlast
      exact ⟨kind_ne_blank_of_getLast? hlexes (textOf_ofText _) hlast,
        fun _ c hc => (Option.some.inj hc).symm⟩
  exact @lexes_moved _ [] [] _ (by simpa using hlexes) hmovable

/-- A comment of one line, or one with an end, is nothing but a comment. -/
theorem isCommentary_of_isNote {t : Text} {kind : TokenKind}
    (h : Token.IsNote kind (Render.comment t)) : t.IsCommentary := by
  have hlexes : Lexes [⟨kind, Render.comment t⟩] [] := by
    refine ⟨?_, trivial⟩
    rw [IsNext, textOf_nil, List.append_nil, List.append_nil]
    exact h.2
  have hpieces := ofText_textOf hlexes
  rw [textOf_cons, textOf_nil, List.append_nil] at hpieces
  unfold Text.IsCommentary
  rw [hpieces]
  exact List.forall_mem_singleton.mpr (by rw [TokenKind.isSilent, h.1, Bool.or_true])

/-- A text of one line that opens no block comment is nothing but a comment. -/
theorem isCommentary_of_line {t : Text} (hline : ∀ c ∈ t, c ≠ '\r' ∧ c ≠ '\n')
    (hopen : Text.startsWith (Text.trim t) ['<', '#'] = false) : t.IsCommentary := by
  have htrim : ∀ c ∈ Text.trim t, (c != '\r' && c != '\n') = true := by
    intro c hc
    have hmem : c ∈ t := by
      rw [Text.trim, Text.trimEnd, List.mem_reverse] at hc
      exact (List.dropWhile_suffix _).mem (List.mem_reverse.mp ((List.dropWhile_suffix _).mem hc))
    simpa using hline c hmem
  obtain ⟨rest, hcomment, hrest⟩ : ∃ rest, Render.comment t = '#' :: rest ∧
      ∀ c ∈ rest, (c != '\r' && c != '\n') = true := by
    unfold Render.comment
    simp only [hopen, Bool.or_false]
    by_cases hmark : Text.startsWith (Text.trim t) ['#']
    · rw [if_pos hmark]
      obtain ⟨rest, hrest⟩ := List.isPrefixOf_iff_prefix.mp hmark
      rw [← hrest] at htrim ⊢
      exact ⟨rest, rfl, fun c hc => htrim c (List.mem_append_right _ hc)⟩
    · rw [if_neg hmark]
      exact ⟨' ' :: Text.trim t, rfl, List.forall_mem_cons.mpr ⟨rfl, htrim⟩⟩
  have hnote : Token.IsNote .comment (Render.comment t) := by
    refine ⟨rfl, ?_⟩
    rw [hcomment, Token.next?_hash, List.dropWhile_eq_nil_iff.mpr hrest]
  exact isCommentary_of_isNote hnote

/-- The notes behind the value of a key: the comment on it. -/
def notesBehind (i : Instance) (name : Text) : List Piece :=
  match i.properties.get? (metadataKey name) with
  | some (.string t) => gap 1 :: ofText (Render.comment t)
  | _ => []

/-! ### What a layout says -/

/-- Notes that are comments say nothing. -/
theorem bare_value {notes : List Piece} (h : ∀ piece ∈ notes, piece.kind.isSilent) (n : Nat)
    (x : Value) :
    (value n notes x).filter (fun piece => !piece.kind.isSilent) =
      (value n [] x).filter fun piece => !piece.kind.isSilent := by
  have hnotes : notes.filter (fun piece => !piece.kind.isSilent) = [] :=
    List.filter_eq_nil_iff.mpr fun piece hp => by rw [h piece hp]; exact Bool.false_ne_true
  rw [value_eq, value_eq, List.filter_append, List.filter_append, hnotes, List.nil_append,
    List.nil_append, List.filter_append]

theorem bare_lines {notes : Text → List Piece} {fields : List (Text × Value)}
    (h : ∀ p ∈ fields, ∀ piece ∈ notes p.1, piece.kind.isSilent) (n width : Nat) :
    (lines n width notes fields).filter (fun piece => !piece.kind.isSilent) =
      (lines n width (fun _ => []) fields).filter fun piece => !piece.kind.isSilent := by
  induction fields with
  | nil => rfl
  | cons p rest ih =>
    obtain ⟨name, x⟩ := p
    have hvalue := bare_value (h (name, x) List.mem_cons_self) n x
    have hrest := ih fun q hq => h q (List.mem_cons_of_mem _ hq)
    simp only [lines, List.filter_append, List.filter_cons, hvalue, hrest]

theorem bare_declaration {notes : Text → List Piece} {i : Instance}
    (h : ∀ p ∈ i.properties, ∀ piece ∈ notes p.1, piece.kind.isSilent) (n : Nat) :
    (declaration n notes i).filter (fun piece => !piece.kind.isSilent) =
      (declaration n (fun _ => []) i).filter fun piece => !piece.kind.isSilent := by
  simp only [declaration, List.filter_append, bare_lines h]

end Layout

/-! ### Instances with comments

Values have to be in quotes here, since a string without them could end in what opens a
comment, or take the comment behind it for its own.
-/

/-- Data that is written in quotes. -/
def Value.IsQuotedData (x : Value) : Prop := x.IsData ∧ x.IsQuoted

namespace Layout

theorem endsBefore_of_isQuotedData {x : Value} (h : x.IsQuotedData) {c : Char}
    (hc : c ∈ [' ', '\n', ',', ')', '\x7b']) : EndsBefore c x := by
  obtain ⟨y, hy, htext⟩ := exists_literal h.1 h.2
  unfold EndsBefore
  rw [← htext]
  exact endsBefore_literal hy hc

end Layout

/-- An instance of which the names are words, the values data that is written in quotes, and all
else comments of some sort. -/
structure Instance.IsAnnotated (comment : Text → Prop) (i : Instance) : Prop where
  resourceName : ∃ kind, Token.IsWord kind i.resourceName
  /-- A name that starts like a variable may be written as one. -/
  instanceName : Text.startsWith i.instanceName ['$'] = false
  names : i.properties.names.Nodup
  isKey : ∀ p ∈ i.withoutComments.properties, IsKey p.1
  shaped : ∀ p ∈ i.withoutComments.properties,
    p.2.IsShapedOf SubObject.IsHeaded Value.IsQuotedData
  comments : ∀ p ∈ i.properties, isMetadataKey p.1 → ∃ t, p.2 = .string t ∧ comment t

/-- Without its comments an instance has none. -/
theorem Instance.withoutComments_withoutComments (i : Instance) :
    i.withoutComments.withoutComments = i.withoutComments := by
  simp [withoutComments, List.filter_filter]

theorem Layout.laidOut_withoutComments (i : Instance) : laidOut i.withoutComments = laidOut i :=
  congrArg Instance.sorted i.withoutComments_withoutComments

namespace Instance.IsAnnotated

open Layout Piece

variable {comment : Text → Prop} {i : Instance}

theorem withoutComments (h : i.IsAnnotated comment) (other : Text → Prop) :
    i.withoutComments.IsAnnotated other := by
  refine ⟨h.resourceName, h.instanceName, ?_, ?_, ?_, ?_⟩
  · exact h.names.sublist (List.filter_sublist.map Prod.fst)
  · rw [withoutComments_withoutComments]
    exact h.isKey
  · rw [withoutComments_withoutComments]
    exact h.shaped
  · intro p hp hm
    have := (List.mem_filter.mp hp).2
    rw [hm] at this
    cases this

/-- The comment on a key, and what is written of it. -/
theorem comment_cases (h : i.IsAnnotated comment) (name : Text) :
    i.properties.get? (metadataKey name) = none ∧ notesBehind i name = [] ∨
      ∃ t, comment t ∧ i.properties.get? (metadataKey name) = some (.string t) ∧
        notesBehind i name = gap 1 :: ofText (Render.comment t) := by
  unfold notesBehind
  cases hget : i.properties.get? (metadataKey name) with
  | none => exact Or.inl ⟨rfl, rfl⟩
  | some x =>
    obtain ⟨t, hx, ht⟩ :=
      h.comments _ (Fields.mem_of_get? hget) (isMetadataKey_metadataKey name)
    obtain rfl : x = .string t := hx
    exact Or.inr ⟨t, ht, rfl, rfl⟩

theorem isWritable (h : i.IsAnnotated comment) :
    IsWritable Value.IsQuotedData (notesBehind i) i where
  resourceName := h.resourceName
  instanceName := h.instanceName
  names := h.names
  isKey := h.isKey
  shaped := h.shaped
  notes := by
    intro p _
    rcases h.comment_cases p.1 with ⟨hget, hnotes⟩ | ⟨t, -, hget, hnotes⟩
    · exact Or.inl ⟨hnotes, hget⟩
    · refine Or.inr ⟨t, ?_, hget⟩
      rw [hnotes, textOf_cons, textOf_ofText]
      rfl

/-- The notes of commentary fit behind a value, and say nothing. -/
theorem fitsLine (h : i.IsAnnotated Text.IsCommentary) (name : Text) :
    FitsLine (notesBehind i name) ∧ ∀ piece ∈ notesBehind i name, piece.kind.isSilent := by
  rcases h.comment_cases name with ⟨-, hnotes⟩ | ⟨t, ht, -, hnotes⟩
  · rw [hnotes]
    exact ⟨fitsLine_nil, fun _ hp => absurd hp List.not_mem_nil⟩
  · rw [hnotes]
    refine ⟨⟨fun _ => ⟨_, rfl⟩, fun rest => ?_⟩, ?_⟩
    · exact ⟨Or.inl (isGap_gap 1), (lexes_commentary ht rest).spells⟩
    · exact List.forall_mem_cons.mpr ⟨rfl, ht⟩

theorem isSpellable (h : i.IsAnnotated Text.IsCommentary) :
    IsSpellable Value.IsQuotedData (notesBehind i) (laidOut i) where
  resourceName := h.resourceName
  isKey := by
    intro p hp
    obtain ⟨q, hq, rfl⟩ := mem_laidOut hp
    exact h.isKey q hq
  shaped := by
    intro p hp
    obtain ⟨q, hq, rfl⟩ := mem_laidOut hp
    exact (h.shaped q hq).sorted fun _ => SubObject.IsHeaded.sorted
  noted := fun p _ => (h.fitsLine p.1).1
  spaces := by
    intro p hp hflat _
    obtain ⟨q, hq, rfl⟩ := mem_laidOut hp
    have hq' : q.2.isFlat := by
      rw [← Value.isFlat_sorted]
      exact hflat
    rw [Value.sorted_of_isFlat hq']
    exact endsBefore_of_isQuotedData ((h.shaped q hq).leaf_of_isFlat hq') (by decide)

end Instance.IsAnnotated

namespace Configuration

open Layout Piece

/-- What is written of instances with commentary falls into pieces. -/
theorem write_annotated {instances : List Instance}
    (h : ∀ i ∈ instances, i.IsAnnotated Text.IsCommentary) (n : Nat) :
    ∃ text, write (.whole n) instances = .ok text ∧
      bare text = instances.flatMap fun i => (declaration n (fun _ => []) (laidOut i)).filter
        fun piece => !piece.kind.isSilent := by
  have hintegers : ∀ x : Value, x.IsQuotedData → HasIntegers x :=
    fun x hx => hasIntegers_of_isContained ⟨hx.1, Or.inl hx.2⟩
  have hspells : Spells (declarations n notesBehind instances) [] :=
    spells_of_isSpellable (fun x hx => endsBefore_of_isQuotedData hx (by decide)) n
      (fun i hi => (h i hi).isSpellable) []
  refine ⟨_, write_eq hintegers (fun i hi => (h i hi).isWritable) n, ?_⟩
  rw [bare_textOf hspells, declarations, List.filter_flatMap]
  refine List.flatMap_congr fun i hi => bare_declaration (fun p _ => ?_) n
  exact ((h i hi).fitsLine p.1).2

/-- **Comments say nothing.**  If nothing but comments is left of them when they are written, the
text of instances has the tokens of their text without comments, kind by kind and text by text. -/
theorem write_withoutComments (n : Nat) (instances : List Instance)
    (h : ∀ i ∈ instances, i.IsAnnotated Text.IsCommentary) :
    ∃ annotated plain, write (.whole n) instances = .ok annotated ∧
      write (.whole n) (instances.map Instance.withoutComments) = .ok plain ∧
      bare annotated = bare plain := by
  obtain ⟨annotated, hannotated, hsaid⟩ := write_annotated h n
  have hwithout : ∀ i ∈ instances.map Instance.withoutComments,
      i.IsAnnotated Text.IsCommentary := by
    intro i hi
    obtain ⟨j, hj, rfl⟩ := List.mem_map.mp hi
    exact (h j hj).withoutComments _
  obtain ⟨plain, hplain, hsame⟩ := write_annotated hwithout n
  refine ⟨annotated, plain, hannotated, hplain, ?_⟩
  rw [hsaid, hsame, List.flatMap_map]
  exact List.flatMap_congr fun i _ => by rw [laidOut_withoutComments]

end Configuration

/-- An instance with a comment. -/
def Instance.noted (comment : Text) : Instance where
  resourceName := "File"
  instanceName := "f"
  properties := [("Ensure".toList, .string "Present"), (metadataKey "Ensure", .string comment)]

theorem Instance.isAnnotated_noted {comment : Text → Prop} {t : Text} (h : comment t) :
    (Instance.noted t).IsAnnotated comment where
  resourceName := by
    have hword : Token.IsWord .bareword "File" := by decide
    exact ⟨.bareword, hword⟩
  instanceName := rfl
  names := by
    change ["Ensure".toList, metadataKey "Ensure"].Nodup
    decide
  isKey := by
    have hkey : IsKey "Ensure" := ⟨⟨.bareword, by decide⟩, by decide, by decide⟩
    exact List.forall_mem_singleton.mpr hkey
  shaped := by
    have hplain : Text.IsPlain "Present" := by
      unfold Text.IsPlain
      decide
    exact List.forall_mem_singleton.mpr (.flat ⟨trivial, hplain⟩ rfl)
  comments := by
    refine List.forall_mem_cons.mpr ⟨fun hm => absurd hm (by decide), ?_⟩
    exact List.forall_mem_singleton.mpr fun _ => ⟨t, rfl, h⟩

namespace Configuration

open Piece

/-- A comment whose second line is a comment too. -/
theorem write_withoutComments_noted : ∃ annotated plain,
    write (.whole 2) [.noted "first\n# second"] = .ok annotated ∧
      write (.whole 2) ([Instance.noted "first\n# second"].map Instance.withoutComments) =
        .ok plain ∧
      bare annotated = bare plain :=
  write_withoutComments 2 [.noted "first\n# second"]
    (List.forall_mem_singleton.mpr (Instance.isAnnotated_noted (by decide)))

/-- **The second line of a comment is read as a part of the configuration.** -/
theorem write_withoutComments_twoLined : ¬ ∀ (n : Nat) (instances : List Instance),
    (∀ i ∈ instances, i.IsAnnotated fun _ => True) →
    ∃ annotated plain, write (.whole n) instances = .ok annotated ∧
      write (.whole n) (instances.map Instance.withoutComments) = .ok plain ∧
      bare annotated = bare plain := by
  intro hsilent
  obtain ⟨annotated, plain, hannotated, hplain, hsame⟩ := hsilent 0 [.noted "first\nsecond"]
    (List.forall_mem_singleton.mpr (Instance.isAnnotated_noted trivial))
  have hfirst : write (.whole 0) [.noted "first\nsecond"] =
      .ok "File \"f\"\n\x7b\n    Ensure = \"Present\" # first\nsecond\n\x7d\n".toList := rfl
  have hsecond : write (.whole 0)
      ([Instance.noted "first\nsecond"].map Instance.withoutComments) =
        .ok "File \"f\"\n\x7b\n    Ensure = \"Present\"\n\x7d\n".toList := rfl
  obtain rfl := Except.ok.inj (hfirst.symm.trans hannotated)
  obtain rfl := Except.ok.inj (hsecond.symm.trans hplain)
  exact absurd hsame (by decide +kernel)

end Configuration

end DesiredState

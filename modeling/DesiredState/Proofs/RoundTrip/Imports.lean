/-
Imports that are read back.

A command that imports modules is written on one line: the names in quotes with commas between
them, and the version behind its own parameter, before the names or after them.  Quoted, a name
may be any text, even one with line breaks, so a line of the source is not a line of the command;
what keeps the arguments of a command together is that each starts where the one before it ends.
-/
import DesiredState.Configuration.Imports
import DesiredState.Proofs.Layout.Document
import DesiredState.Proofs.Script.Arguments
import DesiredState.Proofs.Token.Blanking

namespace DesiredState

/-! ### How imports are written -/

/-- A command that imports modules, as it is written. -/
structure ImportCommand where
  names : List Text
  version : Option Text
  /-- Whether the version stands before the names. -/
  versionFirst : Bool
  /-- The numbers of spaces before the command, and before and behind its commas. -/
  margin : Nat
  beforeComma : Nat
  afterComma : Nat
  deriving DecidableEq, Repr

namespace ImportCommand

/-- The parameter for the names, and the names in quotes. -/
def namesText (c : ImportCommand) : Text :=
  " -ModuleName " ++ Text.join (Text.spaces c.beforeComma ++ ',' :: Text.spaces c.afterComma)
    (c.names.map Render.quoted)

/-- The parameter for the version, and the version in quotes. -/
def versionText (c : ImportCommand) : Text :=
  match c.version with
  | some version => " -ModuleVersion " ++ Render.quoted version
  | none => []

/-- The line of a command. -/
def text (c : ImportCommand) : Text :=
  Text.spaces c.margin ++ "Import-DscResource" ++
    (if c.versionFirst then c.versionText ++ c.namesText else c.namesText ++ c.versionText) ++
    ['\n']

/-- The imports that a command stands for. -/
def imports (c : ImportCommand) : List Import := c.names.map fun name => ⟨name, c.version⟩

/-- A command that names something. -/
structure IsNamed (c : ImportCommand) : Prop where
  nonempty : c.names ≠ []
  named : ∀ name ∈ c.names, name ≠ []

end ImportCommand

/-- A configuration with nothing but imports in it. -/
def Configuration.importing (name : Text) (commands : List ImportCommand) : Text :=
  "Configuration " ++ name ++ "\n\x7b\n" ++ commands.flatMap ImportCommand.text ++ "\x7d\n"

namespace Layout

open Piece Grammar Reading Cursor

/-! ### The pieces of a command -/

/-- The name of a parameter. -/
def parameter (name : Text) : Piece := ⟨.parameter, '-' :: name⟩

/-- Names behind the first one. -/
def moreNames (c : ImportCommand) (names : List Text) : List Piece :=
  names.flatMap fun name => [gap c.beforeComma, comma, gap c.afterComma, quoted name]

/-- The arguments that give the names. -/
def nameArguments (c : ImportCommand) : List Piece :=
  match c.names with
  | [] => []
  | name :: more =>
    gap 1 :: parameter "ModuleName" :: gap 1 :: quoted name :: moreNames c more

/-- The arguments that give the version. -/
def versionArguments (c : ImportCommand) : List Piece :=
  match c.version with
  | some version => [gap 1, parameter "ModuleVersion", gap 1, quoted version]
  | none => []

/-- The arguments of a command, in their order. -/
def importArguments (c : ImportCommand) : List Piece :=
  if c.versionFirst then versionArguments c ++ nameArguments c
  else nameArguments c ++ versionArguments c

/-- The line of a command. -/
def importLine (c : ImportCommand) : List Piece :=
  gap c.margin :: word "Import-DscResource" :: (importArguments c ++ [lineEnd])

/-- The lines of commands. -/
def importLines (commands : List ImportCommand) : List Piece := commands.flatMap importLine

theorem textOf_moreNames (c : ImportCommand) (names : List Text) :
    textOf (moreNames c names) = names.flatMap fun name =>
      (Text.spaces c.beforeComma ++ ',' :: Text.spaces c.afterComma) ++ Render.quoted name := by
  induction names with
  | nil => rfl
  | cons name rest ih =>
    rw [moreNames, List.flatMap_cons, textOf_append, ← moreNames, ih, List.flatMap_cons]
    simp [gap, comma, quoted]

theorem join_cons (separator t : Text) (rest : List Text) :
    Text.join separator (t :: rest) = t ++ rest.flatMap (separator ++ ·) := by
  induction rest generalizing t with
  | nil => rw [Text.join, List.intercalate_singleton, List.flatMap_nil, List.append_nil]
  | cons u rest ih =>
    rw [Text.join, List.intercalate_cons_cons, ← Text.join, ih, List.flatMap_cons,
      List.append_assoc, List.append_assoc]

theorem textOf_nameArguments {c : ImportCommand} (h : c.IsNamed) :
    textOf (nameArguments c) = c.namesText := by
  obtain ⟨name, more, hnames⟩ := List.exists_cons_of_ne_nil h.nonempty
  have hhead : " -ModuleName ".toList =
      (gap 1).text ++ ((parameter "ModuleName").text ++ (gap 1).text) := by decide
  have hpieces : textOf (nameArguments c) = (gap 1).text ++ ((parameter "ModuleName").text ++
      ((gap 1).text ++ (Render.quoted name ++ textOf (moreNames c more)))) := by
    unfold nameArguments
    rw [hnames]
    rfl
  have htext : c.namesText =
      " -ModuleName ".toList ++ (Render.quoted name ++ textOf (moreNames c more)) := by
    unfold ImportCommand.namesText
    rw [hnames, List.map_cons, join_cons, List.flatMap_map, textOf_moreNames]
  rw [hpieces, htext, hhead, List.append_assoc, List.append_assoc]

theorem textOf_versionArguments (c : ImportCommand) :
    textOf (versionArguments c) = c.versionText := by
  have hhead : " -ModuleVersion ".toList =
      (gap 1).text ++ ((parameter "ModuleVersion").text ++ (gap 1).text) := by decide
  unfold versionArguments ImportCommand.versionText
  cases c.version with
  | none => rfl
  | some version =>
    dsimp only
    rw [hhead, textOf_cons, textOf_cons, textOf_cons, textOf_cons, textOf_nil, List.append_nil,
      List.append_assoc, List.append_assoc]
    rfl

theorem textOf_importLine {c : ImportCommand} (h : c.IsNamed) : textOf (importLine c) = c.text := by
  have harguments : textOf (importArguments c) =
      if c.versionFirst then c.versionText ++ c.namesText else c.namesText ++ c.versionText := by
    unfold importArguments
    split
    · rw [textOf_append, textOf_nameArguments h, textOf_versionArguments]
    · rw [textOf_append, textOf_nameArguments h, textOf_versionArguments]
  rw [importLine, textOf_cons, textOf_cons, textOf_append, harguments, ImportCommand.text,
    List.append_assoc, List.append_assoc]
  rfl

theorem textOf_importLines {commands : List ImportCommand} (h : ∀ c ∈ commands, c.IsNamed) :
    textOf (importLines commands) = commands.flatMap ImportCommand.text := by
  induction commands with
  | nil => rfl
  | cons c rest ih =>
    obtain ⟨hc, hrest⟩ := List.forall_mem_cons.mp h
    rw [importLines, List.flatMap_cons, textOf_append, ← importLines, ih hrest,
      textOf_importLine hc, List.flatMap_cons]

/-! ### They are read piece by piece -/

theorem delimits_moreNames (c : ImportCommand) (names : List Text) {after : Text}
    (h : Text.Delimits after) : Text.Delimits (textOf (moreNames c names) ++ after) := by
  cases names with
  | nil => exact h
  | cons name rest =>
    rw [textOf_moreNames, List.flatMap_cons]
    cases c.beforeComma with
    | zero => exact Text.Delimits.comma _
    | succ n => exact Text.Delimits.space _

theorem delimits_versionArguments (c : ImportCommand) {after : Text} (h : Text.Delimits after) :
    Text.Delimits (textOf (versionArguments c) ++ after) := by
  unfold versionArguments
  cases c.version with
  | none => exact h
  | some version => exact Text.Delimits.space _

theorem delimits_nameArguments (c : ImportCommand) {after : Text} (h : Text.Delimits after) :
    Text.Delimits (textOf (nameArguments c) ++ after) := by
  unfold nameArguments
  cases c.names with
  | nil => exact h
  | cons name more => exact Text.Delimits.space _

theorem spells_moreNames (c : ImportCommand) (names : List Text) {after : Text}
    (h : Text.Delimits after) : Spells (moreNames c names) after := by
  induction names with
  | nil => trivial
  | cons name rest ih =>
    rw [moreNames, List.flatMap_cons, spells_append]
    exact ⟨⟨Or.inl (isGap_gap _), Or.inr (Token.next?_comma _), Or.inl (isGap_gap _),
      Or.inr (isNext_quoted name (delimits_moreNames c rest h)), trivial⟩, ih⟩

theorem spells_nameArguments (c : ImportCommand) {after : Text} (h : Text.Delimits after) :
    Spells (nameArguments c) after := by
  unfold nameArguments
  cases c.names with
  | nil => trivial
  | cons name more =>
    exact ⟨Or.inl (isGap_gap 1), Or.inr rfl, Or.inl (isGap_gap 1),
      Or.inr (isNext_quoted name (delimits_moreNames c more h)), spells_moreNames c more h⟩

theorem spells_versionArguments (c : ImportCommand) {after : Text} (h : Text.Delimits after) :
    Spells (versionArguments c) after := by
  unfold versionArguments
  cases c.version with
  | none => trivial
  | some version =>
    exact ⟨Or.inl (isGap_gap 1), Or.inr rfl, Or.inl (isGap_gap 1),
      Or.inr (isNext_quoted version h), trivial⟩

theorem spells_importLine (c : ImportCommand) (rest : Text) : Spells (importLine c) rest := by
  have hline : Text.Delimits ('\n' :: rest) := Text.Delimits.lineFeed rest
  have harguments : Spells (importArguments c) ('\n' :: rest) ∧
      Text.Delimits (textOf (importArguments c) ++ '\n' :: rest) := by
    unfold importArguments
    split
    · rw [spells_append, textOf_append, List.append_assoc]
      exact ⟨⟨spells_versionArguments c (delimits_nameArguments c hline),
        spells_nameArguments c hline⟩, delimits_versionArguments c (delimits_nameArguments c hline)⟩
    · rw [spells_append, textOf_append, List.append_assoc]
      exact ⟨⟨spells_nameArguments c (delimits_versionArguments c hline),
        spells_versionArguments c hline⟩,
        delimits_nameArguments c (delimits_versionArguments c hline)⟩
  have hcommand : Token.IsWord .bareword "Import-DscResource" := ⟨rfl, rfl⟩
  refine ⟨Or.inl (isGap_gap _), Or.inr (isNext_word hcommand ?_), ?_⟩
  · rw [textOf_append, List.append_assoc]
    exact harguments.2
  · rw [spells_append]
    exact ⟨harguments.1, Or.inl isGap_lineEnd, trivial⟩

theorem spells_importLines (commands : List ImportCommand) (rest : Text) :
    Spells (importLines commands) rest := by
  induction commands with
  | nil => trivial
  | cons c more ih =>
    rw [importLines, List.flatMap_cons, spells_append]
    exact ⟨spells_importLine c _, ih⟩

/-! ### Tokens without line breaks between them

Arguments go on as long as they start on the line on which the one before ends.  A name
may have line breaks in it, so that the arguments of one command may stand on several
lines.
-/

/-- Pieces with nothing but spaces between them. -/
def IsUnbroken (pieces : List Piece) : Prop :=
  ∀ p ∈ pieces, p.kind.isSignificant ∨ ∃ n, p = gap n

theorem line_advance_gap (start : Position) (n : Nat) :
    (start.advance (gap n).text).line = start.line := by
  have h := start.advance_spaces n []
  rw [List.append_nil] at h
  exact congrArg (·.line) h

/-- Each token starts on the line on which the one before it ends, even where that one has line
breaks in it. -/
theorem isChain_tokens {pieces : List Piece} (h : IsUnbroken pieces) {last : Token}
    {start : Position} (hlast : start.line ≤ last.stop.line) :
    List.IsChain (fun before t => t.onLineOf before) (last :: tokens start pieces) := by
  induction pieces generalizing last start with
  | nil => exact List.isChain_singleton last
  | cons p rest ih =>
    obtain ⟨hp, hrest⟩ := List.forall_mem_cons.mp h
    rcases hp with hsignificant | ⟨n, rfl⟩
    · rw [tokens_cons hsignificant]
      exact List.isChain_cons_cons.mpr ⟨decide_eq_true hlast, ih hrest (Nat.le_refl _)⟩
    · rw [tokens_cons_skip rfl]
      exact ih hrest ((line_advance_gap start n).trans_le hlast)

theorem stop_line_le {pieces : List Piece} {start : Position} {t : Token}
    (ht : t ∈ tokens start pieces) : t.stop.line ≤ (stop start pieces).line := by
  induction pieces generalizing start with
  | nil => cases ht
  | cons p rest ih =>
    cases hsignificant : p.kind.isSignificant with
    | true =>
      rw [tokens_cons hsignificant] at ht
      rcases List.mem_cons.mp ht with rfl | ht
      · exact line_le_stop _ rest
      · exact ih ht
    | false =>
      rw [tokens_cons_skip hsignificant] at ht
      exact ih ht

theorem exists_piece_of_mem_tokens {pieces : List Piece} {start : Position} {t : Token}
    (ht : t ∈ tokens start pieces) :
    ∃ p ∈ pieces, p.kind.isSignificant = true ∧ p.kind = t.kind := by
  induction pieces generalizing start with
  | nil => cases ht
  | cons p rest ih =>
    have hmore {at_ : Position} (h : t ∈ tokens at_ rest) :
        ∃ q ∈ p :: rest, q.kind.isSignificant = true ∧ q.kind = t.kind := by
      obtain ⟨q, hq, hkind⟩ := ih h
      exact ⟨q, List.mem_cons_of_mem p hq, hkind⟩
    cases hsignificant : p.kind.isSignificant with
    | true =>
      rw [tokens_cons hsignificant] at ht
      rcases List.mem_cons.mp ht with rfl | ht
      · exact ⟨p, List.mem_cons_self, hsignificant, rfl⟩
      · exact hmore ht
    | false =>
      rw [tokens_cons_skip hsignificant] at ht
      exact hmore ht

/-! ### The arguments that are read -/

/-- A string with some value. -/
def IsString (t : Text) (e : Expression) : Prop := ∃ extent, e = .string extent t .double

theorem isString_plainArgument (source t : Text) (start : Position) :
    ∃ e, IsString t e ∧
      plainArgument source ⟨.doubleQuoted, Render.quoted t, start⟩ = .value e := by
  obtain ⟨extent, hatom⟩ := atom_quoted source t start
  exact ⟨_, ⟨extent, rfl⟩, congrArg ArgumentPart.value hatom⟩

theorem plainArgument_moreNames (source : Text) (c : ImportCommand) (names : List Text)
    (start : Position) :
    ∃ values, List.Forall₂ IsString names values ∧
      (tokens start (moreNames c names)).map (plainArgument source) = commaValues values := by
  induction names generalizing start with
  | nil => exact ⟨[], .nil, rfl⟩
  | cons name rest ih =>
    obtain ⟨values, hvalues, hparts⟩ := ih (stop start
      [gap c.beforeComma, comma, gap c.afterComma, quoted name])
    obtain ⟨e, he, hpart⟩ := isString_plainArgument source name (stop start
      [gap c.beforeComma, comma, gap c.afterComma])
    refine ⟨e :: values, .cons he hvalues, ?_⟩
    rw [moreNames, List.flatMap_cons, tokens_append, ← moreNames, List.map_append, hparts,
      tokens_cons_skip rfl, tokens_cons rfl, tokens_cons_skip rfl, tokens_cons rfl, tokens_nil]
    exact congrArg (fun part => [ArgumentPart.comma, part] ++ commaValues values) hpart

/-- The names are read as a parameter and a value, followed by values behind commas. -/
theorem plainArgument_nameArguments (source : Text) {c : ImportCommand} {name : Text}
    {more : List Text} (hnames : c.names = name :: more) (start : Position) :
    ∃ extent first values, IsString name first ∧ List.Forall₂ IsString more values ∧
      (tokens start (nameArguments c)).map (plainArgument source) =
        .parameter extent "ModuleName" :: .value first :: commaValues values := by
  obtain ⟨first, hfirst, hpart⟩ := isString_plainArgument source name (stop start
    [gap 1, parameter "ModuleName", gap 1])
  obtain ⟨values, hvalues, hparts⟩ := plainArgument_moreNames source c more (stop start
    [gap 1, parameter "ModuleName", gap 1, quoted name])
  refine ⟨⟨'-' :: "ModuleName".toList, (start.advance (gap 1).text).toLocation⟩, first, values,
    hfirst, hvalues, ?_⟩
  rw [nameArguments, hnames]
  dsimp only
  rw [tokens_cons_skip rfl, tokens_cons rfl, tokens_cons_skip rfl, tokens_cons rfl, List.map_cons,
    List.map_cons]
  exact congrArg₂ (fun part parts => _ :: part :: parts) hpart hparts

/-- The version is read as a parameter and a value. -/
theorem plainArgument_versionArguments (source : Text) {c : ImportCommand} {version : Text}
    (hversion : c.version = some version) (start : Position) :
    ∃ extent value, IsString version value ∧
      (tokens start (versionArguments c)).map (plainArgument source) =
        [.parameter extent "ModuleVersion", .value value] := by
  obtain ⟨value, hvalue, hpart⟩ := isString_plainArgument source version (stop start
    [gap 1, parameter "ModuleVersion", gap 1])
  refine ⟨⟨'-' :: "ModuleVersion".toList, (start.advance (gap 1).text).toLocation⟩, value, hvalue,
    ?_⟩
  rw [versionArguments, hversion]
  dsimp only
  rw [tokens_cons_skip rfl, tokens_cons rfl, tokens_cons_skip rfl, tokens_cons rfl, tokens_nil,
    List.map_cons, List.map_cons, List.map_nil]
  exact congrArg (fun part => [_, part]) hpart

end Layout

/-! ### What the arguments import

Names behind commas are joined to one list when they are read, and taken apart again
when they are looked up.  Neither order nor number changes on the way.
-/

namespace Import

open Grammar Layout

theorem valuesOf_joinValues (source : Text) {first : Expression} (e : Expression)
    (h : ∀ extent elements, first ≠ .array extent true elements) :
    valuesOf (joinValues source first e) = valuesOf first ++ [.expression e] := by
  cases first with
  | array extent bracketed elements =>
    cases bracketed with
    | true => exact absurd rfl (h extent elements)
    | false => rfl
  | _ => rfl

theorem joinValues_ne_bracketed (source : Text) (first e : Expression) (extent : Extent)
    (elements : List Term) : joinValues source first e ≠ .array extent true elements := by
  intro h
  cases h

/-- A list that was folded has all of its values. -/
theorem valuesOf_foldl (source : Text) {first : Expression} (more : List Expression)
    (h : ∀ extent elements, first ≠ .array extent true elements) :
    valuesOf (more.foldl (joinValues source) first) = valuesOf first ++ more.map .expression := by
  induction more generalizing first with
  | nil => exact (List.append_nil _).symm
  | cons e more ih =>
    rw [List.foldl_cons, ih (joinValues_ne_bracketed source first e),
      valuesOf_joinValues source e h, List.append_assoc]
    rfl

/-- Strings with values name modules, and specify none. -/
theorem names_of_isString {names : List Text} {values : List Expression}
    (h : List.Forall₂ IsString names values) (hnames : ∀ name ∈ names, name ≠ []) :
    (values.map Term.expression).filterMap name? = names ∧
      (values.map Term.expression).filterMap specified? = [] := by
  induction h with
  | nil => exact ⟨rfl, rfl⟩
  | @cons name _ names values he _ ih =>
    obtain ⟨extent, rfl⟩ := he
    obtain ⟨hname, hrest⟩ := List.forall_mem_cons.mp hnames
    obtain ⟨hread, hspecified⟩ := ih hrest
    have hone : name? (.expression (.string extent name .double)) = some name := by
      cases name with
      | nil => exact absurd rfl hname
      | cons c t => rfl
    rw [List.map_cons, List.filterMap_cons, List.filterMap_cons, hone, hread]
    exact ⟨rfl, hspecified⟩

section Arguments

variable {names : List Text} {list : Expression} (extent extent' : Extent)

/-- Arguments without a version. -/
theorem ofArguments_unversioned (hnames : (valuesOf list).filterMap name? = names)
    (hspecified : (valuesOf list).filterMap specified? = []) :
    ofArguments [.parameter extent "ModuleName", .value list] = names.map (⟨·, none⟩) := by
  have hvalues : valuesFor "modulename" [("ModuleName", list)] = [list] := rfl
  have hversion : version? [("ModuleName", list)] = none := rfl
  simp only [ofArguments, named, hvalues, hversion, List.flatMap_singleton, hnames, hspecified,
    List.append_nil]

/-- Arguments with a version, before the names or after them. -/
theorem ofArguments_versioned {version : Text} {value : Expression} (h : IsString version value)
    (hnames : (valuesOf list).filterMap name? = names)
    (hspecified : (valuesOf list).filterMap specified? = []) :
    ofArguments [.parameter extent "ModuleName", .value list,
        .parameter extent' "ModuleVersion", .value value] = names.map (⟨·, some version⟩) ∧
      ofArguments [.parameter extent' "ModuleVersion", .value value,
        .parameter extent "ModuleName", .value list] = names.map (⟨·, some version⟩) := by
  obtain ⟨place, rfl⟩ := h
  constructor
  · have hvalues : valuesFor "modulename" [("ModuleName", list),
        ("ModuleVersion", .string place version .double)] = [list] := rfl
    have hversion : version? [("ModuleName", list),
        ("ModuleVersion", .string place version .double)] = some version := rfl
    simp only [ofArguments, named, hvalues, hversion, List.flatMap_singleton, hnames, hspecified,
      List.append_nil]
  · have hvalues : valuesFor "modulename" [("ModuleVersion", .string place version .double),
        ("ModuleName", list)] = [list] := rfl
    have hversion : version? [("ModuleVersion", .string place version .double),
        ("ModuleName", list)] = some version := rfl
    simp only [ofArguments, named, hvalues, hversion, List.flatMap_singleton, hnames, hspecified,
      List.append_nil]

end Arguments

end Import

namespace Layout

open Piece Grammar Reading Cursor

/-- Joined, the names of a command are the names that it stands for, and no table among them. -/
theorem names_joined (source : Text) {c : ImportCommand} (h : c.IsNamed) {name : Text}
    {more : List Text} (hnames : c.names = name :: more) {first : Expression}
    {values : List Expression} (hfirst : IsString name first)
    (hvalues : List.Forall₂ IsString more values) :
    (Import.valuesOf (values.foldl (joinValues source) first)).filterMap Import.name? = c.names ∧
      (Import.valuesOf (values.foldl (joinValues source) first)).filterMap Import.specified? =
        [] := by
  obtain ⟨extent, rfl⟩ := hfirst
  have hall : List.Forall₂ IsString c.names (.string extent name .double :: values) := by
    rw [hnames]
    exact .cons ⟨extent, rfl⟩ hvalues
  have hbare : ∀ place elements,
      Expression.string extent name .double ≠ .array place true elements := by
    intro place elements heq
    cases heq
  rw [Import.valuesOf_foldl source values hbare]
  exact Import.names_of_isString hall h.named

/-- **The arguments of a command import what the command stands for.** -/
theorem ofArguments_importArguments (source : Text) {c : ImportCommand} (h : c.IsNamed)
    (start : Position) :
    Import.ofArguments (foldArguments source false []
      ((tokens start (importArguments c)).map (plainArgument source))) = c.imports := by
  obtain ⟨name, more, hnames⟩ := List.exists_cons_of_ne_nil h.nonempty
  unfold importArguments ImportCommand.imports
  cases hversion : c.version with
  | none =>
    have hnone : versionArguments c = [] := by rw [versionArguments, hversion]
    obtain ⟨extent, first, values, hfirst, hvalues, hparts⟩ :=
      plainArgument_nameArguments source hnames start
    obtain ⟨hread, hspecified⟩ := names_joined source h hnames hfirst hvalues
    rw [hnone, List.nil_append, List.append_nil, ite_self, hparts, foldArguments_parameter,
      ← List.append_nil (ArgumentPart.value first :: commaValues values),
      foldArguments_commaValues]
    exact Import.ofArguments_unversioned extent hread hspecified
  | some version =>
    split
    · obtain ⟨extent', value, hvalue, hpart⟩ :=
        plainArgument_versionArguments source hversion start
      obtain ⟨extent, first, values, hfirst, hvalues, hparts⟩ :=
        plainArgument_nameArguments source hnames (stop start (versionArguments c))
      obtain ⟨hread, hspecified⟩ := names_joined source h hnames hfirst hvalues
      rw [tokens_append, List.map_append, hpart, hparts,
        ← List.append_nil (ArgumentPart.value first :: commaValues values)]
      refine Eq.trans (congrArg Import.ofArguments ?_)
        (Import.ofArguments_versioned extent extent' hvalue hread hspecified).2
      exact foldArguments_commaValues source
        [.parameter extent "ModuleName", .value value, .parameter extent' "ModuleVersion"]
        first values []
    · obtain ⟨extent, first, values, hfirst, hvalues, hparts⟩ :=
        plainArgument_nameArguments source hnames start
      obtain ⟨extent', value, hvalue, hpart⟩ :=
        plainArgument_versionArguments source hversion (stop start (nameArguments c))
      obtain ⟨hread, hspecified⟩ := names_joined source h hnames hfirst hvalues
      rw [tokens_append, List.map_append, hpart, hparts]
      refine Eq.trans (congrArg Import.ofArguments ?_)
        (Import.ofArguments_versioned extent extent' hvalue hread hspecified).1
      exact foldArguments_commaValues source [.parameter extent "ModuleName"] first values
        [.parameter extent' "ModuleVersion", .value value]

/-! ### Commands are read

A command ends where a later line starts.  The next command is on a later line, so that
the lines are read one after another.
-/

theorem importArguments_eq {c : ImportCommand} (h : c.IsNamed) :
    ∃ name more, importArguments c = gap 1 :: parameter name :: more := by
  have hnames : ∃ more, nameArguments c = gap 1 :: parameter "ModuleName" :: more := by
    obtain ⟨name, more, hnames⟩ := List.exists_cons_of_ne_nil h.nonempty
    exact ⟨_, by rw [nameArguments, hnames]⟩
  obtain ⟨more, hnames⟩ := hnames
  unfold importArguments versionArguments
  rw [hnames]
  cases c.versionFirst with
  | false => exact ⟨_, _, rfl⟩
  | true =>
    cases c.version with
    | none => exact ⟨_, _, rfl⟩
    | some version => exact ⟨_, _, rfl⟩

/-- The arguments of a command are parameters, commas and strings, and spaces between them. -/
theorem mem_importArguments {c : ImportCommand} {p : Piece} (hp : p ∈ importArguments c) :
    isPlainArgument p.kind ∨ ∃ n, p = gap n := by
  have hnames : p ∈ nameArguments c → isPlainArgument p.kind ∨ ∃ n, p = gap n := by
    unfold nameArguments
    cases c.names with
    | nil => exact fun hp => absurd hp List.not_mem_nil
    | cons name more =>
      simp only [moreNames, List.mem_cons, List.mem_flatMap, List.not_mem_nil, or_false]
      rintro (rfl | rfl | rfl | rfl | ⟨_, -, rfl | rfl | rfl | rfl⟩)
      all_goals first | exact Or.inl rfl | exact Or.inr ⟨_, rfl⟩
  have hversion : p ∈ versionArguments c → isPlainArgument p.kind ∨ ∃ n, p = gap n := by
    unfold versionArguments
    cases c.version with
    | none => exact fun hp => absurd hp List.not_mem_nil
    | some version =>
      simp only [List.mem_cons, List.not_mem_nil, or_false]
      rintro (rfl | rfl | rfl | rfl)
      all_goals first | exact Or.inl rfl | exact Or.inr ⟨_, rfl⟩
  unfold importArguments at hp
  split at hp
  · exact (List.mem_append.mp hp).elim hversion hnames
  · exact (List.mem_append.mp hp).elim hnames hversion

theorem isUnbroken_importArguments (c : ImportCommand) : IsUnbroken (importArguments c) := by
  intro p hp
  refine (mem_importArguments hp).imp_left fun hk => ?_
  cases hkind : p.kind <;> rw [hkind] at hk <;> first | rfl | exact absurd hk (by decide)

theorem isPlainArgument_of_mem {c : ImportCommand} {start : Position} {t : Token}
    (ht : t ∈ tokens start (importArguments c)) : isPlainArgument t.kind := by
  obtain ⟨p, hp, hsignificant, hkind⟩ := exists_piece_of_mem_tokens ht
  rw [← hkind]
  refine (mem_importArguments hp).resolve_right ?_
  rintro ⟨n, rfl⟩
  exact absurd hsignificant Bool.false_ne_true

/-- Where the arguments of a command start. -/
def argumentsPlace (start : Position) (c : ImportCommand) : Position :=
  stop start [gap c.margin, word "Import-DscResource"]

theorem tokens_importLine (start : Position) (c : ImportCommand) :
    ∃ head : Token, head.kind = .bareword ∧ head.text = "Import-DscResource".toList ∧
      start.line ≤ head.start.line ∧ head.stop = argumentsPlace start c ∧
      tokens start (importLine c) =
        head :: tokens (argumentsPlace start c) (importArguments c) := by
  refine ⟨⟨.bareword, "Import-DscResource".toList, start.advance (gap c.margin).text⟩, rfl, rfl,
    (line_advance_gap start c.margin).ge, rfl, ?_⟩
  have hend : tokens (stop (argumentsPlace start c) (importArguments c)) [lineEnd] = [] := rfl
  rw [importLine, tokens_cons_skip rfl, tokens_cons rfl, tokens_append]
  change _ :: (tokens (argumentsPlace start c) _ ++
    tokens (stop (argumentsPlace start c) (importArguments c)) [lineEnd]) = _
  rw [hend, List.append_nil]
  rfl

/-- A statement that imports what a command stands for. -/
def ImportsOf (c : ImportCommand) (s : Statement) : Prop :=
  ∃ arguments, Import.arguments? s = some arguments ∧ Import.ofArguments arguments = c.imports

/-- **The line of a command is read as a statement that imports what it stands for**, if the next
statement is on a later line. -/
theorem passes_importLine (source : Text) {c : ImportCommand} (h : c.IsNamed) {start : Position}
    {m : Nat} {consumed rest : List Token}
    (hrest : Ends (stop (argumentsPlace start c) (importArguments c)).line rest) :
    ∃ head more, tokens start (importLine c) = head :: more ∧ head.kind = .bareword ∧
      start.line ≤ head.start.line ∧
      Passes (level source (m + 1)).statement consumed (tokens start (importLine c)) rest
        fun item => ImportsOf c item.statement := by
  obtain ⟨head, hhead, htext, hline, hstop, htokens⟩ := tokens_importLine start c
  refine ⟨head, _, htokens, hhead, hline, ?_⟩
  obtain ⟨name, more, harguments⟩ := importArguments_eq h
  have hchain : List.IsChain (fun before t => t.onLineOf before)
      (head :: tokens (argumentsPlace start c) (importArguments c)) :=
    isChain_tokens (isUnbroken_importArguments c) (congrArg (·.line) hstop).ge
  have hend : entersArgument ⟨(tokens (argumentsPlace start c) (importArguments c)).reverse ++
      (head :: consumed), rest⟩ = false := by
    rcases List.eq_nil_or_concat (tokens (argumentsPlace start c) (importArguments c)) with
      hnone | ⟨front, last, hlast⟩
    · rw [hnone]
      refine entersArgument_ends (hrest.mono ?_)
      rw [hstop]
      exact line_le_stop _ _
    · have hle : last.stop.line ≤ (stop (argumentsPlace start c) (importArguments c)).line := by
        refine stop_line_le (t := last) ?_
        rw [hlast, List.concat_eq_append]
        exact List.mem_append_right front List.mem_cons_self
      rw [hlast, List.concat_eq_append, List.reverse_append]
      exact entersArgument_ends (hrest.mono hle)
  have hcommand : Passes (command source (level source m)) consumed
      (head :: tokens (argumentsPlace start c) (importArguments c)) rest
      fun item => ImportsOf c item.statement := by
    refine (passes_bareCommand (fun t ht => isPlainArgument_of_mem ht) hchain hrest.meets
      hend).mono ?_
    rintro item ⟨extent, hitem⟩
    rw [hitem]
    refine ⟨_, ?_, ofArguments_importArguments source h (argumentsPlace start c)⟩
    have hname : Import.isImportName head.text = true := by
      rw [htext]
      rfl
    simp only [Import.arguments?, hname, if_true]
  rw [htokens]
  rw [harguments, tokens_cons_skip rfl, tokens_cons rfl] at hcommand ⊢
  refine passes_statement_word hhead (passes_wordStatement_command hhead ?_ hcommand)
  intro hequals
  cases hequals

/-- Statements that import what commands stand for, one by one. -/
def AreImports (commands : List ImportCommand) (read : List Item) : Prop :=
  List.Forall₂ (fun c item => ImportsOf c item.statement) commands read

theorem stop_importLine_line (start : Position) (c : ImportCommand) :
    (stop (argumentsPlace start c) (importArguments c)).line <
      (stop start (importLine c)).line := by
  have hstop : stop start (importLine c) =
      (stop (argumentsPlace start c) (importArguments c)).advance ['\n'] := by
    rw [importLine, stop, stop, stop_append]
    rfl
  rw [hstop]
  exact Position.line_lt_advance _ List.mem_cons_self

/-- The lines of commands are read as statements that import what they stand for. -/
theorem passes_importLines (source : Text) {commands : List ImportCommand}
    (h : ∀ c ∈ commands, c.IsNamed) {start : Position} {m : Nat} {consumed rest : List Token}
    (hrest : Meets rest (· == .braceClose)) :
    PassesItems (level source (m + 1)) (· == .semicolon) consumed
      (tokens start (importLines commands)) rest (AreImports commands) := by
  induction commands generalizing start consumed with
  | nil =>
    refine PassesItems.stop (hrest.mono ?_) .nil
    intro kind hk
    rw [beq_iff_eq.mp hk]
    rfl
  | cons c commands ih =>
    obtain ⟨hc, hcommands⟩ := List.forall_mem_cons.mp h
    have hends : Ends (stop (argumentsPlace start c) (importArguments c)).line
        (tokens (stop start (importLine c)) (importLines commands) ++ rest) := by
      intro t ht
      cases commands with
      | nil => exact Or.inr (Or.inl (beq_iff_eq.mp (hrest t ht)))
      | cons d commands =>
        obtain ⟨head, hhead, -, hline, -, htokens⟩ :=
          tokens_importLine (stop start (importLine c)) d
        rw [importLines, List.flatMap_cons, tokens_append, htokens] at ht
        cases ht
        refine Or.inr (Or.inr ⟨by rw [hhead]; rfl, ?_⟩)
        exact Nat.lt_of_lt_of_le (stop_importLine_line start c) hline
    obtain ⟨head, more, htokens, hhead, -, hpasses⟩ :=
      @passes_importLine source c hc start m consumed _ hends
    rw [importLines, List.flatMap_cons, tokens_append, ← importLines]
    rw [htokens] at hpasses ⊢
    refine PassesItems.step (by rw [hhead]; rfl) (by rw [hhead]; rfl) hpasses ?_
    intro item hitem
    exact (ih hcommands).mono fun read hread => .cons hitem hread

/-! ### The configuration -/

/-- What stands before the imports of a configuration. -/
def importingOpening (name : Text) : List Piece :=
  [word "Configuration", gap 1, word name, lineEnd, braceOpen, lineEnd]

/-- A configuration with nothing but imports in it. -/
def importing (name : Text) (commands : List ImportCommand) : List Piece :=
  importingOpening name ++ (importLines commands ++ [braceClose, lineEnd])

theorem textOf_importing (name : Text) {commands : List ImportCommand}
    (h : ∀ c ∈ commands, c.IsNamed) :
    textOf (importing name commands) = Configuration.importing name commands := by
  have hhead : "Configuration ".toList = (word "Configuration").text ++ (gap 1).text := by decide
  have hopening : textOf (importingOpening name) =
      "Configuration ".toList ++ (name ++ "\n\x7b\n".toList) := by
    have hbrace : textOf [lineEnd, braceOpen, lineEnd] = "\n\x7b\n".toList := by decide
    rw [importingOpening, textOf_cons, textOf_cons, textOf_cons, hbrace, hhead, List.append_assoc]
    rfl
  have hclosing : textOf [braceClose, lineEnd] = "\x7d\n".toList := by decide
  rw [importing, textOf_append, textOf_append, hopening, hclosing, textOf_importLines h]
  unfold Configuration.importing
  rw [List.append_assoc, List.append_assoc, List.append_assoc, List.append_assoc,
    List.append_assoc]

theorem spells_importing {kind : TokenKind} {name : Text} (hname : Token.IsWord kind name)
    (commands : List ImportCommand) : Spells (importing name commands) [] := by
  have hconfiguration : Token.IsWord .configuration "Configuration" := ⟨rfl, rfl⟩
  rw [importing, spells_append, spells_append]
  exact ⟨⟨Or.inr (isNext_word hconfiguration (Text.Delimits.space _)), Or.inl (isGap_gap 1),
    Or.inr (isNext_word hname (Text.Delimits.lineFeed _)), Or.inl isGap_lineEnd,
    Or.inr (Token.next?_braceOpen _), Or.inl isGap_lineEnd, trivial⟩,
    spells_importLines commands _, Or.inr (Token.next?_braceClose _), Or.inl isGap_lineEnd, trivial⟩

theorem tokens_importing {kind : TokenKind} {name : Text} (hname : Token.IsWord kind name)
    (commands : List ImportCommand) :
    ∃ head title opener closer : Token, head.kind = .configuration ∧ title.kind = kind ∧
      opener.kind = .braceOpen ∧ closer.kind = .braceClose ∧
      tokens .start (importing name commands) = head :: title :: opener ::
        (tokens (stop .start (importingOpening name)) (importLines commands) ++ [closer]) := by
  obtain ⟨closer, hcloser, hclosing⟩ : ∃ closer : Token, closer.kind = .braceClose ∧
      tokens (stop (stop .start (importingOpening name)) (importLines commands))
        [braceClose, lineEnd] = [closer] := ⟨_, rfl, rfl⟩
  have htitle := isSignificant_word hname
  rw [importing, tokens_append, tokens_append, hclosing, importingOpening, tokens_cons rfl,
    tokens_cons_skip rfl, tokens_cons htitle, word_eq hname]
  exact ⟨_, _, _, closer, rfl, rfl, rfl, hcloser, rfl⟩

end Layout

namespace Import

open Grammar Layout Reading Cursor

theorem ofStatements_of_areImports {commands : List ImportCommand} {read : List Item}
    (h : AreImports commands read) :
    ofStatements (read.map (·.statement)) = commands.flatMap ImportCommand.imports := by
  unfold ofStatements
  induction h with
  | nil => rfl
  | @cons c item commands read hitem _ ih =>
    obtain ⟨arguments, harguments, himports⟩ := hitem
    rw [List.map_cons, List.filterMap_cons_some harguments, List.flatMap_cons, himports, ih,
      List.flatMap_cons]

/-- **Imports that are written are read back.**  A configuration with nothing but imports in it is
accepted, and the imports of its body are, one for each name and in order, those that its commands
stand for, each with the version of its own command. -/
theorem ofStatements_importing {kind : TokenKind} {name : Text} (hname : Token.IsWord kind name)
    {commands : List ImportCommand} (h : ∀ c ∈ commands, c.IsNamed) :
    ∃ script extent title body,
      Script.parse (Configuration.importing name commands) = .ok script ∧
        script.statements = [.configuration extent title body] ∧
        ofStatements body = commands.flatMap ImportCommand.imports := by
  obtain ⟨head, title, opener, closer, hhead, htitle, hopener, hcloser, htokens⟩ :=
    tokens_importing hname commands
  have hkind : title.kind.isName := by
    rw [htitle]
    exact hname.1
  obtain ⟨lines, hlines⟩ : ∃ lines, Piece.tokens (Piece.stop .start (importingOpening name))
      (importLines commands) = lines := ⟨_, rfl⟩
  generalize hsource : Piece.textOf (importing name commands) = source
  have himports : PassesItems (level source (lines.length + 3)) (· == .semicolon)
      [opener, title, head] lines [closer] (AreImports commands) := by
    rw [← hlines]
    exact passes_importLines source h (Meets.cons (by rw [hcloser]; rfl))
  have hconfiguration : Passes (level source (lines.length + 4)).statement []
      (head :: title :: opener :: (lines ++ [closer])) [] _ :=
    passes_configuration hhead hkind hopener hcloser himports
  rw [hlines] at htokens
  have hlength : (Piece.tokens .start (importing name commands)).length = lines.length + 4 := by
    rw [htokens]
    simp
  have hall : PassesItems (level source (lines.length + 4)) (· == .semicolon) []
      (head :: title :: opener :: (lines ++ [closer])) [] _ :=
    PassesItems.one (by rw [hhead]; rfl) (by rw [hhead]; rfl) hconfiguration Meets.nil
  rw [← hlength, ← htokens] at hall
  obtain ⟨_, hscript, _, rfl, extent, text, body, hbody, rfl⟩ := script_of_passesItems hall
  rw [← hsource] at hscript
  have hparse := parse_textOf (spells_importing hname commands) hscript
  rw [textOf_importing name h] at hparse
  exact ⟨_, extent, text, body.map (·.statement), hparse, rfl, ofStatements_of_areImports hbody⟩

/-- Names with a line break, a quote and a dollar sign in them, a version in front of its names, and
names without a version. -/
def siteImports : List ImportCommand :=
  [⟨["Net\nworking", "say\"$x"], some "8.2.0", false, 4, 0, 1⟩,
    ⟨["Storage"], some "", true, 4, 0, 1⟩, ⟨["A", "B", "C"], none, false, 0, 2, 0⟩]

theorem ofStatements_importing_site :
    Token.IsWord .bareword "Site" ∧ (∀ c ∈ siteImports, c.IsNamed) ∧
      ∃ script extent title body,
        Script.parse (Configuration.importing "Site" siteImports) = .ok script ∧
          script.statements = [.configuration extent title body] ∧
          ofStatements body = [⟨"Net\nworking", some "8.2.0"⟩, ⟨"say\"$x", some "8.2.0"⟩,
            ⟨"Storage", some ""⟩, ⟨"A", none⟩, ⟨"B", none⟩, ⟨"C", none⟩] := by
  have hname : Token.IsWord .bareword "Site" := ⟨rfl, rfl⟩
  have hnamed : ∀ c ∈ siteImports, c.IsNamed := by
    have hall : ∀ c ∈ siteImports, c.names ≠ [] ∧ ∀ name ∈ c.names, name ≠ [] := by decide
    exact fun c hc => ⟨(hall c hc).1, (hall c hc).2⟩
  exact ⟨hname, hnamed, ofStatements_importing hname hnamed⟩

end Import

end DesiredState

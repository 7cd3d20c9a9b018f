/-
Strings that are written without quotes.

A string in quotes is data, whatever it says.  A string that starts like a variable or
constructs an object goes out as it stands, and is read as script: `$x; Ports = 1` is a
variable and another property.  So of such strings it has to be known that they are one
value behind an equals sign and nothing more.  Then they are one value in every line of
a configuration, and what is read has the instances, the blocks and the keys that were
written.
-/
import DesiredState.Proofs.Conversion.Values
import DesiredState.Proofs.RoundTrip
import DesiredState.Proofs.Script.Entries

namespace DesiredState

/-! ### Statements that give no blocks

A text without quotes may be any expression.  What it is bound to need not be known, as
long as it is no block and so has no keys.
-/

/-- Whether a term is bound to blocks: it is one of a class, or an array that starts with one. -/
def Term.givesBlocks : Term → Bool
  | .expression (.array _ _ elements) => elements.head?.any Term.isClassBlock
  | t => t.isClassBlock

/-- Whether a statement is bound to blocks. -/
def Statement.givesBlocks (s : Statement) : Bool := s.term?.any Term.givesBlocks

section

variable (m : Relabelling)

theorem Term.isClassBlock_relabel (t : Term) : (t.relabel m).isClassBlock = t.isClassBlock := by
  cases t with
  | block b =>
    simp only [Term.relabel, Term.isClassBlock, Block.relabel_eq]
    cases b.instanceName <;> rfl
  | _ => rfl

theorem Term.givesBlocks_relabel (t : Term) : (t.relabel m).givesBlocks = t.givesBlocks := by
  cases t with
  | expression e =>
    cases e with
    | array extent bracketed elements =>
      cases elements with
      | nil => rfl
      | cons first rest => exact first.isClassBlock_relabel m
    | _ => rfl
  | command c => rfl
  | block b => exact Term.isClassBlock_relabel m (.block b)

theorem Statement.givesBlocks_relabel (s : Statement) :
    (s.relabel m).givesBlocks = s.givesBlocks := by
  cases s with
  | block b => exact Term.givesBlocks_relabel m (.block b)
  | pipeline extent elements =>
    cases elements with
    | nil => rfl
    | cons first rest =>
      cases rest with
      | nil => exact first.givesBlocks_relabel m
      | cons second rest => rfl
  | _ => rfl

end

/-- What denotes a value without blocks is not bound to blocks. -/
theorem Value.Stated.givesBlocks {x : Value} {s : Statement} (h : x.Stated s) :
    s.givesBlocks = false := by
  obtain ⟨extent, e, rfl, he⟩ := h
  have harray {terms : List Term} (hatoms : ∀ t ∈ terms, t.isAtom) :
      terms.head?.any Term.isClassBlock = false := by
    cases terms with
    | nil => rfl
    | cons t more => exact Binding.isClassBlock_of_isAtom (hatoms t List.mem_cons_self)
  cases x with
  | string t =>
    obtain ⟨_, rfl⟩ := he
    rfl
  | integer x =>
    obtain ⟨_, rfl, -⟩ := he
    rfl
  | boolean value =>
    obtain ⟨_, _, rfl, -⟩ := he
    rfl
  | stringArray texts =>
    obtain ⟨_, terms, rfl, hatoms, -⟩ := he
    exact harray hatoms
  | integerArray numbers =>
    obtain ⟨_, terms, rfl, hatoms, -⟩ := he
    exact harray hatoms
  | _ => exact he.elim

namespace Binding

open Interpreting

variable {lookup : DeclLookup} {scope : ImportScope} {c : Context}

theorem yields_flatTerm (subject : Subject) {expected : DeclaredType}
    (htype : ∀ name, expected ≠ .subObjectArray name) {t : Term} (ht : t.givesBlocks = false) :
    Yields lookup scope (term c subject expected t) fun x => x.isFlat := by
  have hliteral (t : Term) : Yields lookup scope (literal subject expected t) fun x => x.isFlat :=
    (yields_plain subject expected t).mono fun _ h => h.1
  match t with
  | .command command => exact hliteral _
  | .block ⟨extent, keyword, place, none, body⟩ => exact absurd ht Bool.noConfusion
  | .block ⟨extent, keyword, place, some name, body⟩ =>
    rw [term]
    exact Gives.pure rfl
  | .expression (.array extent bracketed elements) =>
    have hhead : elements.head?.any Term.isClassBlock = false := ht
    rw [term]
    · simp only [hhead, Bool.false_eq_true, if_false]
      exact Gives.bind (yields_reportSkipped subject _) fun _ _ => hliteral _
    · exact fun name _ hname => htype name hname
  | .expression (.string ..) | .expression (.number ..) | .expression (.variable _)
  | .expression (.member ..) | .expression (.table _) | .expression (.scriptBlock _)
  | .expression (.unrecognized _) => exact hliteral _

/-- A statement that gives no blocks is bound to a value without blocks. -/
theorem yields_flat (subject : Subject) {expected : DeclaredType}
    (htype : ∀ name, expected ≠ .subObjectArray name) {s : Statement} (hs : s.givesBlocks = false) :
    Yields lookup scope (statement c subject expected s) fun x => x.isFlat := by
  have hraw {text : Text} : Yields lookup scope (pure (Value.raw text)) fun x => x.isFlat :=
    Gives.pure rfl
  cases s with
  | block b =>
    obtain ⟨extent, keyword, place, name, body⟩ := b
    cases name with
    | none => exact absurd hs Bool.noConfusion
    | some name =>
      rw [statement]
      exact hraw
  | pipeline extent elements =>
    cases elements with
    | nil => exact hraw
    | cons first rest =>
      cases rest with
      | nil =>
        rw [statement]
        exact yields_flatTerm subject htype hs
      | cons second rest => exact hraw
  | _ => exact hraw

/-- Whatever they are bound to, with values without blocks left out it is the same. -/
theorem bindsLeaves_givesBlocks (owner : Text) (leaf : Value → Prop) (hidden : Value) :
    BindsLeaves lookup scope (fun _ => True) owner leaf (fun _ s => s.givesBlocks = false)
      fun _ => hidden := by
  intro subject type x s hflat _ htakes hs
  have htype : ∀ name, type ≠ .subObjectArray name := by
    rintro name rfl
    cases x <;> first | exact absurd hflat Bool.false_ne_true | exact absurd htakes Bool.false_ne_true
  refine (yields_flat subject htype hs).mono fun y hy => ?_
  rw [Value.mapLeaves_of_isFlat hy, Value.mapLeaves_of_isFlat hflat]

end Binding

/-! ### Texts that are one value

That a text stays where it is written can be tested on the text alone, behind an equals
sign in a script of its own.  The text may not leave a comment open there, since in the
script around it there may be something to close it.
-/

/-- The value of a script that assigns one and does nothing else. -/
def Script.assigned? (script : Script) : Option Statement :=
  match script.statements with
  | [.assignment _ _ value] => some value
  | _ => none

/-- Whether a text is, behind an equals sign, one value and nothing else, and not bound to blocks. -/
def Text.isOneValue (t : Text) : Bool :=
  ((Script.parse ("A = ".toList ++ t)).toOption.bind Script.assigned?).any fun value =>
    value.extent.text == t && !value.givesBlocks

/-- A text that stays where it is written: it is one value and leaves no comment open. -/
structure Text.IsInert (t : Text) : Prop where
  isOneValue : t.isOneValue
  closesComments : t.ClosesComments

/-- The value that a script assigns is stated by its text, if this closes the block comments that it
opens. -/
theorem Script.states_of_assigned? {source : Text} {script : Script}
    (hparse : parse source = .ok script) {value : Statement}
    (hassigned : script.assigned? = some value) (hclosed : value.extent.text.ClosesComments) :
    value.extent.text.States value := by
  obtain ⟨hunknowns, items, hitems, rfl⟩ := parse_eq_ok_iff.mp hparse
  obtain ⟨pieces, rfl, hlexes, hplace⟩ := Token.exists_pieces hunknowns
  rw [hplace] at hitems
  obtain ⟨extent, target, hone⟩ : ∃ extent target,
      items.map (·.statement) = [.assignment extent target value] := by
    unfold assigned? at hassigned
    split at hassigned
    · next extent target found hfound =>
      obtain rfl := Option.some.inj hassigned
      exact ⟨extent, target, hfound⟩
    · cases hassigned
  obtain ⟨item, hitem, hstatement⟩ := List.mem_map.mp (hone ▸ List.mem_singleton_self _)
  have hamong := (Grammar.readAmong_of_script hitems hitem).assignment hstatement
  exact Piece.states_of_valueAmong hlexes hamong fun _ => hclosed

/-- A text that is inert states a value, which is not bound to blocks. -/
theorem Text.IsInert.states {t : Text} (h : t.IsInert) :
    ∃ s, t.States s ∧ s.givesBlocks = false := by
  have hone := h.isOneValue
  unfold Text.isOneValue at hone
  cases hparse : Script.parse ("A = ".toList ++ t) with
  | error e =>
    rw [hparse] at hone
    cases hone
  | ok script =>
    rw [hparse, Except.toOption, Option.bind_some] at hone
    obtain ⟨value, hassigned, hvalue⟩ := (Option.any_eq_true _ _).mp hone
    obtain ⟨htext, hblocks⟩ := Bool.and_eq_true_iff.mp hvalue
    obtain rfl : value.extent.text = t := beq_iff_eq.mp htext
    refine ⟨value, Script.states_of_assigned? hparse hassigned h.closesComments, ?_⟩
    simpa using hblocks

/-! ### Data

Quotes keep everything, so that only strings that go out without them have to be looked
at.  All other data is written like a literal.
-/

/-- Values without blocks that are data: any strings, truth values and safe integers. -/
def Value.IsData : Value → Prop
  | .string _ | .boolean _ | .stringArray _ => True
  | .integer x => x.toSafeInt?.isSome
  | .integerArray numbers => ∀ x ∈ numbers, (Binary64.toSafeInt? x).isSome
  | _ => False

/-- A value of which all strings are written in quotes. -/
def Value.IsQuoted : Value → Prop
  | .string t => t.IsPlain
  | .stringArray texts => ∀ t ∈ texts, Text.IsPlain t
  | _ => True

/-- Data that is written in quotes, or else as a text that is inert. -/
structure Value.IsContained (x : Value) : Prop where
  isData : x.IsData
  contained : x.IsQuoted ∨ (Layout.flatText x).IsInert

/-- A safe integer is written like the one that its value is converted to. -/
theorem Binary64.toText_of_isSafe {x : Binary64} (h : x.toSafeInt?.isSome) :
    ∃ y : Binary64, y.IsSafe ∧ y.toText = x.toText := by
  obtain ⟨n, hn⟩ := Option.isSome_iff_exists.mp h
  have hsafe : n.natAbs ≤ maxSafe := by
    unfold toSafeInt? at hn
    exact of_decide_eq_true (Option.filter_eq_some_iff.mp hn).2
  refine ⟨ofInt n, ⟨n, hsafe, rfl⟩, ?_⟩
  unfold toText
  rw [toSafeInt?_ofInt hsafe, hn]

/-- An instance of a resource of a catalog: its properties are declared, and their values are of
the declared kinds; `leaf` says which values without blocks there may be. -/
structure Instance.IsMadeOf (leaf : Value → Prop) (catalog : Catalog) (o : ReadOptions)
    (i : Instance) : Prop where
  resourceName : Token.IsWord .bareword i.resourceName
  instanceName : Text.startsWith i.instanceName ['$'] = false
  keys : AreKeys i.properties.names
  declared : Layout.IsDeclaredBy leaf catalog.find? ⟨[], o.versionRule⟩ i.resourceName i.properties

/-- An instance with its values left out: the names and the keys, at every depth. -/
def Instance.outline (i : Instance) : Instance := i.mapLeaves fun _ => .raw []

namespace Layout

theorem hasIntegers_of_isContained {x : Value} (h : x.IsContained) : HasIntegers x := by
  have hdata := h.isData
  cases x with
  | integer x => exact Binary64.isInteger_of_isSafe hdata
  | integerArray numbers => exact fun x hx => Binary64.isInteger_of_isSafe (hdata x hx)
  | _ => trivial

/-- Data in quotes is written like a literal. -/
theorem exists_literal {x : Value} (h : x.IsData) (hquoted : x.IsQuoted) :
    ∃ y : Value, y.IsLiteral ∧ flatText y = flatText x := by
  cases x with
  | string t => exact ⟨.string t, hquoted, rfl⟩
  | integer x =>
    obtain ⟨y, hy, htext⟩ := Binary64.toText_of_isSafe h
    exact ⟨.integer y, hy, htext⟩
  | boolean value => exact ⟨.boolean value, trivial, rfl⟩
  | stringArray texts => exact ⟨.stringArray texts, hquoted, rfl⟩
  | integerArray numbers =>
    have hnumbers : ∃ safe : List Binary64, (∀ y ∈ safe, y.IsSafe) ∧
        safe.map Binary64.toText = numbers.map Binary64.toText := by
      induction numbers with
      | nil => exact ⟨[], fun _ hy => absurd hy List.not_mem_nil, rfl⟩
      | cons x numbers ih =>
        obtain ⟨y, hy, htext⟩ := Binary64.toText_of_isSafe (h x List.mem_cons_self)
        obtain ⟨safe, hsafe, htexts⟩ :=
          ih (fun z hz => h z (List.mem_cons_of_mem x hz)) trivial
        refine ⟨y :: safe, fun z hz => ?_, by rw [List.map_cons, htext, htexts, List.map_cons]⟩
        rcases List.mem_cons.mp hz with rfl | hz
        · exact hy
        · exact hsafe z hz
    obtain ⟨safe, hsafe, htexts⟩ := hnumbers
    exact ⟨.integerArray safe, hsafe, congrArg arrayText htexts⟩
  | _ => exact h.elim

theorem endsBefore_of_isContained {x : Value} (h : x.IsContained) : EndsBefore '\n' x := by
  rcases h.contained with hquoted | hinert
  · obtain ⟨y, hy, htext⟩ := exists_literal h.isData hquoted
    unfold EndsBefore
    rw [← htext]
    exact endsBefore_literal hy (by decide)
  · obtain ⟨s, hstates, -⟩ := hinert.states
    exact fun rest => hstates.lexes (.lineFeed rest)

/-- **Data is read as one value without blocks**, whatever its strings say. -/
theorem isFlatRead_of_isContained {x : Value} (h : x.IsContained) :
    IsFlatRead (fun _ s => s.givesBlocks = false) False x := by
  intro source start m consumed rest hstands hconsumed hm hends
  rcases h.contained with hquoted | hinert
  · obtain ⟨y, hy, htext⟩ := exists_literal h.isData hquoted
    have hread : IsFlatRead Value.Stated False y := isFlatRead_literal hy
    rw [← htext] at hstands hm hends ⊢
    refine (hread source start m consumed rest hstands hconsumed hm hends).mono fun v hv => ?_
    exact ⟨hv.1.givesBlocks, hv.2⟩
  · obtain ⟨s, hstates, hs⟩ := hinert.states
    refine (hstates.passes hstands hm hends).mono fun v hv => ⟨?_, False.elim⟩
    show v.node.givesBlocks = false
    rw [← Statement.givesBlocks_relabel .bare, hv.2, Statement.givesBlocks_relabel, hs]

end Layout

namespace Configuration

/-- **What strings say stays data.**  Where strings that are written without quotes are inert and no
property is called by the name of a parent, instances are written to a text that is parsed, and the
script is built to instances with the same names and the same keys, at every depth, in the order of
the keys. -/
theorem build_write_outline (catalog : Catalog) {o : ReadOptions} (ho : o.recordsTypes = true)
    (n : Nat) {instances : List Instance}
    (h : ∀ i ∈ instances, i.IsMadeOf Value.IsContained catalog o)
    (hkept : ∀ i ∈ instances, i.kept = i) :
    ∃ text script built, write (.whole n) instances = .ok text ∧
      Script.parse (wrapped text) = .ok script ∧
      Build.ofStatements o catalog.find? script.statements = .ok built ∧
      built.instances.map Instance.outline = instances.map fun i => i.sorted.outline := by
  have hcarried : ∀ i ∈ instances, Layout.IsCarried Value.IsContained (fun _ => []) i := by
    intro i hi
    obtain ⟨schema, -, hfields⟩ := (h i hi).declared
    exact Layout.isCarried_of_areKeys (h i hi).resourceName (h i hi).instanceName (h i hi).keys
      hfields.isShaped
  have hfits : ∀ i ∈ instances, Layout.IsDeclaredBy Value.IsContained catalog.find?
      ⟨[], o.versionRule⟩ i.resourceName (Layout.plain i.properties) := by
    intro i hi
    rw [Layout.plain_eq_self (h i hi).keys]
    exact (h i hi).declared
  obtain ⟨text, script, built, -, hwrite, hparse, hbuilt, hview, -⟩ :=
    Layout.built_of_write (n := n) catalog.find?_ignoresCase ho
      (fun _ hx => Layout.hasIntegers_of_isContained hx)
      (fun _ hx => Layout.endsBefore_of_isContained hx)
      (fun _ hx => Layout.isFlatRead_of_isContained hx)
      (fun owner => Binding.bindsLeaves_givesBlocks owner Value.IsContained (.raw []))
      hcarried hfits
  refine ⟨text, script, built, hwrite, hparse, hbuilt, hview.trans ?_⟩
  refine List.map_congr_left fun i hi => ?_
  rw [Layout.kept_laidOut (hkept i hi), Layout.laidOut_of_areKeys (h i hi).keys]
  rfl

/-- An instance with a string that starts like a variable and goes on with a property. -/
def unquotedInstance : Instance where
  resourceName := "Site"
  instanceName := "f"
  properties := [("Contents".toList, .string "$x; Ports = 1")]

theorem isMadeOf_unquotedInstance :
    unquotedInstance.IsMadeOf Value.IsData [.sample] .lenient where
  resourceName := by decide +kernel
  instanceName := by decide
  keys := by
    refine ⟨fun name hname => ?_, List.pairwise_singleton _ _⟩
    obtain rfl : name = "Contents" := List.mem_singleton.mp hname
    exact ⟨⟨.bareword, by decide +kernel⟩, by decide +kernel, by decide +kernel⟩
  declared := ⟨.ofDecl .sample, by decide +kernel, ⟨_, rfl, rfl, trivial⟩, trivial⟩

/-- A string that is written without quotes can add a property to the block it is written in. -/
theorem build_write_outline_variable :
    ¬ ∀ (catalog : Catalog) (instances : List Instance),
      (∀ i ∈ instances, i.IsMadeOf Value.IsData catalog .lenient) →
      ∃ text script built, write (.whole 2) instances = .ok text ∧
        Script.parse (wrapped text) = .ok script ∧
        Build.ofStatements .lenient catalog.find? script.statements = .ok built ∧
        built.instances.map Instance.outline = instances.map fun i => i.sorted.outline := by
  intro h
  obtain ⟨text, script, built, hwrite, hparse, hbuilt, houtline⟩ := h [.sample] [unquotedInstance]
    fun i hi => List.mem_singleton.mp hi ▸ isMadeOf_unquotedInstance
  have hnames : ((write (.whole 2) [unquotedInstance]).toOption.bind fun text =>
      (Script.parse (wrapped text)).toOption.bind fun script =>
        (Build.ofStatements .lenient (Catalog.find? [.sample]) script.statements).toOption.map
          fun built => built.instances.map fun i => i.outline.properties.names) =
        some [["Contents".toList, "Ports".toList]] := by
    decide +kernel
  have hsame : built.instances.map (fun i => i.outline.properties.names) =
      [["Contents".toList]] := by
    have hmapped := congrArg (List.map fun i : Instance => i.properties.names) houtline
    rw [List.map_map] at hmapped
    exact hmapped
  simp only [hwrite, hparse, hbuilt, Except.toOption, Option.bind_some, Option.map_some,
    hsame] at hnames
  exact absurd hnames (by decide)

/-- An instance with a variable, and with a string that would close blocks and open a comment if it
were not in quotes. -/
def containedInstance : Instance where
  resourceName := "Site"
  instanceName := "the \"first\""
  properties := [
    ("Contents".toList, .string "$Node.Path"),
    ("Owner".toList, .subObject ⟨some "Person".toList, [
      ("Title".toList, .string "a\" \x7d\x7d Ports = 1; <# $(b)`")]⟩)]

theorem isMadeOf_containedInstance :
    containedInstance.IsMadeOf Value.IsContained [.sample] .lenient where
  resourceName := by decide +kernel
  instanceName := by decide
  keys := by
    refine ⟨fun name hname => ?_, by decide +kernel⟩
    have hmem : name ∈ ["Contents".toList, "Owner".toList] := hname
    simp only [List.mem_cons, List.not_mem_nil, or_false] at hmem
    obtain rfl | rfl := hmem <;>
      exact ⟨⟨.bareword, by decide +kernel⟩, by decide +kernel, by decide +kernel⟩
  declared := by
    have hvariable : Value.IsContained (.string "$Node.Path") :=
      ⟨trivial, .inr ⟨by decide +kernel, Text.closesComments_of_not_infix (by decide +kernel)⟩⟩
    have hquoted : Value.IsContained (.string "a\" \x7d\x7d Ports = 1; <# $(b)`") :=
      ⟨trivial, .inl (show Text.IsPlain _ from ⟨by decide +kernel, by decide +kernel⟩)⟩
    have hkeys : AreKeys (Fields.names
        [("Title".toList, Value.string "a\" \x7d\x7d Ports = 1; <# $(b)`")]) := by
      refine ⟨fun name hname => ?_, List.pairwise_singleton _ _⟩
      obtain rfl : name = "Title" := List.mem_singleton.mp hname
      exact ⟨⟨.bareword, by decide +kernel⟩, by decide +kernel, by decide +kernel⟩
    refine ⟨.ofDecl .sample, by decide +kernel, ⟨_, rfl, rfl, hvariable⟩, ⟨_, rfl, rfl, ?_⟩, trivial⟩
    exact ⟨⟨"Person", [⟨"Title", .string, false, []⟩]⟩, rfl, by decide +kernel, rfl, hkeys,
      ⟨_, rfl, rfl, hquoted⟩, trivial⟩

theorem build_write_outline_contained :
    containedInstance.IsMadeOf Value.IsContained [.sample] .lenient ∧
      ∃ text script built, write (.whole 2) [containedInstance] = .ok text ∧
        Script.parse (wrapped text) = .ok script ∧
        Build.ofStatements .lenient (Catalog.find? [.sample]) script.statements = .ok built ∧
        built.instances.map Instance.outline = [containedInstance.sorted.outline] :=
  ⟨isMadeOf_containedInstance, build_write_outline [.sample] rfl 2
    (fun _ hi => List.mem_singleton.mp hi ▸ isMadeOf_containedInstance)
    fun _ hi => List.mem_singleton.mp hi ▸ rfl⟩

end Configuration

end DesiredState

/-
No element of an array is lost in silence.

The first element of an array says which of two shapes the array has: blocks of a class, or
anything else, and blocks with a name of their own are anything else.  The elements of that shape
are read, in their order and every one of them, and of the others one report tells the number.  So
what is read and what is reported add up to what was written, whatever the blocks among the
elements go on to report about themselves.
-/
import DesiredState.Proofs.Value.Literals

namespace DesiredState

/-! ### Work on one item after another -/

namespace Interpreting

variable {α β : Type}

/-- The session after work on items, one after another. -/
def afterEach (work : α → Interpreting β) (items : List α) (s : Session) : Session :=
  items.foldl (fun before item => (work item before).2) s

theorem afterEach_cons (work : α → Interpreting β) (item : α) (rest : List α) (s : Session) :
    afterEach work (item :: rest) s = afterEach work rest (work item s).2 := rfl

/-- The results are those of the items, each read where the work on the items before it has
ended. -/
theorem mapM_run (work : α → Interpreting β) (items : List α) (s : Session) :
    ∃ results, items.mapM work s = (results, afterEach work items s) ∧
      results.length = items.length ∧
      ∀ i, results[i]? = items[i]?.map fun item =>
        (work item (afterEach work (items.take i) s)).1 := by
  induction items generalizing s with
  | nil => exact ⟨[], rfl, rfl, fun i => rfl⟩
  | cons item rest ih =>
    obtain ⟨results, hrun, hlength, heach⟩ := ih (work item s).2
    refine ⟨(work item s).1 :: results, ?_, congrArg Nat.succ hlength, fun i => ?_⟩
    · rw [List.mapM_cons, afterEach_cons]
      change ((work item s).1 :: (rest.mapM work (work item s).2).1,
        (rest.mapM work (work item s).2).2) = _
      rw [hrun]
    · cases i with
      | zero => rfl
      | succ i => exact heach i

end Interpreting

/-! ### The shapes of elements

Blocks with a name are no blocks of a class, and count among the other elements.  So
there are two shapes, and each element has one.
-/

/-- The block that a term is, if it is one of a class. -/
def Term.classBlock? : Term → Option Block
  | .block b => if b.instanceName.isNone then some b else none
  | _ => none

theorem Term.isSome_classBlock? (t : Term) : t.classBlock?.isSome = t.isClassBlock := by
  cases t with
  | block b =>
    dsimp only [classBlock?, isClassBlock]
    cases b.instanceName <;> rfl
  | _ => rfl

/-- Blocks of a class and the elements of the other shape are all the elements. -/
theorem Term.length_shapes (elements : List Term) :
    (elements.filterMap classBlock?).length + (elements.filter fun e => !e.isClassBlock).length =
      elements.length := by
  rw [List.length_filterMap_eq_countP, funext isSome_classBlock?, List.countP_eq_length_filter,
    ← List.length_eq_length_filter_add]

/-- How many elements the value of an array has. -/
def Value.count? : Value → Option Nat
  | .stringArray texts => some texts.length
  | .integerArray numbers => some numbers.length
  | .subObjectArray blocks => some blocks.length
  | _ => none

theorem length_of_mapM {f : α → Option β} {list : List α} {results : List β}
    (h : list.mapM f = some results) : results.length = list.length := by
  induction list generalizing results with
  | nil =>
    obtain rfl : [] = results := Option.some.inj h
    rfl
  | cons a rest ih =>
    rw [List.mapM_cons] at h
    obtain ⟨first, -, h⟩ := Option.bind_eq_some_iff.mp h
    obtain ⟨more, hmore, h⟩ := Option.bind_eq_some_iff.mp h
    obtain rfl : first :: more = results := Option.some.inj h
    exact congrArg Nat.succ (ih hmore)

/-- An array that is read as an array keeps all its elements. -/
theorem Coercion.count_of_array (expected : DeclaredType) (extent : Extent) (bracketed : Bool)
    (elements : List Term) {n : Nat}
    (h : (of expected (.expression (.array extent bracketed elements))).value.count? = some n) :
    n = elements.length := by
  change (ofStatic expected _).value.count? = some n at h
  cases expected with
  | string | integer | boolean => cases h
  | stringArray | subObject | subObjectArray | other =>
    rw [← Option.some.inj h]
    exact List.length_map ..
  | integerArray =>
    unfold ofStatic toIntegers at h
    dsimp only at h
    split at h
    · next numbers hnumbers =>
      rw [← Option.some.inj h]
      exact length_of_mapM hnumbers
    · rw [← Option.some.inj h]
      exact List.length_map ..

/-! ### Reports of mixed arrays

The report of an array comes before its elements are read, and arrays within these may
go on to report in the same way.  What is counted are the reports of one array.
-/

namespace Session

/-- The report of how many elements of an array were left out, if any were. -/
def skippedReport (subject : Subject) (skipped : Nat) : List Diagnostic :=
  if skipped = 0 then [] else [⟨.mixedArray skipped, subject, none⟩]

/-- The session after this report. -/
def reportingSkipped (s : Session) (subject : Subject) (skipped : Nat) : Session :=
  (skippedReport subject skipped).foldl Session.reporting s

/-- The reports that arrays mix elements of both shapes. -/
def mixedArrays (s : Session) : List Diagnostic :=
  s.diagnostics.filter fun d => d.kindName == "AmbiguousArrayShape".toList

theorem mixedArrays_reporting (s : Session) (d : Diagnostic) :
    (s.reporting d).mixedArrays =
      s.mixedArrays ++ [d].filter fun d => d.kindName == "AmbiguousArrayShape".toList := by
  have hdiagnostics : (s.reporting d).diagnostics = s.diagnostics ++ [d] := by
    unfold diagnostics reporting
    rw [List.filterMap_append]
    rfl
  rw [mixedArrays, hdiagnostics, List.filter_append]
  rfl

theorem mixedArrays_reportingSkipped (s : Session) (subject : Subject) (skipped : Nat) :
    (s.reportingSkipped subject skipped).mixedArrays =
      s.mixedArrays ++ skippedReport subject skipped := by
  unfold reportingSkipped skippedReport
  split
  · exact (List.append_nil _).symm
  · exact mixedArrays_reporting s _

end Session

namespace Binding

variable (c : Context) (subject : Subject)

theorem reportSkipped_run (skipped : Nat) (s : Session) :
    reportSkipped subject skipped s = ((), s.reportingSkipped subject skipped) := by
  unfold reportSkipped Session.reportingSkipped Session.skippedReport
  split <;> rfl

theorem literal_value (expected : DeclaredType) (t : Term) (s : Session) :
    (literal subject expected t s).1 = (Coercion.of expected t).value := by
  obtain ⟨hsilent, haloud⟩ := literal_run subject expected t s
  by_cases hfailure : (Coercion.of expected t).failure = none
  · rw [hsilent hfailure]
  · obtain ⟨d, -, hrun⟩ := haloud hfailure
    rw [hrun]

/-- The reading of a literal says nothing of mixed arrays. -/
theorem mixedArrays_literal (expected : DeclaredType) (t : Term) (s : Session) :
    (literal subject expected t s).2.mixedArrays = s.mixedArrays := by
  obtain ⟨hsilent, haloud⟩ := literal_run subject expected t s
  by_cases hfailure : (Coercion.of expected t).failure = none
  · rw [hsilent hfailure]
  · obtain ⟨d, ⟨hkind, -, -⟩, hrun⟩ := haloud hfailure
    have hother : ([d].filter fun d => d.kindName == "AmbiguousArrayShape".toList) = [] := by
      rw [List.filter_cons_of_neg, List.filter_nil]
      rw [hkind]
      decide
    rw [hrun, Session.mixedArrays_reporting, hother, List.append_nil]

/-- The blocks of a class among elements are read one after another. -/
theorem classBlocks_eq (elements : List Term) :
    classBlocks c subject elements =
      (elements.filterMap Term.classBlock?).mapM (subObject c subject) := by
  induction elements with
  | nil => rfl
  | cons e rest ih =>
    cases e with
    | block b =>
      obtain ⟨extent, keyword, place, name, body⟩ := b
      cases name with
      | none =>
        have hblock : Term.classBlock? (.block ⟨extent, keyword, place, none, body⟩) =
            some ⟨extent, keyword, place, none, body⟩ := rfl
        rw [classBlocks, ih, List.filterMap_cons_some hblock, List.mapM_cons]
        rfl
      | some name =>
        rw [classBlocks, ih]
        · rfl
        · nofun
    | expression e | command command =>
      rw [classBlocks, ih]
      · rfl
      · nofun

/-- What a statement stands for is read as a term. -/
theorem statement_eq_term {st : Statement} {t : Term} (h : st.term? = some t)
    (expected : DeclaredType) : statement c subject expected st = term c subject expected t := by
  unfold Statement.term? at h
  split at h
  · next b =>
    obtain rfl := Option.some.inj h
    obtain ⟨extent, keyword, place, name, body⟩ := b
    cases name <;> rfl
  · obtain rfl := Option.some.inj h
    rfl
  · cases h

/-- An array that a block of a class opens is read as an array of such blocks. -/
theorem term_of_opens (expected : DeclaredType) (extent : Extent) (bracketed : Bool)
    {elements : List Term} (h : elements.head?.any Term.isClassBlock) (s : Session) :
    term c subject expected (.expression (.array extent bracketed elements)) s =
      ((classBlocks c subject elements
        (s.reportingSkipped subject (elements.filter fun e => !e.isClassBlock).length)).map
          Value.subObjectArray id) := by
  have hne : elements ≠ [] := by
    rintro rfl
    cases h
  rw [term, if_pos h, List.countP_eq_length_filter]
  · change ((classBlocks c subject elements
      (reportSkipped subject _ s).2).map Value.subObjectArray id) = _
    rw [reportSkipped_run]
  · exact fun _ hnil _ => hne hnil

/-- Any other array is read as a literal without the blocks of a class. -/
theorem term_of_not_opens (expected : DeclaredType) (extent : Extent) (bracketed : Bool)
    {elements : List Term} (hne : elements ≠ []) (h : ¬ elements.head?.any Term.isClassBlock)
    (s : Session) :
    term c subject expected (.expression (.array extent bracketed elements)) s =
      literal subject expected
        (.expression (.array extent bracketed (elements.filter fun e => !e.isClassBlock)))
        (s.reportingSkipped subject (elements.filterMap Term.classBlock?).length) := by
  rw [term, if_neg h, ← funext Term.isSome_classBlock?, ← List.length_filterMap_eq_countP]
  · change literal subject expected _ (reportSkipped subject _ s).2 = _
    rw [reportSkipped_run]
  · exact fun _ hnil _ => hne hnil

/-- **No element of an array is lost without a report.**  If the first element is a block of a
class, the value is the array of such blocks, each read in its turn; otherwise it is the literal
of the elements that are none, in their order.  There is one report of how many elements were left
out, if any were, and what is read as an array has all the others.  A lone block is read as the
array of this block is, where an array of blocks is declared. -/
theorem array_accounted (expected : DeclaredType) (extent : Extent) (bracketed : Bool)
    {elements : List Term} (hne : elements ≠ []) {st : Statement}
    (hst : st.term? = some (.expression (.array extent bracketed elements))) (s : Session) :
    let blocks := elements.filterMap Term.classBlock?
    let others := elements.filter fun e => !e.isClassBlock
    let opens := elements.head?.any Term.isClassBlock
    let skipped := if opens then others.length else blocks.length
    let reported := s.reportingSkipped subject skipped
    let read := statement c subject expected st s
    (opens → ∃ values,
      read = (.subObjectArray values,
        Interpreting.afterEach (subObject c subject) blocks reported) ∧
      values.length = blocks.length ∧
      ∀ i, values[i]? = blocks[i]?.map fun b => (subObject c subject b
        (Interpreting.afterEach (subObject c subject) (blocks.take i) reported)).1) ∧
    (¬ opens →
      read = literal subject expected (.expression (.array extent bracketed others)) reported ∧
      read.2.mixedArrays = reported.mixedArrays) ∧
    reported.mixedArrays = s.mixedArrays ++ Session.skippedReport subject skipped ∧
    (∀ n, read.1.count? = some n → n + skipped = elements.length) ∧
    ∀ (b : Block) (lone single : Statement) (className : Text), b.instanceName = none →
      lone.term? = some (.block b) →
      single.term? = some (.expression (.array extent bracketed [.block b])) →
      statement c subject (.subObjectArray className) lone s =
        statement c subject (.subObjectArray className) single s := by
  intro blocks others opens skipped reported read
  have hshapes : blocks.length + others.length = elements.length := Term.length_shapes elements
  have hread : read = term c subject expected (.expression (.array extent bracketed elements)) s :=
    congrFun (statement_eq_term c subject hst expected) s
  obtain ⟨values, hrun, hlength, heach⟩ :=
    Interpreting.mapM_run (subObject c subject) blocks reported
  have hopened (h : opens) : skipped = others.length ∧ read = (.subObjectArray values,
      Interpreting.afterEach (subObject c subject) blocks reported) := by
    have hskipped : skipped = others.length := if_pos h
    refine ⟨hskipped, ?_⟩
    rw [hread, term_of_opens c subject expected extent bracketed h, classBlocks_eq, ← hskipped]
    exact congrArg (Prod.map Value.subObjectArray id) hrun
  have hclosed (h : ¬ opens) : skipped = blocks.length ∧ read =
      literal subject expected (.expression (.array extent bracketed others)) reported := by
    have hskipped : skipped = blocks.length := if_neg h
    refine ⟨hskipped, ?_⟩
    rw [hread, term_of_not_opens c subject expected extent bracketed hne h, ← hskipped]
  refine ⟨fun h => ⟨values, (hopened h).2, hlength, heach⟩, fun h => ⟨(hclosed h).2, ?_⟩,
    Session.mixedArrays_reportingSkipped s subject skipped, fun n hn => ?_,
    fun b lone single className hb hlone hsingle => ?_⟩
  · rw [(hclosed h).2, mixedArrays_literal]
  · by_cases h : opens
    · obtain ⟨hskipped, hvalue⟩ := hopened h
      rw [hvalue] at hn
      obtain rfl : values.length = n := Option.some.inj hn
      omega
    · obtain ⟨hskipped, hvalue⟩ := hclosed h
      rw [hvalue, literal_value] at hn
      have hcount := Coercion.count_of_array expected extent bracketed others hn
      omega
  · obtain ⟨inner, keyword, place, name, body⟩ := b
    obtain rfl : name = none := hb
    rw [statement_eq_term c subject hlone, statement_eq_term c subject hsingle,
      term_of_opens c subject _ extent bracketed rfl, term]
    rfl

/-- A block of a class without entries. -/
def emptyPair : Block :=
  ⟨⟨"Pair \x7b\x7d", ⟨1, 16⟩⟩, "Pair", ⟨1, 16⟩, none, ⟨⟨"\x7b\x7d", ⟨1, 21⟩⟩, []⟩⟩

/-- An array that such a block is in the middle of. -/
def mixedPages : List Term :=
  [.expression (.string ⟨"\"index.htm\"", ⟨1, 3⟩⟩ "index.htm" .double), .block emptyPair,
    .expression (.string ⟨"\"default.htm\"", ⟨1, 25⟩⟩ "default.htm" .double)]

/-- A statement of a list, in brackets. -/
def listStatement (elements : List Term) : Statement :=
  .pipeline ⟨"@(..)", ⟨1, 1⟩⟩ [.expression (.array ⟨"@(..)", ⟨1, 1⟩⟩ true elements)]

/-- A session without schemas, in which nothing has happened. -/
def blankSession : Session := .new (.new (fun _ _ => none) .everything)

theorem array_accounted_pages :
    statement ⟨"Site", true⟩ .unknown .stringArray (listStatement mixedPages) blankSession =
        (.stringArray ["index.htm", "default.htm"],
          blankSession.reporting ⟨.mixedArray 1, .unknown, none⟩) ∧
      (statement ⟨"Site", true⟩ .unknown .stringArray (listStatement mixedPages.tail)
        blankSession).1.count? = some 1 ∧
      statement ⟨"Site", true⟩ .unknown (.subObjectArray "Pair") (.block emptyPair) blankSession =
        statement ⟨"Site", true⟩ .unknown (.subObjectArray "Pair")
          (listStatement [.block emptyPair]) blankSession := by
  have hfirst : mixedPages ≠ [] := List.cons_ne_nil _ _
  have hsecond : mixedPages.tail ≠ [] := List.cons_ne_nil _ _
  obtain ⟨-, hclosed, -, -, hlone⟩ := array_accounted ⟨"Site", true⟩ .unknown .stringArray
    ⟨"@(..)", ⟨1, 1⟩⟩ true hfirst (Eq.refl (listStatement mixedPages).term?) blankSession
  obtain ⟨hopened, -⟩ := array_accounted ⟨"Site", true⟩ .unknown .stringArray
    ⟨"@(..)", ⟨1, 1⟩⟩ true hsecond (Eq.refl (listStatement mixedPages.tail).term?) blankSession
  obtain ⟨values, hrun, hlength, -⟩ := hopened rfl
  refine ⟨(hclosed (by decide)).1.trans rfl, ?_, hlone emptyPair _ _ "Pair" rfl rfl rfl⟩
  rw [hrun]
  exact congrArg some hlength

end Binding

end DesiredState

/-
Strict and lenient reading.

Both readings take the same steps in the same sessions, up to the first resource without
a schema: there the strict one ends with an error, and the lenient one makes a note and goes
on.  Which resource that is can be said beforehand.  The look-up is asked for every
resource once, under the first spelling of its name, and what it answers then holds for
all the other spellings.
-/
import DesiredState.Proofs.Building.Outcome

namespace DesiredState

/-! ### Answers

A look-up may tell spellings of one name apart, and a memo does not.  What it answers is
therefore said with the names that have been asked for before, the first spelling of
each in front.
-/

/-- What a name is answered by a look-up that is asked for names one after another, for each only
under its first spelling. -/
def Schema.Resource.answer? (lookup : DeclLookup) (scope : ImportScope) (asked : List Text)
    (name : Text) : Option Schema.Resource :=
  found? lookup scope ((asked.find? fun first => Text.sameName first name).getD name)

/-- A memo that has been asked for these names, and for nothing else. -/
structure Schema.Memo.Recalls (lookup : DeclLookup) (scope : ImportScope) (asked : List Text)
    (m : Schema.Memo) : Prop where
  lookup_eq : m.lookup = lookup
  scope_eq : m.scope = scope
  known : ∀ name, m.known? name =
    (asked.find? fun first => Text.sameName first name).map (Schema.Resource.found? lookup scope)

namespace Schema.Memo

variable {lookup : DeclLookup} {scope : ImportScope} {asked : List Text} {m : Memo}

theorem recalls_new (lookup : DeclLookup) (scope : ImportScope) :
    (new lookup scope).Recalls lookup scope [] :=
  ⟨rfl, rfl, fun _ => rfl⟩

theorem Recalls.ask_eq (h : m.Recalls lookup scope asked) (name : Text) :
    m.ask name = Resource.found? lookup scope name := by
  rw [ask, h.lookup_eq, h.scope_eq, Resource.found?]

/-- Names that come later do not change an answer. -/
theorem answer?_append (name : Text) (rest : List Text) :
    Resource.answer? lookup scope (asked ++ name :: rest) name =
      Resource.answer? lookup scope (asked ++ [name]) name := by
  simp [Resource.answer?, List.find?_append, Text.sameName]

/-- **A memo answers with what the first spelling was answered**, and remembers the question. -/
theorem Recalls.resolve (h : m.Recalls lookup scope asked) (name : Text) :
    (m.resolve name).1 = Resource.answer? lookup scope (asked ++ [name]) name ∧
      (m.resolve name).2.Recalls lookup scope (asked ++ [name]) := by
  have hknown := h.known name
  cases hfind : asked.find? fun first => Text.sameName first name with
  | some first =>
    rw [hfind, Option.map_some] at hknown
    rw [resolve_of_known hknown]
    refine ⟨?_, h.lookup_eq, h.scope_eq, fun other => ?_⟩
    · simp [Resource.answer?, List.find?_append, hfind]
    · rw [h.known other, List.find?_append]
      cases hother : asked.find? fun first => Text.sameName first other with
      | some _ => rfl
      | none =>
        -- Had the new name been another spelling of it, so had the first one.
        have hsame : Text.sameName name other = false := by
          by_contra hne
          have hfirst := List.find?_some hfind
          have hnone := List.find?_eq_none.mp hother first (List.mem_of_find?_eq_some hfind)
          simp only [Text.sameName, beq_iff_eq, Bool.not_eq_false] at hne hfirst hnone
          exact hnone (hfirst.trans hne)
        simp [hsame]
  | none =>
    rw [hfind, Option.map_none] at hknown
    rw [resolve_of_unknown hknown]
    refine ⟨?_, h.lookup_eq, h.scope_eq, fun other => ?_⟩
    · rw [h.ask_eq, Resource.answer?, List.find?_append, hfind]
      simp [Text.sameName]
    · have hother := h.known other
      simp only [known?] at hother ⊢
      rw [List.find?_append, List.find?_append, Option.map_or, Option.map_or, hother, h.ask_eq]
      by_cases hsame : Text.sameName name other <;> simp [hsame]

end Schema.Memo

/-! ### Statements -/

namespace Building

variable {o : ReadOptions} {lookup : DeclLookup} {scope : ImportScope}

/-- The blocks that declare instances, in order. -/
def declaredBlocks (list : List Statement) : List Block :=
  list.filterMap fun st => (declaration? st).map Prod.fst

/-- The words at their heads. -/
def keywords (list : List Statement) : List Text := (declaredBlocks list).map (·.keyword)

/-- The first block whose resource is not found, where other names have been asked for before. -/
def unresolved? (lookup : DeclLookup) (scope : ImportScope) (asked : List Text)
    (list : List Statement) : Option Block :=
  (declaredBlocks list).find? fun b =>
    (Schema.Resource.answer? lookup scope (asked ++ keywords list) b.keyword).isNone

theorem unresolved?_of_other {st : Statement} (h : declaration? st = none) (asked : List Text)
    (rest : List Statement) :
    unresolved? lookup scope asked (st :: rest) = unresolved? lookup scope asked rest := by
  simp [unresolved?, declaredBlocks, keywords, h]

theorem unresolved?_of_declaration {st : Statement} {b : Block} {name : Expression}
    (h : declaration? st = some (b, name)) (asked : List Text) (rest : List Statement) :
    unresolved? lookup scope asked (st :: rest) =
      if (Schema.Resource.answer? lookup scope (asked ++ [b.keyword]) b.keyword).isNone then some b
      else unresolved? lookup scope (asked ++ [b.keyword]) rest := by
  have hblocks : declaredBlocks (st :: rest) = b :: declaredBlocks rest := by
    simp [declaredBlocks, h]
  have hwords : asked ++ keywords (st :: rest) = asked ++ b.keyword :: keywords rest := by
    rw [keywords, hblocks, List.map_cons, keywords]
  unfold unresolved?
  rw [hwords, hblocks, List.find?_cons, Schema.Memo.answer?_append, List.append_assoc]
  cases (Schema.Resource.answer? lookup scope (asked ++ [b.keyword]) b.keyword).isNone <;> rfl

/-- **Strictly read, statements come to what they come to leniently**, or to an error at the first
block whose resource is not found.  The induction is on the statements; what carries it is that
the memo has been asked for the heads before them. -/
theorem statements_strict (total : Nat) (list : List Statement) (before : Nat) (asked : List Text)
    (s : Session) (hs : s.memo.Recalls lookup scope asked) :
    statements { o with strict := true } total before list s =
      match unresolved? lookup scope asked list with
      | some b => .error (.unknownResource b.keyword b.keywordLocation)
      | none => statements { o with strict := false } total before list s := by
  induction list generalizing before asked s with
  | nil => rfl
  | cons st rest ih =>
    rw [statements_cons, statements_cons]
    cases hst : declaration? st with
    | none =>
      have hrest := ih (before + 1) asked
        ⟨s.memo, s.events ++ [refused st] ++ [.processed (before + 1) total]⟩ hs
      rw [unresolved?_of_other hst, statement_of_other hst, statement_of_other hst]
      simp only [Except.bind, hrest]
      cases unresolved? lookup scope asked rest <;> rfl
    | some found =>
      obtain ⟨b, name⟩ := found
      obtain ⟨hanswer, hrecalls⟩ := hs.resolve b.keyword
      rw [unresolved?_of_declaration hst, ← hanswer]
      by_cases hnone : (s.memo.resolve b.keyword).1.isNone = true
      · rw [if_pos hnone, statement_of_unresolved hst (by rw [hnone]; rfl)]
        rfl
      · rw [if_neg hnone]
        rw [Bool.not_eq_true] at hnone
        rw [statement_of_declaration hst (by rw [hnone]; rfl),
          statement_of_declaration hst (by rw [hnone]; rfl)]
        have hrest := ih (before + 1) (asked ++ [b.keyword])
          ⟨(s.memo.resolve b.keyword).2,
            s.events ++ (declared o b name (s.memo.resolve b.keyword).1).2 ++
              [.processed (before + 1) total]⟩ hrecalls
        have hdeclared (strict : Bool) :
            declared { o with strict := strict } b name = declared o b name := rfl
        simp only [Except.bind, hdeclared, hrest]
        cases unresolved? lookup scope (asked ++ [b.keyword]) rest <;> rfl

end Building

/-! ### Scripts -/

namespace Build

open Building

/-- **Reading strictly, in full.**  A node block is needed, and a schema for every resource in it;
where both are there, nothing else is different. -/
theorem ofStatements_strict (o : ReadOptions) (lookup : DeclLookup) (script : List Statement) :
    ofStatements { o with strict := true } lookup script =
      match configuration? script with
      | none => .error .noConfiguration
      | some c =>
        match (nodeBodies c.body).head? with
        | none => .error (.noNode c.name c.extent.location)
        | some body =>
          match unresolved? lookup ⟨Import.ofStatements c.body, o.versionRule⟩ [] body with
          | some b => .error (.unknownResource b.keyword b.keywordLocation)
          | none => ofStatements { o with strict := false } lookup script := by
  cases hc : configuration? script with
  | none =>
    unfold ofStatements
    rw [hc]
    rfl
  | some c =>
    cases hnodes : nodeBodies c.body with
    | nil =>
      simp only [hnodes, List.head?_nil]
      have hdeclaring (s : Session) : declaringStatements { o with strict := true } c s =
          .error (.noNode c.name c.extent.location) := by
        unfold declaringStatements
        rw [hnodes]
        rfl
      unfold ofStatements
      rw [hc]
      simp only []
      rw [bind_of_error (hdeclaring _)]
      rfl
    | cons body more =>
      simp only [hnodes, List.head?_cons]
      rw [ofStatements_of_nodes hc hnodes, ofStatements_of_nodes hc hnodes]
      have hstrict := statements_strict (o := o) body.length body 0 []
        (opening o lookup c more) (Schema.Memo.recalls_new lookup _)
      have hopening (strict : Bool) :
          opening { o with strict := strict } lookup c more = opening o lookup c more := rfl
      rw [hopening, hopening, hstrict]
      cases unresolved? lookup ⟨Import.ofStatements c.body, o.versionRule⟩ [] body <;> rfl

/-- **Strict reading refines lenient reading.**  What it comes to, lenient reading comes to as well;
and where lenient reading comes to something, strict reading comes to the same, unless there is
no node block, which is an error, or the resource of some declaring block in the first one is not
found, and then the first such block is the error.  What else is unknown, such as a class of
blocks, makes no difference. -/
theorem strict_refines_lenient (o : ReadOptions) (lookup : DeclLookup) (script : List Statement) :
    (∀ r, ofStatements { o with strict := true } lookup script = .ok r →
      ofStatements { o with strict := false } lookup script = .ok r) ∧
    ∀ r, ofStatements { o with strict := false } lookup script = .ok r →
      ∃ c, configuration? script = some c ∧
        match (nodeBodies c.body).head? with
        | none => ofStatements { o with strict := true } lookup script =
            .error (.noNode c.name c.extent.location)
        | some body =>
          match unresolved? lookup ⟨Import.ofStatements c.body, o.versionRule⟩ [] body with
          | some b => ofStatements { o with strict := true } lookup script =
              .error (.unknownResource b.keyword b.keywordLocation)
          | none => ofStatements { o with strict := true } lookup script = .ok r := by
  constructor
  · intro r hr
    rw [ofStatements_strict] at hr
    split at hr
    · cases hr
    · split at hr
      · cases hr
      · split at hr
        · cases hr
        · exact hr
  · intro r hr
    rw [ofStatements_strict]
    cases hc : configuration? script with
    | none =>
      unfold ofStatements at hr
      rw [hc] at hr
      cases hr
    | some c =>
      refine ⟨c, rfl, ?_⟩
      dsimp only
      cases (nodeBodies c.body).head? with
      | none => rfl
      | some body =>
        dsimp only
        cases unresolved? lookup ⟨Import.ofStatements c.body, o.versionRule⟩ [] body with
        | some b => rfl
        | none => exact hr

/-- A node block with a resource that is known, whose one property holds a block of an unknown class,
and two of a resource that is not. -/
def depotScript : List Statement :=
  let block (word : Text) (line : Nat) (entries : List Entry) : Statement :=
    .block ⟨⟨word, line, 1⟩, word, ⟨line, 1⟩, some (.string ⟨['a'], line, 9⟩ ['a'] .bare),
      ⟨⟨word, line, 1⟩, entries⟩⟩
  [.configuration ⟨"c", 1, 1⟩ "C" [.node ⟨"n", 2, 1⟩ (.string ⟨['n'], 2, 1⟩ ['n'] .bare) [
    block "Depot" 3 [⟨"Owner", ⟨3, 11⟩, .block ⟨⟨"Person", 3, 19⟩, "Person", ⟨3, 19⟩, none,
      ⟨⟨"\x7b\x7d", 3, 26⟩, []⟩⟩⟩],
    block "Crane" 4 [], block "crane" 5 []]]]

/-- A look-up that knows one resource. -/
def depotLookup : DeclLookup := fun name _ =>
  if Text.sameName name "Depot" then
    some ⟨"Depot", none, none, none, [⟨"Owner", "[Person]", false, []⟩], []⟩
  else none

theorem strict_refines_lenient_depot :
    (∃ r, ofStatements .lenient depotLookup depotScript = .ok r) ∧
      ofStatements { ReadOptions.lenient with strict := true } depotLookup depotScript =
        .error (.unknownResource "Crane" ⟨4, 1⟩) := by
  refine ⟨⟨_, rfl⟩, ?_⟩
  obtain ⟨c, hc, h⟩ := (strict_refines_lenient .lenient depotLookup depotScript).2 _ rfl
  obtain rfl := Option.some.inj hc
  exact h

end Build

end DesiredState

/-
What is built of a relabelled tree.

The imports of a configuration are found in its tree by the names of commands and
parameters and by the values of strings, and of the labels of nodes only the text of a
number counts.  Which configuration and which node block are read depends on no label
at all.  So trees that are the same up to labels have the same imports, and if their
first node blocks have the same body the same instances are built of them.
-/
import DesiredState.Configuration.Build
import DesiredState.Proofs.Script.Relabelling

namespace DesiredState

variable {m : Relabelling}

namespace Import

section Relabelled

variable (hhead : ∀ word, m.head word = word) (hnumber : ∀ e, (m.number e).text = e.text)

include hhead in
theorem arguments?_relabel (s : Statement) :
    arguments? (s.relabel m) = (arguments? s).map (List.map (Argument.relabel m)) := by
  cases s with
  | pipeline extent elements =>
    cases elements with
    | nil => rfl
    | cons first rest =>
      cases rest with
      | cons second more => cases first <;> rfl
      | nil =>
        cases first with
        | command c =>
          cases c
          simp only [Statement.relabel, Term.relabels, Term.relabel, Command.relabel, arguments?,
            hhead, Argument.relabels_eq]
          split <;> rfl
        | _ => rfl
  | _ => rfl

theorem named_relabel (arguments : List Argument) :
    named (arguments.map (Argument.relabel m)) =
      (named arguments).map fun a => (a.1, a.2.relabel m) := by
  fun_induction named arguments with
  | case1 extent name e rest ih =>
    simp only [List.map_cons, Argument.relabel, named, ih]
  | case2 first rest hno ih =>
    rw [List.map_cons, ← ih]
    cases first with
    | value e => rfl
    | parameter extent name =>
      cases rest with
      | nil => rfl
      | cons second more =>
        cases second with
        | parameter e n => rfl
        | value e => exact (hno extent name e more rfl rfl).elim
  | case3 => rfl

include hnumber in
theorem plainText?_relabel (e : Expression) : plainText? (e.relabel m) = plainText? e := by
  cases e with
  | number extent value => exact congrArg some (hnumber extent)
  | _ => rfl

include hhead hnumber in
theorem entryText?_relabel (s : Statement) : entryText? (s.relabel m) = entryText? s := by
  cases s with
  | pipeline extent elements =>
    cases elements with
    | nil => rfl
    | cons first rest =>
      cases first with
      | expression e => exact plainText?_relabel hnumber e
      | command c =>
        cases c
        exact congrArg some (hhead _)
      | block b => rfl
  | _ => rfl

include hhead hnumber in
theorem lastText?_relabel (keys : List String) (entries : List Entry) :
    lastText? keys (entries.map (Entry.relabel m)) = lastText? keys entries := by
  have hkey (e : Entry) : (e.relabel m).key = e.key := by cases e; rfl
  have hvalue (e : Entry) : (e.relabel m).value = e.value.relabel m := by cases e; rfl
  unfold lastText?
  rw [← List.map_reverse, List.find?_map, Option.bind_map]
  have hfound : ((fun e : Entry => keys.contains (String.ofList (Text.lower e.key))) ∘
      Entry.relabel m) = fun e => keys.contains (String.ofList (Text.lower e.key)) :=
    funext fun e => by rw [Function.comp_apply, hkey]
  rw [hfound]
  refine congrArg _ (funext fun e => ?_)
  rw [Function.comp_apply, hvalue, entryText?_relabel hhead hnumber]

include hhead hnumber in
theorem ofTable?_relabel (t : Table) : ofTable? (t.relabel m) = ofTable? t := by
  cases t
  simp only [ofTable?, Table.relabel, Entry.relabels_eq, lastText?_relabel hhead hnumber]

theorem valuesOf_relabel (e : Expression) :
    valuesOf (e.relabel m) = (valuesOf e).map (Term.relabel m) := by
  cases e with
  | array extent bracketed elements => exact Term.relabels_eq m elements
  | _ => rfl

theorem valuesFor_relabel (parameter : Text) (arguments : List (Text × Expression)) :
    valuesFor parameter (arguments.map fun a => (a.1, a.2.relabel m)) =
      (valuesFor parameter arguments).map (Expression.relabel m) := by
  unfold valuesFor
  rw [List.filter_map, List.map_map, List.map_map]
  rfl

include hnumber in
theorem name?_relabel (t : Term) : name? (t.relabel m) = name? t := by
  cases t with
  | expression e => rw [Term.relabel, name?, name?, plainText?_relabel hnumber]
  | _ => rfl

include hhead hnumber in
theorem specified?_relabel (t : Term) : specified? (t.relabel m) = specified? t := by
  cases t with
  | expression e =>
    cases e with
    | table t => exact ofTable?_relabel hhead hnumber t
    | _ => rfl
  | _ => rfl

include hnumber in
theorem version?_relabel (arguments : List (Text × Expression)) :
    version? (arguments.map fun a => (a.1, a.2.relabel m)) = version? arguments := by
  unfold version?
  simp only [valuesFor_relabel, List.filter_map, List.getLast?_map, Option.bind_map]
  rw [show plainText? ∘ Expression.relabel m = plainText? from
    funext (plainText?_relabel hnumber)]
  refine congrArg (fun given => List.getLast? given |>.bind plainText?) ?_
  refine List.filter_congr fun e _ => ?_
  cases e <;> rfl

include hhead hnumber in
theorem ofArguments_relabel (arguments : List Argument) :
    ofArguments (arguments.map (Argument.relabel m)) = ofArguments arguments := by
  unfold ofArguments
  simp only [named_relabel, valuesFor_relabel, version?_relabel hnumber]
  have hvalues (list : List Expression) : (list.map (Expression.relabel m)).flatMap valuesOf =
      (list.flatMap valuesOf).map (Term.relabel m) := by
    rw [List.flatMap_map, List.map_flatMap]
    exact congrArg (fun f => list.flatMap f) (funext valuesOf_relabel)
  rw [hvalues, List.filterMap_map, List.filterMap_map]
  rw [show name? ∘ Term.relabel m = name? from funext (name?_relabel hnumber),
    show specified? ∘ Term.relabel m = specified? from funext (specified?_relabel hhead hnumber)]

include hhead hnumber in
/-- Imports depend on no label but the texts of numbers. -/
theorem ofStatements_relabel (statements : List Statement) :
    ofStatements (statements.map (Statement.relabel m)) = ofStatements statements := by
  unfold ofStatements
  rw [List.filterMap_map, show arguments? ∘ Statement.relabel m = _ from
    funext (arguments?_relabel hhead), ← List.map_filterMap, List.flatMap_map]
  exact congrArg (fun f => List.flatMap f _) (funext (ofArguments_relabel hhead hnumber))

end Relabelled

end Import

namespace Build

/-- The first node block among statements: its extent and its body. -/
def firstNode? : List Statement → Option (Extent × List Statement)
  | [] => none
  | .node extent _ body :: _ => some (extent, body)
  | _ :: rest => firstNode? rest

/-- The node block of a script that is read: the first one of the first configuration. -/
def nodeBlock? (script : List Statement) : Option (Extent × List Statement) :=
  (configuration? script).bind fun c => firstNode? c.body

theorem mem_of_firstNode? {statements : List Statement} {extent : Extent} {body : List Statement}
    (h : firstNode? statements = some (extent, body)) :
    ∃ target, .node extent target body ∈ statements := by
  induction statements with
  | nil => cases h
  | cons st rest ih =>
    cases st with
    | node e target found =>
      cases h
      exact ⟨target, List.mem_cons_self⟩
    | _ => exact (ih h).imp fun _ hm => List.mem_cons_of_mem _ hm

theorem configuration?_relabel (script : List Statement) :
    configuration? (script.map (Statement.relabel m)) =
      (configuration? script).map fun c =>
        ⟨m.extent c.extent, c.name, c.body.map (Statement.relabel m)⟩ := by
  induction script with
  | nil => rfl
  | cons s rest ih =>
    rw [List.map_cons]
    cases s with
    | configuration extent name body =>
      rw [Statement.relabel, configuration?, configuration?, Statement.relabels_eq]
      rfl
    | _ => exact ih

theorem firstNode?_relabel (statements : List Statement) :
    firstNode? (statements.map (Statement.relabel m)) =
      (firstNode? statements).map fun found =>
        (m.extent found.1, found.2.map (Statement.relabel m)) := by
  induction statements with
  | nil => rfl
  | cons s rest ih =>
    rw [List.map_cons]
    cases s with
    | node extent target body =>
      rw [Statement.relabel, firstNode?, firstNode?, Statement.relabels_eq]
      rfl
    | _ => exact ih

theorem nodeBlock?_relabel (script : List Statement) :
    nodeBlock? (script.map (Statement.relabel m)) =
      (nodeBlock? script).map fun found =>
        (m.extent found.1, found.2.map (Statement.relabel m)) := by
  unfold nodeBlock?
  rw [configuration?_relabel]
  cases configuration? script with
  | none => rfl
  | some c => exact firstNode?_relabel c.body

theorem nodeBodies_relabel (statements : List Statement) :
    nodeBodies (statements.map (Statement.relabel m)) =
      (nodeBodies statements).map (List.map (Statement.relabel m)) := by
  unfold nodeBodies
  rw [List.filterMap_map, List.map_filterMap]
  refine congrArg (fun f => List.filterMap f statements) (funext fun s => ?_)
  cases s with
  | node extent target body => exact congrArg some (Statement.relabels_eq m body)
  | _ => rfl

theorem nodeBodies_eq_cons {statements : List Statement} {extent : Extent} {body : List Statement}
    (h : firstNode? statements = some (extent, body)) :
    ∃ more, nodeBodies statements = body :: more := by
  induction statements with
  | nil => cases h
  | cons s rest ih =>
    cases s with
    | node e target inner =>
      cases h
      exact ⟨nodeBodies rest, rfl⟩
    | _ => exact ih h

/-- Of the node blocks the first one is read and all are counted. -/
theorem declaringStatements_congr {o : ReadOptions} {c c' : Configuration} {body : List Statement}
    {more more' : List (List Statement)} (h : nodeBodies c.body = body :: more)
    (h' : nodeBodies c'.body = body :: more') (hlength : more'.length = more.length) :
    declaringStatements o c' = declaringStatements o c := by
  unfold declaringStatements
  rw [h, h']
  cases more with
  | nil =>
    obtain rfl := List.length_eq_zero_iff.mp hlength
    rfl
  | cons second others =>
    cases more' with
    | nil => cases hlength
    | cons second' others' =>
      simp only []
      rw [hlength]

/-- **The same is built of trees that are the same up to labels**, if they have the same body in
the node block that is read. -/
theorem ofStatements_relabelled (hhead : ∀ word, m.head word = word)
    (hnumber : ∀ e, (m.number e).text = e.text) {script script' : List Statement}
    (hsame : script'.map (Statement.relabel m) = script.map (Statement.relabel m))
    {extent extent' : Extent} {body : List Statement} (h : nodeBlock? script = some (extent, body))
    (h' : nodeBlock? script' = some (extent', body)) (o : ReadOptions) (lookup : DeclLookup) :
    ofStatements o lookup script' = ofStatements o lookup script := by
  obtain ⟨c, hc, hnode⟩ := Option.bind_eq_some_iff.mp h
  obtain ⟨c', hc', hnode'⟩ := Option.bind_eq_some_iff.mp h'
  have hconfigurations := configuration?_relabel (m := m) script
  rw [← hsame, configuration?_relabel, hc, hc', Option.map_some, Option.map_some,
    Option.some.injEq, Configuration.mk.injEq] at hconfigurations
  obtain ⟨-, -, hbodies⟩ := hconfigurations
  have himports : Import.ofStatements c'.body = Import.ofStatements c.body := by
    rw [← Import.ofStatements_relabel hhead hnumber, hbodies,
      Import.ofStatements_relabel hhead hnumber]
  obtain ⟨more, hmore⟩ := nodeBodies_eq_cons hnode
  obtain ⟨more', hmore'⟩ := nodeBodies_eq_cons hnode'
  have hlength : more'.length = more.length := by
    have hnodes := congrArg (List.length ∘ nodeBodies) hbodies
    simpa only [Function.comp_apply, nodeBodies_relabel, List.length_map, hmore, hmore',
      List.length_cons, Nat.add_right_cancel_iff] using hnodes
  unfold ofStatements
  rw [hc, hc']
  simp only []
  rw [himports, declaringStatements_congr hmore hmore' hlength]

end Build

end DesiredState

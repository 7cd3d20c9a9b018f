/-
What holds throughout a tree.

Nodes stand over tokens.  Where nodes have a property because of the tokens that they span and
of the arguments that they take, and lists have it from the values that commas join, every node
of a tree has it.  The one induction on what is derived is made here.  It carries the tokens
along, since a node stands over some of the tokens of its parent.
-/
import DesiredState.Proofs.Script.Extents

namespace DesiredState

variable {source : Text} {ts us : List Token}

/-- Whether a node starts with a word that arguments may follow. -/
def Node.isHeaded : Node → Bool
  | .command _ | .block _ => true
  | _ => false

/-- Values among arguments are the expressions among their nodes. -/
theorem Argument.value_mem {e : Expression} {arguments : List Argument}
    (h : Node.expression e ∈ arguments.map Argument.asNode) : .value e ∈ arguments := by
  obtain ⟨argument, hargument, he⟩ := List.mem_map.mp h
  cases argument with
  | value => exact Node.expression.inj he ▸ hargument
  | parameter => cases he

namespace Grammar

/-- The values in a node are among arguments that are derived over some tokens. -/
def TakesArguments (source : Text) (ts : List Token) (n : Node) : Prop :=
  ∃ (us : List Token) (arguments : List (Marked Argument)), us.Sublist ts ∧
    Derives source us (arguments.map .argument) ∧
      ∀ e, .expression e ∈ n.children → .value e ∈ arguments.map (·.node)

/-- A property of nodes over tokens is handed on from what a tree is made of to the tree. -/
structure HandedOn (source : Text) (P : List Token → Node → Prop) : Prop where
  mono : ∀ {ts us n}, ts.Sublist us → P ts n → P us n
  spans : ∀ {ts n e}, n.extent? = some e → e.Spans source ts →
    (n.isHeaded → TakesArguments source ts n) → P ts n
  entry : ∀ {ts} (e : Entry), P ts (.entry e)
  /-- A statement within an array that is no value is kept as text. -/
  unrecognized : ∀ {ts} {s : Statement}, P ts (.statement s) →
    P ts (.expression (.unrecognized s.extent))
  joined : ∀ {ts us e f}, P ts (.expression e) → P us (.expression f) →
    P (ts ++ us) (.expression (joinValues source e f))

variable {P : List Token → Node → Prop}

namespace HandedOn

variable {n : Node} {ns : List Node}

theorem widen (hP : HandedOn source P) (hsub : ts.Sublist us)
    (h : ∀ n ∈ ns, n.Throughout (P ts)) : ∀ n ∈ ns, n.Throughout (P us) :=
  fun n hn => (h n hn).imp fun _ => hP.mono hsub

/-- A node without arguments over the tokens that it spans. -/
theorem node (hP : HandedOn source P) {e : Extent} (he : n.extent? = some e)
    (hspans : e.Spans source ts) (hheaded : n.isHeaded = false)
    (hchildren : ∀ child ∈ n.children, child.Throughout (P ts)) : n.Throughout (P ts) :=
  .intro (hP.spans he hspans fun h => absurd (hheaded.symm.trans h) Bool.false_ne_true) hchildren

/-- A command over the tokens that it spans, some of which are those of its arguments. -/
theorem command (hP : HandedOn source P) {extent : Extent} {name : Text}
    {arguments : List (Marked Argument)} (hspans : extent.Spans source ts)
    (hderives : Derives source us (arguments.map .argument)) (hsub : us.Sublist ts)
    (h : ∀ n ∈ (arguments.map Phrase.argument).map Phrase.node, n.Throughout (P us)) :
    (Node.command ⟨extent, name, arguments.map (·.node)⟩).Throughout (P ts) := by
  rw [List.map_map] at h
  refine .intro (hP.spans rfl hspans fun _ => ⟨us, arguments, hsub, hderives,
    fun _ => Argument.value_mem⟩) (hP.widen hsub ?_)
  rwa [Node.children, List.map_map]

end HandedOn

variable {ps : List Phrase}

/-- What a statement contributes to an array is like the statement. -/
theorem throughout_contributed (hP : HandedOn source P) {s : Statement}
    (h : (Node.statement s).Throughout (P ts)) :
    ∀ n ∈ (contributed s).map Term.asNode, n.Throughout (P ts) := by
  unfold contributed
  split
  · exact fun n hn => h.within hn
  · intro n hn
    have hlist : (Node.expression (.array _ false _)).Throughout (P ts) :=
      h.within List.mem_cons_self
    exact hlist.within hn
  · exact fun n hn => h.within hn
  · intro n hn
    obtain rfl := List.mem_singleton.mp hn
    exact .leaf rfl (hP.unrecognized h.here)

/-- Two values joined by a comma are like the two. -/
theorem throughout_joinValues (hP : HandedOn source P) {e f : Expression}
    (he : (Node.expression e).Throughout (P ts)) (hf : (Node.expression f).Throughout (P us)) :
    (Node.expression (joinValues source e f)).Throughout (P (ts ++ us)) := by
  have hleft := he.imp fun _ => hP.mono (List.sublist_append_left ts us)
  have hright := hf.imp fun _ => hP.mono (List.sublist_append_right ts us)
  refine .intro (hP.joined he.here hf.here) ?_
  rw [joinValues_eq, Node.children]
  unfold joined
  split
  · rw [List.map_append]
    exact List.forall_mem_append.mpr ⟨fun child hchild => hleft.within hchild,
      List.forall_mem_singleton.mpr hright⟩
  · exact List.forall_mem_cons.mpr ⟨hleft, List.forall_mem_singleton.mpr hright⟩

/-- The entry of an assignment to a key is like the assignment. -/
theorem throughout_keyedEntry (hP : HandedOn source P) {s : Statement} {key : Token}
    {value : Statement} (h : (Node.statement s).Throughout (P ts))
    (hs : ∃ extent, s = .assignment extent (bareString key) value) :
    (Node.entry (keyedEntry (key, value))).Throughout (P ts) := by
  obtain ⟨extent, rfl⟩ := hs
  refine .intro (hP.entry _) (List.forall_mem_singleton.mpr ?_)
  exact h.within (List.mem_cons_of_mem _ List.mem_cons_self)

/-- **A property that is handed on holds throughout what is derived.** -/
theorem Derives.throughout (h : Derives source ts ps) (hP : HandedOn source P) :
    ∀ n ∈ ps.map Phrase.node, n.Throughout (P ts) := by
  induction h with
  | nil => exact fun n hn => absurd hn List.not_mem_nil
  | append _ _ ihp ihq =>
    rw [List.map_append]
    exact List.forall_mem_append.mpr ⟨hP.widen (List.sublist_append_left _ _) ihp,
      hP.widen (List.sublist_append_right _ _) ihq⟩
  | @leaf ts e hleaf hextent =>
    refine List.forall_mem_singleton.mpr (hP.node rfl hextent rfl ?_)
    cases e with
    | member | array | table => cases hleaf
    | _ => exact List.forall_mem_nil _
  | @member ts us v marks members htarget ih =>
    have hread := hP.widen (List.sublist_append_left ts us) ih
    exact List.forall_mem_singleton.mpr
      (hP.node rfl (.tokens (htarget.behind us |>.ne_nil (by simp))) rfl hread)
  | @unrecognized ts us base hbase ih =>
    exact List.forall_mem_singleton.mpr (hP.node rfl
      (.tokens (hbase.behind us |>.ne_nil (by simp))) rfl (List.forall_mem_nil _))
  | @array opening closing inner items hitems ih =>
    have hread := hP.widen (inner_sublist opening inner closing) ih
    refine List.forall_mem_singleton.mpr (hP.node (n := .expression (.array _ _ _)) rfl
      (.tokens (by simp)) rfl fun child hchild => ?_)
    obtain ⟨term, hterm, rfl⟩ := List.mem_map.mp hchild
    obtain ⟨item, hitem, hterm⟩ := List.mem_flatMap.mp hterm
    have hstatement := hread _ (List.mem_map_of_mem (List.mem_map_of_mem hitem))
    exact throughout_contributed hP hstatement _ (List.mem_map_of_mem hterm)
  | @list ts all hne hall ih =>
    rw [List.map_map] at ih
    refine List.forall_mem_singleton.mpr (hP.node (n := .expression (.array _ _ _)) rfl
      (.tokens (hall.ne_nil (by simpa using hne))) rfl ?_)
    rwa [Node.children, List.map_map]
  | @table opening closing inner entries hentries ih =>
    have hread := hP.widen (inner_sublist opening inner closing) ih
    rw [List.map_map] at hread
    refine List.forall_mem_singleton.mpr (hP.node (n := .expression (.table _)) rfl
      (.tokens (by simp)) rfl (List.forall_mem_singleton.mpr
        (hP.node (n := .table _) rfl (.tokens (by simp)) rfl ?_)))
    rwa [Node.children, List.map_map]
  | @entry key ts value hvalue ih =>
    have hread := hP.widen (List.sublist_cons_self key ts) ih
    exact List.forall_mem_singleton.mpr (.intro (hP.entry _) hread)
  | parameter t name =>
    exact List.forall_mem_singleton.mpr (hP.node rfl (.token t) rfl (List.forall_mem_nil _))
  | argument _ _ ih | expressionTerm _ ih | value _ ih | plain _ ih => exact ih
  | joined _ _ _ ihe ihf =>
    exact List.forall_mem_singleton.mpr (throughout_joinValues hP (ihe _ List.mem_cons_self)
      (ihf _ List.mem_cons_self))
  | @commandTerm head ts arguments harguments ih =>
    exact List.forall_mem_singleton.mpr
      (hP.command (.tokens (by simp)) harguments (List.sublist_cons_self head ts) ih)
  | @assignment ts us target value htarget hvalue iht ihv =>
    have hleft := hP.widen (List.sublist_append_left ts us) iht _ List.mem_cons_self
    have hright := hP.widen (List.sublist_append_right ts us) ihv
    exact List.forall_mem_singleton.mpr (hP.node (n := .statement (.assignment _ _ _)) rfl
      (.tokens ((htarget.behind us).ne_nil (by simp))) rfl
      (List.forall_mem_cons.mpr ⟨hleft, hright⟩))
  | @pipeline ts terms hne hterms ih =>
    rw [List.map_map] at ih
    refine List.forall_mem_singleton.mpr (hP.node (n := .statement (.pipeline _ _)) rfl
      (.tokens (hterms.ne_nil (by simpa using hne))) rfl ?_)
    rwa [Node.children, List.map_map]
  | @keyed key ts value hvalue ih =>
    have hread := hP.widen (List.sublist_cons_self key ts) ih
    have hkey : (Node.expression (bareString key)).Throughout (P [key]) :=
      hP.node rfl (.token key) rfl (List.forall_mem_nil _)
    have hfirst : [key].Sublist (key :: ts) := List.singleton_sublist.mpr List.mem_cons_self
    have hwide := hkey.imp fun _ => hP.mono hfirst
    exact List.forall_mem_singleton.mpr (hP.node (n := .statement (.assignment _ _ _)) rfl
      (.tokens (by simp)) rfl (List.forall_mem_cons.mpr ⟨hwide, hread⟩))
  | param hne =>
    exact List.forall_mem_singleton.mpr (hP.node rfl (.tokens hne) rfl (List.forall_mem_nil _))
  | @configuration keyword ts items name hitems ih =>
    have hread := hP.widen (List.sublist_cons_self keyword ts) ih
    rw [List.map_map] at hread
    refine List.forall_mem_singleton.mpr (hP.node (n := .statement (.configuration _ _ _)) rfl
      (.tokens (by simp)) rfl ?_)
    rwa [Node.children, List.map_map]
  | @node keyword ts us target items htarget hitems iht ihi =>
    have hrest := List.sublist_cons_self keyword (ts ++ us)
    have hleft := hP.widen ((List.sublist_append_left ts us).trans hrest) iht _ List.mem_cons_self
    have hright := hP.widen ((List.sublist_append_right ts us).trans hrest) ihi
    rw [List.map_map] at hright
    refine List.forall_mem_singleton.mpr (hP.node (n := .statement (.node _ _ _)) rfl
      (.tokens (by simp)) rfl ?_)
    rw [Node.children, List.map_map]
    exact List.forall_mem_cons.mpr ⟨hleft, hright⟩
  | @command head ts us arguments piped harguments hpiped iha ihp =>
    have hrest := List.sublist_cons_self head (ts ++ us)
    have hmore := hP.widen ((List.sublist_append_right ts us).trans hrest) ihp
    rw [List.map_map] at hmore
    refine List.forall_mem_singleton.mpr (hP.node (n := .statement (.pipeline _ _)) rfl
      (.tokens (by simp)) rfl ?_)
    rw [Node.children, List.map_cons, List.map_map]
    exact List.forall_mem_cons.mpr ⟨hP.command (.tokens (by simp)) harguments
      ((List.sublist_append_left ts us).trans hrest) iha, hmore⟩
  | @textBody head opening closing ts inner arguments items _ _ _ harguments _ iha _ =>
    have hsub := (List.sublist_append_left ts (opening :: inner ++ [closing])).trans
      (List.sublist_cons_self head _)
    exact List.forall_mem_singleton.mpr (hP.node (n := .statement (.pipeline _ _)) rfl
      (.tokens (by simp)) rfl (List.forall_mem_singleton.mpr
        (hP.command (.tokens (by simp)) harguments hsub iha)))
  | @block head opening closing ts inner arguments items name keyed _ harguments hname _ hitems
      hkeyed iha ihi =>
    have hrest := List.sublist_cons_self head (ts ++ (opening :: inner ++ [closing]))
    have hsub := (List.sublist_append_left ts (opening :: inner ++ [closing])).trans hrest
    have hread := hP.widen hsub iha
    have hbody := hP.widen (inner_sublist opening inner closing) ihi
    -- The table of a body stands over the brackets and what is between them.
    have htable : (Node.table ⟨.ofTokens source (opening :: inner ++ [closing]),
        keyed.map keyedEntry⟩).Throughout (P (opening :: inner ++ [closing])) := by
      refine hP.node (n := .table _) rfl (.tokens (by simp)) rfl fun child hchild => ?_
      obtain ⟨entry, hentry, rfl⟩ := List.mem_map.mp hchild
      obtain ⟨⟨key, value⟩, hpair, rfl⟩ := List.mem_map.mp hentry
      obtain ⟨item, hitem, hk⟩ := exists_of_mem_mapM hkeyed hpair
      exact throughout_keyedEntry hP (hbody _ (List.mem_map_of_mem (List.mem_map_of_mem hitem)))
        (hitems.keyed_statement (List.mem_map_of_mem hitem) hk).2
    have hwide := htable.imp fun _ => hP.mono ((List.sublist_append_right ts _).trans hrest)
    rw [List.map_map] at hread
    refine List.forall_mem_singleton.mpr (hP.node (n := .statement (.block _)) rfl
      (.tokens (by simp)) rfl (List.forall_mem_singleton.mpr (.intro
        (hP.spans rfl (.tokens (by simp)) fun _ => ⟨ts, arguments, hsub, harguments, ?_⟩) ?_)))
    · intro e he
      rw [Node.children, ← blockName?_nodes hname] at he
      refine Argument.value_mem ((List.mem_append.mp he).resolve_right fun htable => ?_)
      cases List.mem_singleton.mp htable
    · rw [Node.children, ← blockName?_nodes hname, List.map_map]
      exact List.forall_mem_append.mpr ⟨hread, List.forall_mem_singleton.mpr hwide⟩

end Grammar

end DesiredState

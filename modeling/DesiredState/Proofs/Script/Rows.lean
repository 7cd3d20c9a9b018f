/-
The statements of the node block in the row of all tokens.

Configurations and node blocks are opened: in the place of each stand the statements of
its body, so that in the end the statements of the node block that is read stand in a row
with everything before and behind them.  The tokens of a row are in order, and so what is
known of blocks within one part of the row, namely that their heads and keys stand there,
tells which block is the last one to begin before a key.
-/
import DesiredState.Proofs.Building.Relabelled
import DesiredState.Proofs.Conversion
import DesiredState.Proofs.Script.Names

namespace DesiredState

variable {source : Text}

/-! ### Parts of what is derived -/

namespace Grammar

namespace Derives

/-- Phrases side by side stand over tokens side by side. -/
theorem split {ts : List Token} {rs : List Phrase} (h : Derives source ts rs) {ps qs : List Phrase}
    (hrs : rs = ps ++ qs) :
    ∃ us vs, ts = us ++ vs ∧ Derives source us ps ∧ Derives source vs qs := by
  by_cases hps : ps = []
  · subst hps hrs
    exact ⟨[], ts, rfl, .nil [], h⟩
  by_cases hqs : qs = []
  · subst hqs hrs
    rw [List.append_nil] at h
    exact ⟨ts, [], (List.append_nil ts).symm, h, .nil []⟩
  induction h generalizing ps qs with
  | nil => exact absurd (List.append_eq_nil_iff.mp hrs.symm).1 hps
  | @append ts us ps' qs' hps' hqs' ihp ihq =>
    rcases List.append_eq_append_iff.mp hrs with ⟨more, rfl, rfl⟩ | ⟨more, rfl, rfl⟩
    · by_cases hmore : more = []
      · subst hmore
        exact ⟨ts, us, rfl, by rwa [List.append_nil], hqs'⟩
      · obtain ⟨us', vs, rfl, hus', hvs⟩ := ihq rfl hmore hqs
        exact ⟨ts ++ us', vs, (List.append_assoc _ _ _).symm, hps'.append hus', hvs⟩
    · by_cases hmore : more = []
      · subst hmore
        exact ⟨ts, us, rfl, by rwa [List.append_nil] at hps', hqs'⟩
      · obtain ⟨us', vs, rfl, hus', hvs⟩ := ihp rfl hps hmore
        exact ⟨us', vs ++ us, List.append_assoc _ _ _, hus', hvs.append hqs'⟩
  | _ =>
    -- One phrase is not two.
    have hlength := congrArg List.length hrs
    have hp := List.length_pos_of_ne_nil hps
    have hq := List.length_pos_of_ne_nil hqs
    rw [List.length_append, List.length_singleton] at hlength
    omega

/-- What a configuration or a node block consists of stands in a row over some of its tokens. -/
theorem section_children {ts : List Token} {ps : List Phrase} (h : Derives source ts ps) {p : Phrase}
    (hp : p ∈ ps) {s : Statement} (hs : p.node = .statement s) (hsection : isSection s) :
    ∃ us qs, us.Sublist ts ∧ Derives source us qs ∧
      qs.map Phrase.node = (Node.statement s).children := by
  induction h generalizing p with
  | nil => cases hp
  | append _ _ ihp ihq =>
    rcases List.mem_append.mp hp with hp | hp
    · obtain ⟨us, qs, hus, hread⟩ := ihp hp hs
      exact ⟨us, qs, hus.trans (List.sublist_append_left _ _), hread⟩
    · obtain ⟨us, qs, hus, hread⟩ := ihq hp hs
      exact ⟨us, qs, hus.trans (List.sublist_append_right _ _), hread⟩
  | value _ ih | plain _ ih =>
    obtain rfl := List.mem_singleton.mp hp
    exact ih List.mem_cons_self hs
  | @configuration keyword ts items name hitems =>
    obtain rfl := List.mem_singleton.mp hp
    cases hs
    refine ⟨ts, _, List.sublist_cons_self _ _, hitems, ?_⟩
    rw [Node.children, List.map_map, List.map_map]
    rfl
  | @node keyword ts us target items htarget hitems =>
    obtain rfl := List.mem_singleton.mp hp
    cases hs
    refine ⟨ts ++ us, _, List.sublist_cons_self _ _, htarget.append hitems, ?_⟩
    rw [Node.children, List.map_append, List.map_map, List.map_map]
    rfl
  | leaf | member | unrecognized | array | list | table | entry | expressionTerm | commandTerm |
      parameter | argument | joined =>
    obtain rfl := List.mem_singleton.mp hp
    cases hs
  | _ =>
    obtain rfl := List.mem_singleton.mp hp
    cases hs
    cases hsection

end Derives

end Grammar

/-! ### Rows

A configuration is opened to its statements, and so is a node block, as long as all
blocks of the script are kept.  In the end the blocks that declare resources stand in
one row with all others.
-/

/-- Nodes of a script that stand in a row among its tokens, all blocks of the script in them. -/
structure Script.Row (source : Text) (script : Script) (nodes : List Node) : Prop where
  derived : ∃ ts ps, ts.Sublist (Token.significant (Token.scan source)) ∧
    Grammar.Derives source ts ps ∧ ps.map Phrase.node = nodes
  covers : ∀ b, Node.Occurs script.statements (.block b) → ∃ n ∈ nodes, n.Holds (.block b)

namespace Script

variable {script : Script}

/-- The statements of a script stand in a row. -/
theorem row_statements (h : parse source = .ok script) :
    Row source script (script.statements.map .statement) := by
  obtain ⟨-, items, hitems, rfl⟩ := parse_eq_ok_iff.mp h
  refine ⟨⟨_, _, List.Sublist.refl _, Grammar.derives_of_script hitems, ?_⟩, ?_⟩
  · rw [List.map_map, List.map_map]
    rfl
  · rintro b ⟨s, hs, hholds⟩
    exact ⟨_, List.mem_map_of_mem hs, hholds⟩

/-- In the place of a configuration or a node block stands what it consists of. -/
theorem Row.opened {front behind : List Node} {s : Statement}
    (h : Row source script (front ++ .statement s :: behind)) (hsection : Grammar.isSection s) :
    Row source script (front ++ ((Node.statement s).children ++ behind)) := by
  obtain ⟨ts, ps, hts, hderives, hnodes⟩ := h.derived
  obtain ⟨ps₁, rest, rfl, rfl, hrest⟩ := List.map_eq_append_iff.mp hnodes
  obtain ⟨p, ps₂, rfl, hp, rfl⟩ := List.map_eq_cons_iff.mp hrest
  obtain ⟨us, vs, rfl, hus, hvs⟩ := hderives.split rfl
  obtain ⟨ws, xs, rfl, hws, hxs⟩ := hvs.split (show p :: ps₂ = [p] ++ ps₂ from rfl)
  obtain ⟨inner, qs, hinner, hqs, hchildren⟩ := hws.section_children List.mem_cons_self hp hsection
  refine ⟨⟨us ++ (inner ++ xs), ps₁ ++ (qs ++ ps₂), ?_, hus.append (hqs.append hxs), ?_⟩,
    fun b hb => ?_⟩
  · exact ((List.Sublist.refl us).append (hinner.append (List.Sublist.refl xs))).trans hts
  · rw [List.map_append, List.map_append, hchildren]
  · obtain ⟨n, hn, hholds⟩ := h.covers b hb
    rcases List.mem_append.mp hn with hn | hn
    · exact ⟨n, List.mem_append_left _ hn, hholds⟩
    rcases List.mem_cons.mp hn with rfl | hn
    · rcases hholds.eq_or_child with heq | ⟨child, hchild, hholds⟩
      · cases heq
      · exact ⟨child, List.mem_append_right _ (List.mem_append_left _ hchild), hholds⟩
    · exact ⟨n, List.mem_append_right _ (List.mem_append_right _ hn), hholds⟩

/-- **The statements of the node block that is read stand in a row** with everything else. -/
theorem row_nodeBlock (h : parse source = .ok script) {extent : Extent} {body : List Statement}
    (hnode : Build.nodeBlock? script.statements = some (extent, body)) :
    ∃ front behind, Row source script (front ++ (body.map .statement ++ behind)) := by
  obtain ⟨c, hc, hfirst⟩ := Option.bind_eq_some_iff.mp hnode
  obtain ⟨target, hmem⟩ := Build.mem_of_firstNode? hfirst
  obtain ⟨before, after, hstatements⟩ := List.append_of_mem (Build.mem_of_configuration? hc)
  obtain ⟨before', after', hbody⟩ := List.append_of_mem hmem
  have hrow := row_statements h
  rw [hstatements, List.map_append, List.map_cons] at hrow
  have hopened := hrow.opened rfl
  rw [Node.children, hbody, List.map_append, List.map_cons, List.append_assoc, List.cons_append,
    ← List.append_assoc] at hopened
  have hblock := hopened.opened rfl
  rw [Node.children, List.cons_append, List.append_cons] at hblock
  exact ⟨_, _, hblock⟩

theorem occurs_of_nodeBlock {script : Script} {extent : Extent} {body : List Statement}
    (hnode : Build.nodeBlock? script.statements = some (extent, body)) {s : Statement}
    (hs : s ∈ body) : Node.Occurs script.statements (.statement s) := by
  obtain ⟨c, hc, hfirst⟩ := Option.bind_eq_some_iff.mp hnode
  obtain ⟨target, hmem⟩ := Build.mem_of_firstNode? hfirst
  refine ⟨_, Build.mem_of_configuration? hc, .child (.child .self (List.mem_map_of_mem hmem)) ?_⟩
  exact List.mem_cons_of_mem _ (List.mem_map_of_mem hs)

end Script

/-! ### Heads and keys in order

Which block owns a key is a question about the last head before it.  A block in a row
begins with its head, so that all of its keys stand behind this head and before the next
node.
-/

/-- What is known of a block within tokens that stand one behind the other: where its head is, and
that its keys and the blocks within it stand behind. -/
structure Block.Begins (source : Text) (tokens : List Token) (b : Block) (head : Token) : Prop where
  mem : head ∈ tokens
  keyword : b.keyword = head.text
  location : b.keywordLocation = head.location
  keys : ∀ entry ∈ b.body.entries, ∃ key ∈ tokens,
    entry.keyLocation = key.location ∧ head.start.offset < key.start.offset
  within : ∀ child ∈ (Node.block b).children, ∃ us, us.Sublist tokens ∧
    (∀ u ∈ us, head.start.offset < u.start.offset) ∧
      ∃ marks, child.Marked source us marks

theorem Block.Marked.exists_begins {tokens : List Token} {marks : List Mark} {b : Block}
    (h : b.Marked source marks tokens)
    (ordered : tokens.Pairwise fun t u => t.start.offset < u.start.offset) :
    ∃ head, b.Begins source tokens head := by
  cases h with
  | @intro _ head opening between inner before after hread hwithin =>
    rw [List.append_assoc, List.pairwise_append, List.cons_append, List.pairwise_cons] at ordered
    obtain ⟨-, ⟨hbehind, -⟩, -⟩ := ordered
    have hsub : (between ++ opening :: inner).Sublist
        (before ++ head :: (between ++ opening :: inner) ++ after) :=
      ((List.sublist_cons_self head _).trans (List.sublist_append_right before _)).trans
        (List.sublist_append_left _ after)
    refine ⟨head, by simp, hread.keyword, hread.location, fun entry hentry => ?_,
      fun child hchild => ⟨_, hsub, fun u hu => hbehind u (List.mem_append_left _ hu), marks,
        fun b' hb' => hwithin child hchild b' hb'⟩⟩
    obtain ⟨key, hkey, -, hlocation, -⟩ := hread.keys entry hentry
    have hin : key ∈ between ++ opening :: inner :=
      List.mem_append_right _ (List.mem_cons_of_mem _ hkey)
    exact ⟨key, hsub.subset hin, hlocation, hbehind key (List.mem_append_left _ hin)⟩

namespace Script

variable {script : Script}

/-- A row is cut at one of its nodes into tokens before it, of it and behind it. -/
theorem Row.cut {front behind : List Node} {n : Node}
    (h : Row source script (front ++ n :: behind)) : ∃ us vs ws marks,
      (us ++ (vs ++ ws)).Sublist (Token.significant (Token.scan source)) ∧
      (∀ m ∈ front, m.Marked source us marks) ∧ n.Marked source vs marks ∧
        ∀ m ∈ behind, m.Marked source ws marks := by
  obtain ⟨ts, ps, hts, hderives, hnodes⟩ := h.derived
  obtain ⟨ps₁, rest, rfl, rfl, hrest⟩ := List.map_eq_append_iff.mp hnodes
  obtain ⟨p, ps₂, rfl, rfl, rfl⟩ := List.map_eq_cons_iff.mp hrest
  obtain ⟨us, more, rfl, hus, hmore⟩ := hderives.split rfl
  obtain ⟨vs, ws, rfl, hvs, hws⟩ := hmore.split (show p :: ps₂ = [p] ++ ps₂ from rfl)
  have hmarked {ts : List Token} {qs : List Phrase} (hqs : Grammar.Derives source ts qs)
      (hsub : qs ⊆ ps₁ ++ p :: ps₂) : ∀ m ∈ qs.map Phrase.node,
        m.Marked source ts ((ps₁ ++ p :: ps₂).flatMap (·.marks)) := by
    intro m hm
    obtain ⟨q, hq, rfl⟩ := List.mem_map.mp hm
    refine (hqs.marked hq).mono (List.infix_refl _) fun mark hmark => ?_
    exact List.mem_flatMap.mpr ⟨q, hsub hq, hmark⟩
  exact ⟨us, vs, ws, _, hts, hmarked hus (by simp), hmarked hvs (by simp) p.node (by simp),
    hmarked hws (by simp)⟩

end Script

/-- The keys of all blocks within a block stand behind its head. -/
theorem Block.Begins.key_behind {tokens : List Token} {r b : Block} {head : Token}
    (h : r.Begins source tokens head) (hholds : (Node.block r).Holds (.block b)) {entry : Entry}
    (hentry : entry ∈ b.body.entries) : ∃ key ∈ tokens,
      entry.keyLocation = key.location ∧ head.start.offset < key.start.offset := by
  rcases hholds.eq_or_child with heq | ⟨child, hchild, hholds⟩
  · cases heq
    exact h.keys entry hentry
  · obtain ⟨us, hus, hbehind, marks, hmarked⟩ := h.within child hchild
    obtain ⟨key, hkey, -, hlocation, -⟩ := (hmarked b hholds).keys entry hentry
    exact ⟨key, hus.subset hkey, hlocation, hbehind key hkey⟩

namespace Script

variable {script : Script}

/-- The statements of a node block that declare resources. -/
def IsDeclared (body : List Statement) (r : Block) : Prop :=
  .block r ∈ body ∧ r.instanceName.isSome

/-- A token with an offset between those of two others stands between them. -/
theorem mem_between (h : parse source = .ok script) {before middle after : List ClassifiedToken}
    {head key : ClassifiedToken} (htokens : script.tokens = before ++ head :: (middle ++ key :: after))
    {t : ClassifiedToken} (ht : t ∈ script.tokens) (hlow : head.start.offset < t.start.offset)
    (hhigh : t.start.offset < key.start.offset) : t ∈ middle := by
  have hordered := pairwise_tokens h
  rw [htokens] at hordered ht
  rw [List.pairwise_append, List.pairwise_cons, List.pairwise_append] at hordered
  obtain ⟨-, ⟨-, -, hrest, -⟩, hbefore⟩ := hordered
  rcases List.mem_append.mp ht with hin | hin
  · exact absurd (hbefore t hin head List.mem_cons_self) (Nat.lt_asymm hlow)
  rcases List.mem_cons.mp hin with rfl | hin
  · exact absurd hlow (Nat.lt_irrefl _)
  rcases List.mem_append.mp hin with hin | hin
  · exact hin
  rcases List.mem_cons.mp hin with rfl | hin
  · exact absurd hhigh (Nat.lt_irrefl _)
  · exact absurd (List.rel_of_pairwise_cons hrest hin) (Nat.lt_asymm hhigh)

/-- A key that stands behind a head, with no head of a named block between them. -/
structure KeyBehind (source : Text) (script : Script) (head key : Token) : Prop where
  head_mem : head ∈ Token.scan source
  key_mem : key ∈ Token.scan source
  behind : head.start.offset < key.start.offset
  headless : ∀ t ∈ Token.significant (Token.scan source), head.start.offset < t.start.offset →
    t.start.offset < key.start.offset → ¬ script.IsHead t.text t.location

namespace KeyBehind

variable {head key : Token} {ts : List Token} {b : Block} {entry : Entry}

theorem of_tokens (h : parse source = .ok script) {front middle behind : List ClassifiedToken}
    {head key : ClassifiedToken}
    (htokens : script.tokens = front ++ head :: (middle ++ key :: behind))
    (hheadless : ∀ t ∈ middle, ¬ script.IsHead t.text t.start.toLocation) :
    ∃ t k, KeyBehind source script t k ∧ head.start.toLocation = t.location ∧
      key.start.toLocation = k.location := by
  have hordered := pairwise_tokens h
  rw [htokens, List.pairwise_append, List.pairwise_cons] at hordered
  have hlower : head.start.offset < key.start.offset := hordered.2.1.1 key (by simp)
  have hhead : head ∈ script.tokens := by simp [htokens]
  have hkey : key ∈ script.tokens := by simp [htokens]
  obtain ⟨hknown, items, -, rfl⟩ := parse_eq_ok_iff.mp h
  obtain ⟨t, ht, rfl⟩ := List.mem_map.mp hhead
  obtain ⟨k, hk, rfl⟩ := List.mem_map.mp hkey
  refine ⟨t, k, ⟨(List.mem_filter.mp ht).1, (List.mem_filter.mp hk).1,
    hlower, fun u hu hlow hhigh => ?_⟩, rfl, rfl⟩
  obtain ⟨hin, hsignificant⟩ := List.mem_filter.mp hu
  have hstream : ClassifiedToken.of (items.flatMap (·.marks)).reverse u ∈
      streamOf (items.flatMap (·.marks)) (Token.scan source) :=
    List.mem_map_of_mem (List.mem_filter.mpr ⟨hin, by rw [hsignificant, Bool.true_or]⟩)
  exact hheadless _ (mem_between h htokens hstream hlow hhigh)

variable (K : KeyBehind source script head key) (h : parse source = .ok script)
  (hsub : ts.Sublist (Token.significant (Token.scan source)))
include K h hsub

/-- The token at the place of the key is the key. -/
theorem eq_key (hplace : entry.keyLocation = key.location) {t : Token} (ht : t ∈ ts)
    (hlocation : entry.keyLocation = t.location) : t = key :=
  Token.eq_of_location (parse_eq_ok_iff.mp h).1 (List.mem_filter.mp (hsub.subset ht)).1 K.key_mem
    (hlocation.symm.trans hplace)

/-- Among tokens behind the head no named block begins that has the key within it. -/
theorem nameless (hbehind : ∀ t ∈ ts, head.start.offset < t.start.offset) {marks : List Mark}
    {r : Block} (hr : Node.Occurs script.statements (.block r)) (hmarked : r.Marked source marks ts)
    (hholds : (Node.block r).Holds (.block b)) (hentry : entry ∈ b.body.entries)
    (hplace : entry.keyLocation = key.location) : r.instanceName = none := by
  have ordered := (Token.pairwise_start (parse_eq_ok_iff.mp h).1).sublist
    (hsub.trans List.filter_sublist)
  obtain ⟨t, ht⟩ := hmarked.exists_begins ordered
  obtain ⟨u, hu, hlocation, hbetween⟩ := ht.key_behind hholds hentry
  obtain rfl := K.eq_key h hsub hplace hu hlocation
  by_contra hnamed
  exact K.headless t (hsub.subset ht.mem) (hbehind t ht.mem) hbetween
    ⟨r, hr, Option.isSome_iff_ne_none.mpr hnamed, ht.keyword, ht.location⟩

omit hsub in
/-- In a row that is cut at the resource with the head, no block with the key stands before the
resource, and a block in the resource or behind it that has the key within it is without a name. -/
theorem around {r : Block} {front behind : List Node}
    (hrow : Row source script (front ++ .statement (.block r) :: behind))
    (hhead : r.keywordLocation = head.location) (hentry : entry ∈ b.body.entries)
    (hplace : entry.keyLocation = key.location) :
    (∀ n ∈ front, ¬ n.Holds (.block b)) ∧
      ∀ r', Node.Occurs script.statements (.block r') → (Node.block r').Holds (.block b) →
        ∀ n, n ∈ (Node.block r).children ∨ n ∈ behind → n.Holds (.block r') →
          r'.instanceName = none := by
  obtain ⟨us, vs, ws, marks, hsub, hleft, hmiddle, hright⟩ := hrow.cut
  have hus := (List.sublist_append_left us (vs ++ ws)).trans hsub
  have hvs := ((List.sublist_append_left vs ws).trans (List.sublist_append_right us _)).trans hsub
  have hws := ((List.sublist_append_right vs ws).trans (List.sublist_append_right us _)).trans hsub
  have hknown := (parse_eq_ok_iff.mp h).1
  have hordered := (Token.pairwise_start hknown).sublist (hsub.trans List.filter_sublist)
  rw [List.pairwise_append, List.pairwise_append] at hordered
  obtain ⟨-, ⟨hvsOrdered, -, hacross⟩, hfirst⟩ := hordered
  obtain ⟨t, hbegins⟩ := (hmiddle r (.child .self List.mem_cons_self)).exists_begins hvsOrdered
  obtain rfl : t = head :=
    Token.eq_of_location hknown (List.mem_filter.mp (hvs.subset hbegins.mem)).1 K.head_mem
      (hbegins.location.symm.trans hhead)
  refine ⟨fun n hn hholds => ?_, fun r' hr' hwithin n hn hholds => ?_⟩
  · obtain ⟨u, hu, -, hlocation, -⟩ := (hleft n hn b hholds).keys entry hentry
    obtain rfl := K.eq_key h hus hplace hu hlocation
    exact Nat.lt_asymm K.behind (hfirst u hu t (List.mem_append_left _ hbegins.mem))
  · rcases hn with hn | hn
    · obtain ⟨ts, hts, hbehind, marks', hmarked⟩ := hbegins.within n hn
      exact K.nameless h (hts.trans hvs) hbehind hr' (hmarked r' hholds) hwithin hentry hplace
    · exact K.nameless h hws (hacross t hbegins.mem) hr' (hright n hn r' hholds) hwithin hentry
        hplace

end KeyBehind

/-- **The last resource to begin before a key owns it**: if no head of a named block stands between
the head of a resource and a key, then the key is one of the resource, or one of a block without
a name that stands in no other resource. -/
theorem owner_of_key (h : parse source = .ok script) {extent : Extent} {body : List Statement}
    (hnode : Build.nodeBlock? script.statements = some (extent, body)) {r b : Block}
    (hr : IsDeclared body r) (hb : Node.Occurs script.statements (.block b))
    {front middle behind : List ClassifiedToken} {head key : ClassifiedToken}
    (htokens : script.tokens = front ++ head :: (middle ++ key :: behind))
    (hplace : r.keywordLocation = head.start.toLocation) (hk : b.IsKey key.text key.start.toLocation)
    (hheadless : ∀ t ∈ middle, ¬ script.IsHead t.text t.start.toLocation) :
    b = r ∨ b.instanceName = none ∧
      ∀ r', IsDeclared body r' → (Node.block r').Holds (.block b) → r' = r := by
  obtain ⟨t, k, K, hhead, hkey⟩ := KeyBehind.of_tokens h htokens hheadless
  obtain ⟨entry, hentry, -, hkplace⟩ := hk
  rw [hhead] at hplace
  rw [hkey] at hkplace
  obtain ⟨front, behind, hrow⟩ := row_nodeBlock h hnode
  obtain ⟨before, after, rfl⟩ := List.append_of_mem hr.1
  rw [List.map_append, List.map_cons, List.append_assoc, List.cons_append, ← List.append_assoc] at hrow
  obtain ⟨hbefore, hwithin⟩ := K.around h hrow hplace hentry hkplace
  cases hname : b.instanceName with
  | some name =>
    -- A named block with the key begins at the head.
    have hnamed : b.instanceName ≠ none := by simp [hname]
    refine .inl ?_
    obtain ⟨n, hn, hholds⟩ := hrow.covers b hb
    rcases List.mem_append.mp hn with hn | hn
    · exact absurd hholds (hbefore n hn)
    rcases List.mem_cons.mp hn with rfl | hn
    · rcases hholds.eq_or_child with heq | ⟨_, hchild, hholds⟩
      · cases heq
      obtain rfl := List.mem_singleton.mp hchild
      rcases hholds.eq_or_child with heq | ⟨child, hchild, hholds⟩
      · cases heq
        rfl
      · exact absurd (hwithin b hb .self child (.inl hchild) hholds) hnamed
    · exact absurd (hwithin b hb .self n (.inr hn) hholds) hnamed
  | none =>
    refine .inr ⟨rfl, fun r' hr' hholds => ?_⟩
    rcases List.mem_append.mp hr'.1 with hmem | hmem
    · exact absurd (hholds.of_child List.mem_cons_self)
        (hbefore _ (List.mem_append_right _ (List.mem_map_of_mem hmem)))
    rcases List.mem_cons.mp hmem with heq | hmem
    · cases heq
      rfl
    · obtain ⟨s, hs, hin⟩ := occurs_of_nodeBlock hnode hr'.1
      have hnone := hwithin r' ⟨s, hs, .child hin List.mem_cons_self⟩ hholds (.statement (.block r'))
        (.inr (List.mem_append_left _ (List.mem_map_of_mem hmem))) (.child .self List.mem_cons_self)
      exact absurd hr'.2 (by simp [hnone])

end Script

end DesiredState

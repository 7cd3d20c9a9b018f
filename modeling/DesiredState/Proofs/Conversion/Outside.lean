/-
Comments outside of the node block.

What is built of a text comes from the node block that is read, so comments outside of
its braces make no difference to it, and may as well be blank.  Comments are attached by
another rule, which goes by the order of tokens and takes no notice of braces: a comment
belongs to the key before it, wherever it stands.  So what may be left out are comments
outside of the braces before which, going back, there is no key, or the head of a block
before any key.  The comment behind a closing brace is not one of them.
-/
import DesiredState.Configuration.Exchange
import DesiredState.Proofs.Building.Relabelled
import DesiredState.Proofs.Conversion
import DesiredState.Proofs.Script.Window
import DesiredState.Proofs.Stream

namespace DesiredState

/-! ### Braces

A block of the tree says where it ends and not which braces are its own.  They are found
again among the tokens: brackets nest in an accepted text, so only one pair of braces
can close at that offset.
-/

/-- The braces of a block that ends at an offset: what stands between them nests. -/
structure Token.Braces (tokens : List Token) (stop : Nat) (opening closing : Token) : Prop where
  opens : opening.kind = .braceOpen
  closes : closing.kind = .braceClose
  ends : closing.stop.offset = stop
  nests : ∃ before inner after, tokens = before ++ opening :: inner ++ closing :: after ∧
    Nesting.Balanced inner

namespace Token.Braces

variable {tokens : List Token} {stop : Nat} {opening closing opening' closing' : Token}

/-- Where brackets nest no bracket before them is closed. -/
theorem not_balanced_cons {front inner : List Token} (ho : opening.kind = .braceOpen)
    (hinner : Nesting.Balanced inner) : ¬ Nesting.Balanced (front ++ opening :: inner) := by
  intro h
  have hrun := h []
  rw [Nesting.run_append] at hrun
  obtain ⟨stack, -, hrest⟩ := Option.bind_eq_some_iff.mp hrun
  have hpush : Nesting.push stack opening.kind = some (.braceClose :: stack) := by
    rw [ho]
    rfl
  rw [Nesting.run, hpush, Option.bind_some] at hrest
  have hstack := hinner (.braceClose :: stack)
  rw [List.nil_append] at hstack
  rw [hstack] at hrest
  cases hrest

/-- A block that ends somewhere has one pair of braces. -/
theorem unique (ordered : tokens.Pairwise fun t u => t.stop.offset ≤ u.start.offset)
    (hsize : ∀ t ∈ tokens, t.start.offset < t.stop.offset)
    (h : Braces tokens stop opening closing) (h' : Braces tokens stop opening' closing') :
    opening = opening' ∧ closing = closing' := by
  obtain ⟨before, inner, after, htokens, hbalanced⟩ := h.nests
  obtain ⟨before', inner', after', htokens', hbalanced'⟩ := h'.nests
  -- No token ends where an earlier one does.
  have hlater {front behind middle : List Token} {t u : Token}
      (hsplit : tokens = front ++ t :: (middle ++ u :: behind)) : t.stop.offset ≠ u.stop.offset := by
    rw [hsplit] at ordered hsize
    have hu : u ∈ middle ++ u :: behind := List.mem_append_right _ List.mem_cons_self
    have hstart := (List.pairwise_cons.mp (List.pairwise_append.mp ordered).2.1).1 u hu
    have := hsize u (List.mem_append_right _ (List.mem_cons_of_mem _ hu))
    omega
  have hends : closing.stop.offset = closing'.stop.offset := h.ends.trans h'.ends.symm
  have hsame : before ++ opening :: inner = before' ++ opening' :: inner' ∧ closing = closing' := by
    rcases List.append_eq_append_iff.mp (htokens.symm.trans htokens') with
      ⟨more, hmore, hbehind⟩ | ⟨more, hmore, hbehind⟩
    · cases more with
      | nil =>
        rw [List.append_nil] at hmore
        exact ⟨hmore.symm, (List.cons.inj hbehind).1⟩
      | cons first rest =>
        obtain ⟨rfl, hrest⟩ := List.cons.inj hbehind
        rw [hrest] at htokens
        exact absurd hends (hlater htokens)
    · cases more with
      | nil =>
        rw [List.append_nil] at hmore
        exact ⟨hmore, (List.cons.inj hbehind).1.symm⟩
      | cons first rest =>
        obtain ⟨rfl, hrest⟩ := List.cons.inj hbehind
        rw [hrest] at htokens'
        exact absurd hends.symm (hlater htokens')
  refine ⟨?_, hsame.2⟩
  rcases List.append_eq_append_iff.mp hsame.1 with ⟨more, -, hinner⟩ | ⟨more, -, hinner⟩
  · cases more with
    | nil => exact (List.cons.inj hinner).1
    | cons first rest =>
      obtain ⟨-, rfl⟩ := List.cons.inj hinner
      exact absurd hbalanced (not_balanced_cons h'.opens hbalanced')
  · cases more with
    | nil => exact (List.cons.inj hinner).1.symm
    | cons first rest =>
      obtain ⟨-, rfl⟩ := List.cons.inj hinner
      exact absurd hbalanced' (not_balanced_cons h.opens hbalanced)

end Token.Braces

/-- The braces of a node block that was read. -/
theorem Grammar.NodeReading.braces {source : Text} {tokens : List Token} {extent : Extent}
    {statements : List Statement} (R : NodeReading source tokens extent statements)
    (stands : ∀ t ∈ tokens, t.StandsIn source)
    (ordered : tokens.Pairwise fun t u => t.stop.offset ≤ u.start.offset) :
    Token.Braces tokens (extent.location.offsetIn source + extent.text.size) R.opening
      R.closing where
  opens := R.opens
  closes := R.closes
  nests := ⟨R.before, R.inner, R.after, R.tokens_eq, R.balanced⟩
  ends := by
    have hkeyword : R.keyword ∈ tokens := by
      have h : R.keyword ∈ R.before ++ R.opening :: R.inner ++ R.closing :: R.after :=
        List.mem_append_left _ (List.mem_append_left _ R.keyword_mem)
      rwa [← R.tokens_eq] at h
    have hstop : R.keyword.stop.offset ≤ R.closing.start.offset := by
      have htokens := R.tokens_eq
      rw [List.append_assoc] at htokens
      rw [htokens] at ordered
      exact (List.pairwise_append.mp ordered).2.2 R.keyword R.keyword_mem R.closing
        (List.mem_cons_of_mem _ (List.mem_append_right _ List.mem_cons_self))
    have hle : R.keyword.start.offset ≤ R.closing.stop.offset :=
      Nat.le_trans (Nat.le_trans (Position.offset_le_advance _ _) hstop)
        (Position.offset_le_advance _ _)
    have hlocation : extent.location.offsetIn source = R.keyword.start.offset := by
      rw [congrArg Extent.location R.extent_eq]
      exact (stands _ hkeyword).offset
    have hsize : extent.text.size = R.closing.stop.offset - R.keyword.start.offset := by
      rw [congrArg Extent.text R.extent_eq]
      exact Text.size_slice _ (stands _ R.closing_mem).fits
    omega

/-- The node block of a script that is read was read between braces. -/
theorem Build.exists_nodeReading {source : Text} {tokens : List Token} {items : List Item}
    (h : Grammar.script source tokens = .ok items) {extent : Extent} {body : List Statement}
    (hnode : nodeBlock? (items.map (·.statement)) = some (extent, body)) :
    Nonempty (Grammar.NodeReading source tokens extent body) := by
  obtain ⟨c, hc, hfirst⟩ := Option.bind_eq_some_iff.mp hnode
  obtain ⟨item, hitem, hconfiguration⟩ := List.mem_map.mp (mem_of_configuration? hc)
  obtain ⟨list, hlist, hread⟩ :=
    (Grammar.readAmong_of_script h hitem).configuration hconfiguration
  obtain ⟨target, hmem⟩ := mem_of_firstNode? hfirst
  rw [hlist] at hmem
  obtain ⟨inner, hinner, hstatement⟩ := List.mem_map.mp hmem
  exact (hread inner hinner).node hstatement

/-! ### Comments outside of braces

The comments that are blanked out stand in front of the braces and behind them.  What
stands between is a window on both texts, through which the same tokens are seen in the
same places.
-/

namespace Token

variable {source : Text} {opening closing : Token} {stop : Nat}

/-- Whether an offset lies outside of two braces. -/
def outside (opening closing : Token) (offset : Nat) : Bool :=
  decide (offset < opening.start.offset) || decide (closing.start.offset < offset)

/-- Whether a token is a comment outside of two braces. -/
def isOuterComment (opening closing : Token) (t : Token) : Bool :=
  t.kind.isComment && outside opening closing t.start.offset

theorem isComment_of_isOuterComment (t : Token) (h : isOuterComment opening closing t) :
    t.kind.isComment := (Bool.and_eq_true_iff.mp h).1

/-- What stands between the braces stays. -/
theorem Braces.slice_blanked (hb : Braces (significant (scan source)) stop opening closing)
    (h : unknowns (scan source) = []) {a b : Nat} (ha : opening.stop.offset ≤ a)
    (hstop : b ≤ closing.start.offset) :
    (blankedText (isOuterComment opening closing) (scan source)).slice a b = source.slice a b := by
  obtain ⟨before, inner, after, htokens, -⟩ := hb.nests
  rw [List.append_assoc, List.cons_append] at htokens
  -- Between the braces of all tokens, comments included, none is outside.
  obtain ⟨front, rest, hscan, -, hrest⟩ := List.filter_eq_append_iff.mp htokens
  obtain ⟨blanks, behind, rfl, -, -, hbehind⟩ := List.filter_eq_cons_iff.mp hrest
  obtain ⟨middle, tail, rfl, -, htail⟩ := List.filter_eq_append_iff.mp hbehind
  obtain ⟨blanks', last, rfl, -, -, -⟩ := List.filter_eq_cons_iff.mp htail
  have hsplit : scan source = (front ++ blanks ++ [opening]) ++ (middle ++ blanks') ++
      closing :: last := by
    rw [hscan]
    simp
  have hopening : (textOf (front ++ blanks ++ [opening])).size = opening.stop.offset := by
    have hstart : opening.start.offset = (textOf (front ++ blanks)).size :=
      start_offset h (by rw [hscan, List.append_assoc])
    rw [textOf_append, Text.size_append, ← hstart, Token.stop, Position.advance_offset]
    simp [textOf]
  have hclosing : closing.start.offset =
      (textOf (front ++ blanks ++ [opening])).size + (textOf (middle ++ blanks')).size := by
    rw [start_offset h hsplit, textOf_append, Text.size_append]
  refine Token.slice_blanked h hsplit ?_ (by omega) (by omega)
  intro t ht
  obtain ⟨first, second, hfound⟩ := List.append_of_mem ht
  have hordered := pairwise_scan h
  rw [hsplit, hfound] at hordered
  have hafter : opening.stop.offset ≤ t.start.offset := by
    rw [List.append_assoc] at hordered
    exact (List.pairwise_append.mp hordered).2.2 opening (List.mem_append_right _ List.mem_cons_self)
      t (List.mem_append_left _ (List.mem_append_right _ List.mem_cons_self))
  have hbefore : t.stop.offset ≤ closing.start.offset :=
    (List.pairwise_append.mp hordered).2.2 t
      (List.mem_append_right _ (List.mem_append_right _ List.mem_cons_self)) closing
      List.mem_cons_self
  have hsize := Position.offset_le_advance opening.start opening.text
  have hsize' := Position.offset_le_advance t.start t.text
  change opening.start.offset ≤ opening.stop.offset at hsize
  change t.start.offset ≤ t.stop.offset at hsize'
  have hinside : outside opening closing t.start.offset = false := by
    simp only [outside, Bool.or_eq_false_iff, decide_eq_false_iff_not]
    omega
  rw [isOuterComment, hinside, Bool.and_false]

/-- The text with comments outside of the braces blanked out, seen between the braces. -/
def Braces.window (hb : Braces (significant (scan source)) stop opening closing)
    (h : unknowns (scan source) = []) (hpaired : source.ReturnsPaired)
    (hbalanced : Nesting.Balanced (significant (scan source))) : Window :=
  .ofBlanked h isComment_of_isOuterComment hpaired hbalanced (fun _ => True)
    (fun a b => opening.stop.offset ≤ a ∧ b ≤ closing.start.offset) (fun _ _ => instDecidableAnd)
    (fun _ _ hseen => hb.slice_blanked h hseen.1 hseen.2) (fun _ _ => ⟨trivial, trivial⟩)

/-- Whether an entry of a stream is one of the comments outside of the braces. -/
def isOuterEntry (opening closing : Token) (tokens : List Token) (c : ClassifiedToken) : Bool :=
  c.role == .comment &&
    tokens.any fun t => isOuterComment opening closing t && t.start.offset == c.start.offset

theorem outside_of_isOuterEntry {tokens : List Token} {c : ClassifiedToken}
    (h : isOuterEntry opening closing tokens c) :
    c.role = .comment ∧ outside opening closing c.start.offset := by
  obtain ⟨hrole, hany⟩ := Bool.and_eq_true_iff.mp h
  obtain ⟨t, -, ht⟩ := List.any_eq_true.mp hany
  obtain ⟨houter, hstart⟩ := Bool.and_eq_true_iff.mp ht
  rw [← beq_iff_eq.mp hstart]
  exact ⟨beq_iff_eq.mp hrole, (Bool.and_eq_true_iff.mp houter).2⟩

/-- **Of the stream of the text the comments outside of the braces are left out.** -/
theorem streamOf_blanked (h : unknowns (scan source) = []) {marks : List Mark}
    (hmarks : ∀ mark ∈ marks, ∃ t ∈ significant (scan source), t.start.offset = mark.offset) :
    Script.streamOf marks (scan (blankedText (isOuterComment opening closing) (scan source))) =
      (Script.streamOf marks (scan source)).filter
        fun c => !isOuterEntry opening closing (scan source) c := by
  have hentry : ∀ t ∈ scan source,
      isOuterEntry opening closing (scan source) (ClassifiedToken.of marks.reverse t) =
        isOuterComment opening closing t := by
    intro t ht
    cases houter : isOuterComment opening closing t with
    | true =>
      -- The marks are all on tokens that the grammar sees.
      have hcomment := isComment_of_isOuterComment t houter
      have hrole : (ClassifiedToken.of marks.reverse t).role = .comment := by
        rw [ClassifiedToken.role_of_unmarked]
        · generalize t.kind = kind at hcomment
          cases kind <;> first | rfl | cases hcomment
        · intro mark hm hoffset
          obtain ⟨u, hu, hstart⟩ := hmarks mark hm
          obtain ⟨hmem, hsignificant⟩ := List.mem_filter.mp hu
          obtain rfl := eq_of_start h hmem ht (hstart.trans hoffset)
          rw [TokenKind.isSignificant_eq_false hcomment] at hsignificant
          cases hsignificant
      refine Bool.and_eq_true_iff.mpr ⟨beq_iff_eq.mpr hrole, List.any_eq_true.mpr ⟨t, ht, ?_⟩⟩
      rw [houter]
      exact beq_iff_eq.mpr rfl
    | false =>
      refine Bool.and_eq_false_iff.mpr (.inr (List.any_eq_false.mpr ?_))
      intro u hu hselected
      obtain ⟨houter', hstart⟩ := Bool.and_eq_true_iff.mp hselected
      obtain rfl := eq_of_start h hu ht (beq_iff_eq.mp hstart)
      rw [houter] at houter'
      cases houter'
  rw [← Script.streamOf_visible, visible_scan_blanked h isComment_of_isOuterComment,
    ← Script.streamOf_visible marks (scan source)]
  unfold Script.streamOf
  rw [List.filter_map, List.filter_filter, List.filter_filter]
  refine congrArg _ (List.filter_congr fun t ht => ?_)
  rw [Function.comp_apply, hentry t (List.mem_filter.mp ht).1, Bool.and_comm]

end Token

/-! ### Conversions -/

/-- Of the source the lines alone count. -/
theorem Relabelling.within_congr {source source' : Text} {start stop : Nat}
    (h : ∀ location : Location, location.offsetIn source' = location.offsetIn source) :
    within source' start stop = within source start stop := by
  have hextent (e : Extent) : (within source' start stop).extent e =
      (within source start stop).extent e := by
    by_cases hw : e.Within source start stop
    · rw [within_extent hw, within_extent (by rwa [Extent.Within, h])]
    · have hw' : ¬ e.Within source' start stop := by rwa [Extent.Within, h]
      exact (if_neg hw').trans (if_neg hw).symm
  unfold within at hextent ⊢
  rw [Relabelling.mk.injEq]
  exact ⟨funext hextent, rfl, rfl, rfl, rfl⟩

namespace Build

/-- The node block that is read stays the same. -/
theorem nodeBlock?_blanked {source : Text} (h : Token.unknowns (Token.scan source) = [])
    (hpaired : source.ReturnsPaired) {items : List Item}
    (hitems : Grammar.script source (Token.significant (Token.scan source)) = .ok items)
    {extent : Extent} {body : List Statement}
    (hnode : nodeBlock? (items.map (·.statement)) = some (extent, body)) {opening closing : Token}
    (hb : Token.Braces (Token.significant (Token.scan source))
      (extent.location.offsetIn source + extent.text.size) opening closing)
    {items' : List Item}
    (hitems' : Grammar.script
      (Token.blankedText (Token.isOuterComment opening closing) (Token.scan source))
      (Token.significant (Token.scan source)) = .ok items')
    (hsame : (items'.map (·.statement)).map
        (Statement.relabel (.within source opening.stop.offset closing.start.offset)) =
      (items.map (·.statement)).map
        (Statement.relabel (.within source opening.stop.offset closing.start.offset))) :
    ∃ extent', nodeBlock? (items'.map (·.statement)) = some (extent', body) := by
  let W := hb.window h hpaired (Grammar.balanced_of_script hitems)
  have hordered : (Token.significant (Token.scan source)).Pairwise
      fun t u => t.stop.offset ≤ u.start.offset := (Token.pairwise_scan h).filter _
  have hsize : ∀ t ∈ Token.significant (Token.scan source), t.start.offset < t.stop.offset :=
    fun t ht => Token.start_lt_stop h (List.mem_filter.mp ht).1
  obtain ⟨R⟩ := exists_nodeReading hitems hnode
  obtain ⟨hopening, hclosing⟩ := (R.braces W.standsLeft hordered).unique hordered hsize hb
  have hnodes := nodeBlock?_relabel
    (m := .within source opening.stop.offset closing.start.offset) (items.map (·.statement))
  rw [← hsame, nodeBlock?_relabel, hnode] at hnodes
  obtain ⟨⟨extent', body'⟩, hnode', hfound⟩ := Option.map_eq_some_iff.mp hnodes
  obtain ⟨hextent, hbody⟩ := Prod.mk.inj hfound
  obtain ⟨R'⟩ := exists_nodeReading hitems' hnode'
  have hlocation : extent'.location = extent.location := by
    rw [← @Relabelling.within_location source opening.stop.offset closing.start.offset extent',
      hextent, Relabelling.within_location]
  have hextentSize : extent'.text.size = extent.text.size := by
    rw [← @Relabelling.within_size source opening.stop.offset closing.start.offset extent',
      hextent, Relabelling.within_size]
  have hb' := R'.braces W.standsRight hordered
  rw [hlocation, hextentSize, Token.offsetIn_blanked h] at hb'
  obtain ⟨hopening', hclosing'⟩ := hb'.unique hordered hsize hb
  have hleft := R.relabel_within W.standsLeft hordered
  have hright := R'.relabel_within W.standsRight hordered
  have hlook : Relabelling.within
      (Token.blankedText (Token.isOuterComment opening closing) (Token.scan source))
      opening.stop.offset closing.start.offset =
      .within source opening.stop.offset closing.start.offset :=
    Relabelling.within_congr (Token.offsetIn_blanked h)
  rw [hopening, hclosing] at hleft
  rw [hopening', hclosing', hlook] at hright
  refine ⟨extent', ?_⟩
  rw [hnode', ← hright, hbody, hleft]

end Build

namespace Configuration

/-- **Comments outside of the node block make no difference, unless they follow a key.**  Of the node
block that is read there is one pair of braces, and if of the comments outside of them none
comes, in the token stream, behind a key that has been read since the last head of a block, the
text with these comments blanked out is read as the text is. -/
theorem read_blanked {source : Text} (hpaired : source.ReturnsPaired) {script : Script}
    (hparse : Script.parse source = .ok script) {extent : Extent} {body : List Statement}
    (hnode : Build.nodeBlock? script.statements = some (extent, body)) :
    (∃ opening closing, Token.Braces (Token.significant (Token.scan source))
      (extent.location.offsetIn source + extent.text.size) opening closing) ∧
    ∀ opening closing, Token.Braces (Token.significant (Token.scan source))
        (extent.location.offsetIn source + extent.text.size) opening closing →
      (∀ front c behind, PropertyComment.fromNode script.tokens = front ++ c :: behind →
        c.role = .comment → Token.outside opening closing c.start.offset →
          PropertyComment.followsKey false false front = false) →
      ∀ o lookup,
        read o lookup
            (Token.blankedText (Token.isOuterComment opening closing) (Token.scan source)) =
          read o lookup source := by
  obtain ⟨h, items, hitems, rfl⟩ := Script.parse_eq_ok_iff.mp hparse
  have hstands : ∀ t ∈ Token.significant (Token.scan source), t.StandsIn source :=
    fun t ht => Token.standsIn_of_scan h hpaired (List.mem_filter.mp ht).1
  constructor
  · obtain ⟨R⟩ := Build.exists_nodeReading hitems hnode
    exact ⟨_, _, R.braces hstands ((Token.pairwise_scan h).filter _)⟩
  · intro opening closing hb hloose o lookup
    obtain ⟨items', hitems', hsame, hmarks⟩ :=
      (hb.window h hpaired (Grammar.balanced_of_script hitems)).script_same hitems
    obtain ⟨extent', hnode'⟩ := Build.nodeBlock?_blanked h hpaired hitems hnode hb hitems' hsame
    have hbuilt := Build.ofStatements_relabelled (fun _ => rfl) (fun _ => rfl) hsame hnode hnode' o
      lookup
    have hstream := @Token.streamOf_blanked source opening closing h _
      fun mark hm => Grammar.offset_of_mark hitems hm
    have hcomments : PropertyComment.ofTokens (Script.streamOf (items.flatMap (·.marks)) (Token.scan
        (Token.blankedText (Token.isOuterComment opening closing) (Token.scan source)))) =
        PropertyComment.ofTokens (Script.streamOf (items.flatMap (·.marks)) (Token.scan source)) := by
      rw [hstream, PropertyComment.ofTokens_filter
        (fun c hc => (Token.outside_of_isOuterEntry hc).1)]
      intro front c behind hsplit hc
      obtain ⟨hrole, houtside⟩ := Token.outside_of_isOuterEntry hc
      exact hloose front c behind hsplit hrole houtside
    have hparse' : Script.parse
        (Token.blankedText (Token.isOuterComment opening closing) (Token.scan source)) =
        .ok ⟨items'.map (·.statement), Script.streamOf (items'.flatMap (·.marks)) (Token.scan
          (Token.blankedText (Token.isOuterComment opening closing) (Token.scan source)))⟩ := by
      refine Script.parse_eq_ok_iff.mpr ⟨Token.unknowns_scan_blanked h
        Token.isComment_of_isOuterComment, items', ?_, rfl⟩
      rw [Token.significant_scan_blanked h Token.isComment_of_isOuterComment]
      exact hitems'
    unfold read
    rw [hparse, hparse']
    simp only [Except.mapError, bind, Except.bind, attachComments, hmarks, hcomments, hbuilt]

/-- Comments before the body of the node block, one of them behind the node keyword. -/
def leadingSource : Text :=
  "Configuration C \x7b # first\nNode n # second\n\x7b File f \x7b A = 1 \x7d \x7d \x7d"

theorem read_blanked_leading : ∃ script extent body opening closing,
    leadingSource.ReturnsPaired ∧ Script.parse leadingSource = .ok script ∧
      Build.nodeBlock? script.statements = some (extent, body) ∧
      Token.Braces (Token.significant (Token.scan leadingSource))
        (extent.location.offsetIn leadingSource + extent.text.size) opening closing ∧
      (∀ front c behind, PropertyComment.fromNode script.tokens = front ++ c :: behind →
        c.role = .comment → Token.outside opening closing c.start.offset →
          PropertyComment.followsKey false false front = false) ∧
      read ⟨false, .exact, true, true⟩ (fun _ _ => none)
          (Token.blankedText (Token.isOuterComment opening closing) (Token.scan leadingSource)) =
        read ⟨false, .exact, true, true⟩ (fun _ _ => none) leadingSource := by
  have hpaired : leadingSource.ReturnsPaired := by decide +kernel
  have hnode : (match Script.parse leadingSource with
      | .ok script => (Build.nodeBlock? script.statements).isSome &&
          (List.range (PropertyComment.fromNode script.tokens).length).all fun n =>
            ((PropertyComment.fromNode script.tokens)[n]?.any fun c => c.role != .comment) ||
              !PropertyComment.followsKey false false
                ((PropertyComment.fromNode script.tokens).take n)
      | .error _ => false) = true := by
    decide +kernel
  split at hnode
  · next script hparse =>
    obtain ⟨hsome, hall⟩ := Bool.and_eq_true_iff.mp hnode
    obtain ⟨⟨extent, body⟩, hblock⟩ := Option.isSome_iff_exists.mp hsome
    obtain ⟨⟨opening, closing, hb⟩, hread⟩ := read_blanked hpaired hparse hblock
    have hloose : ∀ front c behind, PropertyComment.fromNode script.tokens = front ++ c :: behind →
        c.role = .comment → Token.outside opening closing c.start.offset →
          PropertyComment.followsKey false false front = false := by
      intro front c behind hsplit hrole _
      rw [hsplit, List.all_eq_true] at hall
      have hat := hall front.length (List.mem_range.mpr (by simp))
      simpa [hrole] using hat
    exact ⟨script, extent, body, opening, closing, hpaired, hparse, hblock, hb, hloose,
      hread opening closing hb hloose _ _⟩
  · cases hnode

/-- A comment behind everything else. -/
def trailingSource : Text :=
  "Configuration C \x7b Node n \x7b File f \x7b A = 1 \x7d \x7d \x7d # trailing"

/-- The comment behind the configuration follows the key of its one property, and is attached to
it: blanked out it is missed. -/
theorem read_trailing_comment : ∃ script extent body opening closing kept dropped,
    Script.parse trailingSource = .ok script ∧
      Build.nodeBlock? script.statements = some (extent, body) ∧
      Token.Braces (Token.significant (Token.scan trailingSource))
        (extent.location.offsetIn trailingSource + extent.text.size) opening closing ∧
      read ⟨false, .exact, true, true⟩ (fun _ _ => none) trailingSource = .ok kept ∧
      read ⟨false, .exact, true, true⟩ (fun _ _ => none)
          (Token.blankedText (Token.isOuterComment opening closing) (Token.scan trailingSource)) =
        .ok dropped ∧
      kept.instances ≠ dropped.instances := by
  have hpaired : trailingSource.ReturnsPaired := by decide +kernel
  have hnode : (match Script.parse trailingSource with
      | .ok script =>
        match Build.nodeBlock? script.statements with
        | some (extent, _) => (Token.scan trailingSource).all fun t => !t.kind.isComment ||
            decide (extent.location.offsetIn trailingSource + extent.text.size ≤ t.start.offset)
        | none => false
      | .error _ => false) = true := by
    decide +kernel
  have hread : (match read ⟨false, .exact, true, true⟩ (fun _ _ => none) trailingSource,
      read ⟨false, .exact, true, true⟩ (fun _ _ => none)
        (Token.blankedText (fun t => t.kind.isComment) (Token.scan trailingSource)) with
      | .ok kept, .ok dropped => kept.instances.map (fun i => i.properties.length) !=
          dropped.instances.map fun i => i.properties.length
      | _, _ => false) = true := by
    decide +kernel
  split at hnode
  · next script hparse =>
    obtain ⟨h, items, hitems, rfl⟩ := Script.parse_eq_ok_iff.mp hparse
    split at hnode
    · next extent body hblock =>
      obtain ⟨R⟩ := Build.exists_nodeReading hitems hblock
      have hb := R.braces (fun t ht => Token.standsIn_of_scan h hpaired (List.mem_filter.mp ht).1)
        ((Token.pairwise_scan h).filter _)
      -- All comments stand behind the closing brace.
      have houter : Token.blankedText (Token.isOuterComment R.opening R.closing)
          (Token.scan trailingSource) =
          Token.blankedText (fun t => t.kind.isComment) (Token.scan trailingSource) := by
        refine List.flatMap_congr fun t ht => ?_
        have hsize := Token.start_lt_stop h (List.mem_filter.mp R.closing_mem).1
        have hends := hb.ends
        have hbehind := List.all_eq_true.mp hnode t ht
        cases hcomment : t.kind.isComment with
        | false => simp only [Token.isOuterComment, hcomment, Bool.false_and]
        | true =>
          simp only [hcomment, Bool.not_true, Bool.false_or, decide_eq_true_eq] at hbehind
          have houtside : Token.outside R.opening R.closing t.start.offset = true :=
            Bool.or_eq_true_iff.mpr (.inr (decide_eq_true (by omega)))
          simp only [Token.isOuterComment, hcomment, houtside, Bool.and_true]
      split at hread
      · next kept dropped hkept hdropped =>
        refine ⟨_, extent, body, R.opening, R.closing, kept, dropped, hparse, hblock, hb, hkept,
          ?_, ?_⟩
        · rw [houter, hdropped]
        · intro heq
          rw [heq] at hread
          simp at hread
      · cases hread
    · cases hnode
  · cases hnode

end Configuration

end DesiredState

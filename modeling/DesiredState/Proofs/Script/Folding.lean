/-
Lists of arguments.

Values around commas become one argument, a list, of which the text is cut out of the source
again: from where its first item says it starts to where its last item ends.  The items know
their places as lines and columns only, so the text is right if counting lines back from these
leads to where the tokens of the items start.

What is known of arguments comes from how they are derived.  A value among them either stands
alone over its tokens or has been joined from values that do.
-/
import DesiredState.Proofs.CountingBack
import DesiredState.Proofs.Script.Throughout
import DesiredState.Proofs.Token.Coverage

namespace DesiredState

variable {source : Text} {ts us all : List Token}

/-! ### Values that commas join

Joining looks at the extents of two values and not at their tokens.  So a list says of
itself what its first and its last value say, however many there are in between.
-/

/-- A value among arguments: one that stands alone, or such values joined one after another. -/
inductive Expression.Folded (source : Text) (all : List Token) : Expression → Prop
  | alone {ts : List Token} {e : Expression} (hsub : ts.Sublist all) (he : e.Alone source ts) :
    Folded source all e
  | joined {us : List Token} {e f : Expression} (he : Folded source all e) (hsub : us.Sublist all)
    (hf : f.Alone source us) : Folded source all (Grammar.joinValues source e f)

/-- The values among the arguments of a node are folded. -/
def Node.ArgumentsFolded (source : Text) (all : List Token) (n : Node) : Prop :=
  n.isHeaded → ∀ e, .expression e ∈ n.children → e.Folded source all

/-- A list is joined from values that stand alone, of which the first and the last one say what its
extent is. -/
theorem Expression.Folded.list {extent : Extent} {elements : List Term}
    (h : (Expression.array extent false elements).Folded source all) :
    ∃ first last : Expression, ∃ ts us : List Token,
      elements.head? = some (.expression first) ∧ elements.getLast? = some (.expression last) ∧
      (ts.Sublist all ∧ first.Alone source ts) ∧ (us.Sublist all ∧ last.Alone source us) ∧
      extent = Grammar.joinedExtent source first.extent last.extent := by
  generalize he : Expression.array extent false elements = e at h
  induction h generalizing extent elements with
  | alone hsub halone =>
    subst he
    exact absurd halone.whole Bool.false_ne_true
  | @joined us e f hfold hsub hf ih =>
    rw [Grammar.joinValues_eq] at he
    obtain ⟨rfl, -, rfl⟩ := Expression.array.inj he
    unfold Grammar.joined
    split
    · -- The list so far goes on.
      next extent elements =>
      obtain ⟨first, _, ts, _, hhead, -, hfirst, -, hextent⟩ := ih rfl
      refine ⟨first, f, ts, us, ?_, List.getLast?_concat, hfirst, ⟨hsub, hf⟩, ?_⟩
      · rw [List.head?_append, hhead]
        rfl
      · rw [hextent]
        rfl
    · -- Two values are joined.
      next hwhole =>
      cases hfold with
      | alone hleft he => exact ⟨e, f, _, us, rfl, rfl, ⟨hleft, he⟩, ⟨hsub, hf⟩, rfl⟩
      | joined => exact absurd (Grammar.joinValues_eq source _ _) (hwhole _ _)

theorem Expression.Folded.mono {e : Expression} (h : e.Folded source us) (hsub : us.Sublist all) :
    e.Folded source all := by
  induction h with
  | alone hts he => exact .alone (hts.trans hsub) he
  | joined _ hus hf ih => exact .joined ih (hus.trans hsub) hf

theorem Grammar.Derives.folded {ps : List Phrase} (h : Derives source ts ps) {e : Expression}
    {marks : List Mark} (he : .argument ⟨.value e, marks⟩ ∈ ps) : e.Folded source ts := by
  induction h generalizing e marks with
  | append _ _ ihp ihq =>
    rcases List.mem_append.mp he with he | he
    · exact (ihp he).mono (List.sublist_append_left _ _)
    · exact (ihq he).mono (List.sublist_append_right _ _)
  | argument _ halone =>
    cases List.mem_singleton.mp he
    exact .alone (.refl _) halone
  | joined _ _ halone ihe =>
    cases List.mem_singleton.mp he
    exact .joined ((ihe List.mem_cons_self).mono (List.sublist_append_left _ _))
      (List.sublist_append_right _ _) halone
  | nil => cases he
  | _ => cases List.mem_singleton.mp he

/-- That arguments are folded is handed on. -/
theorem Grammar.handedOn_argumentsFolded :
    HandedOn source fun ts n => n.ArgumentsFolded source ts where
  mono hsub h hheaded e he := (h hheaded e he).mono hsub
  spans _ _ harguments hheaded e he := by
    obtain ⟨us, arguments, hsub, hderives, hvalues⟩ := harguments hheaded
    obtain ⟨⟨-, marks⟩, hread, rfl⟩ := List.mem_map.mp (hvalues e he)
    exact (hderives.folded (List.mem_map_of_mem hread)).mono hsub
  entry _ hheaded := absurd hheaded Bool.false_ne_true
  unrecognized _ hheaded := absurd hheaded Bool.false_ne_true
  joined _ _ hheaded := absurd hheaded Bool.false_ne_true

/-- The values among the arguments of every node are folded. -/
theorem Script.parse_argumentsFolded {script : Script} (h : parse source = .ok script) :
    ∀ n, Node.Occurs script.statements n →
      n.ArgumentsFolded source (Token.significant (Token.scan source)) := by
  obtain ⟨-, items, hitems, rfl⟩ := parse_eq_ok_iff.mp h
  rintro n ⟨s, hs, hn⟩
  obtain ⟨item, hitem, rfl⟩ := List.mem_map.mp hs
  have hfolded := (Grammar.derives_of_script hitems).throughout Grammar.handedOn_argumentsFolded _
    (List.mem_map_of_mem (List.mem_map_of_mem hitem))
  exact (hfolded.of_holds hn).here

/-! ### Cut out of the source -/

/-- An extent is what a source has between a place and an offset. -/
structure Extent.CutOut (source : Text) (start : Position) (stop : Nat) (e : Extent) : Prop where
  location : e.location = start.toLocation
  text : e.text = source.slice start.offset stop

/-- Between two places that are found again, the source is cut out. -/
theorem Extent.CutOut.joined {e f : Extent} {start start' : Position} {stop stop' : Nat}
    (he : e.CutOut source start stop) (hf : f.CutOut source start' stop')
    (hstart : start.toLocation.offsetIn source = start.offset)
    (hstart' : start'.toLocation.offsetIn source = start'.offset)
    (hle : start'.offset ≤ stop') (hfits : stop' ≤ source.size) :
    (Grammar.joinedExtent source e f).CutOut source start stop' where
  location := he.location
  text := by
    rw [Grammar.joinedExtent, he.location, hstart, hf.location, hstart', hf.text,
      Text.size_slice source hfits, Nat.add_sub_cancel' hle]

namespace Script

variable {script : Script}

/-- What the grammar sees is in the stream of tokens. -/
theorem exists_streamed (h : parse source = .ok script) {t : Token}
    (ht : t ∈ Token.significant (Token.scan source)) :
    ∃ c ∈ script.tokens, c.start = t.start ∧ c.text = t.text ∧ c.stopOffset = t.stop.offset := by
  obtain ⟨-, items, -, rfl⟩ := parse_eq_ok_iff.mp h
  obtain ⟨hscan, hkind⟩ := List.mem_filter.mp ht
  refine ⟨.of (items.flatMap (·.marks)).reverse t, List.mem_map_of_mem (List.mem_filter.mpr
    ⟨hscan, Bool.or_eq_true_iff.mpr (.inl hkind)⟩), rfl, rfl, ?_⟩
  exact (Position.advance_offset _ _).symm

theorem stopOffset_le (h : parse source = .ok script) {c : ClassifiedToken}
    (hc : c ∈ script.tokens) : c.stopOffset ≤ source.size := by
  obtain ⟨before, behind, hsource, -, hstart, -⟩ := (parse_tiles h).exists_front hc
  rw [List.nil_append] at hsource
  rw [ClassifiedToken.stopOffset, hstart, Position.advance_start_offset, hsource, Text.size_append,
    Text.size_append]
  exact Nat.le_add_right _ _

/-- What spans tokens is cut out from the first to the last of them. -/
theorem exists_cutOut (h : parse source = .ok script) {e : Extent}
    (hsub : ts.Sublist (Token.significant (Token.scan source))) (he : e.Spans source ts) :
    ∃ t ∈ script.tokens, ∃ u ∈ script.tokens, t.start.offset ≤ u.stopOffset ∧
      e.CutOut source t.start u.stopOffset := by
  have hknown := (parse_eq_ok_iff.mp h).1
  cases he with
  | token t =>
    obtain ⟨c, hc, hstart, htext, -⟩ := exists_streamed h (hsub.subset List.mem_cons_self)
    refine ⟨c, hc, c, hc, Nat.le_add_right _ _, congrArg Position.toLocation hstart.symm, ?_⟩
    exact htext.symm.trans ((parse_tiles h).covers.exact c hc).symm
  | tokens hne =>
    obtain ⟨first, hfirst⟩ := Option.ne_none_iff_exists'.mp (mt List.head?_eq_none_iff.mp hne)
    obtain ⟨last, hlast⟩ := Option.ne_none_iff_exists'.mp (mt List.getLast?_eq_none_iff.mp hne)
    have hfirstIn := List.mem_of_head? hfirst
    have hlastIn := List.mem_of_getLast? hlast
    obtain ⟨t, ht, hstart, -⟩ := exists_streamed h (hsub.subset hfirstIn)
    obtain ⟨u, hu, -, -, hstop⟩ := exists_streamed h (hsub.subset hlastIn)
    -- The last token does not start before the first one.
    have hordered : first.start.offset ≤ last.start.offset := by
      obtain ⟨rest, rfl⟩ := List.head?_eq_some_iff.mp hfirst
      have hstarts := (Token.pairwise_start hknown).sublist (hsub.trans List.filter_sublist)
      rcases List.mem_cons.mp hlastIn with rfl | hrest
      · exact Nat.le_refl _
      · exact Nat.le_of_lt ((List.pairwise_cons.mp hstarts).1 last hrest)
    have hlastScan := (List.mem_filter.mp (hsub.subset hlastIn)).1
    refine ⟨t, ht, u, hu, ?_, ?_⟩
    · rw [hstart, hstop]
      exact Nat.le_trans hordered (Nat.le_of_lt (Token.start_lt_stop hknown hlastScan))
    · rw [Extent.ofTokens_eq hfirst hlast, hstart, hstop]
      exact ⟨rfl, rfl⟩

/-- **Lines and columns convert back to offsets** exactly where an offset can be found again.  Where
every carriage return is followed by a line feed that is everywhere.  So the text of a list that
commas make of arguments is the source from the start of its first item to the end of its last one,
if the places at which the two start are found again. -/
theorem parse_countsBack (h : parse source = .ok script) :
    (∀ t ∈ script.tokens, t.start.toLocation.offsetIn source = t.start.offset ↔
      source.CountsBack t.start.offset) ∧
    (source.ReturnsPaired → ∀ t ∈ script.tokens, source.CountsBack t.start.offset) ∧
    ∀ (n : Node) (extent : Extent) (elements : List Term), Node.Occurs script.statements n →
      n.isHeaded → .expression (.array extent false elements) ∈ n.children →
      ∃ first last : Expression,
        elements.head? = some (.expression first) ∧ elements.getLast? = some (.expression last) ∧
        ∃ t ∈ script.tokens, ∃ u ∈ script.tokens, ∃ v ∈ script.tokens, ∃ w ∈ script.tokens,
          first.extent.CutOut source t.start u.stopOffset ∧
          last.extent.CutOut source v.start w.stopOffset ∧
          extent.location = t.start.toLocation ∧
          (source.CountsBack t.start.offset → source.CountsBack v.start.offset →
            extent.text = source.slice t.start.offset w.stopOffset) := by
  have hfound : ∀ t ∈ script.tokens, t.start.toLocation.offsetIn source = t.start.offset ↔
      source.CountsBack t.start.offset := by
    intro t ht
    obtain ⟨before, behind, hsource, -, hstart, -⟩ := (parse_tiles h).exists_front ht
    rw [List.nil_append, List.append_assoc] at hsource
    rw [hstart, Position.advance_start_offset, Text.CountsBack, hsource,
      Text.takeUnits_size_append, Text.dropUnits_size_append]
    exact Position.offsetIn_advance_iff before _
  refine ⟨hfound, fun hpaired t ht => (hfound t ht).mp ?_,
    fun n extent elements hoccurs hheaded hlist => ?_⟩
  · obtain ⟨hknown, items, -, rfl⟩ := parse_eq_ok_iff.mp h
    obtain ⟨token, htoken, rfl⟩ := List.mem_map.mp ht
    exact (Token.standsIn_of_scan hknown hpaired (List.mem_filter.mp htoken).1).offset
  · obtain ⟨first, last, ts, us, hhead, hlast, ⟨hts, hfirst⟩, ⟨hus, hlastAlone⟩, rfl⟩ :=
      (parse_argumentsFolded h n hoccurs hheaded _ hlist).list
    obtain ⟨t, ht, u, hu, -, hfirstCut⟩ := exists_cutOut h hts hfirst.spans
    obtain ⟨v, hv, w, hw, hle, hlastCut⟩ := exists_cutOut h hus hlastAlone.spans
    refine ⟨first, last, hhead, hlast, t, ht, u, hu, v, hv, w, hw, hfirstCut, hlastCut,
      hfirstCut.location, fun hstart hstart' => ?_⟩
    exact (hfirstCut.joined hlastCut ((hfound t ht).mpr hstart) ((hfound v hv).mpr hstart') hle
      (stopOffset_le h hw)).text

/-- The list that commas make of all the arguments of a script's one command. -/
def commaList? : List Statement → Option (Extent × List Term)
  | [.pipeline _ [.command ⟨_, _, [.value (.array extent false elements)]⟩]] =>
    some (extent, elements)
  | _ => none

theorem occurs_of_commaList? {statements : List Statement} {extent : Extent} {elements : List Term}
    (h : commaList? statements = some (extent, elements)) : ∃ n, Node.Occurs statements n ∧
      n.isHeaded ∧ .expression (.array extent false elements) ∈ n.children := by
  unfold commaList? at h
  split at h
  · next extent' whole name list items =>
    obtain ⟨rfl, rfl⟩ := Prod.mk.inj (Option.some.inj h)
    refine ⟨.command ⟨whole, name, [.value (.array list false items)]⟩, ?_, rfl, List.mem_cons_self⟩
    exact ⟨_, List.mem_cons_self, .child .self List.mem_cons_self⟩
  · cases h

/-- A carriage return by itself, and behind it a last line feed. -/
def feedSource : Text := "#\r#\nfoo a, b"

/-- Between a carriage return by itself and a last line feed no place is found again, and behind
the line feed every place is. -/
theorem parse_countsBack_feed : ∃ script extent elements, parse feedSource = .ok script ∧
    commaList? script.statements = some (extent, elements) ∧
      (∀ t ∈ script.tokens, feedSource.CountsBack t.start.offset ↔ t.start.line ≠ 2) ∧
        ∃ t ∈ script.tokens, ∃ w ∈ script.tokens,
          extent.text = feedSource.slice t.start.offset w.stopOffset := by
  have hread : (parse feedSource).toOption.map (fun script => (script.tokens.all fun t => decide
      (t.start.toLocation.offsetIn feedSource = t.start.offset ↔ t.start.line ≠ 2),
      (commaList? script.statements).map fun list =>
        (list.1.location.line, list.2.getLast?.map (·.extent.location.line)))) =
        some (true, some (3, some 3)) := by
    decide +kernel
  cases h : parse feedSource with
  | error e =>
    rw [h] at hread
    cases hread
  | ok script =>
    rw [h] at hread
    obtain ⟨htokens, hlists⟩ := Prod.mk.inj (Option.some.inj hread)
    obtain ⟨⟨extent, elements⟩, hlist, hlines⟩ := Option.map_eq_some_iff.mp hlists
    obtain ⟨hline, hlastLine⟩ := Prod.mk.inj hlines
    obtain ⟨hfound, -, hlisted⟩ := parse_countsBack h
    have hcounts : ∀ t ∈ script.tokens,
        feedSource.CountsBack t.start.offset ↔ t.start.line ≠ 2 := fun t ht =>
      (hfound t ht).symm.trans (of_decide_eq_true (List.all_eq_true.mp htokens t ht))
    obtain ⟨n, hoccurs, hheaded, hchild⟩ := occurs_of_commaList? hlist
    obtain ⟨first, last, -, hlast, t, ht, -, -, v, hv, w, hw, -, hcut, hlocation, htext⟩ :=
      hlisted n extent elements hoccurs hheaded hchild
    refine ⟨script, extent, elements, rfl, hlist, hcounts, t, ht, w, hw, htext ?_ ?_⟩
    · -- The first item is on the third line,
      rw [hcounts t ht, ← congrArg Location.line hlocation, hline]
      decide
    · -- and so is the last one.
      rw [hlast] at hlastLine
      have hsame : last.extent.location.line = 3 := Option.some.inj hlastLine
      rw [hcounts v hv, ← congrArg Location.line hcut.location, hsame]
      decide

/-- A list behind a carriage return by itself. -/
def behindReturnSource : Text := "#\rfoo a, b"

/-- Behind a carriage return by itself, places are not found again, and the text of a list starts
before the list does. -/
theorem parse_countsBack_return : ∃ script extent elements,
    parse behindReturnSource = .ok script ∧
      (∃ t ∈ script.tokens, t.start.toLocation.offsetIn behindReturnSource ≠ t.start.offset) ∧
        commaList? script.statements = some (extent, elements) ∧ extent.text = "o a," := by
  have hread : (parse behindReturnSource).toOption.map (fun script => (script.tokens.any fun t =>
      decide (t.start.toLocation.offsetIn behindReturnSource ≠ t.start.offset),
        (commaList? script.statements).map (·.1.text))) = some (true, some ("o a," : Text)) := by
    decide +kernel
  cases h : parse behindReturnSource with
  | error e =>
    rw [h] at hread
    cases hread
  | ok script =>
    rw [h] at hread
    obtain ⟨htokens, hlists⟩ := Prod.mk.inj (Option.some.inj hread)
    obtain ⟨t, ht, hlost⟩ := List.any_eq_true.mp htokens
    obtain ⟨⟨extent, elements⟩, hlist, htext⟩ := Option.map_eq_some_iff.mp hlists
    exact ⟨script, extent, elements, rfl, ⟨t, ht, of_decide_eq_true hlost⟩, hlist, htext⟩

end Script

end DesiredState

/-
Nodes are cut out of the source.

A node starts where one of its tokens starts, and it stops where one stops; this is known of
places, in lines and columns, and not of offsets alone.  So what stands between is a part of the
source, at whose ends no line break is torn apart, and it is the text of the node.  The word at
the head of a block and the keys in its body are tokens, and what is known of nodes is known of
them.
-/
import DesiredState.Proofs.Ranges
import DesiredState.Proofs.Script.Roles
import DesiredState.Proofs.Script.Throughout

namespace DesiredState

variable {source : Text} {ts us : List Token}

/-! ### Extents between tokens

Less is asked here than that an extent spans tokens: it starts where some token starts,
and stops where one stops.  This carries over to any row of more tokens, and it is
enough to be cut out.
-/

/-- An extent starts where one of some tokens does, and stops where one of them does. -/
structure Extent.Delimited (source : Text) (ts : List Token) (e : Extent) : Prop where
  starts : ∃ first ∈ ts, e.location = first.location
  stops : ∃ last ∈ ts, e.stop source = last.stop.offset

theorem Extent.Delimited.mono {e : Extent} (h : e.Delimited source ts) (hsub : ts ⊆ us) :
    e.Delimited source us := by
  obtain ⟨first, hfirst, hstart⟩ := h.starts
  obtain ⟨last, hlast, hstop⟩ := h.stops
  exact ⟨⟨first, hsub hfirst, hstart⟩, ⟨last, hsub hlast, hstop⟩⟩

theorem Extent.Spans.delimited {e : Extent} (h : e.Spans source ts)
    (ho : Token.Ordered source ts) : e.Delimited source ts := by
  refine ⟨?_, (h.reaches ho).stops⟩
  cases h with
  | token t => exact ⟨t, List.mem_cons_self, rfl⟩
  | tokens hne =>
    obtain ⟨first, hfirst⟩ := Option.ne_none_iff_exists'.mp (mt List.head?_eq_none_iff.mp hne)
    obtain ⟨last, hlast⟩ := Option.ne_none_iff_exists'.mp (mt List.getLast?_eq_none_iff.mp hne)
    refine ⟨first, List.mem_of_head? hfirst, ?_⟩
    rw [Extent.ofTokens_eq hfirst hlast]

/-- Two extents that are joined: the first starts them, and the second stops them. -/
theorem Extent.Delimited.joined {e f : Extent} (he : e.Delimited source ts)
    (hf : f.Delimited source us) (ho : Token.Ordered source (ts ++ us)) :
    (Grammar.joinedExtent source e f).Delimited source (ts ++ us) := by
  obtain ⟨first, hfirst, hstart⟩ := he.starts
  obtain ⟨last, hlast, hstop⟩ := hf.stops
  have hfirstIn : first ∈ ts ++ us := List.mem_append_left _ hfirst
  have hlastIn : last ∈ ts ++ us := List.mem_append_right _ hlast
  have hbefore := (List.pairwise_append.mp ho.apart).2.2 first hfirst last hlast
  have hfirstFull := ho.nonempty first hfirstIn
  have hlastFull := ho.nonempty last hlastIn
  have hoffset : e.start source = first.start.offset := by
    rw [Extent.start, hstart]
    exact (ho.stands first hfirstIn).offset
  have hfits : f.stop source ≤ source.size := by
    rw [hstop]
    exact (ho.stands last hlastIn).fits
  have hsize : (source.slice (e.start source) (f.stop source)).size = _ :=
    Text.size_slice source hfits
  refine ⟨⟨first, hfirstIn, hstart⟩, ⟨last, hlastIn, ?_⟩⟩
  change e.start source + (source.slice (e.start source) (f.stop source)).size = _
  omega

/-! ### Nodes between tokens -/

/-- A node and all that stand within it start and stop where some tokens do. -/
def Node.Delimited (source : Text) (ts : List Token) (n : Node) : Prop :=
  n.Throughout fun m => ∀ e, m.extent? = some e → e.Delimited source ts

namespace Grammar

variable {ps : List Phrase}

/-- To lie between tokens that are in order is handed on. -/
theorem handedOn_delimited : HandedOn source fun ts n =>
    Token.Ordered source ts → ∀ e, n.extent? = some e → e.Delimited source ts where
  mono hsub h ho e he := (h (ho.sublist hsub) e he).mono hsub.subset
  spans he hspans _ ho e' he' := by
    obtain rfl := Option.some.inj (he.symm.trans he')
    exact hspans.delimited ho
  entry _ _ _ he := by cases he
  unrecognized h ho _ he := by
    cases he
    exact h ho _ rfl
  joined {ts us _ _} he hf ho _ hextent := by
    rw [joinValues_eq] at hextent
    cases hextent
    -- Each value lies between its own tokens, so that the first comes before the second.
    have hleft := he (ho.sublist (List.sublist_append_left ts us)) _ rfl
    have hright := hf (ho.sublist (List.sublist_append_right ts us)) _ rfl
    exact hleft.joined hright ho

/-- **What phrases are read as lies between the tokens** of any row that theirs stand in, with all
that stands within it. -/
theorem Derives.delimited (h : Derives source us ps) (ho : Token.Ordered source ts)
    (hsub : us.Sublist ts) : ∀ n ∈ ps.map Phrase.node, n.Delimited source ts := fun n hn =>
  (h.throughout handedOn_delimited n hn).imp fun _ hm e he =>
    (hm (ho.sublist hsub) e he).mono hsub.subset

end Grammar

/-! ### Texts between tokens -/

/-- Of two texts that a third one starts with, the longer starts with the shorter. -/
theorem Text.prefix_of_size_lt {s t whole : Text} (hs : s <+: whole) (ht : t <+: whole)
    (h : s.size < t.size) : s <+: t := by
  rcases List.prefix_or_prefix_of_prefix hs ht with hp | ⟨rest, rfl⟩
  · exact hp
  · rw [size_append] at h
    omega

/-- A token is cut out of its source. -/
theorem Token.exists_excerpt (h : unknowns (scan source) = []) (hpaired : source.ReturnsPaired)
    {t : Token} (ht : t ∈ scan source) :
    ∃ before after, source = before ++ t.text ++ after ∧ t.start = Position.start.advance before ∧
      before.getLast? ≠ some '\r' ∧ t.text.getLast? ≠ some '\r' := by
  obtain ⟨pieces, rfl, hlexes, hscan⟩ := exists_pieces h
  rw [hscan] at ht
  obtain ⟨front, piece, rest, rfl, rfl⟩ := Piece.mem_place ht
  have hreturn := Piece.getLast?_ne_return hlexes hpaired
  have hfront : ∀ p ∈ front, p.text.getLast? ≠ some '\r' := fun p hp =>
    hreturn p (List.mem_append_left _ hp)
  refine ⟨Piece.textOf front, Piece.textOf rest, ?_, Piece.stop_eq_advance hfront _,
    Piece.getLast?_textOf_ne_return hfront, hreturn piece ?_⟩
  · rw [Piece.textOf_append, Piece.textOf_cons, List.append_assoc]
  · exact List.mem_append_right _ List.mem_cons_self

theorem Token.isExcerpt (h : unknowns (scan source) = []) (hpaired : source.ReturnsPaired)
    {t : Token} (ht : t ∈ scan source) : Extent.IsExcerpt source ⟨t.text, t.location⟩ := by
  obtain ⟨before, after, hsource, hstart, hbefore, htext⟩ := exists_excerpt h hpaired ht
  exact ⟨before, after, hsource, congrArg (·.toLocation) hstart, hbefore, htext⟩

/-- What lies between tokens of a source and has the text that stands there is cut out of it. -/
theorem Extent.Delimited.isExcerpt (h : Token.unknowns (Token.scan source) = [])
    (hpaired : source.ReturnsPaired) {e : Extent} (he : e.Delimited source (Token.scan source))
    (htext : source.StandsAt e.location e.text) (hnonempty : e.start source < e.stop source) :
    e.IsExcerpt source := by
  obtain ⟨first, hfirst, hplace⟩ := he.starts
  obtain ⟨last, hlast, hstop⟩ := he.stops
  obtain ⟨before, more, hfront, hstart, hbefore, -⟩ := Token.exists_excerpt h hpaired hfirst
  obtain ⟨between, after, hsource, hthere, -, hreturn⟩ := Token.exists_excerpt h hpaired hlast
  have hpast : (between ++ last.text).size = e.stop source := by
    rw [hstop, Token.stop, Position.advance_offset, hthere, Position.advance_start_offset,
      Text.size_append]
  have hoffset : before.size = e.start source := by
    have hlocation : e.location = (Position.start.advance before).toLocation := by
      rw [hplace, Token.location, hstart]
    rw [List.append_assoc] at hfront
    rw [Extent.start, hlocation, hfront]
    refine (Position.offsetIn_advance _ ?_).symm
    rw [hfront] at hpaired
    exact hpaired.left hbefore
  -- The text before the first token starts all that comes before the end of the last one.
  have hprefix : before <+: between ++ last.text := by
    rw [List.append_assoc] at hfront
    exact Text.prefix_of_size_lt ⟨_, hfront.symm⟩ ⟨after, hsource.symm⟩ (by omega)
  obtain ⟨middle, hmiddle⟩ := hprefix
  have hcut : source = before ++ middle ++ after := by rw [hmiddle, hsource]
  have hmiddleText : e.text = middle := by
    rw [← htext]
    change source.slice (e.start source) (e.stop source) = middle
    rw [← hoffset, ← hpast, ← hmiddle, Text.size_append, hcut, Text.slice_append]
  refine ⟨before, after, by rw [hmiddleText]; exact hcut, ?_, hbefore, ?_⟩
  · rw [hplace, Token.location, hstart]
  · have hne : middle ≠ [] := by
      rintro rfl
      rw [List.append_nil] at hmiddle
      rw [← hpast, ← hmiddle, hoffset] at hnonempty
      exact Nat.lt_irrefl _ hnonempty
    have hlastNe : last.text ≠ [] := Token.text_ne_nil_of_scan h hlast
    rw [hmiddleText]
    intro hr
    refine hreturn ?_
    have hends : (before ++ middle).getLast? = (between ++ last.text).getLast? := by rw [hmiddle]
    rwa [List.getLast?_append_of_ne_nil _ hne, List.getLast?_append_of_ne_nil _ hlastNe, hr,
      eq_comm] at hends

/-! ### Scripts -/

namespace Script

/-- **The nodes of a tree are cut out of its source**, where every carriage return is followed by a
line feed. -/
theorem isExcerpt_of_occurs {script : Script} (h : parse source = .ok script)
    (hpaired : source.ReturnsPaired) {n : Node} (hn : Node.Occurs script.statements n) {e : Extent}
    (he : n.extent? = some e) : e.IsExcerpt source := by
  have hplaced := placed_of_occurs h hpaired hn
  obtain ⟨hknown, items, hitems, rfl⟩ := parse_eq_ok_iff.mp h
  obtain ⟨s, hs, hholds⟩ := hn
  have hall := (Grammar.derives_of_script hitems).delimited (.of_scan hknown hpaired) (.refl _)
  rw [List.map_map] at hall
  obtain ⟨item, hitem, rfl⟩ := List.mem_map.mp hs
  have hdelimited := ((hall _ (List.mem_map_of_mem hitem)).of_holds hholds).here e he
  have hnonempty := hplaced.nonempty
  rw [Node.start_eq he, Node.stop_eq he] at hnonempty
  exact (hdelimited.mono List.filter_sublist.subset).isExcerpt hknown hpaired (hplaced.text e he)
    hnonempty

/-- The word at the head of a block, and the keys in its body, are cut out of the source. -/
theorem isExcerpt_of_block {script : Script} (h : parse source = .ok script)
    (hpaired : source.ReturnsPaired) {b : Block} (hb : Node.Occurs script.statements (.block b)) :
    Extent.IsExcerpt source ⟨b.keyword, b.keywordLocation⟩ ∧
      ∀ entry ∈ b.body.entries, Extent.IsExcerpt source ⟨entry.key, entry.keyLocation⟩ := by
  obtain ⟨hknown, items, hitems, rfl⟩ := parse_eq_ok_iff.mp h
  have hmarked := marked_of_occurs (Grammar.derives_of_script hitems) hb
  have hscanned {t : Token} (ht : t ∈ Token.significant (Token.scan source)) :
      Extent.IsExcerpt source ⟨t.text, t.location⟩ :=
    Token.isExcerpt hknown hpaired (List.mem_filter.mp ht).1
  refine ⟨?_, fun entry hentry => ?_⟩
  · obtain ⟨t, ht, hword, hplace⟩ := hmarked.keyword
    rw [hword, hplace]
    exact hscanned ht
  · obtain ⟨t, ht, hkey, hplace, -⟩ := hmarked.keys entry hentry
    rw [hkey, hplace]
    exact hscanned ht

end Script

end DesiredState

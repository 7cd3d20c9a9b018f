/-
The extents of nodes.

A node says where it stands and what its text is, and so do keys and the words at the
heads of blocks.  Where every carriage return is followed by a line feed, all of it is
true: the text of a node is what the source has at its place, its children stand within
it, and they stand one after another.  The one exception to the last is the pipeline,
whose first command reaches over all of it.

All this follows from what nodes are derived from.  A node reaches from the first of its
tokens to the last one, and its children stand over tokens between.
-/
import DesiredState.Proofs.Script.Derivation.Rules
import DesiredState.Proofs.Script.Heads
import DesiredState.Proofs.Script.Inset
import DesiredState.Proofs.Script.Nodes
import DesiredState.Proofs.Token.Blanking

namespace DesiredState

variable {source : Text} {ts us : List Token}

/-! ### Places -/

/-- A text stands at a place of a source. -/
def Text.StandsAt (source : Text) (location : Location) (t : Text) : Prop :=
  source.slice (location.offsetIn source) (location.offsetIn source + t.size) = t

/-- The offset at which an extent starts. -/
def Extent.start (source : Text) (e : Extent) : Nat := e.location.offsetIn source

/-- The offset at which an extent stops. -/
def Extent.stop (source : Text) (e : Extent) : Nat := e.start source + e.text.size

namespace Node

/-- The offset at which a node starts; an entry starts with its key. -/
def start (source : Text) : Node → Nat
  | .statement s => s.extent.start source
  | .block b => b.extent.start source
  | .table t => t.extent.start source
  | .entry e => e.keyLocation.offsetIn source
  | .command c => c.extent.start source
  | .parameter extent _ => extent.start source
  | .expression e => e.extent.start source

/-- The offset at which a node stops; an entry stops with its value. -/
def stop (source : Text) : Node → Nat
  | .statement s => s.extent.stop source
  | .block b => b.extent.stop source
  | .table t => t.extent.stop source
  | .entry e => e.value.extent.stop source
  | .command c => c.extent.stop source
  | .parameter extent _ => extent.stop source
  | .expression e => e.extent.stop source

theorem start_eq {n : Node} {e : Extent} (h : n.extent? = some e) :
    n.start source = e.start source := by
  cases n <;> cases h <;> rfl

theorem stop_eq {n : Node} {e : Extent} (h : n.extent? = some e) :
    n.stop source = e.stop source := by
  cases n <;> cases h <;> rfl

/-- One node stops before another one starts. -/
def Before (source : Text) (m n : Node) : Prop := m.stop source ≤ n.start source

/-- One node lies within another one. -/
def Within (source : Text) (m n : Node) : Prop :=
  n.start source ≤ m.start source ∧ m.stop source ≤ n.stop source

theorem Within.trans {l m n : Node} (h : l.Within source m) (h' : m.Within source n) :
    l.Within source n :=
  ⟨Nat.le_trans h'.1 h.1, Nat.le_trans h.2 h'.2⟩

/-- The words of a node stand where it says: the word at the head of a block and the keys in its
body, and for a key in a table the token it was read from. -/
def Labelled (source : Text) : Node → Prop
  | .block b => source.StandsAt b.keywordLocation b.keyword ∧
      ∀ entry ∈ b.body.entries, source.StandsAt entry.keyLocation entry.key
  | .expression (.table t) => ∀ entry ∈ t.entries, ∃ key ∈ Token.scan source,
      key.location = entry.keyLocation ∧ source.StandsAt entry.keyLocation key.text ∧
        entry.key = key.keyText
  | _ => True

/-- What a node says of places is true. -/
structure Placed (source : Text) (n : Node) : Prop where
  text : ∀ e, n.extent? = some e → source.StandsAt e.location e.text
  nonempty : n.start source < n.stop source
  fits : n.stop source ≤ source.size
  labelled : n.Labelled source
  within : ∀ child ∈ n.children, child.Within source n
  apart : n.isPipeline = false → n.children.Pairwise (Before source)

end Node

/-! ### Tokens in order

Tokens stand in the source one behind the other.  From this alone it follows that what
reaches over different tokens does not overlap.
-/

/-- Tokens of a source, in their order. -/
structure Token.Ordered (source : Text) (ts : List Token) : Prop where
  scanned : ∀ t ∈ ts, t ∈ scan source
  stands : ∀ t ∈ ts, t.StandsIn source
  nonempty : ∀ t ∈ ts, t.start.offset < t.stop.offset
  apart : ts.Pairwise fun t u => t.stop.offset ≤ u.start.offset

namespace Token.Ordered

theorem of_scan (h : unknowns (scan source) = []) (hpaired : source.ReturnsPaired) :
    Ordered source (significant (scan source)) where
  scanned _ ht := (List.mem_filter.mp ht).1
  stands _ ht := standsIn_of_scan h hpaired (List.mem_filter.mp ht).1
  nonempty _ ht := start_lt_stop h (List.mem_filter.mp ht).1
  apart := (pairwise_scan h).sublist List.filter_sublist

theorem sublist (h : Ordered source us) (hsub : ts.Sublist us) : Ordered source ts where
  scanned t ht := h.scanned t (hsub.subset ht)
  stands t ht := h.stands t (hsub.subset ht)
  nonempty t ht := h.nonempty t (hsub.subset ht)
  apart := h.apart.sublist hsub

theorem standsAt (h : Ordered source ts) {t : Token} (ht : t ∈ ts) :
    source.StandsAt t.location t.text := by
  have hs := h.stands t ht
  have hstop : t.stop.offset = t.start.offset + t.text.size := Position.advance_offset _ _
  rw [Text.StandsAt, hs.offset, ← hstop]
  exact hs.text

theorem head_le (h : Ordered source ts) {first t : Token} (hfirst : ts.head? = some first)
    (ht : t ∈ ts) : first.start.offset ≤ t.start.offset := by
  obtain ⟨rest, rfl⟩ := List.head?_eq_some_iff.mp hfirst
  rcases List.mem_cons.mp ht with rfl | ht
  · exact Nat.le_refl _
  · exact Nat.le_trans (Nat.le_of_lt (h.nonempty first List.mem_cons_self))
      ((List.pairwise_cons.mp h.apart).1 t ht)

theorem le_getLast (h : Ordered source ts) {last t : Token} (hlast : ts.getLast? = some last)
    (ht : t ∈ ts) : t.stop.offset ≤ last.stop.offset := by
  obtain ⟨init, rfl⟩ := List.getLast?_eq_some_iff.mp hlast
  rcases List.mem_append.mp ht with ht | ht
  · exact Nat.le_trans ((List.pairwise_append.mp h.apart).2.2 t ht last List.mem_cons_self)
      (Nat.le_of_lt (h.nonempty last (List.mem_append_right _ List.mem_cons_self)))
  · obtain rfl := List.mem_singleton.mp ht
    exact Nat.le_refl _

end Token.Ordered

/-- An extent reaches over tokens, from the first to the last one. -/
structure Extent.Reaches (source : Text) (ts : List Token) (e : Extent) : Prop where
  text : source.StandsAt e.location e.text
  starts : ∃ first ∈ ts, e.start source = first.start.offset
  stops : ∃ last ∈ ts, e.stop source = last.stop.offset
  covers : ∀ t ∈ ts, e.start source ≤ t.start.offset ∧ t.stop.offset ≤ e.stop source

theorem Extent.Spans.reaches {e : Extent} (h : e.Spans source ts) (ho : Token.Ordered source ts) :
    e.Reaches source ts := by
  cases h with
  | token t =>
    have ht : t ∈ [t] := List.mem_cons_self
    have hstart : (⟨t.text, t.location⟩ : Extent).start source = t.start.offset :=
      (ho.stands t ht).offset
    have hstop : (⟨t.text, t.location⟩ : Extent).stop source = t.stop.offset := by
      rw [Extent.stop, hstart]
      exact (Position.advance_offset _ _).symm
    refine ⟨ho.standsAt ht, ⟨t, ht, hstart⟩, ⟨t, ht, hstop⟩, fun u hu => ?_⟩
    obtain rfl := List.mem_singleton.mp hu
    exact ⟨Nat.le_of_eq hstart, Nat.le_of_eq hstop.symm⟩
  | tokens hne =>
    obtain ⟨first, hfirst⟩ := Option.ne_none_iff_exists'.mp (mt List.head?_eq_none_iff.mp hne)
    obtain ⟨last, hlast⟩ := Option.ne_none_iff_exists'.mp (mt List.getLast?_eq_none_iff.mp hne)
    have hfirstIn := List.mem_of_head? hfirst
    have hlastIn := List.mem_of_getLast? hlast
    have hle : first.start.offset ≤ last.stop.offset :=
      Nat.le_trans (ho.head_le hfirst hlastIn) (Nat.le_of_lt (ho.nonempty last hlastIn))
    have hsize := Text.size_slice source (a := first.start.offset) (ho.stands last hlastIn).fits
    have hstart : (Extent.ofTokens source ts).start source = first.start.offset := by
      rw [Extent.ofTokens_eq hfirst hlast]
      exact (ho.stands first hfirstIn).offset
    have hstop : (Extent.ofTokens source ts).stop source = last.stop.offset := by
      rw [Extent.stop, hstart, Extent.ofTokens_eq hfirst hlast, hsize]
      omega
    refine ⟨?_, ⟨first, hfirstIn, hstart⟩, ⟨last, hlastIn, hstop⟩, fun t ht => ?_⟩
    · change source.slice (Extent.start source _) (Extent.stop source _) = _
      rw [hstart, hstop, Extent.ofTokens_eq hfirst hlast]
    · rw [hstart, hstop]
      exact ⟨ho.head_le hfirst ht, ho.le_getLast hlast ht⟩

/-! ### Nodes over tokens

A node has to be placed together with all that stands within it, since each of these
says of itself where it is.  Being in a row is what the parts of a node have to be for
this.
-/

/-- A node stands over tokens, and what it says of places is true, however deep. -/
structure Node.Over (source : Text) (ts : List Token) (n : Node) : Prop where
  placed : n.Throughout (Placed source)
  starts : ∃ first ∈ ts, first.start.offset ≤ n.start source
  stops : ∃ last ∈ ts, n.stop source ≤ last.stop.offset

namespace Node.Over

variable {m n : Node}

theorem mono (h : n.Over source ts) (hsub : ts ⊆ us) : n.Over source us := by
  obtain ⟨first, hfirst, hstart⟩ := h.starts
  obtain ⟨last, hlast, hstop⟩ := h.stops
  exact ⟨h.placed, ⟨first, hsub hfirst, hstart⟩, ⟨last, hsub hlast, hstop⟩⟩

/-- What lies within a node stands over its tokens. -/
theorem shrink (h : n.Over source ts) (hm : m.Throughout (Placed source)) (hw : m.Within source n) :
    m.Over source ts := by
  obtain ⟨first, hfirst, hstart⟩ := h.starts
  obtain ⟨last, hlast, hstop⟩ := h.stops
  exact ⟨hm, ⟨first, hfirst, Nat.le_trans hstart hw.1⟩, ⟨last, hlast, Nat.le_trans hw.2 hstop⟩⟩

/-- Nodes over tokens that come one after another. -/
theorem before (h : m.Over source ts) (h' : n.Over source us)
    (ho : Token.Ordered source (ts ++ us)) : m.Before source n := by
  obtain ⟨last, hlast, hstop⟩ := h.stops
  obtain ⟨first, hfirst, hstart⟩ := h'.starts
  have := (List.pairwise_append.mp ho.apart).2.2 last hlast first hfirst
  exact Nat.le_trans hstop (Nat.le_trans this hstart)

/-- A node whose children lie within its extent. -/
theorem of_extent {e : Extent} (he : n.extent? = some e) (htext : source.StandsAt e.location e.text)
    (hnonempty : e.start source < e.stop source) (hfits : e.stop source ≤ source.size)
    (hlabelled : n.Labelled source) (hstarts : ∃ first ∈ ts, first.start.offset ≤ e.start source)
    (hstops : ∃ last ∈ ts, e.stop source ≤ last.stop.offset)
    (hplaced : ∀ child ∈ n.children, child.Throughout (Placed source))
    (hwithin : ∀ child ∈ n.children,
      e.start source ≤ child.start source ∧ child.stop source ≤ e.stop source)
    (hapart : n.isPipeline = false → n.children.Pairwise (Before source)) : n.Over source ts := by
  refine ⟨.intro ⟨fun e' he' => ?_, ?_, ?_, hlabelled, fun child hchild => ?_, hapart⟩ hplaced,
    ?_, ?_⟩
  · obtain rfl : e = e' := Option.some.inj (he.symm.trans he')
    exact htext
  · rwa [start_eq he, stop_eq he]
  · rwa [stop_eq he]
  · rw [Within, start_eq he, stop_eq he]
    exact hwithin child hchild
  · rwa [start_eq he]
  · rwa [stop_eq he]

/-- A node whose children stand over the tokens that it reaches over. -/
theorem of_children {e : Extent} (he : n.extent? = some e) (hspans : e.Spans source ts)
    (ho : Token.Ordered source ts) (hlabelled : n.Labelled source)
    (hchildren : ∀ child ∈ n.children, child.Over source ts)
    (hapart : n.isPipeline = false → n.children.Pairwise (Before source)) : n.Over source ts := by
  have hreaches := hspans.reaches ho
  obtain ⟨first, hfirst, hstart⟩ := hreaches.starts
  obtain ⟨last, hlast, hstop⟩ := hreaches.stops
  refine of_extent he hreaches.text ?_ ?_ hlabelled ⟨first, hfirst, Nat.le_of_eq hstart.symm⟩
    ⟨last, hlast, Nat.le_of_eq hstop⟩ (fun child hchild => (hchildren child hchild).placed)
    (fun child hchild => ?_) hapart
  · rw [hstart]
    exact Nat.lt_of_lt_of_le (ho.nonempty first hfirst) (hreaches.covers first hfirst).2
  · rw [hstop]
    exact (ho.stands last hlast).fits
  · obtain ⟨t, ht, hfrom⟩ := (hchildren child hchild).starts
    obtain ⟨u, hu, hto⟩ := (hchildren child hchild).stops
    exact ⟨Nat.le_trans (hreaches.covers t ht).1 hfrom, Nat.le_trans hto (hreaches.covers u hu).2⟩

end Node.Over

/-- Nodes stand over tokens, one after another. -/
structure Node.InRow (source : Text) (ts : List Token) (ns : List Node) : Prop where
  each : ∀ n ∈ ns, n.Over source ts
  apart : ns.Pairwise (Before source)

namespace Node.InRow

variable {ns ms : List Node} {n : Node}

theorem nil : InRow source ts [] := ⟨fun _ h => absurd h List.not_mem_nil, .nil⟩

theorem single (h : n.Over source ts) : InRow source ts [n] :=
  ⟨fun _ hm => List.mem_singleton.mp hm ▸ h, List.pairwise_singleton _ _⟩

theorem over_single (h : InRow source ts [n]) : n.Over source ts := h.each n List.mem_cons_self

theorem mono (h : InRow source ts ns) (hsub : ts ⊆ us) : InRow source us ns :=
  ⟨fun n hn => (h.each n hn).mono hsub, h.apart⟩

theorem append (h : InRow source ts ns) (h' : InRow source us ms)
    (ho : Token.Ordered source (ts ++ us)) : InRow source (ts ++ us) (ns ++ ms) where
  each n hn := by
    rcases List.mem_append.mp hn with hn | hn
    · exact (h.each n hn).mono (List.subset_append_left _ _)
    · exact (h'.each n hn).mono (List.subset_append_right _ _)
  apart := List.pairwise_append.mpr
    ⟨h.apart, h'.apart, fun n hn m hm => (h.each n hn).before (h'.each m hm) ho⟩

/-- A node that reaches over the tokens over which its children stand in a row. -/
theorem parent {e : Extent} (h : InRow source ts n.children) (he : n.extent? = some e)
    (hspans : e.Spans source ts) (hlabelled : n.Labelled source) (ho : Token.Ordered source ts) :
    n.Over source ts :=
  .of_children he hspans ho hlabelled h.each fun _ => h.apart

/-- Each node may be replaced by nodes that stand in a row within it. -/
theorem flatMap {α : Type} {f : α → Node} {g : α → List Node} {xs : List α}
    (h : InRow source ts (xs.map f))
    (hplaced : ∀ x ∈ xs, ∀ n ∈ g x, n.Throughout (Placed source) ∧ n.Within source (f x))
    (hapart : ∀ x ∈ xs, (g x).Pairwise (Before source)) : InRow source ts (xs.flatMap g) where
  each n hn := by
    obtain ⟨x, hx, hn⟩ := List.mem_flatMap.mp hn
    obtain ⟨hp, hw⟩ := hplaced x hx n hn
    exact (h.each _ (List.mem_map_of_mem hx)).shrink hp hw
  apart := by
    rw [List.pairwise_flatMap]
    refine ⟨hapart, (List.pairwise_map.mp h.apart).imp_of_mem fun {x y} hx hy hxy n hn m hm => ?_⟩
    exact Nat.le_trans (hplaced x hx n hn).2.2 (Nat.le_trans hxy (hplaced y hy m hm).2.1)

end Node.InRow

/-! ### What is derived stands in a row -/

namespace Grammar

open Node

variable {ps : List Phrase}

/-- What a statement contributes to an array lies within it, one after another. -/
theorem contributed_inRow {s : Statement} (h : (Node.statement s).Throughout (Placed source)) :
    (∀ n ∈ (contributed s).map Term.asNode,
      n.Throughout (Placed source) ∧ n.Within source (.statement s)) ∧
      ((contributed s).map Term.asNode).Pairwise (Before source) := by
  have hchild {parent n : Node} (hp : parent.Throughout (Placed source))
      (hn : n ∈ parent.children) :
      n.Throughout (Placed source) ∧ n.Within source parent :=
    ⟨hp.within hn, hp.here.within n hn⟩
  unfold contributed
  split
  · next b =>
    refine ⟨fun n hn => ?_, List.pairwise_singleton _ _⟩
    exact hchild h hn
  · next extent extent' elements =>
    have hlist := hchild h (n := .expression (.array extent' false elements)) List.mem_cons_self
    refine ⟨fun n hn => ?_, hlist.1.here.apart rfl⟩
    obtain ⟨hp, hw⟩ := hchild hlist.1 hn
    exact ⟨hp, hw.trans hlist.2⟩
  · next extent term _ =>
    refine ⟨fun n hn => ?_, List.pairwise_singleton _ _⟩
    exact hchild h hn
  · next s _ _ _ =>
    refine ⟨fun n hn => ?_, List.pairwise_singleton _ _⟩
    obtain rfl := List.mem_singleton.mp hn
    have hs := h.here
    refine ⟨.leaf rfl ⟨fun e he => ?_, hs.nonempty, hs.fits, trivial, ?_, fun _ => .nil⟩,
      Nat.le_refl _, Nat.le_refl _⟩
    · cases he
      exact hs.text _ rfl
    · exact fun child hchild => absurd hchild List.not_mem_nil

/-- The key of an entry is the text of a token, or its value if it is a string. -/
theorem Derives.entry_key (h : Derives source ts ps) {read : Marked Entry}
    (hread : .entry read ∈ ps) :
    ∃ key ∈ ts, read.node.keyLocation = key.location ∧ read.node.key = key.keyText := by
  induction h with
  | append _ _ ihp ihq =>
    rcases List.mem_append.mp hread with hin | hin
    · obtain ⟨key, hkey, hplace⟩ := ihp hin
      exact ⟨key, List.mem_append_left _ hkey, hplace⟩
    · obtain ⟨key, hkey, hplace⟩ := ihq hin
      exact ⟨key, List.mem_append_right _ hkey, hplace⟩
  | entry =>
    obtain rfl := Phrase.entry.inj (List.mem_singleton.mp hread)
    exact ⟨_, List.mem_cons_self, rfl, rfl⟩
  | nil => cases hread
  | _ => cases List.mem_singleton.mp hread

/-- The entry of a statement with a key. -/
def keyedEntry (keyed : Token × Statement) : Entry := ⟨keyed.1.text, keyed.1.location, keyed.2⟩

/-- Where all statements have keys, what is made of the keys is made of the statements. -/
theorem map_keyed {α : Type} (f : Token × Statement → α) {items : List Item}
    {keyed : List (Token × Statement)} (h : items.mapM (·.keyed?) = some keyed) :
    keyed.map f = items.flatMap fun item => (item.keyed?.map f).toList := by
  induction items generalizing keyed with
  | nil =>
    cases h
    rfl
  | cons item rest ih =>
    rw [List.mapM_cons] at h
    obtain ⟨first, hfirst, h⟩ := Option.bind_eq_some_iff.mp h
    obtain ⟨others, hothers, h⟩ := Option.bind_eq_some_iff.mp h
    cases h
    rw [List.map_cons, List.flatMap_cons, ih hothers, hfirst]
    rfl

/-- An entry whose key starts before its value. -/
theorem entry_placed {e : Entry} (hvalue : (Node.statement e.value).Throughout (Placed source))
    (hkey : e.keyLocation.offsetIn source ≤ e.value.extent.start source) :
    (Node.entry e).Throughout (Placed source) := by
  refine .intro ⟨fun _ he => (by cases he), ?_, hvalue.here.fits, trivial, fun child hchild => ?_,
    fun _ => List.pairwise_singleton _ _⟩ fun child hchild => ?_
  · exact Nat.lt_of_le_of_lt hkey hvalue.here.nonempty
  · obtain rfl := List.mem_singleton.mp hchild
    exact ⟨hkey, Nat.le_refl _⟩
  · obtain rfl := List.mem_singleton.mp hchild
    exact hvalue

/-- The entry of an assignment to a key lies within it. -/
theorem entry_within {extent : Extent} {key : Token} {value : Statement}
    (h : (Node.statement (.assignment extent (bareString key) value)).Throughout (Placed source)) :
    source.StandsAt key.location key.text ∧
      (Node.entry (keyedEntry (key, value))).Throughout (Placed source) ∧
        (Node.entry (keyedEntry (key, value))).Within source
          (.statement (.assignment extent (bareString key) value)) := by
  have hkeyIn : Node.expression (bareString key) ∈
      (Node.statement (.assignment extent (bareString key) value)).children := List.mem_cons_self
  have hvalueIn : Node.statement value ∈
      (Node.statement (.assignment extent (bareString key) value)).children :=
    List.mem_cons_of_mem _ List.mem_cons_self
  have hkey := (h.within hkeyIn).here
  have hbefore : (Node.expression (bareString key)).Before source (.statement value) :=
    (List.pairwise_cons.mp (h.here.apart rfl)).1 _ List.mem_cons_self
  exact ⟨hkey.text _ rfl,
    entry_placed (h.within hvalueIn) (Nat.le_trans (Nat.le_of_lt hkey.nonempty) hbefore),
    (h.here.within _ hkeyIn).1, (h.here.within _ hvalueIn).2⟩

/-- Where the statements of a body stand its entries do. -/
theorem keyed_inRow {items : List Item} {keyed : List (Token × Statement)}
    (hderives : Derives source ts (items.map .item))
    (hrow : InRow source ts (items.map fun item => .statement item.statement))
    (hkeyed : items.mapM (·.keyed?) = some keyed) :
    InRow source ts ((keyed.map keyedEntry).map .entry) ∧
      ∀ entry ∈ keyed.map keyedEntry, source.StandsAt entry.keyLocation entry.key := by
  have hwithin : ∀ item ∈ items, ∀ key value, item.keyed? = some (key, value) →
      source.StandsAt key.location key.text ∧
        (Node.entry (keyedEntry (key, value))).Throughout (Placed source) ∧
          (Node.entry (keyedEntry (key, value))).Within source (.statement item.statement) := by
    intro item hin key value hk
    obtain ⟨-, extent, hs⟩ := hderives.keyed_statement (List.mem_map_of_mem hin) hk
    have hplaced := (hrow.each _ (List.mem_map_of_mem hin)).placed
    rw [hs] at hplaced ⊢
    exact entry_within hplaced
  refine ⟨?_, fun entry hentry => ?_⟩
  · rw [List.map_map, map_keyed _ hkeyed]
    refine hrow.flatMap (fun item hin n hn => ?_) fun item _ => ?_
    · obtain ⟨⟨key, value⟩, hk, rfl⟩ := Option.map_eq_some_iff.mp (Option.mem_toList.mp hn)
      exact (hwithin item hin key value hk).2
    · cases item.keyed? with
      | none => exact .nil
      | some pair => exact List.pairwise_singleton _ _
  · rw [map_keyed _ hkeyed] at hentry
    obtain ⟨item, hin, hentry⟩ := List.mem_flatMap.mp hentry
    obtain ⟨⟨key, value⟩, hk, rfl⟩ := Option.map_eq_some_iff.mp (Option.mem_toList.mp hentry)
    exact (hwithin item hin key value hk).1

/-! ### All that is derived

The induction is on derivations.  Where a rule makes a node out of parts, the parts
stand in a row over its tokens already, and only the node itself is new.
-/

theorem inner_sublist (opening : Token) (inner : List Token) (closing : Token) :
    inner.Sublist (opening :: inner ++ [closing]) :=
  (List.sublist_cons_self _ _).trans (List.sublist_append_left _ _)

/-- An element before the rest of a row. -/
theorem inRow_cons {t : Token} {n : Node} {ns : List Node} (hn : n.Over source [t])
    (hns : InRow source ts ns) (ho : Token.Ordered source (t :: ts)) :
    InRow source (t :: ts) (n :: ns) :=
  (InRow.single hn).append hns ho

/-- A node without children over tokens. -/
theorem over_leaf {n : Node} {e : Extent} (hchildren : n.children = []) (he : n.extent? = some e)
    (hspans : e.Spans source ts) (hlabelled : n.Labelled source) (ho : Token.Ordered source ts) :
    n.Over source ts :=
  InRow.parent (hchildren ▸ .nil) he hspans hlabelled ho

/-- What two values joined by a comma are made of: the elements of the first, or the first itself,
and the second. -/
theorem joined_inRow {e : Expression} (f : Expression) (he : (Node.expression e).Over source ts) :
    ∃ front, (joined e f).map Term.asNode = front ++ [.expression f] ∧ InRow source ts front ∧
      ∀ n ∈ front, n.Within source (.expression e) := by
  unfold joined
  split
  · next extent elements =>
    have hwithin : ∀ n ∈ elements.map Term.asNode,
        n.Within source (.expression (.array extent false elements)) := he.placed.here.within
    refine ⟨_, List.map_append, ⟨fun n hn => ?_, he.placed.here.apart rfl⟩, hwithin⟩
    exact he.shrink (he.placed.within hn) (hwithin n hn)
  · refine ⟨[.expression e], rfl, .single he, fun n hn => ?_⟩
    obtain rfl := List.mem_singleton.mp hn
    exact ⟨Nat.le_refl _, Nat.le_refl _⟩

/-- Two values joined by a comma stand over the tokens of both. -/
theorem over_joined {e f : Expression} (he : (Node.expression e).Over source ts)
    (hf : (Node.expression f).Over source us) (ho : Token.Ordered source (ts ++ us)) :
    (Node.expression (joinValues source e f)).Over source (ts ++ us) := by
  obtain ⟨front, hchildren, hrow, hwithin⟩ := joined_inRow f he
  have hall : InRow source (ts ++ us) (front ++ [.expression f]) := hrow.append (.single hf) ho
  have hbefore : e.extent.stop source ≤ f.extent.start source := he.before hf ho
  have hefull : e.extent.start source < e.extent.stop source := he.placed.here.nonempty
  have hffull : f.extent.start source < f.extent.stop source := hf.placed.here.nonempty
  have hfits : f.extent.stop source ≤ source.size := hf.placed.here.fits
  obtain ⟨first, hfirst, hstart⟩ := he.starts
  obtain ⟨last, hlast, hstop⟩ := hf.stops
  -- The joined extent starts with the first value and stops with the second.
  have hsize : (source.slice (e.extent.start source) (f.extent.stop source)).size = _ :=
    Text.size_slice source hfits
  have hjoinedStart : (joinedExtent source e.extent f.extent).start source =
      e.extent.start source := rfl
  have hjoinedStop : (joinedExtent source e.extent f.extent).stop source =
      f.extent.stop source := by
    change e.extent.start source +
      (source.slice (e.extent.start source) (f.extent.stop source)).size = _
    omega
  rw [joinValues_eq]
  refine .of_extent (e := joinedExtent source e.extent f.extent) rfl ?_ ?_ ?_ trivial
    ⟨first, List.mem_append_left _ hfirst, hstart⟩
    ⟨last, List.mem_append_right _ hlast, ?_⟩ ?_ ?_ ?_
  · change source.slice (Extent.start source _) (Extent.stop source _) = _
    rw [hjoinedStop]
    rfl
  · rw [hjoinedStart, hjoinedStop]
    omega
  · rwa [hjoinedStop]
  · rwa [hjoinedStop]
  · rw [Node.children, hchildren]
    exact fun child hchild => (hall.each child hchild).placed
  · rw [Node.children, hchildren, hjoinedStart, hjoinedStop]
    intro child hchild
    rcases List.mem_append.mp hchild with hchild | hchild
    · obtain ⟨hfrom, hto⟩ := hwithin child hchild
      exact ⟨hfrom, Nat.le_trans hto (Nat.le_trans hbefore (Nat.le_of_lt hffull))⟩
    · obtain rfl := List.mem_singleton.mp hchild
      exact ⟨Nat.le_trans (Nat.le_of_lt hefull) hbefore, Nat.le_refl _⟩
  · rw [Node.children, hchildren]
    exact fun _ => hall.apart

/-- A key with the value behind it. -/
theorem over_entry {key : Token} {value : Statement} (name : Text)
    (hvalue : (Node.statement value).Over source ts) (ho : Token.Ordered source (key :: ts)) :
    (Node.entry ⟨name, key.location, value⟩).Over source (key :: ts) := by
  obtain ⟨first, hfirst, hstart⟩ := hvalue.starts
  obtain ⟨last, hlast, hstop⟩ := hvalue.stops
  have hkey : key ∈ key :: ts := List.mem_cons_self
  have hoffset := (ho.stands key hkey).offset
  have hnonempty := ho.nonempty key hkey
  have hbefore := (List.pairwise_cons.mp ho.apart).1 first hfirst
  refine ⟨entry_placed hvalue.placed ?_, ⟨key, hkey, Nat.le_of_eq hoffset.symm⟩,
    ⟨last, List.mem_cons_of_mem _ hlast, hstop⟩⟩
  change _ ≤ (Node.statement value).start source
  rw [hoffset]
  omega

/-- A command over tokens over some of which its arguments stand. -/
theorem over_command (name : Text) {arguments : List (Marked Argument)}
    (h : InRow source ts ((arguments.map Phrase.argument).map Phrase.node)) (hsub : ts ⊆ us)
    (hne : us ≠ []) (ho : Token.Ordered source us) :
    (Node.command ⟨.ofTokens source us, name, arguments.map (·.node)⟩).Over source us := by
  refine InRow.parent ?_ rfl (.tokens hne) trivial ho
  rw [List.map_map] at h
  rw [Node.children, List.map_map]
  exact h.mono hsub

/-- **What phrases are read as stands in a row**, and what it says of places is true. -/
theorem Derives.inRow (h : Derives source ts ps) (ho : Token.Ordered source ts) :
    InRow source ts (ps.map Phrase.node) := by
  induction h with
  | nil ts => exact .nil
  | @append ts us ps qs _ _ ihp ihq =>
    rw [List.map_append]
    exact (ihp (ho.sublist (List.sublist_append_left _ _))).append
      (ihq (ho.sublist (List.sublist_append_right _ _))) ho
  | @leaf ts e hleaf hextent =>
    refine .single (over_leaf ?_ rfl hextent ?_ ho)
    · cases e <;> first | rfl | cases hleaf
    · cases e <;> trivial
  | @member ts us v marks members htarget ih =>
    have hrow := (ih (ho.sublist (List.sublist_append_left _ _))).mono
      (List.subset_append_left _ us)
    exact .single (hrow.parent rfl (.tokens (htarget.behind us |>.ne_nil (by simp))) trivial ho)
  | @unrecognized ts us base hbase ih =>
    exact .single (over_leaf rfl rfl (.tokens (hbase.behind us |>.ne_nil (by simp))) trivial ho)
  | @array opening closing inner items hitems ih =>
    have hsub := inner_sublist opening inner closing
    have hrow := (ih (ho.sublist hsub)).mono hsub.subset
    rw [List.map_map] at hrow
    refine .single (InRow.parent (n := .expression (.array _ _ _)) ?_ rfl (.tokens (by simp))
      trivial ho)
    have hcontributed := hrow.flatMap
      (g := fun item => (contributed item.statement).map Term.asNode)
      (fun item hin => (contributed_inRow (hrow.each _ (List.mem_map_of_mem hin)).placed).1)
      (fun item hin => (contributed_inRow (hrow.each _ (List.mem_map_of_mem hin)).placed).2)
    rwa [Node.children, List.map_flatMap]
  | @list ts all hne hall ih =>
    have hrow := ih ho
    refine .single (InRow.parent (n := .expression (.array _ _ _)) ?_ rfl
      (.tokens (hall.ne_nil (by simpa using hne))) trivial ho)
    rw [List.map_map] at hrow
    rwa [Node.children, List.map_map]
  | @table opening closing inner entries hentries ih =>
    have hsub := inner_sublist opening inner closing
    have hrow := (ih (ho.sublist hsub)).mono hsub.subset
    rw [List.map_map] at hrow
    refine .single (InRow.parent (n := .expression (.table _)) (.single ?_) rfl
      (.tokens (by simp)) ?_ ho)
    · refine InRow.parent (n := .table _) ?_ rfl (.tokens (by simp)) trivial ho
      rwa [Node.children, List.map_map]
    · intro entry hentry
      obtain ⟨read, hread, rfl⟩ := List.mem_map.mp hentry
      obtain ⟨key, hkey, hplace, htext⟩ := hentries.entry_key (List.mem_map_of_mem hread)
      refine ⟨key, ho.scanned key (hsub.subset hkey), hplace.symm, ?_, htext⟩
      rw [hplace]
      exact ho.standsAt (hsub.subset hkey)
  | @entry key ts value hvalue ih =>
    exact .single (over_entry _ (ih (ho.sublist (List.sublist_cons_self _ _))).over_single ho)
  | parameter t name => exact .single (over_leaf rfl rfl (.token t) trivial ho)
  | argument he _ ih | expressionTerm he ih | value hitem ih | plain hvalue ih => exact ih ho
  | joined he hf _ ihe ihf =>
    exact .single (over_joined (ihe (ho.sublist (List.sublist_append_left _ _))).over_single
      (ihf (ho.sublist (List.sublist_append_right _ _))).over_single ho)
  | @commandTerm head ts arguments harguments ih =>
    exact .single (over_command _ (ih (ho.sublist (List.sublist_cons_self _ _)))
      (List.subset_cons_self _ _) (by simp) ho)
  | @assignment ts us target value htarget hvalue iht ihv =>
    refine .single (InRow.parent (n := .statement (.assignment _ _ _)) ?_ rfl (.tokens ?_)
      trivial ho)
    · exact (iht (ho.sublist (List.sublist_append_left _ _))).append
        (ihv (ho.sublist (List.sublist_append_right _ _))) ho
    · exact (htarget.behind us).ne_nil (by simp)
  | @pipeline ts terms hne hterms ih =>
    have hrow := ih ho
    refine .single (InRow.parent (n := .statement (.pipeline _ _)) ?_ rfl
      (.tokens (hterms.ne_nil (by simpa using hne))) trivial ho)
    rw [List.map_map] at hrow
    rwa [Node.children, List.map_map]
  | @keyed key ts value hvalue ih =>
    refine .single (InRow.parent (n := .statement (.assignment _ _ _)) ?_ rfl
      (.tokens (by simp)) trivial ho)
    exact inRow_cons (over_leaf rfl rfl (.token key) trivial
      (ho.sublist (List.singleton_sublist.mpr List.mem_cons_self)))
      (ih (ho.sublist (List.sublist_cons_self _ _))) ho
  | param hne => exact .single (over_leaf rfl rfl (.tokens hne) trivial ho)
  | @configuration keyword ts items name hitems ih =>
    have hrow := (ih (ho.sublist (List.sublist_cons_self _ _))).mono
      (List.subset_cons_self keyword _)
    refine .single (InRow.parent (n := .statement (.configuration _ _ _)) ?_ rfl
      (.tokens (by simp)) trivial ho)
    rw [List.map_map] at hrow
    rwa [Node.children, List.map_map]
  | @node keyword ts us target items htarget hitems iht ihi =>
    have hrest := ho.sublist (List.sublist_cons_self _ _)
    have hrow := ((iht (hrest.sublist (List.sublist_append_left _ _))).append
      (ihi (hrest.sublist (List.sublist_append_right _ _))) hrest).mono
      (List.subset_cons_self keyword _)
    refine .single (InRow.parent (n := .statement (.node _ _ _)) ?_ rfl (.tokens (by simp))
      trivial ho)
    rw [List.map_map] at hrow
    rwa [Node.children, List.map_map]
  | @command head ts us arguments piped harguments hpiped iha ihp =>
    have hrest := ho.sublist (List.sublist_cons_self _ _)
    have hcommand := over_command head.text
      (iha (hrest.sublist (List.sublist_append_left _ _)))
      (List.subset_cons_of_subset head (List.subset_append_left _ us)) (by simp) ho
    have hpipedRow := (ihp (hrest.sublist (List.sublist_append_right _ _))).mono
      (List.subset_cons_of_subset head (List.subset_append_right ts _))
    rw [List.map_map] at hpipedRow
    refine .single (.of_children (n := .statement (.pipeline _ _)) rfl (.tokens (by simp)) ho
      trivial (fun child hchild => ?_) nofun)
    rcases List.mem_cons.mp hchild with rfl | hchild
    · exact hcommand
    · rw [List.map_map] at hchild
      exact hpipedRow.each child hchild
  | @textBody head opening closing ts inner arguments items _ _ _ harguments hitems iha ihi =>
    have hrest := ho.sublist (List.sublist_cons_self _ _)
    have hcommand := over_command head.text
      (iha (hrest.sublist (List.sublist_append_left _ _)))
      (List.subset_cons_of_subset head (List.subset_append_left _ _)) (by simp) ho
    exact .single (InRow.parent (n := .statement (.pipeline _ _)) (.single hcommand) rfl
      (.tokens (by simp)) trivial ho)
  | @block head opening closing ts inner arguments items name keyed _ harguments hname _ hitems hkeyed
      iha ihi =>
    have hrest := ho.sublist (List.sublist_cons_self _ _)
    have hbrackets := hrest.sublist (List.sublist_append_right _ _)
    have hsub := inner_sublist opening inner closing
    have hrow := ihi (hbrackets.sublist hsub)
    rw [List.map_map] at hrow
    obtain ⟨hentries, hkeys⟩ := keyed_inRow hitems hrow hkeyed
    have htable : (Node.table ⟨.ofTokens source (opening :: inner ++ [closing]),
        keyed.map keyedEntry⟩).Over source (opening :: inner ++ [closing]) :=
      InRow.parent (hentries.mono hsub.subset) rfl (.tokens (by simp)) trivial hbrackets
    have hnamed : InRow source ts (name.toList.map .expression) := by
      have hargumentsRow := iha (hrest.sublist (List.sublist_append_left _ _))
      rw [← blockName?_nodes hname, List.map_map]
      rwa [List.map_map] at hargumentsRow
    refine .single (InRow.parent (n := .statement (.block _)) (.single ?_) rfl (.tokens (by simp))
      trivial ho)
    exact InRow.parent (n := .block _) ((hnamed.append (.single htable) hrest).mono
      (List.subset_cons_self _ _)) rfl (.tokens (by simp))
      ⟨ho.standsAt List.mem_cons_self, hkeys⟩ ho

end Grammar

/-- The statements of a script stand in a row over its tokens. -/
theorem Script.statements_inRow {source : Text} {script : Script} (h : parse source = .ok script)
    (hpaired : source.ReturnsPaired) : Node.InRow source
      (Token.significant (Token.scan source)) (script.statements.map Node.statement) := by
  obtain ⟨hknown, items, hitems, rfl⟩ := parse_eq_ok_iff.mp h
  have hrow := (Grammar.derives_of_script hitems).inRow (.of_scan hknown hpaired)
  rw [List.map_map] at hrow
  rwa [List.map_map]

theorem Script.placed_of_occurs {source : Text} {script : Script} (h : parse source = .ok script)
    (hpaired : source.ReturnsPaired) {n : Node} (hn : Node.Occurs script.statements n) :
    n.Placed source := by
  obtain ⟨s, hs, hholds⟩ := hn
  exact (((statements_inRow h hpaired).each _ (List.mem_map_of_mem hs)).placed.of_holds hholds).here

/-- **Nodes carry their exact source**: where every carriage return is followed by a line feed, the
texts and places of all nodes of a tree are those of the source, children stand within their
parents, and statements, entries, elements and arguments one after another. -/
theorem Script.parse_placed {source : Text} {script : Script} (h : parse source = .ok script)
    (hpaired : source.ReturnsPaired) :
    (∀ n, Node.Occurs script.statements n → n.Placed source) ∧
      (script.statements.map Node.statement).Pairwise (Node.Before source) :=
  ⟨fun _ hn => placed_of_occurs h hpaired hn, (statements_inRow h hpaired).apart⟩

/-- A pipeline with a list, and a block with a table, a quoted key and a block within an array. -/
def nestedSource : Text :=
  "Foo a, b, c | Bar -p 1\r\n" ++
    "File f \x7b x = @\x7b 'q' = 1; b = $c.d \x7d\n  y = @(Sub s \x7b z = 2 \x7d, 3) \x7d"

theorem Script.parse_placed_nested : ∃ script, parse nestedSource = .ok script ∧
    script.statements.length = 2 ∧ nestedSource.ReturnsPaired ∧
    (∀ n, Node.Occurs script.statements n → n.Placed nestedSource) ∧
      (script.statements.map Node.statement).Pairwise (Node.Before nestedSource) := by
  have hlength : (parse nestedSource).toOption.map (·.statements.length) = some 2 := by
    decide +kernel
  have hpaired : nestedSource.ReturnsPaired := by decide +kernel
  cases h : parse nestedSource with
  | error e =>
    rw [h] at hlength
    cases hlength
  | ok script =>
    rw [h] at hlength
    exact ⟨script, rfl, Option.some.inj hlength, hpaired, parse_placed h hpaired⟩

end DesiredState

/-
What can be seen through a window.

Two texts with the same tokens in the same places may differ in what stands between the
tokens.  A window says on which stretches they agree, and their trees are the same as far
as they can be seen through it: the extents that are seen are equal, and of all others
the places and the sizes are.  The body of a node block lies wholly between its braces,
so where all is seen from brace to brace the two bodies are equal.
-/
import DesiredState.Proofs.Script.Heads
import DesiredState.Proofs.Script.Inset
import DesiredState.Proofs.Script.Sections
import DesiredState.Proofs.Token.Blanking

namespace DesiredState

/-- An extent lies between two offsets of a source. -/
def Extent.Within (source : Text) (start stop : Nat) (e : Extent) : Prop :=
  start ≤ e.location.offsetIn source ∧ e.location.offsetIn source + e.text.size ≤ stop

instance (source : Text) (start stop : Nat) (e : Extent) : Decidable (e.Within source start stop) :=
  inferInstanceAs (Decidable (_ ∧ _))

/-- Spaces for the texts of extents that do not lie between two offsets, those of numbers apart. -/
def Relabelling.within (source : Text) (start stop : Nat) : Relabelling where
  extent e := if e.Within source start stop then e else ⟨Text.spaces e.text.size, e.location⟩
  number := id
  location := id
  offset := id
  head := id

namespace Relabelling

variable {source : Text} {start stop : Nat} {e : Extent}

theorem within_extent (h : e.Within source start stop) :
    (within source start stop).extent e = e := if_pos h

theorem within_location : ((within source start stop).extent e).location = e.location := by
  change (if _ then _ else _ : Extent).location = _
  split <;> rfl

theorem within_size : ((within source start stop).extent e).text.size = e.text.size := by
  change (if _ then _ else _ : Extent).text.size = _
  split
  · rfl
  · exact Text.size_spaces _

end Relabelling

/-- The extent of one token of a source. -/
theorem Token.StandsIn.ofTokens_eq {source : Text} {t : Token} (h : t.StandsIn source) :
    Extent.ofTokens source [t] = ⟨t.text, t.location⟩ := by
  change (⟨source.slice t.start.offset t.stop.offset, t.location⟩ : Extent) = _
  rw [h.text]

/-! ### Two texts

What is hidden is a matter of extents: a node whose extent is seen is compared by its
text as well, and any other by its place and size alone.
-/

/-- Two texts that agree on some stretches, with the same tokens in the same places. -/
structure Window where
  left : Text
  right : Text
  tokens : List Token
  /-- The offsets at which stretches start and stop. -/
  Edge : Nat → Prop
  /-- The stretches, by the offsets of their ends. -/
  Seen : Nat → Nat → Prop
  decideSeen : DecidableRel Seen
  offsetIn_eq : ∀ location : Location, location.offsetIn right = location.offsetIn left
  slice_eq : ∀ {a b}, Edge a → Edge b → Seen a b → right.slice a b = left.slice a b
  edges : ∀ t ∈ tokens, Edge t.start.offset ∧ Edge t.stop.offset
  standsLeft : ∀ t ∈ tokens, t.StandsIn left
  standsRight : ∀ t ∈ tokens, t.StandsIn right
  balanced : Nesting.Balanced tokens

namespace Window

variable (W : Window)

/-- Whether an extent is seen. -/
def Sees (e : Extent) : Prop :=
  W.Seen (e.location.offsetIn W.left) (e.location.offsetIn W.left + e.text.size)

instance : DecidablePred W.Sees := fun _ => W.decideSeen _ _

/-- What is looked at of both trees: spaces stand for the texts of extents that are not seen, those
of numbers apart. -/
def look : Relabelling where
  extent e := if W.Sees e then e else ⟨Text.spaces e.text.size, e.location⟩
  number := id
  location := id
  offset := id
  head := id

/-- Extents at the same place and of the same size, which are the same if they are seen. -/
structure Same (e f : Extent) : Prop where
  location : e.location = f.location
  size : e.text.size = f.text.size
  starts : W.Edge (e.location.offsetIn W.left)
  stops : W.Edge (e.location.offsetIn W.left + e.text.size)
  fitsLeft : e.location.offsetIn W.left + e.text.size ≤ W.left.size
  fitsRight : e.location.offsetIn W.left + e.text.size ≤ W.right.size
  text : W.Sees e → e.text = f.text

variable {W}

theorem Same.eq {e f : Extent} (h : W.Same e f) (hw : W.Sees e) : e = f := by
  have htext := h.text hw
  have hlocation := h.location
  cases e
  cases f
  cases htext
  cases hlocation
  rfl

theorem Same.look_eq {e f : Extent} (h : W.Same e f) : W.look.extent e = W.look.extent f := by
  change (if _ then _ else _ : Extent) = if _ then _ else _
  by_cases hw : W.Sees e
  · obtain rfl := h.eq hw
    rfl
  · have hf : ¬ W.Sees f := by
      rwa [Sees, ← h.location, ← h.size]
    rw [if_neg hw, if_neg hf, h.location, h.size]

/-- What is cut out of both texts between the same offsets. -/
theorem same_slice {a b : Nat} {location : Location} (ha : location.offsetIn W.left = a)
    (hstarts : W.Edge a) (hstops : W.Edge b) (hal : a ≤ W.left.size) (har : a ≤ W.right.size)
    (hbl : b ≤ W.left.size) (hbr : b ≤ W.right.size) :
    W.Same ⟨W.left.slice a b, location⟩ ⟨W.right.slice a b, location⟩ where
  location := rfl
  size := by rw [Text.size_slice _ hbl, Text.size_slice _ hbr]
  starts := by rwa [ha]
  stops := by
    change W.Edge (location.offsetIn W.left + (W.left.slice a b).size)
    rw [ha, Text.size_slice _ hbl]
    rcases Nat.le_total b a with hab | hab
    · rwa [Nat.sub_eq_zero_of_le hab]
    · rwa [Nat.add_sub_cancel' hab]
  fitsLeft := by
    change location.offsetIn W.left + (W.left.slice a b).size ≤ _
    rw [ha, Text.size_slice _ hbl]
    omega
  fitsRight := by
    change location.offsetIn W.left + (W.left.slice a b).size ≤ _
    rw [ha, Text.size_slice _ hbl]
    omega
  text hw := by
    change W.Seen (location.offsetIn W.left)
      (location.offsetIn W.left + (W.left.slice a b).size) at hw
    rw [ha, Text.size_slice _ hbl] at hw
    rcases Nat.le_total b a with hab | hab
    · change W.left.slice a b = W.right.slice a b
      rw [Text.slice_eq_nil _ hab, Text.slice_eq_nil _ hab]
    · rw [Nat.add_sub_cancel' hab] at hw
      exact (W.slice_eq hstarts hstops hw).symm

theorem same_span {taken : List Token} (h : ∀ t ∈ taken, t ∈ W.tokens) (hne : taken ≠ []) :
    W.Same (.ofTokens W.left taken) (.ofTokens W.right taken) := by
  obtain ⟨first, hfirst⟩ := Option.ne_none_iff_exists'.mp (mt List.head?_eq_none_iff.mp hne)
  obtain ⟨last, hlast⟩ := Option.ne_none_iff_exists'.mp (mt List.getLast?_eq_none_iff.mp hne)
  have hf := h first (List.mem_of_head? hfirst)
  have hl := h last (List.mem_of_getLast? hlast)
  rw [Extent.ofTokens_eq hfirst hlast, Extent.ofTokens_eq hfirst hlast]
  exact same_slice (W.standsLeft first hf).offset (W.edges first hf).1 (W.edges last hl).2
    (W.standsLeft first hf).starts (W.standsRight first hf).starts (W.standsLeft last hl).fits
    (W.standsRight last hl).fits

theorem same_joined {e f e' f' : Extent} (h : W.Same e f) (h' : W.Same e' f') :
    W.Same (Grammar.joinedExtent W.left e e') (Grammar.joinedExtent W.right f f') := by
  unfold Grammar.joinedExtent
  rw [W.offsetIn_eq, W.offsetIn_eq, ← h.location, ← h'.location, ← h'.size]
  have hl := h.fitsLeft
  have hr := h.fitsRight
  exact same_slice rfl h.starts h'.stops (by omega) (by omega) h'.fitsLeft h'.fitsRight

/-- A token is cut out of both texts. -/
theorem ofTokens_singleton {t : Token} (h : t ∈ W.tokens) :
    Extent.ofTokens W.left [t] = Extent.ofTokens W.right [t] := by
  rw [(W.standsLeft t h).ofTokens_eq, (W.standsRight t h).ofTokens_eq]

/-- Both texts, read from the same tokens. -/
def shared (W : Window) : Shared where
  left := ⟨W.left, [], [], W.look⟩
  right := ⟨W.right, [], [], W.look⟩
  tokens := W.tokens
  Same := W.Same
  look_eq := Same.look_eq
  token_eq _ _ := rfl
  head_eq _ _ := rfl
  same_token t ht := by
    have hspan := @same_span W [t]
      (fun u hu => by rwa [List.mem_singleton.mp hu]) (List.cons_ne_nil _ _)
    rwa [(W.standsLeft t ht).ofTokens_eq, (W.standsRight t ht).ofTokens_eq] at hspan
  same_span front taken rest h hne := same_span (fun t ht => by
    rw [h]
    exact List.mem_append_left _ (List.mem_append_right _ ht)) hne
  same_joined := same_joined
  number_eq t ht _ := ofTokens_singleton ht
  stops _ _ _ h := by cases h
  stops_kind _ h := by cases h
  balanced := W.balanced

/-- **The same is seen of both trees**, and the same tokens are marked. -/
theorem script_same {read : List Item} (h : Grammar.script W.left W.tokens = .ok read) :
    ∃ read', Grammar.script W.right W.tokens = .ok read' ∧
      (read'.map (·.statement)).map (Statement.relabel W.look) =
        (read.map (·.statement)).map (Statement.relabel W.look) ∧
      read'.flatMap (·.marks) = read.flatMap (·.marks) := by
  obtain ⟨read', hread, hsame⟩ := W.shared.script_same ⟨rfl, rfl⟩ ⟨rfl, rfl⟩ h
  have hmarks := Parallel.marks_eq (T := W.shared.parallel) hsame
  have hmark : ∀ mark : Mark, mark.relabel W.look = mark := fun _ => rfl
  change (read.flatMap (·.marks)).map (Mark.relabel W.look) =
    (read'.flatMap (·.marks)).map (Mark.relabel W.look) at hmarks
  rw [funext hmark, List.map_id', List.map_id'] at hmarks
  exact ⟨read', hread, (Parallel.statements_eq (T := W.shared.parallel) hsame).symm, hmarks.symm⟩

/-- A source and its text with comments blanked out. -/
def ofBlanked {source : Text} {p : Token → Bool} (h : Token.unknowns (Token.scan source) = [])
    (hp : ∀ t, p t → t.kind.isComment) (hpaired : source.ReturnsPaired)
    (hbalanced : Nesting.Balanced (Token.significant (Token.scan source))) (Edge : Nat → Prop)
    (Seen : Nat → Nat → Prop) (decideSeen : DecidableRel Seen)
    (hslice : ∀ {a b}, Edge a → Edge b → Seen a b →
      (Token.blankedText p (Token.scan source)).slice a b = source.slice a b)
    (hedges : ∀ t ∈ Token.significant (Token.scan source),
      Edge t.start.offset ∧ Edge t.stop.offset) : Window where
  left := source
  right := Token.blankedText p (Token.scan source)
  tokens := Token.significant (Token.scan source)
  Edge := Edge
  Seen := Seen
  decideSeen := decideSeen
  offsetIn_eq := Token.offsetIn_blanked h
  slice_eq := hslice
  edges := hedges
  standsLeft t ht := Token.standsIn_of_scan h hpaired (List.mem_filter.mp ht).1
  standsRight t ht := by
    rw [← Token.significant_scan_blanked h hp] at ht
    exact Token.standsIn_of_scan (Token.unknowns_scan_blanked h hp)
      (Token.returnsPaired_blanked h hpaired) (List.mem_filter.mp ht).1
  balanced := hbalanced

end Window

/-! ### Bodies

The extents in a body lie between its braces, so that all of them are seen where these
are.  That is what a body needs to be the same on both sides.
-/

namespace Grammar.NodeReading

variable {source : Text} {tokens : List Token} {extent : Extent} {statements : List Statement}

theorem closing_mem (R : NodeReading source tokens extent statements) : R.closing ∈ tokens := by
  have h : R.closing ∈ R.before ++ R.opening :: R.inner ++ R.closing :: R.after := by simp
  rwa [← R.tokens_eq] at h

/-- The tokens of a body stand between its braces. -/
theorem between (R : NodeReading source tokens extent statements)
    (ordered : tokens.Pairwise fun t u => t.stop.offset ≤ u.start.offset) {t : Token}
    (h : t ∈ R.inner) :
    t ∈ tokens ∧ R.opening.stop.offset ≤ t.start.offset ∧ t.stop.offset ≤ R.closing.start.offset := by
  have hopening : (R.opening :: (R.inner ++ R.closing :: R.after)).Pairwise
      fun t u => t.stop.offset ≤ u.start.offset := by
    have htokens := R.tokens_eq
    rw [List.append_assoc, List.cons_append] at htokens
    rw [htokens] at ordered
    exact (List.pairwise_append.mp ordered).2.1
  have hinner := (List.pairwise_cons.mp hopening).2
  refine ⟨?_, (List.pairwise_cons.mp hopening).1 t (List.mem_append_left _ h),
    (List.pairwise_append.mp hinner).2.2 t h R.closing List.mem_cons_self⟩
  rw [R.tokens_eq]
  exact List.mem_append_left _ (List.mem_append_right _ (List.mem_cons_of_mem _ h))

/-- What is cut out between two places within the braces. -/
theorem within_slice {a b start stop : Nat} {location : Location}
    (ha : location.offsetIn source = a) (hstart : start ≤ a) (hstop : a ≤ stop) (hb : b ≤ stop)
    (hfits : b ≤ source.size) : Extent.Within source start stop ⟨source.slice a b, location⟩ := by
  refine ⟨by rwa [ha], ?_⟩
  change location.offsetIn source + (source.slice a b).size ≤ stop
  rw [ha, Text.size_slice _ hfits]
  omega

theorem within_span (R : NodeReading source tokens extent statements)
    (stands : ∀ t ∈ tokens, t.StandsIn source)
    (ordered : tokens.Pairwise fun t u => t.stop.offset ≤ u.start.offset) {taken : List Token}
    (h : ∀ t ∈ taken, t ∈ R.inner) (hne : taken ≠ []) :
    (Extent.ofTokens source taken).Within source R.opening.stop.offset R.closing.start.offset := by
  obtain ⟨first, hfirst⟩ := Option.ne_none_iff_exists'.mp (mt List.head?_eq_none_iff.mp hne)
  obtain ⟨last, hlast⟩ := Option.ne_none_iff_exists'.mp (mt List.getLast?_eq_none_iff.mp hne)
  obtain ⟨hf, hstart, hstop⟩ := R.between ordered (h first (List.mem_of_head? hfirst))
  obtain ⟨hl, -, hend⟩ := R.between ordered (h last (List.mem_of_getLast? hlast))
  rw [Extent.ofTokens_eq hfirst hlast]
  exact within_slice (stands first hf).offset hstart
    (Nat.le_trans (Position.offset_le_advance _ _) hstop) hend (stands last hl).fits

/-- The tokens of a body are read again, to extents of which it is known that they lie between the
braces. -/
def shared (R : NodeReading source tokens extent statements)
    (stands : ∀ t ∈ tokens, t.StandsIn source)
    (ordered : tokens.Pairwise fun t u => t.stop.offset ≤ u.start.offset) : Shared where
  left := ⟨source, R.opening :: R.before.reverse, R.closing :: R.after, .same⟩
  right := ⟨source, R.opening :: R.before.reverse, R.closing :: R.after,
    .within source R.opening.stop.offset R.closing.start.offset⟩
  tokens := R.inner
  Same e f := e = f ∧ e.Within source R.opening.stop.offset R.closing.start.offset
  look_eq := by
    rintro e _ ⟨rfl, hw⟩
    exact (Relabelling.within_extent hw).symm
  token_eq _ _ := rfl
  head_eq _ _ := rfl
  same_token t ht := by
    refine ⟨rfl, ?_⟩
    have hspan := @within_span _ _ _ _ R stands ordered [t]
      (fun u hu => by rwa [List.mem_singleton.mp hu]) (List.cons_ne_nil _ _)
    rwa [(stands t (R.between ordered ht).1).ofTokens_eq] at hspan
  same_span front taken rest h hne := ⟨rfl, R.within_span stands ordered (fun t ht => by
    rw [h]
    exact List.mem_append_left _ (List.mem_append_right _ ht)) hne⟩
  same_joined := by
    rintro e _ e' _ ⟨rfl, hstart, hstop⟩ ⟨rfl, -, hstop'⟩
    have hclosing := (stands R.closing R.closing_mem).starts
    exact ⟨rfl, within_slice (a := e.location.offsetIn source)
      (b := e'.location.offsetIn source + e'.text.size) rfl hstart (by omega) hstop' (by omega)⟩
  number_eq _ _ _ := rfl
  stops last next _ hnext := by
    obtain rfl : R.closing = next := Option.some.inj hnext
    rw [Token.Stops, R.closes]
    exact ⟨fun _ => rfl, fun _ => rfl, fun _ => by decide⟩
  stops_kind next hnext := by
    obtain rfl : R.closing = next := Option.some.inj hnext
    rw [R.closes]
    decide
  balanced := R.balanced

/-- **The body of a node block lies between its braces.** -/
theorem relabel_within (R : NodeReading source tokens extent statements)
    (stands : ∀ t ∈ tokens, t.StandsIn source)
    (ordered : tokens.Pairwise fun t u => t.stop.offset ≤ u.start.offset) :
    statements.map
        (Statement.relabel (.within source R.opening.stop.offset R.closing.start.offset)) =
      statements := by
  let T := (R.shared stands ordered).parallel
  have hfst : T.pairs.map Prod.fst = R.inner := Shared.map_fst_doubled _
  have hsnd : T.pairs.map Prod.snd = R.inner := Shared.map_snd_doubled _
  have hleft : T.cursorLeft [] T.pairs =
      ⟨R.opening :: R.before.reverse, R.inner ++ R.closing :: R.after⟩ := by
    rw [Parallel.cursorLeft, hfst]
    rfl
  have hright : T.cursorRight [] T.pairs =
      ⟨R.opening :: R.before.reverse, R.inner ++ R.closing :: R.after⟩ := by
    rw [Parallel.cursorRight, hsnd]
    rfl
  have hlength : T.pairs.length ≤ R.levels := by
    rw [← List.length_map Prod.fst, hfst]
    exact R.enough
  have hread := R.read
  rw [← hleft] at hread
  obtain ⟨taken, rest, list, -, -, hagain, hsame⟩ := @Parallel.keeps_items T _ 0 _ _ _ _
    (T.agrees_level R.levels R.levels) (· == .semicolon) (fun _ next hnext => by
      obtain rfl : R.closing = next := Option.some.inj hnext
      rw [R.closes]
      rfl) rfl hlength R.list _ hread (Nat.le_refl _)
  rw [hright] at hagain
  have hlist : list = R.list := by
    have heq := R.read.symm.trans hagain
    exact (congrArg Prod.fst (Except.ok.inj heq)).symm
  rw [hlist] at hsame
  have hstatements := Parallel.statements_eq (T := T) hsame
  rw [← R.statements_eq] at hstatements
  refine hstatements.symm.trans ?_
  exact (List.map_congr_left fun s _ => s.relabel_same).trans (List.map_id _)

end Grammar.NodeReading

end DesiredState

/-
A script within a larger text.

Lines that are a script by themselves may stand within a larger text.  Their tokens are
then the same, so many lines further down, and so are the extents that are cut out of
the text, whether by the tokens they span or, as for a comma list among the arguments
of a command, by lines and columns.  So the lines are read in parallel with the script,
as long as what comes after them does not go on with its last statement.
-/
import DesiredState.Proofs.Script.Sequence
import DesiredState.Proofs.Token.Concatenation

namespace DesiredState

/-- Everything so many lines further down, and marks so many units further on. -/
def Relabelling.down (lines units : Nat) : Relabelling where
  extent e := ⟨e.text, e.location.down lines⟩
  location := Location.down lines
  offset := (· + units)
  head := id

theorem Extent.ofTokens_eq {source : Text} {tokens : List Token} {first last : Token}
    (hf : tokens.head? = some first) (hl : tokens.getLast? = some last) :
    Extent.ofTokens source tokens =
      ⟨source.slice first.start.offset last.stop.offset, first.location⟩ := by
  unfold Extent.ofTokens
  rw [hf, hl]

/-- A script that stands within a larger text, on lines of its own. -/
structure Inset where
  /-- The pieces of the script. -/
  pieces : List Piece
  lexes : Piece.Lexes pieces []
  paired : (Piece.textOf pieces).ReturnsPaired
  /-- What stands before the script, so many lines. -/
  front : Text
  frontPaired : front.ReturnsPaired
  lines : Nat
  start : Position.start.advance front = Position.start.shift lines front.size
  /-- What stands after the script. -/
  behind : Text
  /-- The tokens before the script, the last one first. -/
  before : List Token
  /-- The tokens after the script. -/
  after : List Token
  stops : ∀ last next,
    (Token.significant (Piece.place .start pieces)).getLast? = some last →
    after.head? = some next → (last.shift lines front.size).Stops next
  stops_kind : ∀ next, after.head? = some next →
    next.kind ≠ .braceOpen ∧ next.kind ≠ .pipe ∧ next.kind ≠ .comma ∧ next.kind ≠ .equals
  balanced : Nesting.Balanced (Token.significant (Piece.place .start pieces))

namespace Inset

variable (I : Inset)

/-- The script by itself. -/
def script : Text := Piece.textOf I.pieces

/-- The text in which it stands. -/
def whole : Text := I.front ++ I.script ++ I.behind

/-- The tokens of the script that the grammar sees. -/
def tokens : List Token := Token.significant (Piece.place .start I.pieces)

/-- A token where it stands in the larger text. -/
def moved (t : Token) : Token := t.shift I.lines I.front.size

/-- An extent of the script and the one of the larger text that is cut out at the same place. -/
def Located (e f : Extent) : Prop :=
  f = ⟨e.text, e.location.down I.lines⟩ ∧ ∃ a b, a ≤ I.script.size ∧ b ≤ I.script.size ∧
    e.text = I.script.slice a b ∧ e.location.offsetIn I.script = a ∧
    f.location.offsetIn I.whole = I.front.size + a

variable {I}

theorem slice_whole {a b : Nat} (h : b ≤ I.script.size) :
    I.whole.slice (I.front.size + a) (I.front.size + b) = I.script.slice a b :=
  Text.slice_stretch _ _ _ h

/-- A token is found again in the larger text. -/
theorem offsetIn_whole {t : Token} (h : t ∈ I.tokens) :
    (t.location.down I.lines).offsetIn I.whole = I.front.size + t.start.offset := by
  obtain ⟨front, piece, rest, hpieces, rfl⟩ := Piece.mem_place (List.mem_filter.mp h).1
  have hreturn := Piece.getLast?_ne_return I.lexes I.paired
  have hfrontReturn : ∀ p ∈ front, p.text.getLast? ≠ some '\r' := fun p hp =>
    hreturn p (by rw [hpieces]; exact List.mem_append_left _ hp)
  have hpaired : (Piece.textOf front).ReturnsPaired := by
    have := I.paired
    rw [hpieces, Piece.textOf_append] at this
    exact this.left (Piece.getLast?_textOf_ne_return hfrontReturn)
  have hwhere : (Position.start.advance (Piece.textOf front)).toLocation.down I.lines =
      (Position.start.advance (I.front ++ Piece.textOf front)).toLocation := by
    rw [Position.advance_append_of_getLast? _ _ I.frontPaired.getLast?_ne, I.start,
      Position.shift_advance]
    rfl
  have hwhole : I.whole = I.front ++ Piece.textOf front ++
      (piece.text ++ Piece.textOf rest ++ I.behind) := by
    rw [whole, script, hpieces]
    simp only [Piece.textOf_append, Piece.textOf_cons, List.append_assoc]
  rw [Piece.stop_eq_advance hfrontReturn, Token.location, hwhere, hwhole,
    Position.offsetIn_advance _ (I.frontPaired.append hpaired), Text.size_append,
    Position.advance_offset]
  exact congrArg _ (Nat.zero_add _).symm

theorem standsIn {t : Token} (h : t ∈ I.tokens) : t.StandsIn I.script :=
  Piece.standsIn I.lexes I.paired (List.mem_filter.mp h).1

theorem located_token {t : Token} (h : t ∈ I.tokens) :
    I.Located ⟨t.text, t.location⟩ ⟨t.text, t.location.down I.lines⟩ := by
  have hp := standsIn h
  exact ⟨rfl, _, _, hp.starts, hp.fits, hp.text.symm, hp.offset, offsetIn_whole h⟩

/-- Tokens span the same in the larger text. -/
theorem located_span {taken : List Token} (h : ∀ t ∈ taken, t ∈ I.tokens) (hne : taken ≠ []) :
    I.Located (.ofTokens I.script taken) (.ofTokens I.whole (taken.map I.moved)) := by
  obtain ⟨first, hfirst⟩ := Option.ne_none_iff_exists'.mp (mt List.head?_eq_none_iff.mp hne)
  obtain ⟨last, hlast⟩ := Option.ne_none_iff_exists'.mp (mt List.getLast?_eq_none_iff.mp hne)
  have hf := standsIn (h first (List.mem_of_head? hfirst))
  have hl := standsIn (h last (List.mem_of_getLast? hlast))
  have hstop : (I.moved last).stop = last.stop.shift I.lines I.front.size :=
    Position.shift_advance _ _ _ _
  have hspan : I.whole.slice (I.moved first).start.offset (I.moved last).stop.offset =
      I.script.slice first.start.offset last.stop.offset := by
    rw [hstop, ← slice_whole hl.fits, Nat.add_comm I.front.size, Nat.add_comm I.front.size]
    rfl
  rw [Extent.ofTokens_eq hfirst hlast, @Extent.ofTokens_eq _ _ (I.moved first)
    (I.moved last) (by rw [List.head?_map, hfirst]; rfl)
    (by rw [List.getLast?_map, hlast]; rfl), hspan]
  exact ⟨rfl, _, _, hf.starts, hl.fits, rfl, hf.offset,
    offsetIn_whole (h first (List.mem_of_head? hfirst))⟩

/-- What is cut out by two extents. -/
theorem located_joined {e f e' f' : Extent} (h : I.Located e f) (h' : I.Located e' f') :
    I.Located (Grammar.joinedExtent I.script e e') (Grammar.joinedExtent I.whole f f') := by
  obtain ⟨rfl, a, b, ha, hb, htext, hstart, hmoved⟩ := h
  obtain ⟨rfl, a', b', ha', hb', htext', hstart', hmoved'⟩ := h'
  have hend : a' + e'.text.size ≤ I.script.size := by
    rw [htext', Text.size_slice _ hb']
    omega
  have hcut : I.whole.slice (I.front.size + a) (I.front.size + a' + e'.text.size) =
      I.script.slice a (a' + e'.text.size) := by
    rw [Nat.add_assoc, slice_whole hend]
  refine ⟨?_, a, a' + e'.text.size, ha, hend, ?_, hstart, hmoved⟩
  · simp only [Grammar.joinedExtent, hmoved, hmoved', hcut, hstart, hstart']
  · simp only [Grammar.joinedExtent, hstart, hstart']

/-- A token of the script with the one of the larger text. -/
def pair (I : Inset) (t : Token) : Token × Token := (t, I.moved t)

theorem of_map_pair_eq_append {front taken rest : List (Token × Token)}
    (h : I.tokens.map I.pair = front ++ taken ++ rest) :
    (∀ t ∈ taken.map Prod.fst, t ∈ I.tokens) ∧
      taken.map Prod.snd = (taken.map Prod.fst).map I.moved := by
  have hmem : ∀ p ∈ taken, ∃ t ∈ I.tokens, I.pair t = p := fun p hp => by
    refine List.mem_map.mp ?_
    rw [h]
    exact List.mem_append_left _ (List.mem_append_right _ hp)
  refine ⟨fun t ht => ?_, ?_⟩
  · obtain ⟨p, hp, rfl⟩ := List.mem_map.mp ht
    obtain ⟨t, hin, rfl⟩ := hmem p hp
    exact hin
  · rw [List.map_map]
    refine List.map_congr_left fun p hp => ?_
    obtain ⟨t, -, rfl⟩ := hmem p hp
    rfl

theorem of_map_pair_eq_cons {front rest : List (Token × Token)} {p q : Token × Token}
    (h : I.tokens.map I.pair = front ++ p :: q :: rest) :
    p.2 = I.moved p.1 ∧ q.2 = I.moved q.1 := by
  have hmem : ∀ x, x = p ∨ x = q → ∃ t ∈ I.tokens, I.pair t = x := fun x hx => by
    refine List.mem_map.mp ?_
    rw [h]
    rcases hx with rfl | rfl <;> simp
  obtain ⟨t, -, rfl⟩ := hmem p (.inl rfl)
  obtain ⟨u, -, rfl⟩ := hmem q (.inr rfl)
  exact ⟨rfl, rfl⟩

theorem stop_moved (t : Token) : (I.moved t).stop = t.stop.shift I.lines I.front.size :=
  Position.shift_advance _ _ _ _

theorem touches_moved (t u : Token) : (I.moved u).touches (I.moved t) = u.touches t := by
  rw [Token.touches, Token.touches, stop_moved]
  simp only [moved, Token.shift, Position.shift]
  rw [Bool.eq_iff_iff, beq_iff_eq, beq_iff_eq]
  omega

theorem onLineOf_moved (t u : Token) : (I.moved u).onLineOf (I.moved t) = u.onLineOf t := by
  rw [Token.onLineOf, Token.onLineOf, stop_moved]
  simp only [moved, Token.shift, Position.shift, Location.down, Nat.add_le_add_iff_right]

/-- The script and its lines in the larger text. -/
def parallel (I : Inset) : Parallel where
  left := ⟨I.script, [], [], .down I.lines I.front.size⟩
  right := ⟨I.whole, I.before, I.after, .same⟩
  pairs := I.tokens.map I.pair
  Same := I.Located
  look_eq h := h.1.symm
  token_eq p hp := by
    obtain ⟨t, -, rfl⟩ := List.mem_map.mp hp
    rfl
  head_eq p hp := by
    obtain ⟨t, -, rfl⟩ := List.mem_map.mp hp
    rfl
  same_token p hp := by
    obtain ⟨t, ht, rfl⟩ := List.mem_map.mp hp
    exact located_token ht
  same_span front taken rest h hne := by
    obtain ⟨hmem, hsnd⟩ := of_map_pair_eq_append h
    rw [hsnd]
    exact located_span hmem (by simpa using hne)
  same_joined := located_joined
  number_eq p hp _ := by
    obtain ⟨t, ht, rfl⟩ := List.mem_map.mp hp
    refine (@located_span I [t] (fun u hu => ?_) (List.cons_ne_nil _ _)).1.symm
    rwa [List.mem_singleton.mp hu]
  touches_eq front p q rest h := by
    obtain ⟨hp, hq⟩ := of_map_pair_eq_cons h
    rw [hp, hq, touches_moved]
  onLine_eq front p q rest h _ _ := by
    obtain ⟨hp, hq⟩ := of_map_pair_eq_cons h
    rw [hp, hq, onLineOf_moved]
  stops last next hlast hnext := by
    rw [List.getLast?_map, Option.map_eq_some_iff] at hlast
    obtain ⟨t, ht, rfl⟩ := hlast
    exact I.stops t next ht hnext
  stops_kind := I.stops_kind
  closes := by
    refine ⟨[], ?_⟩
    have hfst : (I.tokens.map I.pair).map Prod.fst = I.tokens := by
      rw [List.map_map]
      exact List.map_id _
    rw [hfst]
    exact I.balanced []

end Inset

end DesiredState

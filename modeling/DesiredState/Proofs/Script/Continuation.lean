/-
Lines that go on.

A gap of spaces and tabs between two tokens may be replaced by a backtick at the end of
a line, and the script is parsed to the same tree, up to the texts and places of its
nodes, wherever the grammar does not ask whether the token behind the gap stands on the
line of the token before it.  It asks this only where the one can end an argument and
the other can start one.  There the backtick is overlooked: the line counts as ended.
-/
import Mathlib.Data.List.Chain
import DesiredState.Proofs.Script.Concatenation
import DesiredState.Proofs.Token.Gap

namespace DesiredState

/-- A tree without texts and places. -/
def Relabelling.bare : Relabelling where
  extent _ := ⟨[], ⟨1, 1⟩⟩
  location _ := ⟨1, 1⟩
  offset _ := 0
  head := id

/-! ### The same pieces from two places -/

namespace Piece

/-- The tokens that pieces make from one place, each with the one that it makes from another. -/
def placePairs : (start start' : Position) → List Piece → List (Token × Token)
  | _, _, [] => []
  | start, start', piece :: rest =>
    (⟨piece.kind, piece.text, start⟩, ⟨piece.kind, piece.text, start'⟩) ::
      placePairs (start.advance piece.text) (start'.advance piece.text) rest

/-- Those that the grammar sees. -/
def seenPairs (start start' : Position) (pieces : List Piece) : List (Token × Token) :=
  (placePairs start start' pieces).filter (·.1.kind.isSignificant)

theorem mem_placePairs {start start' : Position} {pieces : List Piece} {x : Token × Token}
    (h : x ∈ placePairs start start' pieces) : ∃ front piece rest,
      pieces = front ++ piece :: rest ∧ x.1 = ⟨piece.kind, piece.text, stop start front⟩ ∧
        x.2 = ⟨piece.kind, piece.text, stop start' front⟩ := by
  induction pieces generalizing start start' with
  | nil => exact absurd h List.not_mem_nil
  | cons piece rest ih =>
    rcases List.mem_cons.mp h with rfl | h
    · exact ⟨[], piece, rest, rfl, rfl, rfl⟩
    · obtain ⟨front, other, others, rfl, h₁, h₂⟩ := ih h
      exact ⟨piece :: front, other, others, rfl, h₁, h₂⟩

theorem map_fst_placePairs (start start' : Position) (pieces : List Piece) :
    (placePairs start start' pieces).map Prod.fst = place start pieces := by
  induction pieces generalizing start start' with
  | nil => rfl
  | cons piece rest ih => rw [placePairs, List.map_cons, ih, place]

theorem map_snd_placePairs (start start' : Position) (pieces : List Piece) :
    (placePairs start start' pieces).map Prod.snd = place start' pieces := by
  induction pieces generalizing start start' with
  | nil => rfl
  | cons piece rest ih => rw [placePairs, List.map_cons, ih, place]

theorem map_fst_seenPairs (start start' : Position) (pieces : List Piece) :
    (seenPairs start start' pieces).map Prod.fst = Token.significant (place start pieces) := by
  rw [Token.significant, ← map_fst_placePairs start start', List.filter_map]
  rfl

theorem map_snd_seenPairs (start start' : Position) (pieces : List Piece) :
    (seenPairs start start' pieces).map Prod.snd = Token.significant (place start' pieces) := by
  rw [Token.significant, ← map_snd_placePairs start start', List.filter_map, seenPairs]
  refine congrArg (List.map Prod.snd) (List.filter_congr fun x hx => ?_)
  obtain ⟨front, piece, rest, -, h₁, h₂⟩ := mem_placePairs hx
  simp only [Function.comp_apply, h₁, h₂]

theorem stop_line_add (start start' : Position) (pieces : List Piece) :
    (stop start pieces).line + start'.line = (stop start' pieces).line + start.line := by
  induction pieces generalizing start start' with
  | nil => exact Nat.add_comm _ _
  | cons piece rest ih =>
    have hrest := ih (start.advance piece.text) (start'.advance piece.text)
    have hpiece := Position.advance_line_add start start' piece.text
    simp only [stop]
    omega

/-- The two tokens are the same but for their places, and those differ by as much as the places from
which they are made. -/
structure Twins (start start' : Position) (x : Token × Token) : Prop where
  kind : x.2.kind = x.1.kind
  text : x.2.text = x.1.text
  line : x.1.start.line + start'.line = x.2.start.line + start.line
  offset : x.1.start.offset + start'.offset = x.2.start.offset + start.offset
  behind : start.offset ≤ x.1.start.offset

theorem twins {start start' : Position} {pieces : List Piece} {x : Token × Token}
    (h : x ∈ seenPairs start start' pieces) : Twins start start' x := by
  obtain ⟨front, piece, rest, -, h₁, h₂⟩ := mem_placePairs (List.mem_filter.mp h).1
  have hoffset := stop_offset start front
  have hoffset' := stop_offset start' front
  refine ⟨by rw [h₁, h₂], by rw [h₁, h₂], ?_, ?_, ?_⟩
  · rw [h₁, h₂]
    exact stop_line_add start start' front
  · rw [h₁, h₂]
    simp only
    omega
  · rw [h₁]
    exact offset_le_stop start front

namespace Twins

variable {start start' : Position} {x y : Token × Token}

theorem stop_line (h : Twins start start' x) :
    x.1.stop.line + start'.line = x.2.stop.line + start.line := by
  have hadd := Position.advance_line_add x.1.start x.2.start x.1.text
  have hline := h.line
  rw [Token.stop, Token.stop, h.text]
  omega

theorem touches (hx : Twins start start' x) (hy : Twins start start' y) :
    y.2.touches x.2 = y.1.touches x.1 := by
  have hxo := hx.offset
  have hyo := hy.offset
  rw [Token.touches, Token.touches, Token.stop, Token.stop, Position.advance_offset,
    Position.advance_offset, hx.text, Bool.eq_iff_iff, beq_iff_eq, beq_iff_eq]
  omega

theorem onLineOf (hx : Twins start start' x) (hy : Twins start start' y) :
    y.2.onLineOf x.2 = y.1.onLineOf x.1 := by
  have hxl := hx.stop_line
  have hyl := hy.line
  rw [Token.onLineOf, Token.onLineOf, Bool.eq_iff_iff, decide_eq_true_iff, decide_eq_true_iff]
  omega

end Twins

end Piece

/-! ### A gap in a script -/

/-- A script with a gap of spaces and tabs, over which the grammar does not look for a line. -/
structure Gapped where
  front : List Piece
  gap : Text
  behind : List Piece
  isGap : gap.IsGap
  ne_nil : gap ≠ []
  /-- The token behind the gap is on no line that is asked for. -/
  unasked : ∀ last next, (Token.significant (Piece.place .start front)).getLast? = some last →
    (Token.significant (Piece.place ((Piece.stop .start front).advance gap) behind)).head? =
      some next →
    next.onLineOf last → last.kind.endsArgument → next.kind.startsArgument = false
  balanced : Nesting.Balanced (Token.significant (Piece.place .start front) ++
    Token.significant (Piece.place ((Piece.stop .start front).advance gap) behind))

namespace Gapped

variable (G : Gapped)

/-- Where the gap starts. -/
def place : Position := Piece.stop .start G.front

/-- The tokens before and behind the gap, each with the one of the text that goes on. -/
def frontPairs : List (Token × Token) := Piece.seenPairs .start .start G.front

def behindPairs : List (Token × Token) :=
  Piece.seenPairs (G.place.advance G.gap) (G.place.advance Text.continuation) G.behind

theorem advance_gap (p : Position) {gap : Text} (h : gap.IsGap) : (p.advance gap).line = p.line := by
  have hreturn : gap.ReturnsPaired := by
    induction gap with
    | nil => trivial
    | cons c rest ih =>
      refine ⟨fun hc => ?_, ih fun d hd => h d (List.mem_cons_of_mem _ hd)⟩
      rcases h c List.mem_cons_self with rfl | rfl <;> exact absurd hc (by decide)
  rw [Position.advance_line p hreturn, List.count_eq_zero_of_not_mem]
  · rfl
  · intro hn
    rcases h _ hn with hc | hc <;> exact absurd hc (by decide)

theorem line_continuation :
    (G.place.advance Text.continuation).line = (G.place.advance G.gap).line + 1 := by
  rw [advance_gap _ G.isGap]
  rfl

/-- What a pair and the next one have to do with each other. -/
def Adjoins (x y : Token × Token) : Prop :=
  y.2.touches x.2 = y.1.touches x.1 ∧
    (x.1.kind.endsArgument → y.1.kind.startsArgument → y.2.onLineOf x.2 = y.1.onLineOf x.1)

theorem adjoins_of_twins {start start' : Position} {pieces : List Piece} :
    (Piece.seenPairs start start' pieces).IsChain Adjoins := by
  refine List.isChain_iff_forall_rel_of_append_cons_cons.mpr fun x y front rest heq => ?_
  have hx : Piece.Twins start start' x := Piece.twins (by rw [heq]; simp)
  have hy : Piece.Twins start start' y := Piece.twins (by rw [heq]; simp)
  exact ⟨hx.touches hy, fun _ _ => hx.onLineOf hy⟩

/-- Over the gap nothing touches, and the line is not asked for. -/
theorem adjoins_gap {x y : Token × Token} (hx : G.frontPairs.getLast? = some x)
    (hy : G.behindPairs.head? = some y) : Adjoins x y := by
  have htwinx := Piece.twins (List.mem_of_getLast? hx)
  have htwiny := Piece.twins (List.mem_of_head? hy)
  have hlast : (Token.significant (Piece.place .start G.front)).getLast? = some x.1 := by
    rw [← Piece.map_fst_seenPairs .start .start, List.getLast?_map]
    exact congrArg (Option.map Prod.fst) hx
  have hnext : (Token.significant
      (Piece.place ((Piece.stop .start G.front).advance G.gap) G.behind)).head? = some y.1 := by
    rw [← Piece.map_fst_seenPairs _ (G.place.advance Text.continuation), List.head?_map]
    exact congrArg (Option.map Prod.fst) hy
  have hstop : x.1.stop.offset ≤ G.place.offset :=
    (Piece.stop_of_mem_place (List.mem_filter.mp (List.mem_of_getLast? hlast)).1).2.2
  have hsame : x.2 = x.1 := by
    obtain ⟨front, piece, rest, -, h₁, h₂⟩ :=
      Piece.mem_placePairs (List.mem_filter.mp (List.mem_of_getLast? hx)).1
    rw [h₁, h₂]
  have hsize : 0 < G.gap.size := Text.size_pos G.ne_nil
  have hgapOffset := Position.advance_offset G.place G.gap
  have hcontinued : (G.place.advance Text.continuation).offset = G.place.offset + 3 :=
    Position.advance_offset _ _
  have hbehind := htwiny.behind
  have hoffset := htwiny.offset
  have hline := htwiny.line
  rw [line_continuation] at hline
  refine ⟨?_, fun hends hstarts => ?_⟩
  · rw [Token.touches, Token.touches, hsame, Bool.eq_iff_iff, beq_iff_eq, beq_iff_eq]
    omega
  · have hoff : y.1.onLineOf x.1 = false := by
      rw [Bool.eq_false_iff]
      intro hon
      rw [G.unasked x.1 y.1 hlast hnext hon hends] at hstarts
      exact absurd hstarts Bool.false_ne_true
    have hlater := of_decide_eq_false hoff
    rw [hoff, hsame]
    exact decide_eq_false (by omega)

/-- The script and the one that goes on in another line. -/
def parallel : Parallel where
  left := ⟨Piece.textOf G.front ++ G.gap ++ Piece.textOf G.behind, [], [], .bare⟩
  right := ⟨Piece.textOf G.front ++ Text.continuation ++ Piece.textOf G.behind, [], [], .bare⟩
  pairs := G.frontPairs ++ G.behindPairs
  Same _ _ := True
  look_eq _ := rfl
  token_eq p hp := by
    have hkind : p.2.kind = p.1.kind ∧ p.2.text = p.1.text := by
      rcases List.mem_append.mp hp with hp | hp
      · exact ⟨(Piece.twins hp).kind, (Piece.twins hp).text⟩
      · exact ⟨(Piece.twins hp).kind, (Piece.twins hp).text⟩
    simp only [Token.relabel, hkind, Relabelling.bare]
  head_eq p hp := by
    rcases List.mem_append.mp hp with hp | hp
    · exact (Piece.twins hp).text.symm
    · exact (Piece.twins hp).text.symm
  same_token _ _ := trivial
  same_span _ _ _ _ _ := trivial
  same_joined _ _ := trivial
  number_eq _ _ _ := rfl
  touches_eq front p q rest h := by
    have hchain : (G.frontPairs ++ G.behindPairs).IsChain Adjoins :=
      List.isChain_append.mpr ⟨adjoins_of_twins, adjoins_of_twins,
        fun x hx y hy => G.adjoins_gap hx hy⟩
    exact (List.isChain_iff_forall_rel_of_append_cons_cons.mp hchain h).1
  onLine_eq front p q rest h := by
    have hchain : (G.frontPairs ++ G.behindPairs).IsChain Adjoins :=
      List.isChain_append.mpr ⟨adjoins_of_twins, adjoins_of_twins,
        fun x hx y hy => G.adjoins_gap hx hy⟩
    exact (List.isChain_iff_forall_rel_of_append_cons_cons.mp hchain h).2
  stops _ _ _ h := by cases h
  stops_kind _ h := by cases h
  closes := by
    refine ⟨[], ?_⟩
    rw [List.map_append]
    have hfront : G.frontPairs.map Prod.fst = _ := Piece.map_fst_seenPairs _ _ _
    have hbehind : G.behindPairs.map Prod.fst = _ := Piece.map_fst_seenPairs _ _ _
    rw [hfront, hbehind]
    exact G.balanced []

end Gapped

namespace Script

/-- **A gap may be replaced by a backtick at the end of a line** where the grammar does not ask for
the line: the same tokens are read, and the tree is the same up to texts and places. -/
theorem parse_continued {source : Text} {script : Script} (h : parse source = .ok script)
    {front behind : List Token} {gap : Token} (hscan : Token.scan source = front ++ gap :: behind)
    (hgap : gap.text.IsGap)
    (hunasked : ∀ last next, (Token.significant front).getLast? = some last →
      (Token.significant behind).head? = some next → next.onLineOf last →
      last.kind.endsArgument → next.kind.startsArgument = false) :
    ∃ script', parse (Token.textOf front ++ Text.continuation ++ Token.textOf behind) =
        .ok script' ∧
      script'.statements.map (Statement.relabel .bare) =
        script.statements.map (Statement.relabel .bare) := by
  obtain ⟨hunknowns, items, hitems, rfl⟩ := parse_eq_ok_iff.mp h
  obtain ⟨pieces, rfl, hlexes, hplace⟩ := Token.exists_pieces hunknowns
  rw [hscan] at hplace hitems
  obtain ⟨first, piece, rest, rfl, rfl, rfl, rfl⟩ := Piece.place_eq_append hplace.symm
  have hnext := ((Piece.lexes_append _ _ _).mp hlexes).2.1
  have hkind : piece.kind = .blank := by
    obtain ⟨c, t, hc⟩ := List.exists_cons_of_ne_nil hnext.text_ne_nil
    rw [Piece.IsNext, hc] at hnext
    refine Token.eq_blank_of_mayStart ?_ (Token.recognise_of_next? hnext).1
    rcases hgap c (by rw [hc]; exact List.mem_cons_self) with rfl | rfl <;> rfl
  have hcontinued := Piece.lexes_continued hgap hkind hlexes
  have hsignificant : Token.significant (Piece.place .start first ++
      ⟨piece.kind, piece.text, Piece.stop .start first⟩ ::
        Piece.place ((Piece.stop .start first).advance piece.text) rest) =
      Token.significant (Piece.place .start first) ++
        Token.significant (Piece.place ((Piece.stop .start first).advance piece.text) rest) := by
    rw [Token.significant, List.filter_append, List.filter_cons_of_neg (by simp only [hkind]; decide)]
    rfl
  rw [hsignificant] at hitems
  let G : Gapped := {
    front := first
    gap := piece.text
    behind := rest
    isGap := hgap
    ne_nil := hnext.text_ne_nil
    unasked := hunasked
    balanced := Grammar.balanced_of_script hitems }
  have hfst : G.parallel.pairs.map Prod.fst = Token.significant (Piece.place .start first) ++
      Token.significant (Piece.place ((Piece.stop .start first).advance piece.text) rest) := by
    refine (List.map_append ..).trans ?_
    exact congrArg₂ (· ++ ·) (Piece.map_fst_seenPairs _ _ _) (Piece.map_fst_seenPairs _ _ _)
  have hsnd : G.parallel.pairs.map Prod.snd = Token.significant (Piece.place .start first) ++
      Token.significant
        (Piece.place ((Piece.stop .start first).advance Text.continuation) rest) := by
    refine (List.map_append ..).trans ?_
    exact congrArg₂ (· ++ ·) (Piece.map_snd_seenPairs _ _ _) (Piece.map_snd_seenPairs _ _ _)
  have hsource : Piece.textOf (first ++ piece :: rest) = G.parallel.left.source := by
    change _ = Piece.textOf first ++ piece.text ++ Piece.textOf rest
    simp
  have htarget : Token.textOf (Piece.place .start first) ++ Text.continuation ++
      Token.textOf (Piece.place ((Piece.stop .start first).advance piece.text) rest) =
      Piece.textOf (first ++ ⟨.blank, Text.continuation⟩ :: rest) := by
    rw [Piece.textOf_place, Piece.textOf_place, Piece.textOf_append, Piece.textOf_cons,
      List.append_assoc]
  rw [hsource, ← hfst] at hitems
  obtain ⟨items', hread, hsame⟩ := G.parallel.script_same ⟨rfl, rfl⟩ ⟨rfl, rfl⟩ hitems
  have hvisible := Token.visible_scan hcontinued.spells
  refine ⟨_, parse_eq_ok_iff.mpr ⟨?_, items', ?_, rfl⟩, ?_⟩
  · rw [htarget, ← Token.unknowns_visible, hvisible, Token.unknowns_visible]
    exact Piece.unknowns_place hcontinued.spells _
  · rw [htarget, ← Token.significant_visible, hvisible, Token.significant_visible,
      Piece.place_append, Piece.place, Token.significant, List.filter_append,
      List.filter_cons_of_neg Bool.false_ne_true]
    rw [hsnd] at hread
    have hright : G.parallel.right.source =
        Piece.textOf (first ++ ⟨.blank, Text.continuation⟩ :: rest) := by
      change Piece.textOf first ++ Text.continuation ++ Piece.textOf rest = _
      simp
    rw [← hright]
    exact hread
  · exact (statements_of_relabel hsame).symm

theorem parse_continued_key : ∃ script script', parse "A \t= 1" = .ok script ∧
    parse "A `\n= 1" = .ok script' ∧ script'.statements.map (Statement.relabel .bare) =
      script.statements.map (Statement.relabel .bare) := by
  have hparse : (parse "A \t= 1").isOk := by decide +kernel
  have hscan : Token.scan "A \t= 1" = [⟨.bareword, "A", .start⟩] ++
      ⟨.blank, " \t", ⟨⟨1, 2⟩, 1⟩⟩ :: (Token.scan "A \t= 1").drop 2 := by
    decide +kernel
  have hgap : Text.IsGap " \t" := by
    intro c hc
    rcases List.mem_cons.mp hc with rfl | hc
    · exact .inl rfl
    · exact .inr (List.mem_singleton.mp hc)
  have hequals : ((Token.significant ((Token.scan "A \t= 1").drop 2)).head?.map Token.kind) =
      some .equals := by
    decide +kernel
  have htext : Token.textOf [⟨.bareword, "A", .start⟩] ++ Text.continuation ++
      Token.textOf ((Token.scan "A \t= 1").drop 2) = "A `\n= 1" := by
    decide +kernel
  cases hs : parse "A \t= 1" with
  | error e => rw [hs] at hparse; cases hparse
  | ok script =>
    obtain ⟨script', hread, hsame⟩ := parse_continued hs hscan hgap fun _ next _ hnext _ _ => by
      rw [hnext] at hequals
      rw [Option.some.inj hequals]
      rfl
    rw [htext] at hread
    exact ⟨script, script', rfl, hread, hsame⟩

/-- Before an argument a backtick at the end of a line does not continue it: `Foo a` is one command,
but as the argument starts on the next line it is taken for another one. -/
theorem parse_continued_argument :
    ¬ ∀ (source : Text) (script : Script) (front behind : List Token) (gap : Token),
      parse source = .ok script → Token.scan source = front ++ gap :: behind → front ≠ [] →
      behind ≠ [] → gap.text.IsGap →
      ∃ script', parse (Token.textOf front ++ Text.continuation ++ Token.textOf behind) =
          .ok script' ∧
        script'.statements.map (Statement.relabel .bare) =
          script.statements.map (Statement.relabel .bare) := by
  intro h
  have hone : (parse "Foo a").toOption.map (·.statements.length) = some 1 := by decide +kernel
  have htwo : (parse "Foo `\na").toOption.map (·.statements.length) = some 2 := by decide +kernel
  have hscan : Token.scan "Foo a" = [⟨.bareword, "Foo", .start⟩] ++
      ⟨.blank, " ", ⟨⟨1, 4⟩, 3⟩⟩ :: [⟨.bareword, "a", ⟨⟨1, 5⟩, 4⟩⟩] := by
    decide +kernel
  cases hs : parse "Foo a" with
  | error e => rw [hs] at hone; cases hone
  | ok script =>
    obtain ⟨script', hread, hsame⟩ := h _ script _ _ _ hs hscan (List.cons_ne_nil _ _)
      (List.cons_ne_nil _ _) fun c hc => .inl (List.mem_singleton.mp hc)
    change parse "Foo `\na" = _ at hread
    have hlength := congrArg List.length hsame
    rw [List.length_map, List.length_map, length_of_parse hread htwo, length_of_parse hs hone]
      at hlength
    exact absurd hlength (by decide)

end Script

end DesiredState

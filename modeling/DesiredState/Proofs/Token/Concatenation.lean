/-
Two sources with a line feed between them.

The first source is read as it was by itself, unless it opens a block comment, and the
second one too, so many lines further down.  Only the blanks at the line feed are
different: those at the end of the first source, the line feed and those at the start
of the second source are read as one token.
-/
import DesiredState.Proofs.Token.Endings

namespace DesiredState

/-- A token so many lines further down and so many units further on. -/
def Token.shift (lines units : Nat) (t : Token) : Token :=
  { t with start := t.start.shift lines units }

theorem Text.afterFirst?_eq_none {m t : Text} (h : ¬ m <:+: t) : Text.afterFirst? m t = none := by
  induction t with
  | nil =>
    rw [Text.afterFirst?, Option.eq_none_iff_forall_ne_some]
    intro rest hr
    refine h ⟨[], rest, ?_⟩
    rw [List.nil_append, ← Text.eq_append_of_dropHead? hr]
  | cons c t ih =>
    rw [Text.afterFirst?]
    cases hd : Text.dropHead? m (c :: t) with
    | none => exact ih fun hin => h (hin.trans (List.infix_cons List.infix_rfl))
    | some rest =>
      refine absurd ⟨[], rest, ?_⟩ h
      rw [List.nil_append, ← Text.eq_append_of_dropHead? hd]

namespace Piece

theorem place_shift (lines units : Nat) (start : Position) (pieces : List Piece) :
    place (start.shift lines units) pieces =
      (place start pieces).map (Token.shift lines units) := by
  induction pieces generalizing start with
  | nil => rfl
  | cons piece rest ih =>
    rw [place, place, List.map_cons, Position.shift_advance, ih]
    rfl

/-- Nothing is visible of blanks. -/
theorem visible_place_blank {pieces : List Piece} (h : ∀ p ∈ pieces, p.kind = .blank)
    (start : Position) : Token.visible (place start pieces) = [] := by
  induction pieces generalizing start with
  | nil => rfl
  | cons piece rest ih =>
    rw [place, Token.visible_cons_blank (h piece List.mem_cons_self)]
    exact ih (fun p hp => h p (List.mem_cons_of_mem _ hp)) _

/-- The blanks at the end of a source, and what is read before them if the source goes on with a
line feed. -/
theorem exists_before_blanks {pieces : List Piece} (h : Lexes pieces [])
    (hopen : ¬ ['<', '#'] <:+: textOf pieces) (more : Text) :
    ∃ init blanks, pieces = init ++ blanks ∧ (∀ p ∈ blanks, p.kind = .blank) ∧
      Pattern.skipBlanks (textOf blanks) = [] ∧ Lexes init (textOf blanks ++ '\n' :: more) := by
  have hnone := Text.afterFirst?_eq_none hopen
  cases hlast : pieces.getLast? with
  | none =>
    rw [List.getLast?_eq_none_iff.mp hlast]
    exact ⟨[], [], rfl, fun p hp => absurd hp List.not_mem_nil, rfl, trivial⟩
  | some last =>
    obtain ⟨init, rfl⟩ := List.getLast?_eq_some_iff.mp hlast
    by_cases hk : last.kind = .blank
    · refine ⟨init, [last], rfl, fun p hp => by rw [List.mem_singleton.mp hp, hk], ?_, ?_⟩
      · have hnext := ((lexes_append _ _ _).mp h).2.1
        rw [IsNext, hk] at hnext
        have := Token.skipBlanks_of_blanks (Token.blanks_of_next? hnext)
        simpa using this
      · refine @lexes_moved init [last] [] _ (by simpa using h)
          ⟨.lineFeed more, blockComment_eq_none (.lineFeed more) hnone, fun hnil => by cases hnil⟩
    · refine ⟨init ++ [last], [], by simp, fun p hp => absurd hp List.not_mem_nil, rfl, ?_⟩
      refine @lexes_moved (init ++ [last]) [] [] _ (by simpa using h)
        ⟨.lineFeed more, blockComment_eq_none (.lineFeed more) (by simpa using hnone), ?_⟩
      intro _ piece hpiece
      rw [List.getLast?_concat] at hpiece
      rw [← Option.some.inj hpiece]
      exact ⟨hk, fun _ c hc => (Option.some.inj hc).symm⟩

/-- The blanks at the start of a source, and what is read behind them. -/
theorem exists_behind_blanks {pieces : List Piece} (h : Lexes pieces []) :
    ∃ blanks rest, pieces = blanks ++ rest ∧ (∀ p ∈ blanks, p.kind = .blank) ∧
      Pattern.skipBlanks (textOf pieces) = textOf rest ∧ Lexes rest [] ∧
      ∀ start, stop start blanks = start.advance (textOf blanks) := by
  cases pieces with
  | nil => exact ⟨[], [], rfl, fun p hp => absurd hp List.not_mem_nil, rfl, trivial, fun _ => rfl⟩
  | cons piece rest =>
    have hnext := h.1
    rw [IsNext, List.append_nil] at hnext
    by_cases hk : piece.kind = .blank
    · rw [hk] at hnext
      refine ⟨[piece], rest, rfl, fun p hp => by rw [List.mem_singleton.mp hp, hk],
        Token.skipBlanks_of_blanks (Token.blanks_of_next? hnext), h.2, fun start => ?_⟩
      rw [textOf_cons, textOf_nil, List.append_nil]
      rfl
    · exact ⟨[], piece :: rest, rfl, fun p hp => absurd hp List.not_mem_nil,
        Token.skipBlanks_of_blanks_eq_none (Token.blanks_eq_none hnext hk), h, fun _ => rfl⟩

end Piece

namespace Token

/-- **Two sources with a line feed between them** are read as by themselves, blanks aside. -/
theorem visible_scan_concatenation {first second : Text} (hf : unknowns (scan first) = [])
    (hs : unknowns (scan second) = []) (hopen : ¬ ['<', '#'] <:+: first)
    (hpaired : first.ReturnsPaired) :
    visible (scan (first ++ '\n' :: second)) = visible (scan first) ++
      (visible (scan second)).map (shift (first.count '\n' + 1) (first.size + 1)) := by
  obtain ⟨pieces, rfl, hlexes, hscan⟩ := exists_pieces hf
  obtain ⟨others, rfl, hothers, hscan'⟩ := exists_pieces hs
  obtain ⟨init, ending, rfl, hending, hskip, hinit⟩ :=
    Piece.exists_before_blanks hlexes hopen (Piece.textOf others)
  obtain ⟨gap, rest, rfl, hgap, hskip', hrest, hstop⟩ := Piece.exists_behind_blanks hothers
  have hreturn := Piece.getLast?_ne_return hlexes hpaired
  have hreturnInit : ∀ p ∈ init, p.text.getLast? ≠ some '\r' := fun p hp =>
    hreturn p (List.mem_append_left _ hp)
  -- The token at the line feed.
  let joint : Piece := ⟨.blank, Piece.textOf ending ++ '\n' :: Piece.textOf gap⟩
  have htext : Piece.textOf (init ++ ending) ++ '\n' :: Piece.textOf (gap ++ rest) =
      Piece.textOf (init ++ joint :: rest) := by
    simp [joint]
  have hjoint : joint.IsNext (Piece.textOf rest) := by
    have hskipped : Pattern.skipBlanks (joint.text ++ Piece.textOf rest) = Piece.textOf rest := by
      change Pattern.skipBlanks
        ((Piece.textOf ending ++ '\n' :: Piece.textOf gap) ++ Piece.textOf rest) = _
      rw [List.append_assoc, Pattern.skipBlanks_append hskip, List.cons_append,
        Pattern.skipBlanks, ← Piece.textOf_append, hskip']
    have hnext := next?_skipBlanks (t := joint.text ++ Piece.textOf rest) ?_
    · rwa [hskipped] at hnext
    · rw [hskipped]
      intro heq
      have := congrArg List.length heq
      simp only [joint, List.length_append, List.length_cons] at this
      omega
  have hall : Piece.Lexes (init ++ joint :: rest) [] := by
    refine (Piece.lexes_append _ _ _).mpr ⟨?_, by rwa [List.append_nil], hrest⟩
    simpa [joint] using hinit
  -- Where the second source starts.
  have hplace : Piece.stop .start (init ++ [joint]) =
      (Piece.stop .start gap).shift ((Piece.textOf (init ++ ending)).count '\n' + 1)
        ((Piece.textOf (init ++ ending)).size + 1) := by
    have hline := Position.advance_lineFeed .start hpaired
    have hmoved : Position.start.advance (Piece.textOf (init ++ ending) ++ ['\n']) =
        Position.start.shift ((Piece.textOf (init ++ ending)).count '\n' + 1)
          ((Piece.textOf (init ++ ending)).size + 1) := by
      rw [hline]
      simp only [Position.start, Position.shift, Location.down, Nat.add_comm, Nat.add_left_comm]
    have hlast := Piece.getLast?_textOf_ne_return hreturnInit
    rw [Piece.stop_append, Piece.stop_eq_advance hreturnInit]
    change (Position.start.advance _).advance (Piece.textOf ending ++ '\n' :: Piece.textOf gap) = _
    rw [← Position.advance_append_of_getLast? _ _ hlast, hstop, ← Position.shift_advance, ← hmoved,
      ← Position.advance_append_of_getLast? _ _ (by simp)]
    simp
  rw [hscan, hscan', htext, visible_scan hall.spells, Piece.place_append, Piece.place_append,
    Piece.place_append, visible_append, visible_append, visible_append,
    Piece.visible_place_blank hending, Piece.visible_place_blank hgap, List.append_nil,
    List.nil_append, Piece.place, visible_cons_blank rfl]
  have hrestPlace : Piece.place ((Piece.stop .start init).advance joint.text) rest =
      (Piece.place (Piece.stop .start gap) rest).map
        (shift ((Piece.textOf (init ++ ending)).count '\n' + 1)
          ((Piece.textOf (init ++ ending)).size + 1)) := by
    rw [← Piece.place_shift, ← hplace, Piece.stop_append]
    rfl
  rw [hrestPlace]
  simp only [visible, List.filter_map]
  rfl

theorem significant_scan_concatenation {first second : Text} (hf : unknowns (scan first) = [])
    (hs : unknowns (scan second) = []) (hopen : ¬ ['<', '#'] <:+: first)
    (hpaired : first.ReturnsPaired) :
    significant (scan (first ++ '\n' :: second)) = significant (scan first) ++
      (significant (scan second)).map (shift (first.count '\n' + 1) (first.size + 1)) := by
  rw [← significant_visible, visible_scan_concatenation hf hs hopen hpaired, significant,
    List.filter_append, List.filter_map]
  exact congrArg₂ (· ++ ·) (significant_visible _) (congrArg (List.map _) (significant_visible _))

theorem unknowns_scan_concatenation {first second : Text} (hf : unknowns (scan first) = [])
    (hs : unknowns (scan second) = []) (hopen : ¬ ['<', '#'] <:+: first)
    (hpaired : first.ReturnsPaired) : unknowns (scan (first ++ '\n' :: second)) = [] := by
  rw [← unknowns_visible, visible_scan_concatenation hf hs hopen hpaired, unknowns,
    List.filter_append, List.filter_map, List.append_eq_nil_iff, List.map_eq_nil_iff]
  exact ⟨(unknowns_visible _).trans hf, (unknowns_visible _).trans hs⟩

end Token

end DesiredState

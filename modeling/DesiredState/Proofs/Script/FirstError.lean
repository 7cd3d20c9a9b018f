/-
The first impossible token.

The token at which a script that lexes is rejected is the first one that cannot stand where
it does.  What stands before it can be completed: what the form of a script has read is
completed by tokens on lines of their own, and these are written behind the source that is
cut there.  And whatever comes behind it, the tokens up to it are rejected: what fails at a
token fails at it again.

The second half is about the grammar in which brackets behind casts are not looked into.  In
the other one a bracket behind a cast is refused as its value for the two tokens behind it,
and the error may then be found at the bracket, although other tokens behind it would have
made it the value, or at the first of the two, if it is the second one for which the bracket
is refused.  So nothing is said of these.  Keywords are excepted too: what they are depends on
the token behind them.
-/
import DesiredState.Proofs.LetterCase.Names
import DesiredState.Proofs.Script.Form.Casts
import DesiredState.Proofs.Script.Form.Completion
import DesiredState.Proofs.Script.Form.Rules
import DesiredState.Proofs.Script.Stretch
import DesiredState.Proofs.Token.Concatenation
import DesiredState.Proofs.Token.Cut
import DesiredState.Proofs.Token.Excerpt

namespace DesiredState

namespace Grammar

/-! ### Completing a source

A form is completed by tokens, and a source by a text.  Each of the tokens is put on a
line of its own, so that it is apart from all that stands before it.
-/

theorem map_kind_inLines (start : Position) {lines : List Piece}
    (h : ∀ piece ∈ lines, piece.kind.isSignificant) :
    (Piece.tokens start (Piece.inLines lines)).map (·.kind) = lines.map (·.kind) := by
  induction lines generalizing start with
  | nil => rfl
  | cons piece rest ih =>
    have hrest := fun p hp => h p (List.mem_cons_of_mem _ hp)
    change (Piece.tokens start (piece :: ⟨.blank, ['\n']⟩ :: Piece.inLines rest)).map _ = _
    rw [Piece.tokens_cons (h piece List.mem_cons_self), Piece.tokens_cons_skip rfl, List.map_cons,
      ih _ hrest, List.map_cons]

/-- Tokens on lines of their own are apart, if the first line is a new one. -/
theorem areApart_inLines {consumed : List Token} {start : Position} {lines : List Piece}
    (h : ∀ piece ∈ lines, piece.kind.isSignificant)
    (hstart : ∀ last ∈ consumed.head?, last.stop.line < start.line ∧
      last.stop.offset < start.offset) :
    AreApart consumed (Piece.tokens start (Piece.inLines lines)) := by
  induction lines generalizing consumed start with
  | nil => trivial
  | cons piece rest ih =>
    change AreApart consumed (Piece.tokens start (piece :: ⟨.blank, ['\n']⟩ :: Piece.inLines rest))
    rw [Piece.tokens_cons (h piece List.mem_cons_self), Piece.tokens_cons_skip rfl]
    refine ⟨?_, ih (fun p hp => h p (List.mem_cons_of_mem _ hp)) ?_⟩
    · cases consumed with
      | nil => rfl
      | cons last earlier =>
        obtain ⟨hline, hoffset⟩ := hstart last rfl
        have honLine : Token.onLineOf ⟨piece.kind, piece.text, start⟩ last = false :=
          decide_eq_false (Nat.not_le_of_lt hline)
        have htouches : Token.touches ⟨piece.kind, piece.text, start⟩ last = false :=
          beq_eq_false_iff_ne.mpr (Nat.ne_of_gt hoffset)
        simp only [Cursor.apart, Cursor.onLine, Cursor.touching, honLine, htouches, Bool.not_false,
          Bool.and_self]
    · rintro last ⟨⟩
      exact ⟨Nat.lt_succ_self _, Nat.lt_succ_self _⟩

/-- A piece of one character of a kind. -/
def samplePiece (kind : TokenKind) : Piece := ⟨kind, (sample? kind).toList⟩

theorem samplePiece_isLine {kind : TokenKind} (h : (sample? kind).isSome) :
    kind.isSignificant ∧ (samplePiece kind).IsLine ∧
      ∀ c ∈ (samplePiece kind).text, c ≠ '#' ∧ c ≠ '>' := by
  cases kind <;> first
    | exact ⟨rfl, ⟨nofun, fun more => rfl⟩, List.forall_mem_singleton.mpr (by decide)⟩
    | cases h

theorem textOf_samples {kinds : List TokenKind} (h : ∀ kind ∈ kinds, (sample? kind).isSome) :
    ∀ c ∈ Piece.textOf (Piece.inLines (kinds.map samplePiece)), c ≠ '#' ∧ c ≠ '>' := by
  induction kinds with
  | nil => exact nofun
  | cons kind kinds ih =>
    intro c hc
    change c ∈ (samplePiece kind).text ++ '\n' ::
      Piece.textOf (Piece.inLines (kinds.map samplePiece)) at hc
    rcases List.mem_append.mp hc with hc | hc
    · exact (samplePiece_isLine (h kind List.mem_cons_self)).2.2 c hc
    · rcases List.mem_cons.mp hc with rfl | hc
      · decide
      · exact ih (fun k hk => h k (List.mem_cons_of_mem _ hk)) c hc

/-- **What the form of a script completes is completed in the source too.** -/
theorem exists_completion {pieces behind : List Piece} {kinds : List TokenKind}
    (h : Piece.Lexes (pieces ++ behind) [])
    (hcompletes : Form.script.Completes [] (Piece.tokens .start pieces) kinds) :
    ∃ suffix : Text, suffix.head? = some '\n' ∧
      ∃ script, Script.parse (Piece.textOf pieces ++ suffix) = .ok script := by
  let lines := Piece.inLines (kinds.map samplePiece)
  have hsamples : ∀ piece ∈ kinds.map samplePiece, piece.kind.isSignificant ∧ piece.IsLine := by
    intro piece hpiece
    obtain ⟨kind, hkind, rfl⟩ := List.mem_map.mp hpiece
    have hsample := samplePiece_isLine (hcompletes.samples kind hkind)
    exact ⟨hsample.1, hsample.2.1⟩
  obtain ⟨init, blanks, rfl, hblanks, hskip, hinit⟩ :=
    Piece.exists_before_cut h (textOf_samples hcompletes.samples)
  let joint : Piece := ⟨.blank, Piece.textOf blanks ++ ['\n']⟩
  have htext : Piece.textOf (init ++ blanks) ++ '\n' :: Piece.textOf lines =
      Piece.textOf (init ++ joint :: lines) := by
    simp [joint]
  have hlexes : Piece.Lexes (init ++ joint :: lines) [] := by
    refine (Piece.lexes_append _ _ _).mpr ⟨?_, ?_, Piece.lexes_inLines fun p hp => (hsamples p hp).2⟩
    · simpa [joint] using hinit
    · rw [List.append_nil]
      exact Piece.isNext_lineFeed hskip (Piece.skipBlanks_inLines fun p hp => (hsamples p hp).2)
  -- The tokens are those of the source before the cut and the ones on lines of their own.
  have htokens : Piece.tokens .start (init ++ blanks) = Piece.tokens .start init := by
    have hnone : Piece.tokens (Piece.stop .start init) blanks = [] := by
      unfold Piece.tokens
      rw [← Token.significant_visible, Piece.visible_place_blank hblanks]
      rfl
    rw [Piece.tokens_append, hnone, List.append_nil]
  let place := (Piece.stop .start init).advance joint.text
  have hall : Piece.tokens .start (init ++ joint :: lines) =
      Piece.tokens .start (init ++ blanks) ++ Piece.tokens place lines := by
    rw [Piece.tokens_append, Piece.tokens_cons_skip rfl, htokens]
  have hapart : AreApart ((Piece.tokens .start (init ++ blanks)).reverse ++ [])
      (Piece.tokens place lines) := by
    refine areApart_inLines (fun p hp => (hsamples p hp).1) fun last hlast => ?_
    rw [List.append_nil, htokens, List.head?_reverse] at hlast
    have hmem : last ∈ Piece.place .start init :=
      (List.mem_filter.mp (List.mem_of_getLast? hlast)).1
    obtain ⟨front, piece, rest, rfl, rfl⟩ := Piece.mem_place hmem
    have hstop : Piece.stop .start (front ++ piece :: rest) =
        Piece.stop ((Piece.stop .start front).advance piece.text) rest := Piece.stop_append ..
    have hfeed : '\n' ∈ joint.text := List.mem_append_right _ List.mem_cons_self
    constructor
    · refine Nat.lt_of_le_of_lt ?_ (Position.line_lt_advance _ hfeed)
      rw [hstop]
      exact Piece.line_le_stop _ rest
    · refine Nat.lt_of_le_of_lt (m := (Piece.stop .start (front ++ piece :: rest)).offset) ?_ ?_
      · rw [hstop]
        exact Piece.offset_le_stop _ rest
      · rw [Position.advance_offset]
        have hsize : joint.text.size = (Piece.textOf blanks).size + 1 := Text.size_append _ _
        omega
  have hrun := (hcompletes.runs _ (by
    rw [map_kind_inLines place fun p hp => (hsamples p hp).1, List.map_map]
    exact List.map_id'' (fun _ => rfl) kinds) hapart).looking rfl
  rw [← hall] at hrun
  refine ⟨'\n' :: Piece.textOf lines, rfl, ?_⟩
  rw [htext]
  obtain ⟨read, hread⟩ := (exists_script_ok_iff (Piece.textOf (init ++ joint :: lines)) _).mpr
    ⟨_, hrun⟩
  have hscan : Token.scan (Piece.textOf (init ++ joint :: lines)) =
      Piece.place .start (init ++ joint :: lines) :=
    Token.scanFrom_of_lexes hlexes (Nat.le_refl _) .start
  rw [Script.parse]
  simp only [hscan, Piece.unknowns_place hlexes.spells]
  rw [Piece.tokens] at hread
  rw [hread]
  exact ⟨_, rfl⟩

end Grammar

/-! ### Brackets that are refused

A bracket behind a cast is judged by tokens that have not been read yet.  So reading may
fail at the bracket for something that comes behind it, and these places are what is
excepted.
-/

namespace Cursor

/-- Whether a bracket with which a value could start stands on the line of a type literal before
it, and is not read as the value of a cast. -/
def refuses (c : Cursor) : Bool :=
  c.afterType && c.onLine && c.nextIs TokenKind.startsPrimary && !c.castValueFollows

/-- Whether the next token is a bracket that is refused, or stands directly behind one and goes on
with its group. -/
def meetsRefusal (c : Cursor) : Bool :=
  c.refuses ||
    match c.consumed, c.rest with
    | last :: earlier, next :: _ =>
      refuses ⟨earlier, last :: c.rest⟩ && (Nesting.run [] [last, next]).isSome
    | _, _ => false

theorem refuses_eq (c : Cursor) : c.refuses = (c.castOpens false && !c.castOpens true) := by
  simp only [refuses, castOpens, if_true, Bool.false_eq_true, if_false]
  cases c.afterType <;> simp [Bool.and_assoc]

theorem Refuses.refuses {c : Cursor} {broken : List Token} (h : c.Refuses broken) : c.refuses := by
  rw [refuses_eq, h.opens, h.refused]
  rfl

end Cursor

namespace Grammar

variable {tokens before after : List Token} {t : Token}

/-- Where brackets are not looked into, reading fails at the same token, but for a bracket that is
refused and for a token directly behind it that its group could hold. -/
theorem fails_relaxed (h : Runs true .script ⟨[], tokens⟩ (.failed (t :: after)))
    (hbefore : tokens = before ++ t :: after)
    (hrefusal : Cursor.meetsRefusal ⟨before.reverse, t :: after⟩ = false) :
    Runs false .script ⟨[], tokens⟩ (.failed (t :: after)) := by
  obtain hruns | ⟨broken, hrefuses, hruns⟩ := h.relaxed
  · exact hruns
  obtain ⟨ts, hreached, -⟩ := h.reached
  have hsuffix : broken <:+ t :: after := hrefuses.suffix hreached.rest hreached.moves
  obtain ⟨d, us, hsteps, -, hd, hrest⟩ := hrefuses
  have hconsumed : d.consumed = us.reverse := by simpa using hsteps.consumed
  obtain ⟨group, hgroup, -, hlength, hnests, -⟩ := hd.breaks
  have hsource : tokens = us ++ d.rest := hsteps.rest
  -- The token is one of those of the group, or the one at which the group breaks.
  obtain ⟨first, hfirst⟩ : ∃ first, d.rest = first ++ t :: after := hrest.imp fun _ h => h.symm
  obtain rfl : before = us ++ first := by
    have hsplit : before ++ t :: after = us ++ first ++ t :: after := by
      rw [← hbefore, hsource, hfirst, List.append_assoc]
    exact List.append_cancel_right hsplit
  obtain ⟨second, hsecond⟩ := hsuffix
  obtain rfl : group = first ++ second := by
    have hsplit : group ++ broken = first ++ second ++ broken := by
      rw [← hgroup, hfirst, ← hsecond, List.append_assoc]
    exact List.append_cancel_right hsplit
  obtain ⟨hhere, hbehind⟩ := Bool.or_eq_false_iff.mp hrefusal
  have hcursor : d = ⟨us.reverse, first ++ t :: after⟩ := by rw [← hconsumed, ← hfirst]
  have hd' := hd.refuses
  rw [hcursor] at hd'
  cases second with
  | nil => rwa [← hsecond]
  | cons u second =>
    exfalso
    obtain rfl | ⟨v, rfl⟩ : first = [] ∨ ∃ v, first = [v] := by
      cases first with
      | nil => exact .inl rfl
      | cons v first =>
        simp only [List.length_append, List.length_cons] at hlength
        exact .inr ⟨v, congrArg _ (List.eq_nil_of_length_eq_zero (by omega))⟩
    · rw [List.append_nil] at hhere
      exact Bool.eq_false_iff.mp hhere hd'
    · -- The group is the bracket and the token.
      obtain rfl : second = [] := List.eq_nil_of_length_eq_zero (by
        simp only [List.length_append, List.length_cons, List.length_nil] at hlength
        omega)
      obtain rfl : u = t := (List.cons.inj hsecond).1
      rw [List.reverse_append] at hbehind
      exact Bool.eq_false_iff.mp hbehind (Bool.and_eq_true_iff.mpr ⟨hd', hnests⟩)

/-- **What has been read when a script is rejected is completed.** -/
theorem exists_completes_of_failed {rest : List Token}
    (h : Runs true .script ⟨[], tokens⟩ (.failed rest)) (hbefore : tokens = before ++ rest) :
    ∃ kinds, Form.script.Completes [] before kinds := by
  by_cases hnil : before = []
  · rw [hnil]
    exact ⟨[], completes_kinds? Form.sound_script (by decide) []⟩
  obtain hruns | ⟨broken, hrefuses, hruns⟩ := h.relaxed
  · exact hruns.exists_completes Form.sound_script Form.completes_script hbefore hnil
      List.suffix_rfl
  · obtain ⟨ts, hreached, -⟩ := h.reached
    exact hruns.exists_completes Form.sound_script Form.completes_script hbefore hnil
      (hrefuses.suffix hreached.rest hreached.moves)

/-- **What fails at a token fails whatever comes behind it.** -/
theorem not_passes_of_fails (h : Runs false .script ⟨[], tokens⟩ (.failed (t :: after)))
    (hbefore : tokens = before ++ t :: after) (hkeyword : t.kind.isKeyword = false)
    (more : List Token) (c' : Cursor) (hrest : c'.rest = []) :
    ¬ Runs true .script ⟨[], before ++ t :: more⟩ (.passed c') := by
  intro hpassed
  have hagain := h.fails_again Form.sound_script rfl hbefore hkeyword more
  obtain hrun | ⟨broken, hrefuses, hrun⟩ := hpassed.relaxed
  · cases hagain.eq hrun
  · -- Nothing is left where it passes, and so nothing where it would fail.
    obtain ⟨ts, hreached, -⟩ := hpassed.reached
    have hsuffix := hrefuses.suffix hreached.rest hreached.moves
    cases hagain.eq hrun
    rw [Outcome.rest, hrest] at hsuffix
    exact List.cons_ne_nil _ _ (List.suffix_nil.mp hsuffix)

end Grammar

/-! ### Where errors are -/

/-- The source before the token that an error names, or all of it. -/
def GrammarError.before (e : GrammarError) (source : Text) : Text :=
  match e.token with
  | some t => source.slice 0 t.start.offset
  | none => source

namespace Script

open Grammar

variable {source : Text} {e : GrammarError} {place : Location}

theorem parse_grammar_error (h : parse source = .error (.grammar e place)) :
    Token.unknowns (Token.scan source) = [] ∧
      script source (Token.significant (Token.scan source)) = .error e ∧
      place = (e.token.map (·.location)).getD (.endOf source) := by
  unfold parse at h
  simp only [] at h
  split at h
  · cases h
  · next hunknowns =>
    split at h
    · next e' hscript =>
      cases h
      exact ⟨hunknowns, hscript, rfl⟩
    · cases h

/-- A token of a source stands in it once. -/
theorem eq_of_append_cons {before before' after after' : List Token} {t : Token}
    (hknown : Token.unknowns (Token.scan source) = [])
    (h : Token.significant (Token.scan source) = before ++ t :: after)
    (h' : Token.significant (Token.scan source) = before' ++ t :: after') :
    before = before' ∧ after = after' := by
  have hnodup : (Token.significant (Token.scan source)).Nodup :=
    .sublist List.filter_sublist (.of_map _ (Token.nodup_places hknown))
  rw [h] at hnodup
  have hout := List.nodup_middle.mp hnodup
  have hnot := (List.nodup_cons.mp hout).1
  rw [List.mem_append, not_or] at hnot
  have hsame := (List.append_cons_inj_of_notMem hnot.1 hnot.2).mp (h.symm.trans h')
  exact ⟨hsame.1, hsame.2.2⟩

/-- **A grammar error is found at the first impossible token.**  What stands before it can be
completed, and no tokens that start with those up to it are accepted, if it is no keyword and
neither a bracket that is refused nor a token that goes on with the group of one. -/
theorem grammar_error_first (h : parse source = .error (.grammar e place)) :
    place = (e.token.map (·.location)).getD (.endOf source) ∧
    (∀ t, e.token = some t → t ∈ Token.significant (Token.scan source)) ∧
    (∃ suffix : Text, (suffix.head? = some ' ' ∨ suffix.head? = some '\n') ∧
      ∃ script, parse (e.before source ++ suffix) = .ok script) ∧
    ∀ before t after, Token.significant (Token.scan source) = before ++ t :: after →
      e.token = some t → t.kind.isKeyword = false →
      Cursor.meetsRefusal ⟨before.reverse, t :: after⟩ = false →
      ∀ source' more read, Grammar.script source' (before ++ t :: more) ≠ .ok read := by
  obtain ⟨hunknowns, hscript, hplace⟩ := parse_grammar_error h
  refine ⟨hplace, ?_⟩
  have hfollows := follows_script source (Token.significant (Token.scan source))
  rw [hscript] at hfollows
  obtain ⟨rest, htoken, hfailed⟩ := hfollows
  obtain ⟨before, hreached, -⟩ := hfailed.reached
  have hbefore : Token.significant (Token.scan source) = before ++ rest := hreached.rest
  have hrest {t : Token} (ht : e.token = some t) : ∃ after, rest = t :: after :=
    List.head?_eq_some_iff.mp (htoken.symm.trans ht)
  refine ⟨fun t ht => ?_, ?_, ?_⟩
  · obtain ⟨after, rfl⟩ := hrest ht
    rw [hbefore]
    exact List.mem_append_right _ List.mem_cons_self
  · obtain ⟨pieces, rfl, hlexes, hscan⟩ := Token.exists_pieces hunknowns
    obtain ⟨kinds, hkinds⟩ := exists_completes_of_failed hfailed hbefore
    have htokens : Piece.tokens .start pieces = before ++ rest := by
      rw [Piece.tokens, ← hscan, hbefore]
    -- The pieces before the token, or all of them.
    obtain ⟨first, behind, rfl, hfirst, hcut⟩ : ∃ first behind, pieces = first ++ behind ∧
        Piece.tokens .start first = before ∧
          e.before (Piece.textOf pieces) = Piece.textOf first := by
      cases rest with
      | nil =>
        refine ⟨pieces, [], (List.append_nil _).symm, by rw [htokens, List.append_nil], ?_⟩
        rw [GrammarError.before, htoken]
        rfl
      | cons t after =>
        obtain ⟨first, piece, behind, rfl, -, rfl, rfl, -⟩ := Piece.tokens_eq_append_cons htokens
        refine ⟨first, piece :: behind, rfl, rfl, ?_⟩
        have hslice := Text.slice_append [] (Piece.textOf first) (Piece.textOf (piece :: behind))
        rw [GrammarError.before, htoken, Piece.textOf_append]
        simp only [List.head?_cons, Piece.stop_offset]
        exact hslice
    rw [← hfirst] at hkinds
    obtain ⟨suffix, hhead, hparse⟩ := exists_completion hlexes hkinds
    exact ⟨suffix, .inr hhead, by rwa [hcut]⟩
  · intro before' t after' htokens ht hkeyword hrefusal source' more read hread
    obtain ⟨after, rfl⟩ := hrest ht
    obtain ⟨rfl, rfl⟩ := eq_of_append_cons hunknowns htokens hbefore
    have hpassed := follows_script source' (before' ++ t :: more)
    rw [hread] at hpassed
    exact not_passes_of_fails (fails_relaxed hfailed hbefore hrefusal) hbefore hkeyword more _ rfl
      hpassed

/-- A value is missing behind the comma. -/
def missingValue : Text := "a = 1, \x7d"

theorem grammar_error_first_comma : ∃ e place, parse missingValue = .error (.grammar e place) ∧
    (∃ suffix : Text, (suffix.head? = some ' ' ∨ suffix.head? = some '\n') ∧
      ∃ script, parse ("a = 1, " ++ suffix) = .ok script) ∧
    ∀ source' more read, Grammar.script source'
      (Token.significant (Token.scan missingValue) ++ more) ≠ .ok read := by
  have htokens : Token.significant (Token.scan missingValue) =
      (Token.significant (Token.scan missingValue)).take 4 ++
        [⟨.braceClose, "\x7d", ⟨⟨1, 8⟩, 7⟩⟩] := by
    decide +kernel
  have herror : (match parse missingValue with
      | .error (.grammar e _) => some e.token
      | _ => none) = some (some ⟨.braceClose, "\x7d", ⟨⟨1, 8⟩, 7⟩⟩) := by
    decide +kernel
  cases hparse : parse missingValue with
  | ok script => rw [hparse] at herror; cases herror
  | error error =>
    cases error with
    | unexpectedCharacter => rw [hparse] at herror; cases herror
    | grammar e place =>
      rw [hparse] at herror
      have htoken : e.token = some ⟨.braceClose, "\x7d", ⟨⟨1, 8⟩, 7⟩⟩ := Option.some.inj herror
      obtain ⟨-, -, hcompleted, hrejected⟩ := grammar_error_first hparse
      refine ⟨e, place, rfl, ?_, fun source' more read => ?_⟩
      · have hbefore : e.before missingValue = "a = 1, " := by
          rw [GrammarError.before, htoken]
          decide +kernel
        rwa [hbefore] at hcompleted
      · have := hrejected _ _ _ htokens htoken rfl (by decide +kernel) source' more read
        rw [htokens, List.append_assoc]
        exact this

/-- A bracket behind a cast that is not read as its value. -/
def refusedBracket : Text := "@\x7b a = [int] ( \x7d"

/-- The bracket that is refused could stand where it does. -/
theorem grammar_error_first_casts :
    ¬ ∀ (source : Text) (e : GrammarError) (place : Location) (before after : List Token)
      (t : Token), parse source = .error (.grammar e place) →
      Token.significant (Token.scan source) = before ++ t :: after → e.token = some t →
      t.kind.isKeyword = false →
      ∀ source' more read, Grammar.script source' (before ++ t :: more) ≠ .ok read := by
  intro h
  have htokens : Token.significant (Token.scan refusedBracket) =
      (Token.significant (Token.scan refusedBracket)).take 4 ++
        ⟨.parenOpen, "(", ⟨⟨1, 14⟩, 13⟩⟩ :: (Token.significant (Token.scan refusedBracket)).drop 5 := by
    decide +kernel
  have herror : (match parse refusedBracket with
      | .error (.grammar e _) => some e.token
      | _ => none) = some (some ⟨.parenOpen, "(", ⟨⟨1, 14⟩, 13⟩⟩) := by
    decide +kernel
  let completed : Text := "@\x7b a = [int] ( ) \x7d"
  have hread : (Grammar.script completed ((Token.significant (Token.scan refusedBracket)).take 4 ++
      ⟨.parenOpen, "(", ⟨⟨1, 14⟩, 13⟩⟩ :: (Token.significant (Token.scan completed)).drop 5)).isOk := by
    decide +kernel
  cases hparse : parse refusedBracket with
  | ok script => rw [hparse] at herror; cases herror
  | error error =>
    cases error with
    | unexpectedCharacter => rw [hparse] at herror; cases herror
    | grammar e place =>
      rw [hparse] at herror
      have hrejected := h _ _ _ _ _ _ hparse htokens (Option.some.inj herror) rfl completed
      cases hscript : Grammar.script completed
          ((Token.significant (Token.scan refusedBracket)).take 4 ++
            ⟨.parenOpen, "(", ⟨⟨1, 14⟩, 13⟩⟩ :: (Token.significant (Token.scan completed)).drop 5) with
      | ok read => exact hrejected _ read hscript
      | error e => rw [hscript] at hread; cases hread

end Script

end DesiredState

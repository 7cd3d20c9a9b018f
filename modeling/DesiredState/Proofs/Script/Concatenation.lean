/-
Parsing line by line.

Two scripts that are put below one another are parsed as the one and then the other,
with everything of the second one so many lines further down: no statement goes on with
what stands on a later line, a body in braces apart.  There is one exception.  The casts
of an operand are read one after another wherever they stand, so a script that ends in a
cast goes on with a script that starts with one.
-/
import DesiredState.Proofs.Script.Heads
import DesiredState.Proofs.Script.Inset

namespace DesiredState

namespace Grammar

/-- A script starts with a statement or a separator. -/
theorem startsStatement_of_script {source : Text} {first : Token} {rest : List Token}
    {read : List Item} (h : script source (first :: rest) = .ok read) :
    first.kind.startsStatement || first.kind == .semicolon := by
  obtain ⟨c, hc, hitems⟩ := script_ok h
  obtain ⟨list, c', hlist, hlast⟩ := Nesting.bind_ok hitems
  cases hlast
  by_contra hno
  change (if (first.kind.startsStatement || first.kind == .semicolon) then _ else _ :
    Reading _) _ = _ at hlist
  rw [if_neg hno] at hlist
  cases hlist
  cases hc

/-- What can start a script goes on with nothing where the line does not matter, a brace apart. -/
theorem stops_kind_of_startsStatement {kind : TokenKind}
    (h : kind.startsStatement || kind == .semicolon) (hbrace : kind ≠ .braceOpen) :
    kind ≠ .braceOpen ∧ kind ≠ .pipe ∧ kind ≠ .comma ∧ kind ≠ .equals := by
  refine ⟨hbrace, ?_, ?_, ?_⟩ <;>
    (rintro rfl; exact absurd h (by decide))

end Grammar

/-- A token of a source stands within its lines and its units. -/
theorem Piece.stop_of_mem_place {pieces : List Piece} {t : Token}
    (h : t ∈ place .start pieces) :
    1 ≤ t.start.line ∧ t.stop.line ≤ (stop .start pieces).line ∧
      t.stop.offset ≤ (stop .start pieces).offset := by
  obtain ⟨front, piece, rest, rfl, rfl⟩ := mem_place h
  have hstop : Token.stop ⟨piece.kind, piece.text, stop .start front⟩ =
      stop .start (front ++ [piece]) := by
    rw [stop_append]
    rfl
  rw [hstop, show front ++ piece :: rest = (front ++ [piece]) ++ rest by simp]
  refine ⟨line_le_stop .start front, ?_, offset_le_stop_append _ _ _⟩
  rw [stop_append .start (front ++ [piece])]
  exact line_le_stop _ _

/-- A script and one that stands below it. -/
structure Stacked where
  /-- The pieces of the first script. -/
  upper : List Piece
  /-- The pieces of the second script. -/
  lower : List Piece
  lexesUpper : Piece.Lexes upper []
  lexesLower : Piece.Lexes lower []
  pairedUpper : (Piece.textOf upper).ReturnsPaired
  pairedLower : (Piece.textOf lower).ReturnsPaired
  /-- The second script does not start with a brace or anything else that goes on with the first. -/
  kinds : ∀ next, (Token.significant (Piece.place .start lower)).head? = some next →
    next.kind ≠ .braceOpen ∧ next.kind ≠ .pipe ∧ next.kind ≠ .comma ∧ next.kind ≠ .equals
  /-- No cast comes after a cast. -/
  casts : ∀ last next, (Token.significant (Piece.place .start upper)).getLast? = some last →
    (Token.significant (Piece.place .start lower)).head? = some next →
    last.kind = .typeLiteral → next.kind ≠ .typeLiteral
  balancedUpper : Nesting.Balanced (Token.significant (Piece.place .start upper))
  balancedLower : Nesting.Balanced (Token.significant (Piece.place .start lower))

namespace Stacked

variable (S : Stacked)

def upperTokens : List Token := Token.significant (Piece.place .start S.upper)

/-- How many lines further down the second script stands. -/
def lines : Nat := (Piece.textOf S.upper).count '\n' + 1

/-- How many units further on the second script stands. -/
def units : Nat := (Piece.textOf S.upper ++ ['\n'] : Text).size

/-- The tokens of the second script where it stands. -/
def lowerTokens : List Token :=
  (Token.significant (Piece.place .start S.lower)).map (Token.shift S.lines S.units)

theorem lowerTokens_head? {next : Token} (h : S.lowerTokens.head? = some next) :
    ∃ t, (Token.significant (Piece.place .start S.lower)).head? = some t ∧
      t.shift S.lines S.units = next := by
  rwa [lowerTokens, List.head?_map, Option.map_eq_some_iff] at h

/-- The second script stands on later lines than the first one. -/
theorem stops {last next : Token} (hlast : S.upperTokens.getLast? = some last)
    (hnext : S.lowerTokens.head? = some next) : last.Stops next := by
  obtain ⟨t, ht, rfl⟩ := S.lowerTokens_head? hnext
  obtain ⟨-, hline, hoffset⟩ := Piece.stop_of_mem_place
    (List.mem_filter.mp (List.mem_of_getLast? hlast)).1
  obtain ⟨hstart, -, -⟩ := Piece.stop_of_mem_place (List.mem_filter.mp (List.mem_of_head? ht)).1
  have hreturn := Piece.getLast?_ne_return S.lexesUpper S.pairedUpper
  rw [Piece.stop_eq_advance hreturn] at hline hoffset
  rw [Position.advance_line .start S.pairedUpper] at hline
  rw [Position.advance_offset] at hoffset
  have hlines : S.lines = (Piece.textOf S.upper).count '\n' + 1 := rfl
  have hunits : S.units = (Piece.textOf S.upper).size + 1 := Text.size_append _ _
  have hlater : last.stop.line < t.start.line + S.lines := by
    change _ ≤ 1 + _ at hline
    omega
  have hbehind : t.start.offset + S.units ≠ last.stop.offset := by
    change _ ≤ 0 + _ at hoffset
    omega
  refine ⟨fun hon => ?_, fun htouch => ?_, S.casts last t hlast ht⟩
  · exact absurd (of_decide_eq_true hon) (Nat.not_le_of_lt hlater)
  · exact absurd (beq_iff_eq.mp htouch) hbehind

/-- The first script, with the second one after it. -/
def above : Inset where
  pieces := S.upper
  lexes := S.lexesUpper
  paired := S.pairedUpper
  front := []
  frontPaired := trivial
  lines := 0
  start := rfl
  behind := '\n' :: Piece.textOf S.lower
  before := []
  after := S.lowerTokens
  stops _ _ := S.stops
  stops_kind next hnext := by
    obtain ⟨t, ht, rfl⟩ := S.lowerTokens_head? hnext
    exact S.kinds t ht
  balanced := S.balancedUpper

/-- The second script, with the first one before it. -/
def below : Inset where
  pieces := S.lower
  lexes := S.lexesLower
  paired := S.pairedLower
  front := Piece.textOf S.upper ++ ['\n']
  frontPaired := S.pairedUpper.append ⟨fun h => absurd h (by decide), trivial⟩
  lines := S.lines
  start := by
    rw [Position.advance_lineFeed .start S.pairedUpper, Text.size_append]
    simp only [Position.start, Position.shift, Location.down, lines, Nat.add_comm,
      Nat.add_left_comm]
    rfl
  behind := []
  before := S.upperTokens.reverse
  after := []
  stops _ _ _ h := by cases h
  stops_kind _ h := by cases h
  balanced := S.balancedLower

/-- Both scripts are read in the text that they make. -/
theorem script_ok {items items' : List Item}
    (hupper : Grammar.script (Piece.textOf S.upper) S.upperTokens = .ok items)
    (hlower : Grammar.script (Piece.textOf S.lower)
      (Token.significant (Piece.place .start S.lower)) = .ok items') :
    ∃ read read', Grammar.script (Piece.textOf S.upper ++ '\n' :: Piece.textOf S.lower)
        (S.upperTokens ++ S.lowerTokens) = .ok (read ++ read') ∧
      items.map (Item.relabel .same) = read.map (Item.relabel .same) ∧
      items'.map (Item.relabel (.down S.lines S.units)) = read'.map (Item.relabel .same) := by
  have habove : S.above.parallel.pairs.map Prod.fst = S.upperTokens ∧
      S.above.parallel.pairs.map Prod.snd = S.upperTokens := by
    constructor <;> exact (List.map_map ..).trans (List.map_id _)
  have hbelow : S.below.parallel.pairs.map Prod.fst =
        Token.significant (Piece.place .start S.lower) ∧
      S.below.parallel.pairs.map Prod.snd = S.lowerTokens :=
    ⟨(List.map_map ..).trans (List.map_id _), List.map_map ..⟩
  have hwhole : Piece.textOf S.upper ++ '\n' :: Piece.textOf S.lower = S.above.whole := rfl
  have hsource : S.below.whole = S.above.whole := by
    change Piece.textOf S.upper ++ ['\n'] ++ Piece.textOf S.lower ++ [] =
      [] ++ Piece.textOf S.upper ++ '\n' :: Piece.textOf S.lower
    simp
  have hread := S.above.parallel.script_sequence S.below.parallel ⟨rfl, rfl⟩ ⟨rfl, rfl⟩ hsource
    ⟨rfl, by rw [habove.2]; rfl⟩ ⟨by rw [hbelow.2]; rfl, rfl⟩ (by rw [habove.1]; exact hupper)
    (by rw [hbelow.1]; exact hlower)
  rw [habove.2, hbelow.2] at hread
  rw [hwhole]
  exact hread

end Stacked

/-- Items that are the same up to something hold statements that are. -/
theorem statements_of_relabel {m m' : Relabelling} {list list' : List Item}
    (h : list.map (Item.relabel m) = list'.map (Item.relabel m')) :
    (list.map (·.statement)).map (Statement.relabel m) =
      (list'.map (·.statement)).map (Statement.relabel m') := by
  have hstatements := congrArg (List.map Item.statement) h
  rw [List.map_map, List.map_map] at hstatements
  rw [List.map_map, List.map_map]
  exact hstatements

namespace Script

variable {first second : Text} {a b : Script}

/-- **Scripts below one another** are parsed as the one and then the other.  The first one must
open no block comment, which the second one could close.  A body in braces, which could belong to
the last command of the first script, must not come second, and neither must a cast come after
one. -/
theorem parse_concatenation (hfirst : parse first = .ok a) (hsecond : parse second = .ok b)
    (hopen : ¬ ['<', '#'] <:+: first) (hpaired : first.ReturnsPaired)
    (hpaired' : second.ReturnsPaired)
    (hbrace : ∀ next, (Token.significant (Token.scan second)).head? = some next →
      next.kind ≠ .braceOpen)
    (hcast : ∀ last next, (Token.significant (Token.scan first)).getLast? = some last →
      (Token.significant (Token.scan second)).head? = some next →
      last.kind = .typeLiteral → next.kind ≠ .typeLiteral) :
    ∃ script, parse (first ++ '\n' :: second) = .ok script ∧
      script.statements = a.statements ++ b.statements.map
        (Statement.relabel (.down (first.count '\n' + 1) (first.size + 1))) := by
  obtain ⟨hunknowns, items, hitems, rfl⟩ := parse_eq_ok_iff.mp hfirst
  obtain ⟨hunknowns', items', hitems', rfl⟩ := parse_eq_ok_iff.mp hsecond
  have hsignificant := Token.significant_scan_concatenation hunknowns hunknowns' hopen hpaired
  have hknown := Token.unknowns_scan_concatenation hunknowns hunknowns' hopen hpaired
  obtain ⟨pieces, rfl, hlexes, hscan⟩ := Token.exists_pieces hunknowns
  obtain ⟨others, rfl, hlexes', hscan'⟩ := Token.exists_pieces hunknowns'
  rw [hscan] at hitems hcast hsignificant
  rw [hscan'] at hitems' hbrace hcast hsignificant
  let S : Stacked := {
    upper := pieces
    lower := others
    lexesUpper := hlexes
    lexesLower := hlexes'
    pairedUpper := hpaired
    pairedLower := hpaired'
    kinds := fun next hnext => by
      obtain ⟨rest, hrest⟩ := List.head?_eq_some_iff.mp hnext
      rw [hrest] at hitems'
      exact Grammar.stops_kind_of_startsStatement (Grammar.startsStatement_of_script hitems')
        (hbrace next hnext)
    casts := hcast
    balancedUpper := Grammar.balanced_of_script hitems
    balancedLower := Grammar.balanced_of_script hitems' }
  have hunits : S.units = (Piece.textOf pieces).size + 1 := Text.size_append _ _
  obtain ⟨read, read', hread, hsame, hsame'⟩ := S.script_ok hitems hitems'
  have hself (list : List Statement) : list.map (Statement.relabel .same) = list := by
    rw [← Statement.relabels_eq, Statement.relabels_same]
  have hupper := statements_of_relabel hsame
  have hlower := statements_of_relabel hsame'
  rw [hself, hself] at hupper
  rw [hself, hunits] at hlower
  refine ⟨_, parse_eq_ok_iff.mpr ⟨hknown, read ++ read', ?_, rfl⟩, ?_⟩
  · rw [hsignificant, ← hunits]
    exact hread
  · change (read ++ read').map (·.statement) = _
    rw [List.map_append, ← hupper, ← hlower]
    rfl

theorem parse_concatenation_notes : ∃ a b script, parse "Foo -A 1 # note\r\n" = .ok a ∧
    parse "[int]$x" = .ok b ∧ parse "Foo -A 1 # note\r\n\n[int]$x" = .ok script ∧
    script.statements = a.statements ++ b.statements.map (Statement.relabel (.down 2 18)) := by
  have hfirst : (parse "Foo -A 1 # note\r\n").isOk := by decide +kernel
  have hsecond : (parse "[int]$x").isOk := by decide +kernel
  cases ha : parse "Foo -A 1 # note\r\n" with
  | error e => rw [ha] at hfirst; cases hfirst
  | ok a =>
    cases hb : parse "[int]$x" with
    | error e => rw [hb] at hsecond; cases hsecond
    | ok b =>
      have hlast : ((Token.significant (Token.scan "Foo -A 1 # note\r\n")).getLast?.map
          Token.kind) = some .number := by decide +kernel
      have hnext : ((Token.significant (Token.scan "[int]$x")).head?.map Token.kind) =
          some .typeLiteral := by decide +kernel
      obtain ⟨script, hscript, hstatements⟩ := parse_concatenation ha hb (by decide +kernel)
        (by decide +kernel) (by decide +kernel)
        (fun next h => by
          rw [h] at hnext
          rw [Option.some.inj hnext]
          decide)
        (fun last _ h _ hk => by
          rw [h, Option.map_some, hk] at hlast
          cases hlast)
      exact ⟨a, b, script, rfl, rfl, hscript, hstatements⟩

/-- How many statements a script has, found by parsing it. -/
theorem length_of_parse {source : Text} {script : Script} {n : Nat} (hs : parse source = .ok script)
    (h : (parse source).toOption.map (·.statements.length) = some n) :
    script.statements.length = n := by
  rw [hs] at h
  exact Option.some.inj h

/-- A cast at the end of a script goes on with one at the start of the next line. -/
theorem parse_concatenation_casts :
    ¬ ∀ (first second : Text) (a b : Script), parse first = .ok a → parse second = .ok b →
      ¬ ['<', '#'] <:+: first → first.ReturnsPaired → second.ReturnsPaired →
      (∀ next, (Token.significant (Token.scan second)).head? = some next →
        next.kind ≠ .braceOpen) →
      ∃ script, parse (first ++ '\n' :: second) = .ok script ∧
        script.statements = a.statements ++ b.statements.map
          (Statement.relabel (.down (first.count '\n' + 1) (first.size + 1))) := by
  intro h
  have hfirst : (parse "[int]").toOption.map (·.statements.length) = some 1 := by
    decide +kernel
  have hsecond : (parse "[string]").toOption.map (·.statements.length) = some 1 := by
    decide +kernel
  have hboth : (parse "[int]\n[string]").toOption.map (·.statements.length) = some 1 := by
    decide +kernel
  have hnext : ((Token.significant (Token.scan "[string]")).head?.map Token.kind) =
      some .typeLiteral := by
    decide +kernel
  cases ha : parse "[int]" with
  | error e => rw [ha] at hfirst; cases hfirst
  | ok a =>
    cases hb : parse "[string]" with
    | error e => rw [hb] at hsecond; cases hsecond
    | ok b =>
      obtain ⟨script, hscript, hstatements⟩ := h _ _ a b ha hb (by decide +kernel)
        (by decide +kernel) (by decide +kernel) fun next hn => by
          rw [hn] at hnext
          rw [Option.some.inj hnext]
          decide
      have hlength := congrArg List.length hstatements
      rw [List.length_append, List.length_map, length_of_parse ha hfirst,
        length_of_parse hb hsecond, length_of_parse hscript hboth] at hlength
      exact absurd hlength (by decide)

end Script

end DesiredState

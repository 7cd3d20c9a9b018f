/-
The stream of tokens covers its source.

A source whose tokens are known is tiled by them: white space, a token, white space, a
token, and white space at the end.  A tiling says of every token at once what its text
is and where it starts, so the tokens come in order, none reaches into the next, and
each of them stands where the text in front of it ends.

Of the text in front, `Location.after` says where it ends by cutting it into rows, at
line feeds, carriage returns and the two together.  Reading counts the same lines step
by step, since no token parts a carriage return from its line feed.
-/
import DesiredState.Proofs.Token.Blanking
import DesiredState.Proofs.Script.Heads

namespace DesiredState

/-! ### White space -/

namespace Text

/-- White space: spaces, tabs, line breaks, and backticks that continue a line. -/
inductive IsSpace : Text → Prop
  | nil : IsSpace []
  | cons {c : Char} {t : Text} (hc : c ∈ [' ', '\t', '\r', '\n']) (ht : IsSpace t) :
    IsSpace (c :: t)
  | continued {t : Text} (ht : IsSpace t) : IsSpace ('`' :: '\n' :: t)
  | continuedReturn {t : Text} (ht : IsSpace t) : IsSpace ('`' :: '\r' :: '\n' :: t)

theorem IsSpace.append {s t : Text} (hs : s.IsSpace) (ht : t.IsSpace) : (s ++ t).IsSpace := by
  induction hs with
  | nil => exact ht
  | cons hc _ ih => exact .cons hc ih
  | continued _ ih => exact .continued ih
  | continuedReturn _ ih => exact .continuedReturn ih

/-- What is skipped as blanks is white space. -/
theorem isSpace_of_skipBlanks {t : Text} (h : Pattern.skipBlanks t = []) : t.IsSpace := by
  fun_induction Pattern.skipBlanks t with
  | case1 rest ih | case2 rest ih | case3 rest ih | case4 rest ih => exact .cons (by simp) (ih h)
  | case5 rest ih => exact .continued (ih h)
  | case6 rest ih => exact .continuedReturn (ih h)
  | case7 => exact h ▸ .nil

end Text

/-! ### Rows

Lines and columns are told here by the rows of the text alone, without reading it.  This
is what the places of tokens are compared with.
-/

namespace Text

/-- The rows of a text, broken at a line feed, a carriage return or the two together. -/
def rows : Text → List Text
  | [] => [[]]
  | '\r' :: '\n' :: rest => [] :: rows rest
  | '\r' :: rest => [] :: rows rest
  | '\n' :: rest => [] :: rows rest
  | c :: rest =>
    match rows rest with
    | [] => [[c]]
    | row :: more => (c :: row) :: more

theorem rows_ne_nil (t : Text) : rows t ≠ [] := by
  fun_cases rows t <;> simp_all

end Text

namespace Location

/-- Where a text ends, from one: its last row, and behind that row's last unit. -/
def after (t : Text) : Location := ⟨t.rows.length, (t.rows.getLast?.getD []).size + 1⟩

/-- Where rows end that start at a place. -/
def past : Location → List Text → Location
  | l, [] => l
  | l, [row] => ⟨l.line, l.column + row.size⟩
  | l, _ :: next :: more => past ⟨l.line + 1, 1⟩ (next :: more)

theorem past_eq (line : Nat) (row : Text) (more : List Text) :
    past ⟨line, 1⟩ (row :: more) =
      ⟨line + more.length, ((row :: more).getLast?.getD []).size + 1⟩ := by
  induction more generalizing line row with
  | nil => rw [past, Nat.add_comm 1]; rfl
  | cons next more ih =>
    rw [past, ih, List.getLast?_cons_cons, List.length_cons, Nat.add_right_comm, Nat.add_assoc]

end Location

namespace Position

/-- Reading a text leads past its rows. -/
theorem advance_rows (p : Position) (t : Text) :
    (p.advance t).toLocation = p.toLocation.past t.rows := by
  -- Behind a line break come the rows of the text behind it.
  have hbreak (p : Position) (n : Nat) (rest : Text) :
      (p.newLine n).toLocation.past rest.rows = p.toLocation.past ([] :: rest.rows) := by
    obtain ⟨row, more, h⟩ := List.exists_cons_of_ne_nil (Text.rows_ne_nil rest)
    rw [h]
    rfl
  fun_induction advance p t with
  | case1 p => rfl
  | case2 p rest ih => rw [ih, Text.rows, hbreak]
  | case3 p rest hn ih => rw [ih, Text.rows.eq_3 rest hn, hbreak]
  | case4 p rest ih => rw [ih, Text.rows, hbreak]
  | case5 p c rest h₁ hr hn ih =>
    obtain ⟨row, more, h⟩ := List.exists_cons_of_ne_nil (Text.rows_ne_nil rest)
    rw [ih, Text.rows.eq_5 c rest h₁ hr hn, h]
    cases more with
    | nil => simp only [Location.past, Text.size_cons, Nat.add_assoc]
    | cons next more => rfl

theorem advance_start_offset (t : Text) : (start.advance t).offset = t.size := by
  rw [advance_offset]
  exact Nat.zero_add _

theorem advance_start (t : Text) : (start.advance t).toLocation = .after t := by
  obtain ⟨row, more, h⟩ := List.exists_cons_of_ne_nil (Text.rows_ne_nil t)
  rw [advance_rows, Location.after, h, start, Location.past_eq, List.length_cons, Nat.add_comm 1]

end Position

/-! ### Tilings

A tiling goes from token to token and keeps the text in front.  Each token then has its
place by what stands before it, and no token is needed to find another.
-/

/-- White space and tokens in turn, from the place where the text in front ends. -/
inductive Tiles : (front : Text) → List ClassifiedToken → Text → Prop
  | nil {front gap : Text} (hgap : gap.IsSpace) : Tiles front [] gap
  | cons {front gap behind : Text} {t : ClassifiedToken} {rest : List ClassifiedToken}
    (hgap : gap.IsSpace) (hne : t.text ≠ []) (hstart : t.start = .advance .start (front ++ gap))
    (hrest : Tiles (front ++ gap ++ t.text) rest behind) :
    Tiles front (t :: rest) (gap ++ t.text ++ behind)

namespace Tiles

/-- White space in front joins the white space that follows. -/
theorem space {front gap behind : Text} {tokens : List ClassifiedToken} (hgap : gap.IsSpace)
    (h : Tiles (front ++ gap) tokens behind) : Tiles front tokens (gap ++ behind) := by
  cases h with
  | nil hmore => exact .nil (hgap.append hmore)
  | @cons _ more behind t rest hmore hne hstart hrest =>
    rw [List.append_assoc front] at hstart hrest
    rw [← List.append_assoc, ← List.append_assoc]
    exact .cons (hgap.append hmore) hne hstart hrest

/-- The tokens that pieces make tile what is read. -/
theorem of_lexes (marks : List Mark) {front pieces : List Piece}
    (h : Piece.Lexes (front ++ pieces) []) :
    Tiles (Piece.textOf front)
      (Script.streamOf marks (Piece.place (Piece.stop .start front) pieces))
      (Piece.textOf pieces) := by
  induction pieces generalizing front with
  | nil => exact .nil .nil
  | cons piece rest ih =>
    have hmore : Piece.Lexes ((front ++ [piece]) ++ rest) [] := by
      rwa [List.append_assoc, List.singleton_append]
    have hrest := ih hmore
    rw [Piece.textOf_append, Piece.textOf_cons, Piece.textOf_nil, List.append_nil,
      Piece.stop_append] at hrest
    have hpiece := ((Piece.lexes_append front _ _).mp h).2
    rw [Piece.place, Piece.textOf_cons]
    by_cases hk : piece.kind = .blank
    · have hspace := Text.isSpace_of_skipBlanks (Piece.skipBlanks_text hpiece hk)
      refine space hspace ?_
      rwa [Script.streamOf, List.filter_cons_of_neg (by rw [hk]; exact Bool.false_ne_true)]
    · have hkind : (piece.kind.isSignificant || piece.kind.isComment) = true := by
        have hknown := Token.next?_ne_unknown hpiece.1
        generalize piece.kind = kind at hk hknown
        cases kind <;> first | rfl | contradiction
      rw [Script.streamOf, List.filter_cons_of_pos (by exact hkind), List.map_cons]
      refine @cons _ [] _ _ _ .nil hpiece.1.text_ne_nil ?_ ?_
      · rw [List.append_nil, ← Piece.stop_eq_advance_of_lexes h]
        rfl
      · rwa [List.append_nil]

end Tiles

/-! ### Streams -/

/-- The offset behind a token. -/
def ClassifiedToken.stopOffset (t : ClassifiedToken) : Nat := t.start.offset + t.text.size

/-- What tokens leave of a text from an offset on: what is before, between and after them. -/
def Text.gapsFrom (source : Text) : (offset : Nat) → List ClassifiedToken → List Text
  | offset, [] => [source.slice offset source.size]
  | offset, t :: rest => source.slice offset t.start.offset :: gapsFrom source t.stopOffset rest

/-- Tokens cover a text: in order and apart, each the text at its offset and in the line and column
of its offset, with nothing but white space left over. -/
structure Script.Covers (source : Text) (tokens : List ClassifiedToken) : Prop where
  increasing : tokens.Pairwise fun t u => t.start.offset < u.start.offset
  apart : tokens.Pairwise fun t u => t.stopOffset ≤ u.start.offset
  exact : ∀ t ∈ tokens, source.slice t.start.offset t.stopOffset = t.text
  spaces : ∀ gap ∈ source.gapsFrom 0 tokens, gap.IsSpace
  located : ∀ t ∈ tokens, t.start.toLocation = .after (source.takeUnits t.start.offset)

namespace Tiles

variable {front behind : Text} {tokens : List ClassifiedToken}

/-- Every token has a text in front of it and one behind it. -/
theorem exists_front (h : Tiles front tokens behind) {t : ClassifiedToken} (ht : t ∈ tokens) :
    ∃ before after, front ++ behind = before ++ t.text ++ after ∧ t.text ≠ [] ∧
      t.start = .advance .start before ∧ front.size ≤ before.size := by
  induction h with
  | nil => exact absurd ht List.not_mem_nil
  | @cons front gap behind u rest _ hne hstart _ ih =>
    rcases List.mem_cons.mp ht with rfl | ht
    · refine ⟨front ++ gap, behind, ?_, hne, hstart, ?_⟩
      · simp only [List.append_assoc]
      · rw [Text.size_append]
        exact Nat.le_add_right _ _
    · obtain ⟨before, after, hsource, hmore⟩ := ih ht
      refine ⟨before, after, ?_, hmore.1, hmore.2.1, Nat.le_trans ?_ hmore.2.2⟩
      · rw [← hsource]
        simp only [List.append_assoc]
      · rw [List.append_assoc, Text.size_append]
        exact Nat.le_add_right _ _

theorem apart (h : Tiles front tokens behind) :
    tokens.Pairwise fun t u => t.stopOffset ≤ u.start.offset := by
  induction h with
  | nil => exact .nil
  | @cons front gap behind t rest _ _ hstart hrest ih =>
    refine .cons (fun u hu => ?_) ih
    obtain ⟨before, -, -, -, hbefore, hsize⟩ := hrest.exists_front hu
    rw [ClassifiedToken.stopOffset, hstart, hbefore, Position.advance_start_offset,
      Position.advance_start_offset, ← Text.size_append]
    exact hsize

theorem spaces (h : Tiles front tokens behind) :
    ∀ gap ∈ (front ++ behind).gapsFrom front.size tokens, gap.IsSpace := by
  induction h with
  | @nil front gap hgap =>
    intro left hleft
    have hcut := Text.slice_append front gap []
    rw [List.append_nil, ← Text.size_append] at hcut
    rw [List.mem_singleton.mp hleft, hcut]
    exact hgap
  | @cons front gap behind t rest hgap _ hstart _ ih =>
    intro left hleft
    have hoffset : t.start.offset = front.size + gap.size := by
      rw [hstart, Position.advance_start_offset, Text.size_append]
    have hstop : t.stopOffset = (front ++ gap ++ t.text).size := by
      rw [ClassifiedToken.stopOffset, hoffset, Text.size_append, Text.size_append]
    rcases List.mem_cons.mp hleft with rfl | hleft
    · rw [hoffset, ← List.append_assoc, ← List.append_assoc, List.append_assoc (front ++ gap),
        Text.slice_append]
      exact hgap
    · rw [hstop] at hleft
      refine ih left ?_
      simpa only [List.append_assoc] using hleft

/-- Tokens that tile a text cover it. -/
theorem covers {source : Text} (h : Tiles [] tokens source) : Script.Covers source tokens where
  increasing := by
    refine h.apart.imp_of_mem fun {t u} ht _ hstop => Nat.lt_of_lt_of_le ?_ hstop
    obtain ⟨before, after, -, hne, -⟩ := h.exists_front ht
    exact Nat.lt_add_of_pos_right (Text.size_pos hne)
  apart := h.apart
  exact t ht := by
    obtain ⟨before, after, hsource, -, hstart, -⟩ := h.exists_front ht
    rw [List.nil_append] at hsource
    rw [ClassifiedToken.stopOffset, hstart, Position.advance_start_offset, hsource,
      Text.slice_append]
  spaces := h.spaces
  located t ht := by
    obtain ⟨before, after, hsource, -, hstart, -⟩ := h.exists_front ht
    rw [List.nil_append, List.append_assoc] at hsource
    rw [hstart, Position.advance_start_offset, hsource, Text.takeUnits_size_append,
      Position.advance_start]

end Tiles

/-- The stream of tokens tiles its source. -/
theorem Script.parse_tiles {source : Text} {script : Script} (h : parse source = .ok script) :
    Tiles [] script.tokens source := by
  obtain ⟨hknown, items, -, rfl⟩ := parse_eq_ok_iff.mp h
  obtain ⟨pieces, rfl, hlexes, hscan⟩ := Token.exists_pieces hknown
  have htiles := @Tiles.of_lexes (items.flatMap (·.marks)) [] pieces hlexes
  rwa [Piece.textOf_nil, Piece.stop, ← hscan] at htiles

/-- **The stream of tokens covers its source**: no token is lost, none overlaps another and none is
misplaced, whatever its line breaks are. -/
theorem Script.parse_covers {source : Text} {script : Script} (h : parse source = .ok script) :
    Covers source script.tokens :=
  (parse_tiles h).covers

/-- Comments, a string over two lines, a continued line and a lone carriage return. -/
def mixedSource : Text :=
  "# head\rFile f \x7b <# in\r\nside #> A = 'x\ny' ; B = `\n\t2 \x7d\r\n"

theorem Script.parse_covers_mixed : ∃ script, parse mixedSource = .ok script ∧
    script.tokens.length = 13 ∧ Covers mixedSource script.tokens := by
  have hlength : (parse mixedSource).toOption.map (·.tokens.length) = some 13 := by decide +kernel
  cases h : parse mixedSource with
  | error e =>
    rw [h] at hlength
    cases hlength
  | ok script =>
    rw [h] at hlength
    exact ⟨script, rfl, Option.some.inj hlength, parse_covers h⟩

end DesiredState

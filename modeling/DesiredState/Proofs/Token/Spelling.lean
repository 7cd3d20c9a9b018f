/-
What a source is made of.

A source that has been read falls into pieces, each a kind with its text; and from
pieces that fit what follows them, reading gives the tokens back.  The two directions
are what lets a text be written piece by piece and then be known token by token.

White space is the exception that makes this usable.  What is written puts blanks next
to each other where reading sees one run of them, so a piece of blanks fits anywhere,
and tokens are compared with the blank ones left out.
-/
import DesiredState.Proofs.Places
import DesiredState.Proofs.Token.Progress
import DesiredState.Script.Parse

namespace DesiredState

/-- A kind and a text of it, without a place. -/
structure Piece where
  kind : TokenKind
  text : Text
  deriving DecidableEq, Repr

namespace Piece

/-- The text that pieces make. -/
def textOf (pieces : List Piece) : Text := pieces.flatMap (·.text)

/-- The tokens that pieces make from a place on. -/
def place : Position → List Piece → List Token
  | _, [] => []
  | start, piece :: rest =>
    ⟨piece.kind, piece.text, start⟩ :: place (start.advance piece.text) rest

/-- Where pieces end. -/
def stop : Position → List Piece → Position
  | start, [] => start
  | start, piece :: rest => stop (start.advance piece.text) rest

/-- A piece of blanks that does not end between a carriage return and its line feed. -/
structure IsGap (piece : Piece) (after : Text) : Prop where
  kind : piece.kind = .blank
  blank : Pattern.skipBlanks piece.text = []
  keeps : piece.text.KeepsBreaks after

/-- A piece is what reading takes from it and the text after it. -/
def IsNext (piece : Piece) (after : Text) : Prop :=
  Token.next? (piece.text ++ after) = some (piece.kind, after)

/-- Pieces that reading takes one by one from their text and the text after it. -/
def Spells : List Piece → Text → Prop
  | [], _ => True
  | piece :: rest, after =>
    (piece.IsGap (textOf rest ++ after) ∨ piece.IsNext (textOf rest ++ after)) ∧ Spells rest after

/-- Pieces as reading finds them, blanks included. -/
def Lexes : List Piece → Text → Prop
  | [], _ => True
  | piece :: rest, after => piece.IsNext (textOf rest ++ after) ∧ Lexes rest after

@[simp] theorem textOf_nil : textOf [] = [] := rfl

@[simp] theorem textOf_cons (piece : Piece) (rest : List Piece) :
    textOf (piece :: rest) = piece.text ++ textOf rest := List.flatMap_cons

@[simp] theorem textOf_append (first second : List Piece) :
    textOf (first ++ second) = textOf first ++ textOf second := List.flatMap_append

@[simp] theorem place_nil (start : Position) : place start [] = [] := rfl

theorem place_append (start : Position) (first second : List Piece) :
    place start (first ++ second) = place start first ++ place (stop start first) second := by
  induction first generalizing start with
  | nil => rfl
  | cons piece rest ih =>
    rw [List.cons_append, place, ih]
    rfl

theorem stop_append (start : Position) (first second : List Piece) :
    stop start (first ++ second) = stop (stop start first) second := by
  induction first generalizing start with
  | nil => rfl
  | cons piece rest ih => exact ih _

theorem stop_offset (start : Position) (pieces : List Piece) :
    (stop start pieces).offset = start.offset + (textOf pieces).size := by
  induction pieces generalizing start with
  | nil => simp [stop]
  | cons piece rest ih =>
    rw [stop, ih, Position.advance_offset, textOf_cons, Text.size_append]
    omega

theorem line_le_stop (start : Position) (pieces : List Piece) :
    start.line ≤ (stop start pieces).line := by
  induction pieces generalizing start with
  | nil => exact Nat.le_refl _
  | cons piece rest ih => exact Nat.le_trans (Position.line_le_advance start piece.text) (ih _)

theorem offset_le_stop (start : Position) (pieces : List Piece) :
    start.offset ≤ (stop start pieces).offset := by
  rw [stop_offset]
  exact Nat.le_add_right _ _

theorem offset_le_stop_append (start : Position) (first second : List Piece) :
    (stop start first).offset ≤ (stop start (first ++ second)).offset := by
  rw [stop_append]
  exact offset_le_stop _ _

theorem spells_append (first second : List Piece) (after : Text) :
    Spells (first ++ second) after ↔
      Spells first (textOf second ++ after) ∧ Spells second after := by
  induction first with
  | nil => simp [Spells]
  | cons piece rest ih =>
    rw [List.cons_append, Spells, Spells, ih, textOf_append, List.append_assoc]
    exact and_assoc.symm

theorem lexes_append (first second : List Piece) (after : Text) :
    Lexes (first ++ second) after ↔
      Lexes first (textOf second ++ after) ∧ Lexes second after := by
  induction first with
  | nil => simp [Lexes]
  | cons piece rest ih =>
    rw [List.cons_append, Lexes, Lexes, ih, textOf_append, List.append_assoc]
    exact and_assoc.symm

theorem Lexes.spells {pieces : List Piece} {after : Text} (h : Lexes pieces after) :
    Spells pieces after := by
  induction pieces with
  | nil => trivial
  | cons piece rest ih => exact ⟨Or.inr h.1, ih h.2⟩

/-- What is read piece by piece holds nothing unknown. -/
theorem unknowns_place {pieces : List Piece} {after : Text} (h : Spells pieces after)
    (start : Position) : Token.unknowns (place start pieces) = [] := by
  induction pieces generalizing start with
  | nil => rfl
  | cons piece rest ih =>
    obtain ⟨hpiece, hrest⟩ := h
    have hk : piece.kind ≠ .unknown := by
      rcases hpiece with ⟨hgap, -⟩ | hnext
      · rw [hgap]
        intro h
        cases h
      · exact Token.next?_ne_unknown hnext
    unfold Token.unknowns at ih ⊢
    rw [place, List.filter_cons, if_neg, ih hrest]
    exact fun h => hk (beq_iff_eq.mp h)

/-- A piece that is read is not empty. -/
theorem IsNext.text_ne_nil {piece : Piece} {after : Text} (h : piece.IsNext after) :
    piece.text ≠ [] := by
  intro he
  have := (Token.next?_takes h).2.2
  rw [he] at this
  exact Nat.lt_irrefl _ this

end Piece

namespace Pattern

/-- Blanks that are blanks by themselves are skipped before anything. -/
theorem skipBlanks_append {blank : Text} (h : skipBlanks blank = []) (t : Text) :
    skipBlanks (blank ++ t) = skipBlanks t := by
  fun_induction skipBlanks blank with
  | case1 rest ih | case2 rest ih | case3 rest ih | case4 rest ih =>
    rw [List.cons_append, skipBlanks, ih h]
  | case5 rest ih => rw [List.cons_append, List.cons_append, skipBlanks, ih h]
  | case6 rest ih =>
    rw [List.cons_append, List.cons_append, List.cons_append, skipBlanks, ih h]
  | case7 => rw [h, List.nil_append]

end Pattern

/-- The grammar sees names. -/
theorem TokenKind.isSignificant_of_isName {kind : TokenKind} (h : kind.isName) :
    kind.isSignificant := by
  cases kind <;> first | rfl | cases h

/-- The grammar sees no comments. -/
theorem TokenKind.isSignificant_eq_false {kind : TokenKind} (h : kind.isComment) :
    kind.isSignificant = false := by
  cases kind <;> first | rfl | cases h

/-- The grammar sees what is neither blank nor a comment and can be read. -/
theorem TokenKind.isSignificant_of_ne {kind : TokenKind} (hblank : kind ≠ .blank)
    (hcomment : kind.isComment = false) (hunknown : kind ≠ .unknown) : kind.isSignificant := by
  cases kind <;> first
    | rfl
    | exact absurd rfl hblank
    | exact absurd rfl hunknown
    | cases hcomment

namespace Token

/-- The tokens that are not blank. -/
def visible (tokens : List Token) : List Token := tokens.filter (·.kind != .blank)

@[simp] theorem visible_nil : visible [] = [] := rfl

theorem visible_append (first second : List Token) :
    visible (first ++ second) = visible first ++ visible second := List.filter_append ..

theorem visible_cons_blank {t : Token} (h : t.kind = .blank) (rest : List Token) :
    visible (t :: rest) = visible rest := by
  simp [visible, h]

theorem visible_cons {t : Token} (h : t.kind ≠ .blank) (rest : List Token) :
    visible (t :: rest) = t :: visible rest := by
  simp [visible, h]

theorem visible_cons_congr {first second : List Token} (t : Token)
    (h : visible first = visible second) : visible (t :: first) = visible (t :: second) := by
  rw [← List.singleton_append, visible_append, h, ← visible_append, List.singleton_append]

/-- What the grammar sees is visible. -/
theorem significant_visible (tokens : List Token) :
    significant (visible tokens) = significant tokens := by
  unfold significant visible
  rw [List.filter_filter]
  refine List.filter_congr ?_
  intro t _
  cases t.kind <;> rfl

theorem unknowns_visible (tokens : List Token) : unknowns (visible tokens) = unknowns tokens := by
  unfold unknowns visible
  rw [List.filter_filter]
  refine List.filter_congr ?_
  intro t _
  cases t.kind <;> rfl

/-! ### Blanks in front -/

theorem skipBlanks_of_blanks {t rest : Text} (h : Pattern.blanks t = some rest) :
    Pattern.skipBlanks t = rest := by
  unfold Pattern.blanks at h
  split at h
  all_goals first
    | (rw [Option.some.injEq] at h; rw [← h, Pattern.skipBlanks])
    | simp at h

theorem skipBlanks_of_blanks_eq_none {t : Text} (h : Pattern.blanks t = none) :
    Pattern.skipBlanks t = t := by
  unfold Pattern.blanks at h
  split at h
  all_goals first
    | exact absurd h (Option.some_ne_none _)
    | (rw [Pattern.skipBlanks] <;> assumption)

/-- What is read as another kind does not start with a blank. -/
theorem blanks_eq_none {t rest : Text} {kind : TokenKind} (h : next? t = some (kind, rest))
    (hk : kind ≠ .blank) : Pattern.blanks t = none := by
  cases hb : Pattern.blanks t with
  | none => rfl
  | some after =>
    have : next? t = some (.blank, after) := by
      simp [next?, TokenKind.order, TokenKind.recognise, hb]
    rw [this] at h
    exact absurd (congrArg Prod.fst (Option.some.inj h)).symm hk

theorem blanks_of_next? {t rest : Text} (h : next? t = some (.blank, rest)) :
    Pattern.blanks t = some rest := by
  cases hb : Pattern.blanks t with
  | none =>
    obtain ⟨k, hk, hm⟩ := List.exists_of_findSome?_eq_some h
    obtain ⟨r, hr, he⟩ := Option.map_eq_some_iff.mp hm
    obtain ⟨rfl, rfl⟩ := Prod.mk.injEq .. ▸ he
    exact absurd hr (by simp [TokenKind.recognise, hb])
  | some after =>
    have : next? t = some (.blank, after) := by
      simp [next?, TokenKind.order, TokenKind.recognise, hb]
    rw [this] at h
    exact congrArg some (congrArg Prod.snd (Option.some.inj h))

/-- What is skipped at the start of a text is a blank token. -/
theorem next?_skipBlanks {t : Text} (h : Pattern.skipBlanks t ≠ t) :
    next? t = some (.blank, Pattern.skipBlanks t) := by
  cases hb : Pattern.blanks t with
  | none => exact absurd (skipBlanks_of_blanks_eq_none hb) h
  | some rest =>
    rw [skipBlanks_of_blanks hb, next?, TokenKind.order, List.findSome?_cons]
    simp only [TokenKind.recognise, hb, Option.map_some]

/-- Blanks by themselves are read together with those that follow. -/
theorem next?_blank {blank : Text} (h : Pattern.skipBlanks blank = []) (hne : blank ≠ [])
    (t : Text) : next? (blank ++ t) = some (.blank, Pattern.skipBlanks t) := by
  have hskip := Pattern.skipBlanks_append h t
  have hnext := next?_skipBlanks (t := blank ++ t) ?_
  · rwa [hskip] at hnext
  · rw [hskip]
    intro heq
    have hlength := (Pattern.skipBlanks_suffix t).length_le
    have hpos := List.length_pos_iff.mpr hne
    rw [heq, List.length_append] at hlength
    omega

/-! ### From pieces to tokens

Blanks that stand side by side are read as one.  Pieces may have them apart, so that it
is the tokens other than blanks that are the same.
-/

/-- One step of reading. -/
theorem scanFrom_succ {w rest : Text} {kind : TokenKind} (steps : Nat) (start : Position)
    (h : next? (w ++ rest) = some (kind, rest)) :
    scanFrom (steps + 1) start (w ++ rest) =
      ⟨kind, w, start⟩ :: scanFrom steps (start.advance w) rest := by
  obtain ⟨-, -, hlt⟩ := next?_takes h
  cases ht : w ++ rest with
  | nil => rw [ht] at hlt; exact absurd hlt (Nat.not_lt_zero _)
  | cons c t =>
    have hlen : t.length + 1 = w.length + rest.length := by
      rw [← List.length_append, ht, List.length_cons]
    rw [ht] at h
    have htake : (c :: t).take (t.length + 1 - rest.length) = w := by
      rw [hlen, Nat.add_sub_cancel, ← ht, List.take_left]
    simp only [scanFrom, nextPiece, h, Option.getD_some, htake]

/-- With enough steps there is a first one. -/
theorem scanFrom_next {steps : Nat} {w rest : Text} {kind : TokenKind} (start : Position)
    (h : next? (w ++ rest) = some (kind, rest)) (hs : (w ++ rest).length ≤ steps) :
    ∃ fewer, rest.length ≤ fewer ∧
      scanFrom steps start (w ++ rest) =
        ⟨kind, w, start⟩ :: scanFrom fewer (start.advance w) rest := by
  obtain ⟨-, -, hlt⟩ := next?_takes h
  obtain ⟨fewer, rfl⟩ := Nat.exists_eq_add_of_lt (Nat.lt_of_lt_of_le hlt hs)
  refine ⟨rest.length + fewer, Nat.le_add_right _ _, ?_⟩
  exact scanFrom_succ _ start h

/-- Reading the text of pieces gives their tokens.  The second half is for a source that is
entered in the middle of a run of blanks, as happens after a piece of spaces. -/
theorem visible_scanFrom {pieces : List Piece} (h : Piece.Spells pieces []) (start : Position) :
    (∀ steps, (Piece.textOf pieces).length ≤ steps →
      visible (scanFrom steps start (Piece.textOf pieces)) = visible (Piece.place start pieces)) ∧
    (∀ steps skipped, Piece.textOf pieces = skipped ++ Pattern.skipBlanks (Piece.textOf pieces) →
      (Pattern.skipBlanks (Piece.textOf pieces)).length ≤ steps →
      visible (scanFrom steps (start.advance skipped)
          (Pattern.skipBlanks (Piece.textOf pieces))) =
        visible (Piece.place start pieces)) := by
  induction pieces generalizing start with
  | nil =>
    refine ⟨?_, ?_⟩
    · intro steps _
      cases steps <;> simp [scanFrom]
    · intro steps skipped _ _
      cases steps <;> simp [scanFrom, Pattern.skipBlanks]
  | cons piece rest ih =>
    obtain ⟨hp, hrest⟩ := h
    obtain ⟨ihfirst, ihskipped⟩ := ih hrest (start.advance piece.text)
    rw [List.append_nil] at hp
    rw [Piece.textOf_cons, Piece.place]
    obtain ⟨blanks, hblanks⟩ := Pattern.skipBlanks_suffix (Piece.textOf rest)
    rcases hp with ⟨hk, hgap, hkeeps⟩ | hnext
    · rw [visible_cons_blank hk, Pattern.skipBlanks_append hgap]
      rw [← hblanks] at hkeeps
      refine ⟨?_, ?_⟩
      · intro steps hs
        by_cases ht : piece.text = []
        · rw [ht] at ihfirst hs
          rw [ht]
          exact ihfirst steps hs
        · have hsplit : piece.text ++ Piece.textOf rest =
              (piece.text ++ blanks) ++ Pattern.skipBlanks (Piece.textOf rest) := by
            rw [List.append_assoc, hblanks]
          have hn := next?_blank hgap ht (Piece.textOf rest)
          rw [hsplit] at hn hs ⊢
          obtain ⟨fewer, hf, hscan⟩ := scanFrom_next start hn hs
          rw [hscan, visible_cons_blank rfl, Position.advance_append start hkeeps.left]
          exact ihskipped fewer blanks hblanks.symm hf
      · intro steps skipped hsplit hs
        have hskipped : piece.text ++ blanks = skipped := by
          refine List.append_cancel_right (?_ : _ ++ Pattern.skipBlanks (Piece.textOf rest) = _)
          rw [List.append_assoc, hblanks]
          exact hsplit
        rw [← hskipped, Position.advance_append start hkeeps.left]
        exact ihskipped steps blanks hblanks.symm hs
    · have hfirst : ∀ steps, (piece.text ++ Piece.textOf rest).length ≤ steps →
          visible (scanFrom steps start (piece.text ++ Piece.textOf rest)) =
            visible (⟨piece.kind, piece.text, start⟩ ::
              Piece.place (start.advance piece.text) rest) := by
        intro steps hs
        obtain ⟨fewer, hf, hscan⟩ := scanFrom_next start hnext hs
        rw [hscan]
        exact visible_cons_congr _ (ihfirst fewer hf)
      refine ⟨hfirst, ?_⟩
      intro steps skipped hsplit hs
      by_cases hk : piece.kind = .blank
      · have hb : next? (piece.text ++ Piece.textOf rest) = some (.blank, Piece.textOf rest) :=
          hk ▸ hnext
        rw [skipBlanks_of_blanks (blanks_of_next? hb)] at hsplit hs ⊢
        rw [visible_cons_blank hk, ← List.append_cancel_right hsplit]
        exact ihfirst steps hs
      · rw [skipBlanks_of_blanks_eq_none (blanks_eq_none hnext hk)] at hsplit hs ⊢
        rw [List.self_eq_append_left.mp hsplit]
        exact hfirst steps hs

/-- A source without unknown tokens falls into pieces. -/
theorem exists_pieces_of_scanFrom (steps : Nat) (start : Position) (t : Text)
    (hs : t.length ≤ steps) (h : unknowns (scanFrom steps start t) = []) :
    ∃ pieces, Piece.textOf pieces = t ∧ Piece.Lexes pieces [] ∧
      scanFrom steps start t = Piece.place start pieces := by
  induction steps generalizing start t with
  | zero =>
    rw [List.eq_nil_of_length_eq_zero (Nat.le_zero.mp hs)]
    exact ⟨[], rfl, trivial, rfl⟩
  | succ steps ih =>
    cases t with
    | nil => exact ⟨[], rfl, trivial, rfl⟩
    | cons c t =>
      cases hn : next? (c :: t) with
      | none => simp [scanFrom, nextPiece, hn, unknowns] at h
      | some found =>
        obtain ⟨kind, rest⟩ := found
        obtain ⟨-, ⟨w, hw⟩, hlt⟩ := next?_takes hn
        rw [← hw] at hs hn h hlt ⊢
        rw [scanFrom_succ steps start hn] at h ⊢
        have hrest : unknowns (scanFrom steps (start.advance w) rest) = [] := by
          unfold unknowns at h ⊢
          exact (List.filter_eq_nil_iff.mpr fun t ht =>
            List.filter_eq_nil_iff.mp h t (List.mem_cons_of_mem _ ht))
        obtain ⟨pieces, htext, hlexes, hscan⟩ := ih _ rest (by omega) hrest
        refine ⟨⟨kind, w⟩ :: pieces, ?_, ⟨?_, hlexes⟩, ?_⟩
        · rw [Piece.textOf_cons, htext]
        · rw [htext, List.append_nil]
          exact hn
        · rw [hscan]
          rfl

theorem exists_pieces {source : Text} (h : unknowns (scan source) = []) :
    ∃ pieces, Piece.textOf pieces = source ∧ Piece.Lexes pieces [] ∧
      scan source = Piece.place .start pieces :=
  exists_pieces_of_scanFrom source.length .start source (Nat.le_refl _) h

/-- Tokens have a text. -/
theorem text_ne_nil_of_scan {source : Text} (h : unknowns (scan source) = []) {t : Token}
    (ht : t ∈ scan source) : t.text ≠ [] := by
  obtain ⟨pieces, -, hlexes, hscan⟩ := exists_pieces h
  rw [hscan] at ht
  clear hscan h
  generalize Position.start = start at ht
  induction pieces generalizing start with
  | nil => cases ht
  | cons piece rest ih =>
    rcases List.mem_cons.mp ht with rfl | ht
    · exact hlexes.1.text_ne_nil
    · exact ih hlexes.2 _ ht

/-- **Reading the text of pieces gives their tokens**, blank ones aside. -/
theorem visible_scan {pieces : List Piece} (h : Piece.Spells pieces []) :
    visible (scan (Piece.textOf pieces)) = visible (Piece.place .start pieces) :=
  (visible_scanFrom h .start).1 _ (Nat.le_refl _)

end Token

/-- Blank tokens are not in the stream. -/
theorem Script.streamOf_visible (marks : List Mark) (ts : List Token) :
    Script.streamOf marks (Token.visible ts) = Script.streamOf marks ts := by
  unfold Script.streamOf Token.visible
  rw [List.filter_filter]
  refine congrArg _ (List.filter_congr ?_)
  intro t _
  cases t.kind <;> rfl

end DesiredState

/-
How tokens end.

Lines are counted token by token, so a carriage return and its line feed count as one
line break only if they stand in one token.  They always do: no kind of token but
white space ends in a carriage return, and white space is read to its end.  Most kinds
hold no carriage return at all, and those that can hold any text end in a closing mark.
-/
import DesiredState.Proofs.Places
import DesiredState.Proofs.Token.Relocation

namespace DesiredState

/-- No carriage return is taken. -/
def Recogniser.Avoids (r : Recogniser) : Prop :=
  ∀ t rest, r t = some rest → ∃ token, t = token ++ rest ∧ '\r' ∉ token

namespace Pattern

theorem one_avoids {p : Char → Bool} (hp : p '\r' = false) : Recogniser.Avoids (one p) := by
  intro t rest h
  cases t with
  | nil => cases h
  | cons c t =>
    simp only [one, Option.ite_none_right_eq_some, Option.some.injEq] at h
    obtain ⟨hc, rfl⟩ := h
    refine ⟨[c], rfl, fun hr => ?_⟩
    rw [← List.mem_singleton.mp hr, hp] at hc
    exact absurd hc Bool.false_ne_true

theorem dropWhile_avoids {p : Char → Bool} (hp : p '\r' = false) (t : Text) :
    ∃ token, t = token ++ t.dropWhile p ∧ '\r' ∉ token := by
  refine ⟨t.takeWhile p, List.takeWhile_append_dropWhile.symm, fun hr => ?_⟩
  have := List.all_takeWhile (p := p) (l := t)
  rw [List.all_eq_true] at this
  rw [this _ hr] at hp
  exact absurd hp (by decide)

/-- A first character, and then a part that takes no carriage return. -/
theorem avoids_cons {c : Char} {t rest : Text} (hc : c ≠ '\r')
    (h : ∃ token, t = token ++ rest ∧ '\r' ∉ token) :
    ∃ token, c :: t = token ++ rest ∧ '\r' ∉ token := by
  obtain ⟨token, rfl, htoken⟩ := h
  exact ⟨c :: token, rfl, List.not_mem_cons_of_ne_of_not_mem (Ne.symm hc) htoken⟩

/-- Two parts after one another. -/
theorem avoids_trans {t middle rest : Text} (hf : ∃ token, t = token ++ middle ∧ '\r' ∉ token)
    (hs : ∃ token, middle = token ++ rest ∧ '\r' ∉ token) :
    ∃ token, t = token ++ rest ∧ '\r' ∉ token := by
  obtain ⟨first, rfl, hfirst⟩ := hf
  obtain ⟨second, rfl, hsecond⟩ := hs
  refine ⟨first ++ second, (List.append_assoc ..).symm, fun hr => ?_⟩
  exact (List.mem_append.mp hr).elim hfirst hsecond

theorem ne_return {p : Char → Bool} (hp : p '\r' = false) {c : Char} (hc : p c) : c ≠ '\r' := by
  rintro rfl
  rw [hp] at hc
  exact absurd hc Bool.false_ne_true

theorem some1_avoids {p : Char → Bool} (hp : p '\r' = false) : Recogniser.Avoids (some1 p) := by
  intro t rest h
  cases t with
  | nil => cases h
  | cons c t =>
    simp only [some1, Option.ite_none_right_eq_some, Option.some.injEq] at h
    obtain ⟨hc, rfl⟩ := h
    exact avoids_cons (ne_return hp hc) (dropWhile_avoids hp t)

theorem word_avoids {p : Char → Bool} (hp : p '\r' = false) : Recogniser.Avoids (word p) := by
  intro t rest h
  cases t with
  | nil => cases h
  | cons c t =>
    simp only [word, Option.ite_none_right_eq_some, Option.some.injEq] at h
    obtain ⟨hc, rfl⟩ := h
    exact avoids_cons (ne_return (p := isWordStart) rfl hc) (dropWhile_avoids hp t)

theorem mark_avoids {m : Text} (hm : '\r' ∉ m) : Recogniser.Avoids (mark m) := fun _ _ h =>
  ⟨m, Text.eq_append_of_dropHead? h, hm⟩

theorem optional_avoids {r : Recogniser} (hr : Recogniser.Avoids r) (t : Text) :
    ∃ token, t = token ++ optional r t ∧ '\r' ∉ token := by
  cases h : r t with
  | none => exact ⟨[], by rw [optional, h]; rfl, List.not_mem_nil⟩
  | some rest =>
    rw [optional, h]
    exact hr t rest h

theorem repeated_avoids {r : Recogniser} (hr : Recogniser.Avoids r) (n : Nat) (t : Text) :
    ∃ token, t = token ++ repeated r n t ∧ '\r' ∉ token := by
  induction n generalizing t with
  | zero => exact ⟨[], rfl, List.not_mem_nil⟩
  | succ n ih =>
    rw [repeated]
    split
    · next rest h => exact avoids_trans (hr t rest h) (ih rest)
    · exact ⟨[], rfl, List.not_mem_nil⟩

/-- A part, and then one that is given by what the first one leaves. -/
theorem map_avoids {r : Recogniser} (hr : Recogniser.Avoids r) {f : Text → Text}
    (hf : ∀ t, ∃ token, t = token ++ f t ∧ '\r' ∉ token) :
    Recogniser.Avoids fun t => (r t).map f := by
  intro t rest h
  obtain ⟨middle, hmiddle, rfl⟩ := Option.map_eq_some_iff.mp h
  exact avoids_trans (hr t middle hmiddle) (hf middle)

theorem bind_avoids {r s : Recogniser} (hr : Recogniser.Avoids r) (hs : Recogniser.Avoids s) :
    Recogniser.Avoids fun t => (r t).bind s := by
  intro t rest h
  obtain ⟨middle, hmiddle, hrest⟩ := Option.bind_eq_some_iff.mp h
  exact avoids_trans (hr t middle hmiddle) (hs middle rest hrest)

/-- A first character, and then what another recogniser takes. -/
theorem afterChar_avoids {r r' : Recogniser} (hr : Recogniser.Avoids r) {c : Char} (hc : c ≠ '\r')
    (hcons : ∀ t, r' (c :: t) = r t) (hother : ∀ d t, d ≠ c → r' (d :: t) = none)
    (hnil : r' [] = none) : Recogniser.Avoids r' := by
  intro t rest h
  cases t with
  | nil => rw [hnil] at h; cases h
  | cons d t =>
    by_cases hd : d = c
    · rw [hd, hcons] at h
      rw [hd]
      exact avoids_cons hc (hr t rest h)
    · rw [hother d t hd] at h
      cases h

/-! ### Kinds that hold no carriage return

Most kinds are runs of characters of a class that has no line break in it.  Of these
nothing more is asked.
-/

theorem lineComment_avoids : Recogniser.Avoids lineComment := by
  intro t rest h
  unfold lineComment at h
  split at h
  · cases h
    exact avoids_cons (by decide) (dropWhile_avoids rfl _)
  · cases h

theorem fraction_avoids : Recogniser.Avoids fraction :=
  afterChar_avoids (some1_avoids (p := Char.isDigit) rfl) (c := '.') (by decide) (fun _ => rfl)
    (fun _ t h => fraction_cons_of_ne t h) rfl

theorem qualifier_avoids : Recogniser.Avoids qualifier :=
  afterChar_avoids (some1_avoids (p := isWord) rfl) (c := ':') (by decide) (fun _ => rfl)
    (fun _ t h => qualifier_cons_of_ne t h) rfl

theorem exponent_avoids : Recogniser.Avoids exponent := by
  intro t rest h
  cases t with
  | nil => cases h
  | cons c t =>
    simp only [exponent, Option.ite_none_right_eq_some] at h
    obtain ⟨hc, hrest⟩ := h
    refine avoids_cons (by rcases hc with rfl | rfl <;> decide) ?_
    exact avoids_trans (optional_avoids (one_avoids rfl) t) (some1_avoids rfl _ _ hrest)

theorem multiple_avoids : Recogniser.Avoids multiple := by
  intro t rest h
  unfold multiple at h
  split at h
  · next u b t =>
    rw [Option.ite_none_right_eq_some] at h
    obtain ⟨⟨hu, hb⟩, hrest⟩ := h
    cases hrest
    refine ⟨[u, b], rfl, fun hr => ?_⟩
    rcases List.mem_cons.mp hr with rfl | hr
    · exact absurd hu (by decide)
    · rw [← List.mem_singleton.mp hr] at hb
      exact absurd hb (by decide)
  · cases h

theorem hexadecimal_avoids : Recogniser.Avoids hexadecimal := by
  intro t rest h
  unfold hexadecimal at h
  split at h
  · next x t =>
    rw [Option.ite_none_right_eq_some] at h
    obtain ⟨hx, hrest⟩ := h
    refine avoids_cons (by decide) (avoids_cons (by rcases hx with rfl | rfl <;> decide) ?_)
    exact some1_avoids rfl _ _ hrest
  · cases h

theorem decimal_avoids : Recogniser.Avoids decimal :=
  map_avoids (some1_avoids (p := Char.isDigit) rfl) fun t =>
    avoids_trans (repeated_avoids fraction_avoids t.length t) (optional_avoids exponent_avoids _)

theorem number_avoids : Recogniser.Avoids number := by
  intro t rest h
  unfold number at h
  obtain ⟨middle, hmiddle, rfl⟩ := Option.map_eq_some_iff.mp h
  refine avoids_trans (optional_avoids (one_avoids (p := (· == '-')) rfl) t) ?_
  refine avoids_trans ?_ (optional_avoids multiple_avoids middle)
  rcases Option.or_eq_some_iff.mp hmiddle with hhex | ⟨-, hdec⟩
  · exact hexadecimal_avoids _ _ hhex
  · exact decimal_avoids _ _ hdec

theorem splat_avoids : Recogniser.Avoids splat :=
  afterChar_avoids (word_avoids (p := isWord) rfl) (c := '@') (by decide) (fun _ => rfl)
    (fun _ t h => splat_cons_of_ne t h) rfl

theorem parameter_avoids : Recogniser.Avoids parameter :=
  afterChar_avoids
    (map_avoids (word_avoids (p := fun c => isWord c || c == '-') rfl)
      (optional_avoids (one_avoids (p := (· == ':')) rfl)))
    (c := '-') (by decide) (fun _ => rfl)
    (fun _ t h => parameter_cons_of_ne t h) rfl

theorem typeLiteral_avoids : Recogniser.Avoids typeLiteral := by
  refine afterChar_avoids (c := '[')
    (bind_avoids (word_avoids (p := fun c => isWord c || c == '.') rfl)
      (s := fun rest => one (· == ']') (optional (Text.dropHead? ['[', ']']) rest)) ?_)
    (by decide) (fun _ => rfl) (fun _ t h => typeLiteral_cons_of_ne t h) rfl
  intro t rest h
  exact avoids_trans (optional_avoids (mark_avoids (m := ['[', ']']) (by decide)) t)
    (one_avoids (p := (· == ']')) rfl _ _ h)

theorem operator_avoids : Recogniser.Avoids operator := one_avoids rfl

theorem keyword_avoids {w : Text} (hw : ∀ c ∈ w, c.isLower) : Recogniser.Avoids (keyword w) := by
  intro t rest h
  rw [keyword_eq hw, Option.ite_none_right_eq_some] at h
  obtain ⟨-, hrest⟩ := h
  cases hrest
  exact dropWhile_avoids rfl t

/-! ### Kinds that end in a mark

A string, a comment in marks and a name in braces may hold line breaks.  They end in
their mark, which is no carriage return.
-/

/-- What is taken ends in another character than a carriage return. -/
def Closes (t rest : Text) : Prop := ∃ token c, t = token ++ c :: rest ∧ c ≠ '\r'

theorem Closes.cons {t rest : Text} (c : Char) (h : Closes t rest) : Closes (c :: t) rest := by
  obtain ⟨token, d, rfl, hd⟩ := h
  exact ⟨c :: token, d, rfl, hd⟩

theorem Closes.of_suffix {s t rest : Text} (hs : s <:+ t) (h : Closes s rest) : Closes t rest := by
  obtain ⟨front, rfl⟩ := hs
  obtain ⟨token, d, rfl, hd⟩ := h
  exact ⟨front ++ token, d, (List.append_assoc ..).symm, hd⟩

theorem closeDouble_closes {t rest : Text} (h : closeDouble t = some rest) : Closes t rest := by
  fun_induction closeDouble t with
  | case1 => cases h
  | case2 => cases h
  | case3 c t ih => exact ((ih h).cons _).cons _
  | case4 t ih =>
    rcases Option.or_eq_some_iff.mp h with hlater | ⟨-, hhere⟩
    · exact ((ih hlater).cons _).cons _
    · cases hhere
      exact ⟨[], '"', rfl, by decide⟩
  | case5 t _ =>
    cases h
    exact ⟨[], '"', rfl, by decide⟩
  | case6 c t _ _ _ _ ih => exact (ih h).cons _

theorem closeSingle_closes {t rest : Text} (h : closeSingle t = some rest) : Closes t rest := by
  fun_induction closeSingle t with
  | case1 => cases h
  | case2 t ih =>
    rcases Option.or_eq_some_iff.mp h with hlater | ⟨-, hhere⟩
    · exact ((ih hlater).cons _).cons _
    · cases hhere
      exact ⟨[], '\'', rfl, by decide⟩
  | case3 t _ =>
    cases h
    exact ⟨[], '\'', rfl, by decide⟩
  | case4 c t _ _ ih => exact (ih h).cons _

theorem afterFirst?_closes {m t rest : Text} {c : Char} (hc : c ≠ '\r')
    (h : Text.afterFirst? (m ++ [c]) t = some rest) : Closes t rest := by
  induction t with
  | nil =>
    have := Text.eq_append_of_dropHead? h
    exact absurd this (by simp)
  | cons d t ih =>
    rw [Text.afterFirst?] at h
    cases hd : Text.dropHead? (m ++ [c]) (d :: t) with
    | none => rw [hd] at h; exact (ih h).cons d
    | some after =>
      rw [hd] at h
      cases h
      refine ⟨m, c, ?_, hc⟩
      rw [Text.eq_append_of_dropHead? hd, List.append_assoc]
      rfl

theorem hereString_closes {quote : Char} {t rest : Text} (h : hereString quote t = some rest) :
    Closes t rest := by
  unfold hereString at h
  split at h
  · next q t =>
    rw [Option.ite_none_right_eq_some] at h
    obtain ⟨body, hbody, hrest⟩ := Option.bind_eq_some_iff.mp h.2
    have hclose : Closes body rest := afterFirst?_closes (m := ['\n', quote]) (by decide) hrest
    have hsuffix := (lineBreak_suffix hbody).trans (dropWhile_suffix _ t)
    exact ((hclose.of_suffix hsuffix).cons q).cons _
  · cases h

theorem variableName_closes {t rest : Text} (h : variableName t = some rest) :
    Closes t rest ∨ ∃ token, t = token ++ rest ∧ '\r' ∉ token := by
  unfold variableName at h
  split at h
  · next t =>
    refine .inl (Closes.cons _ (Closes.cons _ (Closes.of_suffix
      (dropWhile_suffix (· != '\x7d') t) ?_)))
    cases hdrop : t.dropWhile (· != '\x7d') with
    | nil => rw [hdrop] at h; cases h
    | cons c more =>
      rw [hdrop] at h
      simp only [one, Option.ite_none_right_eq_some, Option.some.injEq, beq_iff_eq] at h
      obtain ⟨rfl, rfl⟩ := h
      exact ⟨[], _, rfl, by decide⟩
  · next c t _ =>
    refine .inr (avoids_cons (by decide) ?_)
    split at h
    · next hc =>
      cases h
      exact avoids_cons (ne_return (p := isWordStart) rfl hc)
        (avoids_trans (dropWhile_avoids (p := isWord) rfl t) (optional_avoids qualifier_avoids _))
    · split at h
      · next hc =>
        cases h
        exact avoids_cons (by rcases hc with rfl | rfl | rfl <;> decide)
          ⟨[], rfl, List.not_mem_nil⟩
      · cases h
  · cases h

end Pattern

/-- A token that is not white space ends in no carriage return. -/
theorem TokenKind.getLast?_ne_return {kind : TokenKind} {token behind : Text}
    (hk : kind ≠ .blank) (h : kind.recognise (token ++ behind) = some behind) :
    token.getLast? ≠ some '\r' := by
  have havoids (hr : Recogniser.Avoids kind.recognise) : token.getLast? ≠ some '\r' := by
    obtain ⟨taken, heq, htaken⟩ := hr _ _ h
    rw [List.append_cancel_right heq]
    exact fun hl => htaken (List.mem_of_getLast? hl)
  have hcloses (hc : Pattern.Closes (token ++ behind) behind) : token.getLast? ≠ some '\r' := by
    obtain ⟨taken, c, heq, hne⟩ := hc
    rw [← List.singleton_append, ← List.append_assoc] at heq
    rw [List.append_cancel_right heq, List.getLast?_concat]
    exact fun hl => hne (Option.some.inj hl)
  cases kind with
  | blank => exact absurd rfl hk
  | unknown => cases h
  | blockComment =>
    refine hcloses ?_
    simp only [recognise, Pattern.blockComment] at h
    split at h
    · next t heq =>
      rw [heq]
      exact ((Pattern.afterFirst?_closes (m := ['#']) (by decide) h).cons _).cons _
    · cases h
  | doubleQuoted =>
    refine hcloses ?_
    simp only [recognise, Pattern.doubleQuoted] at h
    split at h
    · next t heq => rw [heq]; exact (Pattern.closeDouble_closes h).cons _
    · cases h
  | singleQuoted =>
    refine hcloses ?_
    simp only [recognise, Pattern.singleQuoted] at h
    split at h
    · next t heq => rw [heq]; exact (Pattern.closeSingle_closes h).cons _
    · cases h
  | hereDouble | hereSingle => exact hcloses (Pattern.hereString_closes h)
  | variableName =>
    rcases Pattern.variableName_closes h with hc | ⟨taken, heq, htaken⟩
    · exact hcloses hc
    · rw [List.append_cancel_right heq]
      exact fun hl => htaken (List.mem_of_getLast? hl)
  | comment => exact havoids Pattern.lineComment_avoids
  | splat => exact havoids Pattern.splat_avoids
  | typeLiteral => exact havoids Pattern.typeLiteral_avoids
  | parameter => exact havoids Pattern.parameter_avoids
  | number => exact havoids Pattern.number_avoids
  | operator => exact havoids Pattern.operator_avoids
  | configuration | node | param =>
    exact havoids (Pattern.keyword_avoids (List.all_eq_true.mp rfl))
  | bareword => exact havoids (Pattern.word_avoids rfl)
  | _ => exact havoids (Pattern.mark_avoids (by decide))

namespace Piece

theorem IsNext.getLast?_ne_return {piece : Piece} {after : Text} (h : piece.IsNext after)
    (hk : piece.kind ≠ .blank) : piece.text.getLast? ≠ some '\r' := by
  obtain ⟨c, t, hc⟩ := List.exists_cons_of_ne_nil h.text_ne_nil
  have hnext := h
  rw [IsNext, hc, List.cons_append] at hnext
  have hrec := (Token.recognise_of_next? hnext).2
  rw [← List.cons_append, ← hc] at hrec
  exact TokenKind.getLast?_ne_return hk hrec

/-- A line break stands in one piece. -/
theorem keepsBreaks {piece : Piece} {rest : List Piece} (h : Lexes (piece :: rest) []) :
    Text.KeepsBreaks piece.text (textOf rest) := by
  intro hlast hfeed
  by_cases hk : piece.kind = .blank
  · cases rest with
    | nil => cases hfeed
    | cons next others =>
      obtain ⟨more, hmore⟩ := List.head?_eq_some_iff.mp hfeed
      have hblank := h.1
      have hnext := h.2.1
      rw [IsNext, List.append_nil, hk] at hblank
      rw [IsNext, List.append_nil, ← textOf_cons] at hnext
      exact absurd (Token.mayStart_behind_blank hblank hmore hnext) (by decide)
  · exact h.1.getLast?_ne_return hk hlast

/-- Where carriage returns are paired, a token and its line feed are not torn apart. -/
theorem getLast?_ne_return {pieces : List Piece} (h : Lexes pieces [])
    (hpaired : (textOf pieces).ReturnsPaired) :
    ∀ piece ∈ pieces, piece.text.getLast? ≠ some '\r' := by
  induction pieces with
  | nil => exact fun piece hp => absurd hp List.not_mem_nil
  | cons piece rest ih =>
    rw [textOf_cons] at hpaired
    intro other hmem
    rcases List.mem_cons.mp hmem with rfl | hmem
    · exact fun hlast => keepsBreaks h hlast (hpaired.head?_after hlast)
    · exact ih h.2 hpaired.right other hmem

theorem getLast?_textOf_ne_return {pieces : List Piece}
    (h : ∀ piece ∈ pieces, piece.text.getLast? ≠ some '\r') :
    (textOf pieces).getLast? ≠ some '\r' := by
  induction pieces with
  | nil => simp
  | cons piece rest ih =>
    rw [textOf_cons, List.getLast?_append]
    intro hr
    rcases Option.or_eq_some_iff.mp hr with hrest | ⟨-, hpiece⟩
    · exact ih (fun other ho => h other (List.mem_cons_of_mem _ ho)) hrest
    · exact h piece List.mem_cons_self hpiece

/-- Then places are found piece by piece or all at once. -/
theorem stop_eq_advance {pieces : List Piece}
    (h : ∀ piece ∈ pieces, piece.text.getLast? ≠ some '\r') (start : Position) :
    stop start pieces = start.advance (textOf pieces) := by
  induction pieces generalizing start with
  | nil => rfl
  | cons piece rest ih =>
    rw [stop, ih (fun other ho => h other (List.mem_cons_of_mem _ ho)), textOf_cons,
      Position.advance_append_of_getLast? start _ (h piece List.mem_cons_self)]

/-- Whatever the carriage returns are, places are so found in what has been read. -/
theorem stop_eq_advance_of_lexes {front behind : List Piece} (h : Lexes (front ++ behind) [])
    (start : Position) : stop start front = start.advance (textOf front) := by
  induction front generalizing start with
  | nil => rfl
  | cons piece rest ih =>
    have hkeeps : Text.KeepsBreaks piece.text (textOf (rest ++ behind)) := keepsBreaks h
    rw [textOf_append] at hkeeps
    rw [stop, ih h.2, textOf_cons, Position.advance_append start hkeeps.left]

/-- Every token of pieces is one of them, where those before it end. -/
theorem mem_place {start : Position} {pieces : List Piece} {t : Token}
    (h : t ∈ place start pieces) : ∃ front piece rest, pieces = front ++ piece :: rest ∧
      t = ⟨piece.kind, piece.text, stop start front⟩ := by
  induction pieces generalizing start with
  | nil => exact absurd h List.not_mem_nil
  | cons piece rest ih =>
    rcases List.mem_cons.mp h with rfl | h
    · exact ⟨[], piece, rest, rfl, rfl⟩
    · obtain ⟨front, other, behind, rfl, rfl⟩ := ih h
      exact ⟨piece :: front, other, behind, rfl, rfl⟩

/-- Tokens stand one after another. -/
theorem pairwise_place (start : Position) (pieces : List Piece) :
    (place start pieces).Pairwise fun t u => t.stop.offset ≤ u.start.offset := by
  induction pieces generalizing start with
  | nil => exact List.Pairwise.nil
  | cons piece rest ih =>
    refine List.Pairwise.cons (fun u hu => ?_) (ih _)
    obtain ⟨front, other, behind, -, rfl⟩ := mem_place hu
    exact offset_le_stop _ front

end Piece

/-- A token stands in a source where it says. -/
structure Token.StandsIn (t : Token) (source : Text) : Prop where
  fits : t.stop.offset ≤ source.size
  starts : t.start.offset ≤ source.size
  text : source.slice t.start.offset t.stop.offset = t.text
  offset : t.location.offsetIn source = t.start.offset

/-- Where carriage returns are paired, tokens stand where they say. -/
theorem Piece.standsIn {pieces : List Piece} (h : Lexes pieces [])
    (hpaired : (textOf pieces).ReturnsPaired) {t : Token} (ht : t ∈ place .start pieces) :
    t.StandsIn (textOf pieces) := by
  obtain ⟨front, piece, rest, rfl, rfl⟩ := mem_place ht
  have hreturn := getLast?_ne_return h hpaired
  have hfrontReturn : ∀ p ∈ front, p.text.getLast? ≠ some '\r' := fun p hp =>
    hreturn p (List.mem_append_left _ hp)
  have hsource : textOf (front ++ piece :: rest) = textOf front ++ piece.text ++ textOf rest := by
    rw [textOf_append, textOf_cons, List.append_assoc]
  have hfront : (textOf front).ReturnsPaired := by
    rw [textOf_append] at hpaired
    exact hpaired.left (getLast?_textOf_ne_return hfrontReturn)
  have hstart : (Position.start.advance (textOf front)).offset = (textOf front).size := by
    rw [Position.advance_offset]
    exact Nat.zero_add _
  have hstop : (Token.stop ⟨piece.kind, piece.text, Position.start.advance (textOf front)⟩).offset =
      (textOf front).size + piece.text.size := by
    rw [Token.stop, Position.advance_offset, hstart]
  have hsize : (textOf (front ++ piece :: rest)).size =
      (textOf front).size + piece.text.size + (textOf rest).size := by
    rw [hsource, Text.size_append, Text.size_append]
  rw [stop_eq_advance hfrontReturn]
  refine ⟨?_, ?_, ?_, ?_⟩
  · rw [hstop, hsize]
    exact Nat.le_add_right _ _
  · rw [hstart, hsize]
    omega
  · rw [hstop, hstart, hsource, Text.slice_append]
  · rw [hstart, hsource, List.append_assoc]
    exact Position.offsetIn_advance _ hfront

/-- The tokens of a source stand in it where they say. -/
theorem Token.standsIn_of_scan {source : Text} (h : unknowns (scan source) = [])
    (hpaired : source.ReturnsPaired) {t : Token} (ht : t ∈ scan source) : t.StandsIn source := by
  obtain ⟨pieces, rfl, hlexes, hscan⟩ := exists_pieces h
  rw [hscan] at ht
  exact Piece.standsIn hlexes hpaired ht

theorem Token.pairwise_scan {source : Text} (h : unknowns (scan source) = []) :
    (scan source).Pairwise fun t u => t.stop.offset ≤ u.start.offset := by
  obtain ⟨pieces, rfl, -, hscan⟩ := exists_pieces h
  rw [hscan]
  exact Piece.pairwise_place _ _

end DesiredState

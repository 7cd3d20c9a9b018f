/-
The names of blocks.

What a block is called is found out twice.  The tree has its name as an expression, which
stands for its value if it is a string and for its text if not.  And where comments are
attached the name is put together again from the tokens behind the head: their texts up
to the first brace, with spaces for whatever stands between them, and the value of that
text if it is a string literal.

The two agree on names that are written plainly: with no brace within them, with nothing
but spaces between their tokens and without a comma before or after them.  Where a comma
list is cut out of the source, carriage returns have to be paired besides.
-/
import DesiredState.Configuration.Build
import DesiredState.Proofs.Script.Extents
import DesiredState.Proofs.Script.Uncommented
import DesiredState.Proofs.Token.Excerpt
import Mathlib.Data.List.Chain

namespace DesiredState

variable {source : Text}

/-! ### Tokens between head and body -/

/-- Whether an expression is a list without brackets. -/
def Expression.isList : Expression → Bool
  | .array _ false _ => true
  | _ => false

/-- The tokens of a name, comments left aside, are written plainly. -/
structure Expression.IsPlain (source : Text) (name : Expression) (written : List ClassifiedToken) :
    Prop where
  unbraced : ∀ t ∈ written, t.text ≠ ['\x7b']
  /-- There is nothing but spaces between them. -/
  spaced : written.IsChain fun t u =>
    source.slice t.stopOffset u.start.offset = Text.spaces (u.start.offset - t.stopOffset)
  starts : ∀ t ∈ written.head?, t.text ≠ [',']
  stops : ∀ t ∈ written.getLast?, t.text ≠ [',']
  paired : name.isList → source.ReturnsPaired

namespace Token

/-- A token of a kind with a fixed text has this text. -/
theorem text_of_mark (h : unknowns (scan source) = []) {t : Token} (ht : t ∈ scan source)
    {m : Text} (hkind : t.kind.recognise = Pattern.mark m) : t.text = m := by
  obtain ⟨pieces, rfl, hlexes, hplace⟩ := exists_pieces h
  rw [hplace] at ht
  obtain ⟨front, piece, rest, rfl, rfl⟩ := Piece.mem_place ht
  have hnext := ((Piece.lexes_append _ _ _).mp hlexes).2.1
  obtain ⟨c, text, hc⟩ := List.exists_cons_of_ne_nil hnext.text_ne_nil
  rw [Piece.IsNext, hc, List.cons_append] at hnext
  have hrecognised := (recognise_of_next? hnext).2
  change piece.kind.recognise = _ at hkind
  rw [hkind, ← List.cons_append, ← hc] at hrecognised
  exact List.append_cancel_right (Text.eq_append_of_dropHead? hrecognised)

end Token

namespace Expression

theorem Listed.ne_nil {ts : List Token} {e : Expression} (h : e.Listed source ts) : ts ≠ [] := by
  cases h with
  | operand he => exact he.ne_nil
  | joined _ _ hf => exact List.append_ne_nil_of_right_ne_nil _ hf.ne_nil

/-- What is no single operand is a list over several tokens. -/
theorem Listed.operand_or_list {ts : List Token} {e : Expression} (h : e.Listed source ts) :
    e.Operand source ts ∨ e.isList ∧ 1 < ts.length := by
  cases h with
  | operand he => exact .inl he
  | joined he _ hf =>
    refine .inr ⟨by rw [Grammar.joinValues_eq]; rfl, ?_⟩
    have hts := List.length_pos_of_ne_nil he.ne_nil
    have hus := List.length_pos_of_ne_nil hf.ne_nil
    rw [List.length_append, List.length_append]
    omega

/-- Where carriage returns are paired, a list has the extent of its tokens. -/
theorem Listed.extent_eq {ts : List Token} {e : Expression} (h : e.Listed source ts)
    (ho : Token.Ordered source ts) : e.extent = .ofTokens source ts := by
  have hoperand {ts : List Token} {e : Expression} (he : e.Operand source ts)
      (ho : Token.Ordered source ts) : e.extent = .ofTokens source ts := by
    have hspans := he.spans
    generalize e.extent = extent at hspans
    cases hspans with
    | tokens => rfl
    | token t => exact (ho.stands t List.mem_cons_self).ofTokens_eq.symm
  induction h with
  | operand he => exact hoperand he ho
  | @joined ts commas us e f he hcommas hf ih =>
    have hous := ho.sublist (List.sublist_append_right (ts ++ commas) us)
    have hets := ih (ho.sublist
      ((List.sublist_append_left ts commas).trans (List.sublist_append_left _ us)))
    have hfus := hoperand hf hous
    have hexists {ts : List Token} (hne : ts ≠ []) :
        ∃ first last, ts.head? = some first ∧ ts.getLast? = some last := by
      obtain ⟨first, hfirst⟩ := Option.ne_none_iff_exists'.mp (mt List.head?_eq_none_iff.mp hne)
      obtain ⟨last, hlast⟩ := Option.ne_none_iff_exists'.mp (mt List.getLast?_eq_none_iff.mp hne)
      exact ⟨first, last, hfirst, hlast⟩
    obtain ⟨first, inner, hfirst, hinner⟩ := hexists he.ne_nil
    obtain ⟨other, last, hother, hlast⟩ := hexists hf.ne_nil
    have hotherIn := List.mem_of_head? hother
    have hlastIn := List.mem_of_getLast? hlast
    have hle : other.start.offset ≤ last.stop.offset := Nat.le_trans (hous.head_le hother hlastIn)
      (Nat.le_of_lt (hous.nonempty last hlastIn))
    have hsize : (source.slice other.start.offset last.stop.offset).size =
        last.stop.offset - other.start.offset :=
      Text.size_slice source (hous.stands last hlastIn).fits
    have hfirstAll : (ts ++ commas ++ us).head? = some first := by simp [hfirst]
    have hlastAll : (ts ++ commas ++ us).getLast? = some last := by simp [hlast]
    have hfirstStart : first.location.offsetIn source = first.start.offset :=
      (ho.stands first (List.mem_of_head? hfirstAll)).offset
    rw [Grammar.joinValues_eq]
    change Grammar.joinedExtent source e.extent f.extent = _
    rw [Grammar.joinedExtent, hets, hfus, Extent.ofTokens_eq hother hlast,
      Extent.ofTokens_eq hfirst hinner, Extent.ofTokens_eq hfirstAll hlastAll]
    simp only [hsize, hfirstStart, (hous.stands other hotherIn).offset, Nat.add_sub_cancel' hle]

end Expression

/-! ### The name in the tokens

The stream puts a name together from the texts of tokens and the columns between them,
while the tree has it from the source.  The two agree where nothing but spaces stands
between the tokens.
-/

theorem ClassifiedToken.stopOffset_of (marks : List Mark) (t : Token) :
    (ClassifiedToken.of marks t).stopOffset = t.stop.offset :=
  (Position.advance_offset _ _).symm

namespace PropertyComment

variable {marks : List Mark}

/-- Over tokens with nothing but spaces between them the text is put together as it stands. -/
theorem textToBrace_spaced (h : Token.unknowns (Token.scan source) = []) {opening : Token}
    {behind : List Token} (hopening : opening.text = ['\x7b'])
    (hopen : (ClassifiedToken.of marks opening).role ≠ .comment) {front l us : List Token}
    {t : Token} (hscan : Token.scan source = front ++ t :: l)
    (hl : Token.significant l = us ++ opening :: behind)
    (hus : ∀ u ∈ us, u.text ≠ ['\x7b'] ∧ (ClassifiedToken.of marks u).role ≠ .comment)
    (hspaced : (t :: us).IsChain fun t u => source.slice t.stop.offset u.start.offset =
      Text.spaces (u.start.offset - t.stop.offset)) (rest : List ClassifiedToken) :
    ∃ middle after, l = middle ++ after ∧ Token.significant middle = us ∧
      middle.getLast? = us.getLast? ∧
      textToBrace (some t.stop.offset) (us.map (ClassifiedToken.of marks) ++
        ClassifiedToken.of marks opening :: rest) = Token.textOf middle := by
  induction us generalizing front l t with
  | nil =>
    refine ⟨[], l, rfl, rfl, rfl, ?_⟩
    rw [List.map_nil, List.nil_append, textToBrace, if_neg hopen, if_pos (by exact hopening)]
    rfl
  | cons u us ih =>
    obtain ⟨gap, more, rfl, hgap, hu, hmore⟩ := List.filter_eq_cons_iff.mp hl
    obtain ⟨hspaces, hchain⟩ := List.isChain_cons_cons.mp hspaced
    have hagain : Token.scan source = (front ++ t :: gap) ++ u :: more := by
      rw [hscan, List.append_assoc, List.cons_append]
    obtain ⟨middle, after, rfl, hmiddle, hlast, htext⟩ := ih hagain hmore
      (fun v hv => hus v (List.mem_cons_of_mem _ hv)) hchain
    have hgapText : Token.textOf gap = Text.spaces (u.start.offset - t.stop.offset) := by
      have hcut : Token.scan source = (front ++ [t]) ++ gap ++ u :: (middle ++ after) := by
        rw [hscan]
        simp
      rw [← hspaces, ← Token.slice_excerpt h hcut, Token.stop_offset_of_scan h hscan,
        Token.start_offset h hagain, ← Text.size_append, ← Token.textOf_append]
      simp
    refine ⟨gap ++ u :: middle, after, by simp, ?_, ?_, ?_⟩
    · rw [Token.significant, List.filter_append, List.filter_eq_nil_iff.mpr hgap,
        List.filter_cons_of_pos (p := fun v : Token => v.kind.isSignificant) hu]
      exact congrArg (u :: ·) hmiddle
    · rw [List.getLast?_append, List.getLast?_cons, List.getLast?_cons, hlast]
      rfl
    · obtain ⟨hbrace, hrole⟩ := hus u List.mem_cons_self
      rw [List.map_cons, List.cons_append, textToBrace, if_neg hrole,
        if_neg (by exact hbrace)]
      change Text.spaces (u.start.offset - t.stop.offset) ++ u.text ++
        textToBrace (some (u.start.offset + u.text.size)) _ = _
      rw [← Position.advance_offset u.start u.text]
      change _ ++ textToBrace (some u.stop.offset) _ = _
      rw [htext, ← hgapText, Token.textOf_append, List.append_assoc]
      rfl

/-- Comments are no part of a name. -/
theorem nameIn_filter {p : ClassifiedToken → Bool} (hp : ∀ t, p t → t.role = .comment)
    (tokens : List ClassifiedToken) : nameIn (tokens.filter fun t => !p t) = nameIn tokens := by
  unfold nameIn
  rw [textToBrace_filter hp]

/-- An expression that is no string stands for its text. -/
theorem instanceName_of_ne_string {e : Expression}
    (h : ∀ extent value quote, e ≠ .string extent value quote) :
    Building.instanceName e = e.extent.text := by
  unfold Building.instanceName
  split
  · exact absurd rfl (h _ _ _)
  · rfl

/-- There are no commas around a plain name. -/
theorem listed_of_isPlain (h : Token.unknowns (Token.scan source) = []) {us : List Token}
    (hus : ∀ u ∈ us, u ∈ Token.scan source) {e : Expression} (hname : e.IsName source us)
    (hplain : e.IsPlain source (us.map (ClassifiedToken.of marks))) : e.Listed source us := by
  obtain ⟨before, written, after, rfl, hcommas, hlisted⟩ := hname
  have hcomma {t : Token} (ht : t ∈ before ++ after) : t.text = [','] := by
    refine Token.text_of_mark h (hus t ?_) (by rw [hcommas t ht]; rfl)
    rcases List.mem_append.mp ht with ht | ht <;> simp [ht]
  obtain rfl : before = [] := by
    cases before with
    | nil => rfl
    | cons t before => exact absurd (hcomma (by simp)) (hplain.starts _ rfl)
  obtain rfl : after = [] := by
    rcases List.eq_nil_or_concat after with rfl | ⟨init, t, rfl⟩
    · rfl
    · exact absurd (hcomma (by simp)) (hplain.stops (ClassifiedToken.of marks t) (by simp))
  rwa [List.nil_append, List.append_nil]

/-- The extent of tokens is the text from the first to the last one. -/
theorem text_ofTokens (h : Token.unknowns (Token.scan source) = [])
    {front middle behind more : List Token} {t : Token}
    (hscan : Token.scan source = front ++ (t :: middle) ++ behind)
    (hlast : middle.getLast? = more.getLast?) :
    (Extent.ofTokens source (t :: more)).text = Token.textOf (t :: middle) := by
  obtain ⟨last, hlasts⟩ := Option.ne_none_iff_exists'.mp
    (mt List.getLast?_eq_none_iff.mp (List.cons_ne_nil t middle))
  obtain ⟨init, hinit⟩ := List.getLast?_eq_some_iff.mp hlasts
  have hmore : (t :: more).getLast? = some last := by
    rw [← hlasts, List.getLast?_cons, List.getLast?_cons, hlast]
  have hsplit : Token.scan source = (front ++ init) ++ last :: behind := by
    rw [hscan, hinit]
    simp
  have hstop : last.stop.offset =
      (Token.textOf front).size + (Token.textOf (t :: middle)).size := by
    rw [Token.stop_offset_of_scan h hsplit, List.append_assoc, ← hinit, Token.textOf_append,
      Text.size_append]
  have hstart : t.start.offset = (Token.textOf front).size :=
    Token.start_offset h (hscan.trans (List.append_assoc _ _ _))
  rw [Extent.ofTokens_eq rfl hmore]
  change source.slice t.start.offset last.stop.offset = _
  rw [hstart, hstop]
  exact Token.slice_excerpt h hscan

/-- What is put together of tokens with spaces between them is the text from the first to the last
one. -/
theorem textToBrace_first (h : Token.unknowns (Token.scan source) = []) {opening : Token}
    {behind : List Token} (hopening : opening.text = ['\x7b'])
    (hopen : (ClassifiedToken.of marks opening).role ≠ .comment) {front l us : List Token}
    {t : Token} (hscan : Token.scan source = front ++ t :: l)
    (hl : Token.significant l = us ++ opening :: behind)
    (hus : ∀ u ∈ t :: us, u.text ≠ ['\x7b'] ∧ (ClassifiedToken.of marks u).role ≠ .comment)
    (hspaced : (t :: us).IsChain fun t u => source.slice t.stop.offset u.start.offset =
      Text.spaces (u.start.offset - t.stop.offset)) (rest : List ClassifiedToken) :
    ∃ middle after, l = middle ++ after ∧ Token.significant middle = us ∧
      middle.getLast? = us.getLast? ∧
      textToBrace none ((t :: us).map (ClassifiedToken.of marks) ++
        ClassifiedToken.of marks opening :: rest) = Token.textOf (t :: middle) := by
  obtain ⟨middle, after, rfl, hmiddle, hlast, htext⟩ := textToBrace_spaced h hopening hopen hscan hl
    (fun u hu => hus u (List.mem_cons_of_mem _ hu)) hspaced rest
  refine ⟨middle, after, rfl, hmiddle, hlast, ?_⟩
  obtain ⟨hbrace, hrole⟩ := hus t List.mem_cons_self
  rw [List.map_cons, List.cons_append, textToBrace, if_neg hrole, if_neg (by exact hbrace)]
  change t.text ++ textToBrace (some (t.start.offset + t.text.size)) _ = _
  rw [← Position.advance_offset t.start t.text]
  change _ ++ textToBrace (some t.stop.offset) _ = _
  rw [htext]
  rfl

/-- The text of tokens is a string if there is but one of them, which is a string or a word. -/
theorem string?_textOf (h : Token.unknowns (Token.scan source) = [])
    {front middle behind us : List Token} {t : Token}
    (hscan : Token.scan source = front ++ (t :: middle) ++ behind) (ht : t.kind.isSignificant)
    (hmiddle : Token.significant middle = us) (hlast : middle.getLast? = us.getLast?) :
    Literal.string? (Token.textOf (t :: middle)) =
      if us = [] ∧ t.kind.isString then some (Literal.ofString t).1 else none := by
  cases us with
  | nil =>
    obtain rfl : middle = [] := List.getLast?_eq_none_iff.mp hlast
    rw [List.append_assoc, List.singleton_append] at hscan
    rw [show Token.textOf [t] = t.text from List.append_nil _, Literal.string?_token h hscan ht]
    simp
  | cons u us =>
    rw [if_neg fun hnil => absurd hnil.1 (List.cons_ne_nil _ _)]
    refine Literal.string?_tokens h hscan (fun v hv => ?_) ?_
    · rw [List.getLast?_cons, hlast, ← List.getLast?_cons] at hv
      rcases List.mem_cons.mp (List.mem_of_getLast? hv) with rfl | hv
      · exact ht
      · rw [← hmiddle] at hv
        exact (List.mem_filter.mp hv).2
    · rw [Token.significant, List.filter_cons_of_pos (p := fun v : Token => v.kind.isSignificant) ht]
      change _ < (t :: Token.significant middle).length
      rw [hmiddle]
      simp

/-- **A name without commas around it stands for its one string, or for the text of its tokens.** -/
theorem instanceName_of_listed {t : Token} {us : List Token} {e : Expression}
    (h : e.Listed source (t :: us)) (hordered : e.isList → Token.Ordered source (t :: us))
    {text : Text} (htext : (Extent.ofTokens source (t :: us)).text = text)
    (hone : us = [] → text = t.text) :
    (if us = [] ∧ t.kind.isString then some (Literal.ofString t).1 else none).getD text =
      Building.instanceName e := by
  rcases h.operand_or_list with hoperand | ⟨hlist, hseveral⟩
  · cases hoperand with
    | string hspans =>
      change _ = t.keyText
      unfold Token.keyText
      by_cases hkind : t.kind.isString
      · rw [if_pos ⟨rfl, hkind⟩, if_pos hkind]
        rfl
      · rw [if_neg fun hstring => hkind hstring.2, if_neg hkind]
        exact hone rfl
    | other hspans hvalue hkind =>
      have hstring : ¬ (us = [] ∧ t.kind.isString) := by
        rintro ⟨rfl, hstring⟩
        rw [hkind t rfl] at hstring
        cases hstring
      rw [instanceName_of_ne_string hvalue, if_neg hstring, Option.getD_none]
      generalize e.extent = extent at hspans
      cases hspans with
      | tokens => exact htext.symm
      | token => exact hone rfl
  · have hstring : ¬ (us = [] ∧ t.kind.isString) := by
      rintro ⟨rfl, -⟩
      exact absurd hseveral (Nat.lt_irrefl 1)
    rw [instanceName_of_ne_string (by rintro _ _ _ rfl; cases hlist), if_neg hstring,
      h.extent_eq (hordered hlist)]
    exact htext.symm

/-- **A plain name that is put together from its tokens is the name in the tree.** -/
theorem nameIn_of_isName (h : Token.unknowns (Token.scan source) = []) {opening : Token}
    (hopening : opening.text = ['\x7b'])
    (hopen : (ClassifiedToken.of marks opening).role ≠ .comment) {before us behind : List Token}
    (hseen : Token.significant (Token.scan source) = before ++ us ++ opening :: behind)
    (hroles : ∀ u ∈ us, (ClassifiedToken.of marks u).role ≠ .comment) {e : Expression}
    (hname : e.IsName source us) (hplain : e.IsPlain source (us.map (ClassifiedToken.of marks)))
    (rest : List ClassifiedToken) :
    nameIn (us.map (ClassifiedToken.of marks) ++ ClassifiedToken.of marks opening :: rest) =
      Building.instanceName e := by
  have hsub : us.Sublist (Token.significant (Token.scan source)) := by
    rw [hseen]
    exact (List.sublist_append_right _ _).trans (List.sublist_append_left _ _)
  have hlisted := listed_of_isPlain h (fun u hu => (List.mem_filter.mp (hsub.subset hu)).1)
    hname hplain
  obtain ⟨t, more, rfl⟩ := List.exists_cons_of_ne_nil hlisted.ne_nil
  rw [List.append_assoc] at hseen
  obtain ⟨first, rest', hscan, -, hrest⟩ := List.filter_eq_append_iff.mp hseen
  obtain ⟨gap, l, rfl, -, ht, hl⟩ := List.filter_eq_cons_iff.mp hrest
  rw [← List.append_assoc] at hscan
  have hspaced : (t :: more).IsChain fun t u => source.slice t.stop.offset u.start.offset =
      Text.spaces (u.start.offset - t.stop.offset) := by
    have hchain := (List.isChain_map _).mp hplain.spaced
    simp only [ClassifiedToken.stopOffset_of] at hchain
    exact hchain
  obtain ⟨middle, after, rfl, hmiddle, hlast, hwritten⟩ := textToBrace_first h hopening hopen hscan hl
    (fun u hu => ⟨hplain.unbraced _ (List.mem_map_of_mem hu), hroles u hu⟩) hspaced rest
  have hcut : Token.scan source = (first ++ gap) ++ (t :: middle) ++ after := by
    rw [hscan]
    simp
  have hordered (hlist : e.isList) : Token.Ordered source (t :: more) :=
    (Token.Ordered.of_scan h (hplain.paired hlist)).sublist hsub
  unfold nameIn
  rw [hwritten]
  change (Literal.string? (Token.textOf (t :: middle))).getD _ = _
  rw [string?_textOf h hcut ht hmiddle hlast]
  refine instanceName_of_listed hlisted hordered (text_ofTokens h hcut hlast) fun hone => ?_
  obtain rfl : middle = [] := List.getLast?_eq_none_iff.mp (by rw [hlast, hone]; rfl)
  exact List.append_nil _

end PropertyComment

/-! ### The name in the stream

The stream has comments that the tree knows nothing of, and it has to be known where the
name ends.  Comments are passed over, and the brace that opens the body ends it on both
sides.
-/

namespace Script

variable {marks : List Mark} {tokens : List Token}

/-- Where the tokens that the grammar sees are split, so are all tokens. -/
theorem exists_of_significant {front behind : List Token} {t : Token}
    (h : Token.significant tokens = front ++ t :: behind) : ∃ first rest,
      tokens = first ++ t :: rest ∧ Token.significant first = front ∧
        Token.significant rest = behind ∧ t.kind.isSignificant := by
  obtain ⟨first, more, rfl, hfirst, hmore⟩ := List.filter_eq_append_iff.mp h
  obtain ⟨gap, rest, rfl, hgap, ht, hrest⟩ := List.filter_eq_cons_iff.mp hmore
  refine ⟨first ++ gap, rest, by rw [List.append_assoc], ?_, hrest, ht⟩
  rw [Token.significant, List.filter_append, List.filter_eq_nil_iff.mpr hgap, List.append_nil]
  exact hfirst

theorem streamOf_append (front behind : List Token) :
    streamOf marks (front ++ behind) = streamOf marks front ++ streamOf marks behind := by
  unfold streamOf
  rw [List.filter_append, List.map_append]

theorem streamOf_cons {t : Token} (h : t.kind.isSignificant) (rest : List Token) :
    streamOf marks (t :: rest) = ClassifiedToken.of marks.reverse t :: streamOf marks rest := by
  unfold streamOf
  rw [List.filter_cons_of_pos (by simp [h]), List.map_cons]

variable {items : List Item}

section Marks

variable (hderives : Grammar.Derives source (Token.significant (Token.scan source))
  (items.map .item)) (hknown : Token.unknowns (Token.scan source) = [])
include hderives hknown

/-- Comments come out as comments, and nothing else does. -/
theorem role_eq_comment_iff {t : Token} (ht : t ∈ Token.scan source) :
    (ClassifiedToken.of (items.flatMap (·.marks)).reverse t).role = .comment ↔
      t.kind.isComment := by
  refine ⟨isComment_of_role hknown hderives, fun hcomment => ?_⟩
  rw [ClassifiedToken.role_of_unmarked fun mark hmark hoffset => ?_]
  · generalize t.kind = kind at hcomment
    cases kind <;> first | rfl | cases hcomment
  · -- The marks are all on tokens that the grammar sees.
    obtain ⟨item, hitem, hmark⟩ := List.mem_flatMap.mp hmark
    have hstarts := hderives.mark_mem (p := .item item) (List.mem_map_of_mem hitem) hmark
    obtain ⟨u, hu, hstart⟩ := List.mem_map.mp hstarts
    obtain ⟨hmem, hsignificant⟩ := List.mem_filter.mp hu
    obtain rfl := Token.eq_of_start hknown hmem ht (hstart.trans hoffset)
    rw [TokenKind.isSignificant_eq_false hcomment] at hsignificant
    cases hsignificant

/-- Comments left aside, the stream has the tokens that the grammar sees. -/
theorem streamOf_uncommented (hsub : tokens ⊆ Token.scan source) :
    (streamOf (items.flatMap (·.marks)) tokens).filter (fun c => !(c.role == .comment)) =
      (Token.significant tokens).map
        (ClassifiedToken.of (items.flatMap (·.marks)).reverse) := by
  unfold streamOf Token.significant
  rw [List.filter_map, List.filter_filter]
  refine congrArg _ (List.filter_congr fun t ht => ?_)
  have hrole := role_eq_comment_iff hderives hknown (hsub ht)
  cases hcomment : t.kind.isComment with
  | true =>
    have hcommented := hrole.mpr hcomment
    simp [hcommented, TokenKind.isSignificant_eq_false hcomment]
  | false =>
    have hother := mt hrole.mp (Bool.eq_false_iff.mp hcomment)
    simp [hother]

end Marks

/-- **The head of a named block in the stream**, with what stands between it and the body. -/
theorem exists_head {script : Script} (h : parse source = .ok script) {b : Block} {e : Expression}
    (hb : Node.Occurs script.statements (.block b)) (hname : b.instanceName = some e) :
    ∃ before head between brace after,
      script.tokens = before ++ head :: (between ++ brace :: after) ∧
      b.IsHead head.text head.start.toLocation ∧ head.role = .dynamicKeyword ∧
      brace.start.toLocation = b.body.extent.location ∧
      (e.IsPlain source (between.filter fun c => !(c.role == .comment)) →
        PropertyComment.nameIn (between ++ brace :: after) = Building.instanceName e) := by
  obtain ⟨hknown, items, hitems, rfl⟩ := parse_eq_ok_iff.mp h
  have hderives := Grammar.derives_of_script hitems
  have hmarked := marked_of_occurs hderives hb
  generalize hseen : Token.significant (Token.scan source) = seen at hmarked
  cases hmarked with
  | @intro _ head opening between inner before after hread hwithin =>
    rw [List.append_assoc, List.cons_append, List.append_assoc, List.cons_append] at hseen
    obtain ⟨first, rest, hscan, hfirst, hrest, hhead⟩ := exists_of_significant hseen
    obtain ⟨middle, behind, rfl, hmiddle, hbehind, hopening⟩ := exists_of_significant hrest
    have hscanned {t : Token} (ht : t ∈ first ++ head :: (middle ++ opening :: behind)) :
        t ∈ Token.scan source := hscan ▸ ht
    have hsub : middle ⊆ Token.scan source := fun t ht => hscanned (by simp [ht])
    have hrole {t : Token} (ht : t ∈ Token.scan source) (hkind : t.kind.isSignificant) :
        (ClassifiedToken.of (items.flatMap (·.marks)).reverse t).role ≠ .comment := fun hcomment => by
      rw [TokenKind.isSignificant_eq_false ((role_eq_comment_iff hderives hknown ht).mp hcomment)]
        at hkind
      cases hkind
    refine ⟨streamOf (items.flatMap (·.marks)) first,
      ClassifiedToken.of (items.flatMap (·.marks)).reverse head, streamOf (items.flatMap (·.marks)) middle,
      ClassifiedToken.of (items.flatMap (·.marks)).reverse opening,
      streamOf (items.flatMap (·.marks)) behind, ?_,
      ⟨by rw [hname]; rfl, hread.keyword, hread.location⟩, ?_, hread.body.symm, fun hplain => ?_⟩
    · change streamOf _ (Token.scan source) = _
      rw [hscan, streamOf_append, streamOf_cons hhead, streamOf_append, streamOf_cons hopening]
    · exact role_of_mark hderives hknown (hread.marked (by rw [hname]; rfl)) rfl
    · rw [streamOf_uncommented hderives hknown hsub, hmiddle] at hplain
      have hseenAll : Token.significant (Token.scan source) =
          (before ++ [head]) ++ between ++ opening :: (inner ++ after) := by
        rw [hseen]
        simp
      have hopeningRole := hrole (hscanned (t := opening) (by simp)) hopening
      rw [← PropertyComment.nameIn_filter (p := fun c => c.role == .comment)
        (fun c hc => beq_iff_eq.mp hc), List.filter_append,
        streamOf_uncommented hderives hknown hsub, hmiddle,
        List.filter_cons_of_pos (by simpa using hopeningRole)]
      refine PropertyComment.nameIn_of_isName hknown
        (Token.text_of_mark hknown (hscanned (by simp)) (by rw [hread.opens]; rfl)) hopeningRole
        hseenAll (fun t ht => ?_) (hread.name e hname) hplain _
      rw [← hmiddle] at ht
      obtain ⟨hin, hkind⟩ := List.mem_filter.mp ht
      exact hrole (hsub hin) hkind

/-- The tokens of a script stand one behind the other. -/
theorem pairwise_tokens {script : Script} (h : parse source = .ok script) :
    script.tokens.Pairwise fun t u => t.start.offset < u.start.offset := by
  obtain ⟨hknown, items, -, rfl⟩ := parse_eq_ok_iff.mp h
  exact List.pairwise_map.mpr ((Token.pairwise_start hknown).sublist List.filter_sublist)

/-- Tokens of a script at one place are one token. -/
theorem eq_of_location {script : Script} (h : parse source = .ok script) {t u : ClassifiedToken}
    (ht : t ∈ script.tokens) (hu : u ∈ script.tokens)
    (hlocation : t.start.toLocation = u.start.toLocation) : t = u := by
  obtain ⟨hknown, items, -, rfl⟩ := parse_eq_ok_iff.mp h
  obtain ⟨v, hv, rfl⟩ := List.mem_map.mp ht
  obtain ⟨w, hw, rfl⟩ := List.mem_map.mp hu
  rw [Token.eq_of_location hknown (List.mem_filter.mp hv).1 (List.mem_filter.mp hw).1 hlocation]

/-- A token stands at one place of a script only. -/
theorem split_unique {script : Script} (h : parse source = .ok script)
    {before after before' after' : List ClassifiedToken} {t u : ClassifiedToken}
    (hsplit : script.tokens = before ++ t :: after) (hsplit' : script.tokens = before' ++ u :: after')
    (hlocation : t.start.toLocation = u.start.toLocation) : before = before' ∧ t = u ∧ after = after' := by
  have hordered := pairwise_tokens h
  rw [hsplit, List.pairwise_append, List.pairwise_cons] at hordered
  obtain ⟨-, ⟨hafter, -⟩, hbefore⟩ := hordered
  obtain rfl := eq_of_location h (by rw [hsplit]; simp) (by rw [hsplit']; simp) hlocation
  exact (List.append_cons_inj_of_notMem
    (fun hin => Nat.lt_irrefl _ (hbefore t hin t List.mem_cons_self))
    (fun hin => Nat.lt_irrefl _ (hafter t hin))).mp (hsplit.symm.trans hsplit')

/-- **A block has its name from the tree in the stream too**, where the name is written
plainly. -/
theorem parse_named {script : Script} (h : parse source = .ok script) {b : Block}
    {e : Expression} (hb : Node.Occurs script.statements (.block b))
    (hname : b.instanceName = some e) {before between after : List ClassifiedToken}
    {head brace : ClassifiedToken}
    (htokens : script.tokens = before ++ head :: (between ++ brace :: after))
    (hhead : b.IsHead head.text head.start.toLocation)
    (hbrace : brace.start.toLocation = b.body.extent.location)
    (hplain : e.IsPlain source (between.filter fun c => !(c.role == .comment))) :
    PropertyComment.nameIn (between ++ brace :: after) = Building.instanceName e := by
  obtain ⟨before', head', between', brace', after', htokens', hhead', -, hbrace', hnamed⟩ :=
    exists_head h hb hname
  obtain ⟨rfl, rfl, hrest⟩ :=
    split_unique h htokens htokens' (hhead.location.symm.trans hhead'.location)
  rw [← List.cons_append, ← List.append_assoc] at htokens htokens'
  obtain ⟨hbetween, -, -⟩ := split_unique h htokens htokens' (hbrace.trans hbrace'.symm)
  obtain rfl : between = between' := (List.cons.inj (List.append_cancel_left hbetween)).2
  rw [hrest]
  exact hnamed hplain

end Script

/-! ### Names that are not written plainly

Both names here have several tokens.  With spaces between them tree and stream agree,
even on a list; a tab is a space in the stream, and in the tree it stays a tab.
-/

/-- A token in the first line. -/
def ClassifiedToken.inFirstLine (role : TokenRole) (text : Text) (offset : Nat) : ClassifiedToken :=
  ⟨role, text, ⟨1, offset + 1⟩, offset⟩

theorem toOption_eq_some_iff {ε α : Type} {result : Except ε α} {a : α} :
    result.toOption = some a ↔ result = .ok a := by
  cases result <;> simp [Except.toOption]

/-- What declares an instance is a block with a name. -/
theorem Building.of_mem_declarations {list : List Statement} {b : Block} {e : Expression}
    (h : (b, e) ∈ list.filterMap declaration?) : .block b ∈ list ∧ b.instanceName = some e := by
  obtain ⟨s, hs, hdeclared⟩ := List.mem_filterMap.mp h
  cases s with
  | block found =>
    obtain ⟨name, hname, hpair⟩ := Option.map_eq_some_iff.mp hdeclared
    cases hpair
    exact ⟨hs, hname⟩
  | _ => cases hdeclared

namespace Script

/-- What a name is read from. -/
structure NameReading where
  keyword : Text
  keywordLocation : Location
  bodyLocation : Location
  isList : Bool
  name : Text
  deriving DecidableEq

/-- The block with a name as it is read. -/
def NameReading.of (b : Block) (e : Expression) : NameReading :=
  ⟨b.keyword, b.keywordLocation, b.body.extent.location, e.isList, Building.instanceName e⟩

/-- The named blocks among the statements of a script. -/
def nameReadings (script : Script) : List NameReading :=
  (script.statements.filterMap Building.declaration?).map fun (b, e) => .of b e

theorem occurs_of_nameReadings {tokens : List ClassifiedToken} {reading : NameReading}
    (h : (parse source).toOption.map (fun script => (script.tokens, script.nameReadings)) =
      some (tokens, [reading])) : ∃ script b e, parse source = .ok script ∧
        script.tokens = tokens ∧ Node.Occurs script.statements (.block b) ∧
        b.instanceName = some e ∧ reading = .of b e := by
  obtain ⟨script, hparse, hread⟩ := Option.map_eq_some_iff.mp h
  obtain ⟨rfl, hreadings⟩ := Prod.mk.inj hread
  obtain ⟨⟨b, e⟩, hdeclared, hreading⟩ := List.map_eq_singleton_iff.mp hreadings
  obtain ⟨hmem, hname⟩ := Building.of_mem_declarations (hdeclared ▸ List.mem_singleton_self (b, e))
  exact ⟨script, b, e, toOption_eq_some_iff.mp hparse, rfl,
    ⟨_, hmem, .child .self List.mem_cons_self⟩, hname, hreading.symm⟩

/-- A block that is called by a list with a member. -/
def listNamedSource : Text := "File $x.y, 'b c' \x7b \x7d"

/-- The list and the comma in it. -/
def listNameTokens : List ClassifiedToken :=
  [.inFirstLine .variableName "$x" 5, .inFirstLine .punctuation "." 7, .inFirstLine .generic "y" 8,
    .inFirstLine .punctuation "," 9, .inFirstLine .stringLiteral "'b c'" 11]

theorem parse_named_list : ∃ script b e before head brace after,
    parse listNamedSource = .ok script ∧ Node.Occurs script.statements (.block b) ∧
    b.instanceName = some e ∧
    script.tokens = before ++ head :: (listNameTokens ++ brace :: after) ∧
    b.IsHead head.text head.start.toLocation ∧
    brace.start.toLocation = b.body.extent.location ∧
    e.IsPlain listNamedSource (listNameTokens.filter fun c => !(c.role == .comment)) ∧
    PropertyComment.nameIn (listNameTokens ++ brace :: after) = Building.instanceName e := by
  have hread : (parse listNamedSource).toOption.map
      (fun script => (script.tokens, script.nameReadings)) = some
        ([] ++ .inFirstLine .dynamicKeyword "File" 0 :: (listNameTokens ++
          .inFirstLine .punctuation ['\x7b'] 17 :: [.inFirstLine .punctuation ['\x7d'] 19]),
        [⟨"File", ⟨1, 1⟩, ⟨1, 18⟩, true, "$x.y, 'b c'"⟩]) := by
    decide +kernel
  obtain ⟨script, b, e, h, htokens, hb, hname, hreading⟩ := occurs_of_nameReadings hread
  obtain ⟨hkeyword, hplace, hbody, hlist, -⟩ := NameReading.mk.inj hreading
  have hhead : b.IsHead "File" ⟨1, 1⟩ := ⟨by rw [hname]; rfl, hkeyword.symm, hplace.symm⟩
  have hplain : e.IsPlain listNamedSource
      (listNameTokens.filter fun c => !(c.role == .comment)) :=
    ⟨by decide +kernel, by decide +kernel, by decide +kernel, by decide +kernel,
      fun _ => by decide +kernel⟩
  exact ⟨script, b, e, _, _, _, _, h, hb, hname, htokens, hhead, hbody, hplain,
    parse_named h hb hname htokens hhead hbody hplain⟩

/-- A block whose name has a tab within parentheses. -/
def tabbedNameSource : Text := "File $(\t'a') \x7b \x7d"

/-- **A tab in a name is lost in the stream**, where only the places of tokens are looked at. -/
theorem parse_named_tabbed : ¬ ∀ (source : Text) (script : Script), parse source = .ok script →
    ∀ b e, Node.Occurs script.statements (.block b) → b.instanceName = some e →
    ∀ before head between brace after,
      script.tokens = before ++ head :: (between ++ brace :: after) →
      b.IsHead head.text head.start.toLocation →
      brace.start.toLocation = b.body.extent.location →
      PropertyComment.nameIn (between ++ brace :: after) = Building.instanceName e := by
  intro hagree
  have hread : (parse tabbedNameSource).toOption.map
      (fun script => (script.tokens, script.nameReadings)) = some
        ([] ++ .inFirstLine .dynamicKeyword "File" 0 :: ([.inFirstLine .punctuation "$(" 5,
          .inFirstLine .stringLiteral "'a'" 8, .inFirstLine .punctuation ")" 11] ++
          .inFirstLine .punctuation ['\x7b'] 13 :: [.inFirstLine .punctuation ['\x7d'] 15]),
        [⟨"File", ⟨1, 1⟩, ⟨1, 14⟩, false, "$(\t'a')"⟩]) := by
    decide +kernel
  obtain ⟨script, b, e, h, htokens, hb, hname, hreading⟩ := occurs_of_nameReadings hread
  obtain ⟨hkeyword, hplace, hbody, -, hwritten⟩ := NameReading.mk.inj hreading
  have hnamed := hagree _ script h b e hb hname _ _ _ _ _ htokens
    ⟨by rw [hname]; rfl, hkeyword.symm, hplace.symm⟩ hbody
  rw [← hwritten] at hnamed
  exact absurd hnamed (by decide +kernel)

end Script

end DesiredState

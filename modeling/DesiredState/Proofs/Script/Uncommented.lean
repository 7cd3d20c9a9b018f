/-
A comment blanked out.

Where a comment stood there may be spaces.  The grammar sees the same tokens then, in the
same places, and reads them to the same tree: of its texts only those change that contain
the comment.

One thing comes in between.  The text of a comma list among the arguments of a command is
cut out by lines and columns, and going back from these to offsets only line feeds are
counted.  Behind a carriage return that stands alone such a text is cut out elsewhere, be
it out of a comment.
-/
import DesiredState.Proofs.Script.Roles
import DesiredState.Proofs.Script.Window
import DesiredState.Proofs.Token.Coverage

namespace DesiredState

/-- A text with the stretch between two offsets blanked out. -/
def Text.blankedBetween (t : Text) (start stop : Nat) : Text :=
  t.takeUnits start ++ (t.slice start stop).blanked ++ t.dropUnits stop

theorem Text.blankedBetween_middle (front middle behind : Text) :
    (front ++ middle ++ behind).blankedBetween front.size (front.size + middle.size) =
      front ++ middle.blanked ++ behind := by
  rw [blankedBetween, slice_append, ← size_append, dropUnits_size_append, List.append_assoc front,
    takeUnits_size_append]

/-- An extent contains the stretch of a source between two offsets. -/
def Extent.Contains (source : Text) (start stop : Nat) (e : Extent) : Prop :=
  e.location.offsetIn source ≤ start ∧ stop ≤ e.location.offsetIn source + e.text.size

instance (source : Text) (start stop : Nat) (e : Extent) :
    Decidable (e.Contains source start stop) :=
  inferInstanceAs (Decidable (_ ∧ _))

/-- Spaces for the texts of extents that contain a stretch of a source; that of a number, which is a
token, contains none. -/
def Relabelling.without (source : Text) (start stop : Nat) : Relabelling where
  extent e := if e.Contains source start stop then ⟨Text.spaces e.text.size, e.location⟩ else e
  number := id
  location := id
  offset := id
  head := id

/-- A tree without the texts of its nodes. -/
def Relabelling.textless : Relabelling where
  extent e := ⟨[], e.location⟩
  location := id
  offset := id
  head := id

/-! ### One comment

What stands before the comment and what stands behind it keep their offsets and lines,
since spaces take up the room of the comment and line breaks stay.
-/

/-- A comment among the tokens of a source. -/
structure CommentAt (source : Text) where
  known : Token.unknowns (Token.scan source) = []
  front : List Token
  comment : Token
  behind : List Token
  scan_eq : Token.scan source = front ++ comment :: behind
  isComment : comment.kind.isComment

namespace CommentAt

variable {source : Text} (C : CommentAt source)

/-- Whether a token is the comment. -/
def selects (t : Token) : Bool := t == C.comment

theorem isComment_of_selects (t : Token) (ht : C.selects t) : t.kind.isComment := by
  obtain rfl := beq_iff_eq.mp ht
  exact C.isComment

/-- The text with the comment blanked out. -/
def blanked : Text := Token.blankedText C.selects (Token.scan source)

theorem mem_scan : C.comment ∈ Token.scan source := by
  rw [C.scan_eq]
  exact List.mem_append_right _ List.mem_cons_self

theorem front_before {t : Token} (ht : t ∈ C.front) : t.stop.offset ≤ C.comment.start.offset := by
  have hordered := Token.pairwise_scan C.known
  rw [C.scan_eq] at hordered
  exact (List.pairwise_append.mp hordered).2.2 t ht _ List.mem_cons_self

theorem before_behind {t : Token} (ht : t ∈ C.behind) :
    C.comment.stop.offset ≤ t.start.offset := by
  have hordered := Token.pairwise_scan C.known
  rw [C.scan_eq] at hordered
  exact (List.pairwise_cons.mp (List.pairwise_append.mp hordered).2.1).1 t ht

theorem start_lt_stop : C.comment.start.offset < C.comment.stop.offset :=
  Token.start_lt_stop C.known C.mem_scan

theorem not_selects_front {t : Token} (ht : t ∈ C.front) : C.selects t = false := by
  refine beq_eq_false_iff_ne.mpr ?_
  rintro rfl
  have := C.front_before ht
  have := C.start_lt_stop
  omega

theorem not_selects_behind {t : Token} (ht : t ∈ C.behind) : C.selects t = false := by
  refine beq_eq_false_iff_ne.mpr ?_
  rintro rfl
  have := C.before_behind ht
  have := C.start_lt_stop
  omega

theorem start_eq : C.comment.start.offset = (Token.textOf C.front).size :=
  Token.start_offset C.known C.scan_eq

theorem stop_eq : C.comment.stop.offset = (Token.textOf (C.front ++ [C.comment])).size := by
  rw [Token.stop, Position.advance_offset, C.start_eq, Token.textOf_append, Text.size_append]
  simp [Token.textOf]

/-- It is the stretch of the comment that is blanked out. -/
theorem blanked_eq :
    C.blanked = source.blankedBetween C.comment.start.offset C.comment.stop.offset := by
  have hblanked : C.blanked =
      Token.textOf C.front ++ C.comment.text.blanked ++ Token.textOf C.behind := by
    rw [blanked, C.scan_eq, ← List.singleton_append, Token.blankedText_append,
      Token.blankedText_append, Token.blankedText_eq fun t ht => C.not_selects_front ht,
      Token.blankedText_eq fun t ht => C.not_selects_behind ht, List.append_assoc]
    simp [Token.blankedText, selects]
  have hsource : source = Token.textOf C.front ++ C.comment.text ++ Token.textOf C.behind := by
    conv_lhs => rw [← Token.textOf_scan C.known, C.scan_eq]
    rw [← List.singleton_append, Token.textOf_append, Token.textOf_append, List.append_assoc]
    simp [Token.textOf]
  have hmiddle := Text.blankedBetween_middle (Token.textOf C.front) C.comment.text
    (Token.textOf C.behind)
  rw [← hsource, ← C.start_eq] at hmiddle
  rw [hblanked, ← hmiddle, Token.stop, Position.advance_offset]

theorem significant_blanked :
    Token.significant (Token.scan C.blanked) = Token.significant (Token.scan source) :=
  Token.significant_scan_blanked C.known C.isComment_of_selects

/-- Of the stream the comment alone is missing. -/
theorem streamOf_blanked (marks : List Mark) :
    Script.streamOf marks (Token.scan C.blanked) =
      Script.streamOf marks C.front ++ Script.streamOf marks C.behind := by
  have hothers : (Token.scan source).filter (fun t => !C.selects t) = C.front ++ C.behind := by
    rw [C.scan_eq, List.filter_append, List.filter_cons_of_neg (by simp [selects]),
      List.filter_eq_self.mpr fun t ht => by rw [C.not_selects_front ht, Bool.not_false],
      List.filter_eq_self.mpr fun t ht => by rw [C.not_selects_behind ht, Bool.not_false]]
  have hvisible : (Token.visible (Token.scan source)).filter (fun t => !C.selects t) =
      Token.visible (C.front ++ C.behind) := by
    rw [← hothers, Token.visible, Token.visible, List.filter_comm]
  rw [← Script.streamOf_visible, blanked,
    Token.visible_scan_blanked C.known C.isComment_of_selects, hvisible, Script.streamOf_visible,
    Script.streamOf, List.filter_append, List.map_append]
  rfl

/-! ### The tree

Extents that contain the comment differ, and all others are cut out of both texts alike.
So the two trees are seen through a window that hides the former.
-/

/-- What the grammar sees stands before or behind the comment. -/
theorem before_or_behind {t : Token} (ht : t ∈ Token.significant (Token.scan source)) :
    t.stop.offset ≤ C.comment.start.offset ∨ C.comment.stop.offset ≤ t.start.offset := by
  obtain ⟨hscan, hsignificant⟩ := List.mem_filter.mp ht
  rw [C.scan_eq] at hscan
  rcases List.mem_append.mp hscan with hfront | hcons
  · exact .inl (C.front_before hfront)
  · rcases List.mem_cons.mp hcons with rfl | hbehind
    · rw [TokenKind.isSignificant_eq_false C.isComment] at hsignificant
      cases hsignificant
    · exact .inr (C.before_behind hbehind)

/-- What is cut out before the comment or behind it stays. -/
theorem slice_blanked {a b : Nat} (hb : b ≤ source.size)
    (h : b ≤ C.comment.start.offset ∨ C.comment.stop.offset ≤ a) :
    C.blanked.slice a b = source.slice a b := by
  rcases h with h | h
  · have hscan : Token.scan source = [] ++ C.front ++ C.comment :: C.behind := C.scan_eq
    refine Token.slice_blanked C.known hscan (fun t ht => C.not_selects_front ht)
      (Nat.zero_le _) ?_
    rw [C.start_eq] at h
    exact Nat.le_trans h (Nat.le_add_left _ _)
  · have hscan : Token.scan source = C.front ++ [C.comment] ++ C.behind ++ [] := by
      rw [C.scan_eq]
      simp
    refine Token.slice_blanked C.known hscan (fun t ht => C.not_selects_behind ht)
      (C.stop_eq ▸ h) ?_
    rw [← Text.size_append, ← Token.textOf_append]
    conv at hb => rw [← Token.textOf_scan C.known, hscan, List.append_nil]
    exact hb

/-- Both texts, looked at but for what contains the comment. -/
def window (hpaired : source.ReturnsPaired)
    (hbalanced : Nesting.Balanced (Token.significant (Token.scan source))) : Window :=
  .ofBlanked C.known C.isComment_of_selects hpaired hbalanced
    (fun n => (n ≤ C.comment.start.offset ∨ C.comment.stop.offset ≤ n) ∧ n ≤ source.size)
    (fun a b => ¬ (a ≤ C.comment.start.offset ∧ C.comment.stop.offset ≤ b))
    (fun _ _ => inferInstanceAs (Decidable (¬ (_ ∧ _))))
    (by
      rintro a b ⟨ha, -⟩ ⟨hb, hfits⟩ hseen
      rcases Nat.le_total b a with hab | hab
      · rw [Text.slice_eq_nil _ hab, Text.slice_eq_nil _ hab]
      · exact C.slice_blanked hfits (by omega))
    (fun t ht => by
      have hfits := (Token.standsIn_of_scan C.known hpaired (List.mem_filter.mp ht).1).fits
      have hsize : t.start.offset ≤ t.stop.offset := Position.offset_le_advance _ _
      have hside := C.before_or_behind ht
      exact ⟨⟨by omega, by omega⟩, ⟨by omega, by omega⟩⟩)

theorem look_window (hpaired : source.ReturnsPaired)
    (hbalanced : Nesting.Balanced (Token.significant (Token.scan source))) :
    (C.window hpaired hbalanced).look =
      .without source C.comment.start.offset C.comment.stop.offset := by
  unfold Window.look Relabelling.without
  congr
  funext e
  by_cases hcontains : e.Contains source C.comment.start.offset C.comment.stop.offset
  · rw [if_pos hcontains]
    exact if_neg fun hseen => hseen hcontains
  · rw [if_neg hcontains]
    exact if_pos hcontains

/-- Both texts, their texts aside. -/
def shared (hbalanced : Nesting.Balanced (Token.significant (Token.scan source))) : Shared where
  left := ⟨source, [], [], .textless⟩
  right := ⟨C.blanked, [], [], .textless⟩
  tokens := Token.significant (Token.scan source)
  Same e f := e.location = f.location
  look_eq h := congrArg (Extent.mk []) h
  token_eq _ _ := rfl
  head_eq _ _ := rfl
  same_token _ _ := rfl
  same_span _ taken _ _ hne := by
    obtain ⟨first, hfirst⟩ := Option.ne_none_iff_exists'.mp (mt List.head?_eq_none_iff.mp hne)
    obtain ⟨last, hlast⟩ := Option.ne_none_iff_exists'.mp (mt List.getLast?_eq_none_iff.mp hne)
    rw [Extent.ofTokens_eq hfirst hlast, Extent.ofTokens_eq hfirst hlast]
  same_joined h _ := h
  number_eq _ _ _ := rfl
  stops _ _ _ h := by cases h
  stops_kind _ h := by cases h
  balanced := hbalanced

/-- **The tree stays the same**, its texts aside, and the same tokens are marked. -/
theorem script_same (hbalanced : Nesting.Balanced (Token.significant (Token.scan source)))
    {items : List Item}
    (h : Grammar.script source (Token.significant (Token.scan source)) = .ok items) :
    ∃ read, Grammar.script C.blanked (Token.significant (Token.scan source)) = .ok read ∧
      (read.map (·.statement)).map (Statement.relabel .textless) =
        (items.map (·.statement)).map (Statement.relabel .textless) ∧
      read.flatMap (·.marks) = items.flatMap (·.marks) := by
  let S := C.shared hbalanced
  obtain ⟨read, hread, hsame⟩ := S.script_same ⟨rfl, rfl⟩ ⟨rfl, rfl⟩ h
  have hmarks := Parallel.marks_eq (T := S.parallel) hsame
  have hmark : ∀ mark : Mark, mark.relabel .textless = mark := fun _ => rfl
  change (items.flatMap (·.marks)).map (Mark.relabel .textless) =
    (read.flatMap (·.marks)).map (Mark.relabel .textless) at hmarks
  rw [funext hmark, List.map_id', List.map_id'] at hmarks
  exact ⟨read, hread, (Parallel.statements_eq (T := S.parallel) hsame).symm, hmarks.symm⟩

end CommentAt

/-! ### Parsed scripts -/

namespace Script

/-- What stands before a token of the stream and behind it. -/
theorem exists_of_streamOf {marks : List Mark} {tokens : List Token}
    {front behind : List ClassifiedToken} {c : ClassifiedToken}
    (h : streamOf marks tokens = front ++ c :: behind) : ∃ first t rest,
      tokens = first ++ t :: rest ∧ c = ClassifiedToken.of marks.reverse t ∧
        streamOf marks first = front ∧ streamOf marks rest = behind := by
  obtain ⟨seen, others, hseen, rfl, hothers⟩ := List.map_eq_append_iff.mp h
  obtain ⟨t, more, rfl, rfl, rfl⟩ := List.map_eq_cons_iff.mp hothers
  obtain ⟨first, rest, rfl, rfl, hrest⟩ := List.filter_eq_append_iff.mp hseen
  obtain ⟨blanks, last, rfl, hblanks, -, rfl⟩ := List.filter_eq_cons_iff.mp hrest
  refine ⟨first ++ blanks, t, last, by rw [List.append_assoc], rfl, ?_, rfl⟩
  rw [streamOf, List.filter_append, List.filter_eq_nil_iff.mpr hblanks, List.append_nil]

/-- A token of a script that comes out as a comment is one. -/
theorem isComment_of_role {source : Text} {items : List Item}
    (hknown : Token.unknowns (Token.scan source) = [])
    (hderives : Grammar.Derives source (Token.significant (Token.scan source)) (items.map .item))
    {t : Token}
    (hrole : (ClassifiedToken.of (items.flatMap (·.marks)).reverse t).role = .comment) :
    t.kind.isComment := by
  by_contra hkind
  obtain ⟨n, -, hexplains⟩ := explains_of_role hderives hknown
    (TokenRole.ofKind_ne_comment (Bool.eq_false_iff.mpr hkind)) hrole
  rcases hexplains.role with h | h <;> cases h

/-- **Comments are inert**: with spaces in the place of a comment the script is parsed to the other
tokens and to the same tree, its texts aside.  If every carriage return is followed by a line feed,
only the texts that contained the comment are not the same. -/
theorem parse_uncommented {source : Text} {script : Script} (h : parse source = .ok script)
    {front behind : List ClassifiedToken} {c : ClassifiedToken}
    (htokens : script.tokens = front ++ c :: behind) (hrole : c.role = .comment) :
    ∃ script', parse (source.blankedBetween c.start.offset c.stopOffset) = .ok script' ∧
      script'.tokens = front ++ behind ∧
      script'.statements.map (Statement.relabel .textless) =
        script.statements.map (Statement.relabel .textless) ∧
      (source.ReturnsPaired →
        script'.statements.map (Statement.relabel (.without source c.start.offset c.stopOffset)) =
          script.statements.map
            (Statement.relabel (.without source c.start.offset c.stopOffset))) := by
  obtain ⟨hknown, items, hitems, rfl⟩ := parse_eq_ok_iff.mp h
  obtain ⟨first, t, rest, hscan, rfl, rfl, rfl⟩ := exists_of_streamOf htokens
  have hcomment := isComment_of_role hknown (Grammar.derives_of_script hitems) hrole
  let C : CommentAt source := ⟨hknown, first, t, rest, hscan, hcomment⟩
  have hstop : (ClassifiedToken.of (items.flatMap (·.marks)).reverse t).stopOffset =
      C.comment.stop.offset := (Position.advance_offset _ _).symm
  have hbalanced := Grammar.balanced_of_script hitems
  obtain ⟨read, hread, hstatements, hmarks⟩ := C.script_same hbalanced hitems
  have hgrammar : Grammar.script C.blanked (Token.significant (Token.scan C.blanked)) =
      .ok read := by
    rw [C.significant_blanked]
    exact hread
  rw [hstop]
  change ∃ script', parse (source.blankedBetween C.comment.start.offset C.comment.stop.offset) =
    .ok script' ∧ _
  rw [← C.blanked_eq]
  refine ⟨_, parse_eq_ok_iff.mpr
    ⟨Token.unknowns_scan_blanked hknown C.isComment_of_selects, read, hgrammar, rfl⟩, ?_,
    hstatements, fun hpaired => ?_⟩
  · rw [hmarks]
    exact C.streamOf_blanked _
  · obtain ⟨read', hread', hsame, -⟩ := (C.window hpaired hbalanced).script_same hitems
    obtain rfl : read' = read := Except.ok.inj (hread'.symm.trans hread)
    rwa [C.look_window hpaired hbalanced] at hsame

/-- A comment over two lines within an assignment, and one behind it. -/
def commentedSource : Text := "x = <# one\r\ntwo #> 1 # end"

theorem parse_uncommented_assignment : ∃ script script' front behind c,
    parse commentedSource = .ok script ∧ script.tokens = front ++ c :: behind ∧
    c.role = .comment ∧ c.text = ("<# one\r\ntwo #>" : Text) ∧ commentedSource.ReturnsPaired ∧
    parse (commentedSource.blankedBetween c.start.offset c.stopOffset) = .ok script' ∧
    script'.tokens = front ++ behind ∧
    script'.statements.map
        (Statement.relabel (.without commentedSource c.start.offset c.stopOffset)) =
      script.statements.map
        (Statement.relabel (.without commentedSource c.start.offset c.stopOffset)) := by
  have htokens : (parse commentedSource).toOption.map (·.tokens) = some
      ([⟨.generic, "x", .start⟩, ⟨.punctuation, "=", ⟨⟨1, 3⟩, 2⟩⟩] ++
        ⟨.comment, "<# one\r\ntwo #>", ⟨⟨1, 5⟩, 4⟩⟩ ::
        [⟨.number, "1", ⟨⟨2, 8⟩, 19⟩⟩, ⟨.comment, "# end", ⟨⟨2, 10⟩, 21⟩⟩]) := by
    decide +kernel
  have hpaired : commentedSource.ReturnsPaired := by decide +kernel
  cases h : parse commentedSource with
  | error e =>
    rw [h] at htokens
    cases htokens
  | ok script =>
    rw [h] at htokens
    have hstream := Option.some.inj htokens
    obtain ⟨script', hparse, hothers, -, htree⟩ := parse_uncommented h hstream rfl
    exact ⟨script, script', _, _, _, rfl, hstream, rfl, rfl, hpaired, hparse, hothers,
      htree hpaired⟩

/-- The text of the list that is all that a script's one command has for arguments. -/
def listText? : List Statement → Option Text
  | [.pipeline _ [.command ⟨_, _, [.value (.array extent _ _)]⟩]] => some extent.text
  | _ => none

/-- A comment that ends with a lone carriage return, and a list behind it. -/
def returnSource : Text := "#   a, b\rfoo a, b"

/-- Behind a lone carriage return the text of a comma list is cut out of a comment. -/
theorem parse_uncommented_return : ¬ ∀ (source : Text) (script : Script)
    (front behind : List ClassifiedToken) (c : ClassifiedToken), parse source = .ok script →
    script.tokens = front ++ c :: behind → c.role = .comment →
    ∃ script', parse (source.blankedBetween c.start.offset c.stopOffset) = .ok script' ∧
      script'.statements.map (Statement.relabel (.without source c.start.offset c.stopOffset)) =
        script.statements.map
          (Statement.relabel (.without source c.start.offset c.stopOffset)) := by
  intro hinert
  have hstream : (parse returnSource).toOption.map (·.tokens) = some
      ([] ++ ⟨.comment, "#   a, b", .start⟩ :: [⟨.generic, "foo", ⟨⟨2, 1⟩, 9⟩⟩,
        ⟨.generic, "a", ⟨⟨2, 5⟩, 13⟩⟩, ⟨.punctuation, ",", ⟨⟨2, 6⟩, 14⟩⟩,
        ⟨.generic, "b", ⟨⟨2, 8⟩, 16⟩⟩]) := by
    decide +kernel
  have hcommented : (parse returnSource).toOption.map (fun script =>
      listText? (script.statements.map (Statement.relabel (.without returnSource 0 8)))) =
        some (some ("a, b" : Text)) := by
    decide +kernel
  have hblanked : (parse (returnSource.blankedBetween 0 8)).toOption.map (fun script =>
      listText? (script.statements.map (Statement.relabel (.without returnSource 0 8)))) =
        some (some ("    " : Text)) := by
    decide +kernel
  cases h : parse returnSource with
  | error e =>
    rw [h] at hstream
    cases hstream
  | ok script =>
    rw [h] at hstream hcommented
    obtain ⟨script', hparse, hsame⟩ := hinert _ script _ _ _ h (Option.some.inj hstream) rfl
    change parse (returnSource.blankedBetween 0 8) = _ at hparse
    rw [hparse] at hblanked
    have htexts := congrArg listText? hsame
    have hkept : some ("    " : Text) = some ("a, b" : Text) :=
      (Option.some.inj hblanked).symm.trans (htexts.trans (Option.some.inj hcommented))
    exact absurd hkept (by decide)

end Script

end DesiredState

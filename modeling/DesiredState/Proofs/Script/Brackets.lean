/-
What it is for brackets to nest.

Brackets nest when they fall into groups, each an opening bracket, brackets that nest
and the bracket that closes it.  The grammar never builds such groups: a rule that reads
an uninterpreted group keeps a stack of the brackets still to come, and all other rules
close what they open.  Both come to the same.  The tokens of a script nest, and a group
is read up to a closing bracket exactly when what stands between nests, whatever other
tokens are there.
-/
import DesiredState.Proofs.Script.Heads
import DesiredState.Proofs.Script.Passage

namespace DesiredState

/-- Whether a kind is a bracket: it opens a group or closes one. -/
def TokenKind.isBracket (kind : TokenKind) : Bool :=
  kind.closer?.isSome || kind == .parenClose || kind == .braceClose

/-- The brackets among tokens. -/
def Token.brackets (tokens : List Token) : List TokenKind :=
  (tokens.map Token.kind).filter TokenKind.isBracket

/-- Brackets that nest. -/
inductive Nested : List TokenKind → Prop
  | nil : Nested []
  | group {opener closer : TokenKind} {inner outer : List TokenKind}
      (hcloser : opener.closer? = some closer) (hinner : Nested inner) (houter : Nested outer) :
      Nested (opener :: (inner ++ closer :: outer))

namespace Token

@[simp] theorem brackets_nil : brackets [] = [] := rfl

@[simp] theorem brackets_append (first second : List Token) :
    brackets (first ++ second) = brackets first ++ brackets second := by
  simp [brackets]

theorem brackets_cons_of_isBracket {t : Token} (h : t.kind.isBracket) (rest : List Token) :
    brackets (t :: rest) = t.kind :: brackets rest := by
  rw [brackets, List.map_cons, List.filter_cons_of_pos h]
  rfl

theorem brackets_cons_of_not_isBracket {t : Token} (h : ¬t.kind.isBracket) (rest : List Token) :
    brackets (t :: rest) = brackets rest := by
  rw [brackets, List.map_cons, List.filter_cons_of_neg h]
  rfl

/-- Tokens whose brackets fall into two parts do so themselves. -/
theorem eq_append_of_brackets {tokens : List Token} {first second : List TokenKind}
    (h : brackets tokens = first ++ second) :
    ∃ front back, tokens = front ++ back ∧ brackets front = first ∧ brackets back = second := by
  obtain ⟨kinds, kinds', hkinds, hfirst, hsecond⟩ := List.filter_eq_append_iff.mp h
  obtain ⟨front, back, htokens, hfront, hback⟩ := List.map_eq_append_iff.mp hkinds
  exact ⟨front, back, htokens, by rw [brackets, hfront, hfirst], by rw [brackets, hback, hsecond]⟩

/-- Tokens of which a bracket is known have it behind tokens that are none. -/
theorem eq_append_cons_of_brackets {tokens : List Token} {kind : TokenKind}
    {rest : List TokenKind} (h : brackets tokens = kind :: rest) :
    ∃ front t back, tokens = front ++ t :: back ∧ brackets front = [] ∧ t.kind = kind ∧
      brackets back = rest := by
  obtain ⟨kinds, kinds', hkinds, hfirst, -, hsecond⟩ := List.filter_eq_cons_iff.mp h
  obtain ⟨front, behind, htokens, hfront, hbehind⟩ := List.map_eq_append_iff.mp hkinds
  obtain ⟨t, back, rfl, ht, hback⟩ := List.map_eq_cons_iff.mp hbehind
  refine ⟨front, t, back, htokens, ?_, ht, by rw [brackets, hback, hsecond]⟩
  rw [brackets, hfront]
  exact List.filter_eq_nil_iff.mpr hfirst

/-- The grammar sees all brackets. -/
theorem brackets_significant (tokens : List Token) :
    brackets (significant tokens) = brackets tokens := by
  have hseen : ∀ kind : TokenKind, (kind.isBracket && kind.isSignificant) = kind.isBracket := by
    intro kind
    cases kind <;> rfl
  simp only [brackets, significant, List.filter_map, List.filter_filter, Function.comp_def, hseen]

end Token

namespace Nesting

open Token

theorem isContent_of_not_isBracket {kind : TokenKind} (hs : kind.isSignificant)
    (hb : ¬kind.isBracket) : kind.isContent := by
  cases kind <;> first | rfl | exact absurd hs (by decide) | exact absurd rfl hb

theorem not_isBracket_of_isContent {kind : TokenKind} (h : kind.isContent) : ¬kind.isBracket := by
  cases kind <;> first | decide | exact absurd h (by decide)

theorem isBracket_of_closer? {opener closer : TokenKind} (h : opener.closer? = some closer) :
    opener.isBracket ∧ (closer = .parenClose ∨ closer = .braceClose) := by
  cases opener <;> cases h <;> decide

/-! ### The stack of brackets to come

A grammar of groups and a stack say the same thing of brackets.  The stack is what
reading keeps, and the groups are what a reader of the text has in mind.
-/

/-- Tokens without brackets leave the brackets to come as they are. -/
theorem run_of_brackets_nil {tokens : List Token} (hs : ∀ t ∈ tokens, t.kind.isSignificant)
    (h : brackets tokens = []) (stack : List TokenKind) : run stack tokens = some stack := by
  induction tokens with
  | nil => rfl
  | cons t rest ih =>
    have hb : ¬t.kind.isBracket := fun hb => by
      rw [brackets_cons_of_isBracket hb] at h
      exact List.cons_ne_nil _ _ h
    rw [brackets_cons_of_not_isBracket hb] at h
    have hcontent := isContent_of_not_isBracket (hs t List.mem_cons_self) hb
    have hpush : push stack t.kind = some stack := by
      simp [push, closer?_of_isContent hcontent, hcontent]
    rw [run, hpush, Option.bind_some]
    exact ih (fun u hu => hs u (List.mem_cons_of_mem t hu)) h

/-- Tokens whose brackets nest leave the brackets to come as they are. -/
theorem run_of_nested {tokens : List Token} (hs : ∀ t ∈ tokens, t.kind.isSignificant)
    (h : Nested (brackets tokens)) (stack : List TokenKind) : run stack tokens = some stack := by
  generalize hk : brackets tokens = kinds at h
  induction h generalizing tokens stack with
  | nil => exact run_of_brackets_nil hs hk stack
  | @group opener closer inner outer hcloser _ _ ihinner ihouter =>
    obtain ⟨before, t, behind, rfl, hbefore, ht, hbehind⟩ := eq_append_cons_of_brackets hk
    obtain ⟨within, after, rfl, hwithin, hafter⟩ := eq_append_of_brackets hbehind
    obtain ⟨gap, u, beyond, rfl, hgap, hu, hbeyond⟩ := eq_append_cons_of_brackets hafter
    subst ht hu
    simp only [List.forall_mem_append, List.forall_mem_cons] at hs
    obtain ⟨hsbefore, -, hswithin, hsgap, -, hsbeyond⟩ := hs
    have hopen : run stack [t] = some (u.kind :: stack) := moves_opener hcloser stack
    have hclose : run (u.kind :: stack) [u] = some stack :=
      moves_closer (isBracket_of_closer? hcloser).2 stack
    calc run stack (before ++ t :: (within ++ (gap ++ u :: beyond)))
        = run stack (before ++ ([t] ++ (within ++ (gap ++ ([u] ++ beyond))))) := rfl
      _ = some stack := by
        rw [run_append, run_of_brackets_nil hsbefore hbefore, Option.bind_some, run_append, hopen,
          Option.bind_some, run_append, ihinner hswithin _ hwithin, Option.bind_some, run_append,
          run_of_brackets_nil hsgap hgap, Option.bind_some, run_append, hclose, Option.bind_some,
          ihouter hsbeyond stack hbeyond]

/-- Groups are closed through tokens as the brackets to come go on. -/
theorem closeGroups_of_run {tokens : List Token} {stack stack' : List TokenKind}
    (h : run stack tokens = some stack') (closer : TokenKind) (outer : List TokenKind)
    (consumed rest : List Token) :
    Reading.closeGroups (stack ++ closer :: outer) consumed (tokens ++ rest) =
      Reading.closeGroups (stack' ++ closer :: outer) (tokens.reverse ++ consumed) rest := by
  induction tokens generalizing stack consumed with
  | nil =>
    cases h
    rfl
  | cons t tokens ih =>
    obtain ⟨after, hpush, hrun⟩ := Option.bind_eq_some_iff.mp h
    have hopen := push_append hpush (closer :: outer)
    rw [List.reverse_cons, List.append_assoc, List.singleton_append, ← ih hrun, List.cons_append]
    cases stack with
    | nil => rw [List.nil_append] at hopen ⊢; rw [closeGroups_cons, hopen]
    | cons top below => rw [List.cons_append] at hopen ⊢; rw [closeGroups_cons, hopen]

/-! ### Closing groups

A group is read by counting brackets and by nothing else, so that anything may stand in
it.  That it is read as a whole is then the same as that its brackets nest.
-/

/-- Brackets that close the open groups, of which the innermost comes first, and end with the last
of them. -/
def Closes : List TokenKind → List TokenKind → Prop
  | [], kinds => kinds = []
  | closer :: outer, kinds =>
    ∃ inner rest, kinds = inner ++ closer :: rest ∧ Nested inner ∧ Closes outer rest

theorem Closes.closer {outer kinds : List TokenKind} (h : Closes outer kinds) (closer : TokenKind) :
    Closes (closer :: outer) (closer :: kinds) :=
  ⟨[], kinds, rfl, Nested.nil, h⟩

/-- A group that opens within another one is a part of what stands in it. -/
theorem Closes.opener {opener inner closer : TokenKind} {outer kinds : List TokenKind}
    (hk : opener.closer? = some inner) (h : Closes (inner :: closer :: outer) kinds) :
    Closes (closer :: outer) (opener :: kinds) := by
  obtain ⟨within, _, rfl, hwithin, between, rest, rfl, hbetween, hrest⟩ := h
  refine ⟨opener :: (within ++ inner :: between), rest, ?_, ?_, hrest⟩
  · simp
  · exact Nested.group hk hwithin hbetween

/-- What is read in order to close groups closes them. -/
theorem closes_of_closeGroups {closers : List TokenKind} {consumed rest : List Token} {c' : Cursor}
    (hclosers : ∀ closer ∈ closers, closer.isBracket)
    (h : Reading.closeGroups closers consumed rest = .ok c') :
    ∃ tokens, rest = tokens ++ c'.rest ∧ Closes closers (brackets tokens) := by
  induction rest generalizing closers consumed with
  | nil =>
    cases closers with
    | nil => cases h; exact ⟨[], rfl, rfl⟩
    | cons closer outer => cases h
  | cons t rest ih =>
    cases closers with
    | nil => cases h; exact ⟨[], rfl, rfl⟩
    | cons closer outer =>
      rw [closeGroups_cons] at h
      cases hpush : push (closer :: outer) t.kind with
      | none => rw [hpush] at h; cases h
      | some after =>
        rw [hpush] at h
        rcases push_cases hpush with ⟨inner, hk, rfl⟩ | ⟨-, hcontent, rfl⟩ | ⟨-, -, hstack⟩
        · have hinner : inner.isBracket := by
            rcases (isBracket_of_closer? hk).2 with rfl | rfl <;> rfl
          obtain ⟨tokens, rfl, hcloses⟩ := ih (List.forall_mem_cons.mpr ⟨hinner, hclosers⟩) h
          refine ⟨t :: tokens, rfl, ?_⟩
          rw [brackets_cons_of_isBracket (isBracket_of_closer? hk).1]
          exact hcloses.opener hk
        · obtain ⟨tokens, rfl, hcloses⟩ := ih hclosers h
          refine ⟨t :: tokens, rfl, ?_⟩
          rwa [brackets_cons_of_not_isBracket (not_isBracket_of_isContent hcontent)]
        · obtain ⟨rfl, rfl⟩ := List.cons.inj hstack
          rw [List.forall_mem_cons] at hclosers
          obtain ⟨tokens, rfl, hcloses⟩ := ih hclosers.2 h
          refine ⟨t :: tokens, rfl, ?_⟩
          rw [brackets_cons_of_isBracket hclosers.1]
          exact hcloses.closer _

/-- Tokens that the grammar sees nest exactly if they leave no bracket to come. -/
theorem nested_iff_run {tokens : List Token} (hs : ∀ t ∈ tokens, t.kind.isSignificant) :
    Nested (brackets tokens) ↔ run [] tokens = some [] := by
  refine ⟨fun h => run_of_nested hs h [], fun h => ?_⟩
  -- Behind an open group the tokens and its closing bracket are read as the whole group.
  let last : Token := ⟨.parenClose, [], .start⟩
  have hclose : Reading.closeGroups [.parenClose] [] (tokens ++ [last]) =
      .ok ⟨last :: (tokens.reverse ++ []), []⟩ :=
    closeGroups_of_run h .parenClose [] [] [last]
  obtain ⟨taken, htaken, inner, rest, hkinds, hinner, hrest⟩ :=
    closes_of_closeGroups (by decide) hclose
  have hrest : rest = [] := hrest
  rw [List.append_nil] at htaken
  rw [← htaken, brackets_append, hrest] at hkinds
  have hsame : brackets tokens = inner := List.append_cancel_right hkinds
  rwa [hsame]

end Nesting

namespace Reading

open Nesting Token

/-- A group is read as its opening bracket says. -/
theorem passes_group_closes {opener : Token} {kind : TokenKind}
    (hk : opener.kind.closer? = some kind) {tokens consumed rest : List Token} :
    Passes group consumed (opener :: tokens) rest (fun _ => True) ↔
      closeGroups [kind] (opener :: consumed) (tokens ++ rest) =
        .ok ⟨(opener :: tokens).reverse ++ consumed, rest⟩ := by
  have hgroup : group ⟨consumed, opener :: tokens ++ rest⟩ =
      (closeGroups [kind] (opener :: consumed) (tokens ++ rest)).map ((), ·) := by
    rw [group, List.cons_append]
    simp only [hk]
    cases closeGroups [kind] (opener :: consumed) (tokens ++ rest) <;> rfl
  rw [Passes, hgroup]
  cases closeGroups [kind] (opener :: consumed) (tokens ++ rest) with
  | error e => simp [Except.map]
  | ok after => simp [Except.map]

/-- A group is read as a whole exactly if what it encloses nests. -/
theorem passes_group_iff {opener closer : Token} (hk : opener.kind.closer? = some closer.kind)
    {within : List Token} (hs : ∀ t ∈ within, t.kind.isSignificant) (consumed rest : List Token) :
    Passes group consumed (opener :: (within ++ [closer])) rest (fun _ => True) ↔
      Nested (brackets within) := by
  obtain ⟨hopener, hkind⟩ := isBracket_of_closer? hk
  have hcloser : closer.kind.isBracket := by
    rcases hkind with h | h <;> rw [h] <;> rfl
  have hclosed : closeGroups [closer.kind] (within.reverse ++ opener :: consumed) (closer :: rest) =
      .ok ⟨(opener :: (within ++ [closer])).reverse ++ consumed, rest⟩ := by
    have hpop : push [closer.kind] closer.kind = some [] := by
      rcases hkind with h | h <;> rw [h] <;> rfl
    rw [closeGroups_cons, hpop]
    simp [closeGroups]
  rw [passes_group_closes hk, List.append_assoc, List.singleton_append]
  constructor
  · intro h
    obtain ⟨taken, htaken, inner, behind, hkinds, hinner, hbehind⟩ :=
      closes_of_closeGroups (List.forall_mem_singleton.mpr hcloser) h
    have hall : taken = within ++ [closer] := by
      refine List.append_cancel_right (htaken.symm.trans ?_)
      rw [List.append_assoc, List.singleton_append]
    rw [hall, brackets_append, brackets_cons_of_isBracket hcloser, brackets_nil,
      show behind = [] from hbehind] at hkinds
    rwa [List.append_cancel_right hkinds]
  · intro h
    rw [← hclosed]
    exact closeGroups_of_run (run_of_nested hs h []) closer.kind [] _ _

/-- Of an expression that is built of a group nothing more is asked than that the group is read. -/
theorem passes_groupExpression_iff (source : Text) (build : Extent → Expression)
    {consumed tokens rest : List Token} :
    Passes (Grammar.groupExpression source build) consumed tokens rest (fun _ => True) ↔
      Passes group consumed tokens rest (fun _ => True) := by
  have hread : ∀ c, Grammar.groupExpression source build c = (group c).map fun result =>
      (⟨build (extentBetween source c result.2), []⟩, result.2) := by
    intro c
    unfold Grammar.groupExpression spanning
    change ((group c >>= fun result => _) >>= fun result => _) = _
    cases group c <;> rfl
  rw [Passes, Passes, hread]
  cases group ⟨consumed, tokens ++ rest⟩ with
  | error e => simp [Except.map]
  | ok result =>
    obtain ⟨⟨⟩, after⟩ := result
    simp [Except.map]

end Reading

/-- The tokens of a script nest. -/
theorem Script.nested_of_parse {source : Text} {script : Script} (h : parse source = .ok script) :
    Nested (Token.brackets (Token.scan source)) := by
  obtain ⟨-, items, hitems, -⟩ := parse_eq_ok_iff.mp h
  have hseen : ∀ t ∈ Token.significant (Token.scan source), t.kind.isSignificant :=
    fun t ht => (List.mem_filter.mp ht).2
  rw [← Token.brackets_significant, Nesting.nested_iff_run hseen]
  exact Grammar.balanced_of_script hitems []

/-- A primary that starts with a bracket which is not looked into is read as its group is. -/
theorem Reading.passes_primary_iff (source : Text) (below : Level) {opener : Token}
    (hopener : opener.kind ∈ [TokenKind.parenOpen, .subexpressionOpen, .braceOpen])
    {consumed tokens rest : List Token} :
    Passes (Grammar.primary source below) consumed (opener :: tokens) rest (fun _ => True) ↔
      Passes group consumed (opener :: tokens) rest (fun _ => True) := by
  have hprimary : ∃ build, Grammar.primary source below ⟨consumed, opener :: tokens ++ rest⟩ =
      Grammar.groupExpression source build ⟨consumed, opener :: tokens ++ rest⟩ := by
    obtain ⟨kind, text, start⟩ := opener
    simp only [List.mem_cons, List.not_mem_nil, or_false] at hopener
    rcases hopener with rfl | rfl | rfl <;> exact ⟨_, rfl⟩
  obtain ⟨build, hbuild⟩ := hprimary
  rw [← passes_groupExpression_iff source build, Passes, Passes, hbuild]

/-- **Brackets nest in every script, and a group or a script block is read as a whole exactly if
what it encloses nests.**  The tokens enclosed are any that the grammar sees, and nothing is said
of what comes before or after. -/
theorem brackets_nest (source : Text) :
    (∀ script, Script.parse source = .ok script → Nested (Token.brackets (Token.scan source))) ∧
      ∀ (below : Level) (opener closer : Token) (within consumed rest : List Token),
        opener.kind ∈ [TokenKind.parenOpen, .subexpressionOpen, .braceOpen] →
        opener.kind.closer? = some closer.kind → (∀ t ∈ within, t.kind.isSignificant) →
          (Reading.Passes Reading.group consumed (opener :: (within ++ [closer])) rest
            (fun _ => True) ↔ Nested (Token.brackets within)) ∧
          (Reading.Passes (Grammar.primary source below) consumed (opener :: (within ++ [closer]))
            rest (fun _ => True) ↔ Nested (Token.brackets within)) := by
  refine ⟨fun script => Script.nested_of_parse, ?_⟩
  intro below opener closer within consumed rest hopener hk hs
  have hgroup := Reading.passes_group_iff hk hs consumed rest
  exact ⟨hgroup, (Reading.passes_primary_iff source below hopener).trans hgroup⟩

/-- The tokens of a line, to be enclosed in brackets. -/
def enclosedTokens : List Token := Token.significant (Token.scan "a @(1, 2) -b \x7b $c \x7d ; d")

theorem brackets_nest_line : (∃ script, Script.parse "Foo $(a \x7b 1 \x7d)" = .ok script ∧
      Nested (Token.brackets (Token.scan "Foo $(a \x7b 1 \x7d)"))) ∧
    Reading.Passes (Grammar.primary [] (Grammar.level [] 1)) []
      (⟨.subexpressionOpen, "$(", .start⟩ :: (enclosedTokens ++ [⟨.parenClose, ")", .start⟩])) []
      (fun _ => True) := by
  have hnested : Nested (Token.brackets enclosedTokens) :=
    (Nesting.nested_iff_run (by decide +kernel)).mpr (by decide +kernel)
  have hparse : (Script.parse "Foo $(a \x7b 1 \x7d)").isOk := by decide +kernel
  refine ⟨?_, ?_⟩
  · cases hscript : Script.parse "Foo $(a \x7b 1 \x7d)" with
    | error e => rw [hscript] at hparse; cases hparse
    | ok script => exact ⟨script, rfl, (brackets_nest _).1 script hscript⟩
  · exact ((brackets_nest []).2 (Grammar.level [] 1) ⟨.subexpressionOpen, "$(", .start⟩
      ⟨.parenClose, ")", .start⟩ enclosedTokens [] [] (by decide) rfl (by decide +kernel)).2.mpr
      hnested

end DesiredState

/-
Brackets nest in whatever a rule reads.

The tokens that open and close groups work a stack of the brackets that are still to
come.  What a rule reads, be it a statement or one operand, leaves that stack as it
was.  So within a construct that has been read every open group is known to close, and
questions that look ahead into a group get the same answer whatever comes after the
construct.

`Reads` speaks of one cursor, since some rules take a token that the cursor has already
been asked about.
-/
import DesiredState.Proofs.Script.Parts

namespace DesiredState

namespace Nesting

/-- The brackets to come after a token of a kind, of which the innermost comes first. -/
def push (stack : List TokenKind) (kind : TokenKind) : Option (List TokenKind) :=
  match kind.closer? with
  | some closer => some (closer :: stack)
  | none =>
    if kind.isContent then some stack
    else
      match stack with
      | top :: outer => if kind = top then some outer else none
      | [] => none

/-- What a kind does to the brackets to come: it opens a group, is content, or is the innermost of
them. -/
theorem push_cases {stack after : List TokenKind} {kind : TokenKind}
    (h : push stack kind = some after) :
    (∃ closer, kind.closer? = some closer ∧ after = closer :: stack) ∨
      (kind.closer? = none ∧ kind.isContent ∧ after = stack) ∨
      (kind.closer? = none ∧ ¬kind.isContent ∧ stack = kind :: after) := by
  unfold push at h
  split at h
  · next closer hk => exact Or.inl ⟨closer, hk, (Option.some.inj h).symm⟩
  · next hk =>
    split at h
    · next hcontent => exact Or.inr (Or.inl ⟨hk, hcontent, (Option.some.inj h).symm⟩)
    · next hcontent =>
      split at h
      · split at h
        · next he => exact Or.inr (Or.inr ⟨hk, hcontent, by rw [he, Option.some.inj h]⟩)
        · cases h
      · cases h

/-- Brackets further out make no difference to one token. -/
theorem push_append {stack after : List TokenKind} {kind : TokenKind}
    (h : push stack kind = some after) (outer : List TokenKind) :
    push (stack ++ outer) kind = some (after ++ outer) := by
  rcases push_cases h with ⟨closer, hk, rfl⟩ | ⟨hk, hcontent, rfl⟩ | ⟨hk, hcontent, rfl⟩
  · simp [push, hk]
  · simp [push, hk, hcontent]
  · simp [push, hk, hcontent]

/-- The brackets to come after tokens. -/
def run : List TokenKind → List Token → Option (List TokenKind)
  | stack, [] => some stack
  | stack, t :: rest => (push stack t.kind).bind fun after => run after rest

/-- Tokens take one group of brackets to come to another, whatever lies further out. -/
def Moves (before after : List TokenKind) (tokens : List Token) : Prop :=
  ∀ outer, run (before ++ outer) tokens = some (after ++ outer)

/-- Tokens among which brackets nest. -/
def Balanced (tokens : List Token) : Prop := Moves [] [] tokens

theorem run_append (stack : List TokenKind) (first second : List Token) :
    run stack (first ++ second) = (run stack first).bind fun after => run after second := by
  induction first generalizing stack with
  | nil => rfl
  | cons t rest ih =>
    simp only [List.cons_append, run, Option.bind_assoc]
    exact congrArg _ (funext fun after => ih after)

theorem Moves.append {before middle after : List TokenKind} {first second : List Token}
    (hf : Moves before middle first) (hs : Moves middle after second) :
    Moves before after (first ++ second) := by
  intro outer
  rw [run_append, hf outer, Option.bind_some, hs outer]

theorem Moves.nil (stack : List TokenKind) : Moves stack stack [] := fun _ => rfl

/-- Brackets further out make no difference. -/
theorem Moves.frame {before after : List TokenKind} {tokens : List Token}
    (h : Moves before after tokens) (outer : List TokenKind) :
    Moves (before ++ outer) (after ++ outer) tokens := by
  intro further
  rw [List.append_assoc, List.append_assoc]
  exact h (outer ++ further)

theorem closer?_of_isContent {kind : TokenKind} (h : kind.isContent) : kind.closer? = none := by
  cases kind <;> first | rfl | exact absurd h (by decide)

theorem moves_content {t : Token} (h : t.kind.isContent) : Moves [] [] [t] := by
  intro outer
  simp [run, push, closer?_of_isContent h, h]

theorem moves_opener {t : Token} {closer : TokenKind} (h : t.kind.closer? = some closer) :
    Moves [] [closer] [t] := by
  intro outer
  simp [run, push, h]

theorem moves_closer {t : Token} (h : t.kind = .parenClose ∨ t.kind = .braceClose) :
    Moves [t.kind] [] [t] := by
  intro outer
  rcases h with h | h <;> simp [run, push, h, TokenKind.closer?, TokenKind.isContent]

/-! ### What a reading takes

How many tokens a reading takes is told along with what it does to the brackets to come,
since the one often follows from the other: an opening bracket is a token.
-/

/-- A reading from a cursor takes at least so many tokens, and they take one group of brackets to
come to another. -/
def Reads (c : Cursor) (least : Nat) (before after : List TokenKind) (r : Reading α) : Prop :=
  ∀ a c', r c = .ok (a, c') → ∃ tokens, c.rest = tokens ++ c'.rest ∧
    c'.consumed = tokens.reverse ++ c.consumed ∧ least ≤ tokens.length ∧
    Moves before after tokens

variable {α β : Type} {c : Cursor} {before middle after : List TokenKind}

theorem bind_ok {x : Reading α} {f : α → Reading β} {b : β} {c' : Cursor}
    (h : (x >>= f) c = .ok (b, c')) :
    ∃ a middle, x c = .ok (a, middle) ∧ f a middle = .ok (b, c') := by
  change (x c >>= fun result => f result.1 result.2) = _ at h
  cases hx : x c with
  | error e => rw [hx] at h; cases h
  | ok result =>
    rw [hx] at h
    exact ⟨result.1, result.2, rfl, h⟩

theorem Reads.bind {x : Reading α} {f : α → Reading β} {m n : Nat}
    (hx : Reads c m before middle x)
    (hf : ∀ a c', x c = .ok (a, c') → Reads c' n middle after (f a)) :
    Reads c (m + n) before after (x >>= f) := by
  intro b c' h
  obtain ⟨a, between, ha, hb⟩ := bind_ok h
  obtain ⟨tokens, hrest, hconsumed, hlen, hmoves⟩ := hx a between ha
  obtain ⟨tokens', hrest', hconsumed', hlen', hmoves'⟩ := hf a between ha b c' hb
  refine ⟨tokens ++ tokens', ?_, ?_, ?_, hmoves.append hmoves'⟩
  · rw [hrest, hrest', List.append_assoc]
  · rw [hconsumed', hconsumed, List.reverse_append, List.append_assoc]
  · rw [List.length_append]; omega

theorem Reads.mono {r : Reading α} {m n : Nat} (h : Reads c n before after r)
    (hle : m ≤ n) : Reads c m before after r := by
  intro a c' ha
  obtain ⟨tokens, hrest, hconsumed, hlen, hmoves⟩ := h a c' ha
  exact ⟨tokens, hrest, hconsumed, Nat.le_trans hle hlen, hmoves⟩

theorem Reads.frame {r : Reading α} {least : Nat} (h : Reads c least before after r)
    (outer : List TokenKind) : Reads c least (before ++ outer) (after ++ outer) r := by
  intro a c' ha
  obtain ⟨tokens, hrest, hconsumed, hlen, hmoves⟩ := h a c' ha
  exact ⟨tokens, hrest, hconsumed, hlen, hmoves.frame outer⟩

theorem Reads.pure (a : α) (stack : List TokenKind) :
    Reads c 0 stack stack (pure a : Reading α) := by
  intro b c' h
  cases h
  exact ⟨[], rfl, rfl, Nat.le_refl _, Moves.nil stack⟩

/-- Asking the cursor takes nothing. -/
theorem Reads.get {f : Cursor → Reading β} {least : Nat} (h : Reads c least before after (f c)) :
    Reads c least before after (get >>= f) := h

theorem Reads.nextIs {p : TokenKind → Bool} {f : Bool → Reading β} {least : Nat}
    (h : Reads c least before after (f (c.nextIs p))) :
    Reads c least before after (Reading.nextIs p >>= f) := h

theorem Reads.reject (cause : GrammarError.Cause) (least : Nat) :
    Reads c least before after (Reading.reject cause : Reading α) := by
  intro a c' h
  cases h

theorem nextIs_iff {p : TokenKind → Bool} : c.nextIs p = true ↔
    ∃ t rest, c.rest = t :: rest ∧ p t.kind := by
  unfold Cursor.nextIs
  split
  · next t rest heq =>
    rw [heq]
    constructor
    · intro h; exact ⟨t, rest, rfl, h⟩
    · rintro ⟨u, more, he, h⟩
      cases he
      exact h
  · next heq =>
    rw [heq]
    constructor
    · intro h; exact absurd h Bool.false_ne_true
    · rintro ⟨u, more, he, -⟩; cases he

theorem nextIs_of_nextKind? {kind : TokenKind} (h : c.nextKind? = some kind)
    (p : TokenKind → Bool) : c.nextIs p = p kind := by
  unfold Cursor.nextKind? at h
  unfold Cursor.nextIs
  split
  · next t rest heq =>
    rw [heq, List.head?_cons, Option.map_some, Option.some.injEq] at h
    rw [h]
  · next heq => rw [heq] at h; cases h

/-- A token that is known to be content. -/
theorem reads_token {p : TokenKind → Bool} (hc : c.nextIs p) (hp : ∀ kind, p kind → kind.isContent) :
    Reads c 1 [] [] Reading.token := by
  obtain ⟨t, rest, hrest, ht⟩ := nextIs_iff.mp hc
  intro a c' h
  unfold Reading.token at h
  rw [hrest] at h
  cases h
  exact ⟨[t], by rw [hrest]; rfl, rfl, Nat.le_refl _, moves_content (hp _ ht)⟩

theorem reads_tokenOf (what : Text) {p : TokenKind → Bool} {least : List TokenKind}
    (hp : ∀ t : Token, p t.kind → Moves before least [t]) :
    Reads c 1 before least (Reading.tokenOf what p) := by
  intro a c' h
  unfold Reading.tokenOf at h
  split at h
  · next t rest hrest =>
    by_cases ht : p t.kind
    · rw [if_pos ht] at h
      cases h
      exact ⟨[a], by rw [hrest]; rfl, rfl, Nat.le_refl _, hp a ht⟩
    · rw [if_neg ht] at h
      cases h
  · cases h

theorem kind_eq {t : Token} {kind : TokenKind} (h : (t.kind == kind) = true) : t.kind = kind :=
  beq_iff_eq.mp h

theorem reads_expect_opener {kind k : TokenKind} (hk : kind.closer? = some k) :
    Reads c 1 [] [k] (Reading.expect kind) := by
  refine reads_tokenOf _ ?_
  intro t ht
  exact moves_opener (kind_eq ht ▸ hk)

theorem reads_expect_closer {kind : TokenKind} (hk : kind = .parenClose ∨ kind = .braceClose) :
    Reads c 1 [kind] [] (Reading.expect kind) := by
  refine reads_tokenOf _ ?_
  intro t ht
  rw [← kind_eq ht] at hk ⊢
  exact moves_closer hk

theorem reads_expect_content {kind : TokenKind} (hk : kind.isContent) :
    Reads c 1 [] [] (Reading.expect kind) := by
  refine reads_tokenOf _ ?_
  intro t ht
  exact moves_content (kind_eq ht ▸ hk)

/-- What is read again and again takes nothing from the brackets to come if no reading does. -/
theorem reads_whileAtMost {enter : Cursor → Bool} {r : Reading α}
    (hr : ∀ c, enter c → Reads c 0 [] [] r) (n : Nat) (c : Cursor) :
    Reads c 0 [] [] (Reading.whileAtMost enter r n) := by
  induction n generalizing c with
  | zero => exact Reads.pure [] []
  | succ n ih =>
    unfold Reading.whileAtMost
    refine Reads.get ?_
    by_cases he : enter c
    · rw [if_pos he]
      refine Reads.bind (m := 0) (n := 0) (hr c he) ?_
      intro a c' _
      exact Reads.bind (m := 0) (n := 0) (ih c') fun b c'' _ => Reads.pure (a :: b) []
    · rw [if_neg he]
      exact Reads.pure [] []

theorem reads_readWhile {enter : Cursor → Bool} {r : Reading α}
    (hr : ∀ c, enter c → Reads c 0 [] [] r) : Reads c 0 [] [] (Reading.readWhile enter r) :=
  reads_whileAtMost hr c.rest.length c

/-- As long as a group is open, the next token does to the open groups what it does to the brackets
to come. -/
theorem closeGroups_cons (closer : TokenKind) (outer : List TokenKind) (consumed : List Token)
    (t : Token) (rest : List Token) :
    Reading.closeGroups (closer :: outer) consumed (t :: rest) =
      match push (closer :: outer) t.kind with
      | some after => Reading.closeGroups after (t :: consumed) rest
      | none => .error ⟨.expected closer.name, some t⟩ := by
  rw [Reading.closeGroups, push.eq_def]
  cases t.kind.closer? with
  | some inner => rfl
  | none =>
    by_cases hcontent : t.kind.isContent
    · simp only [if_pos hcontent]
    · by_cases hcloser : t.kind = closer
      · simp only [if_neg hcontent, if_pos hcloser]
      · simp only [if_neg hcontent, if_neg hcloser]

/-- Closing groups takes their brackets from those to come. -/
theorem moves_closeGroups {closers : List TokenKind} {consumed rest : List Token} {c' : Cursor}
    (h : Reading.closeGroups closers consumed rest = .ok c') :
    ∃ tokens, rest = tokens ++ c'.rest ∧ c'.consumed = tokens.reverse ++ consumed ∧
      Moves closers [] tokens := by
  induction rest generalizing closers consumed with
  | nil =>
    cases closers with
    | nil => cases h; exact ⟨[], rfl, rfl, Moves.nil []⟩
    | cons closer outer => cases h
  | cons t rest ih =>
    cases closers with
    | nil => cases h; exact ⟨[], rfl, rfl, Moves.nil []⟩
    | cons closer outer =>
      rw [closeGroups_cons] at h
      cases hpush : push (closer :: outer) t.kind with
      | none => rw [hpush] at h; cases h
      | some after =>
        rw [hpush] at h
        obtain ⟨tokens, hrest, hconsumed, hmoves⟩ := ih h
        refine ⟨t :: tokens, by rw [hrest]; rfl, by simp [hconsumed], ?_⟩
        intro further
        rw [run, push_append hpush, Option.bind_some, hmoves]

theorem reads_group : Reads c 1 [] [] Reading.group := by
  intro a c' h
  unfold Reading.group at h
  split at h
  · cases h
  · next t rest hrest =>
    split at h
    · next closer hk =>
      cases hc : Reading.closeGroups [closer] (t :: c.consumed) rest with
      | error e => rw [hc] at h; cases h
      | ok after =>
        rw [hc] at h
        cases h
        obtain ⟨tokens, hr, hconsumed, hmoves⟩ := moves_closeGroups hc
        refine ⟨t :: tokens, by rw [hrest, hr]; rfl, by simp [hconsumed], ?_, ?_⟩
        · rw [List.length_cons]; omega
        · exact (moves_opener hk).append hmoves
    · cases h

/-- A loop that is entered takes what its first round takes. -/
theorem reads_readWhile_first {enter : Cursor → Bool} {r : Reading α} (hc : enter c)
    (hne : c.rest ≠ []) (hr : ∀ c, enter c → Reads c 1 [] [] r) :
    Reads c 1 [] [] (Reading.readWhile enter r) := by
  obtain ⟨t, rest, hrest⟩ := List.exists_cons_of_ne_nil hne
  intro a c' h
  unfold Reading.readWhile at h
  rw [hrest, List.length_cons, Reading.whileAtMost] at h
  refine Reads.get (f := fun c => if enter c then _ else _) ?_ a c' h
  rw [if_pos hc]
  refine Reads.bind (m := 1) (n := 0) (hr c hc) ?_
  intro a c' _
  exact Reads.bind (m := 0) (n := 0)
    (reads_whileAtMost (fun c hc => (hr c hc).mono (Nat.zero_le 1)) _ c')
    fun b c'' _ => Reads.pure (a :: b) []

theorem Reads.spanning {source : Text} {r : Reading (Extent → α)} {least : Nat}
    (h : Reads c least before after r) :
    Reads c least before after (Reading.spanning source r) := by
  intro a c' ha
  obtain ⟨build, between, hb, he⟩ := bind_ok (f := fun build => fun c' =>
    .ok (build (Reading.extentBetween source c c'), c')) (x := r) (c := c) (b := a) ha
  cases he
  exact h build _ hb

/-! ### The rules

Outside of groups no rule leaves a bracket open.  So each of them takes no bracket to
come to none, and what stands around it may be added on both sides.
-/

open Grammar

section Rules

variable (source : Text) {below : Level}

/-- What the rules below are known to read. -/
structure Below (below : Level) : Prop where
  statement : ∀ c, Reads c 1 [] [] below.statement
  value : ∀ c, Reads c 1 [] [] below.value

theorem reads_itemOr (hb : Below below) {separates : TokenKind → Bool}
    (hs : ∀ kind, separates kind → kind.isContent) (c : Cursor) :
    Reads c 1 [] [] (itemOr below separates) := by
  unfold itemOr
  refine Reads.nextIs ?_
  by_cases h : c.nextIs separates
  · rw [if_pos h]
    exact Reads.bind (n := 0) (reads_token h hs) fun _ _ _ => Reads.pure _ _
  · rw [if_neg h]
    exact Reads.bind (n := 0) (hb.statement c) fun _ _ _ => Reads.pure _ _

theorem reads_items (hb : Below below) {separates : TokenKind → Bool}
    (hs : ∀ kind, separates kind → kind.isContent) (c : Cursor) :
    Reads c 0 [] [] (items below separates) :=
  Reads.bind (n := 0)
    (reads_readWhile fun c _ => (reads_itemOr hb hs c).mono (Nat.zero_le 1))
    fun _ _ _ => Reads.pure _ _

theorem isContent_of_eq {kind other : TokenKind} (ho : other.isContent)
    (h : (kind == other) = true) : kind.isContent := beq_iff_eq.mp h ▸ ho

theorem isContent_of_isName {kind : TokenKind} (h : kind.isName) : kind.isContent := by
  cases kind <;> first | rfl | exact absurd h (by decide)

theorem isContent_of_isString {kind : TokenKind} (h : kind.isString) : kind.isContent := by
  cases kind <;> first | rfl | exact absurd h (by decide)

theorem isContent_of_startsEntry {kind : TokenKind} (h : kind.startsEntry) : kind.isContent := by
  cases kind <;> first | rfl | exact absurd h (by decide)

theorem reads_body (hb : Below below) (c : Cursor) : Reads c 2 [] [] (body source below) := by
  refine Reads.spanning ?_
  refine Reads.bind (m := 1) (n := 1) (reads_expect_opener (k := .braceClose) rfl) ?_
  intro _ c _
  refine Reads.bind (m := 0) (n := 1)
    ((reads_items hb (fun _ => isContent_of_eq rfl) c).frame [.braceClose]) ?_
  intro _ c _
  exact Reads.bind (m := 1) (n := 0) (reads_expect_closer (Or.inr rfl))
    fun _ _ _ => Reads.pure _ _

theorem reads_bracketedArray (hb : Below below) (c : Cursor) :
    Reads c 2 [] [] (bracketedArray source below) := by
  refine Reads.spanning ?_
  refine Reads.bind (m := 1) (n := 1) (reads_expect_opener (k := .parenClose) rfl) ?_
  intro _ c _
  have hs : ∀ kind : TokenKind, (kind == .semicolon || kind == .comma) = true →
      kind.isContent := by
    intro kind h
    rcases Bool.or_eq_true _ _ ▸ h with h | h <;> exact isContent_of_eq rfl h
  refine Reads.bind (m := 0) (n := 1) ((reads_items hb hs c).frame [.parenClose]) ?_
  intro _ c _
  exact Reads.bind (m := 1) (n := 0) (reads_expect_closer (Or.inl rfl))
    fun _ _ _ => Reads.pure _ _

theorem reads_tableEntry (hb : Below below) (hc : c.nextIs TokenKind.startsEntry) :
    Reads c 3 [] [] (tableEntry below) := by
  refine Reads.bind (m := 1) (n := 2) (reads_token hc fun _ => isContent_of_startsEntry) ?_
  intro _ c _
  refine Reads.bind (m := 1) (n := 1) (reads_expect_content rfl) ?_
  intro _ c _
  exact Reads.bind (m := 1) (n := 0) (hb.value c) fun _ _ _ => Reads.pure _ _

theorem reads_entryOrSeparator (hb : Below below)
    (hc : c.nextIs fun kind => kind.startsEntry || kind == .semicolon) :
    Reads c 1 [] [] (entryOrSeparator below) := by
  unfold entryOrSeparator
  refine Reads.nextIs ?_
  by_cases h : c.nextIs (· == .semicolon)
  · rw [if_pos h]
    exact Reads.bind (m := 1) (n := 0) (reads_token h fun _ => isContent_of_eq rfl)
      fun _ _ _ => Reads.pure _ _
  · rw [if_neg h]
    have he : c.nextIs TokenKind.startsEntry := by
      obtain ⟨t, rest, hrest, ht⟩ := nextIs_iff.mp hc
      refine nextIs_iff.mpr ⟨t, rest, hrest, ?_⟩
      rcases Bool.or_eq_true _ _ ▸ ht with ht | ht
      · exact ht
      · exact absurd (nextIs_iff.mpr ⟨t, rest, hrest, ht⟩) h
    exact Reads.bind (m := 1) (n := 0) ((reads_tableEntry hb he).mono (by omega))
      fun _ _ _ => Reads.pure _ _

theorem reads_bracketedTable (hb : Below below) (c : Cursor) :
    Reads c 2 [] [] (bracketedTable source below) := by
  refine Reads.spanning ?_
  refine Reads.bind (m := 1) (n := 1) (reads_expect_opener (k := .braceClose) rfl) ?_
  intro _ c _
  refine Reads.bind (m := 0) (n := 1)
    (Reads.frame (reads_readWhile fun c hc => (reads_entryOrSeparator hb hc).mono (by omega))
      [.braceClose]) ?_
  intro _ c _
  exact Reads.bind (m := 1) (n := 0) (reads_expect_closer (Or.inr rfl))
    fun _ _ _ => Reads.pure _ _

theorem reads_tokenExpression {kind : TokenKind} (hk : kind.isContent)
    (hc : c.nextKind? = some kind) (build : Token → Extent → Expression) :
    Reads c 1 [] [] (tokenExpression source build) := by
  refine Reads.spanning ?_
  have hnext : c.nextIs (· == kind) := by
    rw [nextIs_of_nextKind? hc]
    exact beq_self_eq_true kind
  exact Reads.bind (m := 1) (n := 0) (reads_token hnext fun _ => isContent_of_eq hk)
    fun _ _ _ => Reads.pure _ _

theorem reads_groupExpression (build : Extent → Expression) :
    Reads c 1 [] [] (groupExpression source build) :=
  Reads.spanning (Reads.bind (m := 1) (n := 0) reads_group fun _ _ _ => Reads.pure _ _)

theorem reads_primary (hb : Below below) (c : Cursor) :
    Reads c 1 [] [] (primary source below) := by
  unfold primary
  refine Reads.get ?_
  split
  all_goals try exact reads_tokenExpression source rfl (by assumption) _
  · exact (reads_bracketedArray source hb c).mono (by omega)
  · exact (reads_bracketedTable source hb c).mono (by omega)
  · exact reads_groupExpression source _
  · exact reads_groupExpression source _
  · exact reads_groupExpression source _
  · exact Reads.reject _ _

theorem reads_tokenAt {kind : TokenKind} (hk : kind.isContent) (hc : c.nextKind? = some kind) :
    Reads c 1 [] [] Reading.token := by
  have hnext : c.nextIs (· == kind) := by
    rw [nextIs_of_nextKind? hc]
    exact beq_self_eq_true kind
  exact reads_token hnext fun _ => isContent_of_eq hk

theorem reads_name (what : Text) : Reads c 1 [] [] (Reading.tokenOf what TokenKind.isName) :=
  reads_tokenOf what fun _ ht => moves_content (isContent_of_isName ht)

theorem reads_access (c : Cursor) : Reads c 1 [] [] access := by
  unfold access
  refine Reads.get ?_
  split
  · next hk =>
    refine Reads.bind (m := 1) (n := 0) (reads_tokenAt rfl hk) ?_
    intro _ c _
    exact Reads.bind (m := 0) (n := 0) ((reads_name _).mono (by omega))
      fun _ _ _ => Reads.pure _ _
  · next hk =>
    refine Reads.bind (m := 1) (n := 0) (reads_tokenAt rfl hk) ?_
    intro _ c _
    exact Reads.bind (m := 0) (n := 0) ((reads_name _).mono (by omega))
      fun _ _ _ => Reads.pure _ _
  · next hk =>
    refine Reads.bind (m := 1) (n := 0) (reads_tokenAt rfl hk) ?_
    intro _ c _
    refine Reads.bind (m := 0) (n := 0) (reads_readWhile fun c hc => ?_) ?_
    · refine (reads_token hc ?_).mono (by omega)
      intro kind h
      exact (Bool.and_eq_true _ _ ▸ h).1
    intro _ c _
    exact Reads.bind (m := 0) (n := 0) ((reads_expect_content rfl).mono (by omega))
      fun _ _ _ => Reads.pure _ _
  · next hk =>
    exact Reads.bind (m := 1) (n := 0) (reads_tokenAt rfl hk) fun _ _ _ => Reads.pure _ _
  · exact Reads.bind (m := 1) (n := 0) reads_group fun _ _ _ => Reads.pure _ _

theorem reads_accesses (c : Cursor) : Reads c 0 [] [] accesses :=
  reads_readWhile fun c _ => (reads_access c).mono (by omega)

theorem reads_castValue (hb : Below below) (c : Cursor) :
    Reads c 0 [] [] (castValue source below) := by
  unfold castValue
  refine Reads.get ?_
  by_cases h : c.castValueFollows
  · rw [if_pos h]
    exact Reads.bind (m := 0) (n := 0) ((reads_primary source hb c).mono (by omega))
      fun _ _ _ => Reads.pure _ _
  · rw [if_neg h]
    exact Reads.pure _ _

theorem reads_unsigned (hb : Below below) (hasSign : Bool) (c : Cursor) :
    Reads c 1 [] [] (unsigned source below hasSign) := by
  refine Reads.nextIs ?_
  by_cases h : c.nextIs (· == .typeLiteral)
  · rw [if_pos h]
    have hne : c.rest ≠ [] := by
      obtain ⟨t, rest, hrest, -⟩ := nextIs_iff.mp h
      rw [hrest]
      exact List.cons_ne_nil t rest
    refine Reads.bind (m := 1) (n := 0) (reads_readWhile_first h hne ?_) ?_
    · intro c hc
      exact reads_token hc fun _ => isContent_of_eq rfl
    intro _ c _
    refine Reads.bind (m := 0) (n := 0) (reads_castValue source hb c) ?_
    intro _ c _
    exact Reads.bind (m := 0) (n := 0) (reads_accesses c) fun _ _ _ => Reads.pure _ _
  · rw [if_neg h]
    refine Reads.bind (m := 1) (n := 0) (reads_primary source hb c) ?_
    intro _ c _
    exact Reads.bind (m := 0) (n := 0) (reads_accesses c) fun _ _ _ => Reads.pure _ _

theorem reads_operand (hb : Below below) (c : Cursor) :
    Reads c 1 [] [] (operand source below) := by
  rw [operand_eq]
  refine Reads.spanning (Reads.nextIs ?_)
  refine Reads.bind (m := 0) (n := 1) ?_ fun _ c _ => reads_unsigned source hb _ c
  unfold sign
  by_cases h : c.nextIs (· == .operator)
  · rw [if_pos h]
    exact Reads.bind (m := 0) (n := 0)
      ((reads_token h fun _ => isContent_of_eq rfl).mono (by omega)) fun _ _ _ => Reads.pure _ _
  · rw [if_neg h]
    exact Reads.pure _ _

theorem nextIs_of_and {gate : Bool} {p : TokenKind → Bool} (h : (gate && c.nextIs p) = true) :
    c.nextIs p := (Bool.and_eq_true _ _ ▸ h).2

theorem reads_binary (hb : Below below) (c : Cursor) :
    Reads c 1 [] [] (binary source below) := by
  refine Reads.spanning ?_
  refine Reads.bind (m := 1) (n := 0) (reads_operand source hb c) ?_
  intro _ c _
  refine Reads.bind (m := 0) (n := 0) (reads_readWhile fun c hc => ?_)
    fun _ _ _ => Reads.pure _ _
  refine Reads.bind (m := 0) (n := 0)
    ((reads_token (nextIs_of_and hc) ?_).mono (Nat.zero_le 1)) fun _ c _ =>
      Reads.bind (n := 0) ((reads_operand source hb c).mono (Nat.zero_le 1))
        fun _ _ _ => Reads.pure _ _
  intro kind h
  rcases Bool.or_eq_true _ _ ▸ h with h | h <;> exact isContent_of_eq rfl h

theorem reads_expression (hb : Below below) (c : Cursor) :
    Reads c 1 [] [] (expression source below) := by
  refine Reads.spanning ?_
  refine Reads.bind (m := 1) (n := 0) (reads_binary source hb c) ?_
  intro _ c _
  refine Reads.bind (m := 0) (n := 0) (reads_readWhile fun c hc => ?_)
    fun _ _ _ => Reads.pure _ _
  exact Reads.bind (m := 0) (n := 0)
    ((reads_token hc fun _ => isContent_of_eq rfl).mono (Nat.zero_le 1))
    fun _ c _ => (reads_binary source hb c).mono (Nat.zero_le 1)

theorem reads_argument (hb : Below below) (c : Cursor) :
    Reads c 1 [] [] (argument source below) := by
  unfold argument
  refine Reads.get ?_
  split
  · next hk =>
    exact Reads.bind (m := 1) (n := 0) (reads_tokenAt rfl hk) fun _ _ _ => Reads.pure _ _
  · next hk =>
    exact Reads.bind (m := 1) (n := 0) (reads_tokenAt rfl hk) fun _ _ _ => Reads.pure _ _
  · next hk =>
    refine Reads.spanning ?_
    refine Reads.bind (m := 1) (n := 0) (reads_tokenAt rfl hk) ?_
    intro _ c _
    exact Reads.bind (m := 0) (n := 0) (reads_accesses c) fun _ _ _ => Reads.pure _ _
  · exact Reads.bind (m := 1) (n := 0) (reads_operand source hb c)
      fun _ _ _ => Reads.pure _ _

theorem reads_commandArguments (hb : Below below) (enter : Cursor → Bool) (c : Cursor) :
    Reads c 0 [] [] (commandArguments source below enter) :=
  Reads.bind (m := 0) (n := 0)
    (reads_readWhile fun c _ => (reads_argument source hb c).mono (by omega))
    fun _ _ _ => Reads.pure _ _

theorem reads_pipeTarget (hb : Below below) (hc : c.nextIs (· == .pipe)) :
    Reads c 2 [] [] (pipeTarget source below) := by
  refine Reads.bind (m := 1) (n := 1) (reads_token hc fun _ => isContent_of_eq rfl) ?_
  intro _ c _
  refine Reads.nextIs ?_
  by_cases h : c.nextIs (· == .bareword)
  · rw [if_pos h]
    refine Reads.spanning ?_
    refine Reads.bind (m := 1) (n := 0) (reads_token h fun _ => isContent_of_eq rfl) ?_
    intro _ c _
    exact Reads.bind (m := 0) (n := 0) (reads_commandArguments source hb _ c)
      fun _ _ _ => Reads.pure _ _
  · rw [if_neg h]
    exact Reads.bind (m := 1) (n := 0) (reads_expression source hb c)
      fun _ _ _ => Reads.pure _ _

theorem reads_pipes (hb : Below below) (c : Cursor) : Reads c 0 [] [] (pipes source below) :=
  Reads.bind (m := 0) (n := 0)
    (reads_readWhile fun _ hc => (reads_pipeTarget source hb hc).mono (by omega))
    fun _ _ _ => Reads.pure _ _

theorem reads_expressionOrAssignment (hb : Below below) (c : Cursor) :
    Reads c 1 [] [] (expressionOrAssignment source below) := by
  refine Reads.spanning ?_
  refine Reads.bind (m := 1) (n := 0) (reads_expression source hb c) ?_
  intro _ c _
  refine Reads.nextIs ?_
  by_cases h : c.nextIs (· == .equals)
  · rw [if_pos h]
    refine Reads.bind (m := 0) (n := 0)
      ((reads_token h fun _ => isContent_of_eq rfl).mono (by omega)) ?_
    intro _ c _
    exact Reads.bind (m := 0) (n := 0) ((hb.value c).mono (by omega))
      fun _ _ _ => Reads.pure _ _
  · rw [if_neg h]
    exact Reads.bind (m := 0) (n := 0) (reads_pipes source hb c)
      fun _ _ _ => Reads.pure _ _

theorem reads_keyed (hb : Below below) (hc : c.nextIs TokenKind.isName) :
    Reads c 3 [] [] (keyed source below) := by
  refine Reads.spanning ?_
  refine Reads.bind (m := 1) (n := 2) (reads_token hc fun _ => isContent_of_isName) ?_
  intro _ c _
  refine Reads.bind (m := 1) (n := 1) (reads_expect_content rfl) ?_
  intro _ c _
  exact Reads.bind (m := 1) (n := 0) (hb.value c) fun _ _ _ => Reads.pure _ _

theorem reads_optionalBody (hb : Below below) (c : Cursor) :
    Reads c 0 [] [] (optionalBody source below) := by
  refine Reads.nextIs ?_
  by_cases h : c.nextIs (· == .braceOpen)
  · rw [if_pos h]
    exact Reads.bind (m := 0) (n := 0) ((reads_body source hb c).mono (by omega))
      fun _ _ _ => Reads.pure _ _
  · rw [if_neg h]
    exact Reads.pure _ _

theorem reads_command (hb : Below below) (hc : c.nextIs TokenKind.isName) :
    Reads c 1 [] [] (command source below) := by
  refine Reads.spanning ?_
  refine Reads.bind (m := 1) (n := 0) (reads_token hc fun _ => isContent_of_isName) ?_
  intro _ c _
  refine Reads.bind (m := 0) (n := 0) (reads_commandArguments source hb _ c) ?_
  intro _ c _
  refine Reads.bind (m := 0) (n := 0) (reads_optionalBody source hb c) ?_
  intro _ c _
  exact Reads.bind (m := 0) (n := 0) (reads_pipes source hb c) fun _ _ _ => Reads.pure _ _

theorem reads_wordStatement (hb : Below below) (hc : c.nextIs TokenKind.isName) :
    Reads c 1 [] [] (wordStatement source below) := by
  unfold wordStatement
  refine Reads.get ?_
  have hkeyed := (reads_keyed source hb hc).mono (m := 1) (by omega)
  have hcommand := reads_command source hb hc
  split
  · split
    · exact hkeyed
    · exact hcommand
  · split
    · exact hkeyed
    · exact hcommand
  · exact Reads.reject _ _

theorem reads_value (hb : Below below) (c : Cursor) : Reads c 1 [] [] (value source below) := by
  refine Reads.nextIs ?_
  by_cases h : c.nextIs TokenKind.isName
  · rw [if_pos h]
    exact Reads.bind (m := 1) (n := 0) (reads_wordStatement source hb h)
      fun _ _ _ => Reads.pure _ _
  · rw [if_neg h]
    exact reads_expressionOrAssignment source hb c

/-- The second token of a cursor is the first one of the cursor behind the first. -/
theorem reads_second {p : TokenKind → Bool} (hp : ∀ kind, p kind → kind.isContent)
    {t : Token} {c' : Cursor} (ht : Reading.token c = .ok (t, c'))
    (h : ((c.rest.drop 1).head?.map Token.kind).any p) : Reads c' 1 [] [] Reading.token := by
  unfold Reading.token at ht
  split at ht
  · next first rest hrest =>
    cases ht
    rw [hrest, List.drop_one, List.tail_cons] at h
    cases rest with
    | nil => exact absurd h Bool.false_ne_true
    | cons second rest => exact reads_token (nextIs_iff.mpr ⟨second, rest, rfl, h⟩) hp
  · cases ht

theorem reads_configuration (hb : Below below) (hc : c.nextIs TokenKind.isKeyword)
    (h : ((c.rest.drop 1).head?.map Token.kind).any fun kind => kind.isName || kind.isString) :
    Reads c 1 [] [] (configuration source below) := by
  have hkeyword : ∀ kind : TokenKind, kind.isKeyword → kind.isContent := by
    intro kind hk
    cases kind <;> first | rfl | exact absurd hk (by decide)
  have hname : ∀ kind : TokenKind, (kind.isName || kind.isString) = true → kind.isContent := by
    intro kind hk
    rcases Bool.or_eq_true _ _ ▸ hk with hk | hk
    · exact isContent_of_isName hk
    · exact isContent_of_isString hk
  refine Reads.spanning ?_
  refine Reads.bind (m := 1) (n := 0) (reads_token hc hkeyword) ?_
  intro t c' ht
  refine Reads.bind (m := 0) (n := 0)
    ((reads_second hname ht h).mono (Nat.zero_le 1)) ?_
  intro _ c _
  exact Reads.bind (m := 0) (n := 0) ((reads_body source hb c).mono (Nat.zero_le 2))
    fun _ _ _ => Reads.pure _ _

theorem reads_target (hb : Below below) (c : Cursor) :
    Reads c 1 [] [] (target source below) := by
  refine Reads.nextIs ?_
  by_cases h : c.nextIs (· == .bareword)
  · rw [if_pos h]
    exact Reads.bind (m := 1) (n := 0) (reads_token h fun _ => isContent_of_eq rfl)
      fun _ _ _ => Reads.pure _ _
  · rw [if_neg h]
    exact reads_operand source hb c

theorem reads_node (hb : Below below) (hc : c.nextKind? = some .node) :
    Reads c 1 [] [] (node source below) := by
  rw [node_eq]
  refine Reads.spanning ?_
  refine Reads.bind (m := 1) (n := 0) (reads_tokenAt rfl hc) ?_
  intro _ c _
  refine Reads.bind (m := 0) (n := 0)
    ((reads_target source hb c).mono (Nat.zero_le 1)) ?_
  intro _ c _
  exact Reads.bind (m := 0) (n := 0) ((reads_body source hb c).mono (Nat.zero_le 2))
    fun _ _ _ => Reads.pure _ _

theorem reads_param (hc : c.nextKind? = some .param) : Reads c 1 [] [] (param source) := by
  refine Reads.spanning ?_
  refine Reads.bind (m := 1) (n := 0) (reads_tokenAt rfl hc) ?_
  intro _ c _
  exact Reads.bind (m := 0) (n := 0) (reads_group.mono (Nat.zero_le 1))
    fun _ _ _ => Reads.pure _ _

theorem reads_statement (hb : Below below) (c : Cursor) :
    Reads c 1 [] [] (statement source below) := by
  unfold statement
  refine Reads.get ?_
  simp only []
  have word : ∀ {kind : TokenKind}, kind.isName → c.nextKind? = some kind →
      Reads c 1 [] [] (wordStatement source below) := by
    intro kind hk hc
    exact reads_wordStatement source hb ((nextIs_of_nextKind? hc _).trans hk)
  split
  · next hc =>
    split
    · next h => exact reads_configuration source hb (nextIs_of_nextKind? hc _) h
    · split
      · exact word rfl hc
      · exact Reads.reject _ _
  · next hc =>
    split
    · exact reads_node source hb hc
    · split
      · exact word rfl hc
      · exact Reads.reject _ _
  · next hc =>
    split
    · exact reads_param source hc
    · split
      · exact word rfl hc
      · exact Reads.reject _ _
  · next hc => exact word rfl hc
  · exact Reads.bind (m := 1) (n := 0) (reads_expressionOrAssignment source hb c)
      fun _ _ _ => Reads.pure _ _

end Rules

/-- **Brackets nest in what any level reads.** -/
theorem below_level (source : Text) (n : Nat) : Below (level source n) := by
  induction n with
  | zero => exact ⟨fun _ => Reads.reject _ _, fun _ => Reads.reject _ _⟩
  | succ n ih => exact ⟨reads_statement source ih, reads_value source ih⟩

/-! ### Looking ahead -/

/-- If tokens close all groups that are open before them, the innermost ones are found to go on,
whatever comes after the tokens. -/
theorem continuesGroups_of_run {tokens : List Token} {s outer : List TokenKind}
    (h : run (s ++ outer) tokens = some []) (n : Nat) (rest : List Token) :
    Cursor.continuesGroups n s (tokens ++ rest) = true := by
  induction n generalizing tokens s with
  | zero => unfold Cursor.continuesGroups; rfl
  | succ n ih =>
    cases s with
    | nil => unfold Cursor.continuesGroups; rfl
    | cons closer inner =>
      cases tokens with
      | nil => exact absurd (Option.some.inj h) (List.cons_ne_nil _ _)
      | cons t tokens =>
        rw [run, push.eq_def] at h
        rw [List.cons_append, Cursor.continuesGroups]
        cases hk : t.kind.closer? with
        | some opened =>
          rw [hk] at h
          exact ih (s := opened :: closer :: inner) h
        | none =>
          rw [hk] at h
          by_cases hcontent : t.kind.isContent
          · rw [if_pos hcontent] at h ⊢
            exact ih (s := closer :: inner) h
          · rw [if_neg hcontent, List.cons_append] at h
            rw [if_neg hcontent]
            by_cases he : t.kind = closer
            · simp only [he, if_true, Option.bind_some] at h
              rw [he, beq_self_eq_true, Bool.true_and]
              exact ih h
            · simp only [he, if_false, Option.bind_none] at h
              exact absurd h (by simp)

/-- In tokens among which brackets nest, a group that opens is found to go on, whatever comes
after the tokens. -/
theorem Balanced.continuesGroups {tokens before after : List Token} {t : Token}
    (h : Balanced tokens) (hsplit : tokens = before ++ t :: after) {closer : TokenKind}
    (hk : t.kind.closer? = some closer) (n : Nat) (rest : List Token) :
    Cursor.continuesGroups n [closer] (after ++ rest) = true := by
  have hrun := h []
  rw [hsplit, run_append] at hrun
  obtain ⟨stack, -, hafter⟩ := Option.bind_eq_some_iff.mp hrun
  rw [run, push.eq_def, hk] at hafter
  exact continuesGroups_of_run (s := [closer]) hafter n rest

end Nesting

end DesiredState

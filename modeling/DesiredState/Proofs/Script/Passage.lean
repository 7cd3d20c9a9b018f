/-
Rules that read given tokens.

When a text has been written and its tokens are known, what a rule makes of them is
found by following the rule: it reads just these tokens, whatever came before them and
whatever comes after, and gives a result of which something is known.  `Passes` says
this of one reading, and it goes through binds, loops and extents, so that a rule is
followed in the order in which it is written.

What comes after matters only where a rule asks whether to go on.  `Ends` describes
the tokens at which every value ends: a closing bracket, or a name on a later line.
-/
import DesiredState.Proofs.Script.Parts

namespace DesiredState

/-- The extent of tokens that stand in a source. -/
def Extent.ofTokens (source : Text) (tokens : List Token) : Extent :=
  match tokens.head?, tokens.getLast? with
  | some first, some last => ⟨source.slice first.start.offset last.stop.offset, first.location⟩
  | _, _ => ⟨[], ⟨1, 1⟩⟩

namespace Reading

/-- A reading reads just these tokens and gives a result of which something P. -/
def Passes (r : Reading α) (consumed tokens rest : List Token) (P : α → Prop) : Prop :=
  ∃ a, r ⟨consumed, tokens ++ rest⟩ = .ok (a, ⟨tokens.reverse ++ consumed, rest⟩) ∧ P a

/-- The extent between two cursors is that of the tokens between them. -/
theorem extentBetween_eq (source : Text) {tokens : List Token} (consumed rest : List Token)
    (hne : tokens ≠ []) :
    extentBetween source ⟨consumed, tokens ++ rest⟩ ⟨tokens.reverse ++ consumed, rest⟩ =
      .ofTokens source tokens := by
  obtain ⟨first, more, rfl⟩ := List.exists_cons_of_ne_nil hne
  obtain ⟨front, last, hlast⟩ := List.eq_nil_or_concat (first :: more) |>.resolve_left hne
  unfold extentBetween Extent.ofTokens
  rw [hlast]
  simp only [List.concat_eq_append, List.reverse_append, List.reverse_cons, List.reverse_nil,
    List.nil_append, List.cons_append, List.getLast?_append, List.getLast?_singleton,
    Option.some_or]
  rw [← List.concat_eq_append, ← hlast]
  rfl

namespace Passes

variable {r : Reading α} {f : α → Reading β} {consumed tokens rest : List Token}
  {P : α → Prop} {Q : β → Prop}

theorem mono {weaker : α → Prop} (h : Passes r consumed tokens rest P)
    (hw : ∀ a, P a → weaker a) : Passes r consumed tokens rest weaker := by
  obtain ⟨a, hr, ha⟩ := h
  exact ⟨a, hr, hw a ha⟩

/-- A reading has one result. -/
theorem exists_eq (h : Passes r consumed tokens rest P) :
    ∃ a, P a ∧ Passes r consumed tokens rest (· = a) := by
  obtain ⟨a, hr, ha⟩ := h
  exact ⟨a, ha, a, hr, rfl⟩

theorem pure {a : α} (h : P a) : Passes (Pure.pure a) consumed [] rest P := ⟨a, rfl, h⟩

theorem bind {s t : List Token} (hr : Passes r consumed s (t ++ rest) P)
    (hf : ∀ a, P a → Passes (f a) (s.reverse ++ consumed) t rest Q) :
    Passes (r >>= f) consumed (s ++ t) rest Q := by
  obtain ⟨a, hr, ha⟩ := hr
  obtain ⟨b, hb, hholds⟩ := hf a ha
  refine ⟨b, ?_, hholds⟩
  rw [List.append_assoc, List.reverse_append, List.append_assoc]
  change (r ⟨consumed, s ++ (t ++ rest)⟩ >>= fun result => f result.1 result.2) = _
  rw [hr]
  exact hb

/-- What comes after the last token that is read. -/
theorem last (hr : Passes r consumed tokens rest P)
    (hf : ∀ a, P a → Passes (f a) (tokens.reverse ++ consumed) [] rest Q) :
    Passes (r >>= f) consumed tokens rest Q := by
  have h := Passes.bind (t := []) (by rw [List.nil_append]; exact hr) hf
  rwa [List.append_nil] at h

/-- The last thing that is read, and then only a result is made of it. -/
theorem map {g : α → β} (hr : Passes r consumed tokens rest P)
    (hg : ∀ a, P a → Q (g a)) :
    Passes (r >>= fun a => Pure.pure (g a)) consumed tokens rest Q :=
  hr.last fun a ha => Passes.pure (hg a ha)

theorem nextIs {p : TokenKind → Bool} {f : Bool → Reading β}
    (h : Passes (f (Cursor.nextIs ⟨consumed, tokens ++ rest⟩ p)) consumed tokens rest Q) :
    Passes (Reading.nextIs p >>= f) consumed tokens rest Q := h

theorem get {f : Cursor → Reading β}
    (h : Passes (f ⟨consumed, tokens ++ rest⟩) consumed tokens rest Q) :
    Passes (MonadState.get >>= f) consumed tokens rest Q := h

theorem token (t : Token) : Passes Reading.token consumed [t] rest (· = t) := ⟨t, rfl, rfl⟩

theorem tokenOf (what : Text) {p : TokenKind → Bool} {t : Token} (h : p t.kind) :
    Passes (Reading.tokenOf what p) consumed [t] rest (· = t) := by
  refine ⟨t, ?_, rfl⟩
  simp [Reading.tokenOf, h]

theorem expect {kind : TokenKind} {t : Token} (h : t.kind = kind) :
    Passes (Reading.expect kind) consumed [t] rest (· = t) :=
  tokenOf _ (by rw [h]; exact beq_self_eq_true kind)

theorem spanning {source : Text} {r : Reading (Extent → α)} (hne : tokens ≠ [])
    (h : Passes r consumed tokens rest fun build => P (build (.ofTokens source tokens))) :
    Passes (Reading.spanning source r) consumed tokens rest P := by
  obtain ⟨build, hr, hb⟩ := h
  refine ⟨_, ?_, hb⟩
  unfold Reading.spanning
  rw [hr, ← extentBetween_eq source consumed rest hne]
  rfl

/-! ### Loops -/

theorem whileAtMost_stop {enter : Cursor → Bool} (n : Nat) {P : List α → Prop}
    (he : enter ⟨consumed, rest⟩ = false) (h : P []) :
    Passes (whileAtMost enter r n) consumed [] rest P := by
  cases n with
  | zero => exact Passes.pure h
  | succ n =>
    refine Passes.get ?_
    rw [List.nil_append, if_neg (by rw [he]; exact Bool.false_ne_true)]
    exact Passes.pure h

theorem whileAtMost_step {enter : Cursor → Bool} {n : Nat} {s t : List Token}
    {Q : List α → Prop} (he : enter ⟨consumed, s ++ t ++ rest⟩ = true)
    (hr : Passes r consumed s (t ++ rest) P)
    (hmore : ∀ a, P a → Passes (whileAtMost enter r n) (s.reverse ++ consumed) t rest
      fun list => Q (a :: list)) :
    Passes (whileAtMost enter r (n + 1)) consumed (s ++ t) rest Q := by
  refine Passes.get ?_
  rw [if_pos he]
  exact Passes.bind hr fun a ha => Passes.map (hmore a ha) fun _ h => h

/-- A loop may run as often as there are tokens. -/
theorem readWhile {enter : Cursor → Bool} {P : List α → Prop}
    (h : ∀ n, tokens.length ≤ n → Passes (whileAtMost enter r n) consumed tokens rest P) :
    Passes (Reading.readWhile enter r) consumed tokens rest P :=
  h _ (by rw [List.length_append]; exact Nat.le_add_right _ _)

/-- A loop that is not entered. -/
theorem readWhile_stop {enter : Cursor → Bool} {P : List α → Prop}
    (he : enter ⟨consumed, rest⟩ = false) (h : P []) :
    Passes (Reading.readWhile enter r) consumed [] rest P :=
  readWhile fun n _ => whileAtMost_stop n he h

end Passes

end Reading

/-! ### Where values end

A value that has been read could go on with the next token.  What ends every value is a
closing bracket or a name on a later line, and lists and elements end at a few kinds
more.
-/

/-- The next token, if there is one, is of a kind of some sort. -/
def Cursor.Meets (rest : List Token) (p : TokenKind → Bool) : Prop :=
  ∀ t, rest.head? = some t → p t.kind

namespace Cursor

variable {consumed rest : List Token} {p q : TokenKind → Bool}

theorem Meets.mono (h : Meets rest p) (hpq : ∀ kind, p kind → q kind) : Meets rest q :=
  fun t ht => hpq _ (h t ht)

theorem Meets.cons {t : Token} (h : p t.kind) : Meets (t :: rest) p := by
  intro u hu
  cases hu
  exact h

theorem Meets.nil : Meets [] p := by
  intro t ht
  cases ht

/-- What is met is of no kind of another sort. -/
theorem Meets.nextIs (h : Meets rest p) (hpq : ∀ kind, p kind → q kind = false) :
    Cursor.nextIs ⟨consumed, rest⟩ q = false := by
  cases rest with
  | nil => rfl
  | cons t rest => exact hpq _ (h t rfl)

theorem Meets.accessFollows (h : Meets rest p) (hp : ∀ kind, p kind → kind.startsAccess = false) :
    Cursor.accessFollows ⟨consumed, rest⟩ = false := by
  unfold Cursor.accessFollows
  rw [h.nextIs hp, Bool.and_false, Bool.false_and]

/-- What comes after tokens that end on a line ends every value: a closing bracket, or a name on
a later line. -/
def Ends (line : Nat) (rest : List Token) : Prop :=
  ∀ t, rest.head? = some t → t.kind = .parenClose ∨ t.kind = .braceClose ∨
    (t.kind.isName ∧ line < t.start.line)

/-- The kinds at which values end. -/
def endsValue (kind : TokenKind) : Bool :=
  kind == .parenClose || kind == .braceClose || kind.isName

/-- The kinds at which the elements of a comma list end. -/
def endsElement (kind : TokenKind) : Bool := kind == .comma || endsValue kind

theorem Ends.meets {line : Nat} (h : Ends line rest) : Meets rest endsValue := by
  intro t ht
  rcases h t ht with h | h | h <;> simp [endsValue, h]

theorem Ends.mono {line less : Nat} (h : Ends line rest) (hle : less ≤ line) : Ends less rest := by
  intro t ht
  rcases h t ht with h | h | ⟨hk, hl⟩
  · exact Or.inl h
  · exact Or.inr (Or.inl h)
  · exact Or.inr (Or.inr ⟨hk, Nat.lt_of_le_of_lt hle hl⟩)

theorem endsElement_of_endsValue (kind : TokenKind) (h : endsValue kind) : endsElement kind := by
  unfold endsElement
  rw [h, Bool.or_true]

end Cursor

end DesiredState

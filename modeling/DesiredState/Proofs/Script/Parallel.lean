/-
Two texts read in parallel.

Rules decide by the kinds of tokens, by whether a token stands on the line of the one
before it or touches it, and at two places by what comes after.  So where two texts have
tokens in common, of which these things are the same, whatever a rule reads of the one
it also reads of the other, and the nodes are the same up to extents and places.

A `Parallel` is such a stretch of common tokens with what stands around it on each side.
The stretch need not be all there is: what comes after it on the right ends every value,
and a reading on the left that leaves what comes after it alone is followed by the same
reading on the right.  `Keeps` says this of one rule at one place of the stretch; it goes
through binds, loops and extents, and from rule to rule up to the levels.
-/
import Mathlib.Data.List.Forall2
import DesiredState.Proofs.Script.Nesting
import DesiredState.Proofs.Script.Passage
import DesiredState.Proofs.Script.Relabelling

namespace DesiredState

/-! ### How many tokens a reading takes

Loops have as many rounds as there are tokens left, and the two sides do not have as
many.  A reading that takes a token in each round needs no more rounds than there are
common tokens.
-/

namespace Reading

/-- A reading takes at least so many tokens. -/
def Takes (n : Nat) (r : Reading α) : Prop :=
  ∀ c a c', r c = .ok (a, c') → c'.rest.length + n ≤ c.rest.length

theorem bind_of_ok {r : Reading α} {f : α → Reading β} {c c' : Cursor} {a : α}
    (h : r c = .ok (a, c')) : (r >>= f) c = f a c' := by
  change (r c >>= fun result => f result.1 result.2) = _
  rw [h]
  rfl

namespace Takes

variable {m n : Nat} {r : Reading α} {f : α → Reading β}

theorem of_reads {before after : List TokenKind} (h : ∀ c, Nesting.Reads c n before after r)
    (hle : m ≤ n) : Takes m r := by
  intro c a c' hr
  obtain ⟨tokens, hrest, -, hlen, -⟩ := h c a c' hr
  rw [hrest, List.length_append]
  omega

theorem mono (h : Takes n r) (hle : m ≤ n) : Takes m r := by
  intro c a c' hr
  have hn := h c a c' hr
  omega

theorem bind (hr : Takes m r) (hf : ∀ a, Takes n (f a)) : Takes (m + n) (r >>= f) := by
  intro c b c' h
  obtain ⟨a, middle, ha, hb⟩ := Nesting.bind_ok h
  have hm := hr c a middle ha
  have hn := hf a middle b c' hb
  omega

@[simp] theorem pure (a : α) : Takes 0 (Pure.pure a : Reading α) := by
  intro c b c' h
  cases h
  exact Nat.le_refl _

/-- What takes nothing may come after. -/
theorem left (hr : Takes n r) (hf : ∀ a, Takes 0 (f a)) : Takes n (r >>= f) := hr.bind hf

/-- What takes nothing may come before. -/
theorem right (hr : Takes 0 r) (hf : ∀ a, Takes n (f a)) : Takes n (r >>= f) :=
  (hr.bind hf).mono (by omega)

theorem token : Takes 1 Reading.token := by
  intro c t c' h
  unfold Reading.token at h
  split at h
  · next first rest hrest =>
    cases h
    rw [hrest]
    exact Nat.le_refl _
  · cases h

theorem tokenOf (what : Text) (p : TokenKind → Bool) : Takes 1 (Reading.tokenOf what p) := by
  intro c t c' h
  unfold Reading.tokenOf at h
  split at h
  · next first rest hrest =>
    split at h
    · cases h
      rw [hrest]
      exact Nat.le_refl _
    · cases h
  · cases h

theorem expect (kind : TokenKind) : Takes 1 (Reading.expect kind) := tokenOf _ _

theorem reject (cause : GrammarError.Cause) : Takes n (Reading.reject cause : Reading α) := by
  intro c a c' h
  cases h

theorem nextIs {p : TokenKind → Bool} {f : Bool → Reading α} (h : ∀ b, Takes n (f b)) :
    Takes n (Reading.nextIs p >>= f) := fun c a c' hr => h _ c a c' hr

theorem get {f : Cursor → Reading α} (h : ∀ c, Takes n (f c)) :
    Takes n (MonadState.get >>= f) := fun c a c' hr => h c c a c' hr

theorem spanning {source : Text} {r : Reading (Extent → α)} (h : Takes n r) :
    Takes n (Reading.spanning source r) := by
  intro c a c' hr
  unfold Reading.spanning at hr
  cases hb : r c with
  | error e => rw [hb] at hr; cases hr
  | ok result =>
    rw [hb] at hr
    cases hr
    exact h c _ _ hb

theorem whileAtMost {enter : Cursor → Bool} (h : Takes 0 r) (k : Nat) :
    Takes 0 (Reading.whileAtMost enter r k) := by
  induction k with
  | zero => exact Takes.pure []
  | succ k ih =>
    unfold Reading.whileAtMost
    refine Takes.get fun c => ?_
    split
    · exact h.left fun a => ih.left fun b => Takes.pure _
    · exact Takes.pure []

theorem readWhile {enter : Cursor → Bool} (h : Takes 0 r) :
    Takes 0 (Reading.readWhile enter r) := fun c => whileAtMost h _ c

end Takes

end Reading

/-! ### Common tokens

The stretch that both texts have is read in parallel, and what comes behind it is not
known to be the same.  So each reading leaves some of the stretch alone, or what comes
behind must end what is read.
-/

/-- Whether a kind can be the last one of an operand or of an argument, or the head of a command:
what comes after it is read on only if it stands on the same line. -/
def TokenKind.endsArgument : TokenKind → Bool
  | .hereDouble | .hereSingle | .doubleQuoted | .singleQuoted | .number | .variableName | .splat
  | .parenClose | .braceClose | .bracketClose | .typeLiteral | .parameter | .comma
  | .configuration | .node | .param | .bareword => true
  | _ => false

/-- Whether a token ends every value that could come before it: no value goes on with it. -/
def Token.Stops (last next : Token) : Prop :=
  (next.onLineOf last → next.kind.startsArgument = false) ∧
  (next.touches last → next.kind.startsAccess = false) ∧
  (last.kind = .typeLiteral → next.kind ≠ .typeLiteral)

/-- One of two texts. -/
structure Side where
  source : Text
  /-- The tokens before the common ones, the last one first. -/
  before : List Token
  /-- The tokens after the common ones. -/
  after : List Token
  /-- What is looked at of the nodes that are read. -/
  look : Relabelling

/-- A stretch of common tokens in two texts. -/
structure Parallel where
  left : Side
  right : Side
  /-- The common tokens, as they stand on the left and on the right. -/
  pairs : List (Token × Token)
  /-- Which extents on the left and on the right go together. -/
  Same : Extent → Extent → Prop
  look_eq : ∀ {e f}, Same e f → left.look.extent e = right.look.extent f
  token_eq : ∀ p ∈ pairs, p.1.relabel left.look = p.2.relabel right.look
  head_eq : ∀ p ∈ pairs, left.look.head p.1.text = right.look.head p.2.text
  same_token : ∀ p ∈ pairs, Same ⟨p.1.text, p.1.location⟩ ⟨p.2.text, p.2.location⟩
  same_span : ∀ front taken rest, pairs = front ++ taken ++ rest → taken ≠ [] →
    Same (.ofTokens left.source (taken.map Prod.fst)) (.ofTokens right.source (taken.map Prod.snd))
  same_joined : ∀ {e f e' f'}, Same e f → Same e' f' →
    Same (Grammar.joinedExtent left.source e e') (Grammar.joinedExtent right.source f f')
  number_eq : ∀ p ∈ pairs, p.1.kind = .number →
    left.look.number (.ofTokens left.source [p.1]) =
      right.look.number (.ofTokens right.source [p.2])
  touches_eq : ∀ front p q rest, pairs = front ++ p :: q :: rest →
    q.2.touches p.2 = q.1.touches p.1
  onLine_eq : ∀ front p q rest, pairs = front ++ p :: q :: rest → p.1.kind.endsArgument →
    q.1.kind.startsArgument → q.2.onLineOf p.2 = q.1.onLineOf p.1
  stops : ∀ last next, pairs.getLast? = some last → right.after.head? = some next →
    last.2.Stops next
  /-- What comes after does not go on where the line does not matter either. -/
  stops_kind : ∀ next, right.after.head? = some next →
    next.kind ≠ .braceOpen ∧ next.kind ≠ .pipe ∧ next.kind ≠ .comma ∧ next.kind ≠ .equals
  /-- Every group that is open somewhere within the stretch is closed within it. -/
  closes : ∃ stack, Nesting.run stack (pairs.map Prod.fst) = some []

/-- A stretch of tokens that are the very same in two texts. -/
structure Shared where
  left : Side
  right : Side
  tokens : List Token
  /-- Which extents on the left and on the right go together. -/
  Same : Extent → Extent → Prop
  look_eq : ∀ {e f}, Same e f → left.look.extent e = right.look.extent f
  token_eq : ∀ t ∈ tokens, t.relabel left.look = t.relabel right.look
  head_eq : ∀ t ∈ tokens, left.look.head t.text = right.look.head t.text
  same_token : ∀ t ∈ tokens, Same ⟨t.text, t.location⟩ ⟨t.text, t.location⟩
  same_span : ∀ front taken rest, tokens = front ++ taken ++ rest → taken ≠ [] →
    Same (.ofTokens left.source taken) (.ofTokens right.source taken)
  same_joined : ∀ {e f e' f'}, Same e f → Same e' f' →
    Same (Grammar.joinedExtent left.source e e') (Grammar.joinedExtent right.source f f')
  number_eq : ∀ t ∈ tokens, t.kind = .number →
    left.look.number (.ofTokens left.source [t]) = right.look.number (.ofTokens right.source [t])
  stops : ∀ last next, tokens.getLast? = some last → right.after.head? = some next →
    last.Stops next
  stops_kind : ∀ next, right.after.head? = some next →
    next.kind ≠ .braceOpen ∧ next.kind ≠ .pipe ∧ next.kind ≠ .comma ∧ next.kind ≠ .equals
  balanced : Nesting.Balanced tokens

namespace Shared

/-- Every token with itself. -/
def doubled (tokens : List Token) : List (Token × Token) := tokens.map fun t => (t, t)

@[simp] theorem map_fst_doubled (tokens : List Token) :
    (doubled tokens).map Prod.fst = tokens := by
  rw [doubled, List.map_map]
  exact List.map_id tokens

@[simp] theorem map_snd_doubled (tokens : List Token) :
    (doubled tokens).map Prod.snd = tokens := by
  rw [doubled, List.map_map]
  exact List.map_id tokens

theorem eq_of_mem_doubled {tokens : List Token} {p : Token × Token} (h : p ∈ doubled tokens) :
    p.2 = p.1 ∧ p.1 ∈ tokens := by
  obtain ⟨t, ht, rfl⟩ := List.mem_map.mp h
  exact ⟨rfl, ht⟩

theorem of_doubled_eq_append {tokens : List Token} {front taken rest : List (Token × Token)}
    (h : doubled tokens = front ++ taken ++ rest) :
    tokens = front.map Prod.fst ++ taken.map Prod.fst ++ rest.map Prod.fst ∧
      taken.map Prod.snd = taken.map Prod.fst := by
  refine ⟨?_, List.map_congr_left fun p hp => ?_⟩
  · rw [← List.map_append, ← List.map_append, ← h, map_fst_doubled]
  · have hmem : p ∈ doubled tokens := by
      rw [h]
      exact List.mem_append_left _ (List.mem_append_right _ hp)
    exact (eq_of_mem_doubled hmem).1

theorem of_doubled_eq_cons {tokens : List Token} {front rest : List (Token × Token)}
    {p q : Token × Token} (h : doubled tokens = front ++ p :: q :: rest) :
    p.2 = p.1 ∧ q.2 = q.1 := by
  have hp : p ∈ doubled tokens := by rw [h]; simp
  have hq : q ∈ doubled tokens := by rw [h]; simp
  exact ⟨(eq_of_mem_doubled hp).1, (eq_of_mem_doubled hq).1⟩

/-- A stretch of the very same tokens is one of common tokens. -/
def parallel (S : Shared) : Parallel where
  left := S.left
  right := S.right
  pairs := doubled S.tokens
  Same := S.Same
  look_eq := S.look_eq
  token_eq p hp := by
    obtain ⟨heq, hmem⟩ := eq_of_mem_doubled hp
    rw [heq, S.token_eq _ hmem]
  head_eq p hp := by
    obtain ⟨heq, hmem⟩ := eq_of_mem_doubled hp
    rw [heq, S.head_eq _ hmem]
  same_token p hp := by
    obtain ⟨heq, hmem⟩ := eq_of_mem_doubled hp
    rw [heq]
    exact S.same_token _ hmem
  same_span front taken rest h hne := by
    obtain ⟨htokens, hsnd⟩ := of_doubled_eq_append h
    rw [hsnd]
    exact S.same_span _ _ _ htokens (by simpa using hne)
  same_joined := S.same_joined
  number_eq p hp hk := by
    obtain ⟨heq, hmem⟩ := eq_of_mem_doubled hp
    rw [heq]
    exact S.number_eq _ hmem hk
  touches_eq front p q rest h := by
    obtain ⟨hp, hq⟩ := of_doubled_eq_cons h
    rw [hp, hq]
  onLine_eq front p q rest h _ _ := by
    obtain ⟨hp, hq⟩ := of_doubled_eq_cons h
    rw [hp, hq]
  stops last next hlast hnext := by
    rw [doubled, List.getLast?_map, Option.map_eq_some_iff] at hlast
    obtain ⟨t, ht, rfl⟩ := hlast
    exact S.stops t next ht hnext
  stops_kind := S.stops_kind
  closes := ⟨[], by rw [map_fst_doubled]; exact S.balanced []⟩

end Shared

namespace Parallel

variable (T : Parallel)

/-- The place on the left after some of the common tokens, the last one first. -/
def cursorLeft (back ahead : List (Token × Token)) : Cursor :=
  ⟨back.map Prod.fst ++ T.left.before, ahead.map Prod.fst ++ T.left.after⟩

/-- The place on the right after some of the common tokens, the last one first. -/
def cursorRight (back ahead : List (Token × Token)) : Cursor :=
  ⟨back.map Prod.snd ++ T.right.before, ahead.map Prod.snd ++ T.right.after⟩

/-- Whatever is read on the left from a place before at most so many common tokens, leaving alone
what comes after them and at least so many tokens more, is read on the right too: the same tokens
to results of which something P. -/
def Keeps (size spare : Nat) (back ahead : List (Token × Token)) (r : Reading α) (r' : Reading β)
    (P : α → β → List (Token × Token) → Prop) : Prop :=
  T.pairs = back.reverse ++ ahead → ahead.length ≤ size →
  ∀ a c, r (T.cursorLeft back ahead) = .ok (a, c) →
    T.left.after.length + spare ≤ c.rest.length →
    ∃ taken rest b, ahead = taken ++ rest ∧ c = T.cursorLeft (taken.reverse ++ back) rest ∧
      r' (T.cursorRight back ahead) = .ok (b, T.cursorRight (taken.reverse ++ back) rest) ∧
      P a b (taken.reverse ++ back)

/-- Expressions that are the same up to extents, which go together too. -/
def Alike (a b : Expression) : Prop :=
  a.relabel T.left.look = b.relabel T.right.look ∧ T.Same a.extent b.extent

variable {T}

theorem kind_eq {p : Token × Token} (h : p ∈ T.pairs) : p.2.kind = p.1.kind :=
  (congrArg Token.kind (T.token_eq p h)).symm

theorem text_eq {p : Token × Token} (h : p ∈ T.pairs) : p.2.text = p.1.text :=
  (congrArg Token.text (T.token_eq p h)).symm

theorem location_eq {p : Token × Token} (h : p ∈ T.pairs) :
    T.left.look.location p.1.location = T.right.look.location p.2.location :=
  congrArg Token.location (T.token_eq p h)

variable {size spare : Nat} {back ahead : List (Token × Token)} {α β γ δ : Type}
  {r : Reading α} {r' : Reading β} {f : α → Reading γ} {f' : β → Reading δ}
  {P : α → β → List (Token × Token) → Prop} {Q : γ → δ → List (Token × Token) → Prop}

theorem mem_ahead {q : Token × Token} {rest : List (Token × Token)}
    (h : T.pairs = back.reverse ++ q :: rest) : q ∈ T.pairs := by
  rw [h]
  exact List.mem_append_right _ List.mem_cons_self

namespace Keeps

theorem mono {P' : α → β → List (Token × Token) → Prop} (h : T.Keeps size spare back ahead r r' P)
    (hp : ∀ a b back', P a b back' → P' a b back') : T.Keeps size spare back ahead r r' P' := by
  intro hat hsize a c hr hleft
  obtain ⟨taken, rest, b, hahead, hc, hb, hP⟩ := h hat hsize a c hr hleft
  exact ⟨taken, rest, b, hahead, hc, hb, hp _ _ _ hP⟩

/-- A reading that leaves more is also one that leaves less. -/
theorem more {larger : Nat} (h : T.Keeps size spare back ahead r r' P) (hle : spare ≤ larger) :
    T.Keeps size larger back ahead r r' P := fun hat hsize a c hr hleft =>
  h hat hsize a c hr (Nat.le_trans (Nat.add_le_add_left hle _) hleft)

theorem smaller {less : Nat} (h : T.Keeps size spare back ahead r r' P) (hle : less ≤ size) :
    T.Keeps less spare back ahead r r' P := fun hat hsize a c hr hleft =>
  h hat (Nat.le_trans hsize hle) a c hr hleft

/-- Only what is read at the two places counts. -/
theorem congr {s : Reading α} {s' : Reading β}
    (hr : r (T.cursorLeft back ahead) = s (T.cursorLeft back ahead))
    (hr' : r' (T.cursorRight back ahead) = s' (T.cursorRight back ahead))
    (h : T.Keeps size spare back ahead s s' P) : T.Keeps size spare back ahead r r' P := by
  unfold Keeps
  rw [hr, hr']
  exact h

/-- Where the reading stands may be made use of. -/
theorem place (h : T.pairs = back.reverse ++ ahead → T.Keeps size spare back ahead r r' P) :
    T.Keeps size spare back ahead r r' P := fun hat => h hat hat

/-- A reading that takes a token finds a common one. -/
theorem start (ht : Reading.Takes 1 r)
    (h : ∀ q rest, ahead = q :: rest → q ∈ T.pairs → T.Keeps size spare back ahead r r' P) :
    T.Keeps size spare back ahead r r' P := by
  intro hat hsize a c hr hleft
  cases ahead with
  | nil =>
    have hlen := ht _ a c hr
    change c.rest.length + 1 ≤ T.left.after.length at hlen
    omega
  | cons q rest => exact h q rest rfl (mem_ahead hat) hat hsize a c hr hleft

/-- A reading that takes two tokens finds two common ones. -/
theorem start_two (ht : Reading.Takes 2 r)
    (h : ∀ p q rest, ahead = p :: q :: rest → T.Keeps size spare back ahead r r' P) :
    T.Keeps size spare back ahead r r' P := by
  intro hat hsize a c hr hleft
  have hlen := ht _ a c hr
  match ahead, h with
  | [], _ =>
    change c.rest.length + 2 ≤ T.left.after.length at hlen
    omega
  | [p], _ =>
    change c.rest.length + 2 ≤ T.left.after.length + 1 at hlen
    omega
  | p :: q :: rest, h => exact h p q rest rfl hat hsize a c hr hleft

theorem pure {a : α} {b : β} (h : P a b back) :
    T.Keeps size spare back ahead (Pure.pure a) (Pure.pure b) P := by
  intro hat hsize a' c hr hleft
  cases hr
  exact ⟨[], ahead, b, rfl, rfl, rfl, h⟩

theorem reject {cause : GrammarError.Cause} :
    T.Keeps size spare back ahead (Reading.reject cause) r' P := by
  intro hat hsize a c hr
  cases hr

/-- One reading after another.  What the second one takes is left alone by the first, and it starts
before the tokens that the first has left. -/
theorem chain {n : Nat} (hr : T.Keeps size (spare + n) back ahead r r' P)
    (ht : ∀ a, Reading.Takes n (f a))
    (hf : ∀ a b taken rest, ahead = taken ++ rest → ahead.length ≤ size →
      r (T.cursorLeft back ahead) = .ok (a, T.cursorLeft (taken.reverse ++ back) rest) →
      P a b (taken.reverse ++ back) →
      T.Keeps rest.length spare (taken.reverse ++ back) rest (f a) (f' b) Q) :
    T.Keeps size spare back ahead (r >>= f) (r' >>= f') Q := by
  intro hat hsize g c h hleft
  obtain ⟨a, middle, ha, hg⟩ := Nesting.bind_ok h
  have hn := ht a middle g c hg
  obtain ⟨taken, rest, b, rfl, rfl, hb, hP⟩ := hr hat hsize a middle ha (by omega)
  have hat' : T.pairs = (taken.reverse ++ back).reverse ++ rest := by simp [hat]
  obtain ⟨taken', rest', d, rfl, rfl, hd, hQ⟩ :=
    hf a b taken rest rfl hsize ha hP hat' (Nat.le_refl _) g c hg hleft
  refine ⟨taken ++ taken', rest', d, by simp, by simp, ?_, by simpa using hQ⟩
  rw [Reading.bind_of_ok hb, hd]
  simp

theorem bind {n : Nat} (hr : T.Keeps size (spare + n) back ahead r r' P)
    (ht : ∀ a, Reading.Takes n (f a))
    (hf : ∀ a b back' ahead', P a b back' → T.Keeps size spare back' ahead' (f a) (f' b) Q) :
    T.Keeps size spare back ahead (r >>= f) (r' >>= f') Q := by
  refine hr.chain ht fun a b taken rest hahead hsize _ hP => (hf a b _ rest hP).smaller ?_
  rw [hahead, List.length_append] at hsize
  omega

/-- One reading after another, where the first takes a token: the second one starts before fewer
tokens. -/
theorem bind_less {n : Nat} (h1 : Reading.Takes 1 r)
    (hr : T.Keeps (size + 1) (spare + n) back ahead r r' P) (ht : ∀ a, Reading.Takes n (f a))
    (hf : ∀ a b back' ahead', P a b back' → T.Keeps size spare back' ahead' (f a) (f' b) Q) :
    T.Keeps (size + 1) spare back ahead (r >>= f) (r' >>= f') Q := by
  refine hr.chain ht fun a b taken rest hahead hsize hrun hP => (hf a b _ rest hP).smaller ?_
  have hone := h1 _ _ _ hrun
  simp only [cursorLeft, List.length_append, List.length_map] at hone
  omega

/-- A reading whose result is only made something of. -/
theorem map {g : α → γ} {g' : β → δ} (hr : T.Keeps size spare back ahead r r' P)
    (hg : ∀ a b back', P a b back' → Q (g a) (g' b) back') :
    T.Keeps size spare back ahead (r >>= fun a => Pure.pure (g a))
      (r' >>= fun b => Pure.pure (g' b)) Q :=
  Keeps.bind (n := 0) hr (fun _ => Reading.Takes.pure _)
    fun a b _ _ h => Keeps.pure (hg a b _ h)

theorem get {f : Cursor → Reading γ} {f' : Cursor → Reading δ}
    (h : T.Keeps size spare back ahead (f (T.cursorLeft back ahead))
      (f' (T.cursorRight back ahead)) Q) :
    T.Keeps size spare back ahead (MonadState.get >>= f) (MonadState.get >>= f') Q := h

/-- The token that is read is the next common one. -/
theorem token : T.Keeps size spare back ahead Reading.token Reading.token fun t u back' =>
    (t, u) ∈ T.pairs ∧ ahead.head? = some (t, u) ∧ back' = (t, u) :: back := by
  refine Keeps.start Reading.Takes.token ?_
  rintro ⟨t, u⟩ rest rfl hmem hat hsize a c hr hleft
  cases hr
  exact ⟨[(t, u)], rest, u, rfl, rfl, rfl, hmem, rfl, rfl⟩

theorem tokenOf (what : Text) (p : TokenKind → Bool) :
    T.Keeps size spare back ahead (Reading.tokenOf what p) (Reading.tokenOf what p)
      fun t u back' => (t, u) ∈ T.pairs ∧ p t.kind ∧ back' = (t, u) :: back := by
  refine Keeps.start (Reading.Takes.tokenOf _ _) ?_
  rintro ⟨t, u⟩ rest rfl hmem hat hsize a c hr hleft
  have hkind : u.kind = t.kind := kind_eq hmem
  by_cases ht : p t.kind
  · refine ⟨[(t, u)], rest, u, rfl, ?_, ?_, ?_⟩
    · simp only [Reading.tokenOf, cursorLeft, List.map_cons, List.cons_append, if_pos ht] at hr
      cases hr
      rfl
    · simp [Reading.tokenOf, cursorRight, hkind, ht]
    · simp only [Reading.tokenOf, cursorLeft, List.map_cons, List.cons_append, if_pos ht] at hr
      cases hr
      exact ⟨hmem, ht, rfl⟩
  · simp only [Reading.tokenOf, cursorLeft, List.map_cons, List.cons_append, if_neg ht] at hr
    cases hr

theorem expect (kind : TokenKind) :
    T.Keeps size spare back ahead (Reading.expect kind) (Reading.expect kind)
      fun t u back' => (t, u) ∈ T.pairs ∧ t.kind = kind ∧ back' = (t, u) :: back :=
  (Keeps.tokenOf _ _).mono fun _ _ _ ⟨hmem, hk, hback⟩ => ⟨hmem, beq_iff_eq.mp hk, hback⟩

theorem extentBetween_common (source : Text) (side : Token × Token → Token)
    {taken rest : List (Token × Token)} (before after : List Token) (hne : taken ≠ []) :
    Reading.extentBetween source ⟨back.map side ++ before, (taken ++ rest).map side ++ after⟩
      ⟨(taken.reverse ++ back).map side ++ before, rest.map side ++ after⟩ =
        .ofTokens source (taken.map side) := by
  rw [← Reading.extentBetween_eq source (back.map side ++ before) (rest.map side ++ after)
    (by simpa using hne)]
  simp [List.map_reverse]

/-- What is built with the extents of the tokens that are read. -/
theorem spanning_tokens {r : Reading (Extent → α)} {r' : Reading (Extent → β)}
    (ht : Reading.Takes 1 r)
    (hr : T.Keeps size spare back ahead r r' fun build build' back' =>
      ∀ taken : List (Token × Token), back' = taken.reverse ++ back →
      T.Same (.ofTokens T.left.source (taken.map Prod.fst))
        (.ofTokens T.right.source (taken.map Prod.snd)) →
      P (build (.ofTokens T.left.source (taken.map Prod.fst)))
        (build' (.ofTokens T.right.source (taken.map Prod.snd))) back') :
    T.Keeps size spare back ahead (Reading.spanning T.left.source r)
      (Reading.spanning T.right.source r') P := by
  intro hat hsize a c h hleft
  unfold Reading.spanning at h
  cases hb : r (T.cursorLeft back ahead) with
  | error e => rw [hb] at h; cases h
  | ok result =>
    rw [hb] at h
    cases h
    obtain ⟨taken, rest, build', rfl, hc, hbuild', hP⟩ := hr hat hsize _ _ hb hleft
    have hone := ht _ _ _ hb
    have hne : taken ≠ [] := by
      rintro rfl
      rw [hc] at hone
      exact absurd hone (by simp [cursorLeft])
    have hleftExtent : Reading.extentBetween T.left.source (T.cursorLeft back (taken ++ rest))
        result.2 = .ofTokens T.left.source (taken.map Prod.fst) := by
      rw [hc]
      exact extentBetween_common _ Prod.fst _ _ hne
    have hrightExtent : Reading.extentBetween T.right.source (T.cursorRight back (taken ++ rest))
        (T.cursorRight (taken.reverse ++ back) rest) =
          .ofTokens T.right.source (taken.map Prod.snd) :=
      extentBetween_common _ Prod.snd _ _ hne
    refine ⟨taken, rest, build' (.ofTokens T.right.source (taken.map Prod.snd)), rfl, hc, ?_, ?_⟩
    · unfold Reading.spanning
      rw [hbuild', ← hrightExtent]
      rfl
    · rw [hleftExtent]
      exact hP _ rfl (T.same_span back.reverse taken rest (by rw [hat, List.append_assoc]) hne)

theorem spanning {r : Reading (Extent → α)} {r' : Reading (Extent → β)}
    (ht : Reading.Takes 1 r)
    (hr : T.Keeps size spare back ahead r r' fun build build' back' =>
      ∀ e f, T.Same e f → P (build e) (build' f) back') :
    T.Keeps size spare back ahead (Reading.spanning T.left.source r)
      (Reading.spanning T.right.source r') P :=
  Keeps.spanning_tokens ht (hr.mono fun _ _ _ h _ _ hsame => h _ _ hsame)

end Keeps

/-! ### Loops -/

/-- Among the common tokens a question to the cursor has the same answer on both sides, wherever
something I holds of the tokens before. -/
def Gate (T : Parallel) (enter : Cursor → Bool) (I : List (Token × Token) → Prop) : Prop :=
  ∀ back q rest, T.pairs = back.reverse ++ q :: rest → I back →
    enter (T.cursorRight back (q :: rest)) = enter (T.cursorLeft back (q :: rest))

/-- After the common tokens the answer on the right is no. -/
def Shut (T : Parallel) (enter : Cursor → Bool) (I : List (Token × Token) → Prop) : Prop :=
  ∀ back, T.pairs = back.reverse → I back → enter (T.cursorRight back []) = false

namespace Keeps

variable {I : List (Token × Token) → Prop} {enter : Cursor → Bool} {R : α → β → Prop}

/-- The induction is on the rounds that are left on the left.  A round takes a token, so they are
more than enough on both sides, and a loop ends only where the question says so. -/
theorem whileAtMost (hgate : T.Gate enter I) (hshut : spare = 0 → T.Shut enter I)
    (ht : Reading.Takes 1 r)
    (hr : ∀ back ahead, I back → enter (T.cursorLeft back ahead) = true →
      T.Keeps size 0 back ahead r r' fun a b back' => R a b ∧ I back')
    (n n' : Nat) (back ahead : List (Token × Token))
    (hn : ahead.length + T.left.after.length ≤ n) (hn' : ahead.length ≤ n') (hback : I back) :
    T.Keeps size spare back ahead (Reading.whileAtMost enter r n)
      (Reading.whileAtMost enter r' n')
      fun list list' back' => List.Forall₂ R list list' ∧ I back' := by
  have hstop (n' : Nat) (back ahead : List (Token × Token))
      (he : enter (T.cursorRight back ahead) = false) :
      Reading.whileAtMost enter r' n' (T.cursorRight back ahead) =
        .ok ([], T.cursorRight back ahead) := by
    cases n' with
    | zero => rfl
    | succ n' =>
      change (if enter (T.cursorRight back ahead) then _ else _ : Reading (List β)) _ = _
      rw [if_neg (by rw [he]; exact Bool.false_ne_true)]
      rfl
  induction n generalizing n' back ahead with
  | zero =>
    intro hat hsize list c hrun hleft
    cases hrun
    obtain rfl : ahead = [] := List.eq_nil_of_length_eq_zero (by omega)
    have hspare : spare = 0 := by
      change _ ≤ T.left.after.length at hleft
      omega
    have he := hshut hspare back (by simpa using hat) hback
    exact ⟨[], [], [], rfl, rfl, hstop n' back [] he, List.Forall₂.nil, hback⟩
  | succ n ih =>
    intro hat hsize list c hrun hleft
    change (if enter (T.cursorLeft back ahead) then _ else _ : Reading (List α)) _ = _ at hrun
    by_cases he : enter (T.cursorLeft back ahead)
    · rw [if_pos he] at hrun
      obtain ⟨a, middle, ha, hmore⟩ := Nesting.bind_ok hrun
      obtain ⟨more, last, hmore, hlast⟩ := Nesting.bind_ok hmore
      cases hlast
      have hone := ht _ a middle ha
      have hmost : Reading.Takes 0 (Reading.whileAtMost enter r n) := by
        intro c a c' hr
        exact Reading.Takes.whileAtMost (ht.mono (Nat.zero_le 1)) n c a c' hr
      have hzero := hmost _ _ _ hmore
      obtain ⟨taken, rest, b, rfl, rfl, hb, hR, hI⟩ :=
        hr back ahead hback he hat hsize a middle ha (by omega)
      simp only [cursorLeft, List.length_append, List.length_map] at hone hn hn' hsize
      cases n' with
      | zero => omega
      | succ n' =>
        have hat' : T.pairs = (taken.reverse ++ back).reverse ++ rest := by simp [hat]
        obtain ⟨taken', rest', list', rfl, rfl, hlist', hall, hI'⟩ :=
          ih n' _ rest (by omega) (by omega) hI hat' (by omega) more c hmore hleft
        obtain ⟨q, tail, hq⟩ : ∃ q tail, taken ++ (taken' ++ rest') = q :: tail := by
          cases taken with
          | nil => simp only [List.length_nil] at hone; omega
          | cons q tail => exact ⟨q, _, rfl⟩
        have he' : enter (T.cursorRight back (taken ++ (taken' ++ rest'))) = true := by
          rw [hq] at hat he ⊢
          rw [hgate back q tail hat hback, he]
        refine ⟨taken ++ taken', rest', b :: list', by simp, by simp, ?_, .cons hR hall,
          by simpa using hI'⟩
        change (if enter (T.cursorRight back (taken ++ (taken' ++ rest'))) then _ else _ :
          Reading (List β)) _ = _
        rw [if_pos he', Reading.bind_of_ok hb, Reading.bind_of_ok hlist']
        simp only [List.reverse_append, List.append_assoc]
        rfl
    · rw [if_neg he] at hrun
      cases hrun
      have he' : enter (T.cursorRight back ahead) = false := by
        cases ahead with
        | cons q rest => rw [hgate back q rest hat hback, Bool.eq_false_iff.mpr he]
        | nil =>
          have hspare : spare = 0 := by
            change _ ≤ T.left.after.length at hleft
            omega
          exact hshut hspare back (by simpa using hat) hback
      exact ⟨[], ahead, [], rfl, rfl, hstop n' back ahead he', List.Forall₂.nil, hback⟩

theorem readWhile (hgate : T.Gate enter I) (hshut : spare = 0 → T.Shut enter I)
    (ht : Reading.Takes 1 r)
    (hr : ∀ back ahead, I back → enter (T.cursorLeft back ahead) = true →
      T.Keeps size 0 back ahead r r' fun a b back' => R a b ∧ I back') (hback : I back) :
    T.Keeps size spare back ahead (Reading.readWhile enter r) (Reading.readWhile enter r')
      fun list list' back' => List.Forall₂ R list list' ∧ I back' := by
  have hlength (side : Token × Token → Token) (after : List Token) :
      (ahead.map side ++ after).length = ahead.length + after.length := by
    rw [List.length_append, List.length_map]
  refine Keeps.whileAtMost hgate hshut ht hr _ _ back ahead ?_ ?_ hback
  · exact Nat.le_of_eq (hlength Prod.fst T.left.after).symm
  · exact Nat.le_trans (Nat.le_add_right _ _) (Nat.le_of_eq (hlength Prod.snd T.right.after).symm)

end Keeps

/-! ### What rules ask

Where a question is about the line or about touching, its answer depends on two tokens
that stand side by side.  Both of them are common, save at the end of the stretch.
-/

/-- The last one of some tokens can be the last one of an argument. -/
def EndsArgument (back : List (Token × Token)) : Prop :=
  ∃ p rest, back = p :: rest ∧ p.1.kind.endsArgument

/-- The last one of some tokens can be the last one of an operand, and if it is a name it is not
the only one of them: whether a point stands before it can be seen. -/
def Settled (back : List (Token × Token)) : Prop :=
  ∃ p rest, back = p :: rest ∧ p.1.kind.endsArgument ∧ (rest = [] → p.1.kind.isName = false)

theorem Settled.endsArgument (h : Settled back) : EndsArgument back := by
  obtain ⟨p, rest, rfl, hp, -⟩ := h
  exact ⟨p, rest, rfl, hp⟩

variable {I : List (Token × Token) → Prop} {enter : Cursor → Bool}

@[simp] theorem nextIs_cursorLeft (p : TokenKind → Bool) (q : Token × Token)
    (rest : List (Token × Token)) :
    (T.cursorLeft back (q :: rest)).nextIs p = p q.1.kind := rfl

theorem nextIs_cursorRight (p : TokenKind → Bool) {q : Token × Token}
    {rest : List (Token × Token)} (hq : q ∈ T.pairs) :
    (T.cursorRight back (q :: rest)).nextIs p = p q.1.kind := by
  rw [← kind_eq hq]
  rfl

/-- What comes next after the common tokens on the right. -/
theorem nextIs_after {p : TokenKind → Bool} (h : (T.cursorRight back []).nextIs p) :
    ∃ next rest, T.right.after = next :: rest ∧ p next.kind := by
  obtain ⟨next, rest, hrest, hp⟩ := Nesting.nextIs_iff.mp h
  exact ⟨next, rest, hrest, hp⟩

theorem gate_nextIs (p : TokenKind → Bool) : T.Gate (·.nextIs p) I := fun _ _ _ hat _ =>
  nextIs_cursorRight p (mem_ahead hat)

/-- A kind with which nothing goes on does not come after. -/
theorem shut_nextIs {p : TokenKind → Bool}
    (hp : ∀ kind : TokenKind, kind ≠ .braceOpen ∧ kind ≠ .pipe ∧ kind ≠ .comma ∧ kind ≠ .equals →
      p kind = false) :
    T.Shut (·.nextIs p) I := by
  intro back _ _
  refine Bool.eq_false_iff.mpr fun h => ?_
  obtain ⟨next, rest, hafter, hnext⟩ := nextIs_after h
  rw [hp _ (T.stops_kind next (by rw [hafter]; rfl))] at hnext
  exact absurd hnext Bool.false_ne_true

/-- Where the line is asked for, the token before can end an argument. -/
theorem gate_onLine (h : T.Gate enter EndsArgument)
    (hargument : ∀ c, enter c → c.nextIs TokenKind.startsArgument) :
    T.Gate (fun c => c.onLine && enter c) EndsArgument := by
  intro back q rest hat hback
  obtain ⟨p, before, rfl, hp⟩ := hback
  have he := h (p :: before) q rest hat ⟨p, before, rfl, hp⟩
  change ((T.cursorRight (p :: before) (q :: rest)).onLine && _) =
    ((T.cursorLeft (p :: before) (q :: rest)).onLine && _)
  rw [he]
  cases hleft : enter (T.cursorLeft (p :: before) (q :: rest)) with
  | false => rw [Bool.and_false, Bool.and_false]
  | true =>
    rw [Bool.and_true, Bool.and_true]
    have hq : q.1.kind.startsArgument := hargument _ hleft
    refine T.onLine_eq before.reverse p q rest ?_ hp hq
    rw [hat, List.reverse_cons, List.append_assoc]
    rfl

theorem getLast?_pairs {p : Token × Token} {rest : List (Token × Token)}
    (hat : T.pairs = (p :: rest).reverse) : T.pairs.getLast? = some p := by
  rw [hat, List.getLast?_reverse, List.head?_cons]

theorem shut_onLine (hargument : ∀ c, enter c → c.nextIs TokenKind.startsArgument) :
    T.Shut (fun c => c.onLine && enter c) EndsArgument := by
  intro back hat hback
  obtain ⟨p, before, rfl, hp⟩ := hback
  refine Bool.eq_false_iff.mpr fun h => ?_
  obtain ⟨honLine, he⟩ := Bool.and_eq_true_iff.mp h
  obtain ⟨next, rest, hafter, hnext⟩ := nextIs_after (hargument _ he)
  have hstops := T.stops p next (getLast?_pairs hat) (by rw [hafter]; rfl)
  simp only [Cursor.onLine, cursorRight, hafter, List.map_nil, List.nil_append, List.map_cons,
    List.cons_append] at honLine
  rw [hstops.1 honLine] at hnext
  exact absurd hnext Bool.false_ne_true

theorem afterMember_eq {back ahead : List (Token × Token)} (hat : T.pairs = back.reverse ++ ahead)
    (hback : Settled back) :
    (T.cursorRight back ahead).afterMember = (T.cursorLeft back ahead).afterMember := by
  obtain ⟨p, before, rfl, hp, hname⟩ := hback
  have hmem (x : Token × Token) (hx : x ∈ p :: before) : x ∈ T.pairs := by
    rw [hat]
    exact List.mem_append_left _ (List.mem_reverse.mpr hx)
  have hkind := kind_eq (hmem p List.mem_cons_self)
  cases before with
  | cons x more =>
    have hx := kind_eq (hmem x (List.mem_cons_of_mem _ List.mem_cons_self))
    simp only [Cursor.afterMember, cursorLeft, cursorRight, List.map_cons, List.cons_append, hkind,
      hx]
  | nil =>
    -- What stands before the stretch is not seen, for the token is no name.
    unfold Cursor.afterMember cursorLeft cursorRight
    simp only [List.map_cons, List.map_nil, List.singleton_append]
    cases T.right.before <;> cases T.left.before <;> simp [hkind, hname rfl]

theorem gate_accessFollows : T.Gate Cursor.accessFollows Settled := by
  intro back q rest hat hback
  have hafter := afterMember_eq hat hback
  obtain ⟨p, before, rfl, hp, hname⟩ := hback
  have htouching : (T.cursorRight (p :: before) (q :: rest)).touching =
      (T.cursorLeft (p :: before) (q :: rest)).touching := by
    refine T.touches_eq before.reverse p q rest ?_
    rw [hat, List.reverse_cons, List.append_assoc]
    rfl
  unfold Cursor.accessFollows
  rw [hafter, htouching, nextIs_cursorRight _ (mem_ahead hat),
    nextIs_cursorRight _ (mem_ahead hat), nextIs_cursorLeft, nextIs_cursorLeft]

theorem shut_accessFollows : T.Shut Cursor.accessFollows Settled := by
  intro back hat hback
  obtain ⟨p, before, rfl, -, -⟩ := hback
  refine Bool.eq_false_iff.mpr fun h => ?_
  unfold Cursor.accessFollows at h
  obtain ⟨⟨htouching, hstarts⟩, -⟩ := by simpa only [Bool.and_eq_true] using h
  obtain ⟨next, rest, hafter, hnext⟩ := nextIs_after hstarts
  have hstops := T.stops p next (getLast?_pairs hat) (by rw [hafter]; rfl)
  simp only [Cursor.touching, cursorRight, hafter, List.map_nil, List.nil_append, List.map_cons,
    List.cons_append] at htouching
  rw [hstops.2.1 htouching] at hnext
  exact absurd hnext Bool.false_ne_true

/-- The brackets to come depend on the kinds of tokens alone. -/
theorem run_eq {stack : List TokenKind} {list : List (Token × Token)}
    (h : ∀ p ∈ list, p.2.kind = p.1.kind) :
    Nesting.run stack (list.map Prod.snd) = Nesting.run stack (list.map Prod.fst) := by
  induction list generalizing stack with
  | nil => rfl
  | cons p rest ih =>
    simp only [List.map_cons, Nesting.run, h p List.mem_cons_self]
    exact congrArg _ (funext fun after => ih fun q hq => h q (List.mem_cons_of_mem _ hq))

/-- A group that opens within the stretch goes on within it, on both sides. -/
theorem continuesGroups_ahead {q : Token × Token} {rest : List (Token × Token)}
    (hat : T.pairs = back.reverse ++ q :: rest) {closer : TokenKind}
    (hq : q.1.kind.closer? = some closer) (n : Nat) (after : List Token) :
    Cursor.continuesGroups n [closer] (rest.map Prod.fst ++ after) = true ∧
      Cursor.continuesGroups n [closer] (rest.map Prod.snd ++ after) = true := by
  obtain ⟨stack, hrun⟩ := T.closes
  rw [hat, List.map_append, List.map_cons, Nesting.run_append] at hrun
  obtain ⟨inner, -, hinner⟩ := Option.bind_eq_some_iff.mp hrun
  rw [Nesting.run, Nesting.push.eq_def, hq] at hinner
  have hinner : Nesting.run ([closer] ++ inner) (rest.map Prod.fst) = some [] := hinner
  refine ⟨Nesting.continuesGroups_of_run hinner n after, ?_⟩
  rw [← run_eq fun p hp => kind_eq
    (hat ▸ List.mem_append_right _ (List.mem_cons_of_mem _ hp))] at hinner
  exact Nesting.continuesGroups_of_run hinner n after

/-- The value of a cast is looked for on the line of the cast, and a group that opens there is
known to go on. -/
theorem castValueFollows_eq (c : Cursor) :
    c.castValueFollows = (c.onLine && (c.nextIs TokenKind.startsPrimary &&
      (!c.nextIs TokenKind.startsAccess ||
        match c.rest with
        | next :: rest => Cursor.continuesGroups 2 next.kind.closer?.toList rest
        | [] => false))) := Bool.and_assoc _ _ _

theorem startsArgument_of_startsPrimary {kind : TokenKind} (h : kind.startsPrimary) :
    kind.startsArgument := by
  cases kind <;> first | rfl | exact h

theorem nextIs_mono {c : Cursor} {p q : TokenKind → Bool} (h : c.nextIs p)
    (hpq : ∀ kind, p kind → q kind) : c.nextIs q := by
  obtain ⟨t, rest, hrest, ht⟩ := Nesting.nextIs_iff.mp h
  exact Nesting.nextIs_iff.mpr ⟨t, rest, hrest, hpq _ ht⟩

theorem nextIs_startsArgument_of_castValue (c : Cursor) (h : (c.nextIs TokenKind.startsPrimary &&
      (!c.nextIs TokenKind.startsAccess ||
        match c.rest with
        | next :: rest => Cursor.continuesGroups 2 next.kind.closer?.toList rest
        | [] => false)) = true) : c.nextIs TokenKind.startsArgument := by
  obtain ⟨hprimary, -⟩ := Bool.and_eq_true_iff.mp h
  exact nextIs_mono hprimary fun _ => startsArgument_of_startsPrimary

theorem gate_castValueFollows : T.Gate Cursor.castValueFollows EndsArgument := by
  rw [funext castValueFollows_eq]
  refine gate_onLine ?_ nextIs_startsArgument_of_castValue
  intro back q rest hat hback
  have hq := mem_ahead hat
  simp only [nextIs_cursorRight _ hq, nextIs_cursorLeft]
  simp only [cursorLeft, cursorRight, List.map_cons, List.cons_append, kind_eq hq]
  cases hcloser : q.1.kind.closer? with
  | none =>
    cases rest.map Prod.fst ++ T.left.after <;> cases rest.map Prod.snd ++ T.right.after <;>
      rfl
  | some closer =>
    rw [Option.toList_some, (continuesGroups_ahead hat hcloser 2 T.left.after).1,
      (continuesGroups_ahead hat hcloser 2 T.right.after).2]

theorem shut_castValueFollows : T.Shut Cursor.castValueFollows EndsArgument := by
  rw [funext castValueFollows_eq]
  exact shut_onLine nextIs_startsArgument_of_castValue

namespace Keeps

variable {f : Bool → Reading γ} {f' : Bool → Reading δ} {x y : Reading γ} {x' y' : Reading δ}

/-- A decision by the kind of the next token, after which a token is taken in any case. -/
theorem choose {p : TokenKind → Bool} (ht : Reading.Takes 1 (Reading.nextIs p >>= f))
    (h : ∀ q rest, ahead = q :: rest →
      T.Keeps size spare back ahead (f (p q.1.kind)) (f' (p q.1.kind)) Q) :
    T.Keeps size spare back ahead (Reading.nextIs p >>= f) (Reading.nextIs p >>= f') Q := by
  refine Keeps.start ht ?_
  rintro q rest rfl hq hat hsize c after hr hleft
  obtain ⟨taken, rest', d, hahead, hafter, hd, hQ⟩ := h q rest rfl hat hsize c after hr hleft
  refine ⟨taken, rest', d, hahead, hafter, ?_, hQ⟩
  rw [← nextIs_cursorRight p hq] at hd
  exact hd

/-- Something that is read only if a question to the cursor says so. -/
theorem optional {enter : Cursor → Bool} {I : List (Token × Token) → Prop}
    (hgate : T.Gate enter I) (hshut : T.Shut enter I) (hback : I back) (ht : Reading.Takes 1 x)
    (hx : enter (T.cursorLeft back ahead) → T.Keeps size spare back ahead x x' Q)
    (hy : T.Keeps size spare back ahead y y' Q) :
    T.Keeps size spare back ahead (MonadState.get >>= fun c => if enter c then x else y)
      (MonadState.get >>= fun c => if enter c then x' else y') Q := by
  refine Keeps.get (Keeps.place fun hat => ?_)
  by_cases he : enter (T.cursorLeft back ahead)
  · rw [if_pos he]
    refine Keeps.start ht ?_
    rintro q rest rfl -
    rw [if_pos (by rw [hgate back q rest hat hback, he])]
    exact hx he
  · rw [if_neg he, if_neg]
    · exact hy
    · cases ahead with
      | nil => rw [hshut back (by simpa using hat) hback]; exact Bool.false_ne_true
      | cons q rest => rw [hgate back q rest hat hback]; exact he

/-- The same for the kind of the next token, if what comes after the stretch is of no such kind. -/
theorem optionalKind {p : TokenKind → Bool}
    (hp : ∀ kind : TokenKind, kind ≠ .braceOpen ∧ kind ≠ .pipe ∧ kind ≠ .comma ∧ kind ≠ .equals →
      p kind = false) (ht : Reading.Takes 1 x)
    (hx : T.Keeps size spare back ahead x x' Q) (hy : T.Keeps size spare back ahead y y' Q) :
    T.Keeps size spare back ahead (Reading.nextIs p >>= fun b => if b then x else y)
      (Reading.nextIs p >>= fun b => if b then x' else y') Q := by
  have hgate : T.Gate (fun c => c.nextIs p) fun _ => True := gate_nextIs p
  exact Keeps.optional hgate (shut_nextIs hp) trivial ht (fun _ => hx) hy

end Keeps

end Parallel

end DesiredState

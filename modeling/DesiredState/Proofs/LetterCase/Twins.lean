/-
Two texts that are alike, read in lockstep.

Tokens of the two texts that stand in the same place are twins: they are of one kind and
alike, and the same unless they are words that are free to differ.  Every question that a
rule asks of a cursor is one about kinds and places, so it has the same answer on both
sides.  `Reading.Twins` says of two readings that whenever the first one succeeds, the
second one does too, reads the twins of the same tokens and comes to a related result;
it goes through binds, loops, groups and extents.
-/
import DesiredState.Proofs.LetterCase.Tree
import DesiredState.Proofs.Script.Nesting
import DesiredState.Script.Grammar

namespace DesiredState

variable {S : TextPair} {free : Location → Prop}

/-! ### Extents -/

namespace TextPair

theorem Excerpts.size {S : TextPair} {t u : Text} (h : S.Excerpts t u) : u.size = t.size :=
  h.alike.size.symm

theorem excerpts_nil (S : TextPair) : S.Excerpts [] [] := by
  have hnothing (t : Text) : [] = t.slice 0 0 := by
    cases t <;> rfl
  exact ⟨0, 0, hnothing _, hnothing _⟩

theorem offsetIn_eq (S : TextPair) (l : Location) : l.offsetIn S.right = l.offsetIn S.left :=
  (l.offsetIn_alike S.alike).symm

end TextPair

/-! ### Tokens -/

/-- A token of one text and the one that stands in its place in the other: words may differ in
letter case, where they are free to. -/
structure Token.Twin (S : TextPair) (free : Location → Prop) (t u : Token) : Prop where
  kind : u.kind = t.kind
  start : u.start = t.start
  alike : t.text.Alike u.text
  same : (t.kind.isName ∨ t.kind = .parameter → ¬ free t.location) → u.text = t.text
  left : S.left.slice t.start.offset t.stop.offset = t.text
  right : S.right.slice u.start.offset u.stop.offset = u.text

namespace Token.Twin

variable {t u t' u' : Token}

theorem location (h : t.Twin S free u) : u.location = t.location := by
  rw [Token.location, Token.location, h.start]

theorem stop (h : t.Twin S free u) : u.stop = t.stop := by
  rw [Token.stop, Token.stop, h.start, Position.advance_alike _ h.alike]

/-- What is no word is the same. -/
theorem text_eq (h : t.Twin S free u) (hname : t.kind.isName = false)
    (hparameter : t.kind ≠ .parameter) : u.text = t.text :=
  h.same fun hword => by
    rcases hword with hword | hword
    · rw [hname] at hword
      cases hword
    · exact absurd hword hparameter

theorem stretch (h : t.Twin S free u) : S.Stretch ⟨t.text, t.location⟩ ⟨u.text, u.location⟩ where
  location := h.location
  text := ⟨t.start.offset, t.stop.offset, h.left.symm, by rw [← h.right, h.start, h.stop]⟩

theorem onLineOf (h : t.Twin S free u) (h' : t'.Twin S free u') :
    u.onLineOf u' = t.onLineOf t' := by
  rw [Token.onLineOf, Token.onLineOf, h.start, h'.stop]

theorem touches (h : t.Twin S free u) (h' : t'.Twin S free u') : u.touches u' = t.touches t' := by
  rw [Token.touches, Token.touches, h.start, h'.stop]

end Token.Twin

/-! ### Cursors

Decisions are made by the kind of a token, the line it is on and what it touches.  Twins
agree on all three, so that both sides take the same way through the grammar.
-/

/-- Cursors that stand between twins. -/
structure Cursor.Twin (S : TextPair) (free : Location → Prop) (c d : Cursor) : Prop where
  consumed : List.Forall₂ (Token.Twin S free) c.consumed d.consumed
  rest : List.Forall₂ (Token.Twin S free) c.rest d.rest

namespace Cursor.Twin

variable {c d : Cursor}

theorem nextKind? (h : c.Twin S free d) : d.nextKind? = c.nextKind? := by
  obtain ⟨consumed, rest⟩ := c
  obtain ⟨consumed', rest'⟩ := d
  cases h.rest with
  | nil => rfl
  | cons ht _ => exact congrArg some ht.kind

theorem nextIs (h : c.Twin S free d) (p : TokenKind → Bool) : d.nextIs p = c.nextIs p := by
  obtain ⟨consumed, rest⟩ := c
  obtain ⟨consumed', rest'⟩ := d
  cases h.rest with
  | nil => rfl
  | cons ht _ => exact congrArg p ht.kind

theorem onLine (h : c.Twin S free d) : d.onLine = c.onLine := by
  obtain ⟨consumed, rest⟩ := c
  obtain ⟨consumed', rest'⟩ := d
  cases h.rest with
  | nil => rfl
  | cons ht _ =>
    cases h.consumed with
    | nil => rfl
    | cons hu _ => exact ht.onLineOf hu

theorem touching (h : c.Twin S free d) : d.touching = c.touching := by
  obtain ⟨consumed, rest⟩ := c
  obtain ⟨consumed', rest'⟩ := d
  cases h.rest with
  | nil => rfl
  | cons ht _ =>
    cases h.consumed with
    | nil => rfl
    | cons hu _ => exact ht.touches hu

theorem afterMember (h : c.Twin S free d) : d.afterMember = c.afterMember := by
  obtain ⟨consumed, rest⟩ := c
  obtain ⟨consumed', rest'⟩ := d
  cases h.consumed with
  | nil => rfl
  | cons hlast hmore =>
    cases hmore with
    | nil => rfl
    | cons hbefore _ =>
      change (_ && _) = (_ && _)
      rw [hlast.kind, hbefore.kind]

theorem accessFollows (h : c.Twin S free d) : d.accessFollows = c.accessFollows := by
  rw [Cursor.accessFollows, Cursor.accessFollows, h.touching, h.nextIs, h.nextIs, h.afterMember]

end Cursor.Twin

theorem Cursor.continuesGroups_twins {n : Nat} {closers : List TokenKind} {ts us : List Token}
    (h : List.Forall₂ (Token.Twin S free) ts us) :
    continuesGroups n closers us = continuesGroups n closers ts := by
  induction n generalizing closers ts us with
  | zero => rfl
  | succ n ih =>
    cases closers with
    | nil => rfl
    | cons closer outer =>
      cases h with
      | nil => rfl
      | cons ht hrest =>
        rw [continuesGroups, continuesGroups, ht.kind]
        split
        · exact ih hrest
        · rw [ih hrest, ih hrest]

theorem Cursor.Twin.castValueFollows {c d : Cursor} (h : c.Twin S free d) :
    d.castValueFollows = c.castValueFollows := by
  rw [Cursor.castValueFollows, Cursor.castValueFollows, h.onLine, h.nextIs, h.nextIs]
  obtain ⟨consumed, rest⟩ := c
  obtain ⟨consumed', rest'⟩ := d
  congr 2
  cases h.rest with
  | nil => rfl
  | cons ht hrest =>
    change Cursor.continuesGroups _ _ _ = Cursor.continuesGroups _ _ _
    rw [ht.kind, Cursor.continuesGroups_twins hrest]

/-! ### Readings

The relation goes one way: it is about where the first reading succeeds.  The first text
is known to be a script, and of the second one this is what has to be shown.
-/

namespace Reading

variable {α β γ δ : Type}

/-- Whatever the first reading reads at one cursor, the second one reads the twins of at another,
and the results are related.  Nothing that was read before is forgotten. -/
def TwinsAt (S : TextPair) (free : Location → Prop) (c d : Cursor) (P : α → β → Prop)
    (r : Reading α) (r' : Reading β) : Prop :=
  ∀ a c', r c = .ok (a, c') →
    ∃ b d', r' d = .ok (b, d') ∧ c'.Twin S free d' ∧ c.consumed <:+ c'.consumed ∧ P a b

/-- Two readings read twins and come to related results, wherever they start. -/
def Twins (S : TextPair) (free : Location → Prop) (P : α → β → Prop) (r : Reading α)
    (r' : Reading β) : Prop := ∀ c d, c.Twin S free d → TwinsAt S free c d P r r'

namespace Twins

variable {P : α → β → Prop} {Q : γ → δ → Prop} {r : Reading α} {r' : Reading β}
  {f : α → Reading γ} {f' : β → Reading δ}

theorem mono {P' : α → β → Prop} (h : Twins S free P r r') (hP : ∀ a b, P a b → P' a b) :
    Twins S free P' r r' := by
  intro c d hcd a c' hr
  obtain ⟨b, d', hr', hcd', hsuffix, hab⟩ := h c d hcd a c' hr
  exact ⟨b, d', hr', hcd', hsuffix, hP a b hab⟩

theorem pure {a : α} {b : β} (h : P a b) : Twins S free P (Pure.pure a) (Pure.pure b) := by
  intro c d hcd a' c' hr
  cases hr
  exact ⟨b, d, rfl, hcd, List.suffix_refl _, h⟩

theorem reject {cause : GrammarError.Cause} : Twins S free P (Reading.reject cause) r' := by
  intro c d _ a c' hr
  cases hr

theorem bind (h : Twins S free P r r') (hf : ∀ a b, P a b → Twins S free Q (f a) (f' b)) :
    Twins S free Q (r >>= f) (r' >>= f') := by
  intro c d hcd g c' hr
  obtain ⟨a, middle, ha, hg⟩ := Nesting.bind_ok hr
  obtain ⟨b, middle', hb, hmiddle, hfirst, hab⟩ := h c d hcd a middle ha
  obtain ⟨e, d', he, hcd', hsecond, hge⟩ := hf a b hab middle middle' hmiddle g c' hg
  refine ⟨e, d', ?_, hcd', hfirst.trans hsecond, hge⟩
  change (r' d >>= fun result => f' result.1 result.2) = _
  rw [hb]
  exact he

/-- A reading whose result is only made something of. -/
theorem map {g : α → γ} {g' : β → δ} (h : Twins S free P r r')
    (hg : ∀ a b, P a b → Q (g a) (g' b)) :
    Twins S free Q (r >>= fun a => Pure.pure (g a)) (r' >>= fun b => Pure.pure (g' b)) :=
  h.bind fun a b hab => Twins.pure (hg a b hab)

/-- The cursor may be looked at. -/
theorem get {f : Cursor → Reading γ} {f' : Cursor → Reading δ}
    (h : ∀ c d, c.Twin S free d → TwinsAt S free c d Q (f c) (f' d)) :
    Twins S free Q (MonadState.get >>= f) (MonadState.get >>= f') := h

/-- A decision by the kind of the next token. -/
theorem nextIs {p : TokenKind → Bool} {f : Bool → Reading γ} {f' : Bool → Reading δ}
    (h : ∀ b, Twins S free Q (f b) (f' b)) :
    Twins S free Q (Reading.nextIs p >>= f) (Reading.nextIs p >>= f') := by
  intro c d hcd
  have hf := h (c.nextIs p) c d hcd
  unfold TwinsAt at hf ⊢
  change ∀ a c', f (c.nextIs p) c = _ → ∃ b d', f' (d.nextIs p) d = _ ∧ _
  rw [hcd.nextIs]
  exact hf

theorem token : Twins S free (Token.Twin S free) Reading.token Reading.token := by
  rintro ⟨consumed, rest⟩ ⟨consumed', rest'⟩ ⟨hconsumed, hrest⟩ t c' hr
  cases hrest with
  | nil => cases hr
  | cons ht hrest =>
    cases hr
    exact ⟨_, _, rfl, ⟨.cons ht hconsumed, hrest⟩, List.suffix_cons _ _, ht⟩

theorem tokenOf (what : Text) (p : TokenKind → Bool) :
    Twins S free (Token.Twin S free) (Reading.tokenOf what p) (Reading.tokenOf what p) := by
  rintro ⟨consumed, rest⟩ ⟨consumed', rest'⟩ ⟨hconsumed, hrest⟩ t c' hr
  cases hrest with
  | nil => cases hr
  | @cons first first' rest rest' ht hrest =>
    simp only [Reading.tokenOf, ht.kind] at hr ⊢
    split at hr
    · next hp =>
      cases hr
      exact ⟨_, _, if_pos hp, ⟨.cons ht hconsumed, hrest⟩, List.suffix_cons _ _, ht⟩
    · cases hr

theorem expect (kind : TokenKind) :
    Twins S free (Token.Twin S free) (Reading.expect kind) (Reading.expect kind) := tokenOf _ _

/-! ### Loops and groups -/

theorem whileAtMost {enter : Cursor → Bool} (h : Twins S free P r r')
    (henter : ∀ c d, c.Twin S free d → enter d = enter c) (n : Nat) :
    Twins S free (List.Forall₂ P) (Reading.whileAtMost enter r n)
      (Reading.whileAtMost enter r' n) := by
  induction n with
  | zero => exact pure .nil
  | succ n ih =>
    unfold Reading.whileAtMost
    refine get fun c d hcd => ?_
    rw [henter c d hcd]
    split
    · exact (h.bind fun a b hab => ih.map fun more more' hmore => .cons hab hmore) c d hcd
    · exact pure .nil c d hcd

theorem readWhile {enter : Cursor → Bool} (h : Twins S free P r r')
    (henter : ∀ c d, c.Twin S free d → enter d = enter c) :
    Twins S free (List.Forall₂ P) (Reading.readWhile enter r) (Reading.readWhile enter r') := by
  intro c d hcd
  have hloop := whileAtMost h henter c.rest.length c d hcd
  unfold TwinsAt Reading.readWhile at *
  rw [← hcd.rest.length_eq]
  exact hloop

theorem closeGroups {closers : List TokenKind} {consumed consumed' rest rest' : List Token}
    (hconsumed : List.Forall₂ (Token.Twin S free) consumed consumed')
    (hrest : List.Forall₂ (Token.Twin S free) rest rest') {c : Cursor}
    (h : Reading.closeGroups closers consumed rest = .ok c) :
    ∃ d, Reading.closeGroups closers consumed' rest' = .ok d ∧ c.Twin S free d ∧
      consumed <:+ c.consumed := by
  induction hrest generalizing closers consumed consumed' with
  | nil =>
    cases closers with
    | nil =>
      cases h
      exact ⟨_, rfl, ⟨hconsumed, .nil⟩, List.suffix_refl _⟩
    | cons closer outer => cases h
  | @cons t u rest rest' ht hrest ih =>
    have hmore {closers : List TokenKind}
        (h : Reading.closeGroups closers (t :: consumed) rest = .ok c) :
        ∃ d, Reading.closeGroups closers (u :: consumed') rest' = .ok d ∧ c.Twin S free d ∧
          consumed <:+ c.consumed := by
      obtain ⟨d, hd, hcd, hsuffix⟩ := ih (.cons ht hconsumed) h
      exact ⟨d, hd, hcd, (List.suffix_cons _ _).trans hsuffix⟩
    cases closers with
    | nil =>
      cases h
      exact ⟨_, rfl, ⟨hconsumed, .cons ht hrest⟩, List.suffix_refl _⟩
    | cons closer outer =>
      rw [Reading.closeGroups] at h ⊢
      rw [ht.kind]
      split at h
      · exact hmore h
      · split at h
        · next hcontent =>
          rw [if_pos hcontent]
          exact hmore h
        · next hcontent =>
          rw [if_neg hcontent]
          split at h
          · next hcloser =>
            rw [if_pos hcloser]
            exact hmore h
          · cases h

theorem group : Twins S free (fun _ _ => True) Reading.group Reading.group := by
  rintro ⟨consumed, rest⟩ ⟨consumed', rest'⟩ ⟨hconsumed, hrest⟩ a c' hr
  cases hrest with
  | nil => cases hr
  | @cons first first' rest rest' ht hrest =>
    simp only [Reading.group, ht.kind] at hr ⊢
    cases hcloser : first.kind.closer? with
    | none =>
      rw [hcloser] at hr
      cases hr
    | some closer =>
      rw [hcloser] at hr
      obtain ⟨after, hclose, hpure⟩ : ∃ after, Reading.closeGroups [closer] (first :: consumed)
          rest = .ok after ∧ (Except.ok ((), after) : Except GrammarError _) = .ok (a, c') := by
        cases hclose : Reading.closeGroups [closer] (first :: consumed) rest with
        | error e =>
          dsimp only at hr
          rw [hclose] at hr
          cases hr
        | ok after =>
          dsimp only at hr
          rw [hclose] at hr
          exact ⟨after, rfl, hr⟩
      cases hpure
      obtain ⟨d, hd, hcd, hsuffix⟩ := closeGroups (.cons ht hconsumed) hrest hclose
      dsimp only
      rw [hd]
      exact ⟨(), d, rfl, hcd, (List.suffix_cons _ _).trans hsuffix, trivial⟩

/-! ### Extents -/

theorem stretch_extentBetween {c d c' d' : Cursor} (h : c.Twin S free d)
    (h' : c'.Twin S free d') :
    S.Stretch (Reading.extentBetween S.left c c') (Reading.extentBetween S.right d d') := by
  have hnothing : S.Stretch ⟨[], ⟨1, 1⟩⟩ ⟨[], ⟨1, 1⟩⟩ := ⟨rfl, S.excerpts_nil⟩
  obtain ⟨consumed, rest⟩ := c
  obtain ⟨consumed', rest'⟩ := d
  obtain ⟨before, ahead⟩ := c'
  obtain ⟨before', ahead'⟩ := d'
  cases h.rest with
  | nil => exact hnothing
  | cons hfirst _ =>
    cases h'.consumed with
    | nil => exact hnothing
    | cons hlast _ =>
      refine ⟨hfirst.location, _, _, rfl, ?_⟩
      rw [← hfirst.start, ← hlast.stop]
      rfl

/-- What is built with the extent of what is read, from one place. -/
theorem spanning_at {r : Reading (Extent → α)} {r' : Reading (Extent → β)} {c d : Cursor}
    (hcd : c.Twin S free d)
    (h : ∀ build c', r c = .ok (build, c') → ∃ build' d', r' d = .ok (build', d') ∧
      c'.Twin S free d' ∧ c.consumed <:+ c'.consumed ∧
        ∀ f, S.Stretch (Reading.extentBetween S.left c c') f →
          P (build (Reading.extentBetween S.left c c')) (build' f)) :
    TwinsAt S free c d P (Reading.spanning S.left r) (Reading.spanning S.right r') := by
  intro a c' hr
  unfold Reading.spanning at hr
  cases hb : r c with
  | error e =>
    rw [hb] at hr
    cases hr
  | ok result =>
    rw [hb] at hr
    cases hr
    obtain ⟨build', d', hr', hcd', hsuffix, hbuild⟩ := h result.1 result.2 hb
    refine ⟨build' (Reading.extentBetween S.right d d'), d', ?_, hcd', hsuffix,
      hbuild _ (stretch_extentBetween hcd hcd')⟩
    unfold Reading.spanning
    rw [hr']
    rfl

theorem spanning {r : Reading (Extent → α)} {r' : Reading (Extent → β)}
    (h : Twins S free (fun build build' => ∀ e f, S.Stretch e f → P (build e) (build' f)) r r') :
    Twins S free P (Reading.spanning S.left r) (Reading.spanning S.right r') := by
  refine fun c d hcd => spanning_at hcd fun build c' hb => ?_
  obtain ⟨build', d', hr', hcd', hsuffix, hbuild⟩ := h c d hcd build c' hb
  exact ⟨build', d', hr', hcd', hsuffix, fun f => hbuild _ f⟩

/-- The extent of what a token starts is at the place of the token. -/
theorem spanning_token {k : Token → Reading (Extent → α)} {k' : Token → Reading (Extent → β)}
    (h : ∀ t u, t.Twin S free u → Twins S free (fun build build' =>
      ∀ e f, S.Stretch e f → e.location = t.location → P (build e) (build' f)) (k t) (k' u)) :
    Twins S free P (Reading.spanning S.left (Reading.token >>= k))
      (Reading.spanning S.right (Reading.token >>= k')) := by
  rintro ⟨consumed, rest⟩ ⟨consumed', rest'⟩ hcd
  refine spanning_at hcd fun build c' hb => ?_
  obtain ⟨hconsumed, hrest⟩ := hcd
  cases hrest with
  | nil => cases hb
  | @cons t u rest rest' ht hrest =>
    obtain ⟨build', d', hr', hcd', hsuffix, hbuild⟩ :=
      h t u ht ⟨t :: consumed, rest⟩ ⟨u :: consumed', rest'⟩ ⟨.cons ht hconsumed, hrest⟩ build c' hb
    refine ⟨build', d', hr', hcd', (List.suffix_cons _ _).trans hsuffix, fun f hf => ?_⟩
    refine hbuild _ f hf ?_
    obtain ⟨before, ahead⟩ := c'
    obtain ⟨more, hmore⟩ := hsuffix
    cases before with
    | nil => simp at hmore
    | cons last before => rfl

end Twins

end Reading

end DesiredState

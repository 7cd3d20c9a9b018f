/-
Readings that follow forms.

A reading follows a form if it passes where the form does, with the cursor that the form leaves,
and fails where the form does, at the token before which the form does.  There is one lemma for
each way in which a reading is made of others; all but two go from what the parts follow to what
the whole does without asking what they read.  A loop has to know that each of its turns takes a
token, since the reading counts turns, and what stands in brackets that a token has been read
before it.
-/
import DesiredState.Proofs.Script.Form.Reading

namespace DesiredState

open Grammar

namespace Reading

theorem bind_of_error {x : Reading α} {k : α → Reading β} {c : Cursor} {e : GrammarError}
    (h : x c = .error e) : (x >>= k) c = .error e := by
  change (x c >>= fun result => k result.1 result.2) = _
  rw [h]
  rfl

/-- A reading comes to what a form comes to; an error names the token before which it fails. -/
def Follows (r : Reading α) (f : Form) (c : Cursor) : Prop :=
  match r c with
  | .ok (_, c') => Runs true f c (.passed c')
  | .error e => ∃ rest, e.token = rest.head? ∧ Runs true f c (.failed rest)

namespace Follows

variable {r x : Reading α} {f g : Form} {c : Cursor}

theorem passed {a : α} {c' : Cursor} (h : Follows r f c) (hr : r c = .ok (a, c')) :
    Runs true f c (.passed c') := by
  unfold Follows at h
  rwa [hr] at h

theorem failed {e : GrammarError} (h : Follows r f c) (hr : r c = .error e) :
    ∃ rest, e.token = rest.head? ∧ Runs true f c (.failed rest) := by
  unfold Follows at h
  rwa [hr] at h

theorem of_passed {a : α} {c' : Cursor} (hr : r c = .ok (a, c')) (h : Runs true f c (.passed c')) :
    Follows r f c := by
  unfold Follows
  rwa [hr]

theorem of_failed {e : GrammarError} {rest : List Token} (hr : r c = .error e)
    (he : e.token = rest.head?) (h : Runs true f c (.failed rest)) : Follows r f c := by
  unfold Follows
  rw [hr]
  exact ⟨rest, he, h⟩

/-- A form that comes to the same is followed too. -/
theorem imp (h : Follows r f c) (hfg : ∀ o, Runs true f c o → Runs true g c o) :
    Follows r g c := by
  cases hr : r c with
  | ok result => exact of_passed hr (hfg _ (h.passed hr))
  | error e =>
    obtain ⟨rest, he, hf⟩ := h.failed hr
    exact of_failed hr he (hfg _ hf)

theorem pure (a : α) : Follows (Pure.pure a) .nothing c := of_passed rfl (.nothing c)

/-- One thing behind another. -/
theorem bind {k : α → Reading β} (hx : Follows x f c)
    (hk : ∀ a c', Runs true f c (.passed c') → Follows (k a) g c') :
    Follows (x >>= k) (.both f g) c := by
  cases hr : x c with
  | error e =>
    obtain ⟨rest, he, hf⟩ := hx.failed hr
    exact of_failed (bind_of_error hr) he (.both_failed hf)
  | ok result =>
    have hf := hx.passed hr
    have hg := hk result.1 result.2 hf
    unfold Follows at hg ⊢
    rw [bind_of_ok hr]
    split at hg
    · exact .both hf hg
    · obtain ⟨rest, he, hg⟩ := hg
      exact ⟨rest, he, .both hf hg⟩

/-- What is done with the result takes no tokens. -/
theorem map {k : α → β} (hx : Follows x f c) : Follows (x >>= fun a => Pure.pure (k a)) f c := by
  cases hr : x c with
  | error e =>
    obtain ⟨rest, he, hf⟩ := hx.failed hr
    exact of_failed (bind_of_error hr) he hf
  | ok result => exact of_passed (bind_of_ok hr) (hx.passed hr)

theorem spanning {source : Text} {r : Reading (Extent → α)} (h : Follows r f c) :
    Follows (Reading.spanning source r) f c := by
  have hspan : Reading.spanning source r c =
      (r c >>= fun result => .ok (result.1 (extentBetween source c result.2), result.2)) := rfl
  cases hr : r c with
  | error e =>
    obtain ⟨rest, he, hf⟩ := h.failed hr
    exact of_failed (by rw [hspan, hr]; rfl) he hf
  | ok result => exact of_passed (by rw [hspan, hr]; rfl) (h.passed hr)

/-- What the cursor answers is handed on. -/
theorem get {k : Cursor → Reading β} (h : Follows (k c) f c) : Follows (MonadState.get >>= k) f c := h

theorem ask {p : TokenKind → Bool} {k : Bool → Reading β} (h : Follows (k (c.nextIs p)) f c) :
    Follows (Reading.nextIs p >>= k) f c := h

/-- One rule or another, by what the cursor answers. -/
theorem branch (gate : Gate) {yes no : Reading α} (hyes : gate.opens c = true → Follows yes f c)
    (hno : gate.opens c = false → Follows no g c) :
    Follows (if gate.opens c then yes else no) (.branch gate f g) c := by
  cases hgate : gate.opens c with
  | true =>
    rw [if_pos rfl]
    exact (hyes hgate).imp fun _ => .yes hgate
  | false =>
    rw [if_neg Bool.false_ne_true]
    exact (hno hgate).imp fun _ => .no hgate

/-- One rule or another, by the kind of the next token. -/
theorem nextIs {p : TokenKind → Bool} {yes no : Reading α}
    (hyes : (Gate.next p).opens c = true → Follows yes f c)
    (hno : (Gate.next p).opens c = false → Follows no g c) :
    Follows (Reading.nextIs p >>= fun b => if b then yes else no) (.branch (.next p) f g) c :=
  branch (.next p) hyes hno

theorem reject (cause : GrammarError.Cause) :
    Follows (Reading.reject cause : Reading α) .reject c := of_failed rfl rfl (.reject c)

/-- Again and again the same rule, which takes a token each time. -/
theorem readWhile {gate : Gate} {enter : Cursor → Bool} (henter : ∀ c, enter c = gate.opens c)
    (hf : f.takes) (hr : ∀ c', c'.rest.length ≤ c.rest.length → gate.opens c' = true →
      Follows r f c') : Follows (Reading.readWhile enter r) (.loop gate f) c := by
  suffices h : ∀ n, ∀ c', c'.rest.length ≤ n → n ≤ c.rest.length →
      Follows (whileAtMost enter r n) (.loop gate f) c' from
    (h c.rest.length c (Nat.le_refl _) (Nat.le_refl _))
  intro n
  induction n with
  | zero =>
    intro c' hlength _
    have hnil : c'.rest = [] := List.eq_nil_of_length_eq_zero (Nat.le_zero.mp hlength)
    refine of_passed rfl (.loop (.no (Gate.opens_eq_false fun t ht => ?_) (.nothing c')))
    rw [hnil] at ht
    cases ht
  | succ n ih =>
    intro c' hlength hle
    have hloop : Follows (if gate.opens c' then (do
          let first ← r
          let rest ← whileAtMost enter r n
          Pure.pure (first :: rest)) else Pure.pure [])
        (.branch gate (.both f (.loop gate f)) .nothing) c' := by
      refine branch gate (fun hgate => ?_) fun _ => pure []
      refine bind (hr c' (Nat.le_trans hlength hle) hgate) fun a c'' hrun => map ?_
      have := hrun.length_lt hf
      exact ih c'' (by omega) (by omega)
    have hunfold : whileAtMost enter r (n + 1) c' = (if gate.opens c' then (do
          let first ← r
          let rest ← whileAtMost enter r n
          Pure.pure (first :: rest)) else Pure.pure []) c' := by
      rw [← henter]
      rfl
    have hstep := hloop.imp fun _ => .loop
    unfold Follows at hstep ⊢
    rwa [hunfold]

/-- A loop that is entered is its first turn and the loop. -/
theorem of_loop {gate : Gate} (h : Follows r (.loop gate f) c) (hgate : gate.opens c = true) :
    Follows r (.both f (.loop gate f)) c := by
  refine h.imp fun o hloop => ?_
  cases hloop with
  | loop hbranch =>
    cases hbranch with
    | yes _ hf => exact hf
    | no hno => simp [hgate] at hno

end Follows

variable {c : Cursor} {f : Form}

/-- A token that is known to be there and to be content. -/
theorem follows_token {p q : TokenKind → Bool} (hc : (Gate.next p).opens c)
    (hp : ∀ kind, p kind → q kind ∧ kind.isContent) : Follows token (.token q) c := by
  obtain ⟨consumed, rest⟩ := c
  obtain ⟨t, rest, rfl, ht⟩ := Nesting.nextIs_iff.mp hc
  exact .of_passed rfl (runs_ofToken (hp _ ht).1 (hp _ ht).2)

theorem follows_any {p : TokenKind → Bool} (hc : (Gate.next p).opens c)
    (hp : ∀ kind, p kind → kind.isContent) : Follows token .any c :=
  follows_token hc fun kind h => ⟨rfl, hp kind h⟩

/-- A token of a kind that is known to be there. -/
theorem follows_ofKind {kind : TokenKind} (hc : (Gate.next (· == kind)).opens c) (hk : kind.isContent) :
    Follows token (.ofKind kind) c :=
  follows_token hc fun _ h => ⟨h, Nesting.isContent_of_eq hk h⟩

theorem follows_tokenOf (what : Text) {p : TokenKind → Bool}
    (hp : ∀ kind, p kind → kind.isContent) : Follows (tokenOf what p) (.token p) c := by
  obtain ⟨consumed, rest⟩ := c
  cases rest with
  | nil => exact .of_failed rfl rfl (.token p ⟨consumed, []⟩)
  | cons t rest =>
    by_cases ht : p t.kind
    · exact .of_passed (if_pos ht) (runs_ofToken ht (hp _ ht))
    · have hfailed : Outcome.ofToken p ⟨consumed, t :: rest⟩ = .failed (t :: rest) :=
        if_neg fun h => ht (Bool.and_eq_true_iff.mp h).1
      have hrun : Runs true (.token p) ⟨consumed, t :: rest⟩ (.failed (t :: rest)) :=
        hfailed ▸ .token p _
      exact .of_failed (if_neg ht) rfl hrun

theorem follows_expect {kind : TokenKind} (hk : kind.isContent) :
    Follows (expect kind) (.ofKind kind) c :=
  follows_tokenOf _ fun _ h => Nesting.isContent_of_eq hk h

theorem closeGroups_follows (closers : List TokenKind) (consumed rest : List Token) :
    match closeGroups closers consumed rest with
    | .ok c' => Outcome.ofGroups closers consumed rest = .passed c'
    | .error e => ∃ rest', e.token = rest'.head? ∧
        Outcome.ofGroups closers consumed rest = .failed rest' := by
  induction rest generalizing closers consumed with
  | nil =>
    cases closers with
    | nil => rfl
    | cons closer outer => exact ⟨[], rfl, rfl⟩
  | cons t rest ih =>
    cases closers with
    | nil => rfl
    | cons closer outer =>
      rw [Nesting.closeGroups_cons, Outcome.ofGroups]
      cases Nesting.push (closer :: outer) t.kind with
      | none => exact ⟨t :: rest, rfl, rfl⟩
      | some stack => exact ih stack (t :: consumed)

theorem follows_group : Follows group .group c := by
  obtain ⟨consumed, rest⟩ := c
  cases rest with
  | nil => exact .of_failed rfl rfl (.group ⟨consumed, []⟩)
  | cons t rest =>
    have hgroup : Runs true .group ⟨consumed, t :: rest⟩ (.ofGroup ⟨consumed, t :: rest⟩) :=
      .group _
    cases hcloser : t.kind.closer? with
    | none =>
      have hform : Outcome.ofGroup ⟨consumed, t :: rest⟩ = .failed (t :: rest) := by
        simp only [Outcome.ofGroup, hcloser]
      have hrule : group ⟨consumed, t :: rest⟩ = .error ⟨.noAlternative, some t⟩ := by
        simp only [group, hcloser]
      exact .of_failed hrule rfl (hform ▸ hgroup)
    | some closer =>
      have hform : Outcome.ofGroup ⟨consumed, t :: rest⟩ =
          .ofGroups [closer] (t :: consumed) rest := by
        simp only [Outcome.ofGroup, hcloser]
      have hrule : group ⟨consumed, t :: rest⟩ =
          (closeGroups [closer] (t :: consumed) rest).map ((), ·) := by
        simp only [group, hcloser]
        rfl
      have hclose := closeGroups_follows [closer] (t :: consumed) rest
      cases hr : closeGroups [closer] (t :: consumed) rest with
      | ok c' =>
        rw [hr] at hclose hrule
        exact .of_passed hrule (hclose ▸ hform ▸ hgroup)
      | error e =>
        rw [hr] at hclose hrule
        obtain ⟨rest', he, hfailed⟩ := hclose
        exact .of_failed hrule he (hfailed ▸ hform ▸ hgroup)

theorem expect_of_eq {kind : TokenKind} {t : Token} (ht : t.kind = kind) (consumed rest : List Token) :
    expect kind ⟨consumed, t :: rest⟩ = .ok (t, ⟨t :: consumed, rest⟩) := if_pos (beq_iff_eq.mpr ht)

theorem expect_of_ne {kind : TokenKind} {t : Token} (ht : t.kind ≠ kind) (consumed rest : List Token) :
    expect kind ⟨consumed, t :: rest⟩ = .error ⟨.expected kind.name, some t⟩ :=
  if_neg fun h => ht (beq_iff_eq.mp h)

/-- What stands between two brackets. -/
theorem follows_enclosed {opener closer : TokenKind} {r : Reading α} (k : α → β)
    (hcloser : opener.closer? = some closer)
    (hr : ∀ c', c'.rest.length < c.rest.length → Follows r f c') :
    Follows (do
      let _ ← expect opener
      let a ← r
      let _ ← expect closer
      pure (k a)) (.enclosed opener f) c := by
  obtain ⟨consumed, rest⟩ := c
  cases rest with
  | nil =>
    have hrun : Runs true (.enclosed opener f) ⟨consumed, []⟩ (.failed []) := .enclosed_missing rfl
    exact .of_failed rfl rfl hrun
  | cons t rest =>
    by_cases ht : t.kind = opener
    · have hinner := hr ⟨t :: consumed, rest⟩ (Nat.lt_succ_self _)
      have hopen := expect_of_eq ht consumed rest
      cases hread : r ⟨t :: consumed, rest⟩ with
      | error e =>
        obtain ⟨rest', he, hf⟩ := hinner.failed hread
        exact .of_failed ((bind_of_ok hopen).trans (bind_of_error hread)) he
          (.enclosed_failed rfl ht hcloser hf)
      | ok result =>
        obtain ⟨a, consumed', rest'⟩ := result
        have hrun := Runs.enclosed (c := ⟨consumed, t :: rest⟩) rfl ht hcloser (hinner.passed hread)
        cases rest' with
        | nil => exact .of_failed ((bind_of_ok hopen).trans ((bind_of_ok hread).trans rfl)) rfl hrun
        | cons u rest' =>
          by_cases hu : u.kind = closer
          · have hclosing : Outcome.closing closer ⟨consumed', u :: rest'⟩ =
                .passed ⟨u :: consumed', rest'⟩ := if_pos hu
            exact .of_passed ((bind_of_ok hopen).trans ((bind_of_ok hread).trans
              (bind_of_ok (expect_of_eq hu _ _)))) (hclosing ▸ hrun)
          · have hclosing : Outcome.closing closer ⟨consumed', u :: rest'⟩ =
                .failed (u :: rest') := if_neg hu
            exact .of_failed ((bind_of_ok hopen).trans ((bind_of_ok hread).trans
              (bind_of_error (expect_of_ne hu _ _)))) rfl (hclosing ▸ hrun)
    · exact .of_failed (bind_of_error (expect_of_ne ht consumed rest)) rfl
        (.enclosed_missing (c := ⟨consumed, t :: rest⟩) (beq_eq_false_iff_ne.mpr ht))

end Reading

end DesiredState

/-
Operands.

An operand that makes up a text by itself is one before an operator too: nothing in it goes on
with an operator, and brackets that nest in it leave no doubt about what a cast stands before.
What an operand starts and ends with decides whether an operator can touch it.  It starts with no
name, and a name at its end is that of a member.
-/
import DesiredState.Proofs.Script.Form.Casts
import DesiredState.Proofs.Script.Form.Rules
import DesiredState.Proofs.Script.Passage

namespace DesiredState

/-- The last token can end an operand: it is no parameter, and a name only behind the mark of a
member. -/
def Cursor.EndsOperand (c : Cursor) : Prop :=
  ∃ last before, c.consumed = last :: before ∧ last.kind ≠ .parameter ∧
    (last.kind.isName → ∃ mark ∈ before.head?, mark.kind = .dot ∨ mark.kind = .doubleColon)

theorem Cursor.endsOperand_of_kind {c : Cursor} {last : Token} {before : List Token}
    (h : c.consumed = last :: before) (hname : last.kind.isName = false)
    (hparameter : last.kind ≠ .parameter) : c.EndsOperand :=
  ⟨last, before, h, hparameter, fun h => by rw [hname] at h; cases h⟩

namespace Grammar

open Reading

variable {looks : Bool} {f : Form} {gate : Gate} {c c' : Cursor}

/-! ### What an operand ends with

Only an access could go on where an operand has ended, and it depends on the last token
whether one can.  So it is asked of each form with which token it ends.
-/

/-- What a closing bracket ends. -/
theorem endsOperand_of_closer {last : Token} {before : List Token}
    (h : c.consumed = last :: before) (hk : last.kind = .parenClose ∨ last.kind = .braceClose) :
    c.EndsOperand := by
  refine Cursor.endsOperand_of_kind h ?_ ?_ <;> rcases hk with hk | hk <;> rw [hk] <;> decide

theorem endsOperand_ofGroups {closers : List TokenKind} {consumed rest : List Token}
    (h : Outcome.ofGroups closers consumed rest = .passed c') (hne : closers ≠ [])
    (hclosers : ∀ closer ∈ closers, closer = .parenClose ∨ closer = .braceClose) :
    c'.EndsOperand := by
  induction rest generalizing closers consumed with
  | nil =>
    cases closers with
    | nil => exact absurd rfl hne
    | cons closer outer => cases h
  | cons t rest ih =>
    cases closers with
    | nil => exact absurd rfl hne
    | cons closer outer =>
      rw [Outcome.ofGroups] at h
      cases hpush : Nesting.push (closer :: outer) t.kind with
      | none => rw [hpush] at h; cases h
      | some stack =>
        rw [hpush] at h
        rcases Nesting.push_cases hpush with ⟨opened, hopened, rfl⟩ | ⟨-, -, rfl⟩ | ⟨-, -, heq⟩
        · refine ih h (List.cons_ne_nil _ _) fun other hother => ?_
          rcases List.mem_cons.mp hother with rfl | hother
          · exact isCloser_of_closer? hopened
          · exact hclosers other hother
        · exact ih h hne hclosers
        · obtain ⟨hkind, rfl⟩ := List.cons.inj heq
          cases outer with
          | nil =>
            have hpassed : Outcome.passed ⟨t :: consumed, rest⟩ = .passed c' := by
              rw [← h]
              simp only [Outcome.ofGroups]
            cases hpassed
            exact endsOperand_of_closer rfl (hkind ▸ hclosers closer List.mem_cons_self)
          | cons next outer =>
            exact ih h (List.cons_ne_nil _ _) fun other hother =>
              hclosers other (List.mem_cons_of_mem _ hother)

theorem endsOperand_of_group (h : Runs looks .group c (.passed c')) : c'.EndsOperand := by
  generalize ho : Outcome.passed c' = o at h
  cases h
  unfold Outcome.ofGroup at ho
  split at ho
  · split at ho
    · next closer hcloser =>
      refine endsOperand_ofGroups ho.symm (List.cons_ne_nil _ _) fun other hother => ?_
      rw [List.mem_singleton.mp hother]
      exact isCloser_of_closer? hcloser
    · cases ho
  · cases ho

theorem endsOperand_of_enclosed {opener : TokenKind}
    (h : Runs looks (.enclosed opener f) c (.passed c')) : c'.EndsOperand := by
  generalize ho : Outcome.passed c' = o at h
  cases h with
  | enclosed _ _ hcloser _ =>
    unfold Outcome.closing at ho
    split at ho
    · split at ho
      · next hkind =>
        cases ho
        exact endsOperand_of_closer rfl (hkind ▸ isCloser_of_closer? hcloser)
      · cases ho
    · cases ho
  | enclosed_failed | enclosed_missing => cases ho

theorem endsOperand_of_access (h : Runs looks .access c (.passed c')) : c'.EndsOperand := by
  cases h with
  | yes hgate h =>
    cases h with
    | both hmark hname =>
      obtain ⟨mark, rest, -, hkind, rfl⟩ := hmark.passed_any hgate
      obtain ⟨name, rest', -, hisName, rfl⟩ := hname.passed_token
      refine ⟨name, _, rfl, fun hk => ?_, fun _ => ⟨mark, rfl, by simpa using hkind⟩⟩
      rw [hk] at hisName
      cases hisName
  | no _ h =>
    cases h with
    | yes _ h =>
      cases h with
      | both _ h =>
        cases h with
        | both _ hclose =>
          obtain ⟨last, _, -, hkind, rfl⟩ := hclose.passed_token
          have hk := beq_iff_eq.mp hkind
          exact Cursor.endsOperand_of_kind rfl (by rw [hk]; rfl) (by rw [hk]; decide)
    | no _ h =>
      cases h with
      | yes hgate hany =>
        obtain ⟨last, rest, -, hkind, rfl⟩ := hany.passed_any hgate
        have hk := beq_iff_eq.mp hkind
        exact Cursor.endsOperand_of_kind rfl (by rw [hk]; rfl) (by rw [hk]; decide)
      | no _ hgroup => exact endsOperand_of_group hgroup

theorem endsOperand_of_primary (h : Runs looks .primary c (.passed c')) : c'.EndsOperand := by
  cases h with
  | yes hgate h =>
    obtain ⟨t, rest, -, hkind, rfl⟩ := h.passed_any hgate
    refine Cursor.endsOperand_of_kind rfl ?_ ?_ <;>
      · cases hk : t.kind <;> rw [hk] at hkind <;> first | rfl | decide | cases hkind
  | no _ h =>
    cases h with
    | yes _ h => exact endsOperand_of_enclosed h
    | no _ h =>
      cases h with
      | yes _ h => exact endsOperand_of_enclosed h
      | no _ h => exact endsOperand_of_group h

theorem endsOperand_of_accesses (h : Runs looks .accesses c (.passed c')) (hc : c.EndsOperand) :
    c'.EndsOperand :=
  h.loop_induction rfl (fun _ _ _ haccess _ => endsOperand_of_access haccess) hc

theorem endsOperand_of_castOperand (hgate : (Gate.next (· == .typeLiteral)).opens c = true)
    (h : Runs looks .castOperand c (.passed c')) : c'.EndsOperand := by
  have hcast {d d' : Cursor} (hopens : (Gate.next (· == .typeLiteral)).opens d = true)
      (hany : Runs looks .any d (.passed d')) : d'.EndsOperand := by
    obtain ⟨t, rest, -, hkind, rfl⟩ := hany.passed_any hopens
    have hk := beq_iff_eq.mp hkind
    exact Cursor.endsOperand_of_kind rfl (by rw [hk]; rfl) (by rw [hk]; decide)
  cases h with
  | both hcasts h =>
    cases hcasts with
    | both hany hloop =>
      have hends := hloop.loop_induction rfl (fun _ _ hopens hany _ => hcast hopens hany)
        (hcast hgate hany)
      cases h with
      | both hvalue haccesses =>
        refine endsOperand_of_accesses haccesses ?_
        cases hvalue with
        | cast _ hprimary => exact endsOperand_of_primary hprimary
        | cast_missing => exact hends

/-- **What an operand ends with.** -/
theorem endsOperand_of_operand (h : Runs looks .operand c (.passed c')) : c'.EndsOperand := by
  cases h with
  | both _ h =>
    cases h with
    | yes hgate h => exact endsOperand_of_castOperand hgate h
    | no _ h =>
      cases h with
      | both hprimary haccesses =>
        exact endsOperand_of_accesses haccesses (endsOperand_of_primary hprimary)

/-! ### What an operand starts with -/

theorem startsPrimary_of_primary {t : Token} {rest : List Token}
    (h : Runs looks .primary c (.passed c')) (hrest : c.rest = t :: rest) :
    t.kind.startsPrimary := by
  have hnext {p : TokenKind → Bool} (hgate : (Gate.next p).opens c = true)
      (hp : ∀ kind, p kind → kind.startsPrimary) : t.kind.startsPrimary := by
    refine hp _ ?_
    rwa [Gate.opens, Cursor.nextIs, hrest] at hgate
  cases h with
  | yes hgate _ =>
    exact hnext hgate fun kind hk => by cases kind <;> first | rfl | cases hk
  | no _ h =>
    cases h with
    | yes hgate _ => exact hnext hgate fun kind hk => by rw [beq_iff_eq.mp hk]; rfl
    | no _ h =>
      cases h with
      | yes hgate _ => exact hnext hgate fun kind hk => by rw [beq_iff_eq.mp hk]; rfl
      | no _ h =>
        generalize ho : Outcome.passed c' = o at h
        cases h
        rw [Outcome.ofGroup, hrest] at ho
        cases hkind : t.kind <;> simp only [hkind, TokenKind.closer?] at ho <;>
          first | rfl | cases ho

/-- What an operand starts with. -/
theorem startsOperand_of_operand {t : Token} {rest : List Token}
    (h : Runs looks .operand c (.passed c')) (hrest : c.rest = t :: rest) :
    t.kind.startsOperand := by
  have hnext {kind : TokenKind} (hgate : (Gate.next (· == kind)).opens c = true) :
      t.kind = kind := by
    rw [Gate.opens, Cursor.nextIs, hrest] at hgate
    exact beq_iff_eq.mp hgate
  cases h with
  | both hsign h =>
    cases hsign with
    | yes hgate _ => rw [hnext hgate]; rfl
    | no _ hnothing =>
      cases hnothing
      cases h with
      | yes hgate _ => rw [hnext hgate]; rfl
      | no _ h =>
        cases h with
        | both hprimary _ =>
          have hstarts := startsPrimary_of_primary hprimary hrest
          cases hk : t.kind <;> rw [hk] at hstarts <;> first | rfl | cases hstarts

/-! ### Operands before operators -/

/-- **An operand is read before an operator** as it is read at the end of the tokens. -/
theorem passes_operand_before {source : Text} {n : Nat} {consumed tokens rest : List Token}
    (h : Passes (operand source (level source n)) consumed tokens [] fun _ => True)
    (hlength : (tokens ++ rest).length ≤ n + 1)
    (hrest : Cursor.Meets rest (· == .operator)) :
    Passes (operand source (level source n)) consumed tokens rest fun _ => True := by
  obtain ⟨e, he, -⟩ := h
  rw [List.append_nil] at he
  have hbelow := followsBelow_level source n
  rw [List.length_append] at hlength
  have halone := (follows_operand source hbelow (c := ⟨consumed, tokens⟩)
    (by simp only []; omega)).passed he
  obtain ⟨ts, ⟨hsteps, hbalanced⟩, -⟩ := halone.reached
  obtain rfl : tokens = ts := by simpa using hsteps.rest
  have hbefore : Runs false .operand ⟨consumed, tokens ++ rest⟩
      (.passed ⟨tokens.reverse ++ consumed, rest⟩) := by
    refine (halone.relaxed_of_balanced hbalanced).again Form.sound_operand rfl hsteps.rest
      (.inr fun t ht => ?_)
    rw [beq_iff_eq.mp (hrest t ht)]
    cases Cursor.apart _ <;> rfl
  have hfollows := follows_operand source hbelow (c := ⟨consumed, tokens ++ rest⟩)
    (by simp only [List.length_append]; omega)
  cases hread : operand source (level source n) ⟨consumed, tokens ++ rest⟩ with
  | ok result =>
    obtain ⟨e', c'⟩ := result
    cases (hfollows.passed hread).eq (hbefore.looking rfl)
    exact ⟨e', hread, trivial⟩
  | error e' =>
    obtain ⟨_, -, hfailed⟩ := hfollows.failed hread
    cases hfailed.eq (hbefore.looking rfl)

end Grammar

end DesiredState

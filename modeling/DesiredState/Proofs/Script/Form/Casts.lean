/-
Whether brackets behind casts are looked into.

A bracket behind a cast starts a value if the two tokens behind it can go on with its group,
and otherwise the cast stands alone.  Where the value would be read wherever one can start,
the group is then opened and breaks at one of these two tokens.  That is the only
difference: everything else is read in the same way, and nothing that is read goes beyond
the token at which the group breaks, since brackets nest in it.  So what passes is the same,
and of what fails a failure is known that lies no earlier, by two tokens at most.
-/
import DesiredState.Proofs.Script.Form.Reading

namespace DesiredState

namespace Grammar

variable {f g : Form} {c c' : Cursor} {o : Outcome} {rest broken : List Token}

/-! ### What passes

Looking into a bracket can only refuse it.  So a reading that does not look and passes
is one in which the bracket would have been let through.
-/

/-- What a bracket behind a cast needs to be a value, apart from the tokens in it. -/
theorem castOpens_true_eq (c : Cursor) : c.castOpens true = (c.castOpens false &&
    (!c.nextIs TokenKind.startsAccess ||
      match c.rest with
      | next :: rest => Cursor.continuesGroups 2 next.kind.closer?.toList rest
      | [] => false)) :=
  (Bool.and_assoc c.afterType (c.onLine && c.nextIs TokenKind.startsPrimary) _).symm

/-- The value of a cast that starts an access too is a group. -/
theorem exists_closer {kind : TokenKind} (h : kind.startsPrimary) (h' : kind.startsAccess) :
    ∃ closer, kind.closer? = some closer := by
  cases kind <;> first
    | exact ⟨_, rfl⟩
    | exact absurd h (by decide)
    | exact absurd h' (by decide)

theorem castOpens_true_of_balanced {ts : List Token} (h : c.castOpens false)
    (hrest : c.rest = ts ++ rest) (hne : ts ≠ []) (hts : Nesting.Balanced ts) :
    c.castOpens true := by
  obtain ⟨t, ts, rfl⟩ := List.exists_cons_of_ne_nil hne
  rw [castOpens_true_eq, h, Bool.true_and, Bool.or_eq_true_iff]
  by_cases haccess : c.nextIs TokenKind.startsAccess
  · refine .inr ?_
    have hprimary : c.nextIs TokenKind.startsPrimary :=
      (Bool.and_eq_true_iff.mp (Bool.and_eq_true_iff.mp h).2).2
    rw [Cursor.nextIs, hrest] at haccess hprimary
    obtain ⟨closer, hcloser⟩ := exists_closer hprimary haccess
    rw [hrest]
    simp only [List.cons_append, hcloser, Option.toList_some]
    exact @Nesting.Balanced.continuesGroups (t :: ts) [] ts t hts rfl closer hcloser 2 rest
  · refine .inl ?_
    rw [Bool.eq_false_iff.mpr haccess]
    rfl

/-- **What passes where brackets are not looked into passes where they are.** -/
theorem Runs.looking (h : Runs false f c o) (ho : o = .passed c') : Runs true f c (.passed c') := by
  induction h generalizing c' with
  | nothing c => cases ho; exact .nothing c
  | reject | both_failed | headed_missing | enclosed_missing | enclosed_failed => cases ho
  | token p c => exact ho ▸ .token p c
  | group c => exact ho ▸ .group c
  | enclosed hc ht hcloser _ ih => exact ho ▸ .enclosed hc ht hcloser (ih rfl)
  | both _ _ ihf ihg => exact .both (ihf rfl) (ihg ho)
  | yes hgate _ ih => exact .yes hgate (ih ho)
  | no hgate _ ih => exact .no hgate (ih ho)
  | loop _ ih => exact .loop (ih ho)
  | cast hcast hf ih =>
    obtain ⟨ts, hts, hne⟩ := hf.reached
    subst ho
    exact .cast (castOpens_true_of_balanced hcast hts.1.rest (hne rfl c' rfl) hts.2) (ih rfl)
  | cast_missing hcast =>
    cases ho
    refine .cast_missing ?_
    rw [castOpens_true_eq, hcast, Bool.false_and]
  | headed hheads hc _ ih => exact .headed hheads hc (ih ho)
  | rule _ ih => exact .rule (ih ho)

end Grammar

/-! ### What is refused

The group of a refused bracket breaks at one of the two tokens behind it, where reading
without looking fails as well.  What is left to say is that it does not get any further.
-/

/-- A bracket behind a cast is refused, and its group breaks before these tokens. -/
structure Cursor.Refuses (c : Cursor) (broken : List Token) : Prop where
  opens : c.castOpens false = true
  refused : c.castOpens true = false
  breaks : ∃ group, c.rest = group ++ broken ∧ group ≠ [] ∧ group.length ≤ 2 ∧
    (Nesting.run [] group).isSome ∧
    ∀ t ∈ broken.head?, ∀ outer, Nesting.run outer (group ++ [t]) = none

namespace Grammar

variable {f g : Form} {c c' : Cursor} {o : Outcome} {rest broken : List Token}

/-- A token that breaks the innermost group breaks it whatever lies further out. -/
theorem push_eq_none {closer kind : TokenKind} {stack outer : List TokenKind}
    (h : Nesting.push (closer :: stack) kind = none) :
    Nesting.push (closer :: outer) kind = none := by
  unfold Nesting.push at h ⊢
  cases hcloser : kind.closer? with
  | some inner => rw [hcloser] at h; cases h
  | none =>
    rw [hcloser] at h
    simp only [] at h ⊢
    by_cases hcontent : kind.isContent
    · rw [if_pos hcontent] at h; cases h
    · rw [if_neg hcontent] at h ⊢
      by_cases hkind : kind = closer
      · rw [if_pos hkind] at h; cases h
      · exact if_neg hkind

/-- Groups that cannot go on break within the tokens that are looked at. -/
theorem ofGroups_of_not_continuesGroups {n : Nat} {closers : List TokenKind} (consumed : List Token)
    (h : Cursor.continuesGroups n closers rest = false) :
    ∃ ts broken, rest = ts ++ broken ∧ ts.length < n ∧ (Nesting.run closers ts).isSome ∧
      Outcome.ofGroups closers consumed rest = .failed broken ∧
      ∀ t ∈ broken.head?, ∀ outer, Nesting.run (closers ++ outer) (ts ++ [t]) = none := by
  induction n generalizing closers consumed rest with
  | zero => simp [Cursor.continuesGroups] at h
  | succ n ih =>
    cases closers with
    | nil => simp [Cursor.continuesGroups] at h
    | cons closer outer =>
      cases rest with
      | nil => exact ⟨[], [], rfl, Nat.succ_pos n, rfl, rfl, fun t ht => by cases ht⟩
      | cons t rest =>
        have hcontinues : ∀ stack, Nesting.push (closer :: outer) t.kind = some stack →
            Cursor.continuesGroups n stack rest = false := by
          intro stack hpush
          rw [← h, Cursor.continuesGroups]
          rw [Nesting.push] at hpush
          cases hcloser : t.kind.closer? with
          | some inner =>
            rw [hcloser] at hpush
            cases hpush
            rfl
          | none =>
            simp only [hcloser] at hpush ⊢
            by_cases hcontent : t.kind.isContent
            · rw [if_pos hcontent] at hpush ⊢
              cases hpush
              rfl
            · rw [if_neg hcontent] at hpush ⊢
              rw [Option.ite_none_right_eq_some] at hpush
              obtain ⟨hkind, hstack⟩ := hpush
              cases hstack
              simp [hkind]
        rw [Outcome.ofGroups]
        cases hpush : Nesting.push (closer :: outer) t.kind with
        | none =>
          refine ⟨[], t :: rest, rfl, Nat.succ_pos n, rfl, rfl, fun u hu further => ?_⟩
          cases hu
          simp only [List.nil_append, Nesting.run, List.cons_append, push_eq_none hpush,
            Option.bind_none]
        | some stack =>
          obtain ⟨ts, broken, hrest, hlength, hnests, hfails, hbreaks⟩ :=
            ih (t :: consumed) (hcontinues stack hpush)
          have hnests' : (Nesting.run (closer :: outer) (t :: ts)).isSome := by
            rw [Nesting.run, hpush]
            exact hnests
          refine ⟨t :: ts, broken, by rw [hrest]; rfl, Nat.succ_lt_succ hlength, hnests', hfails,
            fun u hu further => ?_⟩
          have hpush' : Nesting.push (closer :: outer ++ further) t.kind = some (stack ++ further) :=
            Nesting.push_append hpush further
          simp only [List.cons_append, Nesting.run] at hpush' ⊢
          rw [hpush', Option.bind_some]
          exact hbreaks u hu further

/-- A bracket that is refused opens a group that cannot go on. -/
theorem exists_refused_group (h : c.castOpens false = true) (h' : c.castOpens true = false) :
    ∃ t rest closer, c.rest = t :: rest ∧ t.kind.startsAccess ∧ t.kind.closer? = some closer ∧
      Cursor.continuesGroups 2 [closer] rest = false := by
  rw [castOpens_true_eq, h, Bool.true_and, Bool.or_eq_false_iff, Bool.not_eq_false'] at h'
  obtain ⟨haccess, hcontinues⟩ := h'
  have hprimary : c.nextIs TokenKind.startsPrimary :=
    (Bool.and_eq_true_iff.mp (Bool.and_eq_true_iff.mp h).2).2
  obtain ⟨t, rest, hrest, hstarts⟩ := Nesting.nextIs_iff.mp haccess
  rw [Cursor.nextIs, hrest] at hprimary
  obtain ⟨closer, hcloser⟩ := exists_closer hprimary hstarts
  rw [hrest] at hcontinues
  simp only [hcloser, Option.toList_some] at hcontinues
  exact ⟨t, rest, closer, hrest, hstarts, hcloser, hcontinues⟩

/-- Where a bracket behind a cast is refused, reading its group fails. -/
theorem exists_refuses (h : c.castOpens false = true) (h' : c.castOpens true = false) :
    ∃ broken, c.Refuses broken ∧ Runs false .primary c (.failed broken) := by
  obtain ⟨t, rest, closer, hrest, hstarts, hcloser, hcontinues⟩ := exists_refused_group h h'
  obtain ⟨ts, broken, hts, hlength, hnests, hfails, hbreaks⟩ :=
    ofGroups_of_not_continuesGroups (t :: c.consumed) hcontinues
  refine ⟨broken, ⟨h, h', t :: ts, ?_, List.cons_ne_nil _ _, ?_, ?_, fun u hu outer => ?_⟩, ?_⟩
  · rw [hrest, hts, List.cons_append]
  · rw [List.length_cons]
    omega
  · rw [Nesting.run, Nesting.push, hcloser]
    exact hnests
  · simp only [List.cons_append, Nesting.run, Nesting.push, hcloser, Option.bind_some]
    exact hbreaks u hu outer
  · have hgroup : Outcome.ofGroup c = .failed broken := by
      simp only [Outcome.ofGroup, hrest, hcloser, hfails]
    -- Only the last alternative reads a bracket that starts an access too.
    have hno {p : TokenKind → Bool} (hp : ∀ kind : TokenKind, kind.startsAccess → p kind = false) :
        Gate.opens (.next p) c = false := by
      rw [Gate.opens, Cursor.nextIs, hrest]
      exact hp _ hstarts
    refine .no (hno ?_) (.no (hno ?_) (.no (hno ?_) (hgroup ▸ .group c))) <;>
      · intro kind hkind
        cases kind <;> first | rfl | cases hkind

/-- A bracket is refused somewhere behind a cursor, no later than these tokens. -/
def RefusesBefore (c : Cursor) (rest broken : List Token) : Prop :=
  ∃ d ts, c.Steps ts d ∧ (∃ inner, Nesting.Moves [] inner ts) ∧ d.Refuses broken ∧ rest <:+ d.rest

theorem RefusesBefore.before {ts : List Token} {inner : List TokenKind}
    (h : RefusesBefore c' rest broken) (hsteps : c.Steps ts c')
    (hts : Nesting.Moves [] inner ts) : RefusesBefore c rest broken := by
  obtain ⟨d, us, hd, ⟨inner', hus⟩, hrefuses, hrest⟩ := h
  exact ⟨d, ts ++ us, hsteps.trans hd, ⟨inner' ++ inner, hts.append (hus.frame inner)⟩, hrefuses,
    hrest⟩

theorem RefusesBefore.later {rest' : List Token} (h : RefusesBefore c rest broken)
    (hrest : rest' <:+ rest) : RefusesBefore c rest' broken := by
  obtain ⟨d, ts, hd, hts, hrefuses, hsuffix⟩ := h
  exact ⟨d, ts, hd, hts, hrefuses, hrest.trans hsuffix⟩

theorem Runs.rest_suffix {looks : Bool} (h : Runs looks f c o) : o.rest <:+ c.rest := by
  obtain ⟨ts, hts, -⟩ := h.reached
  exact ⟨ts, hts.rest.symm⟩

theorem closing_rest_suffix (closer : TokenKind) (c : Cursor) :
    (Outcome.closing closer c).rest <:+ c.rest := by
  unfold Outcome.closing
  split
  · next t rest hrest =>
    rw [hrest]
    split
    · exact List.suffix_cons _ _
    · exact List.suffix_rfl
  · exact List.nil_suffix

/-- **The same is read where brackets are not looked into**, unless one is refused, and then reading
fails there where its group breaks. -/
theorem Runs.relaxed (h : Runs true f c o) : Runs false f c o ∨
    ∃ broken, RefusesBefore c o.rest broken ∧ Runs false f c (.failed broken) := by
  induction h with
  | nothing c => exact .inl (.nothing c)
  | reject c => exact .inl (.reject c)
  | token p c => exact .inl (.token p c)
  | group c => exact .inl (.group c)
  | enclosed hc ht hcloser _ ih =>
    rcases ih with hf | ⟨broken, hrefuses, hf⟩
    · exact .inl (.enclosed hc ht hcloser hf)
    · exact .inr ⟨broken, (hrefuses.before (.one hc rfl)
        (Nesting.moves_opener (ht ▸ hcloser))).later (closing_rest_suffix _ _),
        .enclosed_failed hc ht hcloser hf⟩
  | enclosed_failed hc ht hcloser _ ih =>
    rcases ih with hf | ⟨broken, hrefuses, hf⟩
    · exact .inl (.enclosed_failed hc ht hcloser hf)
    · exact .inr ⟨broken, hrefuses.before (.one hc rfl) (Nesting.moves_opener (ht ▸ hcloser)),
        .enclosed_failed hc ht hcloser hf⟩
  | enclosed_missing hmissing => exact .inl (.enclosed_missing hmissing)
  | both hf hg ihf ihg =>
    obtain ⟨ts, hts, -⟩ := hf.reached
    rcases ihf with hf | ⟨broken, hrefuses, hf⟩
    · rcases ihg with hg | ⟨broken, hrefuses, hg⟩
      · exact .inl (.both hf hg)
      · exact .inr ⟨broken, hrefuses.before hts.1 hts.2, .both hf hg⟩
    · exact .inr ⟨broken, hrefuses.later hg.rest_suffix, .both_failed hf⟩
  | both_failed _ ih =>
    rcases ih with hf | ⟨broken, hrefuses, hf⟩
    · exact .inl (.both_failed hf)
    · exact .inr ⟨broken, hrefuses, .both_failed hf⟩
  | yes hgate _ ih => exact ih.imp (.yes hgate) fun ⟨broken, hr, hf⟩ => ⟨broken, hr, .yes hgate hf⟩
  | no hgate _ ih => exact ih.imp (.no hgate) fun ⟨broken, hr, hf⟩ => ⟨broken, hr, .no hgate hf⟩
  | loop _ ih => exact ih.imp .loop fun ⟨broken, hr, hf⟩ => ⟨broken, hr, .loop hf⟩
  | @cast c o hcast _ ih =>
    have hopens : c.castOpens false = true := by
      rw [castOpens_true_eq] at hcast
      exact (Bool.and_eq_true_iff.mp hcast).1
    exact ih.imp (.cast hopens) fun ⟨broken, hr, hf⟩ => ⟨broken, hr, .cast hopens hf⟩
  | @cast_missing c hcast =>
    by_cases hopens : c.castOpens false
    · obtain ⟨broken, hrefuses, hf⟩ := exists_refuses hopens hcast
      exact .inr ⟨broken, ⟨c, [], .refl c, ⟨[], .nil []⟩, hrefuses, List.suffix_rfl⟩,
        .cast hopens hf⟩
    · exact .inl (.cast_missing (Bool.eq_false_iff.mpr hopens))
  | @headed p f c o t rest hheads hc _ ih =>
    rcases ih with hf | ⟨broken, hrefuses, hf⟩
    · exact .inl (.headed hheads hc hf)
    · have hmoves := Nesting.moves_content (isContent_of_heads hheads hc)
      exact .inr ⟨broken, hrefuses.before (.one hc rfl) hmoves, .headed hheads hc hf⟩
  | headed_missing hmissing => exact .inl (.headed_missing hmissing)
  | rule _ ih => exact ih.imp .rule fun ⟨broken, hr, hf⟩ => ⟨broken, hr, .rule hf⟩

/-- Nothing that is read goes beyond the token at which a refused group breaks. -/
theorem RefusesBefore.suffix {ts : List Token} (h : RefusesBefore c rest broken)
    (hrest : c.rest = ts ++ rest) (hts : ∃ inner, Nesting.Moves [] inner ts) : broken <:+ rest := by
  obtain ⟨d, us, hd, ⟨inner, hus⟩, hrefuses, -⟩ := h
  obtain ⟨group, hgroup, -, -, -, hbreaks⟩ := hrefuses.breaks
  have hbroken : c.rest = us ++ group ++ broken := by rw [hd.rest, hgroup, List.append_assoc]
  refine List.suffix_of_suffix_length_le ⟨us ++ group, hbroken.symm⟩ ⟨ts, hrest.symm⟩ ?_
  by_contra hlength
  obtain ⟨inner', hmoves⟩ := hts
  cases broken with
  | nil => exact hlength (Nat.zero_le _)
  | cons t more =>
    obtain ⟨vs, rfl⟩ : us ++ group ++ [t] <+: ts := by
      have hlong : us ++ group ++ [t] <+: c.rest :=
        ⟨more, by rw [hbroken, List.append_assoc _ [t]]; rfl⟩
      refine List.prefix_of_prefix_length_le hlong ⟨rest, hrest.symm⟩ ?_
      have hequal := congrArg List.length (hbroken.symm.trans hrest)
      simp only [List.length_append, List.length_cons, List.length_nil] at hequal hlength ⊢
      omega
    have hrun := hmoves []
    rw [Nesting.run_append, List.append_assoc, Nesting.run_append, hus [], Option.bind_some,
      hbreaks t rfl] at hrun
    cases hrun

/-- Where brackets nest to the end, none is refused. -/
theorem RefusesBefore.not_balanced (h : RefusesBefore c rest broken) :
    ¬ Nesting.Balanced c.rest := by
  obtain ⟨d, us, hd, -, hrefuses, -⟩ := h
  intro hbalanced
  obtain ⟨t, behind, closer, hbehind, -, hcloser, hcontinues⟩ :=
    exists_refused_group hrefuses.opens hrefuses.refused
  have hsplit : c.rest = us ++ t :: behind := by rw [hd.rest, hbehind]
  have hfound := hbalanced.continuesGroups hsplit hcloser 2 []
  rw [List.append_nil, hcontinues] at hfound
  cases hfound

/-- What passes passes too where brackets are not looked into, if they nest to the end. -/
theorem Runs.relaxed_of_balanced (h : Runs true f c o) (hrest : Nesting.Balanced c.rest) :
    Runs false f c o :=
  h.relaxed.resolve_right fun ⟨_, hrefuses, _⟩ => hrefuses.not_balanced hrest

end Grammar

end DesiredState

/-
Reading by a form.

Four things are known of it, whether brackets behind casts are looked into or not.  It comes
to one thing only.  It reads tokens one after another, from the cursor on, and brackets nest
in them, also where it fails in the end.  A form that takes a token has done so when it has
passed.

The fourth is only true where they are not looked into.  All decisions that led to the place
where it passes or fails were then taken by the tokens before that place and the one at it.
So the same is read again whatever comes later, and what has passed passes again before
another token if this one does not go on with it, which is what `shuts` tells.  A keyword is
the exception: what it is depends on the token behind it.
-/
import DesiredState.Proofs.Script.Form

namespace DesiredState

theorem Cursor.Steps.eq_of_nil {c c' : Cursor} (h : c.Steps [] c') : c' = c := by
  cases c
  cases c'
  cases h.rest
  cases h.consumed
  rfl

namespace Grammar

variable {looks : Bool} {f g : Form} {gate : Gate} {c c' : Cursor} {o o' : Outcome}

/-! ### One outcome -/

theorem Runs.eq (h : Runs looks f c o) (h' : Runs looks f c o') : o = o' := by
  induction h generalizing o' with
  | nothing | reject | token | group | cast_missing hc | headed_missing hc | enclosed_missing hc =>
    cases h' <;> simp_all [Cursor.nextIs]
  | enclosed hc ht hcloser _ ih =>
    cases h' with
    | enclosed hc' ht' hcloser' hf' =>
      cases hc.symm.trans hc'
      cases hcloser.symm.trans hcloser'
      cases ih hf'
      rfl
    | enclosed_failed hc' ht' hcloser' hf' =>
      cases hc.symm.trans hc'
      cases ih hf'
    | enclosed_missing h => simp [Cursor.nextIs, hc, ht] at h
  | enclosed_failed hc ht hcloser _ ih =>
    cases h' with
    | enclosed hc' ht' hcloser' hf' =>
      cases hc.symm.trans hc'
      cases ih hf'
    | enclosed_failed hc' ht' hcloser' hf' =>
      cases hc.symm.trans hc'
      cases ih hf'
      rfl
    | enclosed_missing h => simp [Cursor.nextIs, hc, ht] at h
  | both _ _ ihf ihg =>
    cases h' with
    | both hf' hg' =>
      cases ihf hf'
      exact ihg hg'
    | both_failed hf' => cases ihf hf'
  | both_failed _ ihf =>
    cases h' with
    | both hf' hg' => cases ihf hf'
    | both_failed hf' =>
      cases ihf hf'
      rfl
  | yes hgate _ ih =>
    cases h' with
    | yes _ hf' => exact ih hf'
    | no hgate' _ => simp [hgate] at hgate'
  | no hgate _ ih =>
    cases h' with
    | yes hgate' _ => simp [hgate] at hgate'
    | no _ hg' => exact ih hg'
  | loop _ ih =>
    cases h' with
    | loop h => exact ih h
  | cast hcast _ ih =>
    cases h' with
    | cast _ hf' => exact ih hf'
    | cast_missing hcast' => simp [hcast] at hcast'
  | headed hheads hc _ ih =>
    cases h' with
    | headed _ hc' hf' =>
      cases hc.symm.trans hc'
      exact ih hf'
    | headed_missing hheads' => simp [hheads] at hheads'
  | rule _ ih =>
    cases h' with
    | rule h => exact ih h

/-! ### Tokens one after another

Reading only ever moves on, and what it has moved over are tokens of the text.  That
brackets nest among them is kept along the way, as far as they have been read.
-/

/-- What reading comes to is reached over these tokens, in which brackets nest as far as they
are read. -/
def Outcome.Reached (c : Cursor) (ts : List Token) : Outcome → Prop
  | passed c' => c.Steps ts c' ∧ Nesting.Balanced ts
  | failed rest => c.rest = ts ++ rest ∧ ∃ inner, Nesting.Moves [] inner ts

theorem Outcome.Reached.rest {ts : List Token} (h : o.Reached c ts) : c.rest = ts ++ o.rest := by
  cases o with
  | passed c' => exact h.1.rest
  | failed rest => exact h.1

theorem Outcome.Reached.moves {ts : List Token} (h : o.Reached c ts) :
    ∃ inner, Nesting.Moves [] inner ts := by
  cases o with
  | passed c' => exact ⟨[], h.2⟩
  | failed rest => exact h.2

/-- A failure before anything has been read. -/
theorem Outcome.reached_failed (c : Cursor) : (failed c.rest).Reached c [] :=
  ⟨rfl, [], .nil []⟩

/-- What is reached from a cursor that is itself reached. -/
theorem Outcome.Reached.after {ts us : List Token} (h : o.Reached c' us) (hc : c.Steps ts c')
    (hts : Nesting.Balanced ts) : o.Reached c (ts ++ us) := by
  cases o with
  | passed c'' => exact ⟨hc.trans h.1, hts.append h.2⟩
  | failed rest =>
    obtain ⟨hrest, inner, hmoves⟩ := h
    refine ⟨?_, inner, hts.append hmoves⟩
    rw [hc.rest, hrest, List.append_assoc]

theorem Outcome.reached_ofToken (p : TokenKind → Bool) (c : Cursor) :
    ∃ ts, (ofToken p c).Reached c ts ∧ ∀ c', ofToken p c = .passed c' → ts ≠ [] := by
  unfold ofToken
  split
  · next t rest hrest =>
    split
    · next ht =>
      obtain ⟨-, hcontent⟩ := Bool.and_eq_true_iff.mp ht
      exact ⟨[t], ⟨.one hrest rfl, Nesting.moves_content hcontent⟩, fun _ _ => List.cons_ne_nil _ _⟩
    · exact ⟨[], hrest ▸ reached_failed c, fun _ h => by cases h⟩
  · next hrest => exact ⟨[], hrest ▸ reached_failed c, fun _ h => by cases h⟩

theorem Outcome.reached_ofGroups (closers : List TokenKind) (c : Cursor) :
    ∃ ts, match ofGroups closers c.consumed c.rest with
      | .passed c' => c.Steps ts c' ∧ Nesting.Moves closers [] ts
      | .failed rest => c.rest = ts ++ rest ∧ ∃ inner, Nesting.Moves closers inner ts := by
  obtain ⟨consumed, rest⟩ := c
  induction rest generalizing closers consumed with
  | nil =>
    cases closers with
    | nil => exact ⟨[], .refl _, .nil _⟩
    | cons closer outer => exact ⟨[], rfl, _, .nil _⟩
  | cons t rest ih =>
    cases closers with
    | nil => exact ⟨[], .refl _, .nil _⟩
    | cons closer outer =>
      simp only [ofGroups]
      cases hpush : Nesting.push (closer :: outer) t.kind with
      | none => exact ⟨[], rfl, _, .nil _⟩
      | some stack =>
        have hone : Nesting.Moves (closer :: outer) stack [t] := by
          intro further
          rw [Nesting.run, Nesting.push_append hpush, Option.bind_some, Nesting.run]
        obtain ⟨ts, hts⟩ := ih stack (t :: consumed)
        refine ⟨t :: ts, ?_⟩
        simp only [] at hts ⊢
        cases hrun : ofGroups stack (t :: consumed) rest with
        | passed c' =>
          rw [hrun] at hts
          exact ⟨(Cursor.Steps.one rfl rfl).trans hts.1, hone.append hts.2⟩
        | failed rest' =>
          rw [hrun] at hts
          obtain ⟨hrest, inner, hmoves⟩ := hts
          exact ⟨congrArg (t :: ·) hrest, inner, hone.append hmoves⟩

theorem Outcome.reached_ofGroup (c : Cursor) :
    ∃ ts, (ofGroup c).Reached c ts ∧ ∀ c', ofGroup c = .passed c' → ts ≠ [] := by
  unfold ofGroup
  split
  · next t rest hrest =>
    split
    · next closer hcloser =>
      have hone : c.Steps [t] ⟨t :: c.consumed, rest⟩ := .one hrest rfl
      have hmoves := Nesting.moves_opener hcloser
      obtain ⟨ts, hts⟩ := reached_ofGroups [closer] ⟨t :: c.consumed, rest⟩
      refine ⟨t :: ts, ?_, fun _ _ => List.cons_ne_nil _ _⟩
      cases hrun : ofGroups [closer] (t :: c.consumed) rest with
      | passed c' =>
        rw [hrun] at hts
        exact ⟨hone.trans hts.1, hmoves.append hts.2⟩
      | failed rest' =>
        rw [hrun] at hts
        obtain ⟨hrest', inner, hinner⟩ := hts
        exact ⟨hrest.trans (congrArg (t :: ·) hrest'), inner, hmoves.append hinner⟩
    · exact ⟨[], hrest ▸ reached_failed c, fun _ h => by cases h⟩
  · next hrest => exact ⟨[], hrest ▸ reached_failed c, fun _ h => by cases h⟩

theorem isCloser_of_closer? {opener closer : TokenKind} (h : opener.closer? = some closer) :
    closer = .parenClose ∨ closer = .braceClose := by
  cases opener <;> cases h <;> simp

/-- What stands in brackets is reached over the opening one, what is read in between, and the
closing one if it is there. -/
theorem Outcome.reached_closing {opener closer : TokenKind} {t : Token} {rest ts : List Token}
    (hc : c.rest = t :: rest) (ht : t.kind = opener) (hcloser : opener.closer? = some closer)
    (h : Outcome.Reached ⟨t :: c.consumed, rest⟩ ts (.passed c')) :
    ∃ us, (closing closer c').Reached c (t :: ts ++ us) := by
  have hsteps : c.Steps (t :: ts) c' := (Cursor.Steps.one hc rfl).trans h.1
  have hmoves : Nesting.Moves [] [closer] (t :: ts) :=
    (Nesting.moves_opener (ht ▸ hcloser)).append (h.2.frame [closer])
  unfold closing
  split
  · next u rest' hrest' =>
    split
    · next hu =>
      refine ⟨[u], hsteps.trans (.one hrest' rfl), hmoves.append ?_⟩
      have hclose := isCloser_of_closer? hcloser
      rw [← hu] at hclose ⊢
      exact Nesting.moves_closer hclose
    · exact ⟨[], by rw [List.append_nil, hsteps.rest, hrest'], [closer],
        by rwa [List.append_nil]⟩
  · next hrest' =>
    exact ⟨[], by rw [List.append_nil, hsteps.rest, hrest'], [closer], by rwa [List.append_nil]⟩

theorem isContent_of_heads {p : TokenKind → Bool} {t : Token} {rest : List Token}
    (h : c.heads p = true) (hc : c.rest = t :: rest) : t.kind.isContent := by
  unfold Cursor.heads at h
  rw [hc] at h
  have hkeyword := (Bool.and_eq_true_iff.mp h).1
  cases hk : t.kind <;> rw [hk] at hkeyword <;> first | rfl | cases hkeyword

/-- **What reading comes to is reached over tokens in which brackets nest**, and over at least one
token if the form takes one and passes. -/
theorem Runs.reached (h : Runs looks f c o) :
    ∃ ts, o.Reached c ts ∧ (f.takes → ∀ c', o = .passed c' → ts ≠ []) := by
  induction h with
  | nothing | cast_missing => exact ⟨[], ⟨.refl _, .nil _⟩, fun h => by cases h⟩
  | reject | headed_missing | enclosed_missing =>
    exact ⟨[], Outcome.reached_failed _, fun _ _ h => by cases h⟩
  | token p c =>
    obtain ⟨ts, h, hne⟩ := Outcome.reached_ofToken p c
    exact ⟨ts, h, fun _ => hne⟩
  | group c =>
    obtain ⟨ts, h, hne⟩ := Outcome.reached_ofGroup c
    exact ⟨ts, h, fun _ => hne⟩
  | enclosed hc ht hcloser _ ih =>
    obtain ⟨ts, h, -⟩ := ih
    obtain ⟨us, hus⟩ := Outcome.reached_closing hc ht hcloser h
    exact ⟨_, hus, fun _ _ _ => List.cons_ne_nil _ _⟩
  | @enclosed_failed opener closer _ c t rest rest' hc ht hcloser _ ih =>
    obtain ⟨ts, ⟨hrest, inner, hmoves⟩, -⟩ := ih
    refine ⟨t :: ts, ⟨?_, inner ++ [closer], ?_⟩, fun _ _ h => by cases h⟩
    · rw [hc, List.cons_append]
      exact congrArg _ hrest
    · exact (Nesting.moves_opener (ht ▸ hcloser)).append (hmoves.frame [closer])
  | @both f g c c' o _ _ ihf ihg =>
    obtain ⟨ts, ⟨hsteps, hbalanced⟩, hts⟩ := ihf
    obtain ⟨us, h, hus⟩ := ihg
    refine ⟨ts ++ us, h.after hsteps hbalanced, fun htakes c'' ho hnil => ?_⟩
    obtain ⟨rfl, rfl⟩ := List.append_eq_nil_iff.mp hnil
    rcases Bool.or_eq_true_iff.mp htakes with hf | hg
    · exact hts hf c' rfl rfl
    · exact hus hg c'' ho rfl
  | both_failed _ ih =>
    obtain ⟨ts, h, -⟩ := ih
    exact ⟨ts, h, fun _ _ h => by cases h⟩
  | yes _ _ ih =>
    obtain ⟨ts, h, hne⟩ := ih
    exact ⟨ts, h, fun htakes => hne (Bool.and_eq_true_iff.mp htakes).1⟩
  | no _ _ ih =>
    obtain ⟨ts, h, hne⟩ := ih
    exact ⟨ts, h, fun htakes => hne (Bool.and_eq_true_iff.mp htakes).2⟩
  | loop _ ih =>
    obtain ⟨ts, h, -⟩ := ih
    exact ⟨ts, h, fun htakes => by cases htakes⟩
  | cast _ _ ih =>
    obtain ⟨ts, h, -⟩ := ih
    exact ⟨ts, h, fun htakes => by cases htakes⟩
  | @headed p f c o t rest hheads hc _ ih =>
    obtain ⟨ts, h, -⟩ := ih
    exact ⟨t :: ts, h.after (.one hc rfl) (Nesting.moves_content (isContent_of_heads hheads hc)),
      fun _ _ _ => List.cons_ne_nil _ _⟩
  | @rule r _ _ _ ih =>
    obtain ⟨ts, h, hne⟩ := ih
    exact ⟨ts, h, fun _ => hne r.takes_form⟩

/-- A form that passes has read tokens. -/
theorem Runs.steps (h : Runs looks f c (.passed c')) : ∃ ts, c.Steps ts c' := by
  obtain ⟨ts, h, -⟩ := h.reached
  exact ⟨ts, h.1⟩

theorem Runs.length_le (h : Runs looks f c (.passed c')) : c'.rest.length ≤ c.rest.length := by
  obtain ⟨ts, h⟩ := h.steps
  rw [h.rest, List.length_append]
  exact Nat.le_add_left _ _

theorem Runs.length_lt (h : Runs looks f c (.passed c')) (hf : f.takes) :
    c'.rest.length < c.rest.length := by
  obtain ⟨ts, hts, hne⟩ := h.reached
  have hpos := List.length_pos_iff.mpr (hne hf c' rfl)
  rw [hts.1.rest, List.length_append]
  omega

/-! ### Parts of what has been read -/

theorem runs_ofToken {p : TokenKind → Bool} {t : Token} {consumed rest : List Token}
    (hp : p t.kind) (ht : t.kind.isContent) :
    Runs looks (.token p) ⟨consumed, t :: rest⟩ (.passed ⟨t :: consumed, rest⟩) := by
  have h : Outcome.ofToken p ⟨consumed, t :: rest⟩ = .passed ⟨t :: consumed, rest⟩ :=
    if_pos (by rw [hp, ht]; rfl)
  rw [← h]
  exact .token p _

theorem Runs.passed_token {p : TokenKind → Bool} (h : Runs looks (.token p) c (.passed c')) :
    ∃ t rest, c.rest = t :: rest ∧ p t.kind ∧ c' = ⟨t :: c.consumed, rest⟩ := by
  generalize ho : Outcome.passed c' = o at h
  cases h
  unfold Outcome.ofToken at ho
  split at ho
  · next t rest hrest =>
    split at ho
    · next ht =>
      cases ho
      exact ⟨t, rest, hrest, (Bool.and_eq_true_iff.mp ht).1, rfl⟩
    · cases ho
  · cases ho

/-- A token of which something is known from the gate before it. -/
theorem Runs.passed_any {p : TokenKind → Bool} (h : Runs looks .any c (.passed c'))
    (hgate : (Gate.next p).opens c = true) :
    ∃ t rest, c.rest = t :: rest ∧ p t.kind ∧ c' = ⟨t :: c.consumed, rest⟩ := by
  have hnext : c.nextIs p = true := hgate
  obtain ⟨t, rest, hrest, -, rfl⟩ := h.passed_token
  rw [Cursor.nextIs, hrest] at hnext
  exact ⟨t, rest, hrest, hnext, rfl⟩

/-- What holds before a loop and after each of its turns holds after the loop. -/
theorem Runs.loop_induction {motive : Cursor → Prop}
    (h : Runs looks (.loop gate f) c (.passed c')) (htakes : f.takes)
    (hstep : ∀ d d', gate.opens d → Runs looks f d (.passed d') → motive d → motive d')
    (hc : motive c) : motive c' := by
  obtain ⟨n, hn⟩ : ∃ n, c.rest.length = n := ⟨_, rfl⟩
  induction n using Nat.strongRecOn generalizing c with
  | ind n ih =>
    cases h with
    | loop h =>
      cases h with
      | no _ h =>
        cases h
        exact hc
      | yes hgate h =>
        cases h with
        | both hf hloop =>
          exact ih _ (hn ▸ hf.length_lt htakes) hloop (hstep _ _ hgate hf hc) rfl

/-! ### What comes later

What has been read is not to depend on tokens that were not.  The next token may be
looked at even so, and the gates say which kinds of it make a difference.
-/

/-- Whether a token of a kind does not open a gate, wherever it stands or where it is apart. -/
def Gate.shuts (apart : Bool) (kind : TokenKind) : Gate → Bool
  | next p => !p kind
  | onLine p => apart || !p kind
  | access => apart || !kind.startsAccess

/-- Whether a form that has passed does not go on with a token of a kind.  Of the rules only the
brackets that close groups are asked. -/
def Form.shuts (apart : Bool) (kind : TokenKind) : Form → Bool
  | nothing | reject | token _ | group | enclosed .. => true
  | both f g => g.shuts apart kind && (g.takes || f.shuts apart kind)
  | branch gate f g =>
    f.shuts apart kind && g.shuts apart kind && (g.takes || gate.shuts apart kind)
  | loop gate f => f.shuts apart kind && gate.shuts apart kind
  | cast => apart || !kind.startsPrimary
  | headed _ f => f.shuts apart kind
  | rule _ => kind == .parenClose || kind == .braceClose

theorem Rule.shuts_form {r : Rule} {apart : Bool} {kind : TokenKind}
    (h : (Form.rule r).shuts apart kind) : r.form.shuts apart kind := by
  rcases Bool.or_eq_true_iff.mp h with h | h <;> rw [beq_iff_eq.mp h] <;>
    cases r <;> cases apart <;> rfl

/-- A form that has passed does not go on at a cursor. -/
def Form.ShutAt (f : Form) (c : Cursor) : Prop := ∀ t ∈ c.rest.head?, f.shuts c.apart t.kind

theorem Form.shutAt_nil (f : Form) (consumed : List Token) : f.ShutAt ⟨consumed, []⟩ :=
  fun _ h => by cases h

theorem Form.ShutAt.imp (h : f.ShutAt c)
    (hfg : ∀ apart kind, f.shuts apart kind → g.shuts apart kind) : g.ShutAt c :=
  fun t ht => hfg _ _ (h t ht)

theorem Gate.opens_eq_false {gate : Gate} (h : ∀ t ∈ c.rest.head?, gate.shuts c.apart t.kind) :
    gate.opens c = false := by
  obtain ⟨consumed, rest⟩ := c
  cases rest with
  | nil => cases gate <;> simp [opens, Cursor.nextIs, Cursor.accessFollows]
  | cons t rest =>
    have hshuts := h t rfl
    cases gate with
    | next p => simpa [shuts, opens, Cursor.nextIs] using hshuts
    | onLine p =>
      rcases Bool.or_eq_true_iff.mp hshuts with hapart | hp
      · have honLine := (Bool.and_eq_true_iff.mp hapart).1
        simp only [Bool.not_eq_true'] at honLine
        rw [opens, honLine, Bool.false_and]
      · simp only [Bool.not_eq_true'] at hp
        have hnext : Cursor.nextIs ⟨consumed, t :: rest⟩ p = false := hp
        rw [opens, hnext, Bool.and_false]
    | access =>
      rcases Bool.or_eq_true_iff.mp hshuts with hapart | hp
      · have htouching := (Bool.and_eq_true_iff.mp hapart).2
        simp only [Bool.not_eq_true'] at htouching
        rw [opens, Cursor.accessFollows, htouching, Bool.false_and, Bool.false_and]
      · simp only [Bool.not_eq_true'] at hp
        have hstarts : Cursor.nextIs ⟨consumed, t :: rest⟩ TokenKind.startsAccess = false := hp
        rw [opens, Cursor.accessFollows, hstarts, Bool.and_false, Bool.false_and]

/-- What is asked before something depends on the next token alone. -/
theorem Gate.opens_congr (gate : Gate) {consumed rest rest' : List Token}
    (h : rest.head? = rest'.head?) : gate.opens ⟨consumed, rest⟩ = gate.opens ⟨consumed, rest'⟩ := by
  cases rest <;> cases rest' <;> cases h <;> cases gate <;> cases consumed <;> rfl

theorem castOpens_congr {consumed rest rest' : List Token} (h : rest.head? = rest'.head?) :
    Cursor.castOpens false ⟨consumed, rest⟩ = Cursor.castOpens false ⟨consumed, rest'⟩ := by
  cases rest <;> cases rest' <;> cases h <;> cases consumed <;> rfl

theorem castOpens_eq_false (h : Form.cast.ShutAt c) : c.castOpens false = false := by
  obtain ⟨consumed, rest⟩ := c
  have hshut : (Gate.onLine TokenKind.startsPrimary).opens ⟨consumed, rest⟩ = false :=
    Gate.opens_eq_false h
  rw [Gate.opens] at hshut
  simp only [Cursor.castOpens, Bool.false_eq_true, if_false, hshut, Bool.and_false]

theorem heads_congr {p : TokenKind → Bool} {consumed rest rest' : List Token} {t : Token}
    (h : rest.head? = rest'.head?) :
    Cursor.heads p ⟨consumed, t :: rest⟩ = Cursor.heads p ⟨consumed, t :: rest'⟩ := by
  cases rest <;> cases rest' <;> cases h <;> rfl

/-- What comes later is the same token as before, or one with which a form does not go on. -/
def Form.Leaves (f : Form) (c : Cursor) (rest : List Token) : Prop :=
  rest.head? = c.rest.head? ∨ f.ShutAt ⟨c.consumed, rest⟩

theorem Form.Leaves.imp {rest : List Token} (h : f.Leaves c rest)
    (hfg : ∀ apart kind, f.shuts apart kind → g.shuts apart kind) : g.Leaves c rest :=
  Or.imp_right (fun h => h.imp hfg) h

/-- If something more is read, the next token is the same. -/
theorem Form.Leaves.of_ne_nil {ts rest rest' : List Token} (hne : ts ≠ []) (hc : c.rest = ts ++ rest)
    (f : Form) : f.Leaves c (ts ++ rest') := by
  obtain ⟨t, ts, rfl⟩ := List.exists_cons_of_ne_nil hne
  refine .inl ?_
  rw [hc]
  rfl

theorem Outcome.ofToken_again {p : TokenKind → Bool} {ts rest : List Token}
    (h : ofToken p c = .passed c') (hrest : c.rest = ts ++ c'.rest) :
    ofToken p ⟨c.consumed, ts ++ rest⟩ = .passed ⟨c'.consumed, rest⟩ := by
  unfold ofToken at h
  split at h
  · next t more hmore =>
    split at h
    · next ht =>
      cases h
      obtain rfl : [t] = ts := List.append_cancel_right (hmore.symm.trans hrest)
      simp only [ofToken, List.singleton_append, if_pos ht]
    · cases h
  · cases h

theorem Outcome.ofGroups_again {closers : List TokenKind} {consumed ts rest : List Token}
    (h : ofGroups closers consumed (ts ++ c'.rest) = .passed c') :
    ofGroups closers consumed (ts ++ rest) = .passed ⟨c'.consumed, rest⟩ := by
  induction ts generalizing closers consumed with
  | nil =>
    cases closers with
    | nil =>
      rw [List.nil_append, ofGroups] at h ⊢
      rw [← congrArg Cursor.consumed (Outcome.passed.inj h)]
    | cons closer outer =>
      -- What is open has to be closed, so something would have been read.
      obtain ⟨ts, hts⟩ := reached_ofGroups (closer :: outer) ⟨consumed, c'.rest⟩
      simp only [List.nil_append] at h
      rw [h] at hts
      obtain rfl : ts = [] := List.append_left_eq_self.mp hts.1.rest.symm
      exact absurd (Option.some.inj (hts.2 [])) (List.cons_ne_nil _ _)
  | cons t ts ih =>
    cases closers with
    | nil =>
      rw [ofGroups] at h
      have hrest := congrArg (·.rest.length) (Outcome.passed.inj h)
      simp only [List.length_append, List.length_cons] at hrest
      omega
    | cons closer outer =>
      rw [List.cons_append, ofGroups] at h ⊢
      cases hpush : Nesting.push (closer :: outer) t.kind with
      | none => rw [hpush] at h; cases h
      | some stack =>
        rw [hpush] at h
        exact ih h

theorem Outcome.ofGroup_again {ts rest : List Token} (h : ofGroup c = .passed c')
    (hrest : c.rest = ts ++ c'.rest) (hne : ts ≠ []) :
    ofGroup ⟨c.consumed, ts ++ rest⟩ = .passed ⟨c'.consumed, rest⟩ := by
  obtain ⟨t, ts, rfl⟩ := List.exists_cons_of_ne_nil hne
  unfold ofGroup at h ⊢
  rw [hrest] at h
  simp only [List.cons_append] at h ⊢
  cases hcloser : t.kind.closer? with
  | none => rw [hcloser] at h; cases h
  | some closer =>
    rw [hcloser] at h
    exact ofGroups_again h

/-- **What passes passes again** before other tokens, if they start with the same one or with one
that it does not go on with. -/
theorem Runs.again {ts rest : List Token} (h : Runs false f c o) (hsound : f.sound)
    (ho : o = .passed c') (hrest : c.rest = ts ++ c'.rest) (hleaves : f.Leaves c' rest) :
    Runs false f ⟨c.consumed, ts ++ rest⟩ (.passed ⟨c'.consumed, rest⟩) := by
  induction h generalizing ts c' rest with
  | nothing c =>
    cases ho
    obtain rfl : ts = [] := List.append_left_eq_self.mp hrest.symm
    exact .nothing _
  | reject | both_failed | headed_missing | enclosed_missing | enclosed_failed => cases ho
  | token p c =>
    rw [← Outcome.ofToken_again ho hrest]
    exact .token p _
  | group c =>
    have hne : ts ≠ [] := by
      obtain ⟨us, hus, hne⟩ := Outcome.reached_ofGroup c
      rw [ho] at hus
      rw [List.append_cancel_right (hrest.symm.trans hus.1.rest)]
      exact hne c' ho
    rw [← Outcome.ofGroup_again ho hrest hne]
    exact .group _
  | @enclosed opener closer f c inner t rest' hc ht hcloser hf ih =>
    obtain ⟨us, hus⟩ := hf.steps
    unfold Outcome.closing at ho
    split at ho
    · next u more hmore =>
      split at ho
      · next hu =>
        cases ho
        obtain rfl : ts = t :: (us ++ [u]) := by
          refine List.append_cancel_right (hrest.symm.trans ?_)
          have hinner := hus.rest
          simp only [] at hinner
          rw [hc, hinner, hmore]
          simp
        have hagain := ih hsound rfl hus.rest (.inl (by rw [hmore]; rfl) : f.Leaves inner (u :: rest))
        have hclosing : Outcome.closing closer ⟨inner.consumed, u :: rest⟩ =
            .passed ⟨u :: inner.consumed, rest⟩ := if_pos hu
        rw [← hclosing]
        have hfirst : t :: (us ++ [u]) ++ rest = t :: (us ++ u :: rest) := by simp
        exact .enclosed hfirst ht hcloser hagain
      · cases ho
    · cases ho
  | @both f g c middle o hf hg ihf ihg =>
    obtain ⟨hsf, hsg⟩ := Bool.and_eq_true_iff.mp hsound
    obtain ⟨us, hus⟩ := hf.steps
    obtain ⟨vs, hvs, hne⟩ := hg.reached
    rw [ho] at hvs
    obtain rfl : ts = us ++ vs := by
      refine List.append_cancel_right (hrest.symm.trans ?_)
      rw [hus.rest, hvs.1.rest, List.append_assoc]
    have hg' := ihg hsg ho hvs.1.rest (hleaves.imp fun _ _ h => (Bool.and_eq_true_iff.mp h).1)
    rw [List.append_assoc]
    refine .both (ihf hsf rfl hus.rest ?_) hg'
    by_cases hnil : vs = []
    · subst hnil
      rw [← hvs.1.eq_of_nil]
      refine hleaves.imp fun _ _ h => ?_
      rcases Bool.or_eq_true_iff.mp (Bool.and_eq_true_iff.mp h).2 with htakes | hshuts
      · exact absurd rfl (hne htakes c' ho)
      · exact hshuts
    · exact .of_ne_nil hnil hvs.1.rest f
  | @yes gate f g c o hgate hf ih =>
    obtain ⟨htf, hsg⟩ := Bool.and_eq_true_iff.mp hsound
    obtain ⟨htakes, hsf⟩ := Bool.and_eq_true_iff.mp htf
    refine .yes ?_ (ih hsf ho hrest (hleaves.imp fun _ _ h =>
      (Bool.and_eq_true_iff.mp (Bool.and_eq_true_iff.mp h).1).1))
    obtain ⟨us, hus, hne⟩ := hf.reached
    rw [ho] at hus
    obtain ⟨t, more, hmore⟩ := List.exists_cons_of_ne_nil (hne htakes c' ho)
    rw [List.append_cancel_right (hrest.symm.trans hus.1.rest), hmore]
    rw [← hgate]
    obtain ⟨consumed, before⟩ := c
    refine gate.opens_congr ?_
    have hbefore := hus.1.rest
    simp only [] at hbefore
    rw [hbefore, hmore]
    rfl
  | @no gate f g c o hgate hg ih =>
    obtain ⟨-, hsg⟩ := Bool.and_eq_true_iff.mp hsound
    refine .no ?_ (ih hsg ho hrest (hleaves.imp fun _ _ h =>
      (Bool.and_eq_true_iff.mp (Bool.and_eq_true_iff.mp h).1).2))
    obtain ⟨us, hus, hne⟩ := hg.reached
    rw [ho] at hus
    obtain rfl : ts = us := List.append_cancel_right (hrest.symm.trans hus.1.rest)
    obtain ⟨consumed, before⟩ := c
    have hbefore : before = ts ++ c'.rest := hrest
    cases ts with
    | cons t more =>
      rw [← hgate, hbefore]
      exact gate.opens_congr rfl
    | nil =>
      have hconsumed : c'.consumed = consumed := hus.1.consumed
      rcases hleaves with hsame | hshut
      · rw [← hgate, hbefore]
        exact gate.opens_congr hsame
      · rw [hconsumed] at hshut
        refine Gate.opens_eq_false fun t ht => ?_
        rcases Bool.or_eq_true_iff.mp (Bool.and_eq_true_iff.mp (hshut t ht)).2 with htakes | hshuts
        · exact absurd rfl (hne htakes c' ho)
        · exact hshuts
  | @loop gate f c o _ ih =>
    obtain ⟨htf, hsf⟩ := Bool.and_eq_true_iff.mp hsound
    refine .loop (ih ?_ ho hrest (hleaves.imp fun _ _ h => ?_))
    · simp only [Form.sound, Form.takes, htf, hsf, Bool.true_or, Bool.and_self]
    · obtain ⟨hf, hg⟩ := Bool.and_eq_true_iff.mp h
      simp only [Form.shuts, Form.takes, hf, hg, Bool.or_true, Bool.and_self]
  | @cast c o hcast hf ih =>
    refine .cast ?_ (ih Form.sound_primary ho hrest (hleaves.imp fun _ _ _ => rfl))
    obtain ⟨us, hus, hne⟩ := hf.reached
    rw [ho] at hus
    obtain ⟨t, more, hmore⟩ := List.exists_cons_of_ne_nil (hne rfl c' ho)
    obtain ⟨consumed, before⟩ := c
    rw [List.append_cancel_right (hrest.symm.trans hus.1.rest), hmore, ← hcast]
    refine castOpens_congr ?_
    have hbefore : before = us ++ c'.rest := hus.1.rest
    rw [hbefore, hmore]
    rfl
  | @cast_missing c hcast =>
    cases ho
    obtain rfl : ts = [] := List.append_left_eq_self.mp hrest.symm
    refine .cast_missing ?_
    rcases hleaves with hsame | hshut
    · exact (castOpens_congr hsame).trans hcast
    · exact castOpens_eq_false hshut
  | @headed p f c o t more hheads hc hf ih =>
    obtain ⟨htf, hsf⟩ := Bool.and_eq_true_iff.mp hsound
    obtain ⟨us, hus, hne⟩ := hf.reached
    rw [ho] at hus
    obtain ⟨u, vs, rfl⟩ := List.exists_cons_of_ne_nil (hne htf c' ho)
    have hmore : more = u :: vs ++ c'.rest := hus.1.rest
    obtain rfl : ts = t :: u :: vs := by
      refine List.append_cancel_right (hrest.symm.trans ?_)
      rw [hc, hmore]
      rfl
    refine .headed ?_ rfl (ih hsf ho hus.1.rest hleaves)
    obtain ⟨consumed, before⟩ := c
    have hbefore : before = t :: more := hc
    rw [← hheads, hbefore, hmore]
    exact heads_congr rfl
  | @rule r c o _ ih =>
    exact .rule (ih r.sound_form ho hrest (hleaves.imp fun _ _ => Rule.shuts_form))

/-! ### Failing again

A failure is found at a token, and what comes behind this token has not been looked at.
Keywords are left out, for which the token behind them is looked at too.
-/

theorem head?_append_cons (ts : List Token) (t : Token) (rest rest' : List Token) :
    (ts ++ t :: rest).head? = (ts ++ t :: rest').head? := by
  cases ts <;> rfl

theorem Gate.opens_again (gate : Gate) {ts rest : List Token} {t : Token}
    (hc : c.rest = ts ++ t :: rest) (rest' : List Token) :
    gate.opens ⟨c.consumed, ts ++ t :: rest'⟩ = gate.opens c := by
  rw [← gate.opens_congr (head?_append_cons ts t rest rest'), ← hc]

theorem Outcome.ofGroups_fails_again {closers : List TokenKind} {consumed ts rest : List Token}
    {t : Token} (h : ofGroups closers consumed (ts ++ t :: rest) = .failed (t :: rest))
    (rest' : List Token) :
    ofGroups closers consumed (ts ++ t :: rest') = .failed (t :: rest') := by
  induction ts generalizing closers consumed with
  | nil =>
    cases closers with
    | nil => cases h
    | cons closer outer =>
      rw [List.nil_append, ofGroups] at h ⊢
      cases hpush : Nesting.push (closer :: outer) t.kind with
      | none => rfl
      | some stack =>
        -- A failure later on would leave less.
        rw [hpush] at h
        obtain ⟨ts, hts⟩ := reached_ofGroups stack ⟨t :: consumed, rest⟩
        simp only [] at h hts
        rw [h] at hts
        have hlength := congrArg List.length hts.1
        simp only [List.length_append, List.length_cons] at hlength
        omega
  | cons u ts ih =>
    cases closers with
    | nil => cases h
    | cons closer outer =>
      rw [List.cons_append, ofGroups] at h ⊢
      cases hpush : Nesting.push (closer :: outer) u.kind with
      | none =>
        rw [hpush] at h
        have hlength := congrArg List.length (Outcome.failed.inj h)
        simp only [List.length_append, List.length_cons] at hlength
        omega
      | some stack =>
        rw [hpush] at h
        exact ih h

theorem Outcome.ofGroup_fails_again {ts rest : List Token} {t : Token}
    (h : ofGroup c = .failed (t :: rest)) (hrest : c.rest = ts ++ t :: rest) (rest' : List Token) :
    ofGroup ⟨c.consumed, ts ++ t :: rest'⟩ = .failed (t :: rest') := by
  unfold ofGroup at h ⊢
  rw [hrest] at h
  cases ts with
  | nil =>
    rw [List.nil_append] at h ⊢
    cases hcloser : t.kind.closer? with
    | none => simp only [hcloser]
    | some closer =>
      simp only [hcloser] at h
      obtain ⟨ts, hts⟩ := reached_ofGroups [closer] ⟨t :: c.consumed, rest⟩
      simp only [] at hts
      rw [h] at hts
      have hlength := congrArg List.length hts.1
      simp only [List.length_append, List.length_cons] at hlength
      omega
  | cons u ts =>
    rw [List.cons_append] at h ⊢
    cases hcloser : u.kind.closer? with
    | none =>
      simp only [hcloser] at h
      have hlength := congrArg List.length (Outcome.failed.inj h)
      simp only [List.length_append, List.length_cons] at hlength
      omega
    | some closer =>
      simp only [hcloser] at h ⊢
      exact ofGroups_fails_again h rest'

/-- **What fails at a token fails at it again**, whatever comes behind it, unless it is a keyword. -/
theorem Runs.fails_again {ts rest : List Token} {t : Token} (h : Runs false f c o)
    (hsound : f.sound) (ho : o = .failed (t :: rest)) (hrest : c.rest = ts ++ t :: rest)
    (hkeyword : t.kind.isKeyword = false) (rest' : List Token) :
    Runs false f ⟨c.consumed, ts ++ t :: rest'⟩ (.failed (t :: rest')) := by
  induction h generalizing ts with
  | nothing | cast_missing => cases ho
  | reject c =>
    obtain rfl : ts = [] := List.append_left_eq_self.mp (hrest.symm.trans (Outcome.failed.inj ho))
    exact .reject _
  | token p c =>
    unfold Outcome.ofToken at ho
    rw [hrest] at ho
    cases ts with
    | nil =>
      rw [List.nil_append] at ho ⊢
      simp only [] at ho
      split at ho
      · cases ho
      · next ht =>
        have hfails : Outcome.ofToken p ⟨c.consumed, t :: rest'⟩ = .failed (t :: rest') := if_neg ht
        rw [← hfails]
        exact .token p _
    | cons u ts =>
      simp only [List.cons_append] at ho
      split at ho
      · cases ho
      · have hlength := congrArg List.length (Outcome.failed.inj ho)
        simp only [List.length_append, List.length_cons] at hlength
        omega
  | group c =>
    rw [← Outcome.ofGroup_fails_again ho hrest rest']
    exact .group _
  | @enclosed opener closer f c inner u more hc hu hcloser hf ih =>
    obtain ⟨us, hus⟩ := hf.steps
    have hclosing : inner.rest = t :: rest ∧
        Outcome.closing closer ⟨inner.consumed, t :: rest'⟩ = .failed (t :: rest') := by
      unfold Outcome.closing at ho
      split at ho
      · next v more' hmore =>
        split at ho
        · cases ho
        · next hv =>
          cases ho
          exact ⟨hmore, if_neg hv⟩
      · cases ho
    have hts : ts = u :: us := by
      refine List.append_cancel_right (hrest.symm.trans ?_)
      rw [hc, List.cons_append, ← hclosing.1]
      exact congrArg _ hus.rest
    have hagain := hf.again hsound rfl hus.rest (.inl (by rw [hclosing.1]; rfl) :
      f.Leaves inner (t :: rest'))
    rw [← hclosing.2, hts]
    exact .enclosed rfl hu hcloser hagain
  | @enclosed_failed opener closer f c u more rest'' hc hu hcloser hf ih =>
    cases ho
    obtain ⟨us, hus, -⟩ := hf.reached
    have hts : ts = u :: us := by
      refine List.append_cancel_right (hrest.symm.trans ?_)
      rw [hc, List.cons_append]
      exact congrArg _ hus.1
    rw [hts]
    exact .enclosed_failed rfl hu hcloser (ih hsound rfl hus.1)
  | @enclosed_missing opener f c hmissing =>
    obtain rfl : ts = [] := List.append_left_eq_self.mp (hrest.symm.trans (Outcome.failed.inj ho))
    exact .enclosed_missing ((Gate.opens_again (.next (· == opener)) hrest rest').trans hmissing)
  | @both f g c middle o hf hg _ ihg =>
    obtain ⟨hsf, hsg⟩ := Bool.and_eq_true_iff.mp hsound
    obtain ⟨us, hus⟩ := hf.steps
    obtain ⟨vs, hvs, -⟩ := hg.reached
    rw [ho] at hvs
    have hts : ts = us ++ vs := by
      refine List.append_cancel_right (hrest.symm.trans ?_)
      rw [hus.rest, hvs.1, List.append_assoc]
    rw [hts, List.append_assoc]
    refine .both (hf.again hsf rfl hus.rest (.inl ?_)) (ihg hsg ho hvs.1)
    rw [hvs.1]
    exact head?_append_cons ..
  | both_failed _ ih =>
    exact .both_failed (ih (Bool.and_eq_true_iff.mp hsound).1 ho hrest)
  | @yes gate _ _ _ _ hopens _ ih =>
    obtain ⟨htf, -⟩ := Bool.and_eq_true_iff.mp hsound
    exact .yes ((gate.opens_again hrest rest').trans hopens)
      (ih (Bool.and_eq_true_iff.mp htf).2 ho hrest)
  | @no gate _ _ _ _ hopens _ ih =>
    exact .no ((gate.opens_again hrest rest').trans hopens)
      (ih (Bool.and_eq_true_iff.mp hsound).2 ho hrest)
  | loop _ ih =>
    obtain ⟨htf, hsf⟩ := Bool.and_eq_true_iff.mp hsound
    refine .loop (ih ?_ ho hrest)
    simp only [Form.sound, Form.takes, htf, hsf, Bool.true_or, Bool.and_self]
  | @cast c o hcast _ ih =>
    refine .cast ?_ (ih Form.sound_primary ho hrest)
    rw [← hcast, ← castOpens_congr (head?_append_cons ts t rest rest'), ← hrest]
  | @headed p f c o u more hheads hc hf ih =>
    obtain ⟨us, hus, -⟩ := hf.reached
    rw [ho] at hus
    have hmore : more = us ++ t :: rest := hus.1
    have hts : ts = u :: us := by
      refine List.append_cancel_right (hrest.symm.trans ?_)
      rw [hc, hmore, List.cons_append]
    rw [hts]
    refine .headed ?_ rfl (ih (Bool.and_eq_true_iff.mp hsound).2 ho hus.1)
    obtain ⟨consumed, before⟩ := c
    have hbefore : before = u :: more := hc
    rw [← hheads, hbefore, hmore]
    exact heads_congr (head?_append_cons ..)
  | @headed_missing p f c hmissing =>
    obtain rfl : ts = [] := List.append_left_eq_self.mp (hrest.symm.trans (Outcome.failed.inj ho))
    refine .headed_missing ?_
    change (t.kind.isKeyword && _) = false
    rw [hkeyword, Bool.false_and]
  | @rule r _ _ _ ih => exact .rule (ih r.sound_form ho hrest)

end Grammar

end DesiredState

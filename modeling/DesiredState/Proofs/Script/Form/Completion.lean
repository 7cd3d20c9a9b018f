/-
What has been read can be completed.

Wherever reading stands, a few tokens more bring it to its end: the brackets that are open,
an operand behind an operator, a name behind a point, a body behind the target of a node.
Which these are is found form by form.  `fill` gives tokens with which a form passes, for
those that come after another one, and it always takes the alternative that asks for
nothing.  The tokens are put on lines of their own, so that no line is gone on with and no
operand is accessed; then it is enough that what has been read does not go on with the kind
of the first of them.

Brackets behind casts are not looked into here.  What is completed is therefore accepted
also where they are.
-/
import DesiredState.Proofs.Script.Form.Reading

namespace DesiredState

namespace Grammar

variable {f g : Form} {c c' : Cursor} {o : Outcome} {consumed ts rest more : List Token}
  {kinds : List TokenKind}

/-! ### Tokens on lines of their own

A token that is apart from the one before it neither goes on with an operand nor with an
argument.  This closes what could go on otherwise, so that what is added is read as it
is meant.
-/

/-- Tokens of which each is apart from the one before it. -/
def AreApart : (consumed : List Token) → List Token → Prop
  | _, [] => True
  | consumed, t :: rest => Cursor.apart ⟨consumed, t :: rest⟩ ∧ AreApart (t :: consumed) rest

theorem apart_congr (consumed rest rest' : List Token) (t : Token) :
    Cursor.apart ⟨consumed, t :: rest⟩ = Cursor.apart ⟨consumed, t :: rest'⟩ := by
  cases consumed <;> rfl

theorem areApart_append {first second : List Token} :
    AreApart consumed (first ++ second) ↔
      AreApart consumed first ∧ AreApart (first.reverse ++ consumed) second := by
  induction first generalizing consumed with
  | nil => simp [AreApart]
  | cons t first ih =>
    rw [List.cons_append, AreApart, AreApart, ih, apart_congr _ (first ++ second) first, and_assoc,
      List.reverse_cons, List.append_assoc, List.singleton_append]

/-- What does not go on with a kind where it is apart does not go on at tokens that are. -/
theorem shuts_of_areApart {p : Bool → TokenKind → Bool}
    (h : (more.map (·.kind)).head?.all (p true)) (hmore : AreApart consumed more) :
    ∀ t ∈ more.head?, p (Cursor.apart ⟨consumed, more⟩) t.kind := by
  intro t ht
  cases more with
  | nil => cases ht
  | cons u more =>
    cases ht
    rw [hmore.1]
    exact h

/-- The character of which a token of a kind may consist, for the kinds that are used. -/
def sample? : TokenKind → Option Char
  | .parenOpen => some '('
  | .parenClose => some ')'
  | .braceOpen => some '\x7b'
  | .braceClose => some '\x7d'
  | .bracketClose => some ']'
  | .equals => some '='
  | .bareword => some 'x'
  | _ => none

/-- A form passes over tokens of these kinds behind others, and nothing is left. -/
structure Form.Completes (f : Form) (consumed ts : List Token) (kinds : List TokenKind) : Prop where
  samples : ∀ kind ∈ kinds, (sample? kind).isSome
  runs : ∀ more : List Token, more.map (·.kind) = kinds → AreApart (ts.reverse ++ consumed) more →
    Runs false f ⟨consumed, ts ++ more⟩ (.passed ⟨more.reverse ++ (ts.reverse ++ consumed), []⟩)

/-- Nothing is needed. -/
theorem Form.Completes.nil (h : Runs false f ⟨consumed, ts⟩ (.passed ⟨ts.reverse ++ consumed, []⟩)) :
    f.Completes consumed ts [] where
  samples := fun _ h => by cases h
  runs more hmore _ := by
    obtain rfl := List.map_eq_nil_iff.mp hmore
    rwa [List.append_nil]

/-- What is read in another way is completed by the same tokens. -/
theorem Form.Completes.imp {consumed' ts' : List Token} (h : f.Completes consumed ts kinds)
    (hreverse : ts'.reverse ++ consumed' = ts.reverse ++ consumed)
    (hfg : ∀ more o, more.map (·.kind) = kinds → AreApart (ts.reverse ++ consumed) more →
      Runs false f ⟨consumed, ts ++ more⟩ o → Runs false g ⟨consumed', ts' ++ more⟩ o) :
    g.Completes consumed' ts' kinds where
  samples := h.samples
  runs more hmore hapart := by
    rw [hreverse] at hapart ⊢
    exact hfg more _ hmore hapart (h.runs more hmore hapart)

/-- What is completed passes again before tokens with which it does not go on. -/
theorem Form.Completes.before (h : f.Completes consumed ts kinds) (hsound : f.sound)
    {first second : List Token} (hfirst : first.map (·.kind) = kinds)
    (hshuts : (second.map (·.kind)).head?.all (f.shuts true))
    (hmore : AreApart (ts.reverse ++ consumed) (first ++ second)) :
    Runs false f ⟨consumed, ts ++ (first ++ second)⟩
      (.passed ⟨first.reverse ++ (ts.reverse ++ consumed), second⟩) := by
  obtain ⟨hapart, hapart'⟩ := areApart_append.mp hmore
  rw [← List.append_assoc]
  exact (h.runs first hfirst hapart).again hsound rfl (List.append_nil _).symm
    (.inr (shuts_of_areApart (p := f.shuts) hshuts hapart'))

/-! ### Tokens for a form -/

/-- A kind for a token of some sort. -/
def standIn (p : TokenKind → Bool) : Option TokenKind :=
  [TokenKind.equals, .bareword, .bracketClose].find? p

/-- Kinds of tokens with which a form passes, if those for a value are given. -/
def Form.fill (ofValue : Option (List TokenKind)) : Form → Option (List TokenKind)
  | nothing | loop .. | cast => some []
  | reject | headed .. | rule .statement => none
  | token p => (standIn p).map ([·])
  | group => some [.parenOpen, .parenClose]
  | enclosed opener f =>
    opener.closer?.bind fun closer =>
      if f.fill ofValue = some [] ∧ f.shuts true closer ∧ (sample? opener).isSome then
        some [opener, closer]
      else none
  | both f g =>
    (f.fill ofValue).bind fun first =>
      ((g.fill ofValue).filter fun second => second.head?.all (f.shuts true)).map (first ++ ·)
  | branch gate _ g => (g.fill ofValue).filter fun kinds => kinds.head?.all (gate.shuts true)
  | rule .value => ofValue

theorem isContent_of_standIn {p : TokenKind → Bool} {kind : TokenKind} (h : standIn p = some kind) :
    p kind ∧ kind.isContent ∧ (sample? kind).isSome := by
  refine ⟨List.find?_some h, ?_⟩
  have hmem := List.mem_of_find?_eq_some h
  simp only [List.mem_cons, List.not_mem_nil, or_false] at hmem
  rcases hmem with rfl | rfl | rfl <;> exact ⟨rfl, rfl⟩

/-- What stands in brackets is completed by what completes it and the closing bracket. -/
theorem Form.Completes.enclosed {opener closer : TokenKind} {t : Token}
    (h : f.Completes (t :: consumed) ts kinds) (hsound : f.sound) (ht : t.kind = opener)
    (hcloser : opener.closer? = some closer) (hshuts : f.shuts true closer) :
    (Form.enclosed opener f).Completes consumed (t :: ts) (kinds ++ [closer]) where
  samples kind hkind := by
    rcases List.mem_append.mp hkind with hkind | hkind
    · exact h.samples kind hkind
    · rw [List.mem_singleton.mp hkind]
      rcases isCloser_of_closer? hcloser with rfl | rfl <;> rfl
  runs more hmore hapart := by
    obtain ⟨first, last, rfl, hfirst, hlast⟩ := List.map_eq_append_iff.mp hmore
    obtain ⟨u, rfl, rfl⟩ := List.map_eq_singleton_iff.mp hlast
    have hreverse : ∀ k : List Token, (t :: ts).reverse ++ k = ts.reverse ++ t :: k := by simp
    rw [hreverse] at hapart ⊢
    have hlast : ([u].map (·.kind)).head?.all (f.shuts true) := by simpa using hshuts
    have hf := h.before hsound hfirst hlast hapart
    have hclosing : Outcome.closing u.kind ⟨first.reverse ++ (ts.reverse ++ t :: consumed), [u]⟩ =
        .passed ⟨(first ++ [u]).reverse ++ (ts.reverse ++ t :: consumed), []⟩ := by
      simp [Outcome.closing]
    rw [← hclosing]
    exact .enclosed rfl ht hcloser hf

/-- **A form passes over the tokens that are found for it.** -/
theorem Form.completes_fill {ofValue : Option (List TokenKind)}
    (hvalue : ∀ kinds, ofValue = some kinds → ∀ consumed, (rule .value).Completes consumed [] kinds)
    (hsound : f.sound) (hfill : f.fill ofValue = some kinds) (consumed : List Token) :
    f.Completes consumed [] kinds := by
  induction f generalizing kinds consumed with
  | nothing => cases hfill; exact .nil (.nothing _)
  | reject | headed => cases hfill
  | token p =>
    obtain ⟨kind, hkind, rfl⟩ := Option.map_eq_some_iff.mp hfill
    obtain ⟨hp, hcontent, hsample⟩ := isContent_of_standIn hkind
    refine ⟨fun _ h => List.mem_singleton.mp h ▸ hsample, fun more hmore _ => ?_⟩
    obtain ⟨t, rfl, rfl⟩ := List.map_eq_singleton_iff.mp hmore
    exact runs_ofToken hp hcontent
  | group =>
    cases hfill
    refine ⟨by decide, fun more hmore _ => ?_⟩
    obtain ⟨t, more, rfl, ht, hmore⟩ := List.map_eq_cons_iff.mp hmore
    obtain ⟨u, rfl, hu⟩ := List.map_eq_singleton_iff.mp hmore
    have h : Outcome.ofGroup ⟨consumed, [] ++ [t, u]⟩ =
        .passed ⟨[t, u].reverse ++ ([].reverse ++ consumed), []⟩ := by
      simp [Outcome.ofGroup, Outcome.ofGroups, ht, hu, TokenKind.closer?, Nesting.push,
        TokenKind.isContent]
    rw [← h]
    exact .group _
  | enclosed opener f ih =>
    obtain ⟨closer, hcloser, hif⟩ := Option.bind_eq_some_iff.mp hfill
    obtain ⟨⟨hinner, hshuts, hsample⟩, hkinds⟩ := Option.ite_none_right_eq_some.mp hif
    cases hkinds
    refine ⟨fun kind hkind => ?_, fun more hmore hapart => ?_⟩
    · rcases List.mem_cons.mp hkind with rfl | hkind
      · exact hsample
      · rw [List.mem_singleton.mp hkind]
        rcases isCloser_of_closer? hcloser with rfl | rfl <;> rfl
    · obtain ⟨t, more, rfl, ht, hmore⟩ := List.map_eq_cons_iff.mp hmore
      have hf := (ih hsound hinner (t :: consumed)).enclosed hsound ht hcloser hshuts
      simpa using hf.runs more hmore hapart.2
  | both f g ihf ihg =>
    obtain ⟨hsf, hsg⟩ := Bool.and_eq_true_iff.mp hsound
    obtain ⟨first, hfirst, hmap⟩ := Option.bind_eq_some_iff.mp hfill
    obtain ⟨second, hfilter, rfl⟩ := Option.map_eq_some_iff.mp hmap
    obtain ⟨hsecond, hshuts⟩ := Option.filter_eq_some_iff.mp hfilter
    refine ⟨fun kind hkind => ?_, fun more hmore hapart => ?_⟩
    · rcases List.mem_append.mp hkind with hkind | hkind
      · exact (ihf hsf hfirst consumed).samples kind hkind
      · exact (ihg hsg hsecond consumed).samples kind hkind
    · obtain ⟨firsts, seconds, rfl, hfirsts, hseconds⟩ := List.map_eq_append_iff.mp hmore
      have hf := (ihf hsf hfirst consumed).before hsf hfirsts (by rw [hseconds]; exact hshuts) hapart
      have hg := (ihg hsg hsecond (firsts.reverse ++ ([].reverse ++ consumed))).runs seconds hseconds
        (areApart_append.mp hapart).2
      exact .both hf (by simpa using hg)
  | branch gate f g _ ih =>
    obtain ⟨hg, hshuts⟩ := Option.filter_eq_some_iff.mp hfill
    obtain ⟨-, hsg⟩ := Bool.and_eq_true_iff.mp hsound
    refine (ih hsg hg consumed).imp rfl fun more o hmore hapart hrun => .no ?_ hrun
    have hclosed : gate.opens ⟨consumed, more⟩ = false := Gate.opens_eq_false
      (shuts_of_areApart (p := (Gate.shuts · · gate)) (by rw [hmore]; exact hshuts) hapart)
    exact hclosed
  | loop gate f _ =>
    cases hfill
    exact .nil (.loop (.no (Gate.opens_eq_false fun t ht => by cases ht) (.nothing _)))
  | cast =>
    cases hfill
    exact .nil (.cast_missing (castOpens_eq_false (Form.shutAt_nil _ _)))
  | rule r =>
    cases r with
    | statement => cases hfill
    | value => exact hvalue kinds hfill consumed

/-- Kinds of tokens for a value: an empty group. -/
def valueKinds : List TokenKind := [.parenOpen, .parenClose]

/-- Kinds of tokens with which a form passes. -/
abbrev Form.kinds? (f : Form) : Option (List TokenKind) := f.fill (some valueKinds)

theorem completes_kinds? (hsound : f.sound) (h : f.kinds? = some kinds) (consumed : List Token) :
    f.Completes consumed [] kinds := by
  refine Form.completes_fill (fun kinds hkinds consumed => ?_) hsound h consumed
  cases hkinds
  have hnone : ∀ kinds, (none : Option (List TokenKind)) = some kinds →
      ∀ consumed, (Form.rule .value).Completes consumed [] kinds := fun _ h => by cases h
  have hvalue : Form.value.Completes consumed [] valueKinds :=
    Form.completes_fill hnone rfl (by decide) consumed
  exact hvalue.imp rfl fun _ _ _ _ => .rule (r := .value)

/-! ### Completing what has been read

The induction is on how the reading went.  At the place where it stops one part has been
begun, which is completed, and the parts behind it are filled in.
-/

/-- Whether tokens are found for whatever comes after something, and this does not go on with the
first of them. -/
def Form.completes : Form → Bool
  | nothing | reject | token _ | group | cast | rule _ => true
  | enclosed opener f =>
    f.completes && f.kinds? = some [] && opener.closer?.all (f.shuts true)
  | both f g =>
    f.completes && g.completes && g.kinds?.any fun kinds => kinds.head?.all (f.shuts true)
  | branch _ f g => f.completes && g.completes
  | loop _ f => f.completes
  | headed p f => f.completes && f.kinds?.any fun kinds => kinds.head?.any p

theorem Rule.completes_form (r : Rule) : r.form.completes = true := by
  cases r <;> decide

theorem Form.completes_primary : Form.primary.completes = true := by decide

theorem Form.completes_script : Form.script.completes = true := by decide

theorem not_suffix_of_lt {first second : List Token} (h : second.length < first.length) :
    ¬ first <:+ second := fun hsuffix => absurd hsuffix.length_le (by omega)

/-- What is left of a text cannot hold the text itself. -/
theorem not_append_suffix (hne : ts ≠ []) : ¬ ts ++ rest <:+ rest := by
  refine not_suffix_of_lt ?_
  have := List.length_pos_iff.mpr hne
  rw [List.length_append]
  omega

/-- The brackets of open groups close them. -/
theorem ofGroups_brackets {closers : List TokenKind}
    (h : ∀ kind ∈ closers, kind = .parenClose ∨ kind = .braceClose)
    (hmore : more.map (·.kind) = closers) :
    Outcome.ofGroups closers consumed more = .passed ⟨more.reverse ++ consumed, []⟩ := by
  induction more generalizing closers consumed with
  | nil =>
    subst hmore
    rfl
  | cons t more ih =>
    subst hmore
    have hpush : Nesting.push (t.kind :: more.map (·.kind)) t.kind = some (more.map (·.kind)) := by
      rcases h t.kind List.mem_cons_self with hk | hk <;>
        simp [Nesting.push, hk, TokenKind.closer?, TokenKind.isContent]
    rw [List.map_cons, Outcome.ofGroups, hpush]
    simp only []
    rw [ih (fun kind hkind => h kind (List.mem_cons_of_mem _ hkind)) rfl, List.reverse_cons,
      List.append_assoc]
    rfl

theorem isCloser_of_push {closers stack : List TokenKind} {kind : TokenKind}
    (h : ∀ kind ∈ closers, kind = .parenClose ∨ kind = .braceClose)
    (hpush : Nesting.push closers kind = some stack) :
    ∀ kind ∈ stack, kind = .parenClose ∨ kind = .braceClose := by
  rcases Nesting.push_cases hpush with ⟨closer, hcloser, rfl⟩ | ⟨-, -, rfl⟩ | ⟨-, -, rfl⟩
  · intro other hother
    rcases List.mem_cons.mp hother with rfl | hother
    · exact isCloser_of_closer? hcloser
    · exact h other hother
  · exact h
  · exact fun other hother => h other (List.mem_cons_of_mem _ hother)

/-- Groups are completed by the brackets that are still to come. -/
theorem ofGroups_completes {closers : List TokenKind}
    (h : ∀ kind ∈ closers, kind = .parenClose ∨ kind = .braceClose)
    (hle : (Outcome.ofGroups closers consumed (ts ++ rest)).rest <:+ rest) :
    ∃ kinds, (∀ kind ∈ kinds, kind = .parenClose ∨ kind = .braceClose) ∧
      ∀ more : List Token, more.map (·.kind) = kinds →
        Outcome.ofGroups closers consumed (ts ++ more) =
          .passed ⟨more.reverse ++ (ts.reverse ++ consumed), []⟩ := by
  induction ts generalizing closers consumed with
  | nil => exact ⟨closers, h, fun more hmore => ofGroups_brackets h hmore⟩
  | cons t ts ih =>
    cases closers with
    | nil => exact absurd hle (not_append_suffix (List.cons_ne_nil t ts))
    | cons closer outer =>
      simp only [List.cons_append, Outcome.ofGroups] at hle ⊢
      cases hpush : Nesting.push (closer :: outer) t.kind with
      | none =>
        rw [hpush] at hle
        exact absurd hle (not_append_suffix (List.cons_ne_nil t ts))
      | some stack =>
        rw [hpush] at hle
        obtain ⟨kinds, hclosers, hkinds⟩ := ih (isCloser_of_push h hpush) hle
        refine ⟨kinds, hclosers, fun more hmore => ?_⟩
        simp only [hkinds more hmore, List.reverse_cons, List.append_assoc, List.singleton_append]

/-- Nothing more is needed behind what has passed. -/
theorem Runs.completes_nil (h : Runs false f c (.passed c')) (hsound : f.sound)
    (hrest : c.rest = ts ++ c'.rest) : f.Completes c.consumed ts [] := by
  obtain ⟨us, hus⟩ := h.steps
  obtain rfl : ts = us := List.append_cancel_right (hrest.symm.trans hus.rest)
  have hagain := h.again hsound rfl hrest (.inr (f.shutAt_nil _))
  rw [hus.consumed, List.append_nil] at hagain
  exact .nil hagain

/-- What comes after something is found for it. -/
theorem exists_both (h : f.Completes consumed ts kinds) (hsf : f.sound) (hsg : g.sound)
    (hfill : g.kinds?.any fun kinds => kinds.head?.all (f.shuts true)) :
    ∃ kinds, (Form.both f g).Completes consumed ts kinds := by
  obtain ⟨more, hmore, hshuts⟩ := (Option.any_eq_true _ _).mp hfill
  refine ⟨kinds ++ more, fun kind hkind => ?_, fun tokens htokens hapart => ?_⟩
  · rcases List.mem_append.mp hkind with hkind | hkind
    · exact h.samples kind hkind
    · exact (completes_kinds? hsg hmore consumed).samples kind hkind
  · obtain ⟨first, second, rfl, hfirst, hsecond⟩ := List.map_eq_append_iff.mp htokens
    have hf := h.before hsf hfirst (by rw [hsecond]; exact hshuts) hapart
    have hg := (completes_kinds? hsg hmore (first.reverse ++ (ts.reverse ++ consumed))).runs
      second hsecond (areApart_append.mp hapart).2
    exact .both hf (by simpa using hg)

theorem Gate.opens_ahead (gate : Gate) (hrest : c.rest = ts ++ rest) (hne : ts ≠ [])
    (more : List Token) : gate.opens ⟨c.consumed, ts ++ more⟩ = gate.opens c := by
  obtain ⟨t, ts, rfl⟩ := List.exists_cons_of_ne_nil hne
  obtain ⟨consumed, before⟩ := c
  obtain rfl : before = t :: ts ++ rest := hrest
  exact gate.opens_congr rfl

/-- What stands in brackets has been read up to a place in it, or up to its end: then it is
completed by what completes the inner part and the closing bracket. -/
theorem exists_enclosed {opener closer : TokenKind} {t : Token} {o : Outcome}
    (hsound : f.sound) (hf : (Form.enclosed opener f).completes) (ht : t.kind = opener)
    (hcloser : opener.closer? = some closer) (hle : o.rest <:+ rest)
    (ih : ts ≠ [] → o.rest <:+ rest → ∃ kinds, f.Completes (t :: consumed) ts kinds) :
    ∃ kinds, (Form.enclosed opener f).Completes consumed (t :: ts) kinds := by
  obtain ⟨hfi, hshuts⟩ := Bool.and_eq_true_iff.mp hf
  obtain ⟨-, hfill⟩ := Bool.and_eq_true_iff.mp hfi
  rw [hcloser] at hshuts
  by_cases hts : ts = []
  · subst hts
    exact ⟨_, (completes_kinds? hsound (of_decide_eq_true hfill) _).enclosed hsound ht hcloser
      hshuts⟩
  · obtain ⟨kinds, hkinds⟩ := ih hts hle
    exact ⟨_, hkinds.enclosed hsound ht hcloser hshuts⟩

/-- **What has been read can be completed**, up to any place before the end of the reading. -/
theorem Runs.exists_completes (h : Runs false f c o) (hsound : f.sound) (hf : f.completes)
    (hrest : c.rest = ts ++ rest) (hne : ts ≠ []) (hle : o.rest <:+ rest) :
    ∃ kinds, f.Completes c.consumed ts kinds := by
  induction h generalizing ts rest with
  | nothing | cast_missing | reject | headed_missing | enclosed_missing =>
    refine absurd (hrest ▸ ?_ : ts ++ rest <:+ rest) (not_append_suffix hne)
    exact hle
  | token p c =>
    have hpassed : ∃ t, c.rest = t :: rest ∧ ts = [t] ∧
        Outcome.ofToken p c = .passed ⟨t :: c.consumed, rest⟩ := by
      obtain ⟨t, ts, rfl⟩ := List.exists_cons_of_ne_nil hne
      unfold Outcome.ofToken at hle ⊢
      rw [hrest] at hle ⊢
      simp only [List.cons_append] at hle ⊢
      split at hle
      · next ht =>
        obtain rfl : ts = [] := by
          by_contra hts
          exact not_append_suffix hts hle
        exact ⟨t, rfl, rfl, if_pos ht⟩
      · exact absurd hle (not_append_suffix (List.cons_ne_nil t ts))
    obtain ⟨t, ht, rfl, hpassed⟩ := hpassed
    exact ⟨[], (hpassed ▸ Runs.token p c).completes_nil hsound ht⟩
  | group c =>
    obtain ⟨t, ts, rfl⟩ := List.exists_cons_of_ne_nil hne
    unfold Outcome.ofGroup at hle
    rw [hrest] at hle
    simp only [List.cons_append] at hle
    cases hcloser : t.kind.closer? with
    | none =>
      rw [hcloser] at hle
      exact absurd hle (not_append_suffix (List.cons_ne_nil t ts))
    | some closer =>
      rw [hcloser] at hle
      obtain ⟨kinds, hclosers, hkinds⟩ := ofGroups_completes (fun kind hkind => by
        rw [List.mem_singleton.mp hkind]
        exact isCloser_of_closer? hcloser) hle
      refine ⟨kinds, fun kind hkind => ?_, fun more hmore _ => ?_⟩
      · rcases hclosers kind hkind with rfl | rfl <;> rfl
      · have hpassed : Outcome.ofGroup ⟨c.consumed, t :: ts ++ more⟩ =
            .passed ⟨more.reverse ++ ((t :: ts).reverse ++ c.consumed), []⟩ := by
          simp only [Outcome.ofGroup, List.cons_append, hcloser, hkinds more hmore,
            List.reverse_cons, List.append_assoc, List.cons_append, List.nil_append]
        rw [← hpassed]
        exact .group _
  | @enclosed opener closer f c inner t more hc ht hcloser hinner ih =>
    obtain ⟨hfi, -⟩ := Bool.and_eq_true_iff.mp hf
    obtain ⟨hfc, -⟩ := Bool.and_eq_true_iff.mp hfi
    obtain ⟨u, ts, rfl⟩ := List.exists_cons_of_ne_nil hne
    obtain ⟨rfl, hmore⟩ := List.cons.inj (hc.symm.trans hrest)
    have hwithin (h : inner.rest <:+ rest) :
        ∃ kinds, (Form.enclosed opener f).Completes c.consumed (t :: ts) kinds :=
      exists_enclosed (o := .passed inner) hsound hf ht hcloser h (ih hsound hfc hmore)
    obtain ⟨us, hus⟩ := hinner.steps
    rcases List.append_eq_append_iff.mp (hmore.symm.trans hus.rest) with
      ⟨vs, -, hvs⟩ | ⟨vs, -, hvs⟩
    · exact hwithin ⟨vs, hvs.symm⟩
    · cases vs with
      | nil => exact hwithin (hvs ▸ List.suffix_rfl)
      | cons last vs =>
        -- The closing bracket has been read, and nothing behind it.
        have hlast : inner.rest = last :: (vs ++ rest) := hvs
        have hclosing : Outcome.closing closer inner = .passed ⟨last :: inner.consumed, rest⟩ := by
          unfold Outcome.closing at hle ⊢
          rw [hlast] at hle ⊢
          simp only [] at hle ⊢
          split at hle
          · next hk =>
            obtain rfl : vs = [] := by
              by_contra hne'
              exact not_append_suffix hne' hle
            exact if_pos hk
          · exact absurd hle (not_append_suffix (List.cons_ne_nil last vs))
        have hpassed : Runs false (.enclosed opener f) c (.passed ⟨last :: inner.consumed, rest⟩) := by
          rw [← hclosing]
          exact .enclosed hc ht hcloser hinner
        exact ⟨[], hpassed.completes_nil hsound hrest⟩
  | @enclosed_failed opener closer f c t more rest' hc ht hcloser hinner ih =>
    obtain ⟨hfi, -⟩ := Bool.and_eq_true_iff.mp hf
    obtain ⟨hfc, -⟩ := Bool.and_eq_true_iff.mp hfi
    obtain ⟨u, ts, rfl⟩ := List.exists_cons_of_ne_nil hne
    obtain ⟨rfl, hmore⟩ := List.cons.inj (hc.symm.trans hrest)
    exact exists_enclosed (o := .failed rest') hsound hf ht hcloser hle (ih hsound hfc hmore)
  | @both f g c middle o hrun hg ihf ihg =>
    obtain ⟨hsf, hsg⟩ := Bool.and_eq_true_iff.mp hsound
    obtain ⟨hfg, hfill⟩ := Bool.and_eq_true_iff.mp hf
    obtain ⟨hcf, hcg⟩ := Bool.and_eq_true_iff.mp hfg
    have hwithin (h : middle.rest <:+ rest) :
        ∃ kinds, (Form.both f g).Completes c.consumed ts kinds := by
      obtain ⟨kinds, hkinds⟩ := ihf hsf hcf hrest hne h
      exact exists_both hkinds hsf hsg hfill
    obtain ⟨us, hus⟩ := hrun.steps
    rcases List.append_eq_append_iff.mp (hrest.symm.trans hus.rest) with
      ⟨vs, -, hvs⟩ | ⟨vs, rfl, hvs⟩
    · exact hwithin ⟨vs, hvs.symm⟩
    · by_cases hnil : vs = []
      · refine hwithin ?_
        rw [hvs, hnil]
        exact List.suffix_rfl
      · obtain ⟨kinds, hkinds⟩ := ihg hsg hcg hvs hnil hle
        refine ⟨kinds, hkinds.imp ?_ fun more _ _ _ hrun' => ?_⟩
        · rw [hus.consumed, List.reverse_append, List.append_assoc]
        · rw [List.append_assoc]
          exact .both (hrun.again hsf rfl hus.rest (.of_ne_nil hnil hvs f)) hrun'
  | @both_failed f g c rest' _ ih =>
    obtain ⟨hsf, hsg⟩ := Bool.and_eq_true_iff.mp hsound
    obtain ⟨hfg, hfill⟩ := Bool.and_eq_true_iff.mp hf
    obtain ⟨kinds, hkinds⟩ := ih hsf (Bool.and_eq_true_iff.mp hfg).1 hrest hne hle
    exact exists_both hkinds hsf hsg hfill
  | @yes gate f g c o hgate _ ih =>
    obtain ⟨htf, -⟩ := Bool.and_eq_true_iff.mp hsound
    obtain ⟨kinds, hkinds⟩ := ih (Bool.and_eq_true_iff.mp htf).2 (Bool.and_eq_true_iff.mp hf).1
      hrest hne hle
    exact ⟨kinds, hkinds.imp rfl fun more _ _ _ =>
      .yes ((gate.opens_ahead hrest hne more).trans hgate)⟩
  | @no gate f g c o hgate _ ih =>
    obtain ⟨kinds, hkinds⟩ := ih (Bool.and_eq_true_iff.mp hsound).2 (Bool.and_eq_true_iff.mp hf).2
      hrest hne hle
    exact ⟨kinds, hkinds.imp rfl fun more _ _ _ =>
      .no ((gate.opens_ahead hrest hne more).trans hgate)⟩
  | @loop gate f c o _ ih =>
    obtain ⟨htf, hsf⟩ := Bool.and_eq_true_iff.mp hsound
    obtain ⟨kinds, hkinds⟩ := ih (by simp only [Form.sound, Form.takes, htf, hsf, Bool.true_or,
      Bool.and_self]) (by simpa [Form.completes, Form.fill] using hf) hrest hne hle
    exact ⟨kinds, hkinds.imp rfl fun _ _ _ _ => .loop⟩
  | @cast c o hcast _ ih =>
    obtain ⟨kinds, hkinds⟩ := ih Form.sound_primary Form.completes_primary hrest hne hle
    refine ⟨kinds, hkinds.imp rfl fun more _ _ _ => .cast ?_⟩
    rw [← hcast]
    obtain ⟨t, ts, rfl⟩ := List.exists_cons_of_ne_nil hne
    obtain ⟨consumed, before⟩ := c
    obtain rfl : before = t :: ts ++ rest := hrest
    exact castOpens_congr rfl
  | @headed p f c o t more hheads hc hrun ih =>
    obtain ⟨htf, hsf⟩ := Bool.and_eq_true_iff.mp hsound
    obtain ⟨hcf, hfill⟩ := Bool.and_eq_true_iff.mp hf
    obtain ⟨u, ts, rfl⟩ := List.exists_cons_of_ne_nil hne
    obtain ⟨rfl, hmore⟩ := List.cons.inj (hc.symm.trans hrest)
    obtain ⟨consumed, before⟩ := c
    obtain rfl : before = t :: more := hc
    have hreverse (ts : List Token) : (t :: ts).reverse ++ consumed = ts.reverse ++ t :: consumed := by
      simp
    cases ts with
    | nil =>
      obtain ⟨kinds, hkinds, hhead⟩ := (Option.any_eq_true _ _).mp hfill
      refine ⟨kinds, (completes_kinds? hsf hkinds (t :: consumed)).imp rfl
        fun more _ hmore _ hrun => .headed ?_ rfl hrun⟩
      obtain ⟨hkeyword, -⟩ := Bool.and_eq_true_iff.mp hheads
      refine Bool.and_eq_true_iff.mpr ⟨hkeyword, ?_⟩
      subst hmore
      cases more with
      | nil => cases hhead
      | cons v more => exact hhead
    | cons v ts =>
      obtain ⟨kinds, hkinds⟩ := ih hsf hcf hmore (List.cons_ne_nil v ts) hle
      refine ⟨kinds, hkinds.imp (hreverse _) fun more' _ _ _ hrun => .headed ?_ rfl hrun⟩
      rw [← hheads, hmore]
      exact heads_congr rfl
  | @rule r c o _ ih =>
    obtain ⟨kinds, hkinds⟩ := ih r.sound_form r.completes_form hrest hne hle
    exact ⟨kinds, hkinds.imp rfl fun _ _ _ _ => .rule⟩

end Grammar

end DesiredState

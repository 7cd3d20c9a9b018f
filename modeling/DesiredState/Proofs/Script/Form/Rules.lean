/-
The rules follow their forms.

Every rule follows its form at every cursor behind which the levels below it are enough for the
tokens: one lemma for each rule, in the order of the grammar, and an induction over the levels.
So a script is accepted just if its form passes over all of its tokens, and where it is not, the
form fails at the token that the error names.
-/
import DesiredState.Proofs.Script.Form.Follows

namespace DesiredState

namespace Grammar

open Reading

section Rules

variable (source : Text) {below : Level} {n : Nat} {c : Cursor}

/-- The rules below follow their forms if no more than so many tokens are left. -/
structure FollowsBelow (below : Level) (n : Nat) : Prop where
  statement : ∀ c, c.rest.length ≤ n → Follows below.statement (.rule .statement) c
  value : ∀ c, c.rest.length ≤ n → Follows below.value (.rule .value) c

theorem follows_itemOr (hb : FollowsBelow below n) (hc : c.rest.length ≤ n)
    {separates : TokenKind → Bool} (hs : ∀ kind, separates kind → kind.isContent) :
    Follows (itemOr below separates) (.branch (.next separates) .any (.rule .statement)) c :=
  .nextIs (fun h => (follows_any h hs).map) fun _ => (hb.statement c hc).map

theorem follows_items (hb : FollowsBelow below n) (hc : c.rest.length ≤ n)
    {separates : TokenKind → Bool} (hs : ∀ kind, separates kind → kind.isContent) :
    Follows (items below separates) (.items separates) c :=
  .map (.readWhile (fun _ => rfl) rfl fun _ hle _ =>
    follows_itemOr hb (Nat.le_trans hle hc) hs)

theorem follows_body (hb : FollowsBelow below n) (hc : c.rest.length ≤ n + 1) :
    Follows (body source below) .body c :=
  .spanning (follows_enclosed (fun read extent => (read, extent)) rfl fun _ hlt =>
    follows_items hb (by omega) fun _ => Nesting.isContent_of_eq rfl)

theorem follows_bracketedArray (hb : FollowsBelow below n) (hc : c.rest.length ≤ n + 1) :
    Follows (bracketedArray source below) .array c := by
  refine .spanning (follows_enclosed _ rfl fun c' hlt => follows_items hb (by omega) ?_)
  intro kind h
  rcases Bool.or_eq_true_iff.mp h with h | h <;> exact Nesting.isContent_of_eq rfl h

theorem follows_tableEntry (hb : FollowsBelow below n) (hc : c.rest.length ≤ n + 1)
    (hnext : c.nextIs TokenKind.startsEntry) : Follows (tableEntry below) .entry c := by
  refine .bind (follows_any hnext fun _ => Nesting.isContent_of_startsEntry) fun key c' hkey => ?_
  refine .bind (follows_expect rfl) fun _ c'' hequals => .map (hb.value c'' ?_)
  have := hkey.length_lt rfl
  have := hequals.length_lt rfl
  omega

theorem follows_entryOrSeparator (hb : FollowsBelow below n) (hc : c.rest.length ≤ n + 1)
    (hnext : c.nextIs fun kind => kind.startsEntry || kind == .semicolon) :
    Follows (entryOrSeparator below) (.branch (.next (· == .semicolon)) .any .entry) c := by
  refine .nextIs (fun h => (follows_any h fun _ => Nesting.isContent_of_eq rfl).map) fun h => ?_
  refine .map (follows_tableEntry hb hc ?_)
  obtain ⟨t, rest, hrest, ht⟩ := Nesting.nextIs_iff.mp hnext
  refine Nesting.nextIs_iff.mpr ⟨t, rest, hrest, ?_⟩
  rcases Bool.or_eq_true_iff.mp ht with ht | ht
  · exact ht
  · have hopens : c.nextIs (· == .semicolon) := Nesting.nextIs_iff.mpr ⟨t, rest, hrest, ht⟩
    exact absurd hopens (Bool.eq_false_iff.mp h)

theorem follows_bracketedTable (hb : FollowsBelow below n) (hc : c.rest.length ≤ n + 1) :
    Follows (bracketedTable source below) .table c :=
  .spanning (follows_enclosed _ rfl fun _ hlt => .readWhile (fun _ => rfl) rfl fun _ hle h =>
    follows_entryOrSeparator hb (by omega) h)

/-- What is asked of the next token is asked of its kind. -/
theorem Gate.opens_next {kind : TokenKind} (h : c.nextKind? = some kind) (p : TokenKind → Bool) :
    (Gate.next p).opens c = p kind := Nesting.nextIs_of_nextKind? h p

theorem Gate.opens_next_eq_false {p : TokenKind → Bool}
    (h : ∀ kind, p kind → c.nextKind? ≠ some kind) : (Gate.next p).opens c = false := by
  refine Gate.opens_eq_false fun t ht => ?_
  have hkind : c.nextKind? = some t.kind := by rw [Cursor.nextKind?, ht]; rfl
  exact Bool.not_eq_true' _ ▸ Bool.eq_false_iff.mpr fun hp => h _ hp hkind

theorem isContent_of_isSingle {kind : TokenKind} (h : isSingle kind) : kind.isContent := by
  cases kind <;> first | rfl | exact absurd h (by decide)

theorem follows_primary (hb : FollowsBelow below n) (hc : c.rest.length ≤ n + 1) :
    Follows (primary source below) .primary c := by
  have hsingle {kind : TokenKind} (hk : c.nextKind? = some kind) (h : isSingle kind)
      (build : Token → Extent → Expression) :
      Follows (tokenExpression source build) .primary c := by
    have hnext := (Nesting.nextIs_of_nextKind? hk isSingle).trans h
    refine Follows.imp (Follows.spanning (Follows.map ?_)) fun _ => .yes hnext
    exact follows_any hnext fun _ => isContent_of_isSingle
  have hgroup {kind : TokenKind} (hk : c.nextKind? = some kind) (build : Extent → Expression)
      (hs : isSingle kind = false) (ha : (kind == .arrayOpen) = false)
      (ht : (kind == .tableOpen) = false) :
      Follows (groupExpression source build) .primary c :=
    (Follows.spanning follows_group.map).imp fun _ h =>
      .no ((Gate.opens_next hk _).trans hs)
        (.no ((Gate.opens_next hk _).trans ha) (.no ((Gate.opens_next hk _).trans ht) h))
  unfold primary
  refine Follows.get ?_
  split
  all_goals try exact hsingle (by assumption) rfl _
  · next hk =>
    exact (follows_bracketedArray source hb hc).imp fun _ h =>
      .no (Gate.opens_next hk _) (.yes (Gate.opens_next hk _) h)
  · next hk =>
    exact (follows_bracketedTable source hb hc).imp fun _ h =>
      .no (Gate.opens_next hk _) (.no (Gate.opens_next hk _) (.yes (Gate.opens_next hk _) h))
  · next hk => exact hgroup hk _ rfl rfl rfl
  · next hk => exact hgroup hk _ rfl rfl rfl
  · next hk => exact hgroup hk _ rfl rfl rfl
  · -- No value starts here, so what is left of the form fails at the same token.
    obtain ⟨consumed, rest⟩ := c
    cases rest with
    | nil => exact .of_failed rfl rfl (.no rfl (.no rfl (.no rfl (.group _))))
    | cons t rest =>
      obtain ⟨kind, text, start⟩ := t
      cases kind <;> first
        | exact .of_failed rfl rfl (.no rfl (.no rfl (.no rfl (.group _))) :
            Runs true _ _ (.failed (_ :: rest)))
        | exact absurd rfl (by assumption)

theorem isContent_of_isMember {kind : TokenKind} (h : kind == .dot || kind == .doubleColon) :
    kind.isContent := by
  rcases Bool.or_eq_true_iff.mp h with h | h <;> exact Nesting.isContent_of_eq rfl h

theorem follows_access (c : Cursor) : Follows access .access c := by
  have hmember {kind : TokenKind} (hk : c.nextKind? = some kind)
      (h : kind == .dot || kind == .doubleColon) (build : Token → Access) :
      Follows (do
        let _ ← token
        let name ← tokenOf "Name" TokenKind.isName
        pure (build name)) .access c := by
    have hnext := (Gate.opens_next hk fun kind => kind == .dot || kind == .doubleColon).trans h
    refine Follows.imp (.bind (follows_any hnext fun _ => isContent_of_isMember) fun _ _ _ =>
      .map (follows_tokenOf _ fun _ => Nesting.isContent_of_isName)) fun _ => .yes hnext
  unfold access
  refine Follows.get ?_
  split
  · next hk => exact hmember hk rfl _
  · next hk => exact hmember hk rfl _
  · next hk =>
    have hnext := Gate.opens_next hk (· == .bracketOpen)
    refine Follows.imp (.bind (follows_any hnext fun _ => Nesting.isContent_of_eq rfl)
      fun _ _ _ => .bind (.readWhile (fun _ => rfl) rfl fun _ _ h => follows_any h fun _ h => ?_)
        fun _ _ _ => .map (follows_expect rfl))
      fun _ h => .no (Gate.opens_next hk _) (.yes hnext h)
    exact (Bool.and_eq_true_iff.mp h).1
  · next hk =>
    have hnext := Gate.opens_next hk (· == .typeLiteral)
    exact (follows_any hnext fun _ => Nesting.isContent_of_eq rfl).map.imp fun _ h =>
      .no (Gate.opens_next hk _) (.no (Gate.opens_next hk _) (.yes hnext h))
  · next hdot hcolon hbracket htype =>
    refine follows_group.map.imp fun _ h => ?_
    refine .no (Gate.opens_next_eq_false fun kind hk => ?_)
      (.no (Gate.opens_next_eq_false fun kind hk => ?_)
        (.no (Gate.opens_next_eq_false fun kind hk => ?_) h))
    · rcases Bool.or_eq_true_iff.mp hk with hk | hk <;> rw [beq_iff_eq.mp hk]
      · exact hdot
      · exact hcolon
    · rw [beq_iff_eq.mp hk]
      exact hbracket
    · rw [beq_iff_eq.mp hk]
      exact htype

theorem follows_accesses (c : Cursor) : Follows accesses .accesses c :=
  .readWhile (fun _ => rfl) rfl fun c' _ _ => follows_access c'

theorem follows_castValue (hb : FollowsBelow below n) (hc : c.rest.length ≤ n + 1)
    (htype : c.afterType) : Follows (castValue source below) .cast c := by
  have hopens : c.castOpens true = c.castValueFollows := by
    rw [Cursor.castOpens, htype, if_pos rfl, Bool.true_and]
  unfold castValue
  refine Follows.get ?_
  cases h : c.castValueFollows with
  | true =>
    rw [if_pos rfl]
    exact (follows_primary source hb hc).map.imp fun _ => .cast (hopens.trans h)
  | false =>
    rw [if_neg Bool.false_ne_true]
    exact .of_passed rfl (.cast_missing (hopens.trans h))

/-- A loop over tokens of some sort ends behind the last of them. -/
theorem consumed_of_loop {looks : Bool} {p : TokenKind → Bool} {c' : Cursor}
    (h : Runs looks (.loop (.next p) .any) c (.passed c')) :
    c' = c ∨ c'.consumed.head?.any fun t => p t.kind := by
  refine h.loop_induction (motive := fun d => d = c ∨ d.consumed.head?.any fun t => p t.kind) rfl
    (fun d d' hgate hany _ => .inr ?_) (.inl rfl)
  obtain ⟨t, rest, -, ht, rfl⟩ := hany.passed_any hgate
  exact ht

theorem follows_castOperand (hb : FollowsBelow below n) (hc : c.rest.length ≤ n + 1)
    (hnext : (Gate.next (· == .typeLiteral)).opens c) :
    Follows (castOperand source below) .castOperand c := by
  have hloop : Follows (readWhile (·.nextIs (· == .typeLiteral)) token)
      (.loop (.next (· == .typeLiteral)) .any) c :=
    .readWhile (fun _ => rfl) rfl fun _ _ h => follows_any h fun _ => Nesting.isContent_of_eq rfl
  refine .bind (hloop.of_loop hnext) fun _ c' hrun => ?_
  refine .bind (follows_castValue source hb (Nat.le_trans hrun.length_le hc) ?_) fun _ c'' _ =>
    (follows_accesses c'').map
  have hlast : c' = c ∨ c'.consumed.head?.any fun t => t.kind == .typeLiteral :=
    consumed_of_loop (.loop (.yes hnext hrun))
  rcases hlast with rfl | hlast
  · exact absurd (hrun.length_lt rfl) (Nat.lt_irrefl _)
  · exact hlast

theorem follows_operand (hb : FollowsBelow below n) (hc : c.rest.length ≤ n + 1) :
    Follows (operand source below) .operand c := by
  rw [operand_eq]
  have hsign : Follows (sign (c.nextIs (· == .operator)))
      (.branch (.next (· == .operator)) .any .nothing) c :=
    .branch (.next (· == .operator))
      (fun h => (follows_any h fun _ => Nesting.isContent_of_eq rfl).map) fun _ => .pure ()
  refine .spanning (.ask (.bind hsign fun _ c' hrun => ?_))
  have hc' : c'.rest.length ≤ n + 1 := Nat.le_trans hrun.length_le hc
  refine .nextIs (fun h => follows_castOperand source hb hc' h) fun _ => ?_
  exact .bind (follows_primary source hb hc') fun _ c'' _ => (follows_accesses c'').map

theorem follows_binary (hb : FollowsBelow below n) (hc : c.rest.length ≤ n + 1) :
    Follows (binary source below) .binary c := by
  refine .spanning (.bind (follows_operand source hb hc) fun _ c' hrun => .map ?_)
  refine .readWhile (fun _ => rfl) rfl fun c'' hle hgate => ?_
  have hnext := (Bool.and_eq_true_iff.mp hgate).2
  refine .bind (follows_any (p := fun kind => kind == .operator || kind == .parameter) hnext ?_)
    fun _ d hany => (follows_operand source hb ?_).map
  · intro kind h
    rcases Bool.or_eq_true_iff.mp h with h | h <;> exact Nesting.isContent_of_eq rfl h
  · have := hrun.length_le
    have := hany.length_le
    omega

theorem follows_expression (hb : FollowsBelow below n) (hc : c.rest.length ≤ n + 1) :
    Follows (expression source below) .expression c := by
  refine .spanning (.bind (follows_binary source hb hc) fun _ c' hrun => .map ?_)
  refine .readWhile (fun _ => rfl) rfl fun c'' hle hgate => ?_
  refine .bind (follows_any hgate fun _ => Nesting.isContent_of_eq rfl)
    fun _ d hany => follows_binary source hb ?_
  have := hrun.length_le
  have := hany.length_le
  omega

theorem follows_argument (hb : FollowsBelow below n) (hc : c.rest.length ≤ n + 1) :
    Follows (argument source below) .argument c := by
  have hsingle {kind : TokenKind} (hk : c.nextKind? = some kind)
      (h : kind == .parameter || kind == .comma) (build : Token → Marked ArgumentPart) :
      Follows (token >>= fun t => pure (build t)) .argument c := by
    have hnext := (Gate.opens_next hk fun kind => kind == .parameter || kind == .comma).trans h
    refine (follows_any hnext fun kind h => ?_).map.imp fun _ => .yes hnext
    rcases Bool.or_eq_true_iff.mp h with h | h <;> exact Nesting.isContent_of_eq rfl h
  unfold argument
  refine Follows.get ?_
  split
  · next hk => exact hsingle hk rfl _
  · next hk => exact hsingle hk rfl _
  · next hk =>
    have hnext := Gate.opens_next hk (· == .bareword)
    refine Follows.imp (.spanning (.bind
      (follows_any hnext fun _ => Nesting.isContent_of_eq rfl) fun _ c' _ =>
        (follows_accesses c').map)) fun _ h => .no (Gate.opens_next hk _) (.yes hnext h)
  · next hparameter hcomma hbareword =>
    refine (follows_operand source hb hc).map.imp fun _ h => ?_
    refine .no (Gate.opens_next_eq_false fun kind hk => ?_)
      (.no (Gate.opens_next_eq_false fun kind hk => ?_) h)
    · rcases Bool.or_eq_true_iff.mp hk with hk | hk <;> rw [beq_iff_eq.mp hk]
      · exact hparameter
      · exact hcomma
    · rw [beq_iff_eq.mp hk]
      exact hbareword

theorem follows_commandArguments (hb : FollowsBelow below n) (hc : c.rest.length ≤ n + 1)
    {gate : Gate} {enter : Cursor → Bool} (henter : ∀ c, enter c = gate.opens c) :
    Follows (commandArguments source below enter) (.loop gate .argument) c :=
  .map (.readWhile henter rfl fun _ hle _ => follows_argument source hb (Nat.le_trans hle hc))

theorem follows_pipeTarget (hb : FollowsBelow below n) (hc : c.rest.length ≤ n + 1)
    (hnext : (Gate.next (· == .pipe)).opens c) :
    Follows (pipeTarget source below) .pipeTarget c := by
  refine .bind (follows_any hnext fun _ => Nesting.isContent_of_eq rfl) fun _ c' hpipe => ?_
  have hc' : c'.rest.length ≤ n + 1 := Nat.le_trans hpipe.length_le hc
  refine .nextIs (fun h => .spanning ?_) fun _ => (follows_expression source hb hc').map
  refine .bind (follows_any h fun _ => Nesting.isContent_of_eq rfl) fun _ c'' hword => .map ?_
  exact follows_commandArguments source hb (Nat.le_trans hword.length_le hc') fun _ => rfl

theorem follows_pipes (hb : FollowsBelow below n) (hc : c.rest.length ≤ n + 1) :
    Follows (pipes source below) .pipes c :=
  .map (.readWhile (fun _ => rfl) rfl fun _ hle h =>
    follows_pipeTarget source hb (Nat.le_trans hle hc) h)

theorem follows_expressionOrAssignment (hb : FollowsBelow below n) (hc : c.rest.length ≤ n + 1) :
    Follows (expressionOrAssignment source below) .expressionOrAssignment c := by
  refine .spanning (.bind (follows_expression source hb hc) fun _ c' hrun => ?_)
  have := hrun.length_lt rfl
  refine .nextIs (fun h => ?_) fun _ => (follows_pipes source hb (by omega)).map
  refine .bind (follows_ofKind h rfl) fun _ c'' hequals => .map (hb.value c'' ?_)
  have := hequals.length_le
  omega

theorem follows_keyed (hb : FollowsBelow below n) (hc : c.rest.length ≤ n + 1)
    (hnext : (Gate.next TokenKind.isName).opens c) :
    Follows (keyed source below) (.both .any .assigned) c := by
  refine .spanning (.bind (follows_any hnext fun _ => Nesting.isContent_of_isName)
    fun _ c' hkey => .bind (follows_expect rfl) fun _ c'' hequals => .map (hb.value c'' ?_))
  have := hkey.length_lt rfl
  have := hequals.length_le
  omega

theorem follows_optionalBody (hb : FollowsBelow below n) (hc : c.rest.length ≤ n + 1) :
    Follows (optionalBody source below)
      (.branch (.next (· == .braceOpen)) .body .nothing) c :=
  .nextIs (fun _ => (follows_body source hb hc).map) fun _ => .pure none

theorem follows_command (hb : FollowsBelow below n) (hc : c.rest.length ≤ n + 1)
    (hnext : (Gate.next TokenKind.isName).opens c) :
    Follows (command source below) (.both .any .commandTail) c := by
  have henter : ∀ c : Cursor, (c.onLine && !c.nextIs (· == .braceOpen) &&
      c.nextIs TokenKind.startsArgument) =
        (Gate.onLine fun kind => kind != .braceOpen && kind.startsArgument).opens c := by
    rintro ⟨consumed, rest⟩
    cases rest with
    | nil => simp [Gate.opens, Cursor.nextIs]
    | cons t rest => exact Bool.and_assoc _ _ _
  refine .spanning (.bind (follows_any hnext fun _ => Nesting.isContent_of_isName) fun _ c' hhead => ?_)
  have hc' : c'.rest.length ≤ n + 1 := Nat.le_trans hhead.length_le hc
  refine .bind (follows_commandArguments source hb hc' henter) fun _ c'' hargs => ?_
  have hc'' : c''.rest.length ≤ n + 1 := Nat.le_trans hargs.length_le hc'
  refine .bind (follows_optionalBody source hb hc'') fun _ d hbody => .map ?_
  exact follows_pipes source hb (Nat.le_trans hbody.length_le hc'')

/-- What follows a token may be asked about the token behind it. -/
theorem Runs.behind {looks : Bool} {p : TokenKind → Bool} {f g : Form} {t : Token}
    {consumed rest : List Token} {o : Outcome} (hp : p t.kind) (ht : t.kind.isContent)
    (h : Runs looks (.both (.token p) f) ⟨consumed, t :: rest⟩ o)
    (hfg : Runs looks f ⟨t :: consumed, rest⟩ o → Runs looks g ⟨t :: consumed, rest⟩ o) :
    Runs looks (.both (.token p) g) ⟨consumed, t :: rest⟩ o := by
  have htoken : Runs looks (.token p) ⟨consumed, t :: rest⟩ (.passed ⟨t :: consumed, rest⟩) :=
    runs_ofToken hp ht
  cases h with
  | both hf hg =>
    cases htoken.eq hf
    exact .both htoken (hfg hg)
  | both_failed hf => cases htoken.eq hf

theorem follows_wordStatement (hb : FollowsBelow below n) (hc : c.rest.length ≤ n + 1)
    (hnext : (Gate.next TokenKind.isName).opens c) :
    Follows (wordStatement source below) .wordStatement c := by
  have hkeyed := follows_keyed source hb hc hnext
  have hcommand := follows_command source hb hc hnext
  obtain ⟨consumed, rest⟩ := c
  obtain ⟨t, rest, rfl, hname⟩ := Nesting.nextIs_iff.mp hnext
  have hcontent := Nesting.isContent_of_isName hname
  unfold wordStatement
  refine Follows.get ?_
  cases hkeyword : t.kind.isKeyword with
  | true =>
    cases rest with
    | nil =>
      simp only [hkeyword, if_true]
      exact hkeyed.imp fun _ => .yes hkeyword
    | cons u rest =>
      simp only [hkeyword, Bool.true_or, if_true]
      exact hkeyed.imp fun _ => .yes hkeyword
  | false =>
    cases rest with
    | nil =>
      simp only [hkeyword, Bool.false_eq_true, if_false]
      exact hcommand.imp fun _ h => .no hkeyword (h.behind rfl hcontent (.no rfl))
    | cons u rest =>
      simp only [hkeyword, Bool.false_or]
      cases hequals : u.kind == .equals with
      | true =>
        rw [if_pos rfl]
        exact hkeyed.imp fun _ h => .no hkeyword (h.behind rfl hcontent (.yes hequals))
      | false =>
        rw [if_neg Bool.false_ne_true]
        exact hcommand.imp fun _ h => .no hkeyword (h.behind rfl hcontent (.no hequals))

theorem follows_value (hb : FollowsBelow below n) (hc : c.rest.length ≤ n + 1) :
    Follows (value source below) .value c :=
  .nextIs (fun h => (follows_wordStatement source hb hc h).map) fun _ =>
    follows_expressionOrAssignment source hb hc

/-- A keyword with what belongs to it, or as a key, or without either. -/
theorem follows_keyworded (hb : FollowsBelow below n) (hc : c.rest.length ≤ n + 1)
    {p : TokenKind → Bool} (hp : p .equals = false) {r : Reading Item} {f : Form}
    (hkeyword : c.nextIs TokenKind.isKeyword)
    (hr : ((c.rest.drop 1).head?.map Token.kind).any p → Follows r (.both .any f) c) :
    Follows (if ((c.rest.drop 1).head?.map Token.kind).any p then r
      else if ((c.rest.drop 1).head?.map Token.kind).any (· == .equals) then
        wordStatement source below
      else reject .noAlternative) (.keyworded p f) c := by
  obtain ⟨consumed, rest⟩ := c
  obtain ⟨t, rest, rfl, ht⟩ := Nesting.nextIs_iff.mp hkeyword
  have hname : t.kind.isName := by
    cases hk : t.kind <;> rw [hk] at ht <;> first | rfl | cases ht
  have hcontent := Nesting.isContent_of_isName hname
  have hheaded {f g : Form} {u : Token} {more : List Token} {o : Outcome}
      (hrest : rest = u :: more) (hu : p u.kind || u.kind == .equals)
      (h : Runs true (.both .any f) ⟨consumed, t :: rest⟩ o)
      (hfg : Runs true f ⟨t :: consumed, rest⟩ o → Runs true g ⟨t :: consumed, rest⟩ o) :
      Runs true (.headed (fun kind => p kind || kind == .equals) g) ⟨consumed, t :: rest⟩ o := by
    have hheads : Cursor.heads (fun kind => p kind || kind == .equals) ⟨consumed, t :: rest⟩ := by
      rw [hrest]
      exact Bool.and_eq_true_iff.mpr ⟨ht, hu⟩
    have hg := h.behind rfl hcontent hfg
    refine .headed hheads rfl ?_
    cases hg with
    | both hany hg =>
      cases (runs_ofToken rfl hcontent).eq hany
      exact hg
    | both_failed hany => cases (runs_ofToken rfl hcontent).eq hany
  cases rest with
  | nil =>
    have hmissing : Runs true (.keyworded p f) ⟨consumed, [t]⟩ (.failed [t]) :=
      .headed_missing (by simp [Cursor.heads, Cursor.nextIs])
    exact .of_failed rfl rfl hmissing
  | cons u rest =>
    change Follows (if p u.kind then r else if u.kind == .equals then wordStatement source below
      else reject .noAlternative) _ _
    cases hpu : p u.kind with
    | true =>
      rw [if_pos rfl]
      refine (hr hpu).imp fun _ h => hheaded rfl (by rw [hpu]; rfl) h (.no ?_)
      refine Bool.eq_false_iff.mpr fun hequals => ?_
      rw [beq_iff_eq.mp hequals, hp] at hpu
      cases hpu
    | false =>
      rw [if_neg Bool.false_ne_true]
      cases hequals : u.kind == .equals with
      | true =>
        rw [if_pos rfl]
        refine (follows_wordStatement source hb hc hname).imp fun _ h => ?_
        cases h with
        | yes _ h => exact hheaded rfl (by rw [hequals, Bool.or_true]) h (.yes hequals)
        | no hno _ => exact absurd ht (Bool.eq_false_iff.mp hno)
      | false =>
        rw [if_neg Bool.false_ne_true]
        have hmissing : Runs true (.keyworded p f) ⟨consumed, t :: u :: rest⟩
            (.failed (t :: u :: rest)) := by
          refine .headed_missing ?_
          change (t.kind.isKeyword && (p u.kind || u.kind == .equals)) = false
          rw [hpu, hequals, Bool.or_false, Bool.and_false]
        exact .of_failed rfl rfl hmissing

theorem isContent_of_namesConfiguration {kind : TokenKind} (h : Form.namesConfiguration kind) :
    kind.isContent := by
  rcases Bool.or_eq_true_iff.mp h with h | h
  · exact Nesting.isContent_of_isName h
  · exact Nesting.isContent_of_isString h

theorem follows_configuration (hb : FollowsBelow below n) (hc : c.rest.length ≤ n + 1)
    (hnext : c.nextKind? = some .configuration)
    (hsecond : ((c.rest.drop 1).head?.map Token.kind).any Form.namesConfiguration) :
    Follows (configuration source below)
      (.both .any (.both (.token Form.namesConfiguration) .body)) c := by
  obtain ⟨consumed, rest⟩ := c
  obtain ⟨t, rest, rfl, ht⟩ := Nesting.nextIs_iff.mp (Nesting.nextIs_of_nextKind? hnext (· == .configuration))
  refine .spanning (.bind (follows_any (Gate.opens_next hnext (· == .configuration)) fun _ =>
    Nesting.isContent_of_eq rfl) fun _ c' hkeyword => ?_)
  have hc' : c'.rest.length ≤ n + 1 := Nat.le_trans hkeyword.length_le hc
  refine .bind (follows_token (p := Form.namesConfiguration) ?_ fun _ h =>
    ⟨h, isContent_of_namesConfiguration h⟩) fun _ c'' hname =>
      (follows_body source hb (Nat.le_trans hname.length_le hc')).map
  cases (runs_ofToken rfl (Nesting.isContent_of_eq rfl ht)).eq hkeyword
  cases rest with
  | nil => cases hsecond
  | cons u rest => exact hsecond

theorem follows_target (hb : FollowsBelow below n) (hc : c.rest.length ≤ n + 1) :
    Follows (target source below) .target c :=
  .nextIs (fun h => (follows_any h fun _ => Nesting.isContent_of_eq rfl).map) fun _ =>
    follows_operand source hb hc

theorem follows_node (hb : FollowsBelow below n) (hc : c.rest.length ≤ n + 1)
    (hnext : c.nextKind? = some .node) :
    Follows (node source below) (.both .any (.both .target .body)) c := by
  rw [node_eq]
  refine .spanning (.bind (follows_any (Gate.opens_next hnext (· == .node)) fun _ =>
    Nesting.isContent_of_eq rfl) fun _ c' hkeyword => ?_)
  have hc' : c'.rest.length ≤ n + 1 := Nat.le_trans hkeyword.length_le hc
  exact .bind (follows_target source hb hc') fun _ c'' htarget =>
    (follows_body source hb (Nat.le_trans htarget.length_le hc')).map

theorem follows_param (hnext : c.nextKind? = some .param) :
    Follows (param source) (.both .any .group) c :=
  .spanning (.bind (follows_any (Gate.opens_next hnext (· == .param)) fun _ =>
    Nesting.isContent_of_eq rfl) fun _ _ _ => follows_group.map)

theorem follows_statement (hb : FollowsBelow below n) (hc : c.rest.length ≤ n + 1) :
    Follows (statement source below) .statement c := by
  unfold statement
  refine Follows.get ?_
  simp only []
  split
  · next hk =>
    exact (follows_keyworded source hb hc rfl (Gate.opens_next hk _)
      (follows_configuration source hb hc hk)).imp fun _ => .yes (Gate.opens_next hk _)
  · next hk =>
    exact (follows_keyworded source hb hc rfl (Gate.opens_next hk _)
      fun _ => follows_node source hb hc hk).imp fun _ h =>
        .no (Gate.opens_next hk _) (.yes (Gate.opens_next hk _) h)
  · next hk =>
    exact (follows_keyworded source hb hc rfl (Gate.opens_next hk _)
      fun _ => follows_param source hk).imp fun _ h =>
        .no (Gate.opens_next hk _) (.no (Gate.opens_next hk _) (.yes (Gate.opens_next hk _) h))
  · next hk =>
    exact (follows_wordStatement source hb hc (Gate.opens_next hk _)).imp fun _ h =>
      .no (Gate.opens_next hk _) (.no (Gate.opens_next hk _) (.no (Gate.opens_next hk _)
        (.yes (Gate.opens_next hk _) h)))
  · next hconfiguration hnode hparam hword =>
    have hno {kind : TokenKind} (h : c.nextKind? ≠ some kind) :
        (Gate.next (· == kind)).opens c = false :=
      Gate.opens_next_eq_false fun other hother => beq_iff_eq.mp hother ▸ h
    exact (follows_expressionOrAssignment source hb hc).map.imp fun _ h =>
      .no (hno hconfiguration) (.no (hno hnode) (.no (hno hparam) (.no (hno hword) h)))

end Rules

/-- No rule reads anything at the end of the tokens. -/
theorem runs_rule_nil (r : Rule) (consumed : List Token) :
    Runs true (.rule r) ⟨consumed, []⟩ (.failed []) := by
  have hprimary : Runs true .primary ⟨consumed, []⟩ (.failed []) :=
    .no rfl (.no rfl (.no rfl (.group _)))
  have hoperand : Runs true .operand ⟨consumed, []⟩ (.failed []) :=
    .both (.no rfl (.nothing _)) (.no rfl (.both_failed hprimary))
  have hexpression : Runs true .expressionOrAssignment ⟨consumed, []⟩ (.failed []) :=
    .both_failed (.both_failed (.both_failed hoperand))
  cases r with
  | statement => exact .rule (.no rfl (.no rfl (.no rfl (.no rfl hexpression))))
  | value => exact .rule (.no rfl hexpression)

/-- **The rules of a level follow their forms** as long as there are no more tokens than levels. -/
theorem followsBelow_level (source : Text) (n : Nat) : FollowsBelow (level source n) n := by
  induction n with
  | zero =>
    have hnil (r : Rule) {c : Cursor} (hc : c.rest.length ≤ 0) {α : Type} :
        Follows (reject .noAlternative : Reading α) (.rule r) c := by
      obtain ⟨consumed, rest⟩ := c
      obtain rfl : rest = [] := List.eq_nil_of_length_eq_zero (Nat.le_zero.mp hc)
      exact .of_failed rfl rfl (runs_rule_nil r consumed)
    exact ⟨fun _ hc => hnil _ hc, fun _ hc => hnil _ hc⟩
  | succ n ih =>
    exact ⟨fun _ hc => (follows_statement source ih hc).imp fun _ => .rule (r := .statement),
      fun _ hc => (follows_value source ih hc).imp fun _ => .rule (r := .value)⟩

/-- A script is read by its form. -/
theorem follows_script (source : Text) (tokens : List Token) :
    match script source tokens with
    | .ok _ => Runs true .script ⟨[], tokens⟩ (.passed ⟨tokens.reverse, []⟩)
    | .error e => ∃ rest, e.token = rest.head? ∧ Runs true .script ⟨[], tokens⟩ (.failed rest) := by
  have hitems : Follows (items (level source tokens.length) (· == .semicolon))
      (.items (· == .semicolon)) ⟨[], tokens⟩ :=
    follows_items (followsBelow_level source tokens.length) (Nat.le_refl _) fun _ =>
      Nesting.isContent_of_eq rfl
  unfold script
  cases hr : items (level source tokens.length) (· == .semicolon) ⟨[], tokens⟩ with
  | error e =>
    obtain ⟨rest, he, hf⟩ := hitems.failed hr
    exact ⟨rest, he, .both_failed hf⟩
  | ok result =>
    obtain ⟨read, consumed, rest⟩ := result
    have hf := hitems.passed hr
    cases rest with
    | nil =>
      obtain ⟨ts, hts⟩ := hf.steps
      obtain rfl : tokens = ts := by simpa using hts.rest
      have hconsumed : consumed = tokens.reverse := by simpa using hts.consumed
      exact hconsumed ▸ .both hf (.no rfl (.nothing _))
    | cons t rest => exact ⟨t :: rest, rfl, .both hf (.yes rfl (.reject _))⟩

/-- **A script is accepted just if its form passes.** -/
theorem exists_script_ok_iff (source : Text) (tokens : List Token) :
    (∃ read, script source tokens = .ok read) ↔
      ∃ c', Runs true .script ⟨[], tokens⟩ (.passed c') := by
  have hscript := follows_script source tokens
  constructor
  · rintro ⟨read, hr⟩
    rw [hr] at hscript
    exact ⟨_, hscript⟩
  · rintro ⟨c', hpassed⟩
    cases hr : script source tokens with
    | ok read => exact ⟨read, rfl⟩
    | error e =>
      rw [hr] at hscript
      obtain ⟨rest, -, hfailed⟩ := hscript
      cases hpassed.eq hfailed

end Grammar

end DesiredState

/-
Commands without a body.

The arguments of a command that are parameters, commas and atoms are read one by one, as long as
each starts on the line on which the one before it ends.  Values around commas are folded into
one list, however many there are.
-/
import DesiredState.Proofs.Script.Blocks
import Mathlib.Data.List.Chain

namespace DesiredState.Grammar

open Reading Cursor

/-! ### Arguments one by one

An argument could go on as an access to a member of it.  Tokens that are arguments by
themselves never start an access, so that each is read without regard to the next one.
-/

/-- Whether a kind is an argument by itself, or a comma between two. -/
def isPlainArgument (kind : TokenKind) : Bool :=
  kind == .parameter || kind == .comma || kind.isAtom

/-- What a token that is an argument by itself is read as. -/
def plainArgument (source : Text) (t : Token) : ArgumentPart :=
  if t.kind = .parameter then .parameter ⟨t.text, t.location⟩ (parameterName t.text)
  else if t.kind = .comma then .comma
  else .value (atom source t)

section Rules

variable {source : Text} {below : Level} {consumed tokens rest : List Token}

theorem passes_plainArgument {t : Token} (ht : isPlainArgument t.kind)
    (hrest : Meets rest fun kind => !kind.startsAccess) :
    Passes (argument source below) consumed [t] rest (· = ⟨plainArgument source t, []⟩) := by
  have haccess : Cursor.accessFollows ⟨[t].reverse ++ consumed, rest⟩ = false :=
    hrest.accessFollows fun kind hk => by rwa [Bool.not_eq_true'] at hk
  have hoperand (h : t.kind.isAtom) :
      Passes (operand source below) consumed [t] rest (· = ⟨atom source t, []⟩) :=
    passes_operand (startsPrimary_of_isAtom h) (passes_atom h) haccess
  unfold argument
  refine Passes.get ?_
  have hkind : Cursor.nextKind? ⟨consumed, [t] ++ rest⟩ = some t.kind := rfl
  rw [hkind]
  unfold plainArgument
  cases hk : t.kind <;> rw [hk] at ht hoperand
  case parameter => exact Passes.map (Passes.token t) fun _ h => by rw [h]; rfl
  case comma => exact Passes.map (Passes.token t) fun _ _ => rfl
  all_goals first
    | exact absurd ht (by decide)
    | exact Passes.map (hoperand rfl) fun _ h => by rw [h]; rfl

/-- Nothing that is an argument by itself is an access to what stands before it. -/
theorem meets_plainArguments (hplain : ∀ t ∈ tokens, isPlainArgument t.kind)
    (hrest : Meets rest fun kind => !kind.startsAccess) :
    Meets (tokens ++ rest) fun kind => !kind.startsAccess := by
  cases tokens with
  | nil => exact hrest
  | cons t more =>
    have ht := hplain t List.mem_cons_self
    refine Meets.cons ?_
    cases hk : t.kind <;> rw [hk] at ht <;> first | rfl | exact absurd ht (by decide)

/-- Arguments on the line of their command, one after another.  The induction is on the tokens; the
one before them says on which line they have to start. -/
theorem passes_argumentLoop {last : Token} (hplain : ∀ t ∈ tokens, isPlainArgument t.kind)
    (hline : List.IsChain (fun before t => t.onLineOf before) (last :: tokens))
    (hrest : Meets rest fun kind => !kind.startsAccess)
    (hend : entersArgument ⟨tokens.reverse ++ (last :: consumed), rest⟩ = false)
    (n : Nat) (hn : tokens.length ≤ n) :
    Passes (whileAtMost entersArgument (argument source below) n) (last :: consumed) tokens rest
      (· = tokens.map fun t => ⟨plainArgument source t, []⟩) := by
  induction tokens generalizing last consumed n with
  | nil => exact Passes.whileAtMost_stop n hend rfl
  | cons t more ih =>
    obtain ⟨ht, hmore⟩ := List.forall_mem_cons.mp hplain
    obtain ⟨hfirst, hchain⟩ := List.isChain_cons_cons.mp hline
    obtain ⟨n, rfl⟩ : ∃ k, n = k + 1 := ⟨n - 1, by rw [List.length_cons] at hn; omega⟩
    have henter : entersArgument ⟨last :: consumed, [t] ++ more ++ rest⟩ = true := by
      unfold entersArgument Cursor.onLine Cursor.nextIs
      simp only [List.cons_append, List.nil_append, hfirst, Bool.true_and]
      cases hk : t.kind <;> rw [hk] at ht <;> first | rfl | exact absurd ht (by decide)
    rw [List.reverse_cons, List.append_assoc] at hend
    refine Passes.whileAtMost_step (s := [t]) henter
      (passes_plainArgument ht (meets_plainArguments hmore hrest)) ?_
    rintro _ rfl
    rw [List.length_cons] at hn
    refine (ih hmore hchain hend n (by omega)).mono ?_
    rintro _ rfl
    rfl

/-- Where values end, so do the arguments. -/
theorem entersArgument_ends {last : Token} (h : Ends last.stop.line rest) :
    entersArgument ⟨last :: consumed, rest⟩ = false := by
  cases rest with
  | nil => rfl
  | cons t rest =>
    unfold entersArgument Cursor.onLine Cursor.nextIs Token.onLineOf
    rcases h t rfl with hk | hk | ⟨-, hline⟩
    · simp only [hk]
      exact Bool.and_false _
    · simp only [hk]
      exact Bool.and_false _
    · simp only [decide_eq_false (Nat.not_le_of_lt hline), Bool.false_and]

/-- A word and arguments on its line are a command, if neither an argument nor a body follows. -/
theorem passes_bareCommand {head : Token} (hplain : ∀ t ∈ tokens, isPlainArgument t.kind)
    (hline : List.IsChain (fun before t => t.onLineOf before) (head :: tokens))
    (hrest : Meets rest endsValue)
    (hend : entersArgument ⟨tokens.reverse ++ (head :: consumed), rest⟩ = false) :
    Passes (command source below) consumed (head :: tokens) rest fun item =>
      ∃ extent, item.statement = .pipeline extent [.command ⟨extent, head.text,
        foldArguments source false [] (tokens.map (plainArgument source))⟩] := by
  have haccess : Meets rest fun kind => !kind.startsAccess := by
    refine hrest.mono fun kind hk => ?_
    cases kind <;> first | rfl | exact absurd hk (by decide)
  have hnot (kind : TokenKind) (hk : endsValue kind = false) :
      Cursor.nextIs ⟨tokens.reverse ++ (head :: consumed), rest⟩ (· == kind) = false := by
    refine hrest.nextIs fun other ho => beq_eq_false_iff_ne.mpr ?_
    rintro rfl
    rw [hk] at ho
    exact absurd ho Bool.false_ne_true
  refine Passes.spanning (List.cons_ne_nil _ _) ?_
  refine Passes.bind (s := [head]) (Passes.token head) ?_
  rintro head rfl
  have harguments : Passes (commandArguments source below entersArgument)
      ([head].reverse ++ consumed) tokens rest
      (· = ⟨foldArguments source false [] (tokens.map (plainArgument source)), []⟩) := by
    refine Passes.map (Passes.readWhile fun n hn =>
      passes_argumentLoop hplain hline haccess hend n hn) ?_
    rintro _ rfl
    simp [List.map_map, Function.comp_def]
  refine harguments.last ?_
  rintro _ rfl
  have hbody : Passes (optionalBody source below) (tokens.reverse ++ ([head].reverse ++ consumed))
      [] rest (· = none) := by
    refine Passes.nextIs ?_
    rw [List.nil_append, List.reverse_singleton, List.singleton_append, hnot .braceOpen rfl,
      if_neg Bool.false_ne_true]
    exact Passes.pure rfl
  refine Passes.bind (s := []) (t := []) hbody ?_
  rintro _ rfl
  have hpipes : Passes (pipes source below) (tokens.reverse ++ (head :: consumed)) [] rest
      (· = ⟨[], []⟩) := by
    refine Passes.map (Passes.readWhile_stop (hnot .pipe rfl) rfl (P := (· = []))) ?_
    rintro _ rfl
    rfl
  refine Passes.map hpipes ?_
  rintro _ rfl
  exact ⟨_, rfl⟩

end Rules

/-! ### Folding -/

variable (source : Text)

/-- Values behind commas. -/
def commaValues (values : List Expression) : List ArgumentPart :=
  values.flatMap fun e => [.comma, .value e]

/-- **Values around commas become one value**, the first joined with one after another. -/
theorem foldArguments_commaValues (done : List Argument) (first : Expression)
    (more : List Expression) (rest : List ArgumentPart) :
    foldArguments source false done (.value first :: commaValues more ++ rest) =
      foldArguments source false (.value (more.foldl (joinValues source) first) :: done) rest := by
  change foldArguments source false (.value first :: done) (commaValues more ++ rest) = _
  induction more generalizing first with
  | nil => rfl
  | cons e more ih =>
    rw [commaValues, List.flatMap_cons, List.append_assoc, List.foldl_cons]
    exact ih (joinValues source first e)

theorem foldArguments_parameter (done : List Argument) (extent : Extent) (name : Text)
    (rest : List ArgumentPart) :
    foldArguments source false done (.parameter extent name :: rest) =
      foldArguments source false (.parameter extent name :: done) rest := rfl

end DesiredState.Grammar

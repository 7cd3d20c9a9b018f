/-
What a memo remembers.

Letter case disregarded, a memo that has been asked for some names knows what the look-up
says of each, under the spelling that came first, and knows nothing else.  One question
leads from such a memo to the next, and to the look-up only if its name is new.  So
whatever has been asked before, a reply is the one of a new memo, and the look-up is asked
for every name once.
-/
import DesiredState.Proofs.Session
import DesiredState.Proofs.Settling
import DesiredState.Schema.Question
import Mathlib.Data.Finset.Card

namespace DesiredState

/-! ### First spellings

A memo is asked under any spelling of a name and asks further under the first one only.
So the names under which it asks are the first spellings, in their order.
-/

namespace Text

/-- Of names, those that come before all other spellings of them. -/
def firstSpellings (names : List Text) : List Text := names.eraseDupsBy sameName

/-- A further name is one more unless it is a spelling of an earlier one.  The induction is on
their number, since after the first name its other spellings are left out. -/
theorem firstSpellings_concat (names : List Text) (name : Text) :
    firstSpellings (names ++ [name]) =
      firstSpellings names ++ if names.any (sameName · name) then [] else [name] := by
  unfold firstSpellings
  induction h : names.length using Nat.strong_induction_on generalizing names with
  | _ n ih =>
    subst h
    cases names with
    | nil => rfl
    | cons first rest =>
      rw [List.cons_append, List.eraseDupsBy_cons, List.eraseDupsBy_cons, List.filter_append]
      have hshorter : (rest.filter fun other => decide (sameName other first = false)).length <
          (first :: rest).length :=
        Nat.lt_succ_of_le (List.length_filter_le _ _)
      by_cases hname : lower name = lower first
      · simp [sameName, hname]
      · have hother : (rest.filter fun other => decide (sameName other first = false)).any
            (sameName · name) = rest.any (sameName · name) := by
          rw [List.any_filter]
          refine List.any_congr rfl fun other => ?_
          by_cases hsame : lower other = lower name
          · simp [sameName, hsame, hname]
          · simp [sameName, hsame]
        have hfirst : ¬ lower first = lower name := fun he => hname he.symm
        rw [List.filter_cons_of_pos (by simpa [sameName] using hname), List.filter_nil,
          ih _ hshorter _ rfl, hother, List.any_cons, List.cons_append]
        simp [sameName, hfirst]

/-- Every name has a first spelling. -/
theorem any_firstSpellings (names : List Text) (name : Text) :
    (firstSpellings names).any (sameName · name) = names.any (sameName · name) := by
  induction names using List.reverseRecOn with
  | nil => rfl
  | append_singleton names last ih =>
    rw [firstSpellings_concat, List.any_append, List.any_append, ih]
    by_cases hlast : names.any (sameName · last)
    · rw [if_pos hlast, List.any_nil, Bool.or_false]
      -- A spelling of the last name that came before has all its spellings.
      obtain ⟨first, hfirst, hsame⟩ := List.any_eq_true.mp hlast
      have hsame : lower first = lower last := beq_iff_eq.mp hsame
      by_cases hname : sameName last name
      · have hseen : names.any (sameName · name) :=
          List.any_eq_true.mpr ⟨first, hfirst, by rwa [sameName, hsame]⟩
        rw [hseen, Bool.true_or]
      · rw [List.any_cons, List.any_nil, Bool.eq_false_of_not_eq_true hname, Bool.or_false,
          Bool.or_false]
    · rw [if_neg hlast]

/-- There are as many of them as lower-case forms. -/
theorem length_firstSpellings (names : List Text) :
    (firstSpellings names).length = (names.map lower).toFinset.card := by
  induction names using List.reverseRecOn with
  | nil => rfl
  | append_singleton names name ih =>
    rw [firstSpellings_concat, List.length_append, ih, List.map_append, List.toFinset_append,
      List.map_singleton, List.toFinset_cons, List.toFinset_nil, insert_empty_eq,
      Finset.union_comm, ← Finset.insert_eq, Finset.card_insert_eq_ite]
    have hseen : (names.any (sameName · name) = true) ↔ lower name ∈ (names.map lower).toFinset := by
      simp [sameName]
    by_cases h : names.any (sameName · name)
    · rw [if_pos h, if_pos (hseen.mp h)]
      rfl
    · rw [if_neg h, if_neg (mt hseen.mpr h)]
      rfl

end Text

namespace Schema

/-! ### One question -/

namespace Memo

variable {lookup : DeclLookup} {scope : ImportScope} {asked : List Text}

/-- With a look-up that does nothing but answer, a memo gives the reply that it gives by itself. -/
theorem replyBy_pure (m : Memo) (q : Question) :
    replyBy (M := Id) m.lookup m q = m.reply q := by
  have hresolve (name : Text) : resolveBy (M := Id) m.lookup m name = m.resolve name := by
    unfold resolveBy resolve
    cases m.known? name <;> rfl
  unfold replyBy
  rw [hresolve]
  cases q <;> rfl

/-- The memo that knows what the look-up says of the first spellings of names. -/
def recalling (lookup : DeclLookup) (scope : ImportScope) (asked : List Text) : Memo :=
  ⟨lookup, scope,
    (Text.firstSpellings asked).map fun name => ⟨name, Resource.found? lookup scope name⟩⟩

/-- The calls for the first spellings of names. -/
def callsFor (scope : ImportScope) (asked : List Text) : List DeclLookup.Call :=
  (Text.firstSpellings asked).map (⟨·, scope⟩)

/-- A memo knows the names that it has been asked for, in any spelling, and no others. -/
theorem known?_recalling (hcase : lookup.IgnoresCase) (name : Text) :
    (recalling lookup scope asked).known? name =
      if asked.any (Text.sameName · name) then some (Resource.found? lookup scope name)
      else none := by
  rw [← Text.any_firstSpellings]
  unfold known? recalling
  rw [List.find?_map, Option.map_map]
  cases hfind : (Text.firstSpellings asked).find? fun first => Text.sameName first name with
  | none =>
    rw [if_neg]
    · exact congrArg (Option.map _) hfind
    · simpa using hfind
  | some first =>
    have hsame := List.find?_some hfind
    rw [if_pos (List.any_eq_true.mpr ⟨first, List.mem_of_find?_eq_some hfind, hsame⟩)]
    refine (congrArg (Option.map _) hfind).trans (congrArg some ?_)
    change Resource.found? lookup scope first = _
    rw [Resource.found?, Resource.found?, hcase first name scope hsame]

/-- What the memo knows and has called for after one more question. -/
theorem recalling_concat (name : Text) :
    recalling lookup scope (asked ++ [name]) =
      { recalling lookup scope asked with
        answers := (recalling lookup scope asked).answers ++
          if asked.any (Text.sameName · name) then []
          else [⟨name, Resource.found? lookup scope name⟩] } := by
  unfold recalling
  rw [Text.firstSpellings_concat, List.map_append]
  split <;> rfl

theorem callsFor_concat (name : Text) :
    callsFor scope (asked ++ [name]) =
      callsFor scope asked ++ if asked.any (Text.sameName · name) then [] else [⟨name, scope⟩] := by
  unfold callsFor
  rw [Text.firstSpellings_concat, List.map_append]
  split <;> rfl

/-- **One question** is answered by what the look-up says, and the look-up is called if no spelling
of the name has been asked for. -/
theorem replyBy_recalling (hcase : lookup.IgnoresCase) (q : Question) :
    replyBy lookup.noted (recalling lookup scope asked) q (callsFor scope asked) =
      ((q.replyFrom (Resource.found? lookup scope q.subject),
        recalling lookup scope (asked ++ [q.subject])), callsFor scope (asked ++ [q.subject])) := by
  have hresolve : resolveBy lookup.noted (recalling lookup scope asked) q.subject
      (callsFor scope asked) =
      ((Resource.found? lookup scope q.subject, recalling lookup scope (asked ++ [q.subject])),
        callsFor scope (asked ++ [q.subject])) := by
    rw [recalling_concat, callsFor_concat]
    unfold resolveBy
    rw [known?_recalling hcase]
    by_cases hseen : asked.any (Text.sameName · q.subject)
    · rw [if_pos hseen, if_pos hseen, if_pos hseen, List.append_nil, List.append_nil]
      rfl
    · rw [if_neg hseen, if_neg hseen, if_neg hseen]
      rfl
  change (fun found : (Option Resource × Memo) × List DeclLookup.Call =>
    ((q.replyFrom found.1.1, found.1.2), found.2)) (resolveBy lookup.noted _ q.subject _) = _
  rw [hresolve]

/-! ### Any number of questions

Every question is about one name, and the memo after some questions is told by these
names alone.  So the run over the questions is one over names.
-/

/-- **Questions are answered by what the look-up says**, and it is called for the first spellings of
the names in them. -/
theorem repliesBy_recalling (hcase : lookup.IgnoresCase) (questions : List Question) :
    repliesBy lookup.noted (recalling lookup scope asked) questions (callsFor scope asked) =
      ((questions.map fun q => q.replyFrom (Resource.found? lookup scope q.subject),
        recalling lookup scope (asked ++ questions.map (·.subject))),
        callsFor scope (asked ++ questions.map (·.subject))) := by
  induction questions generalizing asked with
  | nil =>
    rw [List.map_nil, List.map_nil, List.append_nil]
    rfl
  | cons q rest ih =>
    have hrest := @ih (asked ++ [q.subject])
    rw [List.append_assoc] at hrest
    change (fun found : (Reply × Memo) × List DeclLookup.Call =>
      (fun more : (List Reply × Memo) × List DeclLookup.Call =>
        ((found.1.1 :: more.1.1, more.1.2), more.2))
        (repliesBy lookup.noted found.1.2 rest found.2)) (replyBy lookup.noted _ q _) = _
    rw [replyBy_recalling hcase]
    simp only [hrest]
    rfl

/-- A new memo replies with what the look-up says. -/
theorem reply_new (q : Question) :
    ((new lookup scope).reply q).1 = q.replyFrom (Resource.found? lookup scope q.subject) := by
  cases q <;> rfl

theorem size_recalling :
    (recalling lookup scope asked).size = (asked.map Text.lower).toFinset.card := by
  rw [size, recalling, List.length_map, Text.length_firstSpellings]

/-- **A memo makes no difference to the replies**, and asks for every name once: each reply is the
one that a new memo gives, the look-up is called for the first spelling of each name, in order,
and the memo has the size of the set of names in lower case. -/
theorem repliesBy_new {lookup : DeclLookup} (hcase : lookup.IgnoresCase) (scope : ImportScope)
    (questions : List Question) :
    ∃ after, repliesBy lookup.noted (new lookup scope) questions [] =
        ((questions.map fun q => ((new lookup scope).reply q).1, after),
          ((questions.map (·.subject)).eraseDupsBy Text.sameName).map (⟨·, scope⟩)) ∧
      after.size = (questions.map fun q => Text.lower q.subject).toFinset.card := by
  refine ⟨recalling lookup scope (questions.map (·.subject)), ?_, ?_⟩
  · have hreplies := @repliesBy_recalling lookup scope [] hcase questions
    simp only [reply_new]
    exact hreplies
  · rw [size_recalling, List.map_map]
    rfl

/-- A catalog of one resource with one property and one class. -/
def siteCatalog : Catalog :=
  [⟨"Site", none, none, none, [⟨"Port", "[Int32]", false, []⟩], [⟨"Binding", []⟩]⟩]

/-- Questions about two names, one of which is none of a resource. -/
def siteQuestions : List Question :=
  [.resource "SITE", .resource "Depot", .classOf "site" "binding", .property "Site" "port",
    .resource "depot"]

theorem repliesBy_new_site : DeclLookup.IgnoresCase siteCatalog.find? ∧
    ∃ (replies : List Reply) (after : Memo) (calls : List DeclLookup.Call),
      repliesBy (DeclLookup.noted siteCatalog.find?) (new siteCatalog.find? .everything)
        siteQuestions [] = ((replies, after), calls) ∧
      replies[2]? = some (.classOf (some ⟨"Binding", []⟩)) ∧
      calls = [⟨"SITE", .everything⟩, ⟨"Depot", .everything⟩] ∧ after.size = 2 := by
  obtain ⟨after, hreplies, hsize⟩ :=
    repliesBy_new (Catalog.find?_ignoresCase siteCatalog) .everything siteQuestions
  exact ⟨Catalog.find?_ignoresCase siteCatalog, _, after, _, hreplies, by decide, by decide, hsize⟩

end Memo

end Schema

end DesiredState

/-
What work in a session gives.

A look-up that disregards letter case answers every question the same way, whether the
memo asks it or remembers.  So of work in a session three things can be said that do
not depend on what happened before: what value it gives, that it leaves a memo which
remembers the right answers, and of which sort the diagnostics are that it adds.
-/
import DesiredState.Catalog.Lookup
import DesiredState.Session

namespace DesiredState

/-- A look-up that disregards letter case. -/
def DeclLookup.IgnoresCase (lookup : DeclLookup) : Prop :=
  ∀ a b scope, Text.sameName a b → lookup a scope = lookup b scope

/-- Catalogs are looked up without regard to letter case. -/
theorem Catalog.find?_ignoresCase (catalog : Catalog) :
    DeclLookup.IgnoresCase catalog.find? := by
  intro a b scope h
  have hlower : Text.lower a = Text.lower b := beq_iff_eq.mp h
  have hanswers : ∀ r : ResourceDecl, r.answersTo a = r.answersTo b := by
    intro r
    simp only [ResourceDecl.answersTo, Text.sameName, hlower]
  unfold Catalog.find?
  simp only [hanswers]

/-- A session whose memo has asked this look-up, in this scope, and remembers its answers. -/
structure Session.Consults (lookup : DeclLookup) (scope : ImportScope) (s : Session) : Prop where
  lookup : s.memo.lookup = lookup
  scope : s.memo.scope = scope
  answers : ∀ a ∈ s.memo.answers, a.schema = s.memo.ask a.name

theorem Session.consults_new (lookup : DeclLookup) (scope : ImportScope) :
    (Session.new (Schema.Memo.new lookup scope)).Consults lookup scope :=
  ⟨rfl, rfl, fun _ h => absurd h List.not_mem_nil⟩

/-- A session in which one more thing has been reported. -/
def Session.reporting (s : Session) (d : Diagnostic) : Session :=
  { s with events := s.events ++ [.diagnosed d] }

/-- The schema of a resource that a look-up finds. -/
def Schema.Resource.found? (lookup : DeclLookup) (scope : ImportScope) (name : Text) :
    Option Schema.Resource :=
  (lookup name scope).map .ofDecl

/-- Work gives a value of some sort, keeps the memo right, and adds diagnostics of some sort. -/
def Interpreting.Gives (lookup : DeclLookup) (scope : ImportScope) (allowed : Diagnostic → Prop)
    (work : Interpreting α) (P : α → Prop) : Prop :=
  ∀ s : Session, s.Consults lookup scope → P (work s).1 ∧ (work s).2.Consults lookup scope ∧
    ∃ more, (work s).2.diagnostics = s.diagnostics ++ more ∧ ∀ d ∈ more, allowed d

namespace Interpreting

variable {lookup : DeclLookup} {scope : ImportScope} {allowed : Diagnostic → Prop}
variable {α β : Type}

theorem Gives.mono {work : Interpreting α} {P Q : α → Prop}
    (h : Gives lookup scope allowed work P) (hPQ : ∀ a, P a → Q a) :
    Gives lookup scope allowed work Q := by
  intro s hs
  obtain ⟨hp, hrest⟩ := h s hs
  exact ⟨hPQ _ hp, hrest⟩

theorem Gives.pure {a : α} {P : α → Prop} (h : P a) :
    Gives lookup scope allowed (Pure.pure a) P :=
  fun _ hs => ⟨h, hs, [], (List.append_nil _).symm, fun _ hd => absurd hd List.not_mem_nil⟩

theorem Gives.bind {work : Interpreting α} {next : α → Interpreting β} {P : α → Prop}
    {Q : β → Prop} (h : Gives lookup scope allowed work P)
    (hnext : ∀ a, P a → Gives lookup scope allowed (next a) Q) :
    Gives lookup scope allowed (work >>= next) Q := by
  intro s hs
  obtain ⟨hp, hconsults, first, hfirst, hallowed⟩ := h s hs
  obtain ⟨hq, hconsults', second, hsecond, hallowed'⟩ := hnext _ hp _ hconsults
  refine ⟨hq, hconsults', first ++ second, ?_, ?_⟩
  · change (next (work s).1 (work s).2).2.diagnostics = _
    rw [hsecond, hfirst, List.append_assoc]
  · intro d hd
    rcases List.mem_append.mp hd with hd | hd
    · exact hallowed d hd
    · exact hallowed' d hd

/-- An event that is no diagnostic. -/
theorem gives_note {e : Event} (h : e.diagnostic? = none) :
    Gives lookup scope allowed (note e) fun _ => True := by
  intro s hs
  refine ⟨trivial, ⟨hs.lookup, hs.scope, hs.answers⟩, [], ?_, fun _ hd => absurd hd List.not_mem_nil⟩
  change (s.events ++ [e]).filterMap Event.diagnostic? = _
  simp [h, Session.diagnostics]

theorem gives_report {cause : Diagnostic.Cause} {subject : Subject} {extent : Option Extent}
    (h : allowed ⟨cause, subject, extent.map (·.range)⟩) :
    Gives lookup scope allowed (report cause subject extent) fun _ => True := by
  intro s hs
  refine ⟨trivial, ⟨hs.lookup, hs.scope, hs.answers⟩, [⟨cause, subject, extent.map (·.range)⟩], ?_, ?_⟩
  · change (s.events ++ [_]).filterMap Event.diagnostic? = _
    rw [List.filterMap_append]
    rfl
  · intro d hd
    rw [List.mem_singleton.mp hd]
    exact h

/-- A memo gives the answer of its look-up, from memory or by asking. -/
theorem resolve_eq (hcase : lookup.IgnoresCase) {s : Session} (hs : s.Consults lookup scope)
    (name : Text) : (s.memo.resolve name).1 = Schema.Resource.found? lookup scope name ∧
      { s with memo := (s.memo.resolve name).2 }.Consults lookup scope := by
  have hask : s.memo.ask name = Schema.Resource.found? lookup scope name := by
    rw [Schema.Memo.ask, hs.lookup, hs.scope, Schema.Resource.found?]
  unfold Schema.Memo.resolve Schema.Memo.known?
  cases hfind : s.memo.answers.find? fun a => Text.sameName a.name name with
  | some a =>
    refine ⟨?_, hs⟩
    have ha := hs.answers a (List.mem_of_find?_eq_some hfind)
    have hname : Text.sameName a.name name := by simpa using List.find?_some hfind
    change a.schema = _
    rw [ha, ← hask, Schema.Memo.ask, Schema.Memo.ask, hs.lookup, hcase a.name name _ hname]
  | none =>
    refine ⟨hask, hs.lookup, hs.scope, ?_⟩
    intro a ha
    rcases List.mem_append.mp ha with ha | ha
    · exact hs.answers a ha
    · rw [List.mem_singleton.mp ha]
      rfl

theorem gives_resolve (hcase : lookup.IgnoresCase) (name : Text) :
    Gives lookup scope allowed (resolve name) (· = Schema.Resource.found? lookup scope name) := by
  intro s hs
  obtain ⟨hvalue, hconsults⟩ := resolve_eq hcase hs name
  exact ⟨hvalue, hconsults, [], (List.append_nil _).symm, fun _ hd => absurd hd List.not_mem_nil⟩

theorem gives_resolveClass (hcase : lookup.IgnoresCase) (owner typeName : Text) :
    Gives lookup scope allowed (resolveClass owner typeName)
      (· = Schema.Resource.classOf? (Schema.Resource.found? lookup scope owner)
        (Text.lower typeName)) := by
  intro s hs
  obtain ⟨hvalue, hconsults⟩ := resolve_eq hcase hs owner
  refine ⟨?_, hconsults, [], (List.append_nil _).symm, fun _ hd => absurd hd List.not_mem_nil⟩
  change Schema.Resource.classOf? (s.memo.resolve owner).1 _ = _
  rw [hvalue]

end Interpreting

end DesiredState

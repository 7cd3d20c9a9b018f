/-
Keys that are repeated in a body.

The entries of a body are bound one after another, and letter case makes no difference
between keys.  So a key that comes again gives its value to the property that is there, and
this keeps the place and the spelling that it has.  What is left in the end can be told from
the entries alone: the first spellings of the keys that are declared, in their order, each with
the value of the last entry that has it.  A key that is not declared leaves one report and
nothing else, and a key that is the name of a parent leaves nothing at all, unless there was
an earlier spelling of it.

The inductions split off the last entry, since it is the last one that decides.
-/
import DesiredState.Proofs.Conversion.Projection
import DesiredState.Proofs.LetterCase.Binding
import DesiredState.Proofs.Schema.Remembering
import Mathlib.Data.List.Pairwise

namespace DesiredState

/-! ### First spellings

Letter case disregarded, keys fall into classes, and each class goes by the spelling
that comes first.
-/

namespace Text

theorem sameName_comm (a b : Text) : sameName a b = sameName b a := by
  rw [sameName, sameName, Bool.beq_comm]

theorem sameName_trans {a b c : Text} (hab : sameName a b) (hbc : sameName b c) :
    sameName a c := beq_iff_eq.mpr ((beq_iff_eq.mp hab).trans (beq_iff_eq.mp hbc))

/-- Names of which none is a spelling of another. -/
def AreApart (names : List Text) : Prop := names.Pairwise fun a b => ¬ sameName a b

/-- Two of them that are spellings of each other are the same one. -/
theorem AreApart.eq {names : List Text} (h : AreApart names) {a b : Text} (ha : a ∈ names)
    (hb : b ∈ names) (hsame : sameName a b) : a = b := by
  have : Std.Symm fun a b => ¬ sameName a b :=
    ⟨fun a b hab => by rwa [sameName_comm] at hab⟩
  by_contra hne
  exact h.forall ha hb hne hsame

theorem areApart_firstSpellings (names : List Text) : AreApart (firstSpellings names) := by
  induction names using List.reverseRecOn with
  | nil => exact .nil
  | append_singleton names last ih =>
    rw [firstSpellings_concat]
    split
    · rwa [List.append_nil]
    · next hnew =>
      rw [← any_firstSpellings] at hnew
      refine List.pairwise_append.mpr ⟨ih, List.pairwise_singleton _ _, ?_⟩
      intro a ha b hb hsame
      rw [List.mem_singleton.mp hb] at hsame
      exact hnew (List.any_eq_true.mpr ⟨a, ha, hsame⟩)

/-- Letter case disregarded, first spellings are the names. -/
theorem mem_lower_firstSpellings {names : List Text} {word : Text} :
    word ∈ (firstSpellings names).map lower ↔ word ∈ names.map lower := by
  induction names using List.reverseRecOn with
  | nil => rfl
  | append_singleton names last ih =>
    rw [firstSpellings_concat, List.map_append, List.map_append, List.mem_append,
      List.mem_append, ih]
    split
    · next hseen =>
      obtain ⟨first, hfirst, hsame⟩ := List.any_eq_true.mp hseen
      constructor
      · rintro (h | h)
        · exact .inl h
        · cases h
      · rintro (h | h)
        · exact .inl h
        · rw [List.mem_singleton.mp h, ← beq_iff_eq.mp hsame]
          exact .inl (List.mem_map_of_mem hfirst)
    · rfl

end Text

/-! ### Fields bound without regard to letter case -/

namespace Fields

variable {α : Type} {fields : Fields α} {key name : Text} {value : α}

/-- A key has a spelling among the names, or is none of them in any spelling. -/
theorem spelling_cases (key : Text) (fields : Fields α) :
    (fields.spelling key ∈ fields.names ∧ Text.sameName (fields.spelling key) key ∧
      fields.names.any (Text.sameName · key)) ∨
      (fields.spelling key = key ∧ ∀ name ∈ fields.names, ¬ Text.sameName name key) := by
  unfold spelling
  cases hfind : fields.names.find? fun name => Text.sameName name key with
  | none => exact .inr ⟨rfl, List.find?_eq_none.mp hfind⟩
  | some found =>
    have hmem := List.mem_of_find?_eq_some hfind
    have hsame : Text.sameName found key :=
      List.find?_some (p := fun name => Text.sameName name key) hfind
    exact .inl ⟨hmem, hsame, List.any_eq_true.mpr ⟨found, hmem, hsame⟩⟩

/-- A key that has a spelling among the names gives its value to it. -/
theorem bind_of_mem (h : fields.spelling key ∈ fields.names) :
    fields.bind key value = fields.set (fields.spelling key) value :=
  if_neg fun hlost => hlost.2 h

/-- A key that is new in every spelling becomes the last name, unless it is that of a parent. -/
theorem names_bind_eq_append (key : Text) (value : α) (fields : Fields α) :
    (fields.bind key value).names = fields.names ++
      if key = parentName ∨ fields.names.any (Text.sameName · key) then [] else [key] := by
  rcases spelling_cases key fields with ⟨hmem, -, hany⟩ | ⟨hkey, hnew⟩
  · rw [bind_of_mem hmem, names_set, if_pos hmem, if_pos (.inr hany), List.append_nil]
  · have hfresh : key ∉ fields.names := fun hmem => hnew key hmem (beq_self_eq_true _)
    have hany : ¬ fields.names.any (Text.sameName · key) := fun h => by
      obtain ⟨name, hname, hsame⟩ := List.any_eq_true.mp h
      exact hnew name hname hsame
    unfold bind
    dsimp only
    rw [hkey]
    by_cases hparent : key = parentName
    · rw [if_pos ⟨hparent, hfresh⟩, if_pos (.inl hparent), List.append_nil]
    · rw [if_neg fun hlost => hparent hlost.1, if_neg (not_or.mpr ⟨hparent, hany⟩), names_set,
        if_neg hfresh]

/-- Other names keep their values. -/
theorem get?_bind_of_not_sameName (h : ¬ Text.sameName name key) :
    (fields.bind key value).get? name = fields.get? name := by
  unfold bind
  dsimp only
  split
  · rfl
  · refine get?_set_of_ne value fields fun hname => h ?_
    rw [hname]
    exact sameName_spelling key fields

/-- The key has its value, in the spelling that it is kept under. -/
theorem get?_bind_of_sameName (hapart : Text.AreApart fields.names)
    (hmem : name ∈ (fields.bind key value).names) (h : Text.sameName name key) :
    (fields.bind key value).get? name = some value := by
  rw [names_bind_eq_append] at hmem
  rcases spelling_cases key fields with ⟨hspelt, hsame, hany⟩ | ⟨hkey, hnew⟩
  · rw [if_pos (.inr hany), List.append_nil] at hmem
    rw [Text.sameName_comm] at hsame
    rw [bind_of_mem hspelt, hapart.eq hmem hspelt (Text.sameName_trans h hsame)]
    exact get?_set_self _ _ _
  · rcases List.mem_append.mp hmem with hmem | hmem
    · exact absurd h (hnew name hmem)
    · split at hmem
      · cases hmem
      · next hheld =>
        obtain rfl := List.mem_singleton.mp hmem
        have hname : ¬ (name = parentName ∧ name ∉ fields.names) := fun hlost =>
          hheld (.inl hlost.1)
        unfold bind
        simp only [hkey, if_neg hname]
        exact get?_set_self _ _ _

end Fields

/-! ### One entry

What an entry comes to does not depend on what has been bound before it, and a key that
is not declared comes to a report.  So binding is a fold, which is taken apart at its
last entry.
-/

/-- Letter case makes no difference to whether a property is found. -/
theorem Schema.Property.find?_of_sameName {a b : Text} (h : Text.sameName a b)
    (properties : List Schema.Property) :
    find? a properties = find? b properties := by
  simp only [find?, Text.sameName, beq_iff_eq.mp h]

namespace Binding

/-- Whether a key may be bound: without a schema, every key. -/
def accepts (schema : Option (List Schema.Property)) (key : Text) : Bool :=
  schema.all fun declared => (Schema.Property.find? key declared).isSome

theorem accepts_of_sameName {schema : Option (List Schema.Property)} {a b : Text}
    (h : Text.sameName a b) : accepts schema a = accepts schema b := by
  unfold accepts
  simp only [Schema.Property.find?_of_sameName h]

/-- The report that a key is not declared. -/
def undeclared (subject : Subject) (declaredBy : Text) (e : Entry) : Diagnostic :=
  { cause := .unknownProperty e.key declaredBy
    subject := { subject with propertyName := some e.key }
    range := some (Extent.range ⟨e.key, e.keyLocation⟩) }

section Entries

variable (c : Context) (subject : Subject) (declaredBy : Text)
variable (schema : Option (List Schema.Property))

/-- What one entry comes to by itself: a value for its key, or a report that the key is not
declared. -/
def entry (e : Entry) : Interpreting (Option Value) :=
  match schema with
  | none => pure (some (.raw e.value.extent.text))
  | some declared =>
    match Schema.Property.find? e.key declared with
    | none => do
      Interpreting.note (.diagnosed (undeclared subject declaredBy e))
      pure none
    | some property => do
      let read ← statement c { subject with propertyName := some e.key } property.type e.value
      pure (some read)

/-- An entry has a value if and only if its key may be bound. -/
theorem isSome_entry (e : Entry) (s : Session) :
    (entry c subject declaredBy schema e s).1.isSome = accepts schema e.key := by
  unfold entry accepts
  cases schema with
  | none => rfl
  | some declared =>
    dsimp only [Option.all_some]
    cases Schema.Property.find? e.key declared with
    | none => rfl
    | some property => rfl

/-- A key that may not be bound is reported. -/
theorem entry_of_not_accepts {e : Entry} (h : ¬ accepts schema e.key) (s : Session) :
    entry c subject declaredBy schema e s = (none, s.reporting (undeclared subject declaredBy e)) := by
  unfold accepts at h
  unfold entry
  cases schema with
  | none => exact absurd rfl h
  | some declared =>
    dsimp only [Option.all_some] at h ⊢
    cases hfind : Schema.Property.find? e.key declared with
    | none => rfl
    | some property =>
      rw [hfind] at h
      exact absurd rfl h

/-- The properties after an entry that came to something or to nothing. -/
def put (done : Fields Value) (key : Text) (read : Option Value) : Fields Value :=
  read.elim done fun x => done.bind key x

/-- Entries are what the first one comes to, and then the others. -/
theorem entries_cons (done : Fields Value) (e : Entry) (rest : List Entry) (s : Session) :
    entries c subject declaredBy schema done (e :: rest) s =
      entries c subject declaredBy schema (put done e.key (entry c subject declaredBy schema e s).1)
        rest (entry c subject declaredBy schema e s).2 := by
  obtain ⟨key, place, value⟩ := e
  cases schema with
  | none => rw [entries]; rfl
  | some declared =>
    rw [entries]
    unfold entry
    cases hfind : Schema.Property.find? key declared with
    | none => simp only [hfind]; rfl
    | some property => simp only [hfind]; rfl

theorem entries_append (done : Fields Value) (front back : List Entry) (s : Session) :
    entries c subject declaredBy schema done (front ++ back) s =
      entries c subject declaredBy schema (entries c subject declaredBy schema done front s).1 back
        (entries c subject declaredBy schema done front s).2 := by
  induction front generalizing done s with
  | nil => rw [entries]; rfl
  | cons e rest ih => rw [List.cons_append, entries_cons, entries_cons, ih]

/-- The session in which the next entry is read. -/
def after (front : List Entry) (s : Session) : Session :=
  (entries c subject declaredBy schema [] front s).2

/-- The properties that entries give. -/
def given (front : List Entry) (s : Session) : Fields Value :=
  (entries c subject declaredBy schema [] front s).1

theorem entries_concat (front : List Entry) (e : Entry) (s : Session) :
    entries c subject declaredBy schema [] (front ++ [e]) s =
      (put (given c subject declaredBy schema front s) e.key
        (entry c subject declaredBy schema e (after c subject declaredBy schema front s)).1,
        (entry c subject declaredBy schema e (after c subject declaredBy schema front s)).2) := by
  rw [entries_append, entries_cons, entries]
  rfl

/-- One more entry adds the report that its key is not declared, or what its reading does. -/
theorem after_concat (front : List Entry) (e : Entry) (s : Session) :
    after c subject declaredBy schema (front ++ [e]) s =
      if accepts schema e.key then
        (entry c subject declaredBy schema e (after c subject declaredBy schema front s)).2
      else (after c subject declaredBy schema front s).reporting
        (undeclared subject declaredBy e) := by
  have hentry : after c subject declaredBy schema (front ++ [e]) s =
      (entry c subject declaredBy schema e (after c subject declaredBy schema front s)).2 :=
    congrArg Prod.snd (entries_concat c subject declaredBy schema front e s)
  split
  · exact hentry
  · next hrejects =>
    rw [hentry, entry_of_not_accepts c subject declaredBy schema hrejects]

/-! ### All entries -/

/-- The keys that may be bound and that a map holds, as they stand in a body. -/
def heldKeys (list : List Entry) : List Text :=
  (list.map (·.key)).filter fun key => accepts schema key && key != Fields.parentName

theorem heldKeys_concat (front : List Entry) (e : Entry) :
    heldKeys schema (front ++ [e]) = heldKeys schema front ++
      if accepts schema e.key && e.key != Fields.parentName then [e.key] else [] := by
  unfold heldKeys
  rw [List.map_append, List.filter_append, List.map_cons, List.map_nil, List.filter_cons,
    List.filter_nil]

theorem mem_lower_heldKeys {list : List Entry} {word : Text} :
    word ∈ (heldKeys schema list).map Text.lower ↔
      ∃ e ∈ list, accepts schema e.key ∧ e.key ≠ Fields.parentName ∧ Text.lower e.key = word := by
  unfold heldKeys
  simp only [List.mem_map, List.mem_filter, Bool.and_eq_true, bne_iff_ne]
  constructor
  · rintro ⟨_, ⟨⟨e, he, rfl⟩, haccepts, hheld⟩, hword⟩
    exact ⟨e, he, haccepts, hheld, hword⟩
  · rintro ⟨e, he, haccepts, hheld, hword⟩
    exact ⟨e.key, ⟨⟨e, he, rfl⟩, haccepts, hheld⟩, hword⟩

/-- Properties are named by the first spellings of the keys that are held. -/
theorem names_given (list : List Entry) (s : Session) :
    (given c subject declaredBy schema list s).names =
      Text.firstSpellings (heldKeys schema list) := by
  induction list using List.reverseRecOn with
  | nil => unfold given; rw [entries]; rfl
  | append_singleton front e ih =>
    have hsome := isSome_entry c subject declaredBy schema e
      (after c subject declaredBy schema front s)
    unfold given at ih ⊢
    rw [entries_concat, heldKeys_concat, ← hsome]
    unfold put
    cases (entry c subject declaredBy schema e (after c subject declaredBy schema front s)).1 with
    | none =>
      rw [Option.isSome_none, Bool.false_and, if_neg Bool.false_ne_true, List.append_nil]
      exact ih
    | some x =>
      rw [Option.isSome_some, Bool.true_and, Option.elim_some, Fields.names_bind_eq_append]
      unfold given
      rw [ih]
      by_cases hparent : e.key = Fields.parentName
      · simp [hparent]
      · simp only [hparent, bne_iff_ne, ne_eq, not_false_eq_true, if_true, false_or]
        rw [Text.firstSpellings_concat, Text.any_firstSpellings]

/-- The last entry with a key, and the value that it came to where it stood. -/
def IsLastWith (list : List Entry) (s : Session) (name : Text) (x : Value) : Prop :=
  ∃ front e back, list = front ++ e :: back ∧ Text.sameName e.key name ∧
    (∀ later ∈ back, ¬ Text.sameName later.key name) ∧
    (entry c subject declaredBy schema e (after c subject declaredBy schema front s)).1 = some x

/-- An entry with another key does not come last. -/
theorem IsLastWith.concat {list : List Entry} {s : Session} {name : Text} {x : Value}
    (h : IsLastWith c subject declaredBy schema list s name x) {e : Entry}
    (he : ¬ Text.sameName e.key name) :
    IsLastWith c subject declaredBy schema (list ++ [e]) s name x := by
  obtain ⟨front, last, back, rfl, hname, hback, hx⟩ := h
  refine ⟨front, last, back ++ [e], by simp, hname, fun later hlater => ?_, hx⟩
  rcases List.mem_append.mp hlater with hlater | hlater
  · exact hback later hlater
  · rwa [List.mem_singleton.mp hlater]

/-- Every property has the value of the last entry with its name. -/
theorem get?_given (list : List Entry) (s : Session) {name : Text}
    (hname : name ∈ (given c subject declaredBy schema list s).names) :
    ∃ x, (given c subject declaredBy schema list s).get? name = some x ∧
      IsLastWith c subject declaredBy schema list s name x := by
  induction list using List.reverseRecOn generalizing name with
  | nil =>
    rw [names_given] at hname
    cases hname
  | append_singleton front e ih =>
    have hapart : Text.AreApart (given c subject declaredBy schema front s).names := by
      rw [names_given]
      exact Text.areApart_firstSpellings _
    have hsome := isSome_entry c subject declaredBy schema e
      (after c subject declaredBy schema front s)
    have hgiven : given c subject declaredBy schema (front ++ [e]) s =
        put (given c subject declaredBy schema front s) e.key
          (entry c subject declaredBy schema e (after c subject declaredBy schema front s)).1 :=
      congrArg Prod.fst (entries_concat c subject declaredBy schema front e s)
    rw [hgiven] at hname ⊢
    unfold put at hname ⊢
    cases hread : (entry c subject declaredBy schema e
        (after c subject declaredBy schema front s)).1 with
    | none =>
      rw [hread] at hname hsome
      obtain ⟨x, hx, hlast⟩ := ih hname
      refine ⟨x, hx, hlast.concat c subject declaredBy schema fun hsame => ?_⟩
      -- The earlier entry was accepted, so this one would be too.
      obtain ⟨before, earlier, -, -, hearlier, -, hvalue⟩ := hlast
      have haccepts := isSome_entry c subject declaredBy schema earlier
        (after c subject declaredBy schema before s)
      rw [hvalue, accepts_of_sameName hearlier, ← accepts_of_sameName hsame, ← hsome] at haccepts
      cases haccepts
    | some x =>
      rw [hread] at hname
      by_cases hsame : Text.sameName e.key name
      · refine ⟨x, ?_, front, e, [], rfl, hsame, fun _ h => absurd h List.not_mem_nil, hread⟩
        exact Fields.get?_bind_of_sameName hapart hname (by rwa [Text.sameName_comm])
      · rw [Text.sameName_comm] at hsame
        have hmem : name ∈ (given c subject declaredBy schema front s).names := by
          rcases Fields.mem_names_bind hname with h | rfl
          · exact h
          · exact absurd (beq_self_eq_true _) hsame
        obtain ⟨y, hy, hlast⟩ := ih hmem
        refine ⟨y, (Fields.get?_bind_of_not_sameName hsame).trans hy, ?_⟩
        rw [Text.sameName_comm] at hsame
        exact hlast.concat c subject declaredBy schema hsame

/-- **Repeated keys are merged.**  No property is a spelling of another one.  Letter case disregarded,
the names are the keys that may be bound, but for the name of a parent, in the order and the
spelling in which these come first, and each has the value of the last entry with that key.  Entry
after entry, a key that is not declared adds its report to the session and nothing else, and any
other key adds what the reading of its value does. -/
theorem properties_merged (body : Table) (s : Session) :
    let result := (properties c subject declaredBy schema body s).1
    let after := after c subject declaredBy schema
    result.names.Pairwise (fun a b => ¬ Text.sameName a b) ∧
    (∀ word, word ∈ result.names.map Text.lower ↔
      ∃ e ∈ body.entries, accepts schema e.key ∧ e.key ≠ Fields.parentName ∧
        Text.lower e.key = word) ∧
    result.names = Text.firstSpellings (heldKeys schema body.entries) ∧
    (∀ name ∈ result.names, ∃ x, result.get? name = some x ∧
      IsLastWith c subject declaredBy schema body.entries s name x) ∧
    (properties c subject declaredBy schema body s).2 = after body.entries s ∧ after [] s = s ∧
    ∀ front e back, body.entries = front ++ e :: back →
      after (front ++ [e]) s =
        if accepts schema e.key then
          (entry c subject declaredBy schema e (after front s)).2
        else (after front s).reporting (undeclared subject declaredBy e) := by
  have hnames := names_given c subject declaredBy schema body.entries s
  refine ⟨?_, fun word => ?_, hnames, fun name hname =>
    get?_given c subject declaredBy schema body.entries s hname, rfl, ?_, fun front e _ _ =>
      after_concat c subject declaredBy schema front e s⟩
  · change Text.AreApart (given c subject declaredBy schema body.entries s).names
    rw [hnames]
    exact Text.areApart_firstSpellings _
  · change word ∈ (given c subject declaredBy schema body.entries s).names.map Text.lower ↔ _
    rw [hnames, Text.mem_lower_firstSpellings, mem_lower_heldKeys]
  · unfold Binding.after
    rw [entries]
    rfl

end Entries

/-- Not every entry that may be bound gives a property: without a schema every key may. -/
theorem properties_merged_parented :
    ¬ ∀ (source : Text) (script : Script), Script.parse source = .ok script →
      ∀ b ∈ Statement.blocksOf script.statements,
        ∀ (c : Context) (subject : Subject) (s : Session) (word : Text),
          word ∈ (properties c subject b.keyword none b.body s).1.names.map Text.lower ↔
            ∃ e ∈ b.body.entries, accepts none e.key ∧ Text.lower e.key = word := by
  intro h
  have hlost : (match Script.parse "File f \x7b __proto__ = 1 \x7d" with
      | .ok script => (Statement.blocksOf script.statements).any fun b =>
          b.body.entries.map (·.key) == [Fields.parentName] &&
            (properties ⟨[], true⟩ ⟨none, none, none⟩ b.keyword none b.body
              (.new (.new (Catalog.find? []) .everything))).1.names == []
      | .error _ => false) = true := by
    decide +kernel
  split at hlost
  · next script hparse =>
    obtain ⟨b, hb, hkeys⟩ := List.any_eq_true.mp hlost
    obtain ⟨hkeys, hnames⟩ := Bool.and_eq_true_iff.mp hkeys
    have hmem : Fields.parentName ∈ b.body.entries.map (·.key) := by
      rw [eq_of_beq hkeys]
      exact List.mem_singleton_self _
    obtain ⟨e, he, hkey⟩ := List.mem_map.mp hmem
    have hword := (h _ script hparse b hb ⟨[], true⟩ ⟨none, none, none⟩
      (.new (.new (Catalog.find? []) .everything)) e.key.lower).mpr ⟨e, he, rfl, rfl⟩
    rw [eq_of_beq hnames] at hword
    exact List.not_mem_nil hword
  · cases hlost

end Binding

end DesiredState

/-
Entries without line feeds.

If no text in the entries contains a line feed, then a value without blocks, a name and a
comment are rendered on one line.  Line feeds come from the layout of blocks alone.
-/
import DesiredState.Proofs.Number
import DesiredState.Proofs.Rendering.Parts

namespace DesiredState

namespace Text

/-! ### Lines -/

/-- A text without a line feed. -/
def IsLine (t : Text) : Prop := '\n' ∉ t

instance (t : Text) : Decidable t.IsLine := inferInstanceAs (Decidable ('\n' ∉ t))

theorem isLine_nil : IsLine [] := List.not_mem_nil

theorem isLine_cons {c : Char} {t : Text} : IsLine (c :: t) ↔ '\n' ≠ c ∧ IsLine t := by
  unfold IsLine
  rw [List.mem_cons, not_or]

theorem isLine_append {s t : Text} : IsLine (s ++ t) ↔ IsLine s ∧ IsLine t := by
  unfold IsLine
  rw [List.mem_append, not_or]

theorem IsLine.subset {s t : Text} (h : IsLine t) (hs : s ⊆ t) : IsLine s := fun hm => h (hs hm)

theorem isLine_spaces (n : Nat) : IsLine (spaces n) := fun hm =>
  absurd (List.eq_of_mem_replicate hm) (by decide)

theorem isLine_of_isDigit {t : Text} (h : ∀ c ∈ t, c.isDigit) : IsLine t := fun hm =>
  absurd (h _ hm) (by decide)

theorem isLine_ofNat (n : Nat) : IsLine (ofNat n) :=
  isLine_of_isDigit fun _ hc => Binary64.isDigit_of_mem_ofNat hc

theorem isLine_join {separator : Text} (hseparator : IsLine separator) {parts : List Text}
    (h : ∀ t ∈ parts, IsLine t) : IsLine (join separator parts) := by
  induction parts with
  | nil => exact isLine_nil
  | cons t rest ih =>
    have hrest := ih fun u hu => h u (List.mem_cons_of_mem t hu)
    have ht := h t List.mem_cons_self
    cases rest with
    | nil => rwa [join, List.intercalate_singleton]
    | cons u rest =>
      rw [join, List.intercalate_cons_cons]
      exact isLine_append.mpr ⟨isLine_append.mpr ⟨ht, hseparator⟩, hrest⟩

theorem isLine_escapeDouble {t : Text} (h : IsLine t) : IsLine (escapeDouble t) := by
  fun_induction escapeDouble t with
  | case1 => exact isLine_nil
  | case2 rest ih | case3 rest ih =>
    have hrest := ih (isLine_cons.mp h).2
    exact isLine_cons.mpr ⟨by decide, isLine_cons.mpr ⟨by decide, hrest⟩⟩
  | case4 c rest _ _ ih => exact isLine_cons.mpr ⟨(isLine_cons.mp h).1, ih (isLine_cons.mp h).2⟩

theorem IsLine.trim {t : Text} (h : IsLine t) : IsLine (Text.trim t) := by
  refine h.subset fun c hc => ?_
  rw [Text.trim, trimEnd, List.mem_reverse] at hc
  exact (List.dropWhile_sublist _).subset
    (List.mem_reverse.mp ((List.dropWhile_sublist _).subset hc))

end Text

open Text

/-! ### Numbers -/

theorem isLine_layOut {digits : Text} (h : IsLine digits) (exponent : Int) :
    IsLine (Binary64.layOut digits exponent) := by
  have hzeros (n : Nat) : IsLine (List.replicate n '0') := fun hm =>
    absurd (List.eq_of_mem_replicate hm) (by decide)
  have hsub {s : Text} (hs : s.Sublist digits) : IsLine s := h.subset hs.subset
  unfold Binary64.layOut
  dsimp only
  split
  · exact isLine_append.mpr ⟨h, hzeros _⟩
  · split
    · exact isLine_append.mpr ⟨hsub (List.take_sublist ..),
        isLine_cons.mpr ⟨by decide, hsub (List.drop_sublist ..)⟩⟩
    · split
      · exact isLine_cons.mpr ⟨by decide, isLine_cons.mpr ⟨by decide,
          isLine_append.mpr ⟨hzeros _, h⟩⟩⟩
      · refine isLine_append.mpr ⟨?_, isLine_cons.mpr ⟨by decide,
          isLine_cons.mpr ⟨by split <;> decide, isLine_ofNat _⟩⟩⟩
        split
        · have hdigits := isLine_cons.mp h
          exact isLine_cons.mpr ⟨hdigits.1, isLine_cons.mpr ⟨by decide, hdigits.2⟩⟩
        · exact h

theorem isLine_toText (x : Binary64) : IsLine x.toText := by
  have hsign (negative : Bool) : IsLine (if negative then ['-'] else []) := by
    cases negative <;> decide
  unfold Binary64.toText
  split
  · unfold Binary64.textOfInt
    split
    · exact isLine_cons.mpr ⟨by decide, isLine_ofNat _⟩
    · exact isLine_ofNat _
  · split
    · decide
    · exact isLine_append.mpr ⟨hsign _, by decide⟩
    · exact isLine_append.mpr ⟨hsign _, isLine_layOut (isLine_ofNat _) _⟩

/-! ### Parts of entries -/

/-- No text and no name in a part contains a line feed, at any depth. -/
inductive Json.IsLined : Json → Prop where
  | null : IsLined .null
  | bool (value : Bool) : IsLined (.bool value)
  | number (value : Binary64) : IsLined (.number value)
  | string {text : Text} (h : text.IsLine) : IsLined (.string text)
  | array {items : List Json} (h : ∀ part ∈ items, IsLined part) : IsLined (.array items)
  | object {members : Fields Json} (names : ∀ p ∈ members, p.1.IsLine)
      (parts : ∀ p ∈ members, IsLined p.2) : IsLined (.object members)

namespace Json

@[simp] theorem isLined_number (x : Binary64) : (number x).IsLined := .number x

@[simp] theorem isLined_string {t : Text} : (string t).IsLined ↔ t.IsLine := by
  refine ⟨fun h => ?_, .string⟩
  cases h with
  | string h => exact h

@[simp] theorem isLined_array {items : List Json} :
    (array items).IsLined ↔ ∀ part ∈ items, part.IsLined := by
  refine ⟨fun h => ?_, .array⟩
  cases h with
  | array h => exact h

@[simp] theorem isLined_object {members : Fields Json} :
    (object members).IsLined ↔ ∀ p ∈ members, p.1.IsLine ∧ p.2.IsLined := by
  refine ⟨fun h => ?_, fun h => .object (fun p hp => (h p hp).1) fun p hp => (h p hp).2⟩
  cases h with
  | object names parts => exact fun p hp => ⟨names p hp, parts p hp⟩

end Json

/-- The items of an array, or the values of the members of an object. -/
def Json.parts : Json → List Json
  | array items => items
  | object members => members.map (·.2)
  | _ => []

/-- Items are shown on one line if each of them is. -/
theorem isLine_displayItems {items : List Json} (h : ∀ part ∈ items, IsLine part.displayItem) :
    IsLine (Json.displayItems items) := by
  induction items with
  | nil => exact isLine_nil
  | cons item rest ih =>
    have hitem := h item List.mem_cons_self
    cases rest with
    | nil => exact hitem
    | cons other rest =>
      rw [Render.displayItems_cons item (List.cons_ne_nil other rest)]
      exact isLine_append.mpr ⟨hitem, isLine_cons.mpr ⟨by decide,
        ih fun part hp => h part (List.mem_cons_of_mem item hp)⟩⟩

theorem Json.IsLined.displays {part : Json} (h : part.IsLined) :
    IsLine part.display ∧ IsLine part.displayItem := by
  induction h with
  | null => exact ⟨by decide, by decide⟩
  | bool value => cases value <;> exact ⟨by decide, by decide⟩
  | number value => exact ⟨isLine_toText value, isLine_toText value⟩
  | string h => exact ⟨h, h⟩
  | array _ ih =>
    have hitems := isLine_displayItems fun part hp => (ih part hp).2
    exact ⟨hitems, hitems⟩
  | object =>
    have hmark : IsLine "[object Object]" := by decide
    exact ⟨hmark, hmark⟩

/-- What is known of a part that may be missing. -/
def Json.LinedIfGiven (part : Option Json) : Prop := ∀ j, part = some j → j.IsLined

theorem isLine_displayOrMissing {part : Option Json} (h : Json.LinedIfGiven part) :
    IsLine (Json.displayOrMissing part) := by
  cases part with
  | none => decide
  | some j => exact (h j rfl).displays.1

theorem Json.IsLined.of_get? {members : Fields Json} {name : Text} {part : Json}
    (h : (Json.object members).IsLined) (hget : members.get? name = some part) : part.IsLined :=
  (Json.isLined_object.mp h _ (Fields.mem_of_get? hget)).2

namespace Render

/-! ### Rendering on one line

What is rendered is joined from texts that are quoted or taken over as they are.  No
step puts a line feed between them, so that there is one only where a text has one.
-/

/-- What comes out, if anything does, has a property. -/
def Yields {α : Type} (P : α → Prop) (out : Except RenderFailure α) : Prop :=
  ∀ a, out = .ok a → P a

variable {α β : Type} {P : α → Prop} {Q : β → Prop}

theorem Yields.ok {a : α} (h : P a) : Yields P (.ok a) := by
  rintro _ ⟨⟩
  exact h

theorem Yields.error (e : RenderFailure) : Yields P (.error e) := nofun

theorem Yields.map {out : Except RenderFailure α} (h : Yields P out) {f : α → β}
    (hf : ∀ a, P a → Q (f a)) : Yields Q (out.map f) := by
  cases out with
  | error e => exact .error e
  | ok a => exact .ok (hf a (h a rfl))

theorem Yields.bind {out : Except RenderFailure α} (h : Yields P out)
    {next : α → Except RenderFailure β} (hnext : ∀ a, P a → Yields Q (next a)) :
    Yields Q (out >>= next) := by
  cases out with
  | error e => exact .error e
  | ok a => exact hnext a (h a rfl)

theorem isLine_quoted {t : Text} (h : IsLine t) : IsLine (quoted t) :=
  isLine_append.mpr ⟨isLine_cons.mpr ⟨by decide, isLine_escapeDouble h⟩, by decide⟩

theorem isLine_writeString {t : Text} (h : IsLine t) : IsLine (writeString t) := by
  unfold writeString
  split
  · exact h
  · split
    · refine h.subset fun c hc => ?_
      rw [dropLastQuotes, List.mem_reverse] at hc
      exact List.mem_reverse.mp ((List.dropWhile_sublist _).subset hc)
    · exact isLine_quoted h

theorem isLine_comment {t : Text} (h : IsLine t) : IsLine (comment t) := by
  unfold comment
  dsimp only
  split
  · exact h.trim
  · exact isLine_append.mpr ⟨by decide, h.trim⟩

theorem string_isLine (path : Path) {part : Option Json} (h : Json.LinedIfGiven part) :
    Yields IsLine (string path part) := by
  unfold string
  split
  · exact .ok (isLine_writeString (Json.isLined_string.mp (h _ rfl)))
  · exact .error _

theorem integer_isLine (path : Path) (part : Option Json) : Yields IsLine (integer path part) := by
  unfold integer
  split
  · split
    · exact .ok (isLine_toText _)
    · exact .error _
  · exact .error _

theorem boolean_isLine (path : Path) (part : Option Json) : Yields IsLine (boolean path part) := by
  unfold boolean
  split
  · exact .ok (by decide)
  · exact .ok (by decide)
  · exact .error _

theorem itemsFrom_isLine {item : Path → Option Json → Output} {items : List Json}
    (h : ∀ part ∈ items, ∀ path, Yields IsLine (item path (some part))) (path : Path) (n : Nat) :
    Yields (fun texts => ∀ t ∈ texts, IsLine t) (itemsFrom item path n items) := by
  induction items generalizing n with
  | nil => exact .ok fun t ht => absurd ht List.not_mem_nil
  | cons part rest ih =>
    refine (h part List.mem_cons_self _).bind fun first hfirst =>
      (ih (fun j hj => h j (List.mem_cons_of_mem part hj)) (n + 1)).bind fun more hmore => .ok ?_
    exact List.forall_mem_cons.mpr ⟨hfirst, hmore⟩

theorem array_isLine {item : Path → Option Json → Output}
    (hitem : ∀ path part, Json.LinedIfGiven part → Yields IsLine (item path part)) (path : Path)
    {part : Option Json} (h : Json.LinedIfGiven part) : Yields IsLine (array item path part) := by
  unfold array
  split
  · next items =>
    have hitems := Json.isLined_array.mp (h _ rfl)
    refine (itemsFrom_isLine (fun j hj path => hitem path _ ?_) path 0).map fun texts htexts => ?_
    · rintro _ ⟨⟩
      exact hitems j hj
    · exact isLine_append.mpr ⟨isLine_append.mpr ⟨by decide, isLine_join (by decide) htexts⟩,
        by decide⟩
  · exact .error _

/-- A value without blocks is rendered on one line. -/
theorem flatValue_isLine (path : Path) (kind : ValueKind) {members : Fields Json}
    (h : (Json.object members).IsLined) : Yields IsLine (flatValue path kind members) := by
  have hcontent (name : Text) : Json.LinedIfGiven (members.get? name) := fun _ => h.of_get?
  cases kind with
  | string => exact string_isLine path (hcontent _)
  | integer => exact integer_isLine path _
  | boolean => exact boolean_isLine path _
  | stringArray => exact array_isLine (fun path _ => string_isLine path) path (hcontent _)
  | integerArray =>
    exact array_isLine (fun path part _ => integer_isLine path part) path (hcontent _)
  | raw =>
    have htext := hcontent "text"
    unfold flatValue
    dsimp only
    generalize members.get? "text" = part at htext ⊢
    unfold raw
    split
    · exact .ok (Json.isLined_string.mp (htext _ rfl))
    · exact .error _
  | subObject | subObjectArray => exact .error _

/-- A name is rendered on one line, and starts with what is not blank. -/
theorem instanceName_isLine {part : Option Json} (h : Json.LinedIfGiven part) :
    Yields (fun t => IsLine t ∧ ∃ c rest, t = c :: rest ∧ isBlank c = false)
      (instanceName part) := by
  unfold instanceName
  dsimp only
  split
  · next href =>
    refine .ok ⟨isLine_displayOrMissing h, ?_⟩
    generalize Json.displayOrMissing part = shown at href
    unfold isReference at href
    split at href
    · exact ⟨_, _, rfl, by decide⟩
    · cases href
  · split
    · exact .ok ⟨isLine_quoted (Json.isLined_string.mp (h _ rfl)), _, _, rfl, by decide⟩
    · exact .error _

/-- A comment is rendered on one line. -/
theorem metadata_isLine (path : Path) {part : Json} (h : part.IsLined) :
    Yields IsLine (metadata path part) := by
  unfold metadata
  split
  · split
    · split
      · next t hvalue =>
        cases part with
        | object members =>
          exact .ok (isLine_comment (Json.isLined_string.mp (h.of_get? hvalue)))
        | _ => cases hvalue
      · exact .error _
    · exact .error _
  · exact .error _

end Render

end DesiredState

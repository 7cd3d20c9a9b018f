/-
What is written is laid out.

Rendering goes over the encoding of a value and puts texts together; the layout of the
sorted value spells out the same text.  Where the properties of an instance carry
comments, these are the notes of the layout, and its lines are the other properties.
-/
import DesiredState.Configuration.Exchange
import DesiredState.Proofs.Layout.Spelled

namespace DesiredState

namespace Layout

open Piece

/-! ### Encodings -/

theorem ofName?_name (kind : ValueKind) : ValueKind.ofName? kind.name = some kind := by
  cases kind <;> rfl

theorem kindOf?_encodeAs (kind : ValueKind) (member : Text) (content : Json) :
    Render.kindOf? [("kind", .string kind.name), (member, content)] = some kind := by
  unfold Render.kindOf?
  rw [Fields.get?, if_pos rfl]
  exact ofName?_name kind

theorem encodeAll_eq (items : List SubObject) :
    SubObject.encodeAll items = items.map SubObject.toJson := by
  induction items with
  | nil => rfl
  | cons b rest ih => rw [SubObject.encodeAll, ih]; rfl

theorem opensBlock_toJson (x : Value) : Render.opensBlock x.toJson = !x.isFlat := by
  cases x <;> rfl

/-! ### Values without blocks

Rendering works on encodings and checks each of them again.  What is encoded from a
value passes these checks, so that only the texts are left to compare.
-/

/-- A value without blocks whose numbers are integers, as those of instances are. -/
def HasIntegers : Value → Prop
  | .integer x => x.isInteger
  | .integerArray numbers => ∀ x ∈ numbers, x.isInteger
  | _ => True

/-- Items that are rendered one by one. -/
theorem itemsFrom_eq (render : Path → Option Json → Render.Output)
    (path : Path) (n : Nat) {items : List α} (encode : α → Json) (text : α → Text)
    (h : ∀ a ∈ items, ∀ path, render path (some (encode a)) = .ok (text a)) :
    Render.itemsFrom render path n (items.map encode) = .ok (items.map text) := by
  induction items generalizing n with
  | nil => rfl
  | cons a rest ih =>
    rw [List.map_cons, Render.itemsFrom, h a List.mem_cons_self,
      ih (n + 1) fun b hb => h b (List.mem_cons_of_mem a hb)]
    rfl

theorem array_eq (render : Path → Option Json → Render.Output) (path : Path) {items : List α}
    (encode : α → Json) (text : α → Text)
    (h : ∀ a ∈ items, ∀ path, render path (some (encode a)) = .ok (text a)) :
    Render.array render path (some (.array (items.map encode))) =
      .ok (arrayText (items.map text)) := by
  unfold Render.array
  simp only []
  rw [itemsFrom_eq render path 0 encode text h]
  rfl

theorem integer_eq {x : Binary64} (h : x.isInteger) (path : Path) :
    Render.integer path (some (.number x)) = .ok x.toText := by
  unfold Render.integer
  simp only []
  rw [if_pos h]

/-- A value without blocks is rendered as its text. -/
theorem rendered_flat {x : Value} (hflat : x.isFlat) (h : HasIntegers x) (level : Render.Level)
    (path : Path) : Render.value level path x.toJson = .ok (flatText x) := by
  cases x with
  | subObject b => exact absurd hflat Bool.false_ne_true
  | subObjectArray items => exact absurd hflat Bool.false_ne_true
  | string t => rfl
  | raw t => rfl
  | boolean value => cases value <;> rfl
  | integer x =>
    rw [Value.toJson, Value.encodeAs, Render.value, kindOf?_encodeAs]
    exact integer_eq h path
  | stringArray texts =>
    rw [Value.toJson, Value.encodeAs, Render.value, kindOf?_encodeAs]
    exact array_eq _ path _ _ fun a _ _ => rfl
  | integerArray numbers =>
    rw [Value.toJson, Value.encodeAs, Render.value, kindOf?_encodeAs]
    exact array_eq _ path _ _ fun a ha path => integer_eq (h a ha) path

/-! ### Lines

Comments are put on a line after the line has been rendered, by a search for its end.
As a layout has them in their place from the start, it has to be known where the first
line ends.
-/

theorem get?_encodeFields (name : Text) (fields : List (Text × Value)) :
    Fields.get? name (Value.encodeFields fields) = (Fields.get? name fields).map Value.toJson := by
  induction fields with
  | nil => rfl
  | cons p rest ih =>
    rw [Value.encodeFields, Fields.get?, Fields.get?, ih]
    split <;> rfl

/-- The notes behind the values of an instance are the texts of its comments. -/
def NotesOf (fields : Fields Value) (notes : Text → List Piece) (name : Text) : Prop :=
  notes name = [] ∧ fields.get? (metadataKey name) = none ∨
    ∃ t, textOf (notes name) = ' ' :: Render.comment t ∧
      fields.get? (metadataKey name) = some (.string t)

/-- What stands before the value on the line of a key. -/
theorem textOf_key (n width : Nat) (name : Text) :
    textOf (key n width name) = Render.indentWithin (.whole n) ++ name ++
      Text.spaces (width - name.size + 1) ++ ['=', ' '] := by
  simp [key, textOf, gap, word, equals, Render.indentWithin, Text.spaces]

theorem addToFirst_append (more : Text) {line : Text} (h : '\n' ∉ line) (rest : Text) :
    Render.addToFirst more (line ++ '\n' :: rest) = line ++ more ++ '\n' :: rest := by
  induction line with
  | nil => rfl
  | cons c line ih =>
    rw [List.cons_append, Render.addToFirst, ih fun hm => h (List.mem_cons_of_mem c hm)]
    · rfl
    · intro he
      exact h (he ▸ List.mem_cons_self)

theorem addToFirst_all (more : Text) {line : Text} (h : '\n' ∉ line) :
    Render.addToFirst more line = line ++ more := by
  induction line with
  | nil => rfl
  | cons c line ih =>
    rw [Render.addToFirst, ih fun hm => h (List.mem_cons_of_mem c hm)]
    · rfl
    · intro he
      exact h (he ▸ List.mem_cons_self)

theorem lineFeed_not_mem_word {kind : TokenKind} {name : Text} (h : Token.IsWord kind name) :
    '\n' ∉ name := by
  obtain ⟨c, run, rfl, hs, hrun, -⟩ := h.shape
  intro hm
  rcases List.mem_cons.mp hm with rfl | hm
  · exact absurd hs (by decide)
  · exact absurd (hrun _ hm) (by decide)

/-- Notes go to the first line of a value that opens a block. -/
theorem addToFirst_value {leaf : Value → Prop} {x : Value}
    (h : x.IsShapedOf SubObject.IsHeaded leaf) (hflat : x.isFlat = false) (n : Nat) (notes : List Piece) :
    Render.addToFirst (textOf notes) (textOf (value n [] x)) = textOf (value n notes x) := by
  cases h with
  | flat _ h => rw [h] at hflat; cases hflat
  | @block b hb _ =>
    obtain ⟨name, kind, hname, hword⟩ := hb.typeName
    obtain ⟨typeName, properties⟩ := b
    simp only at hname
    subst hname
    have hline : '\n' ∉ name ++ ['\x7b'] := by
      intro hm
      rcases List.mem_append.mp hm with hm | hm
      · exact lineFeed_not_mem_word hword hm
      · exact absurd hm (by decide)
    have haround := addToFirst_append (textOf notes) hline
      (textOf (lines (n + 1) (width (Fields.names properties)) (fun _ => []) properties ++
        [gap (4 * (n + 1)), braceClose]))
    simpa [value, block, word, braceOpen, lineEnd] using haround
  | @blocks items _ _ =>
    rw [value, value]
    by_cases hempty : items.isEmpty
    · rw [if_pos hempty, if_pos hempty]
      have hline : '\n' ∉ ['@', '(', ')'] := by decide
      simpa [arrayOpen, parenClose] using addToFirst_all (textOf notes) hline
    · rw [if_neg hempty, if_neg hempty]
      have hline : '\n' ∉ ['@', '('] := by decide
      have haround := addToFirst_append (textOf notes) hline
        (textOf (blocks (n + 2) items ++ [gap (4 * (n + 1)), parenClose]))
      simpa [arrayOpen, lineEnd] using haround

/-- The line of a property. -/
theorem rendered_property {leaf : Value → Prop} (n width : Nat) (path : Path)
    {fields : Fields Value} {notes : Text → List Piece} {name : Text} {x : Value}
    (hx : Fields.get? name fields = some x) (hs : x.IsShapedOf SubObject.IsHeaded leaf)
    (hn : NotesOf fields notes name) :
    Render.property (.whole n) path width (Value.encodeFields fields) name
        (textOf (value n [] x.sorted)) =
      .ok (textOf (key n width name ++ (value n (notes name) x.sorted ++ [lineEnd]))) := by
  rw [textOf_append, textOf_append, textOf_key]
  unfold Render.property
  rw [get?_encodeFields, get?_encodeFields, hx]
  rcases hn with ⟨hnotes, hnone⟩ | ⟨t, hnotes, hsome⟩
  · rw [hnone, hnotes]
    simp [lineEnd]
  · rw [hsome]
    have hmetadata : Render.metadata (path ++ [.string name]) (Value.toJson (.string t)) =
        .ok (Render.comment t) := rfl
    have hgiven : Option.filter Json.isGiven (some (Value.toJson (.string t))) =
        some (Value.toJson (.string t)) := rfl
    simp only [Option.map_some, hgiven, hmetadata, Option.any_some, opensBlock_toJson]
    cases hflat : x.isFlat with
    | false =>
      have hfirst := addToFirst_value (hs.sorted fun _ => SubObject.IsHeaded.sorted)
        (by rw [Value.isFlat_sorted]; exact hflat) n (notes name)
      rw [hnotes] at hfirst
      simp [← hfirst, lineEnd, bind, Except.bind]
    | true =>
      have hflat' : x.sorted.isFlat := by rw [Value.isFlat_sorted]; exact hflat
      rw [value_flat hflat', value_flat hflat', textOf_append, textOf_append, hnotes]
      simp [lineEnd, bind, Except.bind]

/-! ### Blocks

The comments of an instance are properties of the encoding, but they are not written as
lines.  They are filtered out first, and looked up again for the line that they belong
to.
-/

theorem fieldTexts_eq (level : Render.Level) (path : Path) (fields : List (Text × Value)) :
    Render.fieldTexts level path (Value.encodeFields fields) =
      fields.map fun p => (p.1, Render.value level (path ++ [.string p.1]) p.2.toJson) := by
  induction fields with
  | nil => rfl
  | cons p rest ih => rw [Value.encodeFields, Render.fieldTexts, ih]; rfl

theorem isWritten_of_isKey {name : Text} (h : IsKey name) (level : Render.Level) :
    Render.isWritten level name = true := by
  obtain ⟨-, hm, hr⟩ := h
  simp only [List.mem_cons, List.not_mem_nil, or_false, not_or] at hr
  unfold Render.isWritten
  simp only [hm, bne, beq_eq_false_iff_ne.mpr hr.1, beq_eq_false_iff_ne.mpr hr.2.1,
    beq_eq_false_iff_ne.mpr hr.2.2, Bool.not_false, Bool.and_false, Bool.and_true]

theorem isWritten_of_isMetadataKey {name : Text} (h : isMetadataKey name) (level : Render.Level) :
    Render.isWritten level name = false := by
  unfold Render.isWritten
  simp [h]

/-- The properties without the comments on them. -/
def plain (fields : Fields Value) : Fields Value := fields.filter fun p => !isMetadataKey p.1

/-- Without the comments on them, the properties of a block are what is written. -/
theorem filter_isWritten {fields : Fields Value} (hkeys : ∀ p ∈ plain fields, IsKey p.1)
    (level : Render.Level) (text : Text × Value → Render.Output) :
    ((fields.map fun p => (p.1, text p)).filter fun p => Render.isWritten level p.1) =
      (plain fields).map fun p => (p.1, text p) := by
  rw [List.filter_map]
  refine congrArg _ (List.filter_congr ?_)
  intro p hp
  cases hm : isMetadataKey p.1 with
  | true => exact isWritten_of_isMetadataKey hm level
  | false =>
    have hplain : p ∈ plain fields := by
      unfold plain
      rw [List.mem_filter]
      exact ⟨hp, by rw [hm]; rfl⟩
    exact isWritten_of_isKey (hkeys p hplain) level

/-- A key of a block has the value that stands behind it. -/
theorem get?_of_mem {fields : Fields Value} {p : Text × Value}
    (h : (Fields.names fields).Nodup) (hp : p ∈ fields) : Fields.get? p.1 fields = some p.2 := by
  induction fields with
  | nil => cases hp
  | cons q rest ih =>
    obtain ⟨hq, hrest⟩ := List.nodup_cons.mp h
    rw [Fields.get?]
    rcases List.mem_cons.mp hp with rfl | hp
    · rw [if_pos rfl]
    · rw [if_neg, ih hrest hp]
      intro he
      refine hq ?_
      simp only [he]
      exact List.mem_map_of_mem hp

theorem rendered_properties (n width : Nat) (path : Path) {fields : Fields Value}
    {notes : Text → List Piece} {written : Fields Value}
    (h : ∀ p ∈ written, Render.property (.whole n) path width (Value.encodeFields fields) p.1
      (textOf (value n [] p.2)) =
        .ok (textOf (key n width p.1 ++ (value n (notes p.1) p.2 ++ [lineEnd])))) :
    Render.properties (.whole n) path width (Value.encodeFields fields)
        (written.map fun p => (p.1, .ok (textOf (value n [] p.2)))) =
      .ok (textOf (lines n width notes written)) := by
  induction written with
  | nil => rfl
  | cons p rest ih =>
    rw [List.map_cons, Render.properties]
    simp only [bind, Except.bind]
    rw [h p List.mem_cons_self, ih fun q hq => h q (List.mem_cons_of_mem p hq), lines]
    simp

/-- The lines of the properties of a block that are written. -/
theorem rendered_body {leaf : Value → Prop} (n : Nat) (path : Path) {fields : Fields Value}
    {notes : Text → List Piece} (hnodup : (Fields.names fields).Nodup)
    (hkeys : ∀ p ∈ plain fields, IsKey p.1) (hshaped : ∀ p ∈ plain fields, p.2.IsShapedOf SubObject.IsHeaded leaf)
    (hnotes : ∀ p ∈ plain fields, NotesOf fields notes p.1)
    (hvalues : ∀ p ∈ plain fields, Render.value (.whole n) (path ++ [.string p.1]) p.2.toJson =
      .ok (textOf (value n [] p.2.sorted))) :
    Render.body (.whole n) path (Value.encodeFields fields)
        (Render.fieldTexts (.whole n) path (Value.encodeFields fields)) =
      .ok (textOf (lines n (width (Fields.names (Text.sortByKey
        (Value.sortedFields (plain fields))))) notes
          (Text.sortByKey (Value.sortedFields (plain fields))))) := by
  unfold Render.body
  rw [fieldTexts_eq, filter_isWritten hkeys]
  have hwritten : ((plain fields).map fun p =>
      (p.1, Render.value (.whole n) (path ++ [.string p.1]) p.2.toJson)) =
        (Value.sortedFields (plain fields)).map fun p => (p.1, .ok (textOf (value n [] p.2))) := by
    rw [Value.sortedFields_eq, List.map_map]
    exact List.map_congr_left fun p hp => congrArg _ (hvalues p hp)
  rw [hwritten, Text.sortByKey_map fun p : Text × Value =>
    (Except.ok (textOf (value n [] p.2)) : Render.Output)]
  have hwidth : (((Text.sortByKey (Value.sortedFields (plain fields))).map fun p =>
      (p.1, (Except.ok (textOf (value n [] p.2)) : Render.Output))).map
        fun (key, _) => Text.size key).foldl max 0 =
      width (Fields.names (Text.sortByKey (Value.sortedFields (plain fields)))) := by
    unfold width Fields.names
    rw [List.map_map, List.map_map]
    rfl
  simp only [hwidth]
  refine rendered_properties n _ path ?_
  intro p hp
  obtain ⟨q, hq, rfl⟩ := mem_sorted hp
  have hmem : q ∈ fields := (List.mem_filter.mp hq).1
  exact rendered_property n _ path (get?_of_mem hnodup hmem) (hshaped q hq) (hnotes q hq)

/-- Between keys there are no comments. -/
theorem plain_eq_of_isKey {fields : Fields Value} (h : ∀ p ∈ fields, IsKey p.1) :
    plain fields = fields := by
  refine List.filter_eq_self.mpr ?_
  intro p hp
  rw [(h p hp).notMetadata]
  rfl

theorem plain_eq_self {fields : Fields Value} (h : AreKeys fields.names) :
    plain fields = fields :=
  plain_eq_of_isKey fun _ hp => h.of_mem hp

theorem notesOf_of_isKey {fields : Fields Value} (h : ∀ p ∈ fields, IsKey p.1) (name : Text) :
    NotesOf fields (fun _ => []) name := by
  refine Or.inl ⟨rfl, ?_⟩
  induction fields with
  | nil => rfl
  | cons p rest ih =>
    rw [Fields.get?, if_neg, ih fun q hq => h q (List.mem_cons_of_mem p hq)]
    intro he
    have := (h p List.mem_cons_self).notMetadata
    rw [he] at this
    exact absurd this (by simp [isMetadataKey, metadataKey, Text.startsWith])

/-- The lines of a block without comments. -/
theorem rendered_body_of_isKey {leaf : Value → Prop} (n : Nat) (path : Path)
    {fields : Fields Value} (hkeys : ∀ p ∈ fields, IsKey p.1)
    (hnodup : (Fields.names fields).Nodup)
    (hshaped : ∀ p ∈ fields, p.2.IsShapedOf SubObject.IsHeaded leaf)
    (hvalues : ∀ p ∈ fields, ∀ path, Render.value (.whole n) path p.2.toJson =
      .ok (textOf (value n [] p.2.sorted))) :
    Render.body (.whole n) path (Value.encodeFields fields)
        (Render.fieldTexts (.whole n) path (Value.encodeFields fields)) =
      .ok (textOf (lines n (width (Fields.names (Text.sortByKey (Value.sortedFields fields))))
        (fun _ => []) (Text.sortByKey (Value.sortedFields fields)))) := by
  have hplain := plain_eq_of_isKey hkeys
  have h := rendered_body n path hnodup (by rw [hplain]; exact hkeys) (by rw [hplain]; exact hshaped)
    (fun p _ => notesOf_of_isKey hkeys p.1) (by rw [hplain]; exact fun p hp => hvalues p hp _)
  rwa [hplain] at h

/-- The members of a block of a class. -/
theorem header_block {name : Text} (hname : name ≠ []) (level : Render.Level) (path : Path)
    (fields : Json) :
    Render.header level path [("typeName", .string name), ("properties", fields)] =
      .ok (Render.indent level ++ name ++ ['\x7b', '\n']) := by
  unfold Render.header
  have hget : Fields.get? "typeName".toList [("typeName".toList, Json.string name),
      ("properties".toList, fields)] = some (.string name) := rfl
  have hnone : Fields.get? "resourceName".toList [("typeName".toList, Json.string name),
      ("properties".toList, fields)] = none := rfl
  have hgiven : Option.filter Json.isGiven (some (Json.string name)) = some (.string name) := by
    cases name with
    | nil => exact absurd rfl hname
    | cons c run => rfl
  rw [hnone]
  simp only []
  rw [hget, hgiven]
  rfl

theorem bodyOf_members (level : Render.Level) (path : Path) (name : Text)
    (fields : List (Text × Json)) :
    Render.bodyOf level path [("typeName", .string name), ("properties", .object fields)] =
      some (Render.body level path fields (Render.fieldTexts level path fields)) := by
  rw [Render.bodyOf, if_neg (by decide), Render.bodyOf, if_pos rfl]
  all_goals
    intro _ h
    cases h

/-- A block of a class, on lines of its own. -/
theorem rendered_block {leaf : Value → Prop} (n : Nat) (path : Path) {b : SubObject}
    (hb : b.IsHeaded) (hshaped : ∀ p ∈ b.properties, p.2.IsShapedOf SubObject.IsHeaded leaf)
    (hvalues : ∀ p ∈ b.properties, ∀ path, Render.value (.whole n) path p.2.toJson =
      .ok (textOf (value n [] p.2.sorted))) :
    Render.block (.whole n) path b.toJson =
      .ok (textOf (gap (4 * n) :: (block n [] b.sorted ++ [lineEnd]))) := by
  obtain ⟨⟨name, kind, hname, hword⟩, hkeys, hnodup⟩ := hb
  obtain ⟨typeName, properties⟩ := b
  simp only at hname
  subst hname
  rw [SubObject.toJson]
  rw [Render.block, bodyOf_members]
  simp only []
  rw [header_block hword.ne_nil, rendered_body_of_isKey n _ hkeys hnodup hshaped hvalues]
  simp [bind, Except.bind, block, SubObject.sorted, gap, word, braceOpen, braceClose, lineEnd,
    Render.indent, Piece.textOf]

theorem rendered_blocks {leaf : Value → Prop} (n : Nat) (path : Path) {items : List SubObject}
    (hb : ∀ b ∈ items, b.IsHeaded)
    (hshaped : ∀ b ∈ items, ∀ p ∈ b.properties, p.2.IsShapedOf SubObject.IsHeaded leaf)
    (hvalues : ∀ b ∈ items, ∀ p ∈ b.properties, ∀ path,
      Render.value (.whole n) path p.2.toJson = .ok (textOf (value n [] p.2.sorted))) :
    Render.blocks (.whole n) path (SubObject.encodeAll items) =
      .ok (textOf (blocks n (SubObject.sortedAll items))) := by
  induction items with
  | nil => rfl
  | cons b items ih =>
    have hfirst := rendered_block n path (hb b List.mem_cons_self)
      (hshaped b List.mem_cons_self) (hvalues b List.mem_cons_self)
    have hrest := ih (fun c hc => hb c (List.mem_cons_of_mem b hc))
      (fun c hc => hshaped c (List.mem_cons_of_mem b hc))
      fun c hc => hvalues c (List.mem_cons_of_mem b hc)
    rw [SubObject.encodeAll, SubObject.sortedAll, Render.blocks, blocks, hfirst, hrest]
    simp [bind, Except.bind]

theorem isBlank_of_isWordStart {c : Char} (h : Pattern.isWordStart c) :
    Text.isBlank c = false := by
  have hrange : 65 ≤ c.toNat ∧ c.toNat < 128 := by
    simp only [Pattern.isWordStart, Bool.or_eq_true, beq_iff_eq] at h
    rcases h with h | rfl
    · have := Pattern.toNat_of_isAlpha h
      omega
    · decide
  have hspace : c ≠ ' ' := by
    rintro rfl
    exact absurd hrange.1 (by decide)
  unfold Text.isBlank
  rw [if_pos hrange.2, beq_eq_false_iff_ne.mpr hspace, Bool.false_or, Bool.and_eq_false_iff]
  exact Or.inr (decide_eq_false (by omega))

/-- A block within a value starts where the value does and ends with its brace. -/
theorem inline_block {b : SubObject} (hb : b.IsHeaded) (n : Nat) :
    Render.inline (textOf (gap (4 * n) :: (block n [] b ++ [lineEnd]))) =
      textOf (block n [] b) := by
  obtain ⟨name, kind, hname, hword⟩ := hb.typeName
  obtain ⟨typeName, properties⟩ := b
  simp only at hname
  subst hname
  obtain ⟨c, run, rfl, hs, -⟩ := hword.shape
  have hblank := isBlank_of_isWordStart hs
  have htext : textOf (block n [] ⟨some (c :: run), properties⟩) =
      c :: (run ++ textOf (braceOpen :: lineEnd ::
        (lines n (width (Fields.names properties)) (fun _ => []) properties ++
          [gap (4 * n), braceClose]))) := by
    simp [block, word]
  unfold Render.inline
  rw [textOf_cons, textOf_append, htext]
  have htrim : Text.trimStart ((gap (4 * n)).text ++ (c :: (run ++ textOf (braceOpen :: lineEnd ::
        (lines n (width (Fields.names properties)) (fun _ => []) properties ++
          [gap (4 * n), braceClose]))) ++ textOf [lineEnd])) =
      c :: (run ++ textOf (braceOpen :: lineEnd ::
        (lines n (width (Fields.names properties)) (fun _ => []) properties ++
          [gap (4 * n), braceClose]))) ++ ['\n'] := by
    unfold Text.trimStart
    rw [List.dropWhile_append_of_pos, List.cons_append, List.dropWhile_cons, if_neg]
    · rfl
    · rw [hblank]
      exact Bool.false_ne_true
    · intro d hd
      rw [List.eq_of_mem_replicate hd]
      rfl
  rw [htrim]
  simp only []
  unfold Text.dropTail?
  rw [List.reverse_append]
  simp [Text.dropHead?]

theorem value_subObject (level : Render.Level) (path : Path) (b : SubObject) :
    Render.value level path (Value.subObject b).toJson =
      (Render.block (level.deeper 1) path b.toJson).map Render.inline := by
  rw [Value.toJson, Value.encodeAs, Render.value, kindOf?_encodeAs]
  simp only []
  rw [Render.blockOf, if_neg (by decide), Render.blockOf, if_pos rfl]

theorem value_subObjectArray (level : Render.Level) (path : Path) (items : List SubObject) :
    Render.value level path (Value.subObjectArray items).toJson =
      if items.isEmpty then .ok ['@', '(', ')']
      else (Render.blocks (level.deeper 2) path (SubObject.encodeAll items)).map
        (Render.inArray level) := by
  have hempty : (SubObject.encodeAll items).isEmpty = items.isEmpty := by
    cases items <;> rfl
  rw [Value.toJson, Value.encodeAs, Render.value, kindOf?_encodeAs]
  simp only []
  rw [Render.blocksOf, if_neg (by decide), Render.blocksOf, if_pos rfl, hempty]
  intro _ h
  cases h

/-- **A value is written as the layout of it, sorted.** -/
theorem rendered_value {leaf : Value → Prop} (hleaf : ∀ x, leaf x → HasIntegers x) {x : Value}
    (h : x.IsShapedOf SubObject.IsHeaded leaf) (n : Nat) (path : Path) :
    Render.value (.whole n) path x.toJson = .ok (textOf (value n [] x.sorted)) := by
  induction h generalizing n path with
  | @flat x hx hflat =>
    rw [Value.sorted_of_isFlat hflat, value_flat hflat, rendered_flat hflat (hleaf x hx),
      List.append_nil, textOf_ofText]
  | @block b named shaped ih =>
    have hblock := rendered_block (n + 1) path named shaped fun p hp path => ih p hp (n + 1) path
    rw [value_subObject, Render.Level.deeper_whole, hblock]
    exact congrArg Except.ok (inline_block named.sorted (n + 1))
  | @blocks items named shaped ih =>
    have hblocks := rendered_blocks (n + 2) path named shaped
      fun b hb p hp path => ih b hb p hp (n + 2) path
    rw [value_subObjectArray, Render.Level.deeper_whole, hblocks, Value.sorted, value,
      SubObject.sortedAll_eq]
    cases items with
    | nil => rfl
    | cons b items =>
      simp [Except.map, Render.inArray, arrayOpen, lineEnd, parenClose, gap, Render.indentWithin]

/-! ### Instances -/

/-- A name is quoted unless it is a reference. -/
theorem instanceName_string (name : Text) :
    Render.instanceName (some (.string name)) =
      .ok (if Render.isReference name then name else Render.quoted name) := by
  unfold Render.instanceName
  have hshown : Json.displayOrMissing (some (.string name)) = name := rfl
  simp only [hshown]
  split <;> rfl

/-- A name that does not start with a variable is quoted. -/
theorem instanceName_eq {name : Text} (h : Text.startsWith name ['$'] = false) :
    Render.instanceName (some (.string name)) = .ok (Render.quoted name) := by
  have href : Render.isReference name = false := by
    unfold Render.isReference
    split
    · simp [Text.startsWith] at h
    · rfl
  rw [instanceName_string, href, if_neg Bool.false_ne_true]

/-- What the parts of an instance need in order to be written: keys that are no comments are keys
of a block, and what comments there are stand behind these. -/
structure IsWritable (leaf : Value → Prop) (notes : Text → List Piece) (i : Instance) : Prop where
  resourceName : ∃ kind, Token.IsWord kind i.resourceName
  instanceName : Text.startsWith i.instanceName ['$'] = false
  names : i.properties.names.Nodup
  isKey : ∀ p ∈ plain i.properties, IsKey p.1
  shaped : ∀ p ∈ plain i.properties, p.2.IsShapedOf SubObject.IsHeaded leaf
  notes : ∀ p ∈ plain i.properties, NotesOf i.properties notes p.1

/-- The properties of an instance as they are laid out. -/
def laidOut (i : Instance) : Instance := { i with properties := plain i.properties }.sorted

theorem header_instance {resource name shown : Text} (hr : resource ≠ [])
    (hn : Render.instanceName (some (.string name)) = .ok shown) (level : Render.Level) (path : Path)
    (fields : Json) :
    Render.header level path [("resourceName", .string resource), ("instanceName", .string name),
      ("properties", fields)] =
        .ok (Render.indent level ++ resource ++ ' ' :: shown ++
          '\n' :: Render.indent level ++ ['\x7b', '\n']) := by
  have hget : Fields.get? "resourceName".toList [("resourceName".toList, Json.string resource),
      ("instanceName".toList, .string name), ("properties".toList, fields)] =
        some (.string resource) := rfl
  have hname : Fields.get? "instanceName".toList [("resourceName".toList, Json.string resource),
      ("instanceName".toList, .string name), ("properties".toList, fields)] =
        some (.string name) := rfl
  have hgiven : Json.isGiven (.string resource) = true := by
    cases resource with
    | nil => exact absurd rfl hr
    | cons c run => rfl
  unfold Render.header
  rw [hget]
  simp only []
  rw [if_pos hgiven, hname, hn]
  rfl

theorem bodyOf_instance (level : Render.Level) (path : Path) (resource name : Json)
    (hr : ∀ fields, resource ≠ .object fields) (hr' : ∀ items, resource ≠ .array items)
    (hn : ∀ fields, name ≠ .object fields) (hn' : ∀ items, name ≠ .array items)
    (fields : List (Text × Json)) :
    Render.bodyOf level path [("resourceName", resource), ("instanceName", name),
      ("properties", .object fields)] =
        some (Render.body level path fields (Render.fieldTexts level path fields)) := by
  rw [Render.bodyOf, if_neg (by decide), Render.bodyOf, if_neg (by decide), Render.bodyOf,
    if_pos rfl]
  · exact hn
  · exact hn'
  · exact hr
  · exact hr'

/-- **An instance is written as the layout of it, sorted.** -/
theorem rendered_instance {leaf : Value → Prop} (hleaf : ∀ x, leaf x → HasIntegers x)
    {notes : Text → List Piece} {i : Instance} (h : IsWritable leaf notes i) (n : Nat)
    (path : Path) :
    Render.block (.whole n) path i.toJson = .ok (textOf (declaration n notes (laidOut i))) := by
  obtain ⟨resourceName, instanceName, properties⟩ := i
  have hbody := fun path => rendered_body n path h.names h.isKey h.shaped
    h.notes fun p hp => rendered_value hleaf (h.shaped p hp) n _
  have hresource : resourceName ≠ [] := by
    obtain ⟨kind, hword⟩ := h.resourceName
    exact hword.ne_nil
  rw [Instance.toJson, Render.block, bodyOf_instance]
  · simp only []
    rw [header_instance hresource (instanceName_eq h.instanceName), hbody]
    simp [bind, Except.bind, declaration, laidOut, Instance.sorted, gap, word, quoted, braceOpen,
      braceClose, lineEnd, Render.indent, Piece.textOf, Text.spaces]
  all_goals
    intro _ h
    cases h

/-- The blocks of instances at a level. -/
def declarations (n : Nat) (notes : Instance → Text → List Piece) (instances : List Instance) :
    List Piece :=
  instances.flatMap fun i => declaration n (notes i) (laidOut i)

/-- **Instances are written as their layouts, one after another.** -/
theorem write_eq {leaf : Value → Prop} (hleaf : ∀ x, leaf x → HasIntegers x)
    {notes : Instance → Text → List Piece} {instances : List Instance}
    (h : ∀ i ∈ instances, IsWritable leaf (notes i) i) (n : Nat) :
    Configuration.write (.whole n) instances = .ok (textOf (declarations n notes instances)) := by
  unfold Configuration.write Render.entries declarations
  induction instances with
  | nil => rfl
  | cons i rest ih =>
    rw [List.map_cons, Render.blocks, rendered_instance hleaf (h i List.mem_cons_self),
      ih fun j hj => h j (List.mem_cons_of_mem i hj), List.flatMap_cons, textOf_append]
    rfl

end Layout

end DesiredState

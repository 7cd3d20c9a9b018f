/-
The level shifts lines.

Entries without line feeds in their texts are rendered in lines whose space in front grows
with the level, by four for each step, and nothing else about them depends on it: at a
deeper level every line is the same with more space before it.  Which keys are written
depends on the level too, but only on whether the blocks are the outermost ones.

Blocks stand within values one level or two deeper, so that nothing within a value is
outermost.  The induction is on the parts of an entry; a value looks for its blocks among
the parts of its parts, and therefore what is shown of a part is shown of its parts too.
-/
import DesiredState.Proofs.Rendering.Indentation
import DesiredState.Proofs.Sorting

namespace DesiredState.Render

open Text

variable {n : Nat}

/-! ### Heads and properties

What is rendered of a block starts a line, and what is rendered of a value goes on from
its key.  So there are two ways in which a text shifts, and of each part it is said
which is its own.
-/

theorem indent_deeper (l k : Nat) :
    indent (.whole (l + k)) = spaces (4 * k) ++ indent (.whole l) := by
  rw [indent, indent, Level.margin_whole, Level.margin_whole, ← spaces_add]
  exact congrArg spaces (by omega)

theorem indentWithin_deeper (l k : Nat) :
    indentWithin (.whole (l + k)) = spaces (4 * k) ++ indentWithin (.whole l) := by
  rw [indentWithin, indentWithin, Level.margin_whole, Level.margin_whole, ← spaces_add]
  exact congrArg spaces (by omega)

/-- The lines before the properties of a block: they start on the first. -/
def IsHead (t : Text) : Prop := IsLines t ∧ Opens t

/-- The head of an instance: two lines. -/
theorem instanceHead_deeper (l k : Nat) {resource name : Text} (hresource : IsLine resource)
    (hname : IsLine name ∧ ∃ c rest, name = c :: rest ∧ isBlank c = false) :
    let head (level : Level) : Text :=
      indent level ++ resource ++ ' ' :: name ++ '\n' :: indent level ++ ['\x7b', '\n']
    IsHead (head (.whole l)) ∧ head (.whole (l + k)) = indentLines (4 * k) (head (.whole l)) := by
  obtain ⟨hname, c, rest, rfl, hc⟩ := hname
  have hindent : IsLine (indent (.whole l)) := isLine_spaces _
  have hopens : IsLine (indent (.whole l) ++ resource ++ [' ']) :=
    isLine_append.mpr ⟨isLine_append.mpr ⟨hindent, hresource⟩, by decide⟩
  have hfirst : IsLine (indent (.whole l) ++ resource ++ [' '] ++ (c :: rest)) :=
    isLine_append.mpr ⟨hopens, hname⟩
  have hsecond : IsLine (indent (.whole l) ++ ['\x7b']) := isLine_append.mpr ⟨hindent, by decide⟩
  have htext (level : Level) :
      indent level ++ resource ++ ' ' :: (c :: rest) ++ '\n' :: indent level ++ ['\x7b', '\n'] =
        (indent level ++ resource ++ [' '] ++ (c :: rest) ++ ['\n']) ++
          ((indent level ++ ['\x7b']) ++ ['\n']) := by
    simp only [List.append_assoc, List.cons_append, List.nil_append]
  dsimp only
  rw [htext, htext]
  refine ⟨⟨?_, ?_⟩, ?_⟩
  · rw [IsLines, ← List.append_assoc]
    exact endsLine_lineFeed ..
  · rw [List.append_assoc _ (c :: rest), List.append_assoc]
    exact opens_of_line hopens hc _
  · rw [indentLines_append _ (endsLine_lineFeed ..), indentLines_line _ hfirst,
      indentLines_line _ hsecond, indent_deeper]
    simp only [List.append_assoc]

/-- The head of a block of a class: one line. -/
theorem classHead_deeper (l k : Nat) {typeName : Text} (h : IsLine typeName) :
    let head (level : Level) : Text := indent level ++ typeName ++ ['\x7b', '\n']
    IsHead (head (.whole l)) ∧ head (.whole (l + k)) = indentLines (4 * k) (head (.whole l)) := by
  have hopens : IsLine (indent (.whole l) ++ typeName) := isLine_append.mpr ⟨isLine_spaces _, h⟩
  have hline : IsLine (indent (.whole l) ++ typeName ++ ['\x7b']) :=
    isLine_append.mpr ⟨hopens, by decide⟩
  have htext (level : Level) : indent level ++ typeName ++ ['\x7b', '\n'] =
      (indent level ++ typeName ++ ['\x7b']) ++ ['\n'] := by
    simp only [List.append_assoc, List.cons_append, List.nil_append]
  dsimp only
  refine ⟨⟨?_, opens_of_line hopens (by decide) _⟩, ?_⟩
  · rw [htext]
    exact endsLine_lineFeed ..
  · rw [htext, htext, indentLines_line _ hline, indent_deeper]
    simp only [List.append_assoc]

theorem header_shifts (l k : Nat) (path : Path) {members : Fields Json}
    (h : (Json.object members).IsLined) :
    Shifts (4 * k) true IsHead (header (.whole l) path members)
      (header (.whole (l + k)) path members) := by
  have hpart (name : Text) : Json.LinedIfGiven (members.get? name) := fun _ => h.of_get?
  unfold header
  split
  · next resource hresource =>
    split
    · refine (instanceName_isLine (hpart "instanceName")).map_shifts fun name hname => ?_
      exact instanceHead_deeper l k (hpart _ _ hresource).displays.1 hname
    · exact .error _
  · split
    · next typeName htype =>
      have hgiven := (Option.filter_eq_some_iff.mp htype).1
      obtain ⟨hhead, hdeeper⟩ := classHead_deeper l k (hpart _ _ hgiven).displays.1
      exact .of_eq hhead hdeeper
    · exact .error _

/-- The line of a property, around what comes after the sign of equality. -/
theorem indentLines_property {head rest : Text} (hhead : IsLine head) (hrest : IsInline rest) :
    IsLines (head ++ rest ++ ['\n']) ∧
      spaces n ++ head ++ indentFrom n false rest ++ ['\n'] =
        indentLines n (head ++ rest ++ ['\n']) := by
  have hnonempty : head ++ rest ++ ['\n'] ≠ [] :=
    List.append_ne_nil_of_right_ne_nil _ (List.cons_ne_nil '\n' [])
  refine ⟨endsLine_lineFeed .., ?_⟩
  rw [indentLines, indentFrom_true n hnonempty, List.append_assoc head,
    indentFrom_line_append n hhead, indentFrom_append, hrest, List.append_assoc, List.append_assoc]
  rfl

theorem property_shifts (l k : Nat) (path : Path) (width : Nat) {fields : Fields Json}
    (h : (Json.object fields).IsLined) {key value : Text} (hkey : IsLine key)
    (hvalue : IsInline value) :
    Shifts (4 * k) true IsLines (property (.whole l) path width fields key value)
      (property (.whole (l + k)) path width fields key (indentFrom (4 * k) false value)) := by
  have hhead : IsLine
      (indentWithin (.whole l) ++ key ++ spaces (width - key.size + 1) ++ ['=', ' ']) :=
    isLine_append.mpr ⟨isLine_append.mpr ⟨isLine_append.mpr ⟨isLine_spaces _, hkey⟩,
      isLine_spaces _⟩, by decide⟩
  unfold property
  rw [indentWithin_deeper, List.append_assoc (spaces _), List.append_assoc (spaces _),
    List.append_assoc (spaces _)]
  revert hhead
  generalize indentWithin (.whole l) ++ key ++ spaces (width - key.size + 1) ++ ['=', ' '] = head
  intro hhead
  dsimp only
  split
  · obtain ⟨hlines, hdeeper⟩ := indentLines_property (n := 4 * k) hhead hvalue
    exact .of_eq hlines hdeeper
  · next part hpart =>
    have hlined := h.of_get? (Option.filter_eq_some_iff.mp hpart).1
    refine (metadata_isLine _ hlined).bind_shifts fun note hnote => ?_
    have hnote : IsLine (' ' :: note) := isLine_cons.mpr ⟨by decide, hnote⟩
    split
    · obtain ⟨hmoved, hends⟩ := addToFirst_indentFrom hnote value
      obtain ⟨hlines, hdeeper⟩ := indentLines_property hhead (hends.trans hvalue)
      rw [hmoved]
      exact .of_eq hlines hdeeper
    · obtain ⟨hmoved, hends⟩ := indentFrom_inline_append hvalue hnote
      obtain ⟨hlines, hdeeper⟩ := indentLines_property hhead hends
      rw [List.append_assoc head, List.append_assoc _ (indentFrom ..), ← hmoved]
      exact .of_eq hlines hdeeper

/-- The lines of properties shift if their values do. -/
theorem properties_shifts (l k : Nat) (path : Path) (width : Nat) {fields : Fields Json}
    (h : (Json.object fields).IsLined) {written : Fields Json}
    {text text' : Text × Json → Output} (hwritten : ∀ p ∈ written, IsLine p.1 ∧
      Shifts (4 * k) false IsInline (text p) (text' p)) :
    Shifts (4 * k) true IsLines
      (properties (.whole l) path width fields (written.map fun p => (p.1, text p)))
      (properties (.whole (l + k)) path width fields (written.map fun p => (p.1, text' p))) := by
  induction written with
  | nil => exact .of_eq rfl rfl
  | cons p rest ih =>
    obtain ⟨hkey, hvalue⟩ := hwritten p List.mem_cons_self
    have hrest := ih fun q hq => hwritten q (List.mem_cons_of_mem p hq)
    rw [List.map_cons, List.map_cons, properties, properties]
    exact hvalue.bind fun t ht => (property_shifts l k path width h hkey ht).append hrest

/-! ### Keys

Which keys are left out depends on the level in one way only: the outermost blocks leave
out one more.  So the levels from the first on are alike, and the outermost one is a
case by itself.
-/

/-- No property of a part goes by the key that the outermost blocks leave out. -/
def NamesNoResource (part : Json) : Prop :=
  ∀ fields, propertyMap? (part.member? "properties") = some fields →
    ∀ key ∈ fields.names, Text.lower key ≠ "resourcename".toList

/-- Which keys are written does not depend on the level, the outermost one apart. -/
theorem isWritten_deeper (l k : Nat) {key : Text}
    (h : l = 0 → Text.lower key ≠ "resourcename".toList) :
    isWritten (.whole (l + k)) key = isWritten (.whole l) key := by
  have houtermost (m : Nat) (hm : m = 0 → Text.lower key ≠ "resourcename".toList) :
      ((Level.whole m).isOutermost && Text.lower key == "resourcename".toList) = false := by
    rw [Level.isOutermost_whole, Bool.and_eq_false_iff, beq_eq_false_iff_ne, beq_eq_false_iff_ne]
    by_cases hzero : m = 0
    · exact .inr (hm hzero)
    · exact .inl hzero
  unfold isWritten
  dsimp only
  rw [houtermost l h, houtermost (l + k) fun hzero => h (by omega)]

/-! ### Blocks and values -/

/-- What is rendered of a part shifts with the level: as a value, and as a block of entries that
leave out the same keys at both levels. -/
structure Shiftable (part : Json) : Prop where
  value : ∀ l k path, Shifts (4 * k) false IsInline (value (.whole l) path part)
    (value (.whole (l + k)) path part)
  block : ∀ l k path, (l = 0 → NamesNoResource part) →
    Shifts (4 * k) true IsBlock (block (.whole l) path part) (block (.whole (l + k)) path part)

/-- The lines between the braces of a block. -/
theorem body_shifts (l k : Nat) (path : Path) {fields : Fields Json}
    (h : (Json.object fields).IsLined) (hfields : ∀ p ∈ fields, Shiftable p.2)
    (hkeys : l = 0 → ∀ key ∈ fields.names, Text.lower key ≠ "resourcename".toList) :
    Shifts (4 * k) true IsLines
      (body (.whole l) path fields (fieldTexts (.whole l) path fields))
      (body (.whole (l + k)) path fields (fieldTexts (.whole (l + k)) path fields)) := by
  have hwritten : (fields.filter fun p => isWritten (.whole (l + k)) p.1) =
      fields.filter fun p => isWritten (.whole l) p.1 :=
    List.filter_congr fun p hp =>
      isWritten_deeper l k fun hzero => hkeys hzero p.1 (List.mem_map_of_mem hp)
  rw [body_eq, body_eq, hwritten]
  refine properties_shifts l k path _ h fun p hp => ?_
  have hmem : p ∈ fields := (List.mem_filter.mp (mem_sortByKey.mp hp)).1
  exact ⟨(Json.isLined_object.mp h p hmem).1, (hfields p hmem).value l k _⟩

theorem isLined_zip {names : List Text} (hnames : ∀ name ∈ names, IsLine name) {items : List Json}
    (h : (Json.array items).IsLined) : (Json.object (names.zip items)).IsLined :=
  .object (fun p hp => hnames p.1 (List.of_mem_zip hp).1)
    fun p hp => Json.isLined_array.mp h p.2 (List.of_mem_zip hp).2

/-- The properties that a part lists are lined, and are parts of it. -/
theorem propertyMap?_lined {part : Json} (h : part.IsLined) {fields : Fields Json}
    (hfields : propertyMap? (some part) = some fields) :
    (Json.object fields).IsLined ∧ ∀ p ∈ fields, p.2 ∈ part.parts := by
  cases part with
  | object members =>
    cases hfields
    exact ⟨h, fun p hp => List.mem_map_of_mem hp⟩
  | array items =>
    cases hfields
    refine ⟨isLined_zip (fun name hname => ?_) h, fun p hp => (List.of_mem_zip hp).2⟩
    obtain ⟨i, -, rfl⟩ := List.mem_map.mp hname
    exact isLine_ofNat i
  | null | bool | number | string => cases hfields

/-- The whole of a block: its head, its lines and the line of the closing brace. -/
theorem closed_deeper (l k : Nat) {head lines : Text} (hhead : IsHead head)
    (hlines : IsLines lines) :
    IsBlock (head ++ lines ++ indent (.whole l) ++ ['\x7d', '\n']) ∧
      indentLines (4 * k) head ++ indentLines (4 * k) lines ++ indent (.whole (l + k)) ++
          ['\x7d', '\n'] =
        indentLines (4 * k) (head ++ lines ++ indent (.whole l) ++ ['\x7d', '\n']) := by
  have hbrace : IsLine (indent (.whole l) ++ ['\x7d']) :=
    isLine_append.mpr ⟨isLine_spaces _, by decide⟩
  have htext (start : Text) (level : Level) : start ++ indent level ++ ['\x7d', '\n'] =
      start ++ ((indent level ++ ['\x7d']) ++ ['\n']) := by
    simp only [List.append_assoc, List.cons_append, List.nil_append]
  refine ⟨⟨head ++ lines ++ indent (.whole l), rfl, (hhead.2.append _).append _⟩, ?_⟩
  rw [htext, htext, List.append_assoc head, indentLines_append _ hhead.1,
    indentLines_append _ hlines, indentLines_line _ hbrace, indent_deeper]
  simp only [List.append_assoc]

theorem block_shifts {members : Fields Json} (h : (Json.object members).IsLined)
    (hparts : ∀ p ∈ members, ∀ part ∈ p.2.parts, Shiftable part) (l k : Nat) (path : Path)
    (hkeys : l = 0 → NamesNoResource (.object members)) :
    Shifts (4 * k) true IsBlock (block (.whole l) path (.object members))
      (block (.whole (l + k)) path (.object members)) := by
  rw [block, block, bodyOf_eq, bodyOf_eq]
  cases hget : members.get? "properties" with
  | none => exact .error _
  | some part =>
    cases hmap : propertyMap? (some part) with
    | none => exact .error _
    | some fields =>
      obtain ⟨hfields, hmem⟩ := propertyMap?_lined (h.of_get? hget) hmap
      have hbody (path : Path) := body_shifts l k path hfields
        (fun p hp => hparts _ (Fields.mem_of_get? hget) p.2 (hmem p hp))
        fun hzero => hkeys hzero fields (by rw [Json.member?, hget]; exact hmap)
      refine (header_shifts l k _ h).bind fun head hhead => (hbody _).bind fun lines hlines => ?_
      obtain ⟨hblock, hdeeper⟩ := closed_deeper l k hhead hlines
      exact .of_eq hblock hdeeper

/-- Blocks shift if each of them does. -/
theorem blocks_shifts (l k : Nat) (path : Path) {items : List Json}
    (h : ∀ part ∈ items, Shiftable part) (hkeys : l = 0 → ∀ part ∈ items, NamesNoResource part) :
    Shifts (4 * k) true IsLines (blocks (.whole l) path items)
      (blocks (.whole (l + k)) path items) := by
  induction items with
  | nil => exact .of_eq rfl rfl
  | cons part rest ih =>
    have hblock := (h part List.mem_cons_self).block l k path
      fun hzero => hkeys hzero part List.mem_cons_self
    have hrest := ih (fun j hj => h j (List.mem_cons_of_mem part hj))
      fun hzero j hj => hkeys hzero j (List.mem_cons_of_mem part hj)
    rw [blocks, blocks]
    exact (hblock.mono fun _ => IsBlock.isLines).append hrest

/-- Blocks in an array stand in the middle of a value. -/
theorem inArray_deeper (l k : Nat) {t : Text} (h : IsLines t) :
    IsInline (inArray (.whole l) t) ∧
      inArray (.whole (l + k)) (indentLines (4 * k) t) =
        indentFrom (4 * k) false (inArray (.whole l) t) := by
  have hclosing : IsLine (indentWithin (.whole l) ++ [')']) :=
    isLine_append.mpr ⟨isLine_spaces _, by decide⟩
  have hnonempty : indentWithin (.whole l) ++ [')'] ≠ [] :=
    List.append_ne_nil_of_right_ne_nil _ (List.cons_ne_nil ')' [])
  have htext (level : Level) (t : Text) : inArray level t =
      ['@', '('] ++ ('\n' :: (t ++ (indentWithin level ++ [')']))) := by
    unfold inArray
    simp only [List.append_assoc, List.cons_append, List.nil_append]
  constructor
  · rw [inArray, IsInline, endsLine_append]
    rfl
  · rw [htext, htext, indentFrom_line_append _ (by decide)]
    refine congrArg (['@', '('] ++ '\n' :: ·) ?_
    change _ = indentFrom (4 * k) true (t ++ (indentWithin (.whole l) ++ [')']))
    rw [indentFrom_append, h, indentFrom_true _ hnonempty, indentFrom_line _ hclosing,
      indentWithin_deeper, List.append_assoc]
    rfl

theorem value_shifts {members : Fields Json} (h : (Json.object members).IsLined)
    (hmembers : ∀ p ∈ members, Shiftable p.2)
    (hparts : ∀ p ∈ members, ∀ part ∈ p.2.parts, Shiftable part) (l k : Nat) (path : Path) :
    Shifts (4 * k) false IsInline (value (.whole l) path (.object members))
      (value (.whole (l + k)) path (.object members)) := by
  rw [value, value, blockOf_eq, blockOf_eq, blocksOf_eq, blocksOf_eq]
  have hdeeper (j : Nat) : (Level.whole (l + k)).deeper j = .whole (l + j + k) := by
    rw [Level.deeper_whole, Nat.add_right_comm]
  split
  · rw [hdeeper, Level.deeper_whole]
    cases hget : members.get? "value" with
    | none => exact .error _
    | some content =>
      refine ((hmembers _ (Fields.mem_of_get? hget)).block (l + 1) k path
        fun hzero => absurd hzero (Nat.succ_ne_zero l)).map fun t ht => ?_
      exact (inline_indentLines ht).symm
  · unfold blocksIn
    split
    · next items hget =>
      split
      · exact .of_eq rfl rfl
      · rw [hdeeper, Level.deeper_whole]
        have hitems := blocks_shifts (l + 2) k path (hparts _ (Fields.mem_of_get? hget))
          fun hzero => absurd hzero (Nat.succ_ne_zero (l + 1))
        exact hitems.map fun t ht => inArray_deeper l k ht
    · exact .error _
  · exact (flatValue_isLine path _ h).shifts
  · exact .error _

/-- **What is rendered of a part without line feeds shifts with the level.**  The induction is on
the part; what is shown of it is shown of its parts too, which are where its blocks are. -/
theorem shiftable_of_isLined {part : Json} (h : part.IsLined) :
    Shiftable part ∧ ∀ inner ∈ part.parts, Shiftable inner := by
  induction h with
  | null | bool | number | string =>
    exact ⟨⟨fun _ _ _ => .error _, fun _ _ _ _ => .error _⟩, nofun⟩
  | array _ ih =>
    exact ⟨⟨fun _ _ _ => .error _, fun _ _ _ _ => .error _⟩,
      fun inner hinner => (ih inner hinner).1⟩
  | object names parts ih =>
    have hobject := Json.IsLined.object names parts
    have hmembers := fun p hp => (ih p hp).1
    have hparts := fun p hp => (ih p hp).2
    refine ⟨⟨fun l k path => value_shifts hobject hmembers hparts l k path,
      fun l k path => block_shifts hobject hparts l k path⟩, fun inner hinner => ?_⟩
    obtain ⟨p, hp, rfl⟩ := List.mem_map.mp hinner
    exact hmembers p hp

/-! ### Entries -/

theorem entries_deeper {parts : List Json} (h : ∀ part ∈ parts, part.IsLined) (l k : Nat)
    (hkeys : l = 0 → ∀ part ∈ parts, NamesNoResource part) :
    entries (.whole (l + k)) parts = (entries (.whole l) parts).map (indentLines (4 * k)) :=
  (blocks_shifts l k [] (fun part hp => (shiftable_of_isLined (h part hp)).1) hkeys).eq_map

/-- **The level shifts lines, and does nothing else.**  If no text in the entries contains a line
feed, then at a deeper level every line has more space before it, by four for each step, and what
fails fails in the same way.  At the outermost level this holds unless a key is left out there. -/
theorem entries_shifted {parts : List Json} (h : ∀ part ∈ parts, part.IsLined) (l k : Nat)
    (hkeys : l = 0 → ∀ part ∈ parts, NamesNoResource part) :
    entries (.whole (l + k)) parts = (entries (.whole l) parts).map (indentLines (4 * k)) ∧
      ∀ x y, Level.ofNumber x = .ok (.whole l) → Level.ofNumber y = .ok (.whole (l + k)) →
        (parts.isEmpty || (Level.whole (l + k)).holds 3) →
          entriesAt y parts = (entriesAt x parts).map (indentLines (4 * k)) := by
  refine ⟨entries_deeper h l k hkeys, fun x y hx hy hholds => ?_⟩
  have hfits : (parts.isEmpty || (Level.whole l).holds 3) := by
    rw [Bool.or_eq_true] at hholds ⊢
    refine hholds.imp_right fun hholds => ?_
    unfold Level.holds at hholds ⊢
    rw [Level.margin_whole, decide_eq_true_iff] at hholds ⊢
    omega
  unfold entriesAt
  rw [hx, hy]
  simp only [bind, Except.bind, hholds, hfits, if_true]
  exact entries_deeper h l k hkeys

/-- A site with a binding within it. -/
def boundSite : Json :=
  .object [("resourceName", .string "Site"), ("instanceName", .string "s"),
    ("properties", .object [("Bind", .object [("kind", .string "SubObject"),
      ("value", .object [("typeName", .string "Binding"),
        ("properties", .object [("Port", .object [("kind", .string "Integer"),
          ("value", .number (.ofInt 80))])])])])])]

theorem isLined_boundSite : boundSite.IsLined := by
  simp [boundSite, IsLine]

/-- The outermost site, one level deeper. -/
theorem entries_shifted_site :
    entries (.whole (0 + 1)) [boundSite] =
      (entries (.whole 0) [boundSite]).map (indentLines 4) := by
  refine (entries_shifted (List.forall_mem_singleton.mpr isLined_boundSite) 0 1 fun _ =>
    List.forall_mem_singleton.mpr ?_).1
  rintro _ ⟨⟩
  decide

end DesiredState.Render

/-
The layout of written instances.

Writing puts texts together; what reading needs are the pieces these texts are made of.
A layout lists them: names, signs, brackets and the gaps between them, and for a value
without blocks in it whatever its own text falls into.  The properties of blocks are
taken in the order in which they are given, so it is sorted values that are laid out.

Behind a key there may be notes.  They stand where a comment is written: on the opening
line of a block, and behind anything else.
-/
import DesiredState.Proofs.Sorting
import DesiredState.Proofs.Token.Recognition
import DesiredState.Proofs.Token.Spelling
import DesiredState.Render.Entries
import DesiredState.Value.Encoded

namespace DesiredState

/-! ### Sorted values

Writing sorts the properties of each block.  What is written is therefore said of the
sorted value, and the layout itself never reorders anything.
-/

mutual

/-- A value with the properties of its blocks in the order of their keys. -/
def Value.sorted : Value → Value
  | .subObject b => .subObject b.sorted
  | .subObjectArray blocks => .subObjectArray (SubObject.sortedAll blocks)
  | flat => flat

/-- A block with its properties in the order of their keys, at every depth. -/
def SubObject.sorted : SubObject → SubObject
  | ⟨typeName, properties⟩ => ⟨typeName, Text.sortByKey (Value.sortedFields properties)⟩

/-- Blocks with their properties in the order of their keys. -/
def SubObject.sortedAll : List SubObject → List SubObject
  | [] => []
  | b :: rest => b.sorted :: SubObject.sortedAll rest

/-- Properties whose values are sorted. -/
def Value.sortedFields : List (Text × Value) → List (Text × Value)
  | [] => []
  | (key, x) :: rest => (key, x.sorted) :: Value.sortedFields rest

end

/-- An instance with its properties in the order of their keys, at every depth. -/
def Instance.sorted (i : Instance) : Instance :=
  { i with properties := Text.sortByKey (Value.sortedFields i.properties) }

/-- Whether a value holds no blocks. -/
def Value.isFlat : Value → Bool
  | .subObject _ | .subObjectArray _ => false
  | _ => true

theorem Value.sortedFields_eq (fields : List (Text × Value)) :
    Value.sortedFields fields = fields.map fun p => (p.1, p.2.sorted) := by
  induction fields with
  | nil => rfl
  | cons p rest ih => rw [Value.sortedFields, ih]; rfl

theorem SubObject.sortedAll_eq (blocks : List SubObject) :
    SubObject.sortedAll blocks = blocks.map SubObject.sorted := by
  induction blocks with
  | nil => rfl
  | cons b rest ih => rw [SubObject.sortedAll, ih]; rfl

theorem Value.sorted_of_isFlat {x : Value} (h : x.isFlat) : x.sorted = x := by
  cases x <;> first | rfl | exact absurd h Bool.false_ne_true

/-! ### Names and keys

These are the conditions under which names come back as names: a word is one token and
no other kind of token, and keys of one block are not spellings of each other.
-/

/-- A name that can be a key: a word, and none that stands for a comment or for a part of the
block itself. -/
structure IsKey (name : Text) : Prop where
  isWord : ∃ kind, Token.IsWord kind name
  notMetadata : isMetadataKey name = false
  notReserved : Text.lower name ∉
    ["resourcename".toList, "resourceinstancename".toList, "ciminstance".toList]

/-- Keys of one block: no two of them are equal, letter case disregarded. -/
structure AreKeys (names : List Text) : Prop where
  isKey : ∀ name ∈ names, IsKey name
  distinct : names.Pairwise fun a b => Text.sameName a b = false

theorem AreKeys.of_mem {fields : Fields α} (h : AreKeys fields.names) {p : Text × α}
    (hp : p ∈ fields) : IsKey p.1 :=
  h.isKey p.1 (List.mem_map_of_mem hp)

/-- A block whose class has a name that is a word, and whose properties have keys of which no two
are the same. -/
structure SubObject.IsHeaded (b : SubObject) : Prop where
  typeName : ∃ name kind, b.typeName = some name ∧ Token.IsWord kind name
  isKey : ∀ p ∈ b.properties, IsKey p.1
  nodup : (Fields.names b.properties).Nodup

/-- A block whose class has a name that is a bare word, and whose properties have keys. -/
structure SubObject.IsNamed (b : SubObject) : Prop where
  typeName : ∃ name, b.typeName = some name ∧ Token.IsWord .bareword name
  keys : AreKeys (Fields.names b.properties)

/-- Values that can be laid out: without blocks they are of some sort, and so are the blocks. -/
inductive Value.IsShapedOf (headed : SubObject → Prop) (leaf : Value → Prop) : Value → Prop where
  | flat {x : Value} (h : leaf x) (isFlat : x.isFlat) : IsShapedOf headed leaf x
  | block {b : SubObject} (named : headed b)
      (shaped : ∀ p ∈ b.properties, IsShapedOf headed leaf p.2) :
      IsShapedOf headed leaf (.subObject b)
  | blocks {items : List SubObject} (named : ∀ b ∈ items, headed b)
      (shaped : ∀ b ∈ items, ∀ p ∈ b.properties, IsShapedOf headed leaf p.2) :
      IsShapedOf headed leaf (.subObjectArray items)

/-- Values that can be laid out and read again, since their blocks are named. -/
def Value.IsShaped (leaf : Value → Prop) (x : Value) : Prop :=
  x.IsShapedOf SubObject.IsNamed leaf

theorem nodup_of_areKeys {names : List Text} (h : AreKeys names) : names.Nodup := by
  refine h.distinct.imp ?_
  rintro a _ hne rfl
  rw [Text.sameName, beq_self_eq_true] at hne
  cases hne

theorem SubObject.IsNamed.isHeaded {b : SubObject} (h : b.IsNamed) : b.IsHeaded where
  typeName := by
    obtain ⟨name, hname, hword⟩ := h.typeName
    exact ⟨name, .bareword, hname, hword⟩
  isKey := fun _ hp => h.keys.of_mem hp
  nodup := nodup_of_areKeys h.keys

theorem Value.IsShapedOf.mono {headed headed' : SubObject → Prop} {leaf leaf' : Value → Prop}
    (hb : ∀ b, headed b → headed' b) (hx : ∀ x, leaf x → leaf' x) {x : Value}
    (h : x.IsShapedOf headed leaf) : x.IsShapedOf headed' leaf' := by
  induction h with
  | flat h isFlat => exact .flat (hx _ h) isFlat
  | block named _ ih => exact .block (hb _ named) ih
  | blocks named _ ih => exact .blocks (fun b hm => hb b (named b hm)) ih

theorem Value.IsShapedOf.leaf_of_isFlat {headed : SubObject → Prop} {leaf : Value → Prop} {x : Value}
    (h : x.IsShapedOf headed leaf) (hflat : x.isFlat) : leaf x := by
  cases h with
  | flat hx _ => exact hx
  | block _ _ => exact absurd hflat Bool.false_ne_true
  | blocks _ _ => exact absurd hflat Bool.false_ne_true

/-- What can be read again can be laid out. -/
theorem Value.IsShaped.isShapedOf {leaf : Value → Prop} {x : Value} (h : x.IsShaped leaf) :
    x.IsShapedOf SubObject.IsHeaded leaf :=
  h.mono (fun _ => SubObject.IsNamed.isHeaded) fun _ => id

theorem sameName_comm (a b : Text) : Text.sameName a b = Text.sameName b a := by
  unfold Text.sameName
  exact Bool.eq_iff_iff.mpr (by rw [beq_iff_eq, beq_iff_eq]; exact eq_comm)

theorem AreKeys.perm {names others : List Text} (h : AreKeys names) (hp : others.Perm names) :
    AreKeys others where
  isKey name hn := h.isKey name (hp.mem_iff.mp hn)
  distinct := (hp.pairwise_iff fun {a b} hab => (sameName_comm b a).trans hab).mpr h.distinct

theorem names_sorted (fields : List (Text × Value)) :
    (Fields.names (Text.sortByKey (Value.sortedFields fields))).Perm (Fields.names fields) := by
  refine (Text.names_sortByKey _).trans ?_
  rw [Value.sortedFields_eq, List.map_map]
  exact List.Perm.refl _

theorem mem_sorted {fields : List (Text × Value)} {p : Text × Value}
    (h : p ∈ Text.sortByKey (Value.sortedFields fields)) :
    ∃ q ∈ fields, p = (q.1, q.2.sorted) := by
  rw [Text.mem_sortByKey, Value.sortedFields_eq, List.mem_map] at h
  obtain ⟨q, hq, rfl⟩ := h
  exact ⟨q, hq, rfl⟩

theorem SubObject.properties_sorted (b : SubObject) :
    b.sorted.properties = Text.sortByKey (Value.sortedFields b.properties) := by
  cases b
  rfl

theorem SubObject.IsNamed.sorted {b : SubObject} (h : b.IsNamed) : b.sorted.IsNamed := by
  obtain ⟨typeName, properties⟩ := b
  exact ⟨h.typeName, h.keys.perm (names_sorted properties)⟩

theorem SubObject.IsHeaded.sorted {b : SubObject} (h : b.IsHeaded) : b.sorted.IsHeaded := by
  obtain ⟨typeName, properties⟩ := b
  refine ⟨h.typeName, ?_, (names_sorted properties).nodup_iff.mpr h.nodup⟩
  intro p hp
  obtain ⟨q, hq, rfl⟩ := mem_sorted hp
  exact h.isKey q hq

/-- Sorting keeps the shape of a value. -/
theorem Value.IsShapedOf.sorted {headed : SubObject → Prop} {leaf : Value → Prop} {x : Value}
    (h : x.IsShapedOf headed leaf) (hsorted : ∀ b, headed b → headed b.sorted) :
    x.sorted.IsShapedOf headed leaf := by
  induction h with
  | flat h isFlat =>
    rw [Value.sorted_of_isFlat isFlat]
    exact .flat h isFlat
  | @block b named _ ih =>
    refine .block (hsorted b named) ?_
    intro p hp
    rw [SubObject.properties_sorted] at hp
    obtain ⟨q, hq, rfl⟩ := mem_sorted hp
    exact ih q hq
  | @blocks items named _ ih =>
    rw [Value.sorted, SubObject.sortedAll_eq]
    refine .blocks ?_ ?_
    · intro b hb
      obtain ⟨c, hc, rfl⟩ := List.mem_map.mp hb
      exact hsorted c (named c hc)
    · intro b hb p hp
      obtain ⟨c, hc, rfl⟩ := List.mem_map.mp hb
      rw [SubObject.properties_sorted] at hp
      obtain ⟨q, hq, rfl⟩ := mem_sorted hp
      exact ih c hc q hq

theorem Value.IsShaped.sorted {leaf : Value → Prop} {x : Value} (h : x.IsShaped leaf) :
    x.sorted.IsShaped leaf :=
  IsShapedOf.sorted h fun _ => SubObject.IsNamed.sorted

theorem Value.isFlat_sorted (x : Value) : x.sorted.isFlat = x.isFlat := by
  cases x <;> rfl

/-! ### Pieces of a text -/

namespace Piece

/-- The pieces that a text by itself falls into. -/
def ofText (t : Text) : List Piece := (Token.scan t).map fun t => ⟨t.kind, t.text⟩

theorem ofText_place (start : Position) (pieces : List Piece) :
    ((place start pieces).map fun t => (⟨t.kind, t.text⟩ : Piece)) = pieces := by
  induction pieces generalizing start with
  | nil => rfl
  | cons piece rest ih => rw [place, List.map_cons, ih]

/-- Pieces that are read one by one are those of their text. -/
theorem ofText_textOf {pieces : List Piece} (h : Lexes pieces []) :
    ofText (textOf pieces) = pieces := by
  have hscan : ∀ (pieces : List Piece) (start : Position) (steps : Nat), Lexes pieces [] →
      (textOf pieces).length ≤ steps →
      Token.scanFrom steps start (textOf pieces) = place start pieces := by
    intro pieces
    induction pieces with
    | nil => intro start steps _ _; cases steps <;> rfl
    | cons piece rest ih =>
      intro start steps hlexes hsteps
      obtain ⟨hpiece, hrest⟩ := hlexes
      rw [List.append_nil] at hpiece
      obtain ⟨fewer, hfewer, hstep⟩ := Token.scanFrom_next start hpiece hsteps
      rw [textOf_cons, hstep, place, ih _ fewer hrest hfewer]
  unfold ofText Token.scan
  rw [hscan pieces .start _ h (Nat.le_refl _), ofText_place]

theorem skipUnknown_suffix (t : Text) : Token.skipUnknown t <:+ t := by
  induction t with
  | nil => exact List.suffix_refl _
  | cons c t ih =>
    rw [Token.skipUnknown]
    split
    · exact List.suffix_refl _
    · exact ih.trans (List.suffix_cons c t)

/-- Every piece of a text takes something from it, unknown characters included. -/
theorem nextPiece_takes (c : Char) (t : Text) :
    ∃ taken, c :: t = taken ++ (Token.nextPiece (c :: t)).2 ∧ taken ≠ [] := by
  unfold Token.nextPiece
  cases hn : Token.next? (c :: t) with
  | some found =>
    obtain ⟨kind, rest⟩ := found
    obtain ⟨-, ⟨taken, htaken⟩, hlt⟩ := Token.next?_takes hn
    refine ⟨taken, htaken.symm, ?_⟩
    rintro rfl
    rw [List.nil_append] at htaken
    rw [htaken] at hlt
    exact Nat.lt_irrefl _ hlt
  | none =>
    obtain ⟨skipped, hskipped⟩ := skipUnknown_suffix t
    refine ⟨c :: skipped, ?_, List.cons_ne_nil _ _⟩
    simp [Token.skipUnknown, hn, hskipped]

/-- A text is made of its pieces. -/
theorem textOf_ofText (t : Text) : textOf (ofText t) = t := by
  have hscan : ∀ (steps : Nat) (start : Position) (t : Text), t.length ≤ steps →
      textOf ((Token.scanFrom steps start t).map fun t => ⟨t.kind, t.text⟩) = t := by
    intro steps
    induction steps with
    | zero =>
      intro start t ht
      rw [List.eq_nil_of_length_eq_zero (Nat.le_zero.mp ht)]
      rfl
    | succ steps ih =>
      intro start t ht
      cases t with
      | nil => rfl
      | cons c t =>
        obtain ⟨taken, htaken, hne⟩ := nextPiece_takes c t
        have hlen : t.length + 1 = taken.length + (Token.nextPiece (c :: t)).2.length := by
          rw [← List.length_append, ← htaken, List.length_cons]
        have hpos : 0 < taken.length := List.length_pos_iff.mpr hne
        have htext : (c :: t).take (t.length + 1 - (Token.nextPiece (c :: t)).2.length) = taken := by
          rw [hlen, Nat.add_sub_cancel]
          conv => lhs; rw [htaken]
          exact List.take_left
        rw [Token.scanFrom]
        simp only [htext, List.map_cons, textOf_cons]
        rw [ih _ _ (by rw [List.length_cons] at ht; omega), ← htaken]
  exact hscan t.length .start t (Nat.le_refl _)

end Piece

namespace Layout

/-! ### Pieces -/

/-- Spaces. -/
def gap (n : Nat) : Piece := ⟨.blank, Text.spaces n⟩

/-- The end of a line. -/
def lineEnd : Piece := ⟨.blank, ['\n']⟩

/-- A name. -/
def word (name : Text) : Piece := ⟨Token.wordKind name, name⟩

/-- A text in double quotes. -/
def quoted (t : Text) : Piece := ⟨.doubleQuoted, Render.quoted t⟩

def equals : Piece := ⟨.equals, ['=']⟩

def braceOpen : Piece := ⟨.braceOpen, ['\x7b']⟩

def braceClose : Piece := ⟨.braceClose, ['\x7d']⟩

def arrayOpen : Piece := ⟨.arrayOpen, ['@', '(']⟩

def parenClose : Piece := ⟨.parenClose, [')']⟩

def comma : Piece := ⟨.comma, [',']⟩

/-! ### Values without blocks -/

/-- The text of texts in array brackets. -/
def arrayText (texts : List Text) : Text := ['@', '('] ++ Text.join [','] texts ++ [')']

/-- The text of a value without blocks. -/
def flatText : Value → Text
  | .string t => Render.writeString t
  | .integer x => x.toText
  | .boolean true => "$true"
  | .boolean false => "$false"
  | .stringArray texts => arrayText (texts.map Render.writeString)
  | .integerArray numbers => arrayText (numbers.map Binary64.toText)
  | .raw t => t
  | .subObject _ | .subObjectArray _ => []

/-! ### Values, blocks and instances -/

/-- The width of a column of keys. -/
def width (names : List Text) : Nat := (names.map Text.size).foldl max 0

/-- The key of a line, with the signs of equality below each other. -/
def key (n width : Nat) (name : Text) : List Piece :=
  [gap (4 * (n + 1)), word name, gap (width - name.size + 1), equals, gap 1]

mutual

/-- The value of a property of a block at a level, with its notes. -/
def value (n : Nat) (notes : List Piece) : Value → List Piece
  | .subObject b => block (n + 1) notes b
  | .subObjectArray items =>
    if items.isEmpty then arrayOpen :: parenClose :: notes
    else arrayOpen :: (notes ++ lineEnd :: (blocks (n + 2) items ++ [gap (4 * (n + 1)), parenClose]))
  | flat => Piece.ofText (flatText flat) ++ notes

/-- A block of a class at a level, from its name to its closing brace. -/
def block (n : Nat) (notes : List Piece) : SubObject → List Piece
  | ⟨typeName, properties⟩ =>
    word (typeName.getD []) :: braceOpen :: (notes ++ lineEnd ::
      (lines n (width (Fields.names properties)) (fun _ => []) properties ++
        [gap (4 * n), braceClose]))

/-- Blocks at a level, one after another. -/
def blocks (n : Nat) : List SubObject → List Piece
  | [] => []
  | b :: rest => gap (4 * n) :: (block n [] b ++ lineEnd :: blocks n rest)

/-- The lines of a block at a level. -/
def lines (n width : Nat) (notes : Text → List Piece) : List (Text × Value) → List Piece
  | [] => []
  | (name, x) :: rest =>
    key n width name ++ (value n (notes name) x ++ lineEnd :: lines n width notes rest)

end

/-- A block that declares an instance. -/
def declaration (n : Nat) (notes : Text → List Piece) (i : Instance) : List Piece :=
  [gap (4 * n), word i.resourceName, gap 1, quoted i.instanceName, lineEnd, gap (4 * n), braceOpen,
    lineEnd] ++
    (lines n (width i.properties.names) notes i.properties ++ [gap (4 * n), braceClose, lineEnd])

/-- The note that a comment makes. -/
def note (comment : Piece) : List Piece := [gap 1, comment]

/-! ### The first line of a value

The notes of a value stand between what opens it and what closes it.
-/

/-- What stands before the notes of a value. -/
def opening : Value → List Piece
  | .subObject b => [word (b.typeName.getD []), braceOpen]
  | .subObjectArray items => if items.isEmpty then [arrayOpen, parenClose] else [arrayOpen]
  | flat => Piece.ofText (flatText flat)

/-- What stands behind the notes of a value. -/
def closing (n : Nat) : Value → List Piece
  | .subObject b =>
    lineEnd :: (lines (n + 1) (width (Fields.names b.properties)) (fun _ => []) b.properties ++
      [gap (4 * (n + 1)), braceClose])
  | .subObjectArray items =>
    if items.isEmpty then []
    else lineEnd :: (blocks (n + 2) items ++ [gap (4 * (n + 1)), parenClose])
  | _ => []

theorem value_eq (n : Nat) (notes : List Piece) (x : Value) :
    value n notes x = opening x ++ (notes ++ closing n x) := by
  cases x with
  | subObject b =>
    obtain ⟨typeName, properties⟩ := b
    rw [value, block]
    rfl
  | subObjectArray items =>
    rw [value, opening, closing]
    cases items with
    | nil => simp
    | cons b rest => simp
  | _ => exact congrArg (Piece.ofText _ ++ ·) (List.append_nil notes).symm

end Layout

end DesiredState

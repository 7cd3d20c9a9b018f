/-
Trees up to the letter case of names.

Two texts that are alike are read to two trees of the same shape.  Names in them, that is
keys, the heads of blocks and the names of parameters, are alike; what a value is made
of is the same; and every extent is the same stretch of the two texts.  Bare words can
be names or values, which only the place shows, so the relation has a parameter: at the
places that it leaves free the words may differ.

The words of a tree are listed in the order in which they stand, each with its place and
with what it is used for.  Keys are words too, and letter case shows in one of them: the
name of a parent is no member of a map, and in other letters it is.
-/
import DesiredState.Configuration.Imports
import DesiredState.Fields
import DesiredState.Proofs.LetterCase
import DesiredState.Proofs.Script.Heads
import Mathlib.Data.List.Forall2

namespace DesiredState

/-- Two texts that are alike. -/
structure TextPair where
  left : Text
  right : Text
  alike : left.Alike right

namespace TextPair

variable (S : TextPair)

/-- The same stretch of the two texts. -/
def Excerpts (t u : Text) : Prop := ∃ start stop, t = S.left.slice start stop ∧
  u = S.right.slice start stop

theorem Excerpts.alike {S : TextPair} {t u : Text} (h : S.Excerpts t u) : t.Alike u := by
  obtain ⟨start, stop, rfl, rfl⟩ := h
  exact S.alike.slice start stop

/-- The extents of the same stretch of the two texts. -/
structure Stretch (e f : Extent) : Prop where
  location : f.location = e.location
  text : S.Excerpts e.text f.text

theorem Stretch.range {S : TextPair} {e f : Extent} (h : S.Stretch e f) : f.range = e.range :=
  (Extent.range_alike h.location.symm h.text.alike).symm

end TextPair

variable (S : TextPair) (free : Location → Prop)

mutual

/-- Blocks that differ in the letter case of names. -/
inductive Block.Recased : Block → Block → Prop
  | mk {e f be bf : Extent} {head head' : Text} {place : Location}
      {name name' : Option Expression} {entries entries' : List Entry} :
      S.Stretch e f → head.Alike head' → Option.Rel Expression.Recased name name' →
      List.Forall₂ Entry.Recased entries entries' →
      Block.Recased ⟨e, head, place, name, ⟨be, entries⟩⟩ ⟨f, head', place, name', ⟨bf, entries'⟩⟩

inductive Entry.Recased : Entry → Entry → Prop
  | mk {key key' : Text} {place : Location} {value value' : Statement} :
      key.Alike key' →
      (¬ free place → (key' = Fields.parentName ↔ key = Fields.parentName)) →
      Statement.Recased value value' → Entry.Recased ⟨key, place, value⟩ ⟨key', place, value'⟩

inductive Command.Recased : Command → Command → Prop
  | mk {e f : Extent} {name name' : Text} {arguments arguments' : List Argument} :
      S.Stretch e f → (¬ free e.location → name' = name) → name.Alike name' →
      List.Forall₂ Argument.Recased arguments arguments' →
      Command.Recased ⟨e, name, arguments⟩ ⟨f, name', arguments'⟩

inductive Argument.Recased : Argument → Argument → Prop
  | parameter {e f : Extent} {name name' : Text} :
      name.Alike name' → Argument.Recased (.parameter e name) (.parameter f name')
  | value {a b : Expression} : Expression.Recased a b → Argument.Recased (.value a) (.value b)

inductive Term.Recased : Term → Term → Prop
  | expression {a b : Expression} : Expression.Recased a b →
      Term.Recased (.expression a) (.expression b)
  | command {a b : Command} : Command.Recased a b → Term.Recased (.command a) (.command b)
  | block {a b : Block} : Block.Recased a b → Term.Recased (.block a) (.block b)

inductive Expression.Recased : Expression → Expression → Prop
  | string {e f : Extent} {value value' : Text} {quote : Quote} :
      S.Stretch e f → (¬ free e.location → value' = value) →
      Expression.Recased (.string e value quote) (.string f value' quote)
  | number {e f : Extent} {value : Binary64} :
      S.Stretch e f → f.text = e.text → Expression.Recased (.number e value) (.number f value)
  | variable {e f : Extent} {name : Text} :
      S.Stretch e f → Expression.Recased (.variable ⟨e, name⟩) (.variable ⟨f, name⟩)
  | member {e f : Extent} {target target' : Variable} {members members' : List Text} :
      S.Stretch e f →
      Expression.Recased (.member e target members) (.member f target' members')
  | array {e f : Extent} {bracketed : Bool} {elements elements' : List Term} :
      S.Stretch e f → List.Forall₂ Term.Recased elements elements' →
      Expression.Recased (.array e bracketed elements) (.array f bracketed elements')
  | table {e f : Extent} {entries entries' : List Entry} :
      S.Stretch e f → List.Forall₂ Entry.Recased entries entries' →
      Expression.Recased (.table ⟨e, entries⟩) (.table ⟨f, entries'⟩)
  | scriptBlock {e f : Extent} : S.Stretch e f →
      Expression.Recased (.scriptBlock e) (.scriptBlock f)
  | unrecognized {e f : Extent} : S.Stretch e f →
      Expression.Recased (.unrecognized e) (.unrecognized f)

inductive Statement.Recased : Statement → Statement → Prop
  | configuration {e f : Extent} {name name' : Text} {body body' : List Statement} :
      S.Stretch e f → List.Forall₂ Statement.Recased body body' →
      Statement.Recased (.configuration e name body) (.configuration f name' body')
  | node {e f : Extent} {target target' : Expression} {body body' : List Statement} :
      S.Stretch e f → List.Forall₂ Statement.Recased body body' →
      Statement.Recased (.node e target body) (.node f target' body')
  | param {e f : Extent} : S.Stretch e f → Statement.Recased (.param e) (.param f)
  | assignment {e f : Extent} {target target' : Expression} {value value' : Statement} :
      S.Stretch e f →
      Statement.Recased (.assignment e target value) (.assignment f target' value')
  | block {a b : Block} : Block.Recased a b → Statement.Recased (.block a) (.block b)
  | pipeline {e f : Extent} {elements elements' : List Term} :
      S.Stretch e f → List.Forall₂ Term.Recased elements elements' →
      Statement.Recased (.pipeline e elements) (.pipeline f elements')

end

/-! ### Words -/

/-- What a word is used for. -/
inductive WordUse where
  /-- A keyword, a key, the head of a block, the name of an import or of a parameter. -/
  | name
  /-- The name of a command, which may as well be a bare word. -/
  | command
  /-- A string. -/
  | string
  deriving DecidableEq, Repr

/-- A word in a tree: what it is used for, and where it stands. -/
abbrev Word := WordUse × Location

mutual

/-- The words of a block: its head, its name, and its keys with their values. -/
def Block.words : Block → List Word
  | ⟨_, _, place, none, body⟩ => (.name, place) :: Table.words .name body
  | ⟨_, _, place, some name, body⟩ => (.name, place) :: (name.words ++ Table.words .name body)
termination_by structural b => b

def Table.words (use : WordUse) : Table → List Word
  | ⟨_, entries⟩ => Entry.wordsOf use entries
termination_by structural t => t

def Entry.words (use : WordUse) : Entry → List Word
  | ⟨_, place, value⟩ => (use, place) :: value.words
termination_by structural e => e

def Entry.wordsOf (use : WordUse) : List Entry → List Word
  | [] => []
  | e :: rest => e.words use ++ Entry.wordsOf use rest
termination_by structural list => list

def Command.words : Command → List Word
  | ⟨extent, _, arguments⟩ => (.command, extent.location) :: Argument.wordsOf arguments
termination_by structural c => c

def Argument.words : Argument → List Word
  | .parameter extent _ => [(.name, extent.location)]
  | .value e => e.words
termination_by structural a => a

def Argument.wordsOf : List Argument → List Word
  | [] => []
  | a :: rest => a.words ++ Argument.wordsOf rest
termination_by structural list => list

def Term.words : Term → List Word
  | .expression e => e.words
  | .command c => c.words
  | .block b => b.words
termination_by structural t => t

def Term.wordsOf : List Term → List Word
  | [] => []
  | t :: rest => t.words ++ Term.wordsOf rest
termination_by structural list => list

/-- The words of an expression; a key of a table is a word as a string is one. -/
def Expression.words : Expression → List Word
  | .string extent .. => [(.string, extent.location)]
  | .array _ _ elements => Term.wordsOf elements
  | .table t => t.words .string
  | .number .. | .variable _ | .member .. | .scriptBlock _ | .unrecognized _ => []
termination_by structural e => e

/-- The words of a statement; the keyword at its head stands where the statement does. -/
def Statement.words : Statement → List Word
  | .configuration extent _ body => (.name, extent.location) :: Statement.wordsOf body
  | .node extent target body =>
    (.name, extent.location) :: (target.words ++ Statement.wordsOf body)
  | .param extent => [(.name, extent.location)]
  | .assignment _ _ value => value.words
  | .block b => b.words
  | .pipeline _ elements => Term.wordsOf elements
termination_by structural s => s

def Statement.wordsOf : List Statement → List Word
  | [] => []
  | s :: rest => s.words ++ Statement.wordsOf rest
termination_by structural list => list

end

@[simp] theorem Entry.wordsOf_eq (use : WordUse) (list : List Entry) :
    Entry.wordsOf use list = list.flatMap (Entry.words use) := by
  induction list with
  | nil => rfl
  | cons e rest ih => rw [Entry.wordsOf, ih, List.flatMap_cons]

@[simp] theorem Argument.wordsOf_eq (list : List Argument) :
    Argument.wordsOf list = list.flatMap Argument.words := by
  induction list with
  | nil => rfl
  | cons a rest ih => rw [Argument.wordsOf, ih, List.flatMap_cons]

@[simp] theorem Term.wordsOf_eq (list : List Term) :
    Term.wordsOf list = list.flatMap Term.words := by
  induction list with
  | nil => rfl
  | cons t rest ih => rw [Term.wordsOf, ih, List.flatMap_cons]

@[simp] theorem Statement.wordsOf_eq (list : List Statement) :
    Statement.wordsOf list = list.flatMap Statement.words := by
  induction list with
  | nil => rfl
  | cons s rest ih => rw [Statement.wordsOf, ih, List.flatMap_cons]

/-! ### Where no word is free

The words of values do not stand at free places, so they are the same on both sides.  The keys of
blocks do, and that they call no parent on one side only has to be known of them.
-/

/-- No word of a value stands at a free place. -/
def KeepsWords (words : List Word) : Prop := ∀ w ∈ words, w.1 ≠ .name → ¬ free w.2

/-- Keys of blocks that stand in the same place are both the name of a parent, or neither is. -/
def KeepsParents (blocks blocks' : List Block) : Prop :=
  ∀ b ∈ blocks, ∀ b' ∈ blocks', ∀ e ∈ b.body.entries, ∀ e' ∈ b'.body.entries,
    e'.keyLocation = e.keyLocation → (e'.key = Fields.parentName ↔ e.key = Fields.parentName)

instance (blocks blocks' : List Block) : Decidable (KeepsParents blocks blocks') :=
  inferInstanceAs (Decidable (∀ b ∈ blocks, ∀ b' ∈ blocks', ∀ e ∈ b.body.entries,
    ∀ e' ∈ b'.body.entries, e'.keyLocation = e.keyLocation → (_ ↔ _)))

section Settled

variable {S : TextPair} {free : Location → Prop} {first second : List Word} {w : Word}
variable {front back front' back' : List Block}

theorem KeepsWords.left (h : KeepsWords free (first ++ second)) : KeepsWords free first :=
  fun v hv => h v (List.mem_append_left _ hv)

theorem KeepsWords.right (h : KeepsWords free (first ++ second)) : KeepsWords free second :=
  fun v hv => h v (List.mem_append_right _ hv)

theorem KeepsWords.tail (h : KeepsWords free (w :: second)) : KeepsWords free second :=
  fun v hv => h v (List.mem_cons_of_mem w hv)

theorem KeepsParents.mono {blocks blocks' : List Block} (h : KeepsParents blocks blocks')
    (hfront : front ⊆ blocks) (hfront' : front' ⊆ blocks') : KeepsParents front front' :=
  fun b hb b' hb' => h b (hfront hb) b' (hfront' hb')

theorem KeepsParents.left (h : KeepsParents (front ++ back) (front' ++ back')) :
    KeepsParents front front' :=
  h.mono (List.subset_append_left _ _) (List.subset_append_left _ _)

theorem KeepsParents.right (h : KeepsParents (front ++ back) (front' ++ back')) :
    KeepsParents back back' :=
  h.mono (List.subset_append_right _ _) (List.subset_append_right _ _)

theorem KeepsParents.tail {b b' : Block} (h : KeepsParents (b :: back) (b' :: back')) :
    KeepsParents back back' :=
  h.mono (List.subset_cons_self _ _) (List.subset_cons_self _ _)

/-- Of two keys in one place either no letter may change, or both are the name of a parent, or
neither is. -/
def KeysKept (free : Location → Prop) (list list' : List Entry) : Prop :=
  ∀ e ∈ list, ∀ e' ∈ list', e'.keyLocation = e.keyLocation →
    ¬ free e.keyLocation ∨ (e'.key = Fields.parentName ↔ e.key = Fields.parentName)

theorem KeysKept.tail {e e' : Entry} {list list' : List Entry}
    (h : KeysKept free (e :: list) (e' :: list')) : KeysKept free list list' :=
  fun d hd d' hd' => h d (List.mem_cons_of_mem e hd) d' (List.mem_cons_of_mem e' hd')

/-- The keys of a table are words of a value. -/
theorem KeepsWords.keysKept {list : List Entry} (h : KeepsWords free (Entry.wordsOf .string list))
    (list' : List Entry) : KeysKept free list list' := by
  rintro ⟨key, place, value⟩ he _ _ _
  refine .inl (h (.string, place) ?_ WordUse.noConfusion)
  rw [Entry.wordsOf_eq]
  exact List.mem_flatMap.mpr ⟨_, he, List.mem_cons_self⟩

theorem Entry.Recased.keyLocation {e e' : Entry} (h : e.Recased S free e') :
    e'.keyLocation = e.keyLocation := by
  cases h
  rfl

/-- Nothing is free. -/
abbrev Nowhere (_ : Location) : Prop := False

mutual

theorem Block.Recased.settled : ∀ {a b : Block}, a.Recased S free b → KeepsWords free a.words →
    KeepsParents a.blocks b.blocks → a.Recased S Nowhere b
  | ⟨e, head, place, none, ⟨be, entries⟩⟩, _, h, hw, hp => by
    cases h with
    | mk hextent hhead hname hentries =>
      cases hname
      refine .mk hextent hhead .none (Entry.Recased.settledAll hentries hw.tail ?_ hp.tail)
      exact fun e he e' he' hplace =>
        .inr (hp _ List.mem_cons_self _ List.mem_cons_self e he e' he' hplace)
  | ⟨e, head, place, some name, ⟨be, entries⟩⟩, _, h, hw, hp => by
    cases h with
    | mk hextent hhead hname hentries =>
      cases hname with
      | some hname =>
        refine .mk hextent hhead (.some (hname.settled hw.tail.left hp.tail.left))
          (Entry.Recased.settledAll hentries hw.tail.right ?_ hp.tail.right)
        exact fun e he e' he' hplace =>
          .inr (hp _ List.mem_cons_self _ List.mem_cons_self e he e' he' hplace)

theorem Entry.Recased.settled : ∀ {a b : Entry} {use : WordUse}, a.Recased S free b →
    KeepsWords free (a.words use) →
    ¬ free a.keyLocation ∨ (b.key = Fields.parentName ↔ a.key = Fields.parentName) →
    KeepsParents a.blocks b.blocks → a.Recased S Nowhere b
  | ⟨key, place, value⟩, _, _, h, hw, hk, hp => by
    cases h with
    | mk hkey hparent hvalue =>
      refine .mk hkey (fun _ => ?_) (hvalue.settled hw.tail hp)
      exact hk.elim hparent id

theorem Entry.Recased.settledAll : ∀ {list list' : List Entry} {use : WordUse},
    List.Forall₂ (Entry.Recased S free) list list' → KeepsWords free (Entry.wordsOf use list) →
    KeysKept free list list' → KeepsParents (Entry.blocksOf list) (Entry.blocksOf list') →
    List.Forall₂ (Entry.Recased S Nowhere) list list'
  | [], _, _, h, _, _, _ => by
    cases h
    exact .nil
  | e :: rest, _, _, h, hw, hk, hp => by
    cases h with
    | cons he hrest =>
      have hfirst := hk e List.mem_cons_self _ List.mem_cons_self he.keyLocation
      exact .cons (he.settled hw.left hfirst hp.left)
        (Entry.Recased.settledAll hrest hw.right hk.tail hp.right)

theorem Command.Recased.settled : ∀ {a b : Command}, a.Recased S free b →
    KeepsWords free a.words → KeepsParents a.blocks b.blocks → a.Recased S Nowhere b
  | ⟨e, name, arguments⟩, _, h, hw, hp => by
    cases h with
    | mk hextent hsame halike harguments =>
      have hplace := hw _ List.mem_cons_self WordUse.noConfusion
      exact .mk hextent (fun _ => hsame hplace) halike
        (Argument.Recased.settledAll harguments hw.tail hp)

theorem Argument.Recased.settled : ∀ {a b : Argument}, a.Recased S free b →
    KeepsWords free a.words → KeepsParents a.blocks b.blocks → a.Recased S Nowhere b
  | .parameter .., _, h, _, _ => by
    cases h with
    | parameter hname => exact .parameter hname
  | .value e, _, h, hw, hp => by
    cases h with
    | value he => exact .value (he.settled hw hp)

theorem Argument.Recased.settledAll : ∀ {list list' : List Argument},
    List.Forall₂ (Argument.Recased S free) list list' → KeepsWords free (Argument.wordsOf list) →
    KeepsParents (Argument.blocksOf list) (Argument.blocksOf list') →
    List.Forall₂ (Argument.Recased S Nowhere) list list'
  | [], _, h, _, _ => by
    cases h
    exact .nil
  | a :: rest, _, h, hw, hp => by
    cases h with
    | cons ha hrest =>
      exact .cons (ha.settled hw.left hp.left)
        (Argument.Recased.settledAll hrest hw.right hp.right)

theorem Term.Recased.settled : ∀ {a b : Term}, a.Recased S free b → KeepsWords free a.words →
    KeepsParents a.blocks b.blocks → a.Recased S Nowhere b
  | .expression e, _, h, hw, hp => by
    cases h with
    | expression he => exact .expression (he.settled hw hp)
  | .command c, _, h, hw, hp => by
    cases h with
    | command hc => exact .command (hc.settled hw hp)
  | .block b, _, h, hw, hp => by
    cases h with
    | block hb => exact .block (hb.settled hw hp)

theorem Term.Recased.settledAll : ∀ {list list' : List Term},
    List.Forall₂ (Term.Recased S free) list list' → KeepsWords free (Term.wordsOf list) →
    KeepsParents (Term.blocksOf list) (Term.blocksOf list') →
    List.Forall₂ (Term.Recased S Nowhere) list list'
  | [], _, h, _, _ => by
    cases h
    exact .nil
  | t :: rest, _, h, hw, hp => by
    cases h with
    | cons ht hrest =>
      exact .cons (ht.settled hw.left hp.left) (Term.Recased.settledAll hrest hw.right hp.right)

theorem Expression.Recased.settled : ∀ {a b : Expression}, a.Recased S free b →
    KeepsWords free a.words → KeepsParents a.blocks b.blocks → a.Recased S Nowhere b
  | .string .., _, h, hw, _ => by
    cases h with
    | string hextent hsame =>
      have hplace := hw _ List.mem_cons_self WordUse.noConfusion
      exact .string hextent fun _ => hsame hplace
  | .array _ _ elements, _, h, hw, hp => by
    cases h with
    | array hextent helements => exact .array hextent (Term.Recased.settledAll helements hw hp)
  | .table ⟨_, entries⟩, _, h, hw, hp => by
    cases h with
    | table hextent hentries =>
      exact .table hextent (Entry.Recased.settledAll hentries hw (hw.keysKept _) hp)
  | .number .., _, h, _, _ => by
    cases h with
    | number hextent htext => exact .number hextent htext
  | .variable _, _, h, _, _ => by
    cases h with
    | «variable» hextent => exact .variable hextent
  | .member .., _, h, _, _ => by
    cases h with
    | member hextent => exact .member hextent
  | .scriptBlock _, _, h, _, _ => by
    cases h with
    | scriptBlock hextent => exact .scriptBlock hextent
  | .unrecognized _, _, h, _, _ => by
    cases h with
    | unrecognized hextent => exact .unrecognized hextent

theorem Statement.Recased.settled : ∀ {a b : Statement}, a.Recased S free b →
    KeepsWords free a.words → KeepsParents a.blocks b.blocks → a.Recased S Nowhere b
  | .configuration _ _ body, _, h, hw, hp => by
    cases h with
    | configuration hextent hbody =>
      exact .configuration hextent (Statement.Recased.settledAll hbody hw.tail hp)
  | .node _ target body, _, h, hw, hp => by
    cases h with
    | node hextent hbody =>
      exact .node hextent (Statement.Recased.settledAll hbody hw.tail.right hp.right)
  | .param _, _, h, _, _ => by
    cases h with
    | param hextent => exact .param hextent
  | .assignment .., _, h, _, _ => by
    cases h with
    | assignment hextent => exact .assignment hextent
  | .block b, _, h, hw, hp => by
    cases h with
    | block hb => exact .block (hb.settled hw hp)
  | .pipeline _ elements, _, h, hw, hp => by
    cases h with
    | pipeline hextent helements =>
      exact .pipeline hextent (Term.Recased.settledAll helements hw hp)

theorem Statement.Recased.settledAll : ∀ {list list' : List Statement},
    List.Forall₂ (Statement.Recased S free) list list' →
    KeepsWords free (Statement.wordsOf list) →
    KeepsParents (Statement.blocksOf list) (Statement.blocksOf list') →
    List.Forall₂ (Statement.Recased S Nowhere) list list'
  | [], _, h, _, _ => by
    cases h
    exact .nil
  | s :: rest, _, h, hw, hp => by
    cases h with
    | cons hs hrest =>
      exact .cons (hs.settled hw.left hp.left)
        (Statement.Recased.settledAll hrest hw.right hp.right)

end

end Settled

end DesiredState

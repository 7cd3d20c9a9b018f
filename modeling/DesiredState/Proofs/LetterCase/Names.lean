/-
Names of a script.

The words of what is derived stand where the tokens do, one after another, so no place
holds two of them.  A place that holds a name therefore holds no value, and letters that
change at names only change no value.

An import is a command, and the name of a command may as well be a bare word.  Among the
statements of a body it cannot, so there the names of imports count as names.
-/
import DesiredState.Proofs.LetterCase.Parsing
import DesiredState.Proofs.LetterCase.Scanning
import DesiredState.Proofs.Script.Extents
import DesiredState.Proofs.Token.Coverage
import Mathlib.Data.List.Flatten
import Mathlib.Data.List.Nodup

namespace DesiredState

variable {source : Text} {ts us : List Token} {ps : List Phrase}

/-! ### Words of phrases

The words of a tree are listed in the order in which a reader meets them.  That they
stand at different places follows from the places of the tokens, which go up.
-/

/-- The words of a statement as it stands in a block: with its key, if it has one. -/
def Item.words (item : Item) : List Word :=
  match item.keyed? with
  | some (key, value) => (.name, key.location) :: value.words
  | none => item.statement.words

/-- The words of a phrase. -/
def Phrase.words : Phrase → List Word
  | .expression read => read.node.words
  | .argument read => read.node.words
  | .term read => read.node.words
  | .entry read => read.node.words .string
  | .value read => read.node.words
  | .item read => read.words

/-- The places at which words stand. -/
def placesOf (words : List Word) : List Location := words.map (·.2)

@[simp] theorem placesOf_nil : placesOf [] = [] := rfl

@[simp] theorem placesOf_cons (w : Word) (words : List Word) :
    placesOf (w :: words) = w.2 :: placesOf words := rfl

@[simp] theorem placesOf_append (words more : List Word) :
    placesOf (words ++ more) = placesOf words ++ placesOf more := List.map_append

theorem placesOf_sublist {words more : List Word} (h : words.Sublist more) :
    (placesOf words).Sublist (placesOf more) := h.map _

/-- The places of tokens. -/
def Token.places (ts : List Token) : List Location := ts.map Token.location

@[simp] theorem Token.places_append (ts us : List Token) :
    places (ts ++ us) = places ts ++ places us := List.map_append

@[simp] theorem Token.places_cons (t : Token) (ts : List Token) :
    places (t :: ts) = t.location :: places ts := rfl

@[simp] theorem Extent.location_ofTokens (source : Text) (t : Token) (ts : List Token) :
    (Extent.ofTokens source (t :: ts)).location = t.location := by
  cases hlast : (t :: ts).getLast? with
  | none => simp at hlast
  | some last => rw [Extent.ofTokens_eq rfl hlast]

theorem Extent.Spans.location_sublist {e : Extent} (h : e.Spans source ts) :
    [e.location].Sublist (Token.places ts) := by
  cases h with
  | token t => exact .refl _
  | tokens hne =>
    obtain ⟨first, rest, rfl⟩ := List.exists_cons_of_ne_nil hne
    rw [Extent.location_ofTokens, Token.places_cons]
    exact (List.nil_sublist _).cons_cons _

namespace Grammar

/-- What a statement contributes to an array has words of the statement. -/
theorem words_contributed (s : Statement) :
    ((contributed s).flatMap Term.words).Sublist s.words := by
  unfold contributed
  split
  · next b => simp [Term.words, Statement.words]
  · next => simp [Term.words, Statement.words, Expression.words]
  · next => simp [Statement.words]
  · next => simp [Term.words, Expression.words]

theorem words_joinValues (e f : Expression) :
    (joinValues source e f).words = e.words ++ f.words := by
  unfold joinValues
  dsimp only
  split <;> simp [Expression.words, Term.words]

/-- Where all statements have keys, the words of the entries are those of the statements. -/
theorem words_keyed {items : List Item} {keyed : List (Token × Statement)}
    (h : items.mapM (·.keyed?) = some keyed) :
    ((keyed.map keyedEntry).flatMap (Entry.words .name)).Sublist (items.flatMap Item.words) := by
  rw [map_keyed _ h, List.flatMap_assoc]
  refine List.Sublist.flatMap_right _ fun item _ => ?_
  unfold Item.words
  cases item.keyed? with
  | none => exact List.nil_sublist _
  | some pair => simp [keyedEntry, Entry.words]

/-- The words of an item are more than those of its statement by a key at most. -/
theorem Derives.words_statements {items : List Item}
    (h : Derives source ts (items.map .item)) :
    (items.flatMap fun item => item.statement.words).Sublist (items.flatMap Item.words) := by
  refine List.Sublist.flatMap_right _ fun item hitem => ?_
  unfold Item.words
  cases hkeyed : item.keyed? with
  | none => exact .refl _
  | some pair =>
    obtain ⟨-, extent, hs⟩ := h.keyed_statement (List.mem_map_of_mem hitem) hkeyed
    rw [hs]
    exact List.sublist_cons_self _ _

/-- The words of a block are its head, those of its arguments and those of its entries. -/
theorem words_block {e be : Extent} {head : Text} {place : Location} {arguments : List Argument}
    {name : Option Expression} (h : blockName? arguments = some name) (entries : List Entry) :
    Block.words ⟨e, head, place, name, ⟨be, entries⟩⟩ =
      (.name, place) ::
        (arguments.flatMap Argument.words ++ entries.flatMap (Entry.words .name)) := by
  unfold blockName? at h
  split at h
  · cases h
    simp [Block.words, Table.words]
  · cases h
    simp [Block.words, Table.words, Argument.words]
  · cases h

/-- **The words of phrases stand where the tokens do**, one after another. -/
theorem Derives.places_sublist (h : Derives source ts ps) :
    (placesOf (ps.flatMap Phrase.words)).Sublist (Token.places ts) := by
  -- Around a part there are more tokens, and before it there may be one that is a word itself.
  have hinner (opening closing : Token) (inner : List Token) :
      (Token.places inner).Sublist (Token.places (opening :: inner ++ [closing])) :=
    (inner_sublist opening inner closing).map _
  have hfront (ts us : List Token) : (Token.places ts).Sublist (Token.places (ts ++ us)) :=
    (List.sublist_append_left ts us).map _
  induction h with
  | nil => exact List.nil_sublist _
  | append _ _ ihp ihq =>
    rw [List.flatMap_append, placesOf_append, Token.places_append]
    exact ihp.append ihq
  | @leaf ts e hleaf hextent =>
    have hplace := hextent.location_sublist
    cases e with
    | string => exact hplace
    | array | table | member => cases hleaf
    | _ => exact List.nil_sublist _
  | member | unrecognized => exact List.nil_sublist _
  | array hitems ih =>
    rw [List.flatMap_map] at ih
    refine .trans ?_ (ih.trans (hinner _ _ _))
    refine placesOf_sublist (.trans ?_ hitems.words_statements)
    simp only [List.flatMap_singleton, Phrase.words, Expression.words, Term.wordsOf_eq,
      List.flatMap_assoc]
    exact List.Sublist.flatMap_right _ fun item _ => words_contributed item.statement
  | list _ _ ih =>
    simpa [Phrase.words, Expression.words, Term.words, List.flatMap_map] using ih
  | table _ ih =>
    refine .trans ?_ (hinner _ _ _)
    simpa [Phrase.words, Expression.words, Table.words, List.flatMap_map] using ih
  | entry _ ih =>
    simpa [Phrase.words, Entry.words] using ih
  | parameter => exact .refl _
  | argument _ _ ih => simpa [Phrase.words, Argument.words] using ih
  | joined _ _ _ ihe ihf =>
    simpa [Phrase.words, Argument.words, words_joinValues] using ihe.append ihf
  | expressionTerm _ ih => simpa [Phrase.words, Term.words] using ih
  | commandTerm _ ih =>
    simpa [Phrase.words, Term.words, Command.words, List.flatMap_map] using ih
  | assignment _ _ _ ihv =>
    rw [Token.places_append]
    refine .trans ?_ (List.sublist_append_right _ _)
    simpa [Phrase.words, Statement.words] using ihv
  | pipeline _ _ ih =>
    simpa [Phrase.words, Statement.words, List.flatMap_map] using ih
  | value hitem ih =>
    refine .trans (placesOf_sublist ?_) ih
    simpa [Phrase.words] using @Derives.words_statements source _ [_] hitem
  | plain _ ih => simpa [Phrase.words, Item.words] using ih
  | keyed _ ih => simpa [Phrase.words, Item.words] using ih
  | param hne => exact (Extent.Spans.tokens hne).location_sublist
  | configuration name hitems ih =>
    have hbody := (placesOf_sublist hitems.words_statements).trans
      (by simpa [Phrase.words, List.flatMap_map] using ih)
    simpa [Phrase.words, Item.words, Statement.words, List.flatMap_map] using hbody
  | node _ hitems iht ihi =>
    have hbody := (placesOf_sublist hitems.words_statements).trans
      (by simpa [Phrase.words, List.flatMap_map] using ihi)
    have htarget := iht.append hbody
    simpa [Phrase.words, Item.words, Statement.words, List.flatMap_map] using htarget
  | command _ _ iha ihp =>
    have hparts := iha.append ihp
    simpa [Phrase.words, Item.words, Statement.words, Term.words, Command.words,
      List.flatMap_map] using hparts
  | @textBody head opening closing ts inner arguments _ _ _ _ _ _ iha _ =>
    have hwords := iha.trans (hfront ts (opening :: inner ++ [closing]))
    simpa [Phrase.words, Item.words, Statement.words, Term.words, Command.words,
      List.flatMap_map] using hwords
  | @block head opening closing ts inner arguments items name keyed _ _ hname _ _ hkeyed iha ihi =>
    have hbody := (placesOf_sublist (words_keyed hkeyed)).trans
      (by simpa [Phrase.words, List.flatMap_map] using ihi)
    have hwords := iha.append (hbody.trans (hinner opening closing inner))
    rw [List.flatMap_map] at hwords
    rw [List.flatMap_singleton, Phrase.words, Item.words]
    dsimp only [Statement.words]
    rw [words_block hname]
    simpa [Phrase.words, keyedEntry, List.flatMap_map] using hwords

end Grammar

/-! ### Names of a script

A word is a name by where it stands in the tree: the same word may be the head of a
block and a string in a value.  So what is free to differ is a set of places and not of
words.
-/

/-- Words of which the first is a name. -/
def headNamed : List Word → List Word
  | [] => []
  | (_, place) :: rest => (.name, place) :: rest

/-- The words of a statement that is not within a value: the name of an import is a name. -/
def Statement.importWords (s : Statement) : List Word :=
  if (Import.arguments? s).isSome then headNamed s.words else s.words

/-- The words of a statement of a configuration. -/
def Statement.bodyWords : Statement → List Word
  | .node extent target body =>
    (.name, extent.location) :: (target.words ++ body.flatMap importWords)
  | s => s.importWords

/-- The words of a statement of a script. -/
def Statement.scriptWords : Statement → List Word
  | .configuration extent _ body => (.name, extent.location) :: body.flatMap bodyWords
  | s => s.bodyWords

/-- The words of a script. -/
def Script.words (script : Script) : List Word := script.statements.flatMap Statement.scriptWords

/-- Where the names of a script stand: keywords, the heads of blocks and the keys in them, the
names of imports and those of parameters. -/
def Script.IsName (script : Script) (place : Location) : Prop := (.name, place) ∈ script.words

instance (script : Script) (place : Location) : Decidable (script.IsName place) :=
  inferInstanceAs (Decidable (_ ∈ _))

/-- What is said of words in turn by their places alone. -/
theorem placesOf_flatMap {α : Type} {f g : α → List Word} (xs : List α)
    (h : ∀ x, placesOf (f x) = placesOf (g x)) :
    placesOf (xs.flatMap f) = placesOf (xs.flatMap g) := by
  rw [placesOf, List.map_flatMap, placesOf, List.map_flatMap]
  exact List.flatMap_congr fun x _ => h x

theorem placesOf_headNamed (words : List Word) : placesOf (headNamed words) = placesOf words := by
  cases words <;> rfl

namespace Statement

theorem placesOf_importWords (s : Statement) : placesOf s.importWords = placesOf s.words := by
  unfold importWords
  split
  · exact placesOf_headNamed _
  · rfl

theorem placesOf_bodyWords (s : Statement) : placesOf s.bodyWords = placesOf s.words := by
  unfold bodyWords
  split
  · next extent target body =>
    simp only [words, wordsOf_eq, placesOf_cons, placesOf_append,
      placesOf_flatMap body placesOf_importWords]
  · exact placesOf_importWords _

theorem placesOf_scriptWords (s : Statement) : placesOf s.scriptWords = placesOf s.words := by
  unfold scriptWords
  split
  · next extent name body =>
    simp only [words, wordsOf_eq, placesOf_cons, placesOf_flatMap body placesOf_bodyWords]
  · exact placesOf_bodyWords _

end Statement

/-- No two tokens stand at one place. -/
theorem Token.nodup_places (h : unknowns (scan source) = []) : (places (scan source)).Nodup := by
  refine List.pairwise_map.mpr ((pairwise_start h).imp_of_mem fun {t u} ht hu hlt hlocation => ?_)
  obtain rfl := eq_of_location h ht hu hlocation
  exact Nat.lt_irrefl _ hlt

/-- **No two words of a script stand at one place.** -/
theorem Script.nodup_places {script : Script} (h : parse source = .ok script) :
    (placesOf script.words).Nodup := by
  obtain ⟨hknown, items, hitems, rfl⟩ := parse_eq_ok_iff.mp h
  have hderives := Grammar.derives_of_script hitems
  have hplaces := hderives.places_sublist
  rw [List.flatMap_map] at hplaces
  have htokens : (Token.places (Token.significant (Token.scan source))).Nodup :=
    .sublist (List.filter_sublist.map _) (Token.nodup_places hknown)
  refine .sublist ?_ htokens
  rw [words, placesOf_flatMap _ Statement.placesOf_scriptWords, List.flatMap_map]
  exact (placesOf_sublist hderives.words_statements).trans hplaces

/-- What is no name stands where no name does. -/
theorem Script.keepsWords {script : Script} (h : parse source = .ok script) :
    KeepsWords script.IsName script.words := by
  rintro ⟨use, place⟩ hw hne hname
  have hsame := List.inj_on_of_nodup_map (Script.nodup_places h) hw hname rfl
  exact hne (congrArg Prod.fst hsame)

/-! ### Texts that differ in names -/

/-- A text that differs from the source of a script in the case of letters in names only. -/
structure Script.Renamed (script : Script) (source source' : Text) : Prop where
  alike : source.Alike source'
  /-- What is no word, or stands where no name does, is the same. -/
  kept : ∀ t ∈ Token.scan source,
    ¬ ((t.kind.isName ∨ t.kind = .parameter) ∧ script.IsName t.location) →
      source'.slice t.start.offset t.stop.offset = t.text

instance (script : Script) (source source' : Text) : Decidable (script.Renamed source source') :=
  decidable_of_iff (source.small = source'.small ∧ ∀ t ∈ Token.scan source,
    ¬ ((t.kind.isName ∨ t.kind = .parameter) ∧ script.IsName t.location) →
      source'.slice t.start.offset t.stop.offset = t.text)
    ⟨fun h => ⟨h.1, h.2⟩, fun h => ⟨h.alike, h.kept⟩⟩

/-- Tokens stand in their source where they say. -/
theorem Token.slice_eq_text (h : unknowns (scan source) = []) {t : Token} (ht : t ∈ scan source) :
    source.slice t.start.offset t.stop.offset = t.text := by
  obtain ⟨pieces, rfl, hlexes, hscan⟩ := exists_pieces h
  rw [hscan] at ht
  obtain ⟨front, piece, rest, rfl, rfl⟩ := Piece.mem_place ht
  have hstart := Position.advance_start_offset (Piece.textOf front)
  rw [Piece.stop_eq_advance_of_lexes hlexes, Token.stop]
  simp only [Position.advance_offset _ piece.text, hstart]
  rw [Piece.textOf_append, Piece.textOf_cons, ← List.append_assoc, Text.slice_append]

namespace Script.Renamed

variable {script : Script} {source' : Text}

/-- Tokens of the two texts are the same in small letters, one by one. -/
theorem small_eq (h : script.Renamed source source') :
    List.Forall₂ (fun t u : Token => t.small = u.small) (Token.scan source)
      (Token.scan source') := by
  refine List.forall₂_map_left_iff.mp (List.forall₂_map_right_iff.mp ?_)
  rw [List.forall₂_eq_eq_eq, ← Token.scan_small, h.alike, Token.scan_small]

/-- Tokens that are the same in small letters are twins. -/
theorem twin (h : script.Renamed source source')
    (hknown : Token.unknowns (Token.scan source) = [])
    (hknown' : Token.unknowns (Token.scan source') = []) {t u : Token} (ht : t ∈ Token.scan source)
    (hu : u ∈ Token.scan source') (hsmall : t.small = u.small) :
    t.Twin ⟨source, source', h.alike⟩ script.IsName u := by
  obtain ⟨hkind, htext, hstart⟩ := Token.mk.inj hsmall
  have hright := Token.slice_eq_text hknown' hu
  refine ⟨hkind.symm, hstart.symm, htext, fun hfree => ?_, Token.slice_eq_text hknown ht, hright⟩
  have hstop : t.stop = u.stop := by
    rw [Token.stop, Token.stop, hstart, Position.advance_alike _ htext]
  rw [← hright, ← hstart, ← hstop]
  exact h.kept t ht fun hname => hfree hname.1 hname.2

/-- What is picked by kind stands in the same places. -/
theorem filter_kind {ts us : List Token} {R : Token → Token → Prop} (h : List.Forall₂ R ts us)
    (hkind : ∀ t u, R t u → u.kind = t.kind) (p : TokenKind → Bool) :
    List.Forall₂ R (ts.filter fun t => p t.kind) (us.filter fun u => p u.kind) :=
  List.rel_filter (fun t u htu => by simp only [hkind t u htu]) h

/-- The other text has no unknown characters either, and its tokens are twins. -/
theorem twins (h : script.Renamed source source')
    (hknown : Token.unknowns (Token.scan source) = []) :
    Token.unknowns (Token.scan source') = [] ∧
      List.Forall₂ (Token.Twin ⟨source, source', h.alike⟩ script.IsName)
        (Token.significant (Token.scan source)) (Token.significant (Token.scan source')) := by
  have hsmall := h.small_eq
  have hknown' : Token.unknowns (Token.scan source') = [] := by
    have hall := filter_kind hsmall (fun t u htu => (Token.mk.inj htu).1.symm) (· == .unknown)
    change List.Forall₂ _ (Token.unknowns _) (Token.unknowns _) at hall
    rw [hknown] at hall
    exact List.forall₂_nil_left_iff.mp hall
  refine ⟨hknown', filter_kind ?_ (fun _ _ htu => htu.kind) TokenKind.isSignificant⟩
  refine List.forall₂_iff_zip.mpr ⟨hsmall.length_eq, fun {t u} htu => ?_⟩
  obtain ⟨ht, hu⟩ := List.of_mem_zip htu
  exact h.twin hknown hknown' ht hu (List.forall₂_zip hsmall htu)

end Script.Renamed

/-- **A text that differs in names only is a script of the same form.** -/
theorem Script.parse_renamed {script : Script} {source' : Text} (h : parse source = .ok script)
    (hnames : script.Renamed source source') :
    ∃ script', parse source' = .ok script' ∧
      List.Forall₂ (Statement.Recased ⟨source, source', hnames.alike⟩ script.IsName)
        script.statements script'.statements := by
  obtain ⟨hknown, items, hitems, hscript⟩ := parse_eq_ok_iff.mp h
  obtain ⟨hknown', htwins⟩ := hnames.twins hknown
  obtain ⟨items', hitems', hall⟩ := Grammar.script_recased htwins hitems
  refine ⟨_, parse_eq_ok_iff.mpr ⟨hknown', items', hitems', rfl⟩, ?_⟩
  rw [show script.statements = items.map (·.statement) from congrArg statements hscript]
  exact List.forall₂_map_left_iff.mpr (List.forall₂_map_right_iff.mpr
    (hall.imp fun _ _ hitem => hitem.statement))

end DesiredState

/-
What a script is derived from.

Every rule of the grammar reads tokens and makes a node of them, and nodes are made of
nodes in a few ways only.  `Derives` says which, apart from how the rules look for them:
over which tokens a phrase stands, of which phrases it is made, and which marks it gives
to tokens.  Each rule is opened once, to see that what it reads is derived; whatever
holds of all derived phrases is then proved by one induction, without the rules.

A phrase may stand over more tokens than it is made of.  Separators, brackets and whatever
is kept as text only are tokens over which no phrase stands.
-/
import DesiredState.Proofs.Script.Sections

namespace DesiredState

/-- What the rules of the grammar read. -/
inductive Phrase where
  | expression (read : Marked Expression)
  | argument (read : Marked Argument)
  | term (read : Marked Term)
  | entry (read : Marked Entry)
  | value (read : Marked Statement)
  | item (read : Item)

/-- The extent of tokens: what is cut out of the source, or the text of a single one. -/
inductive Extent.Spans (source : Text) : List Token → Extent → Prop
  | tokens {ts : List Token} (hne : ts ≠ []) : Spans source ts (.ofTokens source ts)
  | token (t : Token) : Spans source [t] ⟨t.text, t.location⟩

theorem Extent.Spans.ne_nil {source : Text} {ts : List Token} {e : Extent}
    (h : e.Spans source ts) : ts ≠ [] := by
  cases h with
  | tokens hne => exact hne
  | token t => exact List.cons_ne_nil _ _

/-- Whether an expression has no parts. -/
def Expression.isLeaf : Expression → Bool
  | .string .. | .number .. | .variable _ | .scriptBlock _ | .unrecognized _ => true
  | .member .. | .array .. | .table _ => false

/-- What a key says: a string its value, and everything else its text. -/
def Token.keyText (key : Token) : Text :=
  if key.kind.isString then (Literal.ofString key).1 else key.text

/-- An operand over just these tokens.  A string says what its only token says. -/
inductive Expression.Operand (source : Text) : List Token → Expression → Prop
  | string {t : Token} {extent : Extent} {quote : Quote} (hspans : extent.Spans source [t]) :
    Operand source [t] (.string extent t.keyText quote)
  | other {ts : List Token} {e : Expression} (hspans : e.extent.Spans source ts)
    (hvalue : ∀ extent value quote, e ≠ .string extent value quote)
    (hkind : ∀ t, ts = [t] → t.kind.isString = false) : Operand source ts e

/-- An operand has the extent of its tokens. -/
theorem Expression.Operand.spans {source : Text} {ts : List Token} {e : Expression}
    (h : e.Operand source ts) : e.extent.Spans source ts := by
  cases h with
  | string hspans => exact hspans
  | other hspans => exact hspans

theorem Expression.Operand.ne_nil {source : Text} {ts : List Token} {e : Expression}
    (h : e.Operand source ts) : ts ≠ [] := by
  cases h with
  | string => exact List.cons_ne_nil _ _
  | other hspans => exact hspans.ne_nil

/-- Whether an expression is more than a list without brackets. -/
def Expression.isWhole : Expression → Bool
  | .array _ false _ => false
  | _ => true

/-- An expression over just these tokens that commas have not joined. -/
structure Expression.Alone (source : Text) (ts : List Token) (e : Expression) : Prop where
  spans : e.extent.Spans source ts
  whole : e.isWhole

/-- Operands over just these tokens, with commas between them. -/
inductive Expression.Listed (source : Text) : List Token → Expression → Prop
  | operand {ts : List Token} {e : Expression} (he : e.Operand source ts) : Listed source ts e
  | joined {ts commas us : List Token} {e f : Expression} (he : Listed source ts e)
    (hcommas : ∀ t ∈ commas, t.kind = .comma) (hf : f.Operand source us) :
    Listed source (ts ++ commas ++ us) (Grammar.joinValues source e f)

/-- The tokens between the head of a block and its body are those of its name, but for commas
before and after them. -/
def Expression.IsName (source : Text) (ts : List Token) (e : Expression) : Prop :=
  ∃ before written after, ts = before ++ written ++ after ∧
    (∀ t ∈ before ++ after, t.kind = .comma) ∧ e.Listed source written

namespace Grammar

/-- The marks of the keys of a body. -/
def keyMarks (keyed : List (Token × Statement)) : List Mark :=
  keyed.map fun (key, _) => ⟨key.start.offset, .identifier⟩

/-- The mark of the head of a block, if the block has a name. -/
def headMarks (head : Token) (name : Option Expression) : List Mark :=
  if name.isSome then [⟨head.start.offset, .dynamicKeyword⟩] else []

/-- Phrases that stand over tokens, one after another. -/
inductive Derives (source : Text) : List Token → List Phrase → Prop
  -- Phrases side by side.
  | nil (ts : List Token) : Derives source ts []
  | append {ts us : List Token} {ps qs : List Phrase} (hps : Derives source ts ps)
    (hqs : Derives source us qs) : Derives source (ts ++ us) (ps ++ qs)
  -- Expressions.
  | leaf {ts : List Token} {e : Expression} (hleaf : e.isLeaf)
    (hextent : e.extent.Spans source ts) : Derives source ts [.expression ⟨e, []⟩]
  | member {ts us : List Token} {v : Variable} {marks : List Mark} (members : List Text)
    (htarget : Derives source ts [.expression ⟨.variable v, marks⟩]) :
    Derives source (ts ++ us) [.expression ⟨.member (.ofTokens source (ts ++ us)) v members, marks⟩]
  | unrecognized {ts us : List Token} {base : Marked Expression}
    (hbase : Derives source ts [.expression base]) :
    Derives source (ts ++ us)
      [.expression ⟨.unrecognized (.ofTokens source (ts ++ us)), base.marks⟩]
  | array {opening closing : Token} {inner : List Token} {items : List Item}
    (hitems : Derives source inner (items.map .item)) :
    Derives source (opening :: inner ++ [closing])
      [.expression ⟨.array (.ofTokens source (opening :: inner ++ [closing])) true
        (items.flatMap fun item => contributed item.statement), items.flatMap (·.marks)⟩]
  | list {ts : List Token} {all : List (Marked Expression)} (hne : all ≠ [])
    (hall : Derives source ts (all.map .expression)) :
    Derives source ts [.expression ⟨.array (.ofTokens source ts) false
      (all.map fun e => .expression e.node), all.flatMap (·.marks)⟩]
  | table {opening closing : Token} {inner : List Token} {entries : List (Marked Entry)}
    (hentries : Derives source inner (entries.map .entry)) :
    Derives source (opening :: inner ++ [closing])
      [.expression ⟨.table ⟨.ofTokens source (opening :: inner ++ [closing]),
        entries.map (·.node)⟩, entries.flatMap (·.marks)⟩]
  | entry {key : Token} {ts : List Token} {value : Marked Statement}
    (hvalue : Derives source ts [.value value]) :
    Derives source (key :: ts) [.entry ⟨⟨key.keyText, key.location, value.node⟩, value.marks⟩]
  -- Arguments of commands, and what stands between pipes.
  | parameter (t : Token) (name : Text) :
    Derives source [t] [.argument ⟨.parameter ⟨t.text, t.location⟩ name, []⟩]
  | argument {ts : List Token} {e : Marked Expression} (he : Derives source ts [.expression e])
    (halone : e.node.Alone source ts) : Derives source ts [.argument ⟨.value e.node, e.marks⟩]
  | joined {ts us : List Token} {e f : Expression} {marks marks' : List Mark}
    (he : Derives source ts [.argument ⟨.value e, marks⟩])
    (hf : Derives source us [.argument ⟨.value f, marks'⟩]) (halone : f.Alone source us) :
    Derives source (ts ++ us) [.argument ⟨.value (joinValues source e f), marks ++ marks'⟩]
  | expressionTerm {ts : List Token} {e : Marked Expression}
    (he : Derives source ts [.expression e]) :
    Derives source ts [.term ⟨.expression e.node, e.marks⟩]
  | commandTerm {head : Token} {ts : List Token} {arguments : List (Marked Argument)}
    (harguments : Derives source ts (arguments.map .argument)) :
    Derives source (head :: ts) [.term ⟨.command ⟨.ofTokens source (head :: ts), head.text,
      arguments.map (·.node)⟩, arguments.flatMap (·.marks)⟩]
  -- What stands behind an equals sign.
  | assignment {ts us : List Token} {target : Marked Expression} {value : Marked Statement}
    (htarget : Derives source ts [.expression target]) (hvalue : Derives source us [.value value]) :
    Derives source (ts ++ us) [.value ⟨.assignment (.ofTokens source (ts ++ us)) target.node
      value.node, target.marks ++ value.marks⟩]
  | pipeline {ts : List Token} {terms : List (Marked Term)} (hne : terms ≠ [])
    (hterms : Derives source ts (terms.map .term)) :
    Derives source ts [.value ⟨.pipeline (.ofTokens source ts) (terms.map (·.node)),
      terms.flatMap (·.marks)⟩]
  | value {ts : List Token} {item : Item} (hitem : Derives source ts [.item item]) :
    Derives source ts [.value ⟨item.statement, item.marks⟩]
  -- Statements.
  | plain {ts : List Token} {value : Marked Statement} (hvalue : Derives source ts [.value value]) :
    Derives source ts [.item ⟨value.node, none, value.marks⟩]
  | keyed {key : Token} {ts : List Token} {value : Marked Statement}
    (hvalue : Derives source ts [.value value]) :
    Derives source (key :: ts) [.item ⟨.assignment (.ofTokens source (key :: ts)) (bareString key)
      value.node, some (key, value.node), value.marks⟩]
  | param {ts : List Token} (hne : ts ≠ []) :
    Derives source ts [.item ⟨.param (.ofTokens source ts), none, []⟩]
  | configuration {keyword : Token} {ts : List Token} {items : List Item} (name : Text)
    (hitems : Derives source ts (items.map .item)) :
    Derives source (keyword :: ts) [.item ⟨.configuration (.ofTokens source (keyword :: ts)) name
      (items.map (·.statement)), none, items.flatMap (·.marks)⟩]
  | node {keyword : Token} {ts us : List Token} {target : Marked Expression} {items : List Item}
    (htarget : Derives source ts [.expression target])
    (hitems : Derives source us (items.map .item)) :
    Derives source (keyword :: (ts ++ us)) [.item ⟨.node (.ofTokens source (keyword :: (ts ++ us)))
      target.node (items.map (·.statement)), none, target.marks ++ items.flatMap (·.marks)⟩]
  | command {head : Token} {ts us : List Token} {arguments : List (Marked Argument)}
    {piped : List (Marked Term)} (harguments : Derives source ts (arguments.map .argument))
    (hpiped : Derives source us (piped.map .term)) :
    Derives source (head :: (ts ++ us)) [.item ⟨.pipeline (.ofTokens source (head :: (ts ++ us)))
      (.command ⟨.ofTokens source (head :: (ts ++ us)), head.text, arguments.map (·.node)⟩ ::
        piped.map (·.node)), none, arguments.flatMap (·.marks) ++ piped.flatMap (·.marks)⟩]
  /-- A body with a statement that is no entry is kept as text, and yet gives marks. -/
  | textBody {head opening closing : Token} {ts inner : List Token}
    {arguments : List (Marked Argument)} {items : List Item}
    (hopens : opening.kind = .braceOpen) (hcloses : closing.kind = .braceClose)
    (hbalanced : Nesting.Balanced inner)
    (harguments : Derives source ts (arguments.map .argument))
    (hitems : Derives source inner (items.map .item)) :
    Derives source (head :: (ts ++ (opening :: inner ++ [closing]))) [.item ⟨
      .pipeline (.ofTokens source (head :: (ts ++ (opening :: inner ++ [closing]))))
        [.command ⟨.ofTokens source (head :: (ts ++ (opening :: inner ++ [closing]))), head.text,
          arguments.map (·.node)⟩],
      none, arguments.flatMap (·.marks) ++
        (items.takeWhile (·.keyed?.isSome)).flatMap (·.marks)⟩]
  | block {head opening closing : Token} {ts inner : List Token}
    {arguments : List (Marked Argument)} {items : List Item} {name : Option Expression}
    {keyed : List (Token × Statement)} (hopens : opening.kind = .braceOpen)
    (harguments : Derives source ts (arguments.map .argument))
    (hname : blockName? (arguments.map (·.node)) = some name)
    (hnamed : ∀ e, name = some e → e.IsName source ts)
    (hitems : Derives source inner (items.map .item))
    (hkeyed : items.mapM (·.keyed?) = some keyed) :
    Derives source (head :: (ts ++ (opening :: inner ++ [closing]))) [.item ⟨
      .block ⟨.ofTokens source (head :: (ts ++ (opening :: inner ++ [closing]))), head.text,
        head.location, name, ⟨.ofTokens source (opening :: inner ++ [closing]),
          keyed.map fun (key, value) => ⟨key.text, key.location, value⟩⟩⟩,
      none, arguments.flatMap (·.marks) ++ (items.flatMap (·.marks) ++ keyMarks keyed) ++
        headMarks head name⟩]

namespace Derives

variable {source : Text} {ts us : List Token} {ps qs : List Phrase}

/-- No phrase stands over no tokens. -/
theorem ne_nil (h : Derives source ts ps) (hps : ps ≠ []) : ts ≠ [] := by
  induction h with
  | nil => exact absurd rfl hps
  | append _ _ ihp ihq =>
    intro hnil
    obtain ⟨hts, hus⟩ := List.append_eq_nil_iff.mp hnil
    exact hps (List.append_eq_nil_iff.mpr
      ⟨Classical.byContradiction fun hp => ihp hp hts,
        Classical.byContradiction fun hq => ihq hq hus⟩)
  | leaf _ hextent => exact hextent.ne_nil
  | param hne => exact hne
  | member _ _ ih | unrecognized _ ih | joined _ _ _ ih | assignment _ _ ih =>
    exact fun hnil => ih (List.cons_ne_nil _ _) (List.append_eq_nil_iff.mp hnil).1
  | list hne _ ih | pipeline hne _ ih => exact ih (by simpa using hne)
  | argument _ _ ih | expressionTerm _ ih | value _ ih | plain _ ih =>
    exact ih (List.cons_ne_nil _ _)
  | _ => simp

/-- Over tokens more than those that it is made of a phrase stands too. -/
theorem behind (h : Derives source ts ps) (us : List Token) : Derives source (ts ++ us) ps := by
  simpa using h.append (.nil us)

theorem before (h : Derives source us ps) (ts : List Token) : Derives source (ts ++ us) ps :=
  (Derives.nil ts).append h

theorem cons (h : Derives source ts ps) (t : Token) : Derives source (t :: ts) ps := h.before [t]

/-- A statement with a key is an assignment to it. -/
theorem keyed_statement (h : Derives source ts ps) {item : Item} {key : Token} {value : Statement}
    (hitem : .item item ∈ ps) (hkeyed : item.keyed? = some (key, value)) :
    key ∈ ts ∧ ∃ extent, item.statement = .assignment extent (bareString key) value := by
  induction h with
  | append _ _ ihp ihq =>
    rcases List.mem_append.mp hitem with hin | hin
    · exact ⟨List.mem_append_left _ (ihp hin).1, (ihp hin).2⟩
    · exact ⟨List.mem_append_right _ (ihq hin).1, (ihq hin).2⟩
  | keyed =>
    obtain rfl := Phrase.item.inj (List.mem_singleton.mp hitem)
    cases hkeyed
    exact ⟨List.mem_cons_self, _, rfl⟩
  | plain | param | configuration | node | command | textBody | block =>
    obtain rfl := Phrase.item.inj (List.mem_singleton.mp hitem)
    cases hkeyed
  | nil => cases hitem
  | _ => cases List.mem_singleton.mp hitem

end Derives

end Grammar

end DesiredState

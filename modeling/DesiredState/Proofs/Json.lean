/-
Writing JSON.

A value is written without white space, with a backslash before the characters of a string that
need one.  What is written is read back as the same value.  This is proved of values without
numbers in which no object names a member twice, with anything after them: the level below reads
the items and members, so that a value is read where there is a level for each of its characters.
-/
import DesiredState.Json.Reader

namespace DesiredState.Json

/-! ### Strings -/

/-- The mark that stands behind a backslash for a character. -/
def mark? : Char → Option Char
  | '"' => some '"'
  | '\\' => some '\\'
  | '\x08' => some 'b'
  | '\t' => some 't'
  | '\n' => some 'n'
  | '\x0c' => some 'f'
  | '\r' => some 'r'
  | _ => none

/-- A character as it is written in a string. -/
def writeChar (c : Char) : Text :=
  match mark? c with
  | some mark => ['\\', mark]
  | none =>
    if c.toNat < 0x20 then
      ['\\', 'u', '0', '0', Nat.digitChar (c.toNat / 16), Nat.digitChar (c.toNat % 16)]
    else [c]

/-- A string with its quotes. -/
def writeString (t : Text) : Text := '"' :: t.flatMap writeChar ++ ['"']

theorem escaped?_mark {c mark : Char} (h : mark? c = some mark) :
    escaped? mark = some c.toNat ∧ mark ≠ 'u' := by
  fun_cases mark? c with
  | case8 => simp_all [mark?]
  | _ =>
    obtain rfl := Option.some.inj h
    exact ⟨rfl, by decide⟩

theorem codes_mark {c mark : Char} (h : mark? c = some mark) (t : Text) :
    codes ('\\' :: mark :: t) = (codes t).map fun (more, rest) => (c.toNat :: more, rest) := by
  obtain ⟨hescaped, hne⟩ := escaped?_mark h
  rw [codes.eq_4 mark t fun _ _ _ _ _ he => absurd he hne, hescaped]
  cases codes t <;> rfl

theorem natOfHex?_control : ∀ n < 0x20,
    Binary64.natOfHex? 0 ['0', '0', Nat.digitChar (n / 16), Nat.digitChar (n % 16)] = some n := by
  decide

theorem codes_control {c : Char} (h : c.toNat < 0x20) (t : Text) :
    codes ('\\' :: 'u' :: '0' :: '0' :: Nat.digitChar (c.toNat / 16) ::
      Nat.digitChar (c.toNat % 16) :: t) =
      (codes t).map fun (more, rest) => (c.toNat :: more, rest) := by
  rw [codes, natOfHex?_control _ h]
  cases codes t <;> rfl

theorem codes_plain {c : Char} (hquote : c ≠ '"') (hbackslash : c ≠ '\\') (h : ¬ c.toNat < 0x20)
    (t : Text) :
    codes (c :: t) = (codes t).map fun (more, rest) => (c.toNat :: more, rest) := by
  rw [codes.eq_5 c t hquote (fun _ _ _ _ _ he => absurd he hbackslash)
    (fun _ _ he => absurd he hbackslash), if_neg (not_or.mpr ⟨h, hbackslash⟩)]
  cases codes t <;> rfl

theorem codes_writeChar (c : Char) (t : Text) :
    codes (writeChar c ++ t) = (codes t).map fun (more, rest) => (c.toNat :: more, rest) := by
  unfold writeChar
  cases hmark : mark? c with
  | some mark => exact codes_mark hmark t
  | none =>
    have hquote : c ≠ '"' := by rintro rfl; cases hmark
    have hbackslash : c ≠ '\\' := by rintro rfl; cases hmark
    by_cases hcontrol : c.toNat < 0x20
    · rw [if_pos hcontrol]
      exact codes_control hcontrol t
    · rw [if_neg hcontrol]
      exact codes_plain hquote hbackslash hcontrol t

theorem codes_written (t rest : Text) :
    codes (t.flatMap writeChar ++ '"' :: rest) = some (t.map Char.toNat, rest) := by
  induction t with
  | nil => rfl
  | cons c t ih =>
    rw [List.flatMap_cons, List.append_assoc, codes_writeChar, ih]
    rfl

/-- No character has the code of a surrogate. -/
theorem toNat_not_surrogate (c : Char) : ¬ (0xD800 ≤ c.toNat ∧ c.toNat < 0xE000) := by
  have hvalid : c.toNat < 0xD800 ∨ (0xDFFF < c.toNat ∧ c.toNat < 0x110000) := c.valid
  omega

theorem textOfCodes_toNat (t : Text) : textOfCodes (t.map Char.toNat) = t := by
  have hchar (c : Char) : charOfCode c.toNat = c := by
    rw [charOfCode, if_neg (toNat_not_surrogate c), Char.ofNat_toNat]
  induction t with
  | nil => rfl
  | cons c rest ih =>
    cases rest with
    | nil =>
      show [charOfCode c.toNat] = [c]
      rw [hchar]
    | cons d rest =>
      have hc := toNat_not_surrogate c
      rw [List.map_cons, List.map_cons, textOfCodes, if_neg (by omega), hchar, ← List.map_cons, ih]

/-- **A string that was written is read.** -/
theorem stringText_write (t rest : Text) :
    stringText (writeString t ++ rest) = some (t, rest) := by
  have hwritten : writeString t ++ rest = '"' :: (t.flatMap writeChar ++ '"' :: rest) := by
    rw [writeString, List.append_assoc]
    rfl
  rw [hwritten, stringText, codes_written, Option.map_some]
  simp only [textOfCodes_toNat]

/-! ### Groups -/

/-- The characters that may stand between the parts of a value. -/
def whiteSpace : Text := [' ', '\t', '\n', '\r']

theorem skipSpace_cons {c : Char} (h : c ∉ whiteSpace) (t : Text) :
    skipSpace (c :: t) = c :: t := by
  simp only [whiteSpace, List.mem_cons, List.not_mem_nil, or_false, not_or] at h
  rw [skipSpace, List.dropWhile_cons_of_neg]
  simp [h]

section

variable {α : Type} {item : Reader α} {text : α → Text} {close : Char}

theorem itemsUpTo_written (hclose : close ∉ whiteSpace) (hcomma : close ≠ ',') (rest : Text) :
    ∀ (more : List α) (a : α) (n : Nat),
      (∀ b ∈ a :: more, ∀ rest, item (text b ++ rest) = some (b, rest)) →
      (Text.join [','] ((a :: more).map text) ++ close :: rest).length ≤ n →
        itemsUpTo item close n (Text.join [','] ((a :: more).map text) ++ close :: rest) =
          some (a :: more, rest) := by
  intro more
  induction more with
  | nil =>
    intro a n hread hn
    cases n with
    | zero => simp at hn
    | succ n =>
      rw [List.map_cons, List.map_nil, Text.join, List.intercalate_singleton, itemsUpTo,
        hread a List.mem_cons_self]
      simp only [skipSpace_cons hclose, if_neg hcomma, if_true]
  | cons b more ih =>
    intro a n hread hn
    cases n with
    | zero => simp at hn
    | succ n =>
      have hjoin : Text.join [','] ((a :: b :: more).map text) ++ close :: rest =
          text a ++ ',' :: (Text.join [','] ((b :: more).map text) ++ close :: rest) := by
        rw [List.map_cons, List.map_cons, Text.join, List.intercalate_cons_cons, List.append_assoc,
          List.append_assoc]
        rfl
      have hspace : ',' ∉ whiteSpace := by decide
      rw [hjoin] at hn ⊢
      rw [itemsUpTo, hread a List.mem_cons_self]
      simp only [skipSpace_cons hspace, if_true]
      rw [ih b n (fun c hc => hread c (List.mem_cons_of_mem a hc)) ?_]
      · rfl
      · simp only [List.length_append, List.length_cons] at hn ⊢
        omega

/-- **Items that were written with commas between them are read as a group**, if none of them starts
with white space or with the closing mark. -/
theorem group_written (hclose : close ∉ whiteSpace) (hcomma : close ≠ ',') {as : List α}
    (hread : ∀ a ∈ as, ∀ rest, item (text a ++ rest) = some (a, rest))
    (hhead : ∀ a ∈ as, ∃ c t, text a = c :: t ∧ c ∉ whiteSpace ∧ c ≠ close) (rest : Text) :
    group item close (Text.join [','] (as.map text) ++ close :: rest) = some (as, rest) := by
  cases as with
  | nil =>
    show group item close (close :: rest) = some ([], rest)
    rw [group, skipSpace_cons hclose]
    exact if_pos rfl
  | cons a more =>
    obtain ⟨c, t, htext, hspace, hne⟩ := hhead a List.mem_cons_self
    have hstart : ∃ t', Text.join [','] ((a :: more).map text) ++ close :: rest = c :: t' := by
      cases more with
      | nil => exact ⟨t ++ close :: rest, by
          rw [List.map_cons, List.map_nil, Text.join, List.intercalate_singleton, htext]; rfl⟩
      | cons b more => exact ⟨_, by
          rw [List.map_cons, List.map_cons, Text.join, List.intercalate_cons_cons, htext]; rfl⟩
    have hitems := itemsUpTo_written hclose hcomma rest more a _ hread (Nat.le_refl _)
    obtain ⟨t', hstart⟩ := hstart
    rw [hstart] at hitems ⊢
    rw [group, skipSpace_cons hspace]
    simp only [if_neg hne]
    exact hitems

end

/-! ### Values -/

mutual

/-- A value as a text without white space. -/
def write : Json → Text
  | null => "null"
  | bool value => if value then "true" else "false"
  | number value => if value.isFinite then value.toText else "null"
  | string t => writeString t
  | array items => '[' :: Text.join [','] (writeItems items) ++ [']']
  | object members => '\x7b' :: Text.join [','] (writeMembers members) ++ ['\x7d']

/-- The items of an array as texts. -/
def writeItems : List Json → List Text
  | [] => []
  | item :: rest => item.write :: writeItems rest

/-- The members of an object as texts. -/
def writeMembers : List (Text × Json) → List Text
  | [] => []
  | member :: rest => writeMember member :: writeMembers rest

/-- A member of an object as a text. -/
def writeMember : Text × Json → Text
  | (name, value) => writeString name ++ ':' :: value.write

end

theorem writeItems_eq_map (items : List Json) : writeItems items = items.map write := by
  induction items with
  | nil => rw [writeItems]; rfl
  | cons item rest ih => rw [writeItems, ih]; rfl

theorem writeMembers_eq_map (members : List (Text × Json)) :
    writeMembers members = members.map writeMember := by
  induction members with
  | nil => rw [writeMembers]; rfl
  | cons member rest ih => rw [writeMembers, ih]; rfl

/-- A value without numbers in which no object names a member twice. -/
inductive IsPlain : Json → Prop
  | null : IsPlain null
  | bool (value : Bool) : IsPlain (bool value)
  | string (t : Text) : IsPlain (string t)
  | array {items : List Json} : (∀ item ∈ items, IsPlain item) → IsPlain (array items)
  | object {members : Fields Json} : (∀ member ∈ members, IsPlain member.2) →
      members.names.Nodup → IsPlain (object members)

/-- What is written starts with a character that closes nothing. -/
theorem IsPlain.exists_write {value : Json} (h : value.IsPlain) :
    ∃ c t, value.write = c :: t ∧ c ∉ whiteSpace ∧ c ≠ ']' := by
  cases h with
  | null => exact ⟨_, _, rfl, by decide⟩
  | bool value => cases value <;> exact ⟨_, _, rfl, by decide⟩
  | string t => exact ⟨_, _, rfl, by decide⟩
  | array => exact ⟨_, _, rfl, by decide⟩
  | object => exact ⟨_, _, rfl, by decide⟩

theorem exists_writeMember (member : Text × Json) :
    ∃ c t, writeMember member = c :: t ∧ c ∉ whiteSpace ∧ c ≠ '\x7d' := by
  obtain ⟨name, value⟩ := member
  exact ⟨_, _, rfl, by decide⟩

theorem length_le_join (separator : Text) {t : Text} {parts : List Text} (h : t ∈ parts) :
    t.length ≤ (Text.join separator parts).length := by
  induction parts with
  | nil => cases h
  | cons first rest ih =>
    cases rest with
    | nil =>
      obtain rfl := List.mem_singleton.mp h
      exact Nat.le_of_eq (by rw [Text.join, List.intercalate_singleton])
    | cons second rest =>
      rw [Text.join, List.intercalate_cons_cons, ← Text.join, List.length_append,
        List.length_append]
      obtain rfl | h := List.mem_cons.mp h
      · omega
      · have := ih h
        omega

theorem write_array_append (items : List Json) (rest : Text) :
    (array items).write ++ rest = '[' :: (Text.join [','] (items.map write) ++ ']' :: rest) := by
  rw [write, writeItems_eq_map, List.cons_append, List.cons_append, List.append_assoc]
  rfl

theorem write_object_append (members : Fields Json) (rest : Text) :
    (object members).write ++ rest =
      '\x7b' :: (Text.join [','] (members.map writeMember) ++ '\x7d' :: rest) := by
  rw [write, writeMembers_eq_map, List.cons_append, List.cons_append, List.append_assoc]
  rfl

theorem length_write_item {item : Json} {items : List Json} (h : item ∈ items) :
    item.write.length < (array items).write.length := by
  have hle := length_le_join [','] (List.mem_map.mpr ⟨item, h, rfl⟩ : item.write ∈ items.map write)
  rw [write, writeItems_eq_map, List.cons_append, List.length_cons, List.length_append]
  omega

theorem length_write_member {member : Text × Json} {members : Fields Json} (h : member ∈ members) :
    member.2.write.length < (object members).write.length := by
  have hle := length_le_join [',']
    (List.mem_map.mpr ⟨member, h, rfl⟩ : writeMember member ∈ members.map writeMember)
  rw [writeMember, List.length_append, List.length_cons] at hle
  rw [write, writeMembers_eq_map, List.cons_append, List.length_cons, List.length_append]
  omega

/-- A member that was written is read if its value is. -/
theorem memberOf_written {below : Reader Json} {member : Text × Json}
    (h : ∀ rest, below (member.2.write ++ rest) = some (member.2, rest)) (rest : Text) :
    memberOf below (writeMember member ++ rest) = some (member, rest) := by
  have hquote : '"' ∉ whiteSpace := by decide
  have hcolon : ':' ∉ whiteSpace := by decide
  have hwritten : writeMember member ++ rest =
      writeString member.1 ++ (':' :: (member.2.write ++ rest)) := by
    rw [writeMember, List.append_assoc]
    rfl
  have hspace : skipSpace (writeString member.1 ++ (':' :: (member.2.write ++ rest))) =
      writeString member.1 ++ (':' :: (member.2.write ++ rest)) := skipSpace_cons hquote _
  rw [hwritten, memberOf, hspace, stringText_write]
  simp only [skipSpace_cons hcolon, h, Option.map_some]

/-- A value that was written is read where there are levels enough. -/
theorem valueWithin_write {value : Json} (h : value.IsPlain) :
    ∀ (n : Nat), value.write.length < n → ∀ rest,
      valueWithin n (value.write ++ rest) = some (value, rest) := by
  induction h with
  | null =>
    intro n hn rest
    cases n with
    | zero => cases hn
    | succ n => rfl
  | bool value =>
    intro n hn rest
    cases n with
    | zero => cases hn
    | succ n => cases value <;> rfl
  | string t =>
    intro n hn rest
    cases n with
    | zero => cases hn
    | succ n =>
      rw [write]
      show (stringText (writeString t ++ rest)).map _ = _
      rw [stringText_write]
      rfl
  | @array items hplain ih =>
    intro n hn rest
    cases n with
    | zero => cases hn
    | succ n =>
      have hitems : group (valueWithin n) ']' (Text.join [','] (items.map write) ++ ']' :: rest) =
          some (items, rest) := group_written (by decide) (by decide)
        (fun item hitem => ih item hitem n (Nat.lt_of_lt_of_le (length_write_item hitem)
          (Nat.le_of_lt_succ hn)))
        (fun item hitem => (hplain item hitem).exists_write) rest
      rw [write_array_append]
      show (group (valueWithin n) ']' _).map _ = _
      rw [hitems]
      rfl
  | @object members _ hnodup ih =>
    intro n hn rest
    cases n with
    | zero => cases hn
    | succ n =>
      have hmembers : group (memberOf (valueWithin n)) '\x7d'
          (Text.join [','] (members.map writeMember) ++ '\x7d' :: rest) = some (members, rest) :=
        group_written (by decide) (by decide)
        (fun member hmember => memberOf_written (ih member hmember n
          (Nat.lt_of_lt_of_le (length_write_member hmember) (Nat.le_of_lt_succ hn))))
        (fun member _ => exists_writeMember member) rest
      rw [write_object_append]
      show (group (memberOf (valueWithin n)) '\x7d' _).map _ = _
      rw [hmembers, Option.map_some]
      simp only [Fields.ofPairs_eq_self hnodup]

/-- **What was written is read.** -/
theorem parse?_write {value : Json} (h : value.IsPlain) : parse? value.write = some value := by
  have hread := valueWithin_write h (value.write.length + 1) (Nat.lt_succ_self _) []
  rw [List.append_nil] at hread
  rw [parse?, hread]
  rfl

end DesiredState.Json

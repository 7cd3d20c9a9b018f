/-
Texts and their measure.

A text is a list of characters, so that everything said about reading and writing
is said by recursion on lists.  Positions are another matter: offsets, columns,
the padding of a written key and the order of keys all count 16-bit units, of which
a character takes one, or two when it lies above the basic plane.  `units` is that
view, `size` its length, and `slice` cuts a text at offsets counted that way.
-/

namespace DesiredState

/-- A text, character by character. -/
abbrev Text := List Char

/-- A quoted text may be used where a text is wanted. -/
instance : Coe String Text := ⟨String.toList⟩

namespace Text

/-! ### 16-bit units

Offsets and columns count units, of which characters beyond the basic plane have two.  A
cut may go through such a character, and then a replacement stands for its half.
-/

/-- How many 16-bit units a character takes. -/
def width (c : Char) : Nat := if c.toNat < 0x10000 then 1 else 2

/-- The 16-bit units of one character: itself, or a surrogate pair. -/
def unitsOf (c : Char) : List Nat :=
  if c.toNat < 0x10000 then [c.toNat]
  else [0xD800 + (c.toNat - 0x10000) / 0x400, 0xDC00 + (c.toNat - 0x10000) % 0x400]

/-- The 16-bit units of a text. -/
def units (t : Text) : List Nat := t.flatMap unitsOf

/-- The number of 16-bit units of a text. -/
def size : Text → Nat
  | [] => 0
  | c :: rest => width c + size rest

/-- What stands for half a character where a cut goes through one. -/
def replacement : Char := '\uFFFD'

/-- The text after its first `n` units. -/
def dropUnits : Nat → Text → Text
  | _, [] => []
  | n, c :: rest =>
    if n = 0 then c :: rest
    else if width c ≤ n then dropUnits (n - width c) rest
    else replacement :: rest

/-- The first `n` units of a text. -/
def takeUnits : Nat → Text → Text
  | _, [] => []
  | n, c :: rest =>
    if n = 0 then []
    else if width c ≤ n then c :: takeUnits (n - width c) rest
    else [replacement]

/-- The part of a text from one offset up to another, both counted in units. -/
def slice (t : Text) (start stop : Nat) : Text := takeUnits (stop - start) (dropUnits start t)

/-! ### Cutting and searching -/

/-- What follows `head` in a text that starts with it. -/
def dropHead? : (head t : Text) → Option Text
  | [], t => some t
  | _ :: _, [] => none
  | h :: head, c :: t => if h = c then dropHead? head t else none

/-- What follows the first place where `mark` stands. -/
def afterFirst? (mark : Text) : Text → Option Text
  | [] => dropHead? mark []
  | c :: rest =>
    match dropHead? mark (c :: rest) with
    | some after => some after
    | none => afterFirst? mark rest

/-- The text without a `tail` at its end. -/
def dropTail? (tail t : Text) : Option Text := (dropHead? tail.reverse t.reverse).map List.reverse

/-- Whether a text starts with `head`. -/
def startsWith (t head : Text) : Bool := head.isPrefixOf t

/-- Whether a text ends with `tail`. -/
def endsWith (t tail : Text) : Bool := tail.isSuffixOf t

/-- The parts between the occurrences of a character; always at least one. -/
def splitOn (separator : Char) : Text → List Text
  | [] => [[]]
  | c :: rest =>
    if c = separator then [] :: splitOn separator rest
    else
      match splitOn separator rest with
      | [] => [[c]]
      | part :: parts => (c :: part) :: parts

/-- The lines of a text, broken at a line feed with an optional carriage return before it. -/
def lines : Text → List Text
  | [] => [[]]
  | '\r' :: '\n' :: rest => [] :: lines rest
  | '\n' :: rest => [] :: lines rest
  | c :: rest =>
    match lines rest with
    | [] => [[c]]
    | line :: more => (c :: line) :: more

/-- The first of the `lines` of a text. -/
def firstLine : Text → Text
  | [] => []
  | '\r' :: '\n' :: _ => []
  | '\n' :: _ => []
  | c :: rest => c :: firstLine rest

/-- The parts joined with a separator between neighbours. -/
def join (separator : Text) (parts : List Text) : Text := List.intercalate separator parts

/-- A run of spaces. -/
def spaces (n : Nat) : Text := List.replicate n ' '

/-- The decimal digits of a number. -/
def ofNat (n : Nat) : Text := Nat.toDigits 10 n

/-- The number that a run of decimal digits denotes. -/
def natOfDigits (digits : Text) : Nat := Nat.ofDigitChars 10 digits 0

/-! ### Small facts -/

@[simp] theorem size_nil : size [] = 0 := rfl

@[simp] theorem size_cons (c : Char) (t : Text) : size (c :: t) = width c + size t := rfl

@[simp] theorem size_append (s t : Text) : size (s ++ t) = size s + size t := by
  induction s with
  | nil => simp
  | cons c s ih => simp [ih, Nat.add_assoc]

theorem width_pos (c : Char) : 0 < width c := by
  unfold width
  split <;> decide

theorem size_pos {t : Text} (h : t ≠ []) : 0 < size t := by
  obtain ⟨c, rest, rfl⟩ := List.exists_cons_of_ne_nil h
  exact Nat.add_pos_left (width_pos c) (size rest)

theorem length_unitsOf (c : Char) : (unitsOf c).length = width c := by
  unfold unitsOf width
  split <;> rfl

theorem length_units (t : Text) : (units t).length = size t := by
  induction t with
  | nil => rfl
  | cons c t ih =>
    simp only [units, List.flatMap_cons, List.length_append, length_unitsOf, size_cons] at ih ⊢
    rw [ih]

@[simp] theorem dropUnits_zero (t : Text) : dropUnits 0 t = t := by cases t <;> simp [dropUnits]

@[simp] theorem takeUnits_zero (t : Text) : takeUnits 0 t = [] := by cases t <;> simp [takeUnits]

/-- Dropping the units of `s` from `s ++ t` leaves `t`. -/
theorem dropUnits_size_append (s t : Text) : dropUnits (size s) (s ++ t) = t := by
  induction s with
  | nil => simp
  | cons c s ih =>
    have := width_pos c
    have hne : width c + size s ≠ 0 := by omega
    rw [List.cons_append, size_cons, dropUnits, if_neg hne, if_pos (by omega)]
    simpa using ih

/-- Taking the units of `s` from `s ++ t` gives `s`. -/
theorem takeUnits_size_append (s t : Text) : takeUnits (size s) (s ++ t) = s := by
  induction s with
  | nil => simp
  | cons c s ih =>
    have := width_pos c
    have hne : width c + size s ≠ 0 := by omega
    rw [List.cons_append, size_cons, takeUnits, if_neg hne, if_pos (by omega)]
    simpa using ih

/-- Cutting out a part by the offsets of its ends gives that part. -/
theorem slice_append (before part after : Text) :
    slice (before ++ part ++ after) (size before) (size before + size part) = part := by
  simp [slice, dropUnits_size_append, takeUnits_size_append]

/-- A text is its first line and the lines behind it. -/
theorem lines_eq (t : Text) : t.lines = t.firstLine :: t.lines.tail := by
  fun_induction firstLine t with
  | case1 => rfl
  | case2 => rfl
  | case3 => rfl
  | case4 c rest hreturn hfeed ih =>
    rw [lines.eq_4 c rest hreturn hfeed, ih]
    rfl

theorem dropHead?_append (head t : Text) : dropHead? head (head ++ t) = some t := by
  induction head with
  | nil => cases t <;> rfl
  | cons h head ih => simp [dropHead?, ih]

theorem eq_append_of_dropHead? {head t rest : Text} (h : dropHead? head t = some rest) :
    t = head ++ rest := by
  induction head generalizing t with
  | nil => cases t <;> simpa [dropHead?] using h
  | cons a head ih =>
    cases t with
    | nil => simp [dropHead?] at h
    | cons c t =>
      by_cases hc : a = c
      · subst hc
        simp only [dropHead?, if_true] at h
        simp [ih h]
      · simp [dropHead?, hc] at h

end Text

end DesiredState

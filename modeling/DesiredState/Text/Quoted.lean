/-
Quoted text.

Inside double quotes a backtick takes the next character literally, or names a
control character, and two quotes stand for one; inside single quotes only the
doubled quote is special.  `escapeDouble` writes a value so that `decodeDouble`
reads it back.
-/
import DesiredState.Text.Basic

namespace DesiredState.Text

/-- What a backtick and a character stand for. -/
def unescape : Char → Char
  | '0' => '\x00'
  | 'a' => '\x07'
  | 'b' => '\x08'
  | 'e' => '\x1b'
  | 'f' => '\x0c'
  | 'n' => '\n'
  | 'r' => '\r'
  | 't' => '\t'
  | 'v' => '\x0b'
  | c => c

/-- The value of what stands between double quotes. -/
def decodeDouble : Text → Text
  | [] => []
  | '`' :: c :: rest => unescape c :: decodeDouble rest
  | '"' :: '"' :: rest => '"' :: decodeDouble rest
  | c :: rest => c :: decodeDouble rest

/-- The value of what stands between single quotes. -/
def decodeSingle : Text → Text
  | [] => []
  | '\'' :: '\'' :: rest => '\'' :: decodeSingle rest
  | c :: rest => c :: decodeSingle rest

/-- A value as it is written between double quotes. -/
def escapeDouble : Text → Text
  | [] => []
  | '`' :: rest => '`' :: '`' :: escapeDouble rest
  | '"' :: rest => '`' :: '"' :: escapeDouble rest
  | c :: rest => c :: escapeDouble rest

/-- Writing a value between double quotes and reading it gives the value. -/
theorem decodeDouble_escapeDouble (value : Text) : decodeDouble (escapeDouble value) = value := by
  fun_induction escapeDouble value with
  | case1 => rfl
  | case2 rest ih => simp [decodeDouble, unescape, ih]
  | case3 rest ih => simp [decodeDouble, unescape, ih]
  | case4 c rest hb hq ih =>
    rw [decodeDouble]
    · rw [ih]
    · intro d r hc
      exact absurd hc hb
    · intro r hc
      exact absurd hc hq

end DesiredState.Text

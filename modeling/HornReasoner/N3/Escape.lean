import HornReasoner.Text.Digits

/-! The escapes of N3 strings. -/
namespace HornReasoner.N3

/-- The character whose code hexadecimal digits write. A plus sign may stand before
them. -/
def codeChar? : List Char → Option Char
  | '+' :: digits => Text.charOfHex? digits
  | digits => Text.charOfHex? digits

/-- The character of the code behind `\u`, or the escape as it stands. -/
def decodeCode (code : List Char) : List Char :=
  match codeChar? code with
  | some c => [c]
  | none => '\\' :: 'u' :: code

/-- The text that the body of a string stands for. A `\u` takes the next four
characters along, or all that are left; an unknown escape is its own character. -/
def unescape : List Char → List Char
  | [] => []
  | '\\' :: 'u' :: a :: b :: c :: d :: rest => decodeCode [a, b, c, d] ++ unescape rest
  | '\\' :: 'u' :: code => decodeCode code
  | '\\' :: 'n' :: rest => '\n' :: unescape rest
  | '\\' :: 't' :: rest => '\t' :: unescape rest
  | '\\' :: 'r' :: rest => '\r' :: unescape rest
  | '\\' :: c :: rest => c :: unescape rest
  | c :: rest => c :: unescape rest

end HornReasoner.N3

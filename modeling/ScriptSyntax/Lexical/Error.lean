/-
What can be wrong with a lexeme.
-/

namespace ScriptSyntax

/-- The ways in which a piece of text fails to be a token. -/
inductive LexicalError where
  /-- A character that begins no token. -/
  | unexpectedCharacter (c : Char)
  /-- A string that is not closed. -/
  | unterminatedString
  /-- A character literal that is not closed after one unit. -/
  | unterminatedCharacter
  /-- An exponent in a numeral with a base mark. -/
  | radixExponent
  /-- A point in a numeral with a base mark. -/
  | radixFraction
  /-- A base mark without digits. -/
  | radixMissingDigits
  /-- A second exponent. -/
  | repeatedExponent
  /-- An exponent without a sign. -/
  | exponentMissingSign
  /-- Nothing after the sign of an exponent. -/
  | exponentMissingDigits
  /-- A second point. -/
  | repeatedPoint
  /-- Nothing after a point. -/
  | fractionMissingDigits
  /-- A long integer that is a fraction. -/
  | longFraction
  deriving DecidableEq, Repr

/-- The wording of an error, which is also the text of the bad token. -/
def LexicalError.message : LexicalError → String
  | unexpectedCharacter c => "Unexpected character '" ++ String.singleton c ++ "'"
  | unterminatedString => "Unterminated string"
  | unterminatedCharacter => "Unterminated character"
  | radixExponent => "Hexadecimal, octal or binary number can not be exponential number"
  | radixFraction => "Hexadecimal, octal or binary number can not be decimal number"
  | radixMissingDigits => "Hexadecimal, octal or binary number must have at least 1 digit"
  | repeatedExponent => "Exponential number can not have more than one 'e'"
  | exponentMissingSign => "Exponential number must have '+' or '-' after 'e'"
  | exponentMissingDigits =>
    "Exponential number must have at least 1 digit after 'e+' or 'e-'"
  | repeatedPoint => "Decimal number can not have more than one '.'"
  | fractionMissingDigits => "Decimal number must have at least 1 digit after '.'"
  | longFraction => "Decimal number can not have modifier 'L'"

end ScriptSyntax

/-
The types a value can be converted to, and the words that name them.

* `ValueType.ofKeyword?_eq_some_iff` says that a word names at most one type,
  and each type is named by its keyword.
-/

namespace ScriptSyntax

/-- A type named in a script. -/
inductive ValueType where
  | null | byte | ubyte | short | ushort | int | uint | long | ulong
  | int128 | uint128 | float | double | longDouble | bool | char | string
  | list | dict | any | type | error
  deriving DecidableEq, Repr

namespace ValueType

/-- The word that names a type. -/
def keyword : ValueType → String
  | null => "void"
  | byte => "byte"
  | ubyte => "ubyte"
  | short => "short"
  | ushort => "ushort"
  | int => "int"
  | uint => "uint"
  | long => "long"
  | ulong => "ulong"
  | int128 => "int128"
  | uint128 => "uint128"
  | float => "float"
  | double => "double"
  | longDouble => "ldouble"
  | bool => "bool"
  | char => "char"
  | string => "string"
  | list => "list"
  | dict => "dict"
  | any => "any"
  | type => "type"
  | error => "error"

/-- A type is shown as its keyword between angle brackets. -/
def label (t : ValueType) : String :=
  "<" ++ t.keyword ++ ">"

/-- All types. -/
def all : List ValueType :=
  [null, byte, ubyte, short, ushort, int, uint, long, ulong, int128, uint128,
   float, double, longDouble, bool, char, string, list, dict, any, type, error]

/-- The type that a word names. -/
def ofKeyword? (word : String) : Option ValueType :=
  all.find? (fun t => t.keyword == word)

theorem ofKeyword?_keyword (t : ValueType) : ofKeyword? t.keyword = some t := by
  cases t <;> decide

theorem ofKeyword?_eq_some_iff (word : String) (t : ValueType) :
    ofKeyword? word = some t ↔ t.keyword = word := by
  constructor
  · intro h
    simpa using List.find?_some h
  · rintro rfl
    exact ofKeyword?_keyword t

end ValueType

end ScriptSyntax

import CodexStudy.Lib.Text

/-!
# JSON values and JavaScript strings

A number is an integer or is kept as it is written. A string of JavaScript is the list of its UTF-16 code units.
-/

namespace CodexStudy.Lib

inductive Json where
  | null
  | bool (b : Bool)
  | int (n : Int)
  | float (literal : Text)
  | string (text : Text)
  | array (items : List Json)
  | object (fields : List (Text × Json))

namespace Json

def get : Json → Text → Option Json
  | object fields, key => fields.lookup key
  | _, _ => none

def asStr : Json → Option Text
  | string text => some text
  | _ => none

def asArray : Json → Option (List Json)
  | array items => some items
  | _ => none

def asObject : Json → Option (List (Text × Json))
  | object fields => some fields
  | _ => none

/-- An integer of 64 bits. -/
def asI64 : Json → Option Int
  | int n => if -2 ^ 63 ≤ n ∧ n < 2 ^ 63 then some n else none
  | _ => none

def getStr (value : Json) (key : String) : Option Text := (value.get key.toList).bind asStr

def getArray (value : Json) (key : String) : Option (List Json) := (value.get key.toList).bind asArray

def str (text : String) : Json := string text.toList

def obj (fields : List (String × Json)) : Json := object (fields.map fun (key, value) => (key.toList, value))

end Json

abbrev JsString := List UInt16

namespace JsString

def ofLiteral (s : String) : JsString := s.toList.map fun c => UInt16.ofNat c.toNat

def isWhitespace (u : UInt16) : Bool :=
  (9 ≤ u && u ≤ 13) || u == 0x20 || u == 0xA0 || u == 0x1680 || (0x2000 ≤ u && u ≤ 0x200A) || u == 0x2028 ||
    u == 0x2029 || u == 0x202F || u == 0x205F || u == 0x3000 || u == 0xFEFF

def trim (s : JsString) : JsString := (s.dropWhile isWhitespace).rdropWhile isWhitespace

def lowerUnit (u : UInt16) : UInt16 := if 65 ≤ u && u ≤ 90 then u + 32 else u

def toAsciiLowerCase (s : JsString) : JsString := s.map lowerUnit

def startsWith (s start : JsString) : Bool := start.isPrefixOf s

def endsWith (s ending : JsString) : Bool := ending.isSuffixOf s

def includes (s part : JsString) : Bool := s.tails.any fun rest => part.isPrefixOf rest

end JsString

end CodexStudy.Lib

/-!
# Data

Values as a script writes them and as answers are given: null, truth values, integers, text, lists,
and records of named fields. The compact text of a value names the fields of a record in order, puts
no blanks between its parts, and escapes in text only what has to be escaped.
-/

namespace HazardLifo

inductive Datum where
  | null
  | bool (b : Bool)
  | int (n : Int)
  | text (s : String)
  | list (items : List Datum)
  | record (fields : List (String × Datum))
  deriving Repr, Inhabited

namespace Datum

def nat (n : Nat) : Datum := .int n

/-! ## Reading -/

def field? (d : Datum) (name : String) : Option Datum :=
  match d with
  | .record fields => fields.lookup name
  | _ => none

def text? : Datum → Option String
  | .text s => some s
  | _ => none

def int? : Datum → Option Int
  | .int n => some n
  | _ => none

/-- A number that fits into a machine word. -/
def word? : Datum → Option Nat
  | .int (.ofNat n) => if n < UInt64.size then some n else none
  | _ => none

def bool? : Datum → Option Bool
  | .bool b => some b
  | _ => none

def list? : Datum → Option (List Datum)
  | .list items => some items
  | _ => none

/-! ## Compact text -/

def hexDigit (n : Nat) : Char := if n < 10 then Char.ofNat (48 + n) else Char.ofNat (87 + n)

def escape (c : Char) : String :=
  match c with
  | '"' => "\\\""
  | '\\' => "\\\\"
  | '\n' => "\\n"
  | '\r' => "\\r"
  | '\t' => "\\t"
  | '\x08' => "\\b"
  | '\x0c' => "\\f"
  | c =>
    if c.toNat < 32 then
      "\\u00" ++ String.ofList [hexDigit (c.toNat / 16), hexDigit (c.toNat % 16)]
    else String.singleton c

def quote (s : String) : String := "\"" ++ String.join (s.toList.map escape) ++ "\""

def joinFields (fields : List (String × String)) : String :=
  ",".intercalate ((fields.mergeSort fun x y => !(y.1 < x.1)).map fun e => quote e.1 ++ ":" ++ e.2)

mutual

def compact : Datum → String
  | .null => "null"
  | .bool b => if b then "true" else "false"
  | .int n => toString n
  | .text s => quote s
  | .list items => "[" ++ ",".intercalate (compactItems items) ++ "]"
  | .record fields => "\x7b" ++ joinFields (compactFields fields) ++ "\x7d"

def compactItems : List Datum → List String
  | [] => []
  | item :: rest => item.compact :: compactItems rest

def compactFields : List (String × Datum) → List (String × String)
  | [] => []
  | (name, value) :: rest => (name, value.compact) :: compactFields rest

end

/-- A record with this field stands for a value whose destructor fails; the field's text is the
message. -/
def faultField : String := "$panic"

def fault? (d : Datum) : Option String :=
  (d.field? faultField).map fun message => message.text?.getD "drop"

end Datum

end HazardLifo

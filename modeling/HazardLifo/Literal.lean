/-!
# Record notation

The inspection text of a value: a plain word, a record with named fields, or a list. It is laid out
on one line, or with one field or element per line, four blanks deeper than its owner and followed
by a comma.
-/

namespace HazardLifo

inductive Literal where
  | atom (text : String)
  | record (name : String) (fields : List (String × Literal))
  | list (items : List Literal)
  deriving Repr

namespace Literal

def nat (n : Nat) : Literal := .atom (toString n)

mutual

def inline : Literal → String
  | .atom text => text
  | .record name fields => name ++ " \x7b " ++ ", ".intercalate (inlineFields fields) ++ " \x7d"
  | .list items => "[" ++ ", ".intercalate (inlineItems items) ++ "]"

def inlineFields : List (String × Literal) → List String
  | [] => []
  | (name, value) :: rest => (name ++ ": " ++ value.inline) :: inlineFields rest

def inlineItems : List Literal → List String
  | [] => []
  | item :: rest => item.inline :: inlineItems rest

end

def margin (depth : Nat) : String := "".pushn ' ' (4 * depth)

mutual

/-- The text over several lines; `depth` is that of the line it starts on. -/
def indented (depth : Nat) : Literal → String
  | .atom text => text
  | .record name fields =>
    name ++ " \x7b\n" ++ String.join (indentedFields depth fields) ++ margin depth ++ "\x7d"
  | .list [] => "[]"
  | .list (item :: rest) =>
    "[\n" ++ String.join (indentedItems depth (item :: rest)) ++ margin depth ++ "]"

def indentedFields (depth : Nat) : List (String × Literal) → List String
  | [] => []
  | (name, value) :: rest =>
    (margin (depth + 1) ++ name ++ ": " ++ value.indented (depth + 1) ++ ",\n") ::
      indentedFields depth rest

def indentedItems (depth : Nat) : List Literal → List String
  | [] => []
  | item :: rest =>
    (margin (depth + 1) ++ item.indented (depth + 1) ++ ",\n") :: indentedItems depth rest

end

/-- How an inspection text is laid out. -/
inductive Layout where
  | inline
  | indented
  deriving DecidableEq, Repr

def render (layout : Layout) (l : Literal) : String :=
  match layout with
  | .inline => l.inline
  | .indented => l.indented 0

end Literal

end HazardLifo

import BranchBound.Json

/-!
# Decoding JSON values

Partial functions from JSON values to data.  A record may be written as an object,
with unknown members ignored and repeated known ones refused, or as an array of
its fields in order.
-/

namespace BranchBound.Json

/-- A text. -/
def asString? : Json → Option String
  | .string text => text
  | _ => none

/-- A truth value. -/
def asBool? : Json → Option Bool
  | .bool b => some b
  | _ => none

/-- A float. -/
def asFloat? : Json → Option Float
  | .number n => n.toFloat?
  | _ => none

/-- An unsigned 64-bit integer. -/
def asNat? : Json → Option Nat
  | .number n => n.toNat?
  | _ => none

/-- The items of an array. -/
def asArray? : Json → Option (List Json)
  | .array items => some items
  | _ => none

/-- A value that may be `null`. -/
def asOption? {β : Type} (decode : Json → Option β) : Json → Option (Option β)
  | .null => some none
  | j => (decode j).map some

/-- A list. -/
def asList? {β : Type} (decode : Json → Option β) (j : Json) : Option (List β) := do
  (← asArray? j).mapM decode

/-- A pair. -/
def asPair? {β γ : Type} (first : Json → Option β) (second : Json → Option γ) :
    Json → Option (β × γ)
  | .array [a, b] => do return (← first a, ← second b)
  | _ => none

/-- One of some named values, written as its name or as an object that maps the
name to `null`. -/
def asEnum? {β : Type} (names : List (String × β)) : Json → Option β
  | .string (some name) => names.lookup name
  | .object [(some name, .null)] => names.lookup name
  | _ => none

/-- The fields of a record in the order of their names, each if it is present. -/
def fields? (names : List String) : Json → Option (List (Option Json))
  | .array items =>
      if items.length ≤ names.length then
        some (items.map some ++ List.replicate (names.length - items.length) none)
      else none
  | .object members => do
      let named ← members.mapM fun member => do return (← member.1, member.2)
      names.mapM fun name =>
        match named.filter fun member => member.1 == name with
        | [] => some none
        | [(_, value)] => some (some value)
        | _ => none
  | _ => none

/-- A field that must be present. -/
def required? {β : Type} (decode : Json → Option β) : Option Json → Option β
  | some j => decode j
  | none => none

/-- A field with a value to stand in for it when it is absent. -/
def defaulted? {β : Type} (decode : Json → Option β) (fallback : β) : Option Json → Option β
  | some j => decode j
  | none => some fallback

end BranchBound.Json

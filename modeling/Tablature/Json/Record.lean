/-
# Tablature.Json.Record — records in JSON.

A record is written as an object or as an array of its fields in their declared order. In an
object a declared name must not be repeated, and names that are not declared are passed over,
whatever they hold. In an array there are at most as many items as fields. A field is of one of
four kinds:

* `required`: it must be there;
* `optional`: in an object it may be missing or `null`; in an array its place must be filled,
  `null` standing for nothing;
* `optionalOrNothing`: it may be missing in either form, or `null`;
* `orElse`: it may be missing in either form and then has a default, but it is never `null`.
-/
import Tablature.Json.Value

namespace Tablature.Json

/-- The values that a record's fields were given. -/
structure Record where
  /-- Was the record written as an array? -/
  positional : Bool
  given : List (String × Value)

namespace Record

/-- Does no declared name occur twice? -/
def namesOnce (names : List String) (members : List (String × Value)) : Bool :=
  names.all fun name => (members.filter (·.1 == name)).length ≤ 1

/-- The members of an object, read as a record. -/
def ofMembers (names : List String) (members : List (String × Value)) : Option Record :=
  if namesOnce names members then some ⟨false, members⟩ else none

/-- An object or an array, read as a record with the given field names. -/
def read (names : List String) : Value → Option Record
  | .object members => ofMembers names members
  | .array items =>
      if items.length ≤ names.length then some ⟨true, names.zip items⟩ else none
  | _ => none

/-- The value given to a field. -/
def find? (r : Record) (name : String) : Option Value :=
  (r.given.find? (·.1 == name)).map (·.2)

/-- A value that may be `null`. -/
def nullable {α : Type} (decode : Value → Option α) : Value → Option (Option α)
  | .null => some none
  | v => (decode v).map some

/-- A field that must be there. -/
def required {α : Type} (r : Record) (name : String) (decode : Value → Option α) : Option α :=
  match r.find? name with
  | some v => decode v
  | none => none

/-- A field that an object may leave out. -/
def optional {α : Type} (r : Record) (name : String) (decode : Value → Option α) :
    Option (Option α) :=
  match r.find? name with
  | some v => nullable decode v
  | none => if r.positional then none else some none

/-- A field that either form may leave out. -/
def optionalOrNothing {α : Type} (r : Record) (name : String) (decode : Value → Option α) :
    Option (Option α) :=
  match r.find? name with
  | some v => nullable decode v
  | none => some none

/-- A field with a default. -/
def orElse {α : Type} (r : Record) (name : String) (default : α) (decode : Value → Option α) :
    Option α :=
  match r.find? name with
  | some v => decode v
  | none => some default

end Record

namespace Value

/-- A string. -/
def asString? : Value → Option String
  | .string s => some s
  | _ => none

/-- A truth value. -/
def asBool? : Value → Option Bool
  | .boolean b => some b
  | _ => none

/-- An integer from `-2 ^ 31` to `2 ^ 31 - 1`, written without point and exponent. -/
def asInt32? : Value → Option Int
  | .number (.integer n) => if -2147483648 ≤ n ∧ n < 2147483648 then some n else none
  | _ => none

/-- A natural number below `2 ^ 32`, written without point and exponent. -/
def asNat32? : Value → Option Nat
  | .number (.integer n) => if 0 ≤ n ∧ n < 4294967296 then some n.toNat else none
  | _ => none

/-- A number as a double. -/
def asFloat? : Value → Option Float
  | .number n => n.toFloat?
  | _ => none

/-- The items of a list, each read in the same way. -/
def decodeAll {α : Type} (decode : Value → Option α) : List Value → Option (List α)
  | [] => some []
  | item :: items =>
      match decode item, decodeAll decode items with
      | some a, some rest => some (a :: rest)
      | _, _ => none

/-- An array, each item read in the same way. -/
def asList? {α : Type} (decode : Value → Option α) : Value → Option (List α)
  | .array items => decodeAll decode items
  | _ => none

end Value

end Tablature.Json

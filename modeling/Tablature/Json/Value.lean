/-
# Tablature.Json.Value — JSON values.

Objects keep their members in the order written, repeated names included, because whether a repeated
name is an error depends on who reads the object.
-/
import Tablature.Json.Number

namespace Tablature.Json

/-- A JSON value. -/
inductive Value
  | null
  | boolean (value : Bool)
  | number (value : Number)
  | string (value : String)
  | array (items : List Value)
  | object (members : List (String × Value))

namespace Value

/-- The integer `n`. -/
def int (n : Int) : Value := .number (.integer n)

/-- The natural number `n`. -/
def nat (n : Nat) : Value := .int n

/-- The number `x`, or `null` when it is infinite or undefined. -/
def float (x : Float) : Value :=
  match Number.ofFloat? x with
  | some n => .number n
  | none => .null

/-- The value written for something that may be absent. -/
def option {α : Type} (encode : α → Value) : Option α → Value
  | some a => encode a
  | none => .null

/-- The array of the values written for the members of a list. -/
def list {α : Type} (encode : α → Value) (items : List α) : Value := .array (items.map encode)

/-- The member of an object with the given name, the first if there are several. -/
def member? (name : String) : Value → Option Value
  | .object members => (members.find? (·.1 == name)).map (·.2)
  | _ => none

mutual

/-- How many arrays and objects lie around the innermost value. -/
def depth : Value → Nat
  | .array items => depthOfItems items + 1
  | .object members => depthOfMembers members + 1
  | _ => 0

/-- The greatest depth in a list of values. -/
def depthOfItems : List Value → Nat
  | [] => 0
  | item :: items => max item.depth (depthOfItems items)

/-- The greatest depth in a list of members. -/
def depthOfMembers : List (String × Value) → Nat
  | [] => 0
  | (_, value) :: members => max value.depth (depthOfMembers members)

end

mutual

/-- Can a reader hold every number in the value? -/
def numbersInRange : Value → Bool
  | .number n => n.inRange
  | .array items => itemsInRange items
  | .object members => membersInRange members
  | _ => true

/-- Can a reader hold every number in the values? -/
def itemsInRange : List Value → Bool
  | [] => true
  | item :: items => item.numbersInRange && itemsInRange items

/-- Can a reader hold every number in the members? -/
def membersInRange : List (String × Value) → Bool
  | [] => true
  | (_, value) :: members => value.numbersInRange && membersInRange members

end

end Value

end Tablature.Json

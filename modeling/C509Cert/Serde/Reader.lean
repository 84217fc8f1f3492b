/-
Readers of JSON documents.

A reader is what a derived `Deserialize` comes to at a type: a struct is read from an object,
whose unknown members are skipped unless the struct denies them, or from an array of its
fields; an enumeration is read from an object of one member, its tag.

The mirrors of `Serde.Mirror` go both ways and know documents by what they write.  A reader
takes a document as it comes: its numbers may have a fraction, and its members any names.
-/
import Mathlib.Data.List.Nodup

namespace Serde

/-- A JSON document, as the tree its text denotes, with numbers of any kind. -/
inductive Value
  | null
  | bool (b : Bool)
  | integer (n : Int)
  /-- a number with a fraction or an exponent, as it is written -/
  | decimal (literal : String)
  | string (s : String)
  | array (l : List Value)
  | object (ms : List (String × Value))

namespace Value

/-- An array or an object, which alone have members. -/
def IsContainer : Value → Prop
  | array _ => True
  | object _ => True
  | _ => False

def IsObject : Value → Prop
  | object _ => True
  | _ => False

/-- An object has no members but those of some names. -/
def FieldsOnly (names : List String) : Value → Prop
  | object ms => ∀ m ∈ ms, m.1 ∈ names
  | _ => True

/-- The members a struct with fields of some names is read from. -/
def members (names : List String) : Value → List (String × Value)
  | object ms => ms
  | array l => names.zip l
  | _ => []

end Value

abbrev Reader (α : Type) := Value → Option α

namespace Reader

variable {α β γ : Type}

/-! ### Plain values, options, sequences -/

def bool : Reader Bool
  | .bool b => some b
  | _ => none

def string : Reader String
  | .string s => some s
  | _ => none

/-- An integer type, by the values that fit. -/
def integer (tryFrom : Int → Option α) : Reader α
  | .integer n => tryFrom n
  | _ => none

theorem reads_bool (b : Bool) : bool (.bool b) = some b := rfl

theorem reads_string (s : String) : string (.string s) = some s := rfl

/-- An optional value, `null` where there is none. -/
def option (r : Reader α) : Reader (Option α)
  | .null => some none
  | v => (r v).map some

theorem option_of_ne_null {r : Reader α} {v : Value} (h : v ≠ .null) :
    option r v = (r v).map some := by
  cases v with
  | null => exact absurd rfl h
  | _ => rfl

/-- A sequence, in an array. -/
def list (r : Reader α) : Reader (List α)
  | .array l => l.mapM r
  | _ => none

/-! ### Structs and enumerations -/

/-- The fields of a struct, in their order: a name, the reader of its type, and its default if
it has one. -/
inductive Schema : Type → Type 1
  | nil : Schema Unit
  | cons {α β : Type} (name : String) (r : Reader α) (default : Option α) (rest : Schema β) :
      Schema (α × β)

namespace Schema

def names : ∀ {α : Type}, Schema α → List String
  | _, nil => []
  | _, cons name _ _ rest => name :: rest.names

/-- A field, from the members of a document. -/
def field (ms : List (String × Value)) (name : String) (r : Reader α) (default : Option α) :
    Option α :=
  match ms.lookup name with
  | some v => r v
  | none => default

/-- The values of the fields, from members in any order. -/
def read (ms : List (String × Value)) : ∀ {α : Type}, Schema α → Option α
  | _, nil => some ()
  | _, cons name r default rest =>
      (field ms name r default).bind fun x => (rest.read ms).map fun y => (x, y)

end Schema

/-- No field is there twice, and nothing else is where that is denied. -/
def Schema.Admits (deny : Bool) (fields : Schema α) (given : List String) : Prop :=
  (given.filter (· ∈ fields.names)).Nodup ∧ (deny = true → ∀ name ∈ given, name ∈ fields.names)

instance (deny : Bool) (fields : Schema α) (given : List String) :
    Decidable (fields.Admits deny given) :=
  inferInstanceAs (Decidable (_ ∧ _))

/-- A struct; it may deny members it has no field for. -/
def struct (deny : Bool) (fields : Schema α) : Reader α
  | .object ms => if fields.Admits deny (ms.map (·.1)) then fields.read ms else none
  | .array l => if l.length ≤ fields.names.length then fields.read (fields.names.zip l) else none
  | _ => none

/-- An externally tagged enumeration, by the readers of its variants. -/
def tagged (variants : List (String × Reader α)) : Reader α
  | .object [(tag, v)] => (variants.lookup tag).bind fun r => r v
  | _ => none

end Reader

end Serde

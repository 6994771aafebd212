import TemplateLogging.Json.Basic

/-!
Reading JSON values as data: plain values, records, enumerations and tagged values. A record is an
object whose members stand in any order, each at most once, with unknown members skipped; it may
also be an array of its fields in order. A tagged value is a record whose field with the tag decides
what the other fields are; it is taken only when all of its parts are readable, and the names inside
it may be written in more ways than the ones outside. A labelled value has its content in one field
beside the tag.
-/

namespace TemplateLogging.Json

def toNull? : Json → Option Unit
  | null => some ()
  | _ => none

def toBool? : Json → Option Bool
  | bool b => some b
  | _ => none

def toString? : Json → Option String
  | str s => some s
  | _ => none

def toFloat? : Json → Option Float
  | int n => some (if n < 0 then (Int64.ofInt n).toFloat else n.toNat.toUInt64.toFloat)
  | float x => some x
  | _ => none

/-- A whole number with 64 bits and a sign. -/
def toInt64? : Json → Option Int64
  | int n => if (Int64.ofInt n).toInt = n then some (Int64.ofInt n) else none
  | _ => none

/-- A number from zero up to, not including, `bound`. -/
def toNatBelow? (bound : Nat) : Json → Option Nat
  | int n => if 0 ≤ n ∧ n < bound then some n.toNat else none
  | _ => none

/-- A number with 32 bits and no sign. -/
def toWord? (j : Json) : Option Nat :=
  j.toNatBelow? UInt32.size

def toItems? : Json → Option (List Json)
  | arr items => some items
  | _ => none

def toMembers? : Json → Option (List (Key × Json))
  | obj members => some members
  | _ => none

def toList? {α : Type} (read : Json → Option α) (j : Json) : Option (List α) :=
  j.toItems?.bind (·.mapM read)

def toOption? {α : Type} (read : Json → Option α) : Json → Option (Option α)
  | null => some none
  | j => (read j).map some

/-- What the absence of a field means: an error, null, or a default. In an array every field without
a default has to be there. -/
inductive Absence where
  | error
  | null
  | default
deriving DecidableEq

structure Field where
  name : String
  absence : Absence

def Field.required (name : String) : Field := ⟨name, .error⟩

def Field.nullable (name : String) : Field := ⟨name, .null⟩

def Field.defaulted (name : String) : Field := ⟨name, .default⟩

/-- The field of an object; the inner option is none when the field takes its default. -/
def memberField? (members : List (Key × Json)) (field : Field) : Option (Option Json) :=
  match members.filter (·.1.text = field.name) with
  | [] =>
      match field.absence with
      | .error => none
      | .null => some (some null)
      | .default => some none
  | [(_, j)] => some (some j)
  | _ => none

/-- The fields of an array, in order. -/
def itemFields? : List Json → List Field → Option (List (Option Json))
  | [], [] => some []
  | _ :: _, [] => none
  | [], field :: fields =>
      if field.absence = .default then (itemFields? [] fields).map (none :: ·) else none
  | j :: items, _ :: fields => (itemFields? items fields).map (some j :: ·)

/-- The fields of a record in the given order; none at a place means the default. -/
def fields? (record : Json) (fields : List Field) : Option (List (Option Json)) :=
  match record with
  | obj members => fields.mapM (memberField? members)
  | arr items => itemFields? items fields
  | _ => none

def oneField? (record : Json) (name : String) : Option Json :=
  match record.fields? [.required name] with
  | some [some j] => some j
  | _ => none

def twoFields? (record : Json) (first second : String) : Option (Json × Json) :=
  match record.fields? [.required first, .required second] with
  | some [some j, some k] => some (j, k)
  | _ => none

/-- The name of a value of an enumeration: a string, or an object with null under the name. -/
def toName? : Json → Option String
  | str s => some s
  | obj [(key, null)] => some key.text
  | _ => none

/-- The name of a value of an enumeration inside a tagged value; here an empty object may stand in
place of the null. -/
def toInnerName? : Json → Option String
  | obj [(key, obj [])] => some key.text
  | j => j.toName?

/-- A tag inside a tagged value: a string, or a number as the place among the tags in order. -/
def toInnerTag? (tags : List String) : Json → Option String
  | str tag => some tag
  | int n => if 0 ≤ n then tags[n.toNat]? else none
  | _ => none

/-- The tag of a tagged value, which the named field holds, and the record of the other fields. -/
def tagged? (j : Json) (name : String) (tag? : Json → Option String) : Option (String × Json) :=
  match j with
  | obj members =>
      match members.filter (·.1.text = name) with
      | [(_, tag)] => (tag? tag).map fun tag => (tag, obj (members.filter (·.1.text ≠ name)))
      | _ => none
  | arr (tag :: items) => (tag? tag).map fun tag => (tag, arr items)
  | _ => none

/-- The tag and the content of a value that is a record of these two only. An object and an array
may have the tag in different ways; content that an object leaves out is null. -/
def labelled? (j : Json) (name content : String) (memberTag? itemTag? : Json → Option String) :
    Option (String × Json) :=
  match j.fields? [.required name, .nullable content] with
  | some [some tag, some content] => do
      let tag ←
        match j with
        | arr _ => itemTag? tag
        | _ => memberTag? tag
      return (tag, content)
  | _ => none

/-- Checks that a tagged value without fields has none; an object may have unknown members. -/
def noFields? : Json → Option Unit
  | obj _ => some ()
  | arr [] => some ()
  | _ => none

def readable? (j : Json) : Option Json :=
  if j.isReadable then some j else none

end TemplateLogging.Json

namespace TemplateLogging

/-- The name of a member of an object, and whether its text is written with escapes. -/
structure Json.Key where
  text : String
  escaped : Bool := false
deriving DecidableEq

instance : Coe String Json.Key where
  coe text := { text }

/-- A JSON value. Integers within 64 bits are `int`, all other numbers are doubles. `unreadable` is
well-formed text that holds a number beyond the doubles, half of a surrogate pair or too deep a
nesting: it may be skipped but not read. -/
inductive Json where
  | null
  | bool (b : Bool)
  | int (n : Int)
  | float (x : Float)
  | str (s : String)
  | arr (items : List Json)
  | obj (members : List (Json.Key × Json))
  | unreadable
deriving Inhabited

namespace Json

mutual

def depth : Json → Nat
  | arr items => depthItems items + 1
  | obj members => depthMembers members + 1
  | _ => 0

def depthItems : List Json → Nat
  | [] => 0
  | j :: rest => max j.depth (depthItems rest)

def depthMembers : List (Key × Json) → Nat
  | [] => 0
  | (_, j) :: rest => max j.depth (depthMembers rest)

end

mutual

def isReadable : Json → Bool
  | arr items => areReadable items
  | obj members => areReadableMembers members
  | unreadable => false
  | _ => true

def areReadable : List Json → Bool
  | [] => true
  | j :: rest => j.isReadable && areReadable rest

def areReadableMembers : List (Key × Json) → Bool
  | [] => true
  | (_, j) :: rest => j.isReadable && areReadableMembers rest

end

mutual

/-- Makes arrays and objects below the given number of levels unreadable. -/
def clip : Nat → Json → Json
  | 0, arr _ => unreadable
  | 0, obj _ => unreadable
  | levels + 1, arr items => arr (clipItems levels items)
  | levels + 1, obj members => obj (clipMembers levels members)
  | _, j => j

def clipItems : Nat → List Json → List Json
  | _, [] => []
  | levels, j :: rest => clip levels j :: clipItems levels rest

def clipMembers : Nat → List (Key × Json) → List (Key × Json)
  | _, [] => []
  | levels, (key, j) :: rest => (key, clip levels j) :: clipMembers levels rest

end

end Json

end TemplateLogging

/-!
Ids of nodes, the sources of fresh numbers, and the faults that end all work on a tree at once.

All operations are those of a build with overflow checks and assertions on. Where these are off, a
number after the largest one starts again from zero and a child may come to stand below itself;
nothing here speaks of such a build.
-/

namespace TemplateLogging

/-- The largest number with 32 bits and no sign. -/
def maxWord : Nat := 4294967295

structure NodeId where
  index : Nat
deriving DecidableEq

def NodeId.text (id : NodeId) : String :=
  "#" ++ toString id.index

/-- The id with its type, as messages about stored trees write it. -/
def NodeId.typedText (id : NodeId) : String :=
  "NodeId(" ++ toString id.index ++ ")"

/-- A breach of what an operation demands of its caller. -/
inductive Fault where
  /-- The node whose kind or location is asked for is not in the tree. -/
  | missingNode (id : NodeId)
  /-- The child is the parent or an ancestor of it. -/
  | cycle (child parent : NodeId)
  | idsExhausted
  | numbersExhausted
  | tooDeep
deriving DecidableEq

def Fault.message : Fault → String
  | missingNode id => "node " ++ id.text ++ " is not in this tree"
  | cycle child parent =>
      "inserting " ++ child.text ++ " under " ++ parent.text ++ " would create a cycle"
  | idsExhausted => "attempt to add with overflow"
  | numbersExhausted => "attempt to add with overflow"
  | tooDeep => "the tree is nested too deeply"

/-- Gives out node ids in ascending order; the largest number with 32 bits is never given out. -/
structure IdSource where
  next : Nat := 0
deriving DecidableEq

def IdSource.take (s : IdSource) : Except Fault (NodeId × IdSource) :=
  if s.next < maxWord then .ok (⟨s.next⟩, ⟨s.next + 1⟩) else .error .idsExhausted

/-- The numbers of the synthetic names in one template. -/
structure SyntheticCounter where
  value : Nat := 0
deriving DecidableEq

def SyntheticCounter.take (c : SyntheticCounter) : Except Fault (Nat × SyntheticCounter) :=
  if c.value < maxWord then .ok (c.value, ⟨c.value + 1⟩) else .error .numbersExhausted

def SyntheticCounter.reset (_ : SyntheticCounter) : SyntheticCounter := ⟨0⟩

end TemplateLogging

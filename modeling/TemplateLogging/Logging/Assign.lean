import TemplateLogging.Logging.Config
import TemplateLogging.Tree.Traversal

namespace TemplateLogging.Tree

/-- The configured id of a block, which may already have that id but no other. -/
def configuredId (c : ValidLoggingConfig) (location : Location) (block : LogBlock) :
    Except LoggingError Int64 :=
  match c.find? block.name with
  | none => .error (.unknownElement block.name location.file location.start.line)
  | some element =>
      match block.loggingId with
      | some existing =>
          if existing = element.id then .ok element.id
          else .error (.idAlreadyAssigned block.name existing element.id)
      | none => .ok element.id

def nodeAssignments (t : Tree) (c : ValidLoggingConfig) :
    List NodeId → Except LoggingError (List (NodeId × Int64))
  | [] => .ok []
  | id :: rest =>
      match t.get? id with
      | some { kind := .logBlock block, location, .. } => do
          let loggingId ← configuredId c location block
          return (id, loggingId) :: (← t.nodeAssignments c rest)
      | _ => t.nodeAssignments c rest

/-- The ids for the blocks in files that are not dependencies, or the first error. -/
def fileAssignments (t : Tree) (c : ValidLoggingConfig) :
    List NodeId → ExceptT LoggingError (Except Fault) (List (NodeId × Int64))
  | [] => return []
  | file :: rest => do
      if (← liftM (t.kind file)).isDependencyFile then t.fileAssignments c rest
      else
        let assignments ← ExceptT.mk (.ok (t.nodeAssignments c (t.descendants file)))
        return assignments ++ (← t.fileAssignments c rest)

def setLoggingId (t : Tree) (id : NodeId) (loggingId : Int64) : Tree :=
  t.modify id fun node =>
    match node.kind with
    | .logBlock block => { node with kind := .logBlock { block with loggingId := some loggingId } }
    | _ => node

/-- Gives every block outside of dependencies its configured id. The number is that of the
blocks. -/
def assignLoggingIds (t : Tree) (c : ValidLoggingConfig) :
    Except Fault (Except LoggingError (Nat × Tree)) := do
  match ← (t.fileAssignments c (t.children t.root)).run with
  | .error error => return .error error
  | .ok assignments =>
      let t := assignments.foldl (fun t (id, loggingId) => t.setLoggingId id loggingId) t
      return .ok (assignments.length, t)

end TemplateLogging.Tree

import TemplateLogging.Json.Parser
import TemplateLogging.Json.Reader
import TemplateLogging.Renaming.Basic

namespace TemplateLogging

def Fallback.ofName? : String → Option Fallback
  | "identity" => some .identity
  | "hashed" => some .hashed
  | _ => none

namespace Renaming

def insertMember? (r : Renaming) (member : Json.Key × Json) : Option Renaming :=
  member.2.toString?.map fun name => r.insert member.1.text name

def ofJson? (j : Json) : Option Renaming :=
  match j.fields? [.defaulted "renamings", .defaulted "fallback"] with
  | some [renamings, fallback] => do
      let fallback ←
        match fallback with
        | some j => j.toName?.bind Fallback.ofName?
        | none => some .identity
      (← (renamings.getD (.obj [])).toMembers?).foldlM insertMember? { fallback }
  | _ => none

def load? (text : String) : Option Renaming :=
  (Json.parse? text).bind ofJson?

end Renaming

end TemplateLogging

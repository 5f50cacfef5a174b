/-
Skills (`sap-automate-skills/src/lib.rs`): a text with holes for the
arguments of a prompt, and what it is rendered to.

`render` replaces one argument after the other, in the order they are
declared in. Where the file was read from is left out: nothing modelled
reads it.
-/
import SapAutomate.Adt.Http

namespace SapAutomate.Skills

open Adt (replace)

/-- `SkillArgument`. -/
structure SkillArgument where
  name : String
  description : Option String
  required : Bool
deriving DecidableEq

/-- `Skill`. -/
structure Skill where
  name : String
  description : String
  tags : List String
  requiresTools : List String
  arguments : List SkillArgument
  body : String
deriving DecidableEq

/-- What stands for an argument: its value, or else the marker of a
required one, or else nothing. -/
def SkillArgument.replacement (args : String → Option String)
    (arg : SkillArgument) : String :=
  (args arg.name).getD
    (if arg.required then "<MISSING " ++ arg.name ++ ">" else "")

/-- `Skill::render`. -/
def Skill.render (skill : Skill) (args : String → Option String) : String :=
  skill.arguments.foldl
    (fun out arg =>
      replace out ("\x7b\x7b" ++ arg.name ++ "\x7d\x7d") (arg.replacement args))
    skill.body

end SapAutomate.Skills

/-
Reading a skill from its file (`split_frontmatter`, `parse_frontmatter`,
`parse_inline_list` and `parse_skill_file` of
`sap-automate-skills/src/lib.rs`): fields between two fences, and the body
behind them.

The three loops of `parse_frontmatter` are one run over the lines, where
`Place` says which of them is at hand.
-/
import SapAutomate.Skills.Skill
import SapAutomate.Ingest.Robots

namespace SapAutomate.Skills

open Ingest (lines)
open Text (trimBy isWhitespace)

/-- `str::strip_prefix`. -/
def stripPrefix (pat s : List Char) : Option (List Char) :=
  if pat.isPrefixOf s then some (s.drop pat.length) else none

/-- `str::trim`. -/
def trim (s : List Char) : List Char := trimBy isWhitespace s

/-- `str::trim_matches('"')`. -/
def unquote (s : List Char) : List Char := trimBy (· == '"') s

/-- `str::trim_start_matches`; the text is no longer than `fuel`. -/
def trimStartMatches (pat : List Char) : Nat → List Char → List Char
  | 0, s => s
  | fuel + 1, s =>
      if pat.isPrefixOf s then trimStartMatches pat fuel (s.drop pat.length)
      else s

/-- What stands before and behind the first occurrence of a pattern. -/
def cutAt (pat : List Char) : List Char → Option (List Char × List Char)
  | [] => none
  | c :: cs =>
      if pat.isPrefixOf (c :: cs) then some ([], (c :: cs).drop pat.length)
      else (cutAt pat cs).map fun x => (c :: x.1, x.2)

def fence : List Char := "---".toList

/-- `split_frontmatter`. -/
def splitFrontmatter (raw : List Char) : Option (List Char × List Char) :=
  (stripPrefix fence (raw.dropWhile isWhitespace)).bind fun rest =>
    (cutAt ('\n' :: fence) ((stripPrefix ['\n'] rest).getD rest)).map fun x =>
      (x.1, (stripPrefix ['\n'] x.2).getD x.2)

/-- `parse_inline_list`. -/
def parseInlineList (s : List Char) : List String :=
  ((((trim s).dropWhile (· == '[')).rdropWhile (· == ']')).splitOn ','
    |>.map fun t => String.ofList (unquote (trim t))).filter (· ≠ "")

/-- Which loop of `parse_frontmatter` a line is read in. -/
inductive Place where
  | fields
  | arguments
  | argument (arg : SkillArgument)
deriving DecidableEq

/-- The variables of `parse_frontmatter`. -/
structure Parser where
  skill : Skill
  place : Place
deriving DecidableEq

def Parser.initial : Parser where
  skill :=
    { name := ""
      description := ""
      tags := []
      requiresTools := []
      arguments := []
      body := "" }
  place := .fields

def nameKey : List Char := "name:".toList
def descriptionKey : List Char := "description:".toList
def tagsKey : List Char := "tags:".toList
def requiresToolsKey : List Char := "requires_tools:".toList
def argumentsKey : List Char := "arguments:".toList
def itemKey : List Char := "- name:".toList
def requiredKey : List Char := "required:".toList

/-- The scalar behind a key. -/
def scalar (rest : List Char) : String := String.ofList (unquote (trim rest))

/-- The list behind a key. -/
def inlineList (key line : List Char) : List String :=
  parseInlineList (trim (trimStartMatches key line.length line))

/-- A line of the outer loop. -/
def Parser.readField (p : Parser) (line : List Char) : Parser :=
  let trimmed := line.rdropWhile isWhitespace
  if trimmed = [] ∨ trimmed.head? = some '#' then p
  else if let some rest := stripPrefix nameKey trimmed then
    { p with skill := { p.skill with name := scalar rest } }
  else if let some rest := stripPrefix descriptionKey trimmed then
    { p with skill := { p.skill with description := scalar rest } }
  else if tagsKey.isPrefixOf trimmed then
    { p with skill := { p.skill with tags := inlineList tagsKey trimmed } }
  else if requiresToolsKey.isPrefixOf trimmed then
    { p with skill := { p.skill with
      requiresTools := inlineList requiresToolsKey trimmed } }
  else if trimmed = argumentsKey then { p with place := .arguments }
  else p

/-- A line of the loop over the arguments; one that is not indented ends
it. -/
def Parser.readItem (p : Parser) (line : List Char) : Parser :=
  if line.head? ≠ some ' ' ∧ line.head? ≠ some '\t' ∧ line ≠ [] then
    { p with place := .fields }.readField line
  else if let some after := stripPrefix itemKey (trim line) then
    { p with place := .argument ⟨scalar after, none, false⟩ }
  else { p with place := .arguments }

/-- A line of an argument. -/
def SkillArgument.readField (arg : SkillArgument) (line : List Char) :
    SkillArgument :=
  if let some rest := stripPrefix descriptionKey (trim line) then
    { arg with description := some (scalar rest) }
  else if let some rest := stripPrefix requiredKey (trim line) then
    { arg with required := trim rest == "true".toList }
  else arg

/-- A line that the loop over an argument's fields reads. -/
def inner (line : List Char) : Bool :=
  "    ".toList.isPrefixOf line || "\t\t".toList.isPrefixOf line

/-- `arguments.push`. -/
def Parser.push (p : Parser) (arg : SkillArgument) : Parser :=
  { p with skill := { p.skill with arguments := p.skill.arguments ++ [arg] } }

/-- A line. -/
def Parser.read (p : Parser) (line : List Char) : Parser :=
  match p.place with
  | .fields => p.readField line
  | .arguments => p.readItem line
  | .argument arg =>
      if inner line then { p with place := .argument (arg.readField line) }
      else (p.push arg).readItem line

/-- The skill that was read, with the argument that was at hand. -/
def Parser.finish (p : Parser) : Skill :=
  match p.place with
  | .argument arg => (p.push arg).skill
  | _ => p.skill

/-- `parse_frontmatter`. -/
def parseFrontmatter (text : List Char) : Except String Skill :=
  let skill := ((lines [] text).foldl Parser.read .initial).finish
  if skill.name = "" then .error "missing `name:` field"
  else if skill.description = "" then .error "missing `description:` field"
  else .ok skill

/-- `parse_skill_file`, of the text of the file. -/
def parseSkill (raw : List Char) : Except String Skill :=
  match splitFrontmatter raw with
  | none => .error "missing --- frontmatter"
  | some (frontmatter, body) =>
      (parseFrontmatter frontmatter).map fun skill =>
        { skill with body := String.ofList (trim body) }

end SapAutomate.Skills

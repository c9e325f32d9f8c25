import BlockStage.Decimal.Reader
import BlockStage.Host.Basic
import BlockStage.Settings.Layer
import BlockStage.Word

/-! # The layer of the environment

A variable is a setting if its name begins with `STAGEHAND__`, in any case. The rest of the name is
a path, divided by pairs of underscores.
-/
namespace BlockStage.Layer

open BlockStage.Toml (Value)

def variableMark : List Char := "stagehand__".toList

def variablePath (name : List Char) : String :=
  ".".intercalate ((String.ofList name).splitOn "__")

/-- The value of a variable: a truth value, a number, or else text. -/
def variableValue (s : String) : Value :=
  let word := Text.lowerCase s
  if word = "true" then .boolean true
  else if word = "false" then .boolean false
  else
    let (negative, ds) := Decimal.takeSign s.toList
    let n : Int := if negative then -(Text.number ds : Int) else Text.number ds
    if !ds.isEmpty && ds.all Text.isDigit && Word.fitsSigned64 n then .integer n
    else
      match Decimal.read? s.toList with
      | some x => .float x
      | none => .string s

def ofEnvironment (env : Environment) : Tree :=
  env.entries.filterMap fun (name, value) =>
    let name := (Text.lowerCase name).toList
    if variableMark.isPrefixOf name then
      some (variablePath (name.drop variableMark.length), variableValue value)
    else none

end BlockStage.Layer

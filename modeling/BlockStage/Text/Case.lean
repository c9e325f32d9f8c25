/-! # Lower case

Names are compared in lower case. Only characters whose lower case is an ASCII letter are changed:
no name that is looked for holds any other letter.
-/
namespace BlockStage.Text

/-- The lower case of an ASCII letter; that of the Kelvin sign is one, too. -/
def lowerChar (c : Char) : Char := if c = '\u212A' then 'k' else c.toLower

def lowerCase (s : String) : String := .ofList (s.toList.map lowerChar)

end BlockStage.Text

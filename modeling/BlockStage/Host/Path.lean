/-! # Paths

A path is a text whose names are divided by slashes. An empty name and the name `.` stand for the
directory they are in.
-/
namespace BlockStage.Path

def names (path : String) : List String := path.splitOn "/"

def isHere (name : String) : Bool := name = "" || name = "."

/-- The names up to the last one that stands for something else than its own directory. -/
def significant (path : String) : List String :=
  ((names path).reverse.dropWhile isHere).reverse

def parent? (path : String) : Option String :=
  match (significant path).dropLast with
  | [] => none
  | [""] => some "/"
  | ns => some ("/".intercalate ns)

def extend? (path suffix : String) : Option String :=
  match (significant path).getLast? with
  | none | some ".." => none
  | some _ => some ("/".intercalate (significant path) ++ suffix)

/-- What follows the last dot of the last name. A dot at its beginning does not count. -/
def extension? (path : String) : Option String :=
  match (significant path).getLast? with
  | none => none
  | some name =>
    if name = ".." then none
    else
      match name.toList.reverse.span (· != '.') with
      | (ext, _ :: _ :: _) => some (.ofList ext.reverse)
      | _ => none

end BlockStage.Path

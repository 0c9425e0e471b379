/-!
# Paths

A path is text cut at slashes. Empty parts and single dots are passed over, except
for a dot in front, which names the current directory.
-/

namespace BlockLang.Path

def isAbsolute (path : String) : Bool := path.startsWith "/"

/-- The parts between slashes. -/
def parts (path : String) : List String := path.splitOn "/"

/-- A part that leads nowhere. -/
def isIdle (part : String) : Bool := part == "" || part == "."

/-- `directory` followed by a path from there. An absolute path needs no directory. -/
def join (directory path : String) : String :=
  if isAbsolute path then path
  else if directory == "" || directory.endsWith "/" then directory ++ path
  else directory ++ "/" ++ path

/-- The parts after the first one without the idle ones at the end. -/
def trimmed (parts : List String) : List String := (parts.reverse.dropWhile isIdle).reverse

/-- The directory a path points into, as written, and the last part. A path that is
nothing but the root has neither. -/
def splitLast? (path : String) : Option (String × String) :=
  match parts path with
  | [] => none
  | first :: rest =>
    let rest := trimmed rest
    match rest.getLast? with
    | some last =>
      let before := trimmed rest.dropLast
      if isAbsolute path && before.isEmpty then some ("/", last)
      else some ("/".intercalate (first :: before), last)
    | none => if first == "" then none else some ("", first)

/-- The last part without its extension, unless the part is made of dots that lead
somewhere. A dot in front does not start an extension. -/
def stem? (path : String) : Option String :=
  match splitLast? path with
  | none => none
  | some (_, last) =>
    if last == "." || last == ".." then none
    else
      match last.splitOn "." with
      | [] | [_] => some last
      | pieces =>
        let before := ".".intercalate pieces.dropLast
        some (if before == "" then last else before)

/-- The directory that a path points into; that of a bare name is the current one. -/
def directory (path : String) : String :=
  match splitLast? path with
  | some (before, _) => if before == "" then "." else before
  | none => "."

end BlockLang.Path

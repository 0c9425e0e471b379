import BlockLang.Diagnostic.Basic
import BlockLang.Source.Line
import BlockLang.Text.Blank

/-!
# Diagnostics beside the source

A rendered diagnostic names its severity, kind and tip, then the file, then the
line of source with a mark below the place. The mark stands after one dash per
byte between the first shown byte of the line and the place. Further places
follow, one a line.
-/

namespace BlockLang.Diagnostic

/-- The spaces and tabs at the start of a line. -/
def indentOf (line : List Char) : List Char := line.takeWhile fun c => c == ' ' || c == '\t'

/-- The three rows that show a line and the mark below it. -/
def renderLine (line : Line) : String :=
  let number := toString line.number
  let gutter := String.ofList (List.replicate (number.length + 1) ' ') ++ "|"
  let indent := indentOf line.text
  let shown := Text.trimEnd (line.text.drop indent.length)
  let dashes := List.replicate (line.column - indent.length) '-'
  gutter ++ "\n" ++
    number ++ " | " ++ String.ofList shown ++ "\n" ++
    gutter ++ " " ++ String.ofList dashes ++ "^\n"

/-- The diagnostic set against the text of the source it points into. -/
def render (d : Diagnostic) (source : String) : String :=
  let tip := match d.problem.tip with
    | none => ""
    | some tip => " (" ++ tip ++ ")"
  let line := match Line.at? source d.position.offset.toNat with
    | none => ""
    | some line => renderLine line
  let notes := d.notes.map fun note =>
    "note: see " ++ note.file ++ ":" ++ toString note.offset ++ "\n"
  d.severity.label ++ ": " ++ d.problem.name ++ tip ++ "\n" ++
    "-> " ++ d.position.file ++ "\n" ++ line ++ String.join notes

end BlockLang.Diagnostic

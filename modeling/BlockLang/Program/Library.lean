/-!
# Where modules come from

A library answers a request for a module by name with its text and the path shown
in diagnostics, or says why there is none.
-/

namespace BlockLang

/-- The extension of a file that holds a module. -/
def fileExtension : String := ".lang"

/-- The answer to a request for a module. -/
inductive Found where
  | text (path text : String)
  | missing
  /-- There is a file, but no text could be read from it. -/
  | unreadable (path : String)
deriving DecidableEq, Inhabited

structure Library where
  find : String → Found
  /-- No more modules than this have a text. -/
  count : Nat
deriving Inhabited

namespace Library

/-- A library that knows only the names in a list, the first entry of each. -/
def ofList (entries : List (String × Found)) : Library :=
  ⟨fun name => (entries.lookup name).getD .missing, entries.length⟩

/-- A library of texts by module name, shown as files without a directory. -/
def ofTexts (texts : List (String × String)) : Library :=
  ofList (texts.map fun (name, text) => (name, .text (name ++ fileExtension) text))

end Library
end BlockLang

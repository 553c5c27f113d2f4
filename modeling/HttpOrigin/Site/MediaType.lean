import HttpOrigin.Site.Lookup
import HttpOrigin.Text.Ascii

/-! The media type of a file by the ending of its name. -/
namespace HttpOrigin.MediaType

def table : List (String × String) :=
  [("html", "text/html"), ("css", "text/css"), ("png", "image/png"), ("jpg", "image/jpg"),
    ("gif", "image/gif")]

def unknown : String := "application/octet-stream"

/-- What follows the last dot of a name, unless the name begins with that dot or is `..`. -/
def extension? (name : String) : Option String :=
  let cs := name.toList
  let after := cs.reverse.takeWhile (· ≠ '.')
  if name = ".." ∨ cs.length ≤ after.length + 1 then none
  else some (String.ofList after.reverse)

def ofExtension (extension : String) : String :=
  match table.find? fun e => Text.sameIgnoringCase extension e.1 with
  | some e => e.2
  | none => unknown

def ofName (name : String) : String :=
  match extension? name with
  | some extension => ofExtension extension
  | none => unknown

/-- The name at the end of a path; slashes and `.` segments behind it do not count, and a path that
ends in `..` has none. -/
def lastName? (path : String) : Option String :=
  (Site.names (Site.segments path)).getLast?.filter (· ≠ "..")

def ofPath (path : String) : String :=
  match lastName? path with
  | some name => ofName name
  | none => unknown

end HttpOrigin.MediaType

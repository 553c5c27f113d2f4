import HttpOrigin.Wire.Status
import HttpOrigin.Site.Tree
import HttpOrigin.Text.Split

/-! From a URI to a file of a site. The file system resolves a path segment by segment: an empty
segment and `.` stay where they are but only in a directory, so a path with a trailing slash names
no file. No path with a segment `..` is ever looked up. -/
namespace HttpOrigin

structure Site where
  root : Option Node
  /-- The length in bytes of the root's own path, which counts towards the limit on paths. -/
  rootLength : Nat := 0

def maxPath : Nat := 4095

namespace Node

def step (n : Node) (segment : String) : Option Node :=
  match n with
  | file _ => none
  | directory _ => if segment = "" ∨ segment = "." then some n else n.child? segment

def follow (n : Node) (segments : List String) : Option Node := segments.foldlM step n

end Node

namespace Site

def segments (path : String) : List String :=
  (Text.pieces (· == '/') path.toList).map String.ofList

def names (segments : List String) : List String :=
  segments.filter fun s => s ≠ "" ∧ s ≠ "."

/-- The part of a URI that says where a file is: what stands before a query or a fragment, without
leading slashes. -/
def pathOfUri (uri : String) : String :=
  String.ofList ((uri.toList.takeWhile fun c => c ≠ '?' ∧ c ≠ '#').dropWhile (· == '/'))

structure Located where
  path : List String
  file : File
  deriving DecidableEq, Repr

def indexName : String := "index.html"

def fullLength (s : Site) (path : String) : Nat := s.rootLength + 1 + path.utf8ByteSize

def indexLength (s : Site) (path : String) : Nat :=
  let separator := if (segments path).getLast? = some "" then 0 else 1
  s.fullLength path + separator + indexName.utf8ByteSize

def locate? (s : Site) (root : Node) (path : String) : Option Located :=
  if s.fullLength path > maxPath then none
  else match root.follow (segments path) with
    | none => none
    | some (.file f) => some ⟨names (segments path), f⟩
    | some (.directory entries) =>
      if s.indexLength path > maxPath then none
      else match entries.lookup indexName with
        | some (.file f) => some ⟨names (segments path) ++ [indexName], f⟩
        | _ => none

/-- Finds the file that a URI names. Without a root the server is at fault; all else that goes
wrong makes the file missing. -/
def find (s : Site) (uri : String) : Except Status Located :=
  match s.root with
  | none => .error .internalServerError
  | some root =>
    let path := pathOfUri uri
    if ".." ∈ segments path then .error .notFound
    else match s.locate? root path with
      | some found => .ok found
      | none => .error .notFound

/-- One segment further from the top of a way that leads back to a base directory; `..` goes back,
but never beyond the base. -/
def wayStep (way : List (String × Node) × Node) (segment : String) :
    Option (List (String × Node) × Node) :=
  match way with
  | (_, .file _) => none
  | (back, here) =>
    if segment = "" ∨ segment = "." then some (back, here)
    else if segment = ".." then
      match back with
      | (_, up) :: back => some (back, up)
      | [] => none
    else (here.child? segment).map fun next => ((segment, here) :: back, next)

/-- The site whose root is at a path from a base directory; `baseLength` is the length of the
base's own path. -/
def below (base : Node) (baseLength : Nat) (path : String) : Site :=
  match (segments path).foldlM wayStep ([], base) with
  | some (back, root) =>
    { root := some root
      rootLength := back.foldl (fun n e => n + (1 + e.1.utf8ByteSize)) baseLength }
  | none => { root := none }

end Site

end HttpOrigin

import HttpOrigin.Bytes
import HttpOrigin.Timestamp

/-! Directories and regular files, and the walk of a path through them. -/
namespace HttpOrigin

structure File where
  content : Bytes
  /-- None if the file system does not tell. -/
  modified : Option Timestamp
  readable : Bool := true
  deriving DecidableEq, Repr

inductive Node where
  | file (file : File)
  | directory (entries : List (String × Node))

namespace Node

def emptyDirectory : Node := directory []

instance : Inhabited Node := ⟨emptyDirectory⟩

def child? : Node → String → Option Node
  | file _, _ => none
  | directory entries, name => entries.lookup name

def setChild (n : Node) (name : String) (new : Node) : Node :=
  match n with
  | file _ => directory [(name, new)]
  | directory entries => directory ((name, new) :: entries.filter (·.1 ≠ name))

def update (change : Option Node → Node) : List String → Option Node → Node
  | [], n => change n
  | name :: path, n =>
    let n := n.getD emptyDirectory
    n.setChild name (update change path (n.child? name))

def putFile (n : Node) (path : List String) (f : File) : Node :=
  update (fun _ => file f) path (some n)

def makeDirectory (n : Node) (path : List String) : Node :=
  update (·.getD emptyDirectory) path (some n)

end Node

end HttpOrigin

import HttpOrigin.Options
import HttpOrigin.Site.Responder
import HttpOrigin.Client
import Std.Time.Format

/-! The command line. The site is read into memory, and one client is served: its requests come
from standard input and the answers go to standard output. -/
namespace HttpOrigin.Main

/-- The moment as it stands in a field. A year of five digits does not fit there and becomes
1970. -/
def stamp (t : Std.Time.Timestamp) : Timestamp :=
  let date := Std.Time.PlainDateTime.ofWallTime (t.toWallTime .zero)
  (Timestamp.ofText? (date.format "EEE, dd MMM uuuu HH:mm:ss" ++ " GMT")).getD .epoch

partial def readNode (entry : IO.FS.DirEntry) : IO (Option Node) := do
  let metadata ← entry.path.metadata
  match metadata.type with
  | .dir =>
    let mut entries := []
    for child in ← entry.path.readDir do
      if let some node ← readNode child then
        entries := (child.fileName, node) :: entries
    return some (.directory entries)
  | .file =>
    let modified := stamp (.ofSecondsSinceUnixEpoch (.ofInt metadata.modified.sec))
    match ← (IO.FS.readBinFile entry.path).toBaseIO with
    | .ok data => return some (.file { content := data.data.toList, modified })
    | .error _ => return some (.file { content := [], modified, readable := false })
  | _ => return none

/-- A folder that cannot be read is a site without a root. -/
def readSite (folder : String) : IO Site := do
  let root ← (readNode { root := folder, fileName := "" }).toBaseIO
  return { root := root.toOption.join, rootLength := folder.utf8ByteSize }

def clock : IO Timestamp := do return stamp (← Std.Time.Timestamp.now)

/-- The numbers of the files opened while requests are read from `n` bytes. One file is open at a
time and no request is shorter than a byte, so one number for each byte is enough. -/
def fileNumbers (n : Nat) : List Fd := List.replicate n 3

partial def flush (h : Responder (List Fd)) (output : IO.FS.Stream) (c : Client) :
    IO (Client × Bool) := do
  if c.hasOutput then
    let w := c.deliver h (← clock) [.everything, .everything] {} (fileNumbers c.input.length)
    output.write w.written.toByteArray
    output.flush
    match w.result with
    | .ok () => flush h output w.client
    | .error _ => return (w.client, false)
  else return (c, true)

partial def converse (h : Responder (List Fd)) (input output : IO.FS.Stream) (c : Client) :
    IO Unit := do
  let data := (← input.read 65536).data.toList
  let r := c.intake h (← clock) [.bytes data] (fileNumbers (c.input.length + data.length))
  let (c, sound) ← flush h output r.client
  if sound && r.result.isOk && !c.isOver then converse h input output c

def usage : String :=
  "usage: http-origin [--listen ADDRESS] [--www FOLDER] [--log-level LEVEL] [--help] [--version]"

def stopMessage : Options.Stop → String
  | .unknownArgument => "unexpected argument"
  | .missingValue => "a value is required"
  | .invalidAddress => "invalid socket address"
  | .repeatedOption => "an option is given twice"
  | .unneededValue => "an option takes no value"
  | .help => usage
  | .version => "http-origin 1.0"

def run (args : List String) : IO UInt32 := do
  let environment : Options.Environment :=
    { listen := ← IO.getEnv Options.listenVariable, www := ← IO.getEnv Options.wwwVariable }
  match Options.ofArguments environment args with
  | .ok options =>
    let h := (← readSite options.www).responder
    converse h (← IO.getStdin) (← IO.getStdout) { fd := 0 }
    return 0
  | .error stop =>
    if stop = .help ∨ stop = .version then
      IO.println (stopMessage stop)
      return 0
    IO.eprintln ("error: " ++ stopMessage stop)
    return 2

end HttpOrigin.Main

def main (args : List String) : IO UInt32 := HttpOrigin.Main.run args

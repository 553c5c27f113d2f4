import HttpOrigin.SocketAddress

/-! The options of the command line. Each takes one value, attached by `=` or in the next word, and
may be given once; for two of them a variable of the environment stands in. A value in a word of its
own is judged only when the next option comes or the words are over, so a word that is no option is
refused first. -/
namespace HttpOrigin

structure Options where
  listen : SocketAddress
  www : String
  logLevel : String
  deriving DecidableEq, Repr

namespace Options

inductive Key where
  | listen
  | www
  | logLevel
  deriving DecidableEq, Repr

inductive Stop where
  | unknownArgument
  | missingValue
  | invalidAddress
  | repeatedOption
  | unneededValue
  | help
  | version
  deriving DecidableEq, Repr

def listenVariable : String := "LISO_LISTEN"

def wwwVariable : String := "LISO_WWW"

structure Environment where
  listen : Option String := none
  www : Option String := none
  deriving DecidableEq, Repr

structure Given where
  listen : Option SocketAddress := none
  www : Option String := none
  logLevel : Option String := none
  deriving DecidableEq, Repr

def defaults : Options := ⟨.v4 ⟨127, 0, 0, 1⟩ 8080, "./www", "info"⟩

def addressOf (value : String) : Except Stop SocketAddress :=
  match SocketAddress.ofText? value with
  | some address => .ok address
  | none => .error .invalidAddress

def folderOf (value : String) : Except Stop String :=
  if value.isEmpty then .error .missingValue else .ok value

def Given.supply (g : Given) (key : Key) (value : String) : Except Stop Given := do
  match key with
  | .listen =>
    if g.listen.isSome then throw .repeatedOption
    return { g with listen := some (← addressOf value) }
  | .www =>
    if g.www.isSome then throw .repeatedOption
    return { g with www := some (← folderOf value) }
  | .logLevel =>
    if g.logLevel.isSome then throw .repeatedOption
    return { g with logLevel := some value }

/-- An option whose value is still to come or to be judged. -/
abbrev Pending := Option (Key × Option String)

def Given.settle (g : Given) : Pending → Except Stop Given
  | none => .ok g
  | some (_, none) => .error .missingValue
  | some (key, some value) => g.supply key value

def key? : String → Option Key
  | "listen" => some .listen
  | "www" => some .www
  | "log-level" => some .logLevel
  | _ => none

def flag? : String → Option Stop
  | "help" => some .help
  | "version" => some .version
  | _ => none

def letter? : Char → Option Stop
  | 'h' => some .help
  | 'V' => some .version
  | _ => none

inductive Word where
  | separator
  | long (name : String) (value : Option String)
  | short (first : Char)
  | plain
  deriving DecidableEq, Repr

def Word.ofString (s : String) : Word :=
  match s.toList with
  | ['-', '-'] => .separator
  | '-' :: '-' :: cs =>
    .long (String.ofList (cs.takeWhile (· ≠ '=')))
      (match cs.dropWhile (· ≠ '=') with
        | [] => none
        | _ :: value => some (String.ofList value))
  | '-' :: c :: _ => .short c
  | _ => .plain

def read (g : Given) (pending : Pending) : List String → Except Stop Given
  | [] => g.settle pending
  | word :: words =>
    match Word.ofString word, pending with
    | .separator, _ => if words.isEmpty then g.settle pending else .error .unknownArgument
    | .long name value, _ =>
      match key? name, flag? name, value with
      | some key, _, some value => do read (← (← g.settle pending).supply key value) none words
      | some key, _, none => do read (← g.settle pending) (some (key, none)) words
      | none, some _, some _ => .error .unneededValue
      | none, some stop, none => do
        let _ ← g.settle pending
        throw stop
      | none, none, _ => .error .unknownArgument
    | .short first, _ =>
      match letter? first with
      | some stop => do
        let _ ← g.settle pending
        throw stop
      | none => .error .unknownArgument
    | .plain, some (key, none) => read g (some (key, some word)) words
    | .plain, _ => .error .unknownArgument

def Given.standIn (g : Given) (e : Environment) : Except Stop Given := do
  let listen ← match g.listen with
    | some address => pure (some address)
    | none => e.listen.mapM addressOf
  let www ← match g.www with
    | some folder => pure (some folder)
    | none => e.www.mapM folderOf
  return { g with listen, www }

def Given.complete (g : Given) : Options where
  listen := g.listen.getD defaults.listen
  www := g.www.getD defaults.www
  logLevel := g.logLevel.getD defaults.logLevel

def ofArguments (e : Environment) (words : List String) : Except Stop Options := do
  let g ← read {} none words
  return (← g.standIn e).complete

end Options

end HttpOrigin

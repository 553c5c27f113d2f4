/-! Addresses of sockets in text: `127.0.0.1:8080`, `[2001:db8::1%3]:443`. A reader takes what it
reads from the front of the characters; the canonical text of eight groups leaves out the first of
the longest runs of at least two zero groups. -/
namespace HttpOrigin

structure Ipv4 where
  a : UInt8
  b : UInt8
  c : UInt8
  d : UInt8
  deriving DecidableEq, Repr

inductive SocketAddress where
  | v4 (host : Ipv4) (port : UInt16)
  /-- Eight groups and the scope in which they hold, 0 for everywhere. -/
  | v6 (groups : List UInt16) (scope : UInt32) (port : UInt16)
  deriving DecidableEq, Repr

namespace SocketAddress

def port : SocketAddress → UInt16
  | v4 _ port | v6 _ _ port => port

def isV6 : SocketAddress → Bool
  | v4 .. => false
  | v6 .. => true

/-! ### Reading -/

abbrev Reader (α : Type) := List Char → Option (α × List Char)

def digitBelow? (radix : Nat) (c : Char) : Option Nat :=
  let value :=
    if c.isDigit then some (c.toNat - '0'.toNat)
    else if 'a' ≤ c ∧ c ≤ 'f' then some (c.toNat - 'a'.toNat + 10)
    else if 'A' ≤ c ∧ c ≤ 'F' then some (c.toNat - 'A'.toNat + 10)
    else none
  value.filter (· < radix)

/-- How a number is written: its radix, the bound it lies below, the most digits it may have if
there is a most, and whether zeros may lead. -/
structure Numeral where
  radix : Nat
  bound : Nat
  maxDigits : Option Nat
  leadingZeros : Bool

def octet : Numeral := ⟨10, UInt8.size, some 3, false⟩
def group : Numeral := ⟨16, UInt16.size, some 4, true⟩
def portNumber : Numeral := ⟨10, UInt16.size, none, true⟩
def scopeNumber : Numeral := ⟨10, UInt32.size, none, true⟩

def number (n : Numeral) : Reader Nat := fun cs =>
  let digits := cs.takeWhile fun c => (digitBelow? n.radix c).isSome
  let value := digits.foldl (fun v c => n.radix * v + (digitBelow? n.radix c).getD 0) 0
  let tooMany := n.maxDigits.any (· < digits.length)
  let zeroLeads := digits.head? = some '0' ∧ 1 < digits.length
  if digits.isEmpty ∨ tooMany ∨ (zeroLeads ∧ n.leadingZeros = false) ∨ n.bound ≤ value then none
  else some (value, cs.drop digits.length)

def char (c : Char) : Reader Unit
  | d :: cs => if c = d then some ((), cs) else none
  | [] => none

def ipv4 : Reader Ipv4 := fun cs => do
  let (a, cs) ← number octet cs
  let (_, cs) ← char '.' cs
  let (b, cs) ← number octet cs
  let (_, cs) ← char '.' cs
  let (c, cs) ← number octet cs
  let (_, cs) ← char '.' cs
  let (d, cs) ← number octet cs
  return (⟨.ofNat a, .ofNat b, .ofNat c, .ofNat d⟩, cs)

def pairOf (host : Ipv4) : List UInt16 :=
  [host.a.toUInt16 * 256 + host.b.toUInt16, host.c.toUInt16 * 256 + host.d.toUInt16]

/-- Groups with colons between them, the last two of which may be written as an address of version
4. -/
structure Groups where
  groups : List UInt16
  endsInIpv4 : Bool
  rest : List Char

def readGroups (limit : Nat) (first : Bool) (cs : List Char) : Groups :=
  match limit with
  | 0 => ⟨[], false, cs⟩
  | limit + 1 =>
    let start := if first then some cs else (char ':' cs).map (·.2)
    match if 1 ≤ limit then start.bind ipv4 else none with
    | some (host, rest) => ⟨pairOf host, true, rest⟩
    | none =>
      match start.bind (number group) with
      | some (g, rest) =>
        let more := readGroups limit false rest
        ⟨.ofNat g :: more.groups, more.endsInIpv4, more.rest⟩
      | none => ⟨[], false, cs⟩

def ipv6 : Reader (List UInt16) := fun cs =>
  let front := readGroups 8 true cs
  if front.groups.length = 8 then some (front.groups, front.rest)
  else if front.endsInIpv4 then none
  else do
    let (_, cs) ← char ':' front.rest
    let (_, cs) ← char ':' cs
    let back := readGroups (7 - front.groups.length) true cs
    let zeros := List.replicate (8 - front.groups.length - back.groups.length) 0
    return (front.groups ++ zeros ++ back.groups, back.rest)

def portPart : Reader UInt16 := fun cs => do
  let (_, cs) ← char ':' cs
  let (n, cs) ← number portNumber cs
  return (.ofNat n, cs)

def scopePart : Reader UInt32 := fun cs => do
  let (_, cs) ← char '%' cs
  let (n, cs) ← number scopeNumber cs
  return (.ofNat n, cs)

def addressV4 : Reader SocketAddress := fun cs => do
  let (host, cs) ← ipv4 cs
  let (port, cs) ← portPart cs
  return (v4 host port, cs)

def addressV6 : Reader SocketAddress := fun cs => do
  let (_, cs) ← char '[' cs
  let (groups, cs) ← ipv6 cs
  let (scope, cs) := (scopePart cs).getD (0, cs)
  let (_, cs) ← char ']' cs
  let (port, cs) ← portPart cs
  return (v6 groups scope port, cs)

def ofText? (s : String) : Option SocketAddress :=
  match (addressV4 s.toList).or (addressV6 s.toList) with
  | some (address, []) => some address
  | _ => none

/-! ### Writing -/

def ipv4Text (host : Ipv4) : String :=
  String.intercalate "." ([host.a, host.b, host.c, host.d].map fun n => toString n.toNat)

structure Run where
  start : Nat
  length : Nat
  deriving DecidableEq, Repr

/-- The first of the longest runs of zero groups in `groups`, which begin at index `i`; `current`
is the run that ends there. -/
def longestRun (longest current : Run) (i : Nat) : List UInt16 → Run
  | [] => longest
  | g :: groups =>
    if g = 0 then
      let current := if current.length = 0 then ⟨i, 1⟩ else ⟨current.start, current.length + 1⟩
      let longest := if longest.length < current.length then current else longest
      longestRun longest current (i + 1) groups
    else longestRun longest ⟨0, 0⟩ (i + 1) groups

def groupsText (groups : List UInt16) : String :=
  String.intercalate ":" (groups.map fun g => String.ofList (Nat.toDigits 16 g.toNat))

/-- Groups that hold an address of version 4 are written with it. -/
def ipv6Text (groups : List UInt16) : String :=
  match groups with
  | [0, 0, 0, 0, 0, 0xFFFF, high, low] =>
    "::ffff:" ++ ipv4Text
      ⟨(high / 256).toUInt8, (high % 256).toUInt8, (low / 256).toUInt8, (low % 256).toUInt8⟩
  | _ =>
    let run := longestRun ⟨0, 0⟩ ⟨0, 0⟩ 0 groups
    if run.length < 2 then groupsText groups
    else groupsText (groups.take run.start) ++ "::"
      ++ groupsText (groups.drop (run.start + run.length))

def text : SocketAddress → String
  | v4 host port => ipv4Text host ++ ":" ++ toString port.toNat
  | v6 groups scope port =>
    let scopeText := if scope = 0 then "" else "%" ++ toString scope.toNat
    "[" ++ ipv6Text groups ++ scopeText ++ "]:" ++ toString port.toNat

end SocketAddress

end HttpOrigin

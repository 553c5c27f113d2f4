/-! Byte strings, and the two bytes that end lines. -/
namespace HttpOrigin

abbrev Bytes := List UInt8

/-- The unit of memory: a new queue holds one chunk, and a file is streamed through one. -/
def chunkSize : Nat := 8192

namespace Bytes

def cr : UInt8 := 13

def lf : UInt8 := 10

/-- The line ending that is written; a bare line feed is read as well. -/
def crlf : Bytes := [cr, lf]

end Bytes

end HttpOrigin

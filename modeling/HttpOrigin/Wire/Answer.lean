import HttpOrigin.ByteQueue.Basic
import HttpOrigin.Timestamp
import HttpOrigin.Wire.Method
import HttpOrigin.Text.Utf8

/-! Answers as lists of pieces, each of which goes to the output by a call of its own: the status
line, each header field, the blank line, the body. -/
namespace HttpOrigin.Answer

def serverName : String := "Liso/1.0"

def line (text : String) : Bytes := Text.encode text ++ Bytes.crlf

def statusLine (s : Status) : Bytes := line (Version.http11.text ++ " " ++ s.text)

def field (name value : String) : Bytes := line (name ++ ": " ++ value)

def headEnd : Bytes := Bytes.crlf

def errorPage (s : Status) : Bytes :=
  Text.encode ("<html><head><title>" ++ s.text ++ "</title></head><body><h1>" ++ s.text
    ++ "</h1></body></html>\n")

def error (now : Timestamp) (s : Status) : List Bytes :=
  [statusLine s,
    field "Content-Type" "text/html",
    field "Content-Length" (toString (errorPage s).length),
    field "Date" now.text,
    field "Server" serverName,
    field "Connection" "close",
    headEnd,
    errorPage s]

end HttpOrigin.Answer

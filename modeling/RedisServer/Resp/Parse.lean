import RedisServer.Bytes
import RedisServer.Lib.Incremental

namespace RedisServer

def respMaxArgc : Nat := 1024 * 1024
def respMaxBulkLen : Nat := 512 * 1024 * 1024
def respMaxInlineLen : Nat := 65536

abbrev Command := List Bytes

inductive ProtoError where
  | tooBigMbulkCount
  | invalidMultibulkLength
  | tooBigBulkCount
  | expectedDollar
  | invalidBulkLength
  | expectedCrlf
  | tooBigInline
  deriving DecidableEq, Repr

def ProtoError.msg : ProtoError → Bytes
  | .tooBigMbulkCount => str "ERR Protocol error: too big mbulk count string"
  | .invalidMultibulkLength => str "ERR Protocol error: invalid multibulk length"
  | .tooBigBulkCount => str "ERR Protocol error: too big bulk count string"
  | .expectedDollar => str "ERR Protocol error: expected '$', got something else"
  | .invalidBulkLength => str "ERR Protocol error: invalid bulk length"
  | .expectedCrlf => str "ERR Protocol error: expected CRLF after bulk string body"
  | .tooBigInline => str "ERR Protocol error: too big inline request"

def ProtoError.isLimit : ProtoError → Bool
  | .tooBigMbulkCount => true
  | .tooBigBulkCount => true
  | .tooBigInline => true
  | _ => false

abbrev ParseResult := Incremental.Verdict Command ProtoError

def byteAt (buf : Bytes) (i : Nat) : UInt8 := buf.getD i 0

def slice (buf : Bytes) (pos len : Nat) : Bytes := (buf.drop pos).take len

def findCrlfFrom : Bytes → Nat → Option Nat
  | a :: b :: rest, i => if a = cr ∧ b = lf then some i else findCrlfFrom (b :: rest) (i + 1)
  | _, _ => none

def findCrlf (buf : Bytes) (start : Nat) : Option Nat := findCrlfFrom (buf.drop start) start

def parseDigits : Bytes → Nat → Option Nat
  | [], v => some v
  | b :: bs, v =>
    if b < 48 ∨ 57 < b then none
    else
      let v := v * 10 + (b.toNat - 48)
      if respMaxBulkLen * 2 < v then none else parseDigits bs v

def parseLl (s : Bytes) : Option Int :=
  match s with
  | [] => none
  | 45 :: rest => if rest = [] then none else (parseDigits rest 0).map (fun v => -(v : Int))
  | _ => (parseDigits s 0).map (fun v => (v : Int))

-- one turn of the argument loop: the body and the position behind it, or how the parse stops
def parseBulk (buf : Bytes) (pos : Nat) : Incremental.Verdict Bytes ProtoError :=
  match findCrlf buf pos with
  | none => if respMaxInlineLen < buf.length - pos then .error .tooBigBulkCount else .incomplete
  | some hdrEnd =>
    if byteAt buf pos ≠ 36 then .error .expectedDollar
    else
      match parseLl (slice buf (pos + 1) (hdrEnd - (pos + 1))) with
      | none => .error .invalidBulkLength
      | some blen =>
        if blen < 0 ∨ (respMaxBulkLen : Int) < blen then .error .invalidBulkLength
        else
          let body := hdrEnd + 2
          if buf.length < body + blen.toNat + 2 then .incomplete
          else if byteAt buf (body + blen.toNat) ≠ cr ∨ byteAt buf (body + blen.toNat + 1) ≠ lf then
            .error .expectedCrlf
          else .ok (slice buf body blen.toNat) (body + blen.toNat + 2)

def parseArgs (buf : Bytes) : Nat → Nat → List Bytes → ParseResult
  | 0, pos, argv => .ok argv pos
  | n + 1, pos, argv =>
    match parseBulk buf pos with
    | .incomplete => .incomplete
    | .error e => .error e
    | .ok body pos' => parseArgs buf n pos' (argv ++ [body])

def parseMultibulk (buf : Bytes) : ParseResult :=
  match findCrlf buf 0 with
  | none =>
    if respMaxInlineLen < buf.length then .error .tooBigMbulkCount else .incomplete
  | some lineEnd =>
    match parseLl (slice buf 1 (lineEnd - 1)) with
    | none => .error .invalidMultibulkLength
    | some argc =>
      if argc ≤ 0 ∨ (respMaxArgc : Int) < argc then .error .invalidMultibulkLength
      else parseArgs buf argc.toNat (lineEnd + 2) []

def tokenizeFuel : Nat → Bytes → List Bytes
  | 0, _ => []
  | fuel + 1, line =>
    let line := line.dropWhile isspace
    if line = [] then []
    else line.takeWhile (!isspace ·) :: tokenizeFuel fuel (line.dropWhile (!isspace ·))

def tokenize (line : Bytes) : List Bytes := tokenizeFuel line.length line

def lineEndOf (buf : Bytes) : Nat := (buf.takeWhile (· != lf)).length

def lineLenOf (buf : Bytes) : Nat :=
  if 0 < lineEndOf buf ∧ byteAt buf (lineEndOf buf - 1) = cr then lineEndOf buf - 1
  else lineEndOf buf

def parseInline (buf : Bytes) : ParseResult :=
  if buf.length ≤ lineEndOf buf then
    if respMaxInlineLen < buf.length then .error .tooBigInline else .incomplete
  else .ok (tokenize (buf.take (lineLenOf buf))) (lineEndOf buf + 1)

def respParse (buf : Bytes) : ParseResult :=
  if buf.length = 0 then .incomplete
  else if byteAt buf 0 = 42 then parseMultibulk buf
  else parseInline buf

example : respParse (str "*2\r\n$3\r\nGET\r\n$1\r\nk\r\nPI") = .ok [str "GET", str "k"] 20 := by
  decide
example : respParse (str "SET  k v\r\n") = .ok [str "SET", str "k", str "v"] 10 := by decide
example : respParse (str "*1\r\n$4\r\nPI") = .incomplete := by decide

end RedisServer

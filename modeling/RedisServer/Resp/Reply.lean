import RedisServer.Bytes

namespace RedisServer

-- each gives the bytes that the function of the source appends to its resp_buf_t
def respReplySimpleString (s : Bytes) : Bytes := 43 :: s ++ crlf
def respReplyError (s : Bytes) : Bytes := 45 :: s ++ crlf
def respReplyInteger (v : Int64) : Bytes := 58 :: formatLld v ++ crlf
def respReplyBulkString (s : Bytes) : Bytes := 36 :: formatZu s.length ++ crlf ++ s ++ crlf
def respReplyNullBulk : Bytes := str "$-1\r\n"
def respReplyArrayHeader (count : Nat) : Bytes := 42 :: formatZu count ++ crlf

end RedisServer

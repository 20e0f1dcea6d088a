import RedisServer.Cmd.Handlers

namespace RedisServer

variable (hash : Bytes → UInt64)

def readChunk : Nat := 16384
def maxConnInputBuf : Nat := 16 * 1024 * 1024

structure Conn where
  inBuf : Bytes
  out : Bytes
  outSent : Nat
  closing : Bool
  wantWrite : Bool
  deriving DecidableEq, Repr

def connCreate : Conn := ⟨[], [], 0, false, false⟩

def connInAppend (c : Conn) (data : Bytes) : Conn := { c with inBuf := c.inBuf ++ data }

def connInConsume (c : Conn) (n : Nat) : Conn := { c with inBuf := c.inBuf.drop n }

def connReply (c : Conn) (r : Bytes) : Conn := { c with out := c.out ++ r }

-- one connection of the event loop and the command state it works on; dispatched, parseError and
-- written record the commands executed, the protocol error reported and the bytes write() took
structure Session where
  conn : Conn
  state : CmdState
  dispatched : List Command
  parseError : Option ProtoError
  written : Bytes
  closed : Bool
  deriving DecidableEq, Repr

def Session.start (st : CmdState) : Session := ⟨connCreate, st, [], none, [], false⟩

-- a server started without a snapshot, and a world in which no time passes
def freshState : CmdState := ⟨storeCreate, [], 0⟩
def quietEnv : Nat → Env := fun _ => ⟨0, 0, .ok, false⟩

-- envs i is what the i-th dispatched command reads from outside
def connProcessFuel (envs : Nat → Env) : Nat → Session → Session
  | 0, s => s
  | fuel + 1, s =>
    if 0 < s.conn.inBuf.length ∧ s.conn.closing = false then
      match respParse s.conn.inBuf with
      | .incomplete => s
      | .error e =>
        { s with
          conn := { connReply s.conn (respReplyError e.msg) with closing := true }
          parseError := some e }
      | .ok cmd consumed =>
        let r := cmdDispatch hash (envs s.dispatched.length) s.state cmd
        connProcessFuel envs fuel
          { s with
            conn := connInConsume (connReply s.conn r.2) consumed
            state := r.1
            dispatched := s.dispatched ++ [cmd] }
    else s

def connProcessInput (envs : Nat → Env) (s : Session) : Session :=
  connProcessFuel hash envs s.conn.inBuf.length s

inductive WriteResult where
  | all
  | sent (n : Nat)
  | eintr
  | eagain
  | fail
  deriving DecidableEq, Repr

inductive Flush where
  | flushed
  | pending
  | failed
  deriving DecidableEq, Repr

def connSend (s : Session) (n : Nat) : Session :=
  { s with
    conn := { s.conn with outSent := s.conn.outSent + n }
    written := s.written ++ slice s.conn.out s.conn.outSent n }

def connOutReset (s : Session) : Session := { s with conn := { s.conn with out := [], outSent := 0 } }

-- the results of the write calls in order; where they run out the socket takes nothing more
def connFlushOutput : List WriteResult → Session → Session × Flush
  | [], s => if s.conn.outSent < s.conn.out.length then (s, .pending) else (connOutReset s, .flushed)
  | w :: ws, s =>
    if s.conn.outSent < s.conn.out.length then
      match w with
      | .all => connFlushOutput ws (connSend s (s.conn.out.length - s.conn.outSent))
      | .sent n =>
        if 0 < n then connFlushOutput ws (connSend s (min n (s.conn.out.length - s.conn.outSent)))
        else (s, .failed)
      | .eintr => connFlushOutput ws s
      | .eagain => (s, .pending)
      | .fail => (s, .failed)
    else (connOutReset s, .flushed)

def connClose (s : Session) : Session := { s with closed := true }

def connArmWriteInterest (s : Session) (want : Bool) : Session :=
  { s with conn := { s.conn with wantWrite := want } }

def connServiceOutput (ws : List WriteResult) (s : Session) : Session :=
  match connFlushOutput ws s with
  | (s, .failed) => connClose s
  | (s, .pending) => connArmWriteInterest s true
  | (s, .flushed) => if s.conn.closing then connClose s else connArmWriteInterest s false

inductive ReadResult where
  | data (bytes : Bytes)
  | eof
  | eintr
  | eagain
  | fail
  deriving DecidableEq, Repr

def inputLimitMsg : Bytes := str "ERR input buffer limit exceeded"

-- the read loop of handle_client_readable: the results of the read calls in order, and those left
def readLoop : List ReadResult → Session → Session × List ReadResult
  | [], s => (s, [])
  | .data buf :: rs, s =>
    if maxConnInputBuf < s.conn.inBuf.length + buf.length then
      ({ s with conn := { connReply s.conn (respReplyError inputLimitMsg) with closing := true } }, rs)
    else if buf.length < readChunk then ({ s with conn := connInAppend s.conn buf }, rs)
    else readLoop rs { s with conn := connInAppend s.conn buf }
  | .eof :: rs, s => (connClose s, rs)
  | .eintr :: rs, s => readLoop rs s
  | .eagain :: rs, s => (s, rs)
  | .fail :: rs, s => (connClose s, rs)

def handleClientReadable (envs : Nat → Env) (ws : List WriteResult) (rs : List ReadResult)
    (s : Session) : Session × List ReadResult :=
  let r := readLoop rs s
  if r.1.closed then r
  else
    (connServiceOutput ws (if r.1.conn.closing then r.1 else connProcessInput hash envs r.1), r.2)

-- the event loop seen by one client: readable again until the connection is closed
def epollServe (envs : Nat → Env) (ws : List WriteResult) : Nat → List ReadResult → Session → Session
  | 0, _, s => s
  | fuel + 1, rs, s =>
    if s.closed then s
    else
      let r := handleClientReadable hash envs ws rs s
      epollServe envs ws fuel r.2 r.1

end RedisServer

import RedisServer.Persist.Snapshot
import RedisServer.Resp.Parse
import RedisServer.Resp.Reply

namespace RedisServer

structure CmdState where
  store : Store
  savePath : Bytes
  lastsaveTime : Int64
  deriving DecidableEq, Repr

-- what one dispatch reads from outside: now_ms(), the tv_sec read after a save, the result of
-- persist_save, and whether fork failed
structure Env where
  now : Int64
  tvSec : Int64
  saveStatus : PersistStatus
  forkFails : Bool
  deriving DecidableEq, Repr

def argAt (cmd : Command) (i : Nat) : Bytes := cmd.getD i []

def argEqCi (arg lit : Bytes) : Bool := arg.map tolower == lit.map tolower

def safeToken (dstCap : Nat) (arg : Bytes) : Bytes :=
  (arg.take (dstCap - 1)).map (fun c => if c < 0x20 ∨ c = 0x7f then 63 else tolower c)

def Cmd.parseStrictLl (arg : Bytes) : Option Int64 := strictLl arg

def replyWrongArity (cmd : Command) : Bytes :=
  respReplyError ((str "ERR wrong number of arguments for '" ++ safeToken 32 (argAt cmd 0) ++
    str "' command").take 79)

abbrev Handler := Env → CmdState → Command → CmdState × Bytes

variable (hash : Bytes → UInt64)

def cmdPing : Handler := fun _ st cmd =>
  if 2 < cmd.length then (st, replyWrongArity cmd)
  else if cmd.length = 2 then (st, respReplyBulkString (argAt cmd 1))
  else (st, respReplySimpleString (str "PONG"))

def cmdEcho : Handler := fun _ st cmd =>
  if cmd.length ≠ 2 then (st, replyWrongArity cmd)
  else (st, respReplyBulkString (argAt cmd 1))

def setExpiry (env : Env) (cmd : Command) : Except Bytes Int64 :=
  if cmd.length = 5 then
    let isEx := argEqCi (argAt cmd 3) (str "EX")
    let isPx := argEqCi (argAt cmd 3) (str "PX")
    if !isEx && !isPx then .error (str "ERR syntax error")
    else
      match Cmd.parseStrictLl (argAt cmd 4) with
      | none => .error (str "ERR invalid expire time in 'set' command")
      | some n =>
        if n ≤ 0 then .error (str "ERR invalid expire time in 'set' command")
        else .ok (env.now + if isEx then n * 1000 else n)
  else .ok 0

def cmdSet : Handler := fun env st cmd =>
  if cmd.length ≠ 3 ∧ cmd.length ≠ 5 then (st, replyWrongArity cmd)
  else
    match setExpiry env cmd with
    | .error msg => (st, respReplyError msg)
    | .ok expireAtMs =>
      ({ st with store := (storeSet hash st.store (argAt cmd 1) (argAt cmd 2) expireAtMs).1 },
        respReplySimpleString (str "OK"))

def replyValue : Option Bytes → Bytes
  | some val => respReplyBulkString val
  | none => respReplyNullBulk

def cmdGet : Handler := fun env st cmd =>
  if cmd.length ≠ 2 then (st, replyWrongArity cmd)
  else
    let r := storeGet hash st.store (argAt cmd 1) env.now
    ({ st with store := r.1 }, replyValue r.2)

def countLoop (f : Store → Bytes → Store × Nat) : List Bytes → Store → Nat → Store × Nat
  | [], s, count => (s, count)
  | key :: keys, s, count => countLoop f keys (f s key).1 (count + (f s key).2)

def cmdDel : Handler := fun _ st cmd =>
  if cmd.length < 2 then (st, replyWrongArity cmd)
  else
    let r := countLoop (storeDel hash) (cmd.drop 1) st.store 0
    ({ st with store := r.1 }, respReplyInteger (Int64.ofNat r.2))

def cmdExists : Handler := fun env st cmd =>
  if cmd.length < 2 then (st, replyWrongArity cmd)
  else
    let r := countLoop (fun s k => storeExists hash s k env.now) (cmd.drop 1) st.store 0
    ({ st with store := r.1 }, respReplyInteger (Int64.ofNat r.2))

def cmdExpire : Handler := fun env st cmd =>
  if cmd.length ≠ 3 then (st, replyWrongArity cmd)
  else
    match Cmd.parseStrictLl (argAt cmd 2) with
    | none => (st, respReplyError (str "ERR value is not an integer or out of range"))
    | some seconds =>
      let r := storeExpire hash st.store (argAt cmd 1) (env.now + seconds * 1000) env.now
      ({ st with store := r.1 }, respReplyInteger (if r.2 ≠ 0 then 1 else 0))

def replyTtl (ttlMs : Int64) (wantMs : Bool) : Bytes :=
  if ttlMs = storeTtlNoKey then respReplyInteger (-2)
  else if ttlMs = storeTtlNoExpiry then respReplyInteger (-1)
  else respReplyInteger (if wantMs then ttlMs else (ttlMs + 999) / 1000)

def cmdTtlGeneric (wantMs : Bool) : Handler := fun env st cmd =>
  if cmd.length ≠ 2 then (st, replyWrongArity cmd)
  else
    let r := storeTtlMs hash st.store (argAt cmd 1) env.now env.now
    ({ st with store := r.1 }, replyTtl r.2 wantMs)

def cmdTtl : Handler := cmdTtlGeneric hash false
def cmdPttl : Handler := cmdTtlGeneric hash true

def replyIncrResult : StoreIncr → Bytes
  | .ok val => respReplyInteger val
  | .notInteger => respReplyError (str "ERR value is not an integer or out of range")
  | .overflow => respReplyError (str "ERR increment or decrement would overflow")

def incrStep (env : Env) (st : CmdState) (key : Bytes) (delta : Int64) : CmdState × Bytes :=
  let r := storeIncrby hash st.store key delta env.now
  ({ st with store := r.1 }, replyIncrResult r.2)

def cmdIncr : Handler := fun env st cmd =>
  if cmd.length ≠ 2 then (st, replyWrongArity cmd) else incrStep hash env st (argAt cmd 1) 1

def cmdDecr : Handler := fun env st cmd =>
  if cmd.length ≠ 2 then (st, replyWrongArity cmd) else incrStep hash env st (argAt cmd 1) (-1)

def cmdIncrbyGeneric (negate : Bool) : Handler := fun env st cmd =>
  if cmd.length ≠ 3 then (st, replyWrongArity cmd)
  else
    match Cmd.parseStrictLl (argAt cmd 2) with
    | none => (st, respReplyError (str "ERR value is not an integer or out of range"))
    | some delta =>
      if negate && delta = Int64.minValue then
        (st, respReplyError (str "ERR increment or decrement would overflow"))
      else incrStep hash env st (argAt cmd 1) (if negate then -delta else delta)

def cmdIncrby : Handler := cmdIncrbyGeneric hash false
def cmdDecrby : Handler := cmdIncrbyGeneric hash true

def cmdDbsize : Handler := fun _ st cmd =>
  if cmd.length ≠ 1 then (st, replyWrongArity cmd)
  else (st, respReplyInteger (Int64.ofNat (storeSize st.store)))

def cmdFlushdb : Handler := fun _ st cmd =>
  if cmd.length ≠ 1 then (st, replyWrongArity cmd)
  else ({ st with store := (storeFlush st.store).1 }, respReplySimpleString (str "OK"))

def cmdLastsave : Handler := fun _ st cmd =>
  if cmd.length ≠ 1 then (st, replyWrongArity cmd)
  else (st, respReplyInteger st.lastsaveTime)

def replyNoSavePath : Bytes :=
  respReplyError (str "ERR no save path configured (start server with --save <file>)")

def doSave (env : Env) (st : CmdState) : CmdState × Bytes :=
  if st.savePath = [] then (st, replyNoSavePath)
  else if env.saveStatus ≠ .ok then
    (st, respReplyError ((str "ERR save failed: " ++ persistStrerror env.saveStatus).take 127))
  else ({ st with lastsaveTime := env.tvSec }, respReplySimpleString (str "OK"))

def cmdSave : Handler := fun env st cmd =>
  if cmd.length ≠ 1 then (st, replyWrongArity cmd) else doSave env st

-- the parent's side of the fork; the child saves and exits without replying
def cmdBgsave : Handler := fun env st cmd =>
  if cmd.length ≠ 1 then (st, replyWrongArity cmd)
  else if st.savePath = [] then (st, replyNoSavePath)
  else if env.forkFails then (st, respReplyError (str "ERR fork failed"))
  else ({ st with lastsaveTime := env.tvSec },
    respReplySimpleString (str "Background saving started"))

def mgetLoop (now : Int64) : List Bytes → Store → Bytes → Store × Bytes
  | [], s, out => (s, out)
  | key :: keys, s, out =>
    mgetLoop now keys (storeGet hash s key now).1 (out ++ replyValue (storeGet hash s key now).2)

def cmdMget : Handler := fun env st cmd =>
  if cmd.length < 2 then (st, replyWrongArity cmd)
  else
    let r := mgetLoop hash env.now (cmd.drop 1) st.store (respReplyArrayHeader (cmd.length - 1))
    ({ st with store := r.1 }, r.2)

def msetLoop : List Bytes → Store → Store
  | key :: val :: rest, s => msetLoop rest (storeSet hash s key val 0).1
  | _, s => s

def cmdMset : Handler := fun _ st cmd =>
  if cmd.length < 3 ∨ cmd.length % 2 = 0 then (st, replyWrongArity cmd)
  else ({ st with store := msetLoop hash (cmd.drop 1) st.store }, respReplySimpleString (str "OK"))

def keysCollectCb (ctx : Bytes × Nat) (e : Entry) : Bytes × Nat :=
  (ctx.1 ++ respReplyBulkString e.key, ctx.2 + 1)

def cmdKeys : Handler := fun env st cmd =>
  if cmd.length ≠ 2 then (st, replyWrongArity cmd)
  else if (argAt cmd 1).length ≠ 1 ∨ byteAt (argAt cmd 1) 0 ≠ 42 then
    (st, respReplyError (str "ERR only '*' pattern supported in KEYS"))
  else
    let ctx := storeForeach st.store env.now keysCollectCb ([], 0)
    (st, respReplyArrayHeader ctx.2 ++ ctx.1)

inductive CmdId where
  | ping | echo | set | get | mget | mset | del | exists | keys | expire | ttl | pttl
  | incr | decr | incrby | decrby | dbsize | flushdb | save | bgsave | lastsave
  deriving DecidableEq, Repr

def CmdId.handler : CmdId → Handler
  | .ping => cmdPing
  | .echo => cmdEcho
  | .set => cmdSet hash
  | .get => cmdGet hash
  | .mget => cmdMget hash
  | .mset => cmdMset hash
  | .del => cmdDel hash
  | .exists => cmdExists hash
  | .keys => cmdKeys
  | .expire => cmdExpire hash
  | .ttl => cmdTtl hash
  | .pttl => cmdPttl hash
  | .incr => cmdIncr hash
  | .decr => cmdDecr hash
  | .incrby => cmdIncrby hash
  | .decrby => cmdDecrby hash
  | .dbsize => cmdDbsize
  | .flushdb => cmdFlushdb
  | .save => cmdSave
  | .bgsave => cmdBgsave
  | .lastsave => cmdLastsave

def commandTable : List (Bytes × CmdId) :=
  [(str "PING", .ping), (str "ECHO", .echo), (str "SET", .set), (str "GET", .get),
    (str "MGET", .mget), (str "MSET", .mset), (str "DEL", .del), (str "EXISTS", .exists),
    (str "KEYS", .keys), (str "EXPIRE", .expire), (str "TTL", .ttl), (str "PTTL", .pttl),
    (str "INCR", .incr), (str "DECR", .decr), (str "INCRBY", .incrby), (str "DECRBY", .decrby),
    (str "DBSIZE", .dbsize), (str "FLUSHDB", .flushdb), (str "SAVE", .save),
    (str "BGSAVE", .bgsave), (str "LASTSAVE", .lastsave)]

def lookupCommand (name : Bytes) : Option CmdId :=
  (commandTable.find? (fun e => argEqCi name e.1)).map Prod.snd

def replyUnknown (name : Bytes) : Bytes :=
  respReplyError ((str "ERR unknown command '" ++ safeToken 32 name ++ str "'").take 79)

def cmdDispatch (env : Env) (st : CmdState) (cmd : Command) : CmdState × Bytes :=
  if cmd.length = 0 then (st, [])
  else
    match lookupCommand (argAt cmd 0) with
    | some id => id.handler hash env st cmd
    | none => (st, replyUnknown (argAt cmd 0))

def dispatchStep (st : CmdState) (ec : Env × Command) : CmdState × Bytes :=
  cmdDispatch hash ec.1 st ec.2

end RedisServer

import RedisServer.Lib.LittleEndian
import RedisServer.Store.Ops

namespace RedisServer

variable (hash : Bytes → UInt64)

inductive PersistStatus where
  | ok
  | errIo
  | errFormat
  | errCorrupt
  deriving DecidableEq, Repr

def persistStrerror : PersistStatus → Bytes
  | .ok => str "OK"
  | .errIo => str "I/O error"
  | .errFormat => str "unrecognized file format"
  | .errCorrupt => str "checksum mismatch (file corrupted)"

def writeU64 (v : UInt64) : Bytes := LittleEndian.write 8 v.toBitVec
def writeU32 (v : UInt32) : Bytes := LittleEndian.write 4 v.toBitVec
def readU64 (p : Bytes) : UInt64 := UInt64.ofBitVec (LittleEndian.read (p.take 8))
def readU32 (p : Bytes) : UInt32 := UInt32.ofBitVec (LittleEndian.read (p.take 4))

def checksum (buf : Bytes) : UInt32 := buf.foldl (fun sum b => sum + b.toUInt32) 0

def magic : Bytes := str "KVSTORE1"
def magicLen : Nat := 8

structure SaveCtx where
  buf : Bytes
  count : Nat
  deriving DecidableEq, Repr

def entryImage (e : Entry) : Bytes :=
  writeU64 (UInt64.ofNat e.key.length) ++ e.key ++
    (writeU64 (UInt64.ofNat e.val.length) ++ e.val) ++ writeU64 e.expireAtMs.toUInt64

def saveCb (ctx : SaveCtx) (e : Entry) : SaveCtx := ⟨ctx.buf ++ entryImage e, ctx.count + 1⟩

-- the bytes persist_save builds in memory: the count is written over its placeholder, then the
-- checksum of everything so far is appended
def persistImage (s : Store) (now : Int64) : Bytes :=
  let header := magic ++ List.replicate 8 0
  let ctx := storeForeach s now saveCb ⟨header, 0⟩
  let buf := ctx.buf.take magicLen ++ writeU64 (UInt64.ofNat ctx.count) ++
    ctx.buf.drop (magicLen + 8)
  buf ++ writeU32 (checksum buf)

-- fault stands for an access outside the buffer that holds the file
inductive LoadStop where
  | corrupt
  | fault
  deriving DecidableEq, Repr

inductive LoadOutcome where
  | status (st : PersistStatus)
  | fault
  deriving DecidableEq, Repr

def LoadStop.outcome : LoadStop → LoadOutcome
  | .corrupt => .status .errCorrupt
  | .fault => .fault

structure RawEntry where
  keyPos : UInt64
  keyLen : UInt64
  valPos : UInt64
  valLen : UInt64
  expireAtMs : Int64
  deriving DecidableEq, Repr

def within (pos limit : UInt64) : Except LoadStop Unit :=
  if pos > limit then .error .corrupt else .ok ()

def readU64At (data : Bytes) (pos : UInt64) : Except LoadStop UInt64 :=
  if pos.toNat + 8 ≤ data.length then .ok (readU64 (data.drop pos.toNat)) else .error .fault

def sliceAt (data : Bytes) (pos len : UInt64) : Except LoadStop Bytes :=
  if pos.toNat + len.toNat ≤ data.length then .ok ((data.drop pos.toNat).take len.toNat)
  else .error .fault

-- size_t and uint64_t arithmetic wraps
def readEntry (data : Bytes) (limit pos : UInt64) : Except LoadStop (RawEntry × UInt64) := do
  within (pos + 8) limit
  let keyLen ← readU64At data pos
  let keyPos := pos + 8
  within (keyPos + keyLen) limit
  let pos := keyPos + keyLen
  within (pos + 8) limit
  let valLen ← readU64At data pos
  let valPos := pos + 8
  within (valPos + valLen) limit
  let pos := valPos + valLen
  within (pos + 8) limit
  let raw ← readU64At data pos
  return (⟨keyPos, keyLen, valPos, valLen, raw.toInt64⟩, pos + 8)

def loadLoop (data : Bytes) (limit : UInt64) (now : Int64) :
    Nat → UInt64 → Store → Store × LoadOutcome
  | 0, _, s => (s, .status .ok)
  | n + 1, pos, s =>
    match readEntry data limit pos with
    | .error e => (s, e.outcome)
    | .ok (r, pos') =>
      if expired r.expireAtMs now then loadLoop data limit now n pos' s
      else
        match sliceAt data r.keyPos r.keyLen, sliceAt data r.valPos r.valLen with
        | .ok key, .ok val =>
          loadLoop data limit now n pos' (storeSet hash s key val r.expireAtMs).1
        | _, _ => (s, .fault)

def loadData (s : Store) (data : Bytes) (now : Int64) : Store × LoadOutcome :=
  if data.take magicLen ≠ magic then (s, .status .errFormat)
  else if readU32 (data.drop (data.length - 4)) ≠ checksum (data.take (data.length - 4)) then
    (s, .status .errCorrupt)
  else
    loadLoop hash data (UInt64.ofNat (data.length - 4)) now
      (readU64 (data.drop magicLen)).toNat (UInt64.ofNat (magicLen + 8)) s

-- what fopen, ftell and fread hand to persist_load
inductive SnapshotFile where
  | absent
  | unreadable (fsz : Nat)
  | contents (data : Bytes)
  deriving DecidableEq, Repr

-- a long, or -1 when the size of the file is none
def ftell (data : Bytes) : Int := if data.length < 2 ^ 63 then data.length else -1

def persistLoad (s : Store) (file : SnapshotFile) (now : Int64) : Store × LoadOutcome :=
  match file with
  | .absent => (s, .status .errIo)
  | .unreadable fsz => (s, .status (if fsz < magicLen + 8 + 4 then .errFormat else .errIo))
  | .contents data =>
    if ftell data < (magicLen + 8 + 4 : Nat) then (s, .status .errFormat)
    else loadData hash s data now

end RedisServer

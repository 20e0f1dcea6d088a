import RedisServer.Store.Table
import RedisServer.Lib.Machine

namespace RedisServer

variable (hash : Bytes → UInt64)

def expired (expireAtMs now : Int64) : Bool := expireAtMs ≠ 0 && expireAtMs ≤ now

def locateLive (s : Store) (key : Bytes) (now : Int64) : Store × Option Found :=
  match findSlotEither s key (hash key) with
  | none => (s, none)
  | some r => if expired r.entry.expireAtMs now then (s.unlink r, none) else (s, some r)

def migrateChain (src dst : Table) : List Entry → Table × Table
  | [] => (src, dst)
  | e :: es => migrateChain { src with used := src.used - 1 } (dst.push (hash e.key) e) es

-- the argument counts the empty buckets that may still be skipped
def rehashLoop : Nat → Store → Store
  | 0, s => s
  | visits + 1, s =>
    if s.rehashIdx.toNat < s.ht0.size then
      match s.ht0.chain s.rehashIdx.toNat with
      | [] => rehashLoop visits { s with rehashIdx := s.rehashIdx + 1 }
      | e :: es =>
        let r := migrateChain hash s.ht0 s.ht1 (e :: es)
        { ht0 := { r.1 with buckets := r.1.buckets.modify s.rehashIdx.toNat (fun _ => []) }
          ht1 := r.2
          rehashIdx := s.rehashIdx + 1 }
    else s

def finishRehash (s : Store) : Store :=
  if s.ht0.size ≤ s.rehashIdx.toNat then ⟨s.ht1, tableInit 0, -1⟩ else s

def rehashStep (s : Store) : Store :=
  if !isRehashing s then s else finishRehash (rehashLoop hash rehashEmptyVisitsLimit s)

def maybeStartRehash (s : Store) : Store :=
  if isRehashing s then s
  else if s.ht0.used < s.ht0.size then s
  else { s with ht1 := tableInit (nextPow2 (s.ht0.size * 2)), rehashIdx := 0 }

def storeCreate : Store := ⟨tableInit storeInitialSize, tableInit 0, -1⟩

def storeSize (s : Store) : Nat := s.ht0.used + s.ht1.used

def insertEntry (s : Store) (e : Entry) : Store :=
  if isRehashing s then { s with ht1 := s.ht1.push (hash e.key) e }
  else maybeStartRehash { s with ht0 := s.ht0.push (hash e.key) e }

def storeSet (s : Store) (key val : Bytes) (expireAtMs : Int64) : Store × Nat :=
  let s := rehashStep hash s
  match findSlotEither s key (hash key) with
  | some r => (s.rewrite r (fun e => { e with val := val, expireAtMs := expireAtMs }), 0)
  | none => (insertEntry hash s ⟨key, val, expireAtMs⟩, 1)

def storeGet (s : Store) (key : Bytes) (now : Int64) : Store × Option Bytes :=
  let r := locateLive hash (rehashStep hash s) key now
  (r.1, r.2.map (·.entry.val))

def storeExists (s : Store) (key : Bytes) (now : Int64) : Store × Nat :=
  let r := locateLive hash (rehashStep hash s) key now
  (r.1, if r.2.isSome then 1 else 0)

def storeDel (s : Store) (key : Bytes) : Store × Nat :=
  let s := rehashStep hash s
  match findSlotEither s key (hash key) with
  | none => (s, 0)
  | some r => (s.unlink r, 1)

def storeExpire (s : Store) (key : Bytes) (expireAtMs now : Int64) : Store × Nat :=
  match locateLive hash (rehashStep hash s) key now with
  | (s, none) => (s, 0)
  | (s, some r) => (s.rewrite r (fun e => { e with expireAtMs := expireAtMs }), 1)

def storeTtlNoKey : Int64 := -2
def storeTtlNoExpiry : Int64 := -1

-- locate_live and the subtraction read the clock separately
def ttlOf (expireAtMs now : Int64) : Int64 :=
  if expireAtMs = 0 then storeTtlNoExpiry
  else if expireAtMs - now > 0 then expireAtMs - now else 0

def storeTtlMs (s : Store) (key : Bytes) (now now' : Int64) : Store × Int64 :=
  match locateLive hash (rehashStep hash s) key now with
  | (s, none) => (s, storeTtlNoKey)
  | (s, some r) => (s, ttlOf r.entry.expireAtMs now')

inductive StoreIncr where
  | ok (newValue : Int64)
  | notInteger
  | overflow
  deriving DecidableEq, Repr

def Store.parseStrictLl (s : Bytes) : Option Int64 := strictLl s

def incrOverflows (current delta : Int64) : Bool :=
  (delta > 0 && current > Int64.maxValue - delta) ||
    (delta < 0 && current < Int64.minValue - delta)

def storeIncrby (s : Store) (key : Bytes) (delta now : Int64) : Store × StoreIncr :=
  match locateLive hash (rehashStep hash s) key now with
  | (s, some r) =>
    match Store.parseStrictLl r.entry.val with
    | none => (s, .notInteger)
    | some current =>
      if incrOverflows current delta then (s, .overflow)
      else (s.rewrite r (fun e => { e with val := formatLld (current + delta) }),
        .ok (current + delta))
  | (s, none) =>
    if incrOverflows 0 delta then (s, .overflow)
    else ((storeSet hash s key (formatLld (0 + delta)) 0).1, .ok (0 + delta))

def storeFlush (s : Store) : Store × Nat := (storeCreate, storeSize s)

def liveEntry (now : Int64) (e : Entry) : Bool := e.expireAtMs = 0 || e.expireAtMs > now

def Table.walk (t : Table) : List Entry := (List.range t.size).flatMap t.chain

def storeForeach {σ : Type} (s : Store) (now : Int64) (fn : σ → Entry → σ) (ud : σ) : σ :=
  ((s.ht0.walk ++ s.ht1.walk).filter (liveEntry now)).foldl fn ud

inductive StoreOp where
  | set (key val : Bytes) (expireAtMs : Int64)
  | get (key : Bytes) (now : Int64)
  | exists (key : Bytes) (now : Int64)
  | del (key : Bytes)
  | expire (key : Bytes) (expireAtMs now : Int64)
  | ttlMs (key : Bytes) (now now' : Int64)
  | incrby (key : Bytes) (delta now : Int64)
  | flush
  deriving DecidableEq, Repr

inductive StoreRet where
  | count (n : Nat)
  | value (v : Option Bytes)
  | ttl (t : Int64)
  | incr (r : StoreIncr)
  deriving DecidableEq, Repr

def storeStep (s : Store) : StoreOp → Store × StoreRet
  | .set k v e => let r := storeSet hash s k v e; (r.1, .count r.2)
  | .get k now => let r := storeGet hash s k now; (r.1, .value r.2)
  | .exists k now => let r := storeExists hash s k now; (r.1, .count r.2)
  | .del k => let r := storeDel hash s k; (r.1, .count r.2)
  | .expire k e now => let r := storeExpire hash s k e now; (r.1, .count r.2)
  | .ttlMs k now now' => let r := storeTtlMs hash s k now now'; (r.1, .ttl r.2)
  | .incrby k d now => let r := storeIncrby hash s k d now; (r.1, .incr r.2)
  | .flush => let r := storeFlush s; (r.1, .count r.2)

def StoreReachable (s : Store) : Prop := Machine.Reachable (storeStep hash) storeCreate s

end RedisServer

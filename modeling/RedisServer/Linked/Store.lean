import RedisServer.Lib.Cells
import RedisServer.Store.Ops

namespace RedisServer

namespace Linked

open Cells

-- store.c again, with its pointers: what malloc gave is an address, NULL is none
structure EntryNode where
  key : Nat
  keyLen : Nat
  val : Nat
  valLen : Nat
  expireAtMs : Int64
  next : Option Nat
  deriving DecidableEq, Repr

structure StoreTable where
  buckets : Option Nat
  size : Nat
  mask : Nat
  used : Nat
  deriving DecidableEq, Repr

structure LinkedStore where
  ht0 : StoreTable
  ht1 : StoreTable
  rehashIdx : Int
  deriving DecidableEq, Repr

inductive Obj where
  | bytes (data : Bytes)
  | entry (e : EntryNode)
  | array (slots : List (Option Nat))
  | record (s : LinkedStore)
  deriving DecidableEq, Repr

def LinkedStore.table (s : LinkedStore) : TableId → StoreTable
  | .ht0 => s.ht0
  | .ht1 => s.ht1

def LinkedStore.setTable (s : LinkedStore) (t : StoreTable) : TableId → LinkedStore
  | .ht0 => { s with ht0 := t }
  | .ht1 => { s with ht1 := t }

-- a store_entry_t**: into the array of buckets, or to the next field of an entry
inductive SlotPtr where
  | bucket (array i : Nat)
  | next (entry : Nat)
  deriving DecidableEq, Repr

def loadBytes (a : Nat) : Prog Obj Bytes := do
  match ← load a with
  | .bytes data => return data
  | _ => fail .mistyped

def loadEntry (a : Nat) : Prog Obj EntryNode := do
  match ← load a with
  | .entry e => return e
  | _ => fail .mistyped

def loadArray (a : Nat) : Prog Obj (List (Option Nat)) := do
  match ← load a with
  | .array slots => return slots
  | _ => fail .mistyped

def loadStore (a : Nat) : Prog Obj LinkedStore := do
  match ← load a with
  | .record s => return s
  | _ => fail .mistyped

def readBytes (a n : Nat) : Prog Obj Bytes := do
  let data ← loadBytes a
  if n ≤ data.length then return data.take n else fail .outOfBounds

-- malloc(n + 1), memcpy and the zero behind the text
def copyBytes (data : Bytes) : Prog Obj Nat := malloc (.bytes (data ++ [0]))

def freePtr : Option Nat → Prog Obj Unit
  | none => return ()
  | some a => free a

def readSlot : SlotPtr → Prog Obj (Option Nat)
  | .bucket array i => do
    let slots ← loadArray array
    match slots[i]? with
    | some p => return p
    | none => fail .outOfBounds
  | .next a => do return (← loadEntry a).next

def writeSlot (slot : SlotPtr) (p : Option Nat) : Prog Obj Unit :=
  match slot with
  | .bucket array i => do
    let slots ← loadArray array
    if i < slots.length then store array (.array (slots.set i p)) else fail .outOfBounds
  | .next a => do
    let e ← loadEntry a
    store a (.entry { e with next := p })

-- the entry behind a slot that is not NULL
def entryAt (slot : SlotPtr) : Prog Obj Nat := do
  match ← readSlot slot with
  | some a => return a
  | none => fail .dangling

def StoreTable.bucketAt (t : StoreTable) (i : Nat) : Prog Obj SlotPtr :=
  match t.buckets with
  | some array => return .bucket array i
  | none => fail .dangling

def tableInit (size : Nat) : Prog Obj StoreTable :=
  if size = 0 then return ⟨none, 0, 0, 0⟩
  else do
    let array ← malloc (.array (List.replicate size none))
    return ⟨some array, size, size - 1, 0⟩

def isRehashing (s : LinkedStore) : Bool := s.rehashIdx ≠ -1

def EntryNode.keyIs (e : EntryNode) (key : Bytes) : Prog Obj Bool :=
  if e.keyLen = key.length then do
    let data ← readBytes e.key key.length
    return decide (data = key)
  else return false

def findFrom (key : Bytes) : Nat → SlotPtr → Prog Obj (Option SlotPtr)
  | 0, _ => fail .stuck
  | n + 1, slot => do
    match ← readSlot slot with
    | none => return none
    | some a => do
      let e ← loadEntry a
      if ← e.keyIs key then return some slot else findFrom key n (.next a)

def findInTable (t : StoreTable) (key : Bytes) (h : UInt64) : Prog Obj (Option SlotPtr) :=
  if t.size = 0 then return none
  else do
    let slot ← t.bucketAt (h.toNat &&& t.mask)
    bounded (fun n => findFrom key n slot)

def findSlotEither (s : LinkedStore) (key : Bytes) (h : UInt64) :
    Prog Obj (Option (TableId × SlotPtr)) := do
  match ← findInTable s.ht0 key h with
  | some slot => return some (.ht0, slot)
  | none =>
    if isRehashing s then return (← findInTable s.ht1 key h).map (fun slot => (.ht1, slot))
    else return none

def freeEntry (a : Nat) : Prog Obj Unit := do
  let e ← loadEntry a
  free e.key
  free e.val
  free a

-- *slot = e->next; t->used--; free_entry(e)
def unlink (s : LinkedStore) (id : TableId) (slot : SlotPtr) (a : Nat) : Prog Obj LinkedStore := do
  let e ← loadEntry a
  writeSlot slot e.next
  freeEntry a
  return s.setTable { s.table id with used := (s.table id).used - 1 } id

variable (hash : Bytes → UInt64)

def locateLive (s : LinkedStore) (key : Bytes) (now : Int64) :
    Prog Obj (LinkedStore × Option Nat) := do
  match ← findSlotEither s key (hash key) with
  | none => return (s, none)
  | some (id, slot) => do
    let a ← entryAt slot
    let e ← loadEntry a
    if expired e.expireAtMs now then return (← unlink s id slot a, none) else return (s, some a)

def migrate : Nat → StoreTable → StoreTable → Option Nat → Prog Obj (StoreTable × StoreTable)
  | _, src, dst, none => return (src, dst)
  | 0, _, _, some _ => fail .stuck
  | n + 1, src, dst, some a => do
    let e ← loadEntry a
    let key ← readBytes e.key e.keyLen
    let slot ← dst.bucketAt ((hash key).toNat &&& dst.mask)
    let first ← readSlot slot
    store a (.entry { e with next := first })
    writeSlot slot (some a)
    migrate n { src with used := src.used - 1 } { dst with used := dst.used + 1 } e.next

def rehashLoop : Nat → LinkedStore → Prog Obj LinkedStore
  | 0, s => return s
  | visits + 1, s =>
    if s.rehashIdx.toNat < s.ht0.size then do
      let slot ← s.ht0.bucketAt s.rehashIdx.toNat
      match ← readSlot slot with
      | none => rehashLoop visits { s with rehashIdx := s.rehashIdx + 1 }
      | some a => do
        let r ← bounded (fun n => migrate hash n s.ht0 s.ht1 (some a))
        writeSlot slot none
        return ⟨r.1, r.2, s.rehashIdx + 1⟩
    else return s

def finishRehash (s : LinkedStore) : Prog Obj LinkedStore :=
  if s.ht0.size ≤ s.rehashIdx.toNat then do
    freePtr s.ht0.buckets
    return ⟨s.ht1, ← tableInit 0, -1⟩
  else return s

def rehashStep (s : LinkedStore) : Prog Obj LinkedStore :=
  if !isRehashing s then return s
  else do finishRehash (← rehashLoop hash rehashEmptyVisitsLimit s)

def maybeStartRehash (s : LinkedStore) : Prog Obj LinkedStore :=
  if isRehashing s then return s
  else if s.ht0.used < s.ht0.size then return s
  else do return { s with ht1 := ← tableInit (nextPow2 (s.ht0.size * 2)), rehashIdx := 0 }

-- table_init of both tables and rehash_idx = -1, in store_create and in store_flush
def storeInit : Prog Obj LinkedStore := do
  let ht0 ← tableInit storeInitialSize
  let ht1 ← tableInit 0
  return ⟨ht0, ht1, -1⟩

-- what malloc(sizeof(*s)) returns holds nothing yet
def LinkedStore.raw : LinkedStore := ⟨⟨none, 0, 0, 0⟩, ⟨none, 0, 0, 0⟩, 0⟩

def storeCreate : Prog Obj Nat := do
  let a ← malloc (.record .raw)
  let s ← storeInit
  store a (.record s)
  return a

def freeChain : Nat → Option Nat → Prog Obj Unit
  | _, none => return ()
  | 0, some _ => fail .stuck
  | n + 1, some a => do
    let e ← loadEntry a
    freeEntry a
    freeChain n e.next

-- the arguments: how many buckets are left, and the next one
def freeBuckets (t : StoreTable) : Nat → Nat → Prog Obj Unit
  | 0, _ => return ()
  | left + 1, i => do
    let slot ← t.bucketAt i
    let p ← readSlot slot
    bounded (fun n => freeChain n p)
    freeBuckets t left (i + 1)

def tableFreeEntries (t : StoreTable) : Prog Obj Unit :=
  match t.buckets with
  | none => return ()
  | some array => do
    freeBuckets t t.size 0
    free array

def storeDestroy : Option Nat → Prog Obj Unit
  | none => return ()
  | some a => do
    let s ← loadStore a
    tableFreeEntries s.ht0
    tableFreeEntries s.ht1
    free a

def storeSize (s : LinkedStore) : Nat := s.ht0.used + s.ht1.used

-- what malloc(sizeof(store_entry_t)) returns holds nothing yet
def EntryNode.raw : EntryNode := ⟨0, 0, 0, 0, 0, none⟩

def insertEntry (s : LinkedStore) (key val : Bytes) (expireAtMs : Int64) :
    Prog Obj LinkedStore := do
  let a ← malloc (.entry .raw)
  let k ← copyBytes key
  let v ← copyBytes val
  let id : TableId := if isRehashing s then .ht1 else .ht0
  let target := s.table id
  let slot ← target.bucketAt ((hash key).toNat &&& target.mask)
  let first ← readSlot slot
  store a (.entry ⟨k, key.length, v, val.length, expireAtMs, first⟩)
  writeSlot slot (some a)
  let s := s.setTable { target with used := target.used + 1 } id
  if isRehashing s then return s else maybeStartRehash s

-- newval = copy of val; free(e->val); e->val = newval
def replaceValue (a : Nat) (val : Bytes) (expireAtMs : Option Int64) : Prog Obj Unit := do
  let newval ← copyBytes val
  let e ← loadEntry a
  free e.val
  store a (.entry { e with
    val := newval
    valLen := val.length
    expireAtMs := expireAtMs.getD e.expireAtMs })

def storeSet (s : LinkedStore) (key val : Bytes) (expireAtMs : Int64) :
    Prog Obj (LinkedStore × Nat) := do
  let s ← rehashStep hash s
  match ← findSlotEither s key (hash key) with
  | some (_, slot) => do
    let a ← entryAt slot
    replaceValue a val (some expireAtMs)
    return (s, 0)
  | none => return (← insertEntry hash s key val expireAtMs, 1)

-- *val_out and *vallen_out
def storeGet (s : LinkedStore) (key : Bytes) (now : Int64) :
    Prog Obj (LinkedStore × Option (Nat × Nat)) := do
  let r ← locateLive hash (← rehashStep hash s) key now
  match r.2 with
  | none => return (r.1, none)
  | some a => do
    let e ← loadEntry a
    return (r.1, some (e.val, e.valLen))

def storeExists (s : LinkedStore) (key : Bytes) (now : Int64) : Prog Obj (LinkedStore × Nat) := do
  let r ← locateLive hash (← rehashStep hash s) key now
  return (r.1, if r.2.isSome then 1 else 0)

def storeDel (s : LinkedStore) (key : Bytes) : Prog Obj (LinkedStore × Nat) := do
  let s ← rehashStep hash s
  match ← findSlotEither s key (hash key) with
  | none => return (s, 0)
  | some (id, slot) => do
    let a ← entryAt slot
    return (← unlink s id slot a, 1)

def storeExpire (s : LinkedStore) (key : Bytes) (expireAtMs now : Int64) :
    Prog Obj (LinkedStore × Nat) := do
  let r ← locateLive hash (← rehashStep hash s) key now
  match r.2 with
  | none => return (r.1, 0)
  | some a => do
    let e ← loadEntry a
    store a (.entry { e with expireAtMs := expireAtMs })
    return (r.1, 1)

def storeTtlMs (s : LinkedStore) (key : Bytes) (now now' : Int64) :
    Prog Obj (LinkedStore × Int64) := do
  let r ← locateLive hash (← rehashStep hash s) key now
  match r.2 with
  | none => return (r.1, storeTtlNoKey)
  | some a => do
    let e ← loadEntry a
    return (r.1, ttlOf e.expireAtMs now')

def parseStrictLl (a len : Nat) : Prog Obj (Option Int64) :=
  if len = 0 ∨ 20 < len then return none
  else do return Store.parseStrictLl (← readBytes a len)

def storeIncrby (s : LinkedStore) (key : Bytes) (delta now : Int64) :
    Prog Obj (LinkedStore × StoreIncr) := do
  let r ← locateLive hash (← rehashStep hash s) key now
  match r.2 with
  | some a => do
    let e ← loadEntry a
    match ← parseStrictLl e.val e.valLen with
    | none => return (r.1, .notInteger)
    | some current =>
      if incrOverflows current delta then return (r.1, .overflow)
      else do
        replaceValue a (formatLld (current + delta)) none
        return (r.1, .ok (current + delta))
  | none =>
    if incrOverflows 0 delta then return (r.1, .overflow)
    else return ((← storeSet hash r.1 key (formatLld (0 + delta)) 0).1, .ok (0 + delta))

def storeFlush (s : LinkedStore) : Prog Obj (LinkedStore × Nat) := do
  let removed := storeSize s
  tableFreeEntries s.ht0
  tableFreeEntries s.ht1
  return (← storeInit, removed)

section Foreach

variable {σ : Type} (now : Int64) (fn : σ → Entry → σ)

def walkChain : Nat → Option Nat → σ → Prog Obj σ
  | _, none, ud => return ud
  | 0, some _, _ => fail .stuck
  | n + 1, some a, ud => do
    let e ← loadEntry a
    if e.expireAtMs = 0 ∨ e.expireAtMs > now then
      let key ← readBytes e.key e.keyLen
      let val ← readBytes e.val e.valLen
      walkChain n e.next (fn ud ⟨key, val, e.expireAtMs⟩)
    else walkChain n e.next ud

def walkBuckets (t : StoreTable) : Nat → Nat → σ → Prog Obj σ
  | 0, _, ud => return ud
  | left + 1, i, ud => do
    let slot ← t.bucketAt i
    let p ← readSlot slot
    let ud ← bounded (fun n => walkChain now fn n p ud)
    walkBuckets t left (i + 1) ud

def storeForeach (s : LinkedStore) (ud : σ) : Prog Obj σ := do
  let ud ← walkBuckets now fn s.ht0 s.ht0.size 0 ud
  walkBuckets now fn s.ht1 s.ht1.size 0 ud

end Foreach

-- a caller reads the value that store_get points to before its next call
def storeStep (s : LinkedStore) : StoreOp → Prog Obj (LinkedStore × StoreRet)
  | .set k v e => do
    let r ← storeSet hash s k v e
    return (r.1, .count r.2)
  | .get k now => do
    let r ← storeGet hash s k now
    match r.2 with
    | none => return (r.1, .value none)
    | some p => do return (r.1, .value (some (← readBytes p.1 p.2)))
  | .exists k now => do
    let r ← storeExists hash s k now
    return (r.1, .count r.2)
  | .del k => do
    let r ← storeDel hash s k
    return (r.1, .count r.2)
  | .expire k e now => do
    let r ← storeExpire hash s k e now
    return (r.1, .count r.2)
  | .ttlMs k now now' => do
    let r ← storeTtlMs hash s k now now'
    return (r.1, .ttl r.2)
  | .incrby k d now => do
    let r ← storeIncrby hash s k d now
    return (r.1, .incr r.2)
  | .flush => do
    let r ← storeFlush s
    return (r.1, .count r.2)

-- a call works on the fields of the record at a
def call (a : Nat) (op : StoreOp) : Prog Obj StoreRet := do
  let r ← storeStep hash (← loadStore a) op
  store a (.record r.1)
  return r.2

def run (a : Nat) : List StoreOp → Prog Obj (List StoreRet)
  | [] => return []
  | op :: ops => do
    let ret ← call hash a op
    return ret :: (← run a ops)

end Linked

end RedisServer

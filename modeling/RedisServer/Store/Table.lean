import RedisServer.Bytes

namespace RedisServer

structure Entry where
  key : Bytes
  val : Bytes
  expireAtMs : Int64
  deriving DecidableEq, Repr

structure Table where
  buckets : List (List Entry)
  size : Nat
  mask : Nat
  used : Nat
  deriving DecidableEq, Repr

structure Store where
  ht0 : Table
  ht1 : Table
  rehashIdx : Int
  deriving DecidableEq, Repr

def storeInitialSize : Nat := 4
def rehashEmptyVisitsLimit : Nat := 10

def fnv1aHash (data : Bytes) : UInt64 :=
  data.foldl (fun h b => (h ^^^ b.toUInt64) * 0x100000001b3) 0xcbf29ce484222325

def nextPow2From : Nat → Nat → Nat → Nat
  | 0, p, _ => p
  | fuel + 1, p, n => if p < n then nextPow2From fuel (p * 2) n else p

def nextPow2 (n : Nat) : Nat := nextPow2From n 1 n

def tableInit (size : Nat) : Table where
  buckets := List.replicate size []
  size := size
  mask := if size ≠ 0 then size - 1 else 0
  used := 0

def Table.chain (t : Table) (i : Nat) : List Entry := t.buckets.getD i []

def Table.entries (t : Table) : List Entry := t.buckets.flatten

def Store.entries (s : Store) : List Entry := s.ht0.entries ++ s.ht1.entries

def isRehashing (s : Store) : Bool := s.rehashIdx ≠ -1

-- a store_entry_t** of the source: which bucket, and how far down its chain
structure Slot where
  bucket : Nat
  pos : Nat
  deriving DecidableEq, Repr

inductive TableId where
  | ht0
  | ht1
  deriving DecidableEq, Repr

def Store.table (s : Store) : TableId → Table
  | .ht0 => s.ht0
  | .ht1 => s.ht1

def Store.setTable (s : Store) (t : Table) : TableId → Store
  | .ht0 => { s with ht0 := t }
  | .ht1 => { s with ht1 := t }

structure Found where
  table : TableId
  slot : Slot
  entry : Entry
  deriving DecidableEq, Repr

def findInChain (key : Bytes) : List Entry → Nat → Option (Nat × Entry)
  | [], _ => none
  | e :: es, i => if e.key = key then some (i, e) else findInChain key es (i + 1)

def bucketIndex (t : Table) (h : UInt64) : Nat := h.toNat &&& t.mask

def findInTable (t : Table) (key : Bytes) (h : UInt64) : Option (Slot × Entry) :=
  if t.size = 0 then none
  else (findInChain key (t.chain (bucketIndex t h)) 0).map
    (fun r => (⟨bucketIndex t h, r.1⟩, r.2))

def findSlotEither (s : Store) (key : Bytes) (h : UInt64) : Option Found :=
  match findInTable s.ht0 key h with
  | some r => some ⟨.ht0, r.1, r.2⟩
  | none =>
    if isRehashing s then (findInTable s.ht1 key h).map (fun r => ⟨.ht1, r.1, r.2⟩) else none

def Table.unlink (t : Table) (slot : Slot) : Table :=
  { t with buckets := t.buckets.modify slot.bucket (·.eraseIdx slot.pos), used := t.used - 1 }

def Table.rewrite (t : Table) (slot : Slot) (f : Entry → Entry) : Table :=
  { t with buckets := t.buckets.modify slot.bucket (·.modify slot.pos f) }

def Table.push (t : Table) (h : UInt64) (e : Entry) : Table :=
  { t with buckets := t.buckets.modify (bucketIndex t h) (e :: ·), used := t.used + 1 }

def Store.unlink (s : Store) (r : Found) : Store :=
  s.setTable ((s.table r.table).unlink r.slot) r.table

def Store.rewrite (s : Store) (r : Found) (f : Entry → Entry) : Store :=
  s.setTable ((s.table r.table).rewrite r.slot f) r.table

end RedisServer

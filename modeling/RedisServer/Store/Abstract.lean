import RedisServer.Lib.ExpiringMap
import RedisServer.Store.Ops

namespace RedisServer

abbrev KvMap := Finmap (fun _ : Bytes => Bytes × Int64)

namespace KvMap

def fits (z : Int) : Prop := Int64.minValue.toInt ≤ z ∧ z ≤ Int64.maxValue.toInt

instance (z : Int) : Decidable (fits z) := inferInstanceAs (Decidable (_ ∧ _))

def purge (m : KvMap) (k : Bytes) (now : Int64) : KvMap := ExpiringMap.purge expired m k now

def set (m : KvMap) (k v : Bytes) (e : Int64) : KvMap × Nat :=
  (m.insert k (v, e), if k ∈ m then 0 else 1)

def get (m : KvMap) (k : Bytes) (now : Int64) : KvMap × Option Bytes :=
  (purge m k now, ((purge m k now).lookup k).map Prod.fst)

def has (m : KvMap) (k : Bytes) (now : Int64) : KvMap × Nat :=
  (purge m k now, if k ∈ purge m k now then 1 else 0)

def del (m : KvMap) (k : Bytes) : KvMap × Nat := (m.erase k, if k ∈ m then 1 else 0)

def expire (m : KvMap) (k : Bytes) (e now : Int64) : KvMap × Nat :=
  match (purge m k now).lookup k with
  | none => (purge m k now, 0)
  | some p => ((purge m k now).insert k (p.1, e), 1)

def ttlMs (m : KvMap) (k : Bytes) (now now' : Int64) : KvMap × Int64 :=
  match (purge m k now).lookup k with
  | none => (purge m k now, storeTtlNoKey)
  | some p => (purge m k now, ttlOf p.2 now')

-- the sum is taken in the unbounded integers and rejected when it leaves int64
def add (m : KvMap) (k : Bytes) (current delta : Int64) (e : Int64) : KvMap × StoreIncr :=
  if fits (current.toInt + delta.toInt) then
    (m.insert k (Decimal.ofInt (current.toInt + delta.toInt), e),
      .ok (Int64.ofInt (current.toInt + delta.toInt)))
  else (m, .overflow)

def incrby (m : KvMap) (k : Bytes) (delta now : Int64) : KvMap × StoreIncr :=
  match (purge m k now).lookup k with
  | none => add (purge m k now) k 0 delta 0
  | some p =>
    match strictLl p.1 with
    | none => (purge m k now, .notInteger)
    | some current => add (purge m k now) k current delta p.2

def flush (m : KvMap) : KvMap × Nat := (∅, m.keys.card)

def step (m : KvMap) : StoreOp → KvMap × StoreRet
  | .set k v e => ((m.set k v e).1, .count (m.set k v e).2)
  | .get k now => ((m.get k now).1, .value (m.get k now).2)
  | .exists k now => ((m.has k now).1, .count (m.has k now).2)
  | .del k => ((m.del k).1, .count (m.del k).2)
  | .expire k e now => ((m.expire k e now).1, .count (m.expire k e now).2)
  | .ttlMs k now now' => ((m.ttlMs k now now').1, .ttl (m.ttlMs k now now').2)
  | .incrby k d now => ((m.incrby k d now).1, .incr (m.incrby k d now).2)
  | .flush => (m.flush.1, .count m.flush.2)

end KvMap

def StoreOp.key? : StoreOp → Option Bytes
  | .set k _ _ => some k
  | .get k _ => some k
  | .exists k _ => some k
  | .del k => some k
  | .expire k _ _ => some k
  | .ttlMs k _ _ => some k
  | .incrby k _ _ => some k
  | .flush => none

namespace KvMap

theorem lookup_purge_ne (m : KvMap) {k k' : Bytes} (hk : k' ≠ k) (now : Int64) :
    (purge m k now).lookup k' = m.lookup k' := ExpiringMap.lookup_purge_ne m hk now

theorem lookup_add_ne (m : KvMap) {k k' : Bytes} (hk : k' ≠ k) (c d e : Int64) :
    (add m k c d e).1.lookup k' = m.lookup k' := by
  unfold add
  split_ifs
  · exact Finmap.lookup_insert_of_ne m hk
  · rfl

theorem lookup_step_ne (m : KvMap) {op : StoreOp} {k k' : Bytes} (hop : op.key? = some k)
    (hk : k' ≠ k) : (step m op).1.lookup k' = m.lookup k' := by
  cases op <;> simp only [StoreOp.key?, Option.some.injEq, reduceCtorEq] at hop <;> subst hop
  case set => exact Finmap.lookup_insert_of_ne m hk
  case get => exact lookup_purge_ne m hk _
  case «exists» => exact lookup_purge_ne m hk _
  case del => exact Finmap.lookup_erase_ne hk
  case expire now =>
    simp only [step, expire]
    cases (purge m _ now).lookup _ with
    | none => exact lookup_purge_ne m hk _
    | some p => exact (Finmap.lookup_insert_of_ne _ hk).trans (lookup_purge_ne m hk _)
  case ttlMs now now' =>
    simp only [step, ttlMs]
    cases (purge m _ now).lookup _ <;> exact lookup_purge_ne m hk _
  case incrby d now =>
    simp only [step, incrby]
    cases (purge m _ now).lookup _ with
    | none => exact (lookup_add_ne _ hk _ _ _).trans (lookup_purge_ne m hk _)
    | some p =>
      simp only
      cases strictLl p.1 with
      | none => exact lookup_purge_ne m hk _
      | some c => exact (lookup_add_ne _ hk _ _ _).trans (lookup_purge_ne m hk _)

end KvMap

end RedisServer

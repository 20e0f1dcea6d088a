import RedisServer.Linked.Tables
import RedisServer.Store.Refinement

namespace RedisServer

namespace Linked

open Cells

variable {hash : Bytes → UInt64}

theorem modify_middle {α : Type} (pre : List α) (x : α) (post : List α) (f : α → α) :
    (pre ++ x :: post).modify pre.length f = pre ++ f x :: post := by
  induction pre with
  | nil => rfl
  | cons y pre ih => rw [List.cons_append, List.length_cons, List.modify_succ_cons, ih,
      List.cons_append]

namespace Laid

variable {t : StoreTable} {T : Table} {chains : List (List Placed)}

-- a bucket gets other entries, in memory as in the list
theorem set (h : Laid t T chains) {b : Nat} {ps : List Placed} (hb : chains[b]? = some ps)
    (f : List Entry → List Entry) (ps' : List Placed)
    (hf : f (ps.map Placed.entry) = ps'.map Placed.entry) (used : Nat) :
    Laid { t with used := used } { T with buckets := T.buckets.modify b f, used := used }
      (chains.set b ps') where
  size := h.size
  mask := h.mask
  used := rfl
  buckets := by
    have hT : T.buckets[b]? = some (ps.map Placed.entry) := by
      rw [← h.buckets, List.getElem?_map, hb]
      rfl
    rw [List.map_set, h.buckets, ← hf, List.modify_eq_set_getElem?, hT]
    rfl
  length := by rw [List.length_set, h.length]
  array := h.array

theorem unlink (h : Laid t T chains) {slot : Slot} {pre post : List Placed} {p : Placed}
    (hp : Stands chains slot pre p post) :
    Laid { t with used := t.used - 1 } (T.unlink slot) (chains.set slot.bucket (pre ++ post)) := by
  rw [Table.unlink, h.used]
  refine h.set hp.chain _ _ ?_ _
  rw [← hp.pos, List.map_append, List.map_append, List.map_cons,
    List.eraseIdx_append_of_length_le (by simp), List.length_map, Nat.sub_self, List.eraseIdx_zero,
    List.tail_cons]

theorem rewrite (h : Laid t T chains) {slot : Slot} {pre post : List Placed} {p q : Placed}
    (hp : Stands chains slot pre p post) {g : Entry → Entry} (hq : q.entry = g p.entry) :
    Laid t (T.rewrite slot g) (chains.set slot.bucket (pre ++ q :: post)) := by
  have hset := h.set hp.chain (·.modify slot.pos g) (pre ++ q :: post) ?_ t.used
  · rw [Table.rewrite, ← h.used]
    exact hset
  · rw [← hp.pos, List.map_append, List.map_append, List.map_cons, List.map_cons, hq,
      ← List.length_map (f := Placed.entry)]
    exact modify_middle ..

theorem clear (h : Laid t T chains) {b : Nat} {ps : List Placed} (hb : chains[b]? = some ps) :
    Laid { t with used := t.used - ps.length } (T.clear b) (chains.set b []) := by
  rw [Table.clear, h.chain hb, List.length_map, ← h.used]
  exact h.set hb _ _ rfl _

theorem push (h : Laid t T chains) {x : UInt64} {ps : List Placed} {p : Placed}
    (hb : chains[bucketIndex T x]? = some ps) :
    Laid { t with used := t.used + 1 } (T.push x p.entry)
      (chains.set (bucketIndex T x) (p :: ps)) := by
  rw [Table.push, h.used]
  exact h.set hb _ _ rfl _

end Laid

abbrev Layout := TableId → List (List Placed)

structure StoreLaid (s : LinkedStore) (S : Store) (c : Layout) : Prop where
  table : ∀ id, Laid (s.table id) (S.table id) (c id)
  rehashIdx : s.rehashIdx = S.rehashIdx

def storeCells (s : LinkedStore) (c : Layout) : Multiset (Nat × Obj) :=
  tableCells s.ht0.buckets (c .ht0) + tableCells s.ht1.buckets (c .ht1)

-- m is what the store s has in memory, and its contents are those of S
def Memory (s : LinkedStore) (S : Store) (m : Multiset (Nat × Obj)) : Prop :=
  ∃ c, StoreLaid s S c ∧ m = storeCells s c

def Layout.both (c0 c1 : List (List Placed)) : Layout
  | .ht0 => c0
  | .ht1 => c1

theorem Laid.both {t0 t1 : StoreTable} {T0 T1 : Table} {c0 c1 : List (List Placed)}
    (h0 : Laid t0 T0 c0) (h1 : Laid t1 T1 c1) (i : Int) :
    StoreLaid ⟨t0, t1, i⟩ ⟨T0, T1, i⟩ (Layout.both c0 c1) where
  table id := by
    cases id with
    | ht0 => exact h0
    | ht1 => exact h1
  rehashIdx := rfl

def otherCells (s : LinkedStore) (c : Layout) : TableId → Multiset (Nat × Obj)
  | .ht0 => tableCells s.ht1.buckets (c .ht1)
  | .ht1 => tableCells s.ht0.buckets (c .ht0)

section Layout

variable {s : LinkedStore} {S : Store} {c : Layout}

theorem storeCells_eq (s : LinkedStore) (c : Layout) (id : TableId) :
    storeCells s c = tableCells (s.table id).buckets (c id) + otherCells s c id := by
  cases id with
  | ht0 => rfl
  | ht1 => exact add_comm _ _

theorem storeCells_set (s : LinkedStore) (c : Layout) (id : TableId) (t : StoreTable)
    (chains : List (List Placed)) :
    storeCells (s.setTable t id) (Function.update c id chains) =
      tableCells t.buckets chains + otherCells s c id := by
  cases id with
  | ht0 => rfl
  | ht1 => exact add_comm _ _

theorem StoreLaid.set (h : StoreLaid s S c) (id : TableId) {t : StoreTable} {T : Table}
    {chains : List (List Placed)} (ht : Laid t T chains) :
    StoreLaid (s.setTable t id) (S.setTable T id) (Function.update c id chains) where
  table id' := by
    cases id with
    | ht0 =>
      cases id' with
      | ht0 => exact ht
      | ht1 => exact h.table .ht1
    | ht1 =>
      cases id' with
      | ht0 => exact h.table .ht0
      | ht1 => exact ht
  rehashIdx := by
    cases id with
    | ht0 => exact h.rehashIdx
    | ht1 => exact h.rehashIdx

theorem StoreLaid.isRehashing (h : StoreLaid s S c) :
    isRehashing s = RedisServer.isRehashing S := by
  rw [Linked.isRehashing, RedisServer.isRehashing, h.rehashIdx]

theorem StoreLaid.index_lt (hs : S.Sound hash) (id : TableId) (x : UInt64)
    (hz : (S.table id).size ≠ 0) : bucketIndex (S.table id) x < (S.table id).size := by
  have hw := hs.wf id
  have hlt := hw.index_lt (Nat.pos_of_ne_zero hz) x
  rwa [hw.length_buckets] at hlt

-- what find_slot_either returns, and where the list model has it
structure Finds (s : LinkedStore) (c : Layout) (y : TableId × SlotPtr) (f : Found) (p : Placed) :
    Prop where
  table : y.1 = f.table
  entry : p.entry = f.entry
  points : PointsTo (s.table f.table) (c f.table) y.2 f.slot p

theorem findSlotEither_spec (h : StoreLaid s S c) (hs : S.Sound hash) (key : Bytes) (x : UInt64) :
    Triple (storeCells s c) (findSlotEither s key x) (fun r m' => m' = storeCells s c ∧
      Option.Rel (fun y f => ∃ p, Finds s c y f p) r (RedisServer.findSlotEither S key x)) := by
  have hfind (id : TableId) := findInTable_spec (h.table id) key x
    (StoreLaid.index_lt hs id x) (otherCells s c id)
  rw [findSlotEither, RedisServer.findSlotEither]
  have h0 := hfind .ht0
  rw [← storeCells_eq s c .ht0] at h0
  refine h0.bind ?_
  rintro r m' ⟨rfl, hr⟩
  have hS0 : S.table .ht0 = S.ht0 := rfl
  rw [hS0] at hr
  generalize RedisServer.findInTable S.ht0 key x = found at hr
  cases hr with
  | @some ptr y hy =>
    obtain ⟨p, hentry, hpoints⟩ := hy
    exact .pure ⟨rfl, .some ⟨p, rfl, hentry, hpoints⟩⟩
  | none =>
    simp only [h.isRehashing]
    split_ifs with hb
    · have h1 := hfind .ht1
      rw [← storeCells_eq s c .ht1] at h1
      refine h1.bind ?_
      rintro r m' ⟨rfl, hr⟩
      have hS1 : S.table .ht1 = S.ht1 := rfl
      rw [hS1] at hr
      generalize RedisServer.findInTable S.ht1 key x = found at hr
      cases hr with
      | @some ptr y hy =>
        obtain ⟨p, hentry, hpoints⟩ := hy
        exact .pure ⟨rfl, .some ⟨p, rfl, hentry, hpoints⟩⟩
      | none => exact .pure ⟨rfl, .none⟩
    · exact .pure ⟨rfl, .none⟩

end Layout

end Linked

end RedisServer

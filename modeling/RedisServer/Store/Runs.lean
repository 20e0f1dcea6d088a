import RedisServer.Store.Refinement

namespace RedisServer

variable {hash : Bytes → UInt64}

theorem storeStep_frame {s : Store} (hs : s.Inv hash) {op : StoreOp} {k : Bytes}
    (hop : op.key? = some k) {e : Entry} (hk : e.key ≠ k) :
    e ∈ (storeStep hash s op).1.entries ↔ e ∈ s.entries := by
  obtain ⟨hi, hm, -⟩ := storeStep_spec hs op
  rw [← hi.lookup_iff, ← hs.lookup_iff, hm, KvMap.lookup_step_ne s.toMap hop hk]

theorem store_run_refines_map (hash : Bytes → UInt64) (ops : List StoreOp) :
    let s := (Machine.run (storeStep hash) storeCreate ops).1
    let m := (Machine.run KvMap.step ∅ ops).1
    (Machine.run (storeStep hash) storeCreate ops).2 = (Machine.run KvMap.step ∅ ops).2 ∧
      (∀ e : Entry, e ∈ s.ht0.entries ∨ e ∈ s.ht1.entries ↔
        m.lookup e.key = some (e.val, e.expireAtMs)) ∧
      (s.entries.map Entry.key).Nodup ∧
      (rehashStep hash s).entries.Perm s.entries ∧
      ∀ (op : StoreOp) (k : Bytes), op.key? = some k → ∀ e : Entry, e.key ≠ k →
        (e ∈ (storeStep hash s op).1.entries ↔ e ∈ s.entries) := by
  intro s m
  obtain ⟨⟨hi, hm⟩, ho⟩ := Machine.run_simulation
    (R := fun (s : Store) m => s.Inv hash ∧ s.toMap = m)
    (fun s m op h => by
      obtain ⟨h1, h2, h3⟩ := storeStep_spec h.1 op
      exact ⟨⟨h1, h.2 ▸ h2⟩, h.2 ▸ h3⟩)
    ⟨storeCreate_inv, toMap_storeCreate⟩ ops
  refine ⟨ho, fun e => ?_, hi.nodup, (rehashStep_spec hi).2,
    fun op k hop e hk => storeStep_frame hi hop hk⟩
  rw [show m = s.toMap from hm.symm, hi.lookup_iff, Store.entries, List.mem_append]

structure Store.Representation (hash : Bytes → UInt64) (s : Store) : Prop where
  size_pow2 : ∃ k, s.ht0.size = 2 ^ k
  mask_eq : ∀ id, (s.table id).mask = (s.table id).size - 1
  allocated : ∀ id, (s.table id).buckets.length = (s.table id).size
  idle : s.rehashIdx = -1 → s.ht1.size = 0
  rehashing : s.rehashIdx ≠ -1 →
    s.ht1.size = 2 * s.ht0.size ∧ 0 ≤ s.rehashIdx ∧ s.rehashIdx < s.ht0.size
  placed : ∀ id i e, e ∈ (s.table id).chain i → (hash e.key).toNat &&& (s.table id).mask = i
  unique : ((s.ht0.entries ++ s.ht1.entries).map Entry.key).Nodup
  used_eq : ∀ id, (s.table id).used = ((s.table id).buckets.map List.length).sum
  -- the two places where used is decremented: unlinking a found entry, migrating a chain
  unlink_used : ∀ k r, findSlotEither (rehashStep hash s) k (hash k) = some r →
    0 < ((rehashStep hash s).table r.table).used
  migrate_used : ∀ i, (s.ht0.chain i).length ≤ s.ht0.used
  drained : ∀ i : Nat, (i : Int) < s.rehashIdx → s.ht0.chain i = []
  discarded : s.rehashIdx ≠ -1 →
    (rehashLoop hash rehashEmptyVisitsLimit s).ht0.size ≤
      (rehashLoop hash rehashEmptyVisitsLimit s).rehashIdx.toNat →
    (rehashLoop hash rehashEmptyVisitsLimit s).ht0.entries = []

theorem Table.WF.chain_length_le {t : Table} (hw : t.WF hash) (i : Nat) :
    (t.chain i).length ≤ t.used := by
  by_cases hi : i < t.size
  · have hl := (hw.clear_perm hi).length_eq
    rw [List.length_append] at hl
    rw [hw.used_eq]
    omega
  · have hb : t.buckets.length ≤ i := by rw [hw.length_buckets]; omega
    simp [Table.chain, List.getD_eq_getElem?_getD, List.getElem?_eq_none hb]

theorem store_reachable_representation (hash : Bytes → UInt64) (s : Store)
    (h : StoreReachable hash s) : s.Representation hash := by
  have hs := h.inv
  have hr := (rehashStep_spec hs).1
  constructor
  case size_pow2 => exact hs.wf0.pow2.resolve_left (by have := hs.pos0; omega)
  case mask_eq => exact fun id => (hs.wf id).mask_eq
  case allocated => exact fun id => (hs.wf id).length_buckets
  case idle => exact hs.idle
  case rehashing => exact hs.busy
  case placed => exact fun id i e he => (hs.wf id).placed i e he
  case unique => exact hs.nodup
  case used_eq =>
    intro id
    rw [(hs.wf id).used_eq, Table.entries, List.length_flatten]
  case unlink_used =>
    intro k r hf
    obtain ⟨hh, -⟩ := findSlotEither_some hr.toSound hf
    rw [(hr.wf r.table).used_eq]
    exact List.length_pos_of_mem (Table.Holds.mem hh)
  case migrate_used => exact hs.wf0.chain_length_le
  case drained => exact hs.migrated
  case discarded =>
    intro hidx hge
    exact ((hs.moving hidx).rehashLoop rehashEmptyVisitsLimit).1.ht0_nil hge

def fourKeys : List StoreOp :=
  [.set (str "a") (str "1") 0, .set (str "b") (str "2") 0, .set (str "c") (str "3") 5,
    .set (str "d") (str "4") 0, .get (str "a") 7]

theorem store_reachable_representation_midway :
    isRehashing (Machine.run (storeStep fnv1aHash) storeCreate fourKeys).1 = true ∧
      (Machine.run (storeStep fnv1aHash) storeCreate fourKeys).1.Representation fnv1aHash :=
  ⟨by decide, store_reachable_representation _ _ ⟨fourKeys, rfl⟩⟩

end RedisServer

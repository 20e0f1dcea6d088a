import RedisServer.Linked.Bulk

namespace RedisServer

namespace Linked

open Cells

variable {hash : Bytes → UInt64} {s : LinkedStore} {S : Store} {c : Layout}

section Foreach

variable {σ : Type} (now : Int64) (fn : σ → Entry → σ)

theorem walkChain_spec {m : Multiset (Nat × Obj)} {ps : List Placed} (hm : segment ps none ≤ m)
    {n : Nat} (hn : ps.length ≤ n) (ud : σ) :
    Triple m (walkChain now fn n (head ps none) ud) (fun r m' => m' = m ∧
      r = ((ps.map Placed.entry).filter (liveEntry now)).foldl fn ud) := by
  induction ps generalizing n ud with
  | nil =>
    rw [head_nil, walkChain.eq_def]
    exact .pure ⟨rfl, rfl⟩
  | cons p ps ih =>
    cases n with
    | zero => exact absurd hn (by simp)
    | succ n =>
      rw [segment] at hm
      have hrest : segment ps none ≤ m := (Multiset.le_add_left _ _).trans hm
      have hcells {x : Nat × Obj} (hx : x ∈ p.cells (head ps none)) : x ∈ m :=
        Multiset.mem_of_le hm (Multiset.mem_add.mpr (.inl hx))
      have hwalk := fun ud => ih hrest (Nat.le_of_succ_le_succ hn) ud
      rw [head_cons, walkChain]
      refine loadEntry_spec (hcells (p.node_mem _)) ?_
      rw [List.map_cons, List.filter_cons]
      have hlive : ((p.node (head ps none)).expireAtMs = 0 ∨
          (p.node (head ps none)).expireAtMs > now) ↔ liveEntry now p.entry = true := by
        simp only [liveEntry, Bool.or_eq_true, decide_eq_true_eq]
        rfl
      by_cases hl : liveEntry now p.entry = true
      · rw [if_pos hl, if_pos (hlive.mpr hl)]
        refine readText_spec (hcells (p.key_mem _)) ?_
        exact readText_spec (hcells (p.val_mem _)) (hwalk _)
      · rw [if_neg hl, if_neg (mt hlive.mp hl)]
        exact hwalk ud

theorem walkBuckets_spec {t : StoreTable} {T : Table} {chains : List (List Placed)}
    (h : Laid t T chains) (F : Multiset (Nat × Obj)) {left i : Nat} (hi : i + left = T.size)
    (ud : σ) :
    Triple (tableCells t.buckets chains + F) (walkBuckets now fn t left i ud) (fun r m' =>
      m' = tableCells t.buckets chains + F ∧
        r = (((List.range' i left).flatMap T.chain).filter (liveEntry now)).foldl fn ud) := by
  induction left generalizing i ud with
  | zero => exact .pure ⟨rfl, rfl⟩
  | succ left ih =>
    rw [walkBuckets]
    refine h.bucketAt (show i < T.size by omega) (fun array harray => ?_)
    have hlt : i < chains.length := by rw [h.length]; omega
    have hb := List.getElem?_eq_getElem hlt
    generalize chains[i] = ps at hb
    have hsegment : segment ps none ≤ tableCells t.buckets chains + F := by
      rw [harray, tableCells_front array hb]
      exact (((Multiset.le_add_right _ _).trans (Multiset.le_add_left _ _)).trans
        (Multiset.le_add_right _ _))
    have harr : (array, Obj.array (heads chains)) ∈ tableCells t.buckets chains + F := by
      rw [harray]
      exact Multiset.mem_add.mpr (.inl (array_mem array chains))
    have hchain : Triple (tableCells t.buckets chains + F)
        (bounded (fun n => walkChain now fn n (head ps none) ud)) (fun r m' =>
          m' = tableCells t.buckets chains + F ∧
            r = ((T.chain i).filter (liveEntry now)).foldl fn ud) := by
      refine .bounded (fun n hn => ?_)
      rw [h.chain hb]
      have hcard := Multiset.card_le_card hsegment
      rw [card_segment] at hcard
      exact walkChain_spec now fn hsegment (by omega) ud
    refine readBucket_spec harr hb (hchain.bind ?_)
    rintro r m' ⟨rfl, rfl⟩
    rw [List.range'_succ, List.flatMap_cons, List.filter_append, List.foldl_append]
    exact ih (by omega) _

theorem storeForeach_spec (h : StoreLaid s S c) (ud : σ) :
    Triple (storeCells s c) (storeForeach now fn s ud) (fun r m' => m' = storeCells s c ∧
      r = RedisServer.storeForeach S now fn ud) := by
  have hwalk (id : TableId) (ud : σ) : Triple (storeCells s c)
      (walkBuckets now fn (s.table id) (s.table id).size 0 ud) (fun r m' => m' = storeCells s c ∧
        r = ((S.table id).walk.filter (liveEntry now)).foldl fn ud) := by
    have htable := walkBuckets_spec now fn (h.table id) (otherCells s c id)
      (Nat.zero_add _) ud
    rw [← storeCells_eq, ← List.range_eq_range'] at htable
    rw [(h.table id).size]
    exact htable
  rw [storeForeach, RedisServer.storeForeach, List.filter_append, List.foldl_append]
  refine (hwalk .ht0 ud).bind ?_
  rintro r m' ⟨rfl, rfl⟩
  exact hwalk .ht1 _

end Foreach

theorem storeStep_spec (h : StoreLaid s S c) (hS : S.Inv hash) (op : StoreOp) :
    Triple (storeCells s c) (storeStep hash s op) (fun r m' =>
      Memory r.1 (RedisServer.storeStep hash S op).1 m' ∧
        r.2 = (RedisServer.storeStep hash S op).2) := by
  have answer {α : Type} {p : Prog Obj (LinkedStore × α)} {q : Store × α} (f : α → StoreRet)
      (hp : Triple (storeCells s c) p (fun r m' => Memory r.1 q.1 m' ∧ r.2 = q.2)) :
      Triple (storeCells s c) (do let r ← p; return (r.1, f r.2)) (fun r m' =>
        Memory r.1 q.1 m' ∧ r.2 = f q.2) := by
    refine hp.bind ?_
    rintro r m' ⟨hmemory, hr⟩
    exact .pure ⟨hmemory, congrArg f hr⟩
  cases op with
  | set k v e => exact answer .count (storeSet_spec h hS k v e)
  | «exists» k now => exact answer .count (storeExists_spec h hS k now)
  | del k => exact answer .count (storeDel_spec h hS k)
  | expire k e now => exact answer .count (storeExpire_spec h hS k e now)
  | ttlMs k now now' => exact answer .ttl (storeTtlMs_spec h hS k now now')
  | incrby k d now => exact answer .incr (storeIncrby_spec h hS k d now)
  | flush => exact answer .count (storeFlush_spec h)
  | get k now =>
    rw [storeStep, RedisServer.storeStep]
    refine (storeGet_spec h hS k now).bind ?_
    rintro ⟨s', p⟩ m' ⟨hmemory, hp⟩
    generalize (RedisServer.storeGet hash S k now).2 = v at hp
    cases hp with
    | none => exact .pure ⟨hmemory, rfl⟩
    | @some p v hv =>
      obtain ⟨hcell, hlen⟩ := hv
      simp only [hlen]
      exact readText_spec hcell (.pure ⟨hmemory, rfl⟩)

theorem loadStore_spec {α : Type} {a : Nat} {m : Multiset (Nat × Obj)}
    {f : LinkedStore → Prog Obj α} {Q : α → Multiset (Nat × Obj) → Prop}
    (ha : (a, .record s) ∈ m) (hf : Triple m (f s) Q) : Triple m (loadStore a >>= f) Q := by
  rw [loadStore, bind_assoc]
  exact .load ha hf

-- the record at a and what it points to
def MemoryAt (a : Nat) (S : Store) (m : Multiset (Nat × Obj)) : Prop :=
  ∃ s c, StoreLaid s S c ∧ m = (a, .record s) ::ₘ storeCells s c

theorem storeCreate_spec :
    Triple 0 storeCreate (fun a m => MemoryAt a RedisServer.storeCreate m) := by
  rw [storeCreate]
  refine .malloc (fun a => ?_)
  rw [← Multiset.singleton_add, add_comm]
  refine (storeInit_spec.frame _).bind ?_
  rintro s m' ⟨-, rfl, c, h, rfl⟩
  rw [add_comm, Multiset.singleton_add]
  exact .store (.pure ⟨s, c, h, rfl⟩)

theorem call_spec (h : StoreLaid s S c) (hS : S.Inv hash) (a : Nat) (op : StoreOp) :
    Triple ((a, .record s) ::ₘ storeCells s c) (call hash a op) (fun ret m' =>
      MemoryAt a (RedisServer.storeStep hash S op).1 m' ∧
        ret = (RedisServer.storeStep hash S op).2) := by
  rw [call]
  refine loadStore_spec (Multiset.mem_cons_self _ _) ?_
  rw [← Multiset.singleton_add, add_comm]
  refine ((storeStep_spec h hS op).frame _).bind ?_
  rintro r m' ⟨-, rfl, ⟨c', h', rfl⟩, hret⟩
  rw [add_comm, Multiset.singleton_add]
  exact .store (.pure ⟨⟨r.1, c', h', rfl⟩, hret⟩)

theorem run_spec (hS : S.Inv hash) {a : Nat} {m : Multiset (Nat × Obj)} (hm : MemoryAt a S m)
    (ops : List StoreOp) :
    Triple m (run hash a ops) (fun rets m' =>
      MemoryAt a (Machine.run (RedisServer.storeStep hash) S ops).1 m' ∧
        rets = (Machine.run (RedisServer.storeStep hash) S ops).2) := by
  induction ops generalizing S m with
  | nil => exact .pure ⟨hm, rfl⟩
  | cons op ops ih =>
    obtain ⟨s, c, h, rfl⟩ := hm
    rw [run, Machine.run]
    refine (call_spec h hS a op).bind ?_
    rintro ret m' ⟨hm', rfl⟩
    refine (ih (RedisServer.storeStep_spec hS op).1 hm').bind ?_
    rintro rets m' ⟨hm', rfl⟩
    exact .pure ⟨hm', rfl⟩

theorem storeDestroy_spec (h : StoreLaid s S c) (a : Nat) :
    Triple ((a, .record s) ::ₘ storeCells s c) (storeDestroy (some a)) (fun _ m' => m' = 0) := by
  rw [storeDestroy]
  refine loadStore_spec (Multiset.mem_cons_self _ _) ?_
  rw [← Multiset.singleton_add, add_comm]
  refine freeBoth_spec h ?_
  rw [← bind_pure (free a)]
  exact .free (.pure rfl)

theorem card_chainCells (chains : List (List Placed)) :
    (chainCells chains).card = 3 * chains.flatten.length := by
  induction chains with
  | nil => rfl
  | cons ps chains ih =>
    have hcons : chainCells (ps :: chains) = segment ps none + chainCells chains := rfl
    rw [hcons, Multiset.card_add, ih, card_segment, List.flatten_cons, List.length_append]
    omega

theorem Laid.card {t : StoreTable} {T : Table} {chains : List (List Placed)} (h : Laid t T chains) :
    (tableCells t.buckets chains).card =
      (if T.size = 0 then 0 else 1) + 3 * T.entries.length := by
  have hentries : T.entries.length = chains.flatten.length := by
    rw [Table.entries, ← h.buckets, ← List.map_flatten, List.length_map]
  rw [tableCells, Multiset.card_add, card_chainCells, hentries]
  congr 1
  cases hb : t.buckets with
  | none => rw [if_pos (h.array.mp hb), Option.elim_none, Multiset.card_zero]
  | some array =>
    have hne : T.size ≠ 0 := fun hz => by
      rw [h.array.mpr hz] at hb
      cases hb
    rw [if_neg hne, Option.elim_some, Multiset.card_singleton]

-- an array for each table and three blocks for each entry
theorem StoreLaid.card (h : StoreLaid s S c) (hS : S.Inv hash) :
    (storeCells s c).card =
      (if RedisServer.isRehashing S then 2 else 1) + 3 * RedisServer.storeSize S := by
  have h0 : (tableCells s.ht0.buckets (c .ht0)).card =
      (if S.ht0.size = 0 then 0 else 1) + 3 * S.ht0.entries.length := (h.table .ht0).card
  have h1 : (tableCells s.ht1.buckets (c .ht1)).card =
      (if S.ht1.size = 0 then 0 else 1) + 3 * S.ht1.entries.length := (h.table .ht1).card
  have hpos := hS.pos0
  have hsize := hS.storeSize_eq
  rw [Store.entries, List.length_append] at hsize
  rw [if_neg hpos.ne'] at h0
  rw [storeCells, Multiset.card_add, h0, h1, hsize]
  by_cases hb : RedisServer.isRehashing S
  · have hdoubled := (hS.busy ((isRehashing_iff S).mp hb)).1
    rw [if_pos hb, if_neg (by omega)]
    omega
  · have hidle := hS.idle (by simpa [RedisServer.isRehashing] using hb)
    rw [if_neg hb, if_pos hidle]
    omega

theorem linked_store_is_memory_safe (hash : Bytes → UInt64) (ops : List StoreOp)
    (h₀ : Heap Obj) :
    let S := (Machine.run (RedisServer.storeStep hash) RedisServer.storeCreate ops).1
    ∃ a rets h, (do let a ← storeCreate; return (a, ← run hash a ops)) h₀ = .ok ((a, rets), h) ∧
      rets = (Machine.run (RedisServer.storeStep hash) RedisServer.storeCreate ops).2 ∧
      (∃ s c, StoreLaid s S c ∧ h.Is ((a, .record s) ::ₘ storeCells s c + h₀.cells) ∧
        (storeCells s c).card =
          (if RedisServer.isRehashing S then 2 else 1) + 3 * RedisServer.storeSize S) ∧
      (∀ (σ : Type) (now : Int64) (fn : σ → Entry → σ) (ud : σ), ∃ h',
        (do storeForeach now fn (← loadStore a) ud) h =
          .ok (RedisServer.storeForeach S now fn ud, h') ∧
        h'.cell = h.cell) ∧
      ∃ h', storeDestroy (some a) h = .ok ((), h') ∧ h'.cell = h₀.cell := by
  intro S
  have hrun : Triple 0 (do let a ← storeCreate; return (a, ← run hash a ops)) (fun r m' =>
      MemoryAt r.1 S m' ∧
        r.2 = (Machine.run (RedisServer.storeStep hash) RedisServer.storeCreate ops).2) := by
    refine storeCreate_spec.bind (fun a m hm => ?_)
    refine (run_spec storeCreate_inv hm ops).bind ?_
    rintro rets m' h
    exact .pure h
  have hS : S.Inv hash := Machine.run_invariant (P := Store.Inv hash)
    (fun S op hS => (RedisServer.storeStep_spec hS op).1) storeCreate_inv ops
  have hempty : h₀.Is (0 + h₀.cells) := by
    rw [zero_add]
    exact h₀.is_cells
  obtain ⟨⟨a, rets⟩, h, -, hok, hm, ⟨s, c, hlaid, rfl⟩, hrets⟩ := hrun h₀.cells h₀ hempty
  refine ⟨a, rets, h, hok, hrets, ⟨s, c, hlaid, hm, hlaid.card hS⟩, fun σ now fn ud => ?_, ?_⟩
  · have hwalk : Triple ((a, .record s) ::ₘ storeCells s c)
        (do storeForeach now fn (← loadStore a) ud) (fun r m' =>
          m' = (a, .record s) ::ₘ storeCells s c ∧ r = RedisServer.storeForeach S now fn ud) := by
      refine loadStore_spec (Multiset.mem_cons_self _ _) ?_
      rw [← Multiset.singleton_add, add_comm]
      refine ((storeForeach_spec now fn hlaid ud).frame _).mono ?_
      rintro r m' ⟨-, rfl, rfl, rfl⟩
      exact ⟨rfl, rfl⟩
    obtain ⟨_, h', -, hok', hm', rfl, rfl⟩ := hwalk h₀.cells h hm
    exact ⟨h', hok', hm'.unique hm⟩
  · obtain ⟨⟨⟩, h', -, hfree, hm', rfl⟩ := storeDestroy_spec hlaid a h₀.cells h hm
    exact ⟨h', hfree, hm'.unique hempty⟩

end Linked

end RedisServer

import RedisServer.Linked.Unlink

namespace RedisServer

namespace Linked

open Cells

variable {hash : Bytes → UInt64}

section Blocks

variable {α : Type} {F : Multiset (Nat × Obj)} {Q : α → Multiset (Nat × Obj) → Prop} {p : Placed}
  {next : Option Nat}

theorem readKey_spec {f : Bytes → Prog Obj α} (hf : Triple (p.cells next + F) (f p.entry.key) Q) :
    Triple (p.cells next + F) (readBytes (p.node next).key (p.node next).keyLen >>= f) Q :=
  readText_spec (Multiset.mem_add.mpr (.inl (p.key_mem next))) hf

end Blocks

theorem tableCells_cons (array : Nat) {chains : List (List Placed)} {b : Nat}
    (hb : b < chains.length) (p : Placed) (ps : List Placed) :
    tableCells (some array) (chains.set b (p :: ps)) =
      link array b (heads chains) [] (some p.addr) +
        (p.cells (head ps none) + (segment ps none + others chains b)) := by
  have hset := tableCells_set array hb [] (p :: ps)
  rw [List.nil_append, segment] at hset
  rw [hset, add_assoc (p.cells _)]
  rfl

-- e->next = dst->buckets[i]; dst->buckets[i] = e
theorem pushFront_spec {α : Type} {F : Multiset (Nat × Obj)} {Q : α → Multiset (Nat × Obj) → Prop}
    {array b : Nat} {chains : List (List Placed)} {ps : List Placed} (hb : chains[b]? = some ps)
    (p : Placed) (e : EntryNode) {f : Prog Obj α}
    (hf : Triple (tableCells (some array) (chains.set b (p :: ps)) + F) f Q) :
    Triple (p.blocks e + (tableCells (some array) chains + F)) (do
      let first ← readSlot (.bucket array b)
      store p.addr (.entry (p.node first))
      writeSlot (.bucket array b) (some p.addr)
      f) Q := by
  have hlt : b < chains.length := (List.getElem?_eq_some_iff.mp hb).1
  have hheads : b < (heads chains).length := by rwa [length_heads]
  have hbefore : p.blocks e + (tableCells (some array) chains + F) =
      link array b (heads chains) [] (head ps none) +
        (p.blocks e + (segment ps none + others chains b + F)) := by
    rw [tableCells_front array hb]
    abel
  have hafter : link array b (heads chains) [] (some p.addr) +
      (p.cells (head ps none) + (segment ps none + others chains b + F)) =
        tableCells (some array) (chains.set b (p :: ps)) + F := by
    rw [tableCells_cons array hlt]
    abel
  rw [hbefore]
  refine readSlot_link hheads [] _ ?_
  rw [add_left_comm, Placed.blocks, Multiset.cons_add]
  refine .store ?_
  rw [← Multiset.cons_add, add_left_comm]
  refine writeSlot_link hheads [] _ (some p.addr) ?_
  rw [← hafter] at hf
  exact hf

variable (hash) in
-- rest is what is still to be moved
theorem migrate_spec {rest : List Placed} (src : StoreTable) {dst : StoreTable} (S : Table)
    {D : Table} {chains : List (List Placed)} (hd : Laid dst D chains)
    (hD : ∀ x, bucketIndex D x < D.size) {n : Nat} (hn : rest.length ≤ n)
    (F : Multiset (Nat × Obj)) :
    Triple (segment rest none + (tableCells dst.buckets chains + F))
      (migrate hash n src dst (head rest none)) (fun r m' =>
        r.1 = { src with used := src.used - rest.length } ∧ ∃ chains',
          Laid r.2 (migrateChain hash S D (rest.map Placed.entry)).2 chains' ∧
          m' = tableCells r.2.buckets chains' + F) := by
  induction rest generalizing src dst S D chains n with
  | nil =>
    rw [head_nil, migrate.eq_def, segment, zero_add]
    exact .pure ⟨rfl, chains, hd, rfl⟩
  | cons p rest ih =>
    cases n with
    | zero => exact absurd hn (by simp)
    | succ n =>
      rw [head_cons, migrate, segment, add_assoc]
      refine loadNode_spec (readKey_spec ?_)
      have hindex : (hash p.entry.key).toNat &&& dst.mask = bucketIndex D (hash p.entry.key) := by
        rw [hd.mask, bucketIndex]
      rw [hindex]
      refine hd.bucketAt (hD _) (fun array harray => ?_)
      have hlt : bucketIndex D (hash p.entry.key) < chains.length := hd.length ▸ hD _
      have hb := List.getElem?_eq_getElem hlt
      have hpush := hd.push (p := p) hb
      generalize bucketIndex D (hash p.entry.key) = b at hlt hb hpush
      rw [harray, add_left_comm (segment rest none)]
      refine pushFront_spec hb p (p.node (head rest none)) ?_
      rw [add_left_comm, List.map_cons, migrateChain]
      have hnext := ih { src with used := src.used - 1 } { S with used := S.used - 1 }
        hpush hD (Nat.le_of_succ_le_succ hn)
      rw [harray] at hnext
      refine hnext.mono ?_
      rintro r m' ⟨hr, hlaid⟩
      rw [Nat.sub_sub, Nat.add_comm 1] at hr
      exact ⟨hr, hlaid⟩

section Steps

variable {s : LinkedStore} {S : Store} {c : Layout}

theorem Moving.index_lt (hS : S.Moving hash) (x : UInt64) :
    bucketIndex S.ht1 x < S.ht1.size := by
  have hpos := hS.pos0
  have hdoubled := hS.doubled
  exact StoreLaid.index_lt hS.toSound .ht1 x (by change S.ht1.size ≠ 0; omega)

theorem migrateBucket_spec (h : StoreLaid s S c) (hS : S.Moving hash) {array : Nat}
    (harray : s.ht0.buckets = some array) {ps : List Placed}
    (hb : (c .ht0)[S.rehashIdx.toNat]? = some ps) :
    Triple (storeCells s c) (do
      let r ← bounded (fun n => migrate hash n s.ht0 s.ht1 (head ps none))
      writeSlot (.bucket array S.rehashIdx.toNat) none
      return ⟨r.1, r.2, S.rehashIdx + 1⟩)
      (fun s' m' => Memory s' (migrateBucket hash S) m') := by
  have h0 : Laid s.ht0 S.ht0 (c .ht0) := h.table .ht0
  have hin : S.rehashIdx.toNat < (c .ht0).length := (List.getElem?_eq_some_iff.mp hb).1
  have hheads : S.rehashIdx.toNat < (heads (c .ht0)).length := by rwa [length_heads]
  have hcells : storeCells s c = segment ps none + (tableCells s.ht1.buckets (c .ht1) +
      (link array S.rehashIdx.toNat (heads (c .ht0)) [] (head ps none) +
        others (c .ht0) S.rehashIdx.toNat)) := by
    rw [storeCells, harray, tableCells_front array hb]
    abel
  have hmove (n : Nat) (hn : ps.length ≤ n) := migrate_spec hash s.ht0 S.ht0
    (h.table .ht1) (Moving.index_lt hS) hn
    (link array S.rehashIdx.toNat (heads (c .ht0)) [] (head ps none) +
      others (c .ht0) S.rehashIdx.toNat)
  rw [hcells]
  refine Triple.bind (.bounded (fun n hn => hmove (n + 1) ?_)) ?_
  · rw [Multiset.card_add, card_segment] at hn
    omega
  · rintro ⟨src, dst⟩ m' ⟨rfl, chains', hdst, rfl⟩
    rw [add_left_comm]
    refine writeSlot_link hheads [] _ none (.pure ?_)
    rw [← h0.chain hb] at hdst
    have hset := tableCells_set array hin [] []
    rw [List.append_nil, segment, zero_add] at hset
    refine ⟨_, (h0.clear hb).both hdst _, ?_⟩
    rw [storeCells]
    simp only [harray, Layout.both]
    rw [hset, add_comm (tableCells dst.buckets _), ← add_assoc]
    rfl

theorem rehashLoop_spec (h : StoreLaid s S c) (hS : S.Moving hash) (visits : Nat) :
    Triple (storeCells s c) (rehashLoop hash visits s)
      (fun s' m' => Memory s' (RedisServer.rehashLoop hash visits S) m') := by
  induction visits generalizing s S c with
  | zero => exact .pure ⟨c, h, rfl⟩
  | succ visits ih =>
    have h0 : Laid s.ht0 S.ht0 (c .ht0) := h.table .ht0
    rw [rehashLoop, rehashLoop_succ, h.rehashIdx, h0.size]
    by_cases hlt : S.rehashIdx.toNat < S.ht0.size
    case neg =>
      rw [if_neg hlt, if_neg hlt]
      exact .pure ⟨c, h, rfl⟩
    case pos =>
      rw [if_pos hlt, if_pos hlt]
      refine h0.bucketAt hlt (fun array harray => ?_)
      have hin : S.rehashIdx.toNat < (c .ht0).length := h0.length ▸ hlt
      have hb := List.getElem?_eq_getElem hin
      generalize (c .ht0)[S.rehashIdx.toNat] = ps at hb
      have harr : (array, Obj.array (heads (c .ht0))) ∈ storeCells s c := by
        rw [storeCells, harray]
        exact Multiset.mem_add.mpr (.inl (array_mem array _))
      refine readBucket_spec harr hb ?_
      rw [h0.chain hb]
      cases ps with
      | nil =>
        have hempty : S.ht0.chain S.rehashIdx.toNat = [] := h0.chain hb
        exact ih (s := { s with rehashIdx := S.rehashIdx + 1 })
          ⟨h.table, rfl⟩ (hS.skip hlt hempty)
      | cons p ps =>
        rw [if_neg (by simp)]
        exact migrateBucket_spec h hS harray hb

theorem Laid.chainCells_nil {t : StoreTable} {T : Table} {chains : List (List Placed)}
    (h : Laid t T chains) (hT : T.entries = []) : chainCells chains = 0 := by
  rw [Table.entries, List.flatten_eq_nil_iff, ← h.buckets] at hT
  refine List.sum_eq_zero (fun x hx => ?_)
  obtain ⟨ps, hps, rfl⟩ := List.mem_map.mp hx
  rw [List.map_eq_nil_iff.mp (hT _ (List.mem_map.mpr ⟨ps, hps, rfl⟩)), segment]

theorem Laid.cells_nil {t : StoreTable} {T : Table} {chains : List (List Placed)}
    (h : Laid t T chains) (hz : T.size = 0) : tableCells t.buckets chains = 0 := by
  rw [h.array.mpr hz, List.length_eq_zero_iff.mp (h.length.trans hz)]
  rfl

theorem laid_tableInit (size : Nat) (array : Nat) :
    Laid ⟨some array, size + 1, size, 0⟩ (RedisServer.tableInit (size + 1))
      (List.replicate (size + 1) []) where
  size := rfl
  mask := rfl
  used := rfl
  buckets := by rw [List.map_replicate]; rfl
  length := List.length_replicate
  array := by simp [RedisServer.tableInit]

theorem tableInit_spec {α : Type} {F : Multiset (Nat × Obj)}
    {Q : α → Multiset (Nat × Obj) → Prop} (size : Nat) {f : StoreTable → Prog Obj α}
    (hf : ∀ t chains, Laid t (RedisServer.tableInit size) chains →
      Triple (tableCells t.buckets chains + F) (f t) Q) :
    Triple F (tableInit size >>= f) Q := by
  cases size with
  | zero =>
    have hnone : tableCells none [] = 0 := rfl
    have hlaid := hf ⟨none, 0, 0, 0⟩ [] ⟨rfl, rfl, rfl, rfl, rfl, by simp [RedisServer.tableInit]⟩
    rw [hnone, zero_add] at hlaid
    exact hlaid
  | succ size =>
    rw [tableInit, if_neg (Nat.succ_ne_zero _), bind_assoc]
    refine .malloc (fun array => ?_)
    have hlaid := hf _ _ (laid_tableInit size array)
    have hcells : tableCells (some array) (List.replicate (size + 1) []) + F =
        (array, .array (List.replicate (size + 1) none)) ::ₘ F := by
      have hzero : chainCells (List.replicate (size + 1) ([] : List Placed)) = 0 :=
        (laid_tableInit size array).chainCells_nil (entries_tableInit _)
      rw [tableCells, hzero, add_zero, Option.elim_some, heads, List.map_replicate,
        Multiset.singleton_add]
      rfl
    rw [hcells] at hlaid
    exact hlaid

theorem finishRehash_spec (h : StoreLaid s S c) (hS : S.Moving hash) :
    Triple (storeCells s c) (finishRehash s)
      (fun s' m' => Memory s' (RedisServer.finishRehash S) m') := by
  have h0 : Laid s.ht0 S.ht0 (c .ht0) := h.table .ht0
  rw [finishRehash, RedisServer.finishRehash, h0.size, h.rehashIdx]
  split_ifs with hge
  · have hpos := hS.pos0
    obtain ⟨array, harray⟩ := h0.exists_array hpos
    rw [storeCells, tableCells, h0.chainCells_nil (hS.ht0_nil hge), harray, add_zero,
      Option.elim_some, Multiset.singleton_add, freePtr]
    refine .free (tableInit_spec 0 (fun t chains ht => .pure ?_))
    exact ⟨_, (h.table .ht1).both ht (-1), add_comm _ _⟩
  · exact .pure ⟨c, h, rfl⟩

theorem rehashStep_spec (h : StoreLaid s S c) (hS : S.Inv hash) :
    Triple (storeCells s c) (rehashStep hash s)
      (fun s' m' => Memory s' (RedisServer.rehashStep hash S) m') := by
  rw [rehashStep, RedisServer.rehashStep, h.isRehashing]
  split_ifs with hidle
  · exact .pure ⟨c, h, rfl⟩
  · have hmoving := hS.moving ((isRehashing_iff S).mp (by simpa using hidle))
    refine (rehashLoop_spec h hmoving _).bind ?_
    rintro s' m' ⟨c', hlaid, rfl⟩
    exact finishRehash_spec hlaid (hmoving.rehashLoop _).1

theorem maybeStartRehash_spec (h : StoreLaid s S c)
    (hS : S.rehashIdx = -1 → S.ht1.size = 0) :
    Triple (storeCells s c) (maybeStartRehash s)
      (fun s' m' => Memory s' (RedisServer.maybeStartRehash S) m') := by
  have h0 : Laid s.ht0 S.ht0 (c .ht0) := h.table .ht0
  have h1 : Laid s.ht1 S.ht1 (c .ht1) := h.table .ht1
  rw [maybeStartRehash, RedisServer.maybeStartRehash, h.isRehashing, h0.size, h0.used]
  split_ifs with hbusy hroom
  · exact .pure ⟨c, h, rfl⟩
  · exact .pure ⟨c, h, rfl⟩
  · have hidle : S.rehashIdx = -1 := by simpa [RedisServer.isRehashing] using hbusy
    rw [storeCells, h1.cells_nil (hS hidle), add_zero]
    refine tableInit_spec _ (fun t chains ht => .pure ?_)
    exact ⟨_, h0.both ht 0, add_comm _ _⟩

end Steps

end Linked

end RedisServer

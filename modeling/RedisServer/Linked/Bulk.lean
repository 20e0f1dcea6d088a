import RedisServer.Linked.Calls

namespace RedisServer

namespace Linked

open Cells

variable {hash : Bytes → UInt64} {s : LinkedStore} {S : Store} {c : Layout}

theorem chainCells_drop {chains : List (List Placed)} {i : Nat} {ps : List Placed}
    (hi : chains[i]? = some ps) :
    chainCells (chains.drop i) = segment ps none + chainCells (chains.drop (i + 1)) := by
  obtain ⟨hlt, rfl⟩ := List.getElem?_eq_some_iff.mp hi
  rw [List.drop_eq_getElem_cons hlt]
  rfl

section Tables

variable {α : Type} {F : Multiset (Nat × Obj)} {Q : α → Multiset (Nat × Obj) → Prop}

theorem freeChain_spec {ps : List Placed} {n : Nat} (hn : ps.length ≤ n) :
    Triple (segment ps none + F) (freeChain n (head ps none)) (fun _ m' => m' = F) := by
  induction ps generalizing n with
  | nil =>
    rw [head_nil, freeChain.eq_def, segment, zero_add]
    exact .pure rfl
  | cons p ps ih =>
    cases n with
    | zero => exact absurd hn (by simp)
    | succ n =>
      rw [head_cons, freeChain, segment, add_assoc]
      exact loadNode_spec (freeEntry_spec (ih (Nat.le_of_succ_le_succ hn)))

-- the array still holds the addresses of the chains that are gone
theorem freeBuckets_spec {t : StoreTable} {array : Nat} (ht : t.buckets = some array)
    {chains : List (List Placed)} {left i : Nat} (hi : i + left = chains.length) :
    Triple ((array, .array (heads chains)) ::ₘ (chainCells (chains.drop i) + F))
      (freeBuckets t left i) (fun _ m' => m' = (array, .array (heads chains)) ::ₘ F) := by
  induction left generalizing i with
  | zero =>
    have hnil : chainCells (chains.drop i) = 0 := by
      rw [List.drop_eq_nil_of_le (by omega)]
      rfl
    rw [hnil, zero_add]
    exact .pure rfl
  | succ left ih =>
    have hlt : i < chains.length := by omega
    have hps := List.getElem?_eq_getElem hlt
    generalize chains[i] = ps at hps
    rw [freeBuckets, StoreTable.bucketAt, ht, pure_bind]
    refine readBucket_spec (Multiset.mem_cons_self _ _) hps ?_
    rw [chainCells_drop hps, add_assoc, ← Multiset.add_cons]
    refine .bind (.bounded (fun n hn => freeChain_spec ?_)) ?_
    · rw [Multiset.card_add, card_segment] at hn
      omega
    · rintro - m' rfl
      exact ih (by omega)

theorem tableFreeEntries_spec {t : StoreTable} {T : Table} {chains : List (List Placed)}
    (h : Laid t T chains) {f : Unit → Prog Obj α} (hf : Triple F (f ()) Q) :
    Triple (tableCells t.buckets chains + F) (tableFreeEntries t >>= f) Q := by
  rw [tableFreeEntries]
  cases ht : t.buckets with
  | none =>
    have hcells := h.cells_nil (h.array.mp ht)
    rw [ht] at hcells
    rw [hcells, zero_add]
    exact hf
  | some array =>
    have hcells : tableCells (some array) chains + F =
        (array, .array (heads chains)) ::ₘ (chainCells (chains.drop 0) + F) := by
      rw [tableCells, Option.elim_some, Multiset.singleton_add, Multiset.cons_add]
      rfl
    simp only [bind_assoc]
    rw [hcells, h.size, ← h.length]
    refine (freeBuckets_spec ht (Nat.zero_add _)).bind ?_
    rintro - m' rfl
    exact .free hf

end Tables

theorem storeInit_spec : Triple 0 storeInit (fun s m =>
    Memory s RedisServer.storeCreate m) := by
  rw [storeInit]
  refine tableInit_spec storeInitialSize (fun t0 chains0 h0 => ?_)
  refine tableInit_spec 0 (fun t1 chains1 h1 => .pure ⟨_, h0.both h1 (-1), ?_⟩)
  rw [add_zero]
  exact add_comm _ _

theorem freeBoth_spec {α : Type} {F : Multiset (Nat × Obj)}
    {Q : α → Multiset (Nat × Obj) → Prop} (h : StoreLaid s S c) {f : Prog Obj α}
    (hf : Triple F f Q) :
    Triple (storeCells s c + F) (do
      tableFreeEntries s.ht0
      tableFreeEntries s.ht1
      f) Q := by
  rw [storeCells, add_assoc]
  exact tableFreeEntries_spec (h.table .ht0) (tableFreeEntries_spec (h.table .ht1) hf)

theorem storeFlush_spec (h : StoreLaid s S c) :
    Triple (storeCells s c) (storeFlush s) (fun r m' =>
      Memory r.1 (RedisServer.storeFlush S).1 m' ∧ r.2 = (RedisServer.storeFlush S).2) := by
  have hsize : storeSize s = RedisServer.storeSize S := by
    rw [storeSize, RedisServer.storeSize]
    exact congrArg₂ _ (h.table .ht0).used (h.table .ht1).used
  rw [storeFlush, ← add_zero (storeCells s c)]
  refine freeBoth_spec h (storeInit_spec.bind ?_)
  rintro s' m' hmemory
  exact .pure ⟨hmemory, hsize⟩

end Linked

end RedisServer

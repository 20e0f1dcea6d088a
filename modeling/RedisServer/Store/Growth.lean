import RedisServer.Store.Rounds
import RedisServer.Store.Runs

namespace RedisServer

variable {hash : Bytes → UInt64}

structure Store.Growing (s : Store) : Prop where
  idle : s.rehashIdx = -1 → s.ht0.used < s.ht0.size
  busy : s.rehashIdx ≠ -1 → (storeSize s : Int) ≤ s.ht0.size + s.rehashIdx

-- a rehash step has just run, so one more entry fits under the bound
structure Store.Roomy (s : Store) : Prop where
  idle : s.rehashIdx = -1 → s.ht0.used < s.ht0.size
  busy : s.rehashIdx ≠ -1 → (storeSize s : Int) < s.ht0.size + s.rehashIdx

theorem Store.Inv.storeSize_idle {s : Store} (hs : s.Inv hash) (h : s.rehashIdx = -1) :
    storeSize s = s.ht0.used := by
  rw [storeSize, hs.wf1.used_eq, hs.wf1.entries_nil_of_size (hs.idle h), List.length_nil,
    Nat.add_zero]

theorem storeSize_rehashStep {s : Store} (hs : s.Inv hash) :
    storeSize (rehashStep hash s) = storeSize s := by
  obtain ⟨hi, hp⟩ := rehashStep_spec hs
  rw [hi.storeSize_eq, hs.storeSize_eq, hp.length_eq]

-- either the cursor moves on in the same table, or the doubled table takes over
theorem rehashStep_advances {s : Store} (hs : s.Inv hash) (h : s.rehashIdx ≠ -1) :
    ((rehashStep hash s).ht0.size = s.ht0.size ∧
      s.rehashIdx < (rehashStep hash s).rehashIdx) ∨
    ((rehashStep hash s).rehashIdx = -1 ∧ (rehashStep hash s).ht0.size = 2 * s.ht0.size) := by
  have hb := hs.busy h
  have hlog := (hs.moving h).logged rehashEmptyVisitsLimit
  have hmoving := ((hs.moving h).rehashLoop rehashEmptyVisitsLimit).1
  have hsome : 0 < (loopVisits s.ht0 rehashEmptyVisitsLimit s.rehashIdx.toNat).length := by
    rw [rehashEmptyVisitsLimit, loopVisits_succ, if_pos (by omega)]
    split_ifs <;> simp
  have hcur := hlog.cursor
  have hsize := hlog.size0
  have hdouble := hmoving.doubled
  rw [rehashStep, if_neg (by simpa [isRehashing] using h)]
  unfold finishRehash
  split_ifs
  · refine .inr ⟨rfl, ?_⟩
    rw [hdouble, hsize]
  · exact .inl ⟨hsize, by omega⟩

theorem Store.Growing.roomy {s : Store} (hs : s.Inv hash) (hg : s.Growing) :
    (rehashStep hash s).Roomy := by
  by_cases h : s.rehashIdx = -1
  · rw [rehashStep_idle h]
    exact ⟨hg.idle, fun hb => absurd h hb⟩
  · have hbound := hg.busy h
    have hcur := hs.busy h
    have hsize := storeSize_rehashStep hs
    have hi := (rehashStep_spec hs).1
    rcases rehashStep_advances hs h with ⟨hsame, hlt⟩ | ⟨hidle, hdouble⟩
    · refine ⟨fun hm => by omega, fun _ => ?_⟩
      rw [hsize, hsame]
      omega
    · refine ⟨fun hm => ?_, fun hb => absurd hidle hb⟩
      have hused := hi.storeSize_idle hm
      omega

theorem unlink_shape (s : Store) (r : Found) :
    (s.unlink r).ht0.size = s.ht0.size ∧ (s.unlink r).rehashIdx = s.rehashIdx := by
  unfold Store.unlink
  cases r.table <;> exact ⟨rfl, rfl⟩

theorem rewrite_shape (s : Store) (r : Found) (f : Entry → Entry) :
    (s.rewrite r f).ht0.size = s.ht0.size ∧ (s.rewrite r f).rehashIdx = s.rehashIdx := by
  unfold Store.rewrite
  cases r.table <;> exact ⟨rfl, rfl⟩

theorem insertEntry_busy {s : Store} (h : s.rehashIdx ≠ -1) (e : Entry) :
    insertEntry hash s e = { s with ht1 := s.ht1.push (hash e.key) e } := by
  rw [insertEntry, if_pos ((isRehashing_iff s).mpr h)]

theorem insertEntry_idle {s : Store} (h : s.rehashIdx = -1) (e : Entry) :
    (insertEntry hash s e).ht0.size = s.ht0.size ∧
      (insertEntry hash s e).ht0.used = s.ht0.used + 1 ∧
      ((insertEntry hash s e).rehashIdx = -1 ∧ s.ht0.used + 1 < s.ht0.size ∨
        (insertEntry hash s e).rehashIdx = 0 ∧ s.ht0.size ≤ s.ht0.used + 1) := by
  rw [insertEntry, if_neg (by simp [isRehashing, h]), maybeStartRehash,
    if_neg (by simp [isRehashing, h])]
  split_ifs with hu
  · exact ⟨rfl, rfl, .inl ⟨h, hu⟩⟩
  · exact ⟨rfl, rfl, .inr ⟨rfl, not_lt.mp hu⟩⟩

theorem Store.Growing.of_shrunk {s t : Store} (hs : s.Inv hash) (ht : t.Inv hash) (hr : s.Roomy)
    (hsize : t.ht0.size = s.ht0.size) (hidx : t.rehashIdx = s.rehashIdx)
    (hle : storeSize t ≤ storeSize s) : t.Growing := by
  refine ⟨fun hi => ?_, fun hb => ?_⟩
  · have hused := ht.storeSize_idle hi
    have hused' := hs.storeSize_idle (hidx ▸ hi)
    have hlt := hr.idle (hidx ▸ hi)
    omega
  · have hlt := hr.busy (hidx ▸ hb)
    omega

theorem Effect.growing {s t : Store} (hs : s.Inv hash) (hr : s.Roomy) (h : Effect hash s t) :
    t.Growing := by
  have ht := h.inv hs
  cases h with
  | none => exact .of_shrunk hs hs hr rfl rfl le_rfl
  | unlink h =>
    have hl := (Store.unlink_perm h).length_eq
    rw [List.length_cons] at hl
    refine .of_shrunk hs ht hr (unlink_shape s _).1 (unlink_shape s _).2 ?_
    rw [ht.storeSize_eq, hs.storeSize_eq]
    omega
  | rewrite h hf =>
    obtain ⟨l, h1, h2⟩ := Store.rewrite_perm h _
    refine .of_shrunk hs ht hr (rewrite_shape s _ _).1 (rewrite_shape s _ _).2 ?_
    rw [ht.storeSize_eq, hs.storeSize_eq, h2.length_eq, h1.length_eq]
    exact le_rfl
  | @insert e h =>
    have hl := (insertEntry_spec hs h).2.length_eq
    rw [← ht.storeSize_eq, List.length_cons, ← hs.storeSize_eq] at hl
    by_cases hi : s.rehashIdx = -1
    · obtain ⟨hsize, hused, hstart⟩ := @insertEntry_idle hash _ hi e
      have hlt := hr.idle hi
      have htotal := hs.storeSize_idle hi
      refine ⟨fun hm => ?_, fun hb => ?_⟩ <;> rcases hstart with ⟨hidx, hle⟩ | ⟨hidx, hle⟩
      · omega
      · omega
      · exact absurd hidx hb
      · omega
    · have hlt := hr.busy hi
      rw [insertEntry_busy hi] at hl ⊢
      refine ⟨fun hm => absurd hm hi, fun _ => ?_⟩
      simp only
      omega

theorem Round.growing {s t : Store} (hs : s.Inv hash) (hg : s.Growing) (h : Round hash s t) :
    t.Growing :=
  Effect.growing (rehashStep_spec hs).1 (hg.roomy hs) h

theorem storeCreate_growing : storeCreate.Growing := ⟨fun _ => by decide, fun h => absurd rfl h⟩

theorem storeStep_growing {s : Store} (hs : s.Inv hash) (hg : s.Growing) (op : StoreOp) :
    (storeStep hash s op).1.Growing := by
  by_cases hop : op = .flush
  · rw [hop]
    exact storeCreate_growing
  · cases storeStep_rounds hs hop with
    | once h _ _ => exact h.growing hs hg
    | twice h _ h' _ _ => exact h'.growing (h.inv hs) (h.growing hs hg)

theorem StoreReachable.growing {s : Store} (h : StoreReachable hash s) : s.Growing := by
  have hboth : s.Inv hash ∧ s.Growing :=
    Machine.Reachable.invariant (P := fun s => s.Inv hash ∧ s.Growing) h
      ⟨storeCreate_inv, storeCreate_growing⟩
      (fun _ op hs => ⟨(storeStep_spec hs.1 op).1, storeStep_growing hs.1 hs.2 op⟩)
  exact hboth.2

-- the rehash of a table of n buckets is over, or its cursor has reached bucket i
def Ahead (n : Nat) (i : Int) (s : Store) : Prop :=
  n < s.ht0.size ∨ s.ht0.size = n ∧ i ≤ s.rehashIdx

theorem Effect.ahead {s t : Store} {n : Nat} {i : Int} (hi0 : 0 ≤ i) (h : Effect hash s t)
    (ha : Ahead n i s) : Ahead n i t := by
  unfold Ahead at ha ⊢
  cases h with
  | none => exact ha
  | @unlink r h => rwa [(unlink_shape s r).1, (unlink_shape s r).2]
  | @rewrite r f h hf => rwa [(rewrite_shape s r f).1, (rewrite_shape s r f).2]
  | @insert e h =>
    by_cases hi : s.rehashIdx = -1
    · have hsize := (@insertEntry_idle hash _ hi e).1
      omega
    · rwa [insertEntry_busy hi]

theorem Round.ahead {s t : Store} {n : Nat} {i : Int} (hi0 : 0 ≤ i) (hs : s.Inv hash)
    (h : Round hash s t) (ha : Ahead n i s) : Ahead n (i + 1) t := by
  apply Effect.ahead (by omega) h
  unfold Ahead at ha ⊢
  by_cases hi : s.rehashIdx = -1
  · rw [rehashStep_idle hi]
    omega
  · have hadv := rehashStep_advances hs hi
    have hpos := hs.pos0
    omega

theorem storeStep_ahead {s : Store} (hs : s.Inv hash) {op : StoreOp} (hop : op ≠ .flush) {n : Nat}
    {i : Int} (hi0 : 0 ≤ i) (ha : Ahead n i s) : Ahead n (i + 1) (storeStep hash s op).1 := by
  cases storeStep_rounds hs hop with
  | once h _ _ => exact h.ahead hi0 hs ha
  | twice h _ h' _ _ =>
    have hboth := h'.ahead (by omega) (h.inv hs) (h.ahead hi0 hs ha)
    unfold Ahead at hboth ⊢
    omega

def RehashOver (n : Nat) (s : Store) : Prop := s.rehashIdx = -1 ∨ n < s.ht0.size

theorem rehash_over_within {s : Store} (hs : s.Inv hash) (hb : s.rehashIdx ≠ -1)
    {ops : List StoreOp} (hlen : s.ht0.size - s.rehashIdx ≤ (ops.length : Int)) :
    ∃ pre post, ops = pre ++ post ∧ (pre.length : Int) ≤ s.ht0.size - s.rehashIdx ∧
      RehashOver s.ht0.size (Machine.run (storeStep hash) s pre).1 := by
  induction ops generalizing s with
  | nil =>
    have hcur := hs.busy hb
    simp only [List.length_nil] at hlen
    omega
  | cons op ops ih =>
    have hcur := hs.busy hb
    have hone : (([op] : List StoreOp).length : Int) ≤ s.ht0.size - s.rehashIdx := by
      simp only [List.length_singleton]
      omega
    by_cases hop : op = .flush
    · exact ⟨[op], ops, rfl, hone, .inl (by rw [hop]; rfl)⟩
    · have ha := storeStep_ahead hs hop hcur.2.1 (.inr ⟨rfl, le_rfl⟩)
      rcases ha with hover | ⟨hsame, hstep⟩
      · exact ⟨[op], ops, rfl, hone, .inr hover⟩
      · simp only [List.length_cons] at hlen
        obtain ⟨pre, post, rfl, hpre, hover⟩ :=
          ih (storeStep_spec hs op).1 (by omega) (by omega)
        refine ⟨op :: pre, post, rfl, ?_, ?_⟩
        · simp only [List.length_cons]
          omega
        · rw [hsame] at hover
          exact hover

theorem store_growth_keeps_up {s : Store} (hs : StoreReachable hash s) :
    (s.rehashIdx = -1 → s.ht0.used < s.ht0.size) ∧
    (s.rehashIdx ≠ -1 →
      (s.ht0.used + s.ht1.used : Int) ≤ s.ht0.size + s.rehashIdx ∧
      s.ht0.used + s.ht1.used < s.ht1.size ∧ s.ht1.used < s.ht1.size ∧
      ∀ ops : List StoreOp, s.ht0.size - s.rehashIdx ≤ (ops.length : Int) →
        ∃ pre post, ops = pre ++ post ∧ (pre.length : Int) ≤ s.ht0.size - s.rehashIdx ∧
          RehashOver s.ht0.size (Machine.run (storeStep hash) s pre).1) := by
  refine ⟨hs.growing.idle, fun hb => ?_⟩
  have hbound := hs.growing.busy hb
  have hcur := hs.inv.busy hb
  rw [storeSize] at hbound
  refine ⟨by omega, by omega, by omega, fun ops => rehash_over_within hs.inv hb⟩

theorem store_growth_keeps_up_midway :
    isRehashing (Machine.run (storeStep fnv1aHash) storeCreate fourKeys).1 = true ∧
      storeSize (Machine.run (storeStep fnv1aHash) storeCreate fourKeys).1 <
        (Machine.run (storeStep fnv1aHash) storeCreate fourKeys).1.ht1.size := by
  have hb : (Machine.run (storeStep fnv1aHash) storeCreate fourKeys).1.rehashIdx ≠ -1 := by decide
  have hs : StoreReachable fnv1aHash (Machine.run (storeStep fnv1aHash) storeCreate fourKeys).1 :=
    ⟨fourKeys, rfl⟩
  exact ⟨by decide, ((store_growth_keeps_up hs).2 hb).2.1⟩

end RedisServer

import RedisServer.Store.TableInvariant

namespace RedisServer

variable {hash : Bytes → UInt64}

structure Store.Sound (hash : Bytes → UInt64) (s : Store) : Prop where
  wf0 : s.ht0.WF hash
  wf1 : s.ht1.WF hash
  pos0 : 0 < s.ht0.size
  nodup : (s.entries.map Entry.key).Nodup
  migrated : ∀ i : Nat, (i : Int) < s.rehashIdx → s.ht0.chain i = []

structure Store.Inv (hash : Bytes → UInt64) (s : Store) : Prop extends s.Sound hash where
  idle : s.rehashIdx = -1 → s.ht1.size = 0
  busy : s.rehashIdx ≠ -1 →
    s.ht1.size = 2 * s.ht0.size ∧ 0 ≤ s.rehashIdx ∧ s.rehashIdx < s.ht0.size

def Store.Holds (s : Store) (r : Found) : Prop := (s.table r.table).Holds r.slot r.entry

def Store.rest (s : Store) : TableId → List Entry
  | .ht0 => s.ht1.entries
  | .ht1 => s.ht0.entries

theorem isRehashing_iff (s : Store) : isRehashing s = true ↔ s.rehashIdx ≠ -1 := by
  simp [isRehashing]

theorem Store.entries_perm (s : Store) (id : TableId) :
    s.entries.Perm ((s.table id).entries ++ s.rest id) := by
  cases id with
  | ht0 => exact List.Perm.refl _
  | ht1 => exact List.perm_append_comm

@[simp] theorem Store.setTable_rest (s : Store) (t : Table) (id : TableId) :
    (s.setTable t id).rest id = s.rest id := by cases id <;> rfl

@[simp] theorem Store.setTable_table (s : Store) (t : Table) (id : TableId) :
    (s.setTable t id).table id = t := by cases id <;> rfl

theorem Store.Sound.wf {s : Store} (h : s.Sound hash) (id : TableId) : (s.table id).WF hash := by
  cases id with
  | ht0 => exact h.wf0
  | ht1 => exact h.wf1

theorem Store.Holds.mem {s : Store} {r : Found} (h : s.Holds r) : r.entry ∈ s.entries :=
  (s.entries_perm r.table).mem_iff.mpr (List.mem_append_left _ (Table.Holds.mem h))

theorem findSlotEither_some {s : Store} (hs : s.Sound hash) {key : Bytes} {r : Found}
    (h : findSlotEither s key (hash key) = some r) : s.Holds r ∧ r.entry.key = key := by
  unfold findSlotEither at h
  split at h
  · next p hp =>
    cases h
    exact findInTable_some hs.wf0 hp
  · split_ifs at h
    obtain ⟨p, hp, rfl⟩ := Option.map_eq_some_iff.mp h
    exact findInTable_some hs.wf1 hp

theorem findSlotEither_none {s : Store} (hs : s.Inv hash) {key : Bytes}
    (h : findSlotEither s key (hash key) = none) : ∀ e ∈ s.entries, e.key ≠ key := by
  unfold findSlotEither at h
  split at h
  · simp at h
  · next h0 =>
    intro e he
    rcases List.mem_append.mp he with he | he
    · exact findInTable_none hs.wf0 h0 e he
    · by_cases hr : isRehashing s = true
      · rw [if_pos hr, Option.map_eq_none_iff] at h
        exact findInTable_none hs.wf1 h e he
      · have hz : s.ht1.size = 0 := hs.idle (by simpa [isRehashing] using hr)
        simp [hs.wf1.entries_nil_of_size hz] at he

theorem Store.unlink_perm {s : Store} {r : Found} (h : s.Holds r) :
    s.entries.Perm (r.entry :: (s.unlink r).entries) := by
  have h1 := (Table.unlink_perm h).append_right (s.rest r.table)
  have h2 := (s.unlink r).entries_perm r.table
  rw [Store.unlink, Store.setTable_table, Store.setTable_rest] at h2
  exact (s.entries_perm r.table).trans (h1.trans (h2.symm.cons r.entry))

theorem Store.rewrite_perm {s : Store} {r : Found} (h : s.Holds r) (f : Entry → Entry) :
    ∃ l, s.entries.Perm (r.entry :: l) ∧ (s.rewrite r f).entries.Perm (f r.entry :: l) := by
  obtain ⟨l, h1, h2⟩ := Table.rewrite_perm h f
  have h3 := (s.rewrite r f).entries_perm r.table
  rw [Store.rewrite, Store.setTable_table, Store.setTable_rest] at h3
  exact ⟨l ++ s.rest r.table, (s.entries_perm r.table).trans (h1.append_right _),
    h3.trans (h2.append_right _)⟩

theorem Store.Inv.setTable {s : Store} (hs : s.Inv hash) {t : Table} {id : TableId}
    (hw : t.WF hash) (hsize : t.size = (s.table id).size)
    (hempty : ∀ i, (s.table id).chain i = [] → t.chain i = [])
    (hnd : ((s.setTable t id).entries.map Entry.key).Nodup) : (s.setTable t id).Inv hash := by
  cases id with
  | ht0 =>
    refine ⟨⟨hw, hs.wf1, hsize ▸ hs.pos0, hnd, fun i hi => hempty i (hs.migrated i hi)⟩,
      hs.idle, fun hr => ?_⟩
    have hb := hs.busy hr
    simp only [Store.setTable, Store.table] at hsize hb ⊢
    rw [hsize]
    exact hb
  | ht1 =>
    refine ⟨⟨hs.wf0, hw, hs.pos0, hnd, hs.migrated⟩, fun hr => hsize.trans (hs.idle hr),
      fun hr => ?_⟩
    have hb := hs.busy hr
    simp only [Store.setTable, Store.table] at hsize hb ⊢
    rw [hsize]
    exact hb

theorem Store.Inv.unlink {s : Store} (hs : s.Inv hash) {r : Found} (h : s.Holds r) :
    (s.unlink r).Inv hash := by
  refine hs.setTable ((hs.wf r.table).unlink h) rfl ?_ ?_
  · intro i hi
    rw [Table.unlink_chain]
    split_ifs with hb
    · rw [hb, hi]
      rfl
    · exact hi
  · have hn := ((Store.unlink_perm h).map Entry.key).nodup_iff.mp hs.nodup
    exact (List.nodup_cons.mp hn).2

theorem Store.Inv.rewrite {s : Store} (hs : s.Inv hash) {r : Found} (h : s.Holds r)
    {f : Entry → Entry} (hf : ∀ x, (f x).key = x.key) : (s.rewrite r f).Inv hash := by
  refine hs.setTable ((hs.wf r.table).rewrite h hf) rfl ?_ ?_
  · intro i hi
    rw [Table.rewrite_chain]
    split_ifs with hb
    · rw [hb, hi]
      simp
    · exact hi
  · obtain ⟨l, h1, h2⟩ := Store.rewrite_perm h f
    have hn := (h1.map Entry.key).nodup_iff.mp hs.nodup
    refine (h2.map Entry.key).nodup_iff.mpr ?_
    rw [List.map_cons, hf]
    exact hn

theorem storeCreate_inv : storeCreate.Inv hash where
  wf0 := tableInit_wf _ (Or.inr ⟨2, rfl⟩)
  wf1 := tableInit_wf _ (Or.inl rfl)
  pos0 := by decide
  nodup := by simp [Store.entries, storeCreate]
  migrated := fun i hi => by simp [storeCreate]
  idle := fun _ => rfl
  busy := fun h => absurd rfl h

@[simp] theorem entries_storeCreate : storeCreate.entries = [] := by
  simp [Store.entries, storeCreate]

-- the state inside the loop of rehash_step, where the cursor may stand one past the last bucket
structure Store.Moving (hash : Bytes → UInt64) (s : Store) : Prop extends s.Sound hash where
  doubled : s.ht1.size = 2 * s.ht0.size
  cursor_nonneg : 0 ≤ s.rehashIdx
  cursor_le : s.rehashIdx ≤ s.ht0.size

theorem Store.Inv.moving {s : Store} (hs : s.Inv hash) (h : s.rehashIdx ≠ -1) :
    s.Moving hash :=
  ⟨hs.toSound, (hs.busy h).1, (hs.busy h).2.1, (hs.busy h).2.2.le⟩

def migrateBucket (hash : Bytes → UInt64) (s : Store) : Store where
  ht0 := s.ht0.clear s.rehashIdx.toNat
  ht1 := (migrateChain hash s.ht0 s.ht1 (s.ht0.chain s.rehashIdx.toNat)).2
  rehashIdx := s.rehashIdx + 1

theorem rehashLoop_succ (visits : Nat) (s : Store) :
    rehashLoop hash (visits + 1) s =
      if s.rehashIdx.toNat < s.ht0.size then
        if s.ht0.chain s.rehashIdx.toNat = [] then
          rehashLoop hash visits { s with rehashIdx := s.rehashIdx + 1 }
        else migrateBucket hash s
      else s := by
  rw [rehashLoop]
  split_ifs with hlt hc
  · rw [hc]
  · cases hch : s.ht0.chain s.rehashIdx.toNat with
    | nil => exact absurd hch hc
    | cons e es =>
      simp only [migrateBucket, Table.clear, hch, migrateChain_fst]
  · rfl

theorem Store.Moving.skip {s : Store} (hs : s.Moving hash)
    (hlt : s.rehashIdx.toNat < s.ht0.size) (hc : s.ht0.chain s.rehashIdx.toNat = []) :
    Store.Moving hash { s with rehashIdx := s.rehashIdx + 1 } := by
  have h0 := hs.cursor_nonneg
  refine ⟨⟨hs.wf0, hs.wf1, hs.pos0, hs.nodup, ?_⟩, hs.doubled, ?_, ?_⟩
  · intro i hi
    by_cases he : i = s.rehashIdx.toNat
    · exact he ▸ hc
    · exact hs.migrated i (by simp only at hi; omega)
  · simp only
    omega
  · simp only
    omega

theorem Store.Moving.migrateBucket_perm {s : Store} (hs : s.Moving hash)
    (hlt : s.rehashIdx.toNat < s.ht0.size) : (migrateBucket hash s).entries.Perm s.entries := by
  have hpos : 0 < s.ht1.size := by have := hs.doubled; have := hs.pos0; omega
  obtain ⟨-, -, hp⟩ := migrateChain_snd hs.wf1 hpos s.ht0 (s.ht0.chain s.rehashIdx.toNat)
  have h0 := hs.wf0.clear_perm hlt
  refine (hp.append_left _).trans ?_
  rw [← List.append_assoc]
  exact (List.perm_append_comm.append_right _).trans (h0.symm.append_right _)

theorem Store.Moving.migrateBucket {s : Store} (hs : s.Moving hash)
    (hlt : s.rehashIdx.toNat < s.ht0.size) : (migrateBucket hash s).Moving hash := by
  have h0 := hs.cursor_nonneg
  have hpos : 0 < s.ht1.size := by have := hs.doubled; have := hs.pos0; omega
  obtain ⟨hw, hsz, -⟩ := migrateChain_snd hs.wf1 hpos s.ht0 (s.ht0.chain s.rehashIdx.toNat)
  refine ⟨⟨hs.wf0.clear hlt, hw, hs.pos0, ?_, ?_⟩, hsz.trans hs.doubled, ?_, ?_⟩
  · exact ((hs.migrateBucket_perm hlt).map Entry.key).nodup_iff.mpr hs.nodup
  · intro i hi
    simp only [RedisServer.migrateBucket, Table.clear_chain] at hi ⊢
    split_ifs with he
    · rfl
    · exact hs.migrated i (by omega)
  · simp only [RedisServer.migrateBucket]
    omega
  · simp only [RedisServer.migrateBucket, Table.clear]
    omega

theorem Store.Moving.rehashLoop {s : Store} (hs : s.Moving hash) (visits : Nat) :
    (rehashLoop hash visits s).Moving hash ∧
      (rehashLoop hash visits s).entries.Perm s.entries := by
  induction visits generalizing s with
  | zero => exact ⟨hs, List.Perm.refl _⟩
  | succ visits ih =>
    rw [rehashLoop_succ]
    split_ifs with hlt hc
    · exact ih (hs.skip hlt hc)
    · exact ⟨hs.migrateBucket hlt, hs.migrateBucket_perm hlt⟩
    · exact ⟨hs, List.Perm.refl _⟩

theorem Store.Moving.ht0_nil {s : Store} (hs : s.Moving hash)
    (h : s.ht0.size ≤ s.rehashIdx.toNat) : s.ht0.entries = [] := by
  refine List.eq_nil_iff_forall_not_mem.mpr (fun e he => ?_)
  obtain ⟨i, hi⟩ := Table.mem_entries_iff.mp he
  have hlt : i < s.ht0.size := by
    by_contra hge
    have hb : s.ht0.buckets.length ≤ i := by rw [hs.wf0.length_buckets]; omega
    simp [Table.chain, List.getD_eq_getElem?_getD, List.getElem?_eq_none hb] at hi
  have h0 := hs.cursor_nonneg
  simp [hs.migrated i (by omega)] at hi

theorem Store.Moving.finishRehash {s : Store} (hs : s.Moving hash) :
    (finishRehash s).Inv hash ∧ (finishRehash s).entries.Perm s.entries := by
  unfold RedisServer.finishRehash
  split_ifs with hge
  · have hnil := hs.ht0_nil hge
    have he : (Store.mk s.ht1 (tableInit 0) (-1)).entries = s.entries := by
      simp [Store.entries, hnil]
    refine ⟨⟨⟨hs.wf1, tableInit_wf 0 (Or.inl rfl), ?_, he ▸ hs.nodup, ?_⟩, fun _ => rfl,
      fun h => absurd rfl h⟩, he ▸ List.Perm.refl _⟩
    · have := hs.doubled
      have := hs.pos0
      simp only
      omega
    · intro i hi
      simp only at hi
      omega
  · have h0 := hs.cursor_nonneg
    refine ⟨⟨hs.toSound, fun h => ?_, fun _ => ⟨hs.doubled, h0, ?_⟩⟩, List.Perm.refl _⟩
    · omega
    · omega

theorem rehashStep_spec {s : Store} (hs : s.Inv hash) :
    (rehashStep hash s).Inv hash ∧ (rehashStep hash s).entries.Perm s.entries := by
  unfold rehashStep
  split_ifs with hr
  · exact ⟨hs, List.Perm.refl _⟩
  · have hidx : s.rehashIdx ≠ -1 := (isRehashing_iff s).mp (by simpa using hr)
    obtain ⟨h1, h2⟩ := (hs.moving hidx).rehashLoop rehashEmptyVisitsLimit
    obtain ⟨h3, h4⟩ := h1.finishRehash
    exact ⟨h3, h4.trans h2⟩

theorem maybeStartRehash_spec {s : Store} (hs : s.Inv hash) :
    (maybeStartRehash s).Inv hash ∧ (maybeStartRehash s).entries = s.entries := by
  unfold maybeStartRehash
  split_ifs with hr hu
  · exact ⟨hs, rfl⟩
  · exact ⟨hs, rfl⟩
  · have hidx : s.rehashIdx = -1 := by simpa [isRehashing] using hr
    have hnil := hs.wf1.entries_nil_of_size (hs.idle hidx)
    obtain ⟨k, hk⟩ : ∃ k, s.ht0.size = 2 ^ k :=
      hs.wf0.pow2.resolve_left (by have := hs.pos0; omega)
    have hnew : nextPow2 (s.ht0.size * 2) = 2 * s.ht0.size := by
      rw [hk, ← pow_succ, nextPow2_two_pow, pow_succ, Nat.mul_comm]
    have he : (Store.mk s.ht0 (tableInit (nextPow2 (s.ht0.size * 2))) 0).entries = s.entries := by
      simp [Store.entries, hnil]
    have hpow : nextPow2 (s.ht0.size * 2) = 2 ^ (k + 1) := by rw [hnew, hk, pow_succ, Nat.mul_comm]
    refine ⟨⟨⟨hs.wf0, tableInit_wf _ (Or.inr ⟨k + 1, hpow⟩), hs.pos0, he ▸ hs.nodup, ?_⟩, ?_,
      fun _ => ⟨hnew, le_refl _, ?_⟩⟩, he⟩
    · intro i hi
      simp only at hi
      omega
    · intro h
      simp only at h
      omega
    · have := hs.pos0
      simp only
      omega

end RedisServer

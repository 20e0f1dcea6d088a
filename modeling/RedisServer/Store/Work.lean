import RedisServer.Lib.BoundedScan
import RedisServer.Store.LiveView
import RedisServer.Store.Growth

namespace RedisServer

open BoundedScan (seen scan seenTwice Fits TwiceFits)

variable {hash : Bytes → UInt64}

def Visit.bucket : Visit → Nat
  | .skipped i => i
  | .migrated i _ => i

def Visit.moves : Visit → Bool
  | .skipped _ => false
  | .migrated _ _ => true

def BoundedWork (vs : List Visit) : Prop :=
  (∀ v ∈ vs, ∀ w ∈ vs, v.moves = true → w.moves = true → v.bucket = w.bucket) ∧
    vs.countP (fun v => !v.moves) ≤ rehashEmptyVisitsLimit

instance (vs : List Visit) : Decidable (BoundedWork vs) := inferInstanceAs (Decidable (_ ∧ _))

def holdsOther (k : Bytes) (c : List Entry) : Bool := c.any (fun e => e.key ≠ k)

def occupied (c : List Entry) : Bool := !c.isEmpty

-- the buckets from the cursor on, as the two rehash steps of a store_incrby that creates k find
-- them: the first step has n empty buckets to skip, and behind it any entry of k is purged
def pendingFlags (k : Bytes) : Nat → List (List Entry) → List Bool
  | 0, cs => cs.map (holdsOther k)
  | _ + 1, [] => []
  | n + 1, [] :: cs => false :: pendingFlags k n cs
  | _ + 1, (_ :: _) :: cs => true :: cs.map (holdsOther k)

def WorkFits (s : Store) : StoreOp → Prop
  | .incrby k _ now =>
    s.rehashIdx = -1 ∨ (∃ e ∈ s.entries, e.key = k ∧ liveEntry now e = true) ∨
      TwiceFits rehashEmptyVisitsLimit
        (pendingFlags k rehashEmptyVisitsLimit (s.ht0.buckets.drop s.rehashIdx.toNat))
  | _ => True

theorem pendingFlags_spec (k : Bytes) (n : Nat) (cs : List (List Entry)) :
    scan n (pendingFlags k n cs) = scan n (cs.map occupied) ∧
      seen n (pendingFlags k n cs) = seen n (cs.map occupied) ∧
      (pendingFlags k n cs).drop (scan n (cs.map occupied)) =
        (cs.drop (scan n (cs.map occupied))).map (holdsOther k) := by
  fun_induction pendingFlags k n cs with
  | case1 cs => simp [scan, seen]
  | case2 n => simp [scan, seen]
  | case3 n cs ih =>
    obtain ⟨h1, h2, h3⟩ := ih
    unfold seen at h2 ⊢
    simp only [List.map_cons, occupied, List.isEmpty_nil, Bool.not_true, scan]
    refine ⟨by rw [h1], ?_, ?_⟩
    · rw [List.take_succ_cons, List.take_succ_cons, h2]
    · rw [List.drop_succ_cons, List.drop_succ_cons, h3]
  | case4 n e es cs => simp [scan, seen, occupied]

theorem Table.WF.drop_chain {t : Table} (hw : t.WF hash) {i : Nat} (h : i < t.size) :
    t.buckets.drop i = t.chain i :: t.buckets.drop (i + 1) := by
  rw [← hw.length_buckets] at h
  rw [List.drop_eq_getElem_cons h]
  simp [Table.chain, List.getD_eq_getElem?_getD, h]

theorem Table.WF.loopVisits_moves {t : Table} (hw : t.WF hash) (n i : Nat) :
    (loopVisits t n i).map Visit.moves = seen n ((t.buckets.drop i).map occupied) := by
  induction n generalizing i with
  | zero => simp [loopVisits, seen, scan]
  | succ n ih =>
    rw [loopVisits_succ]
    split_ifs with hlt hc
    · have hnext := ih (i + 1)
      rw [hw.drop_chain hlt, hc, List.map_cons, List.map_cons, hnext]
      simp [seen, scan, occupied, Visit.moves]
    · have hocc : occupied (t.chain i) = true := by simpa [occupied] using hc
      rw [hw.drop_chain hlt]
      simp [seen, scan, Visit.moves, hocc]
    · have hnil : t.buckets.drop i = [] := by
        rw [List.drop_eq_nil_iff, hw.length_buckets]
        omega
      simp [hnil, seen]

theorem loopVisits_buckets (t : Table) (n i : Nat) :
    (loopVisits t n i).map Visit.bucket = List.range' i (loopVisits t n i).length := by
  induction n generalizing i with
  | zero => rfl
  | succ n ih =>
    rw [loopVisits_succ]
    split_ifs
    · rw [List.map_cons, ih (i + 1), List.length_cons, List.range'_succ, Visit.bucket]
    · rfl
    · rfl

theorem boundedWork_iff {vs : List Visit} (hn : (vs.map Visit.bucket).Nodup) :
    BoundedWork vs ↔ Fits rehashEmptyVisitsLimit (vs.map Visit.moves) := by
  have htrue : (vs.map Visit.moves).count true = (vs.filter Visit.moves).length := by
    rw [List.count, List.countP_map, List.countP_eq_length_filter]
    congr 2
    funext v
    cases v <;> rfl
  have hfalse : (vs.map Visit.moves).count false = vs.countP (fun v => !v.moves) := by
    rw [List.count, List.countP_map]
    congr 1
    funext v
    cases v <;> rfl
  unfold BoundedWork Fits
  rw [htrue, hfalse]
  refine and_congr ⟨fun h => ?_, fun h v hv w hw hm hm' => ?_⟩ Iff.rfl
  · have hnf : ((vs.filter Visit.moves).map Visit.bucket).Nodup :=
      hn.sublist (List.filter_sublist.map _)
    have hall : ∀ v ∈ vs.filter Visit.moves, ∀ w ∈ vs.filter Visit.moves, v.bucket = w.bucket := by
      intro v hv w hw
      rw [List.mem_filter] at hv hw
      exact h v hv.1 w hw.1 hv.2 hw.2
    cases hf : vs.filter Visit.moves with
    | nil => simp
    | cons v l =>
      cases l with
      | nil => simp
      | cons w l =>
        rw [hf] at hnf hall
        have hne := hall v (by simp) w (by simp)
        simp [hne] at hnf
  · have hv' : v ∈ vs.filter Visit.moves := List.mem_filter.mpr ⟨hv, hm⟩
    have hw' : w ∈ vs.filter Visit.moves := List.mem_filter.mpr ⟨hw, hm'⟩
    obtain ⟨u, hu⟩ := List.length_eq_one_iff.mp
      (le_antisymm h (List.length_pos_of_mem hv'))
    rw [hu, List.mem_singleton] at hv' hw'
    rw [hv', hw']

theorem boundedWork_stepVisits {s : Store} (hs : s.Inv hash) : BoundedWork (stepVisits s) := by
  unfold stepVisits
  split_ifs
  · exact ⟨by simp, by simp⟩
  · rw [boundedWork_iff (by rw [loopVisits_buckets]; exact List.nodup_range'), hs.wf0.loopVisits_moves]
    exact BoundedScan.fits_seen _ _

theorem Store.Moving.rehashLoop_chain {s : Store} (hs : s.Moving hash) (visits : Nat) {j : Nat}
    (hj : (RedisServer.rehashLoop hash visits s).rehashIdx.toNat ≤ j) :
    (RedisServer.rehashLoop hash visits s).ht0.chain j = s.ht0.chain j := by
  induction visits generalizing s with
  | zero => rfl
  | succ visits ih =>
    have h0 := hs.cursor_nonneg
    rw [rehashLoop_succ] at hj ⊢
    split_ifs at hj ⊢ with hlt hc
    · exact ih (hs.skip hlt hc) hj
    · have hne : s.rehashIdx.toNat ≠ j := by
        simp only [RedisServer.migrateBucket] at hj
        omega
      exact (Table.clear_chain _ _ _).trans (if_neg hne)
    · rfl

theorem rehashStep_busy {s : Store} (h : s.rehashIdx ≠ -1)
    (h' : (rehashStep hash s).rehashIdx ≠ -1) :
    rehashStep hash s = rehashLoop hash rehashEmptyVisitsLimit s := by
  rw [rehashStep, if_neg (by simpa [isRehashing] using h)] at h' ⊢
  unfold finishRehash at h' ⊢
  split_ifs at h' ⊢
  · exact absurd rfl h'
  · rfl

theorem mem_eraseIdx_of_ne {l : List Entry} {p : Nat} {e x : Entry} (hp : l[p]? = some x)
    (he : e ∈ l) (hne : e ≠ x) : e ∈ l.eraseIdx p := by
  obtain ⟨i, hi⟩ := List.mem_iff_getElem?.mp he
  refine List.mem_eraseIdx_iff_getElem?.mpr ⟨i, ?_, hi⟩
  rintro rfl
  rw [hp] at hi
  exact hne (Option.some.inj hi).symm

theorem unlink_mem_chain {s : Store} {r : Found} (h : s.Holds r) {e : Entry} {j : Nat}
    (hk : e.key ≠ r.entry.key) : e ∈ (s.unlink r).ht0.chain j ↔ e ∈ s.ht0.chain j := by
  have hne : e ≠ r.entry := fun he => hk (by rw [he])
  obtain ⟨id, slot, x⟩ := r
  cases id with
  | ht1 => exact Iff.rfl
  | ht0 =>
    change e ∈ (s.ht0.unlink slot).chain j ↔ _
    rw [Table.unlink_chain]
    split_ifs with hb
    · subst hb
      exact ⟨List.mem_of_mem_eraseIdx, fun he => mem_eraseIdx_of_ne h.2 he hne⟩
    · exact Iff.rfl

theorem locateLive_chain {s t : Store} (hs : s.Inv hash) {k : Bytes} {now : Int64}
    (hl : locateLive hash s k now = (t, none)) (j : Nat) :
    occupied (t.ht0.chain j) = holdsOther k (s.ht0.chain j) := by
  have hloc := locateLive_spec hs k now
  rw [hl] at hloc
  have hgone : ∀ e ∈ t.ht0.chain j, e.key ≠ k := by
    intro e he
    have hnone : t.toMap.lookup k = none := by rw [hloc.toMap, hloc.lookup]; rfl
    exact (KeyedList.lookup_toMap_none_iff k).mp hnone e
      (List.mem_append_left _ (Table.mem_entries_iff.mpr ⟨j, he⟩))
  have hsame : ∀ e : Entry, e.key ≠ k → (e ∈ t.ht0.chain j ↔ e ∈ s.ht0.chain j) := by
    intro e he
    unfold locateLive at hl
    cases hf : findSlotEither s k (hash k) with
    | none =>
      rw [hf] at hl
      cases hl
      exact Iff.rfl
    | some r =>
      obtain ⟨hh, hk⟩ := findSlotEither_some hs.toSound hf
      rw [hf] at hl
      simp only at hl
      split_ifs at hl
      · cases hl
        exact unlink_mem_chain hh (hk ▸ he)
      · simp at hl
  rw [Bool.eq_iff_iff]
  simp only [occupied, holdsOther, Bool.not_eq_true', List.isEmpty_eq_false_iff_exists_mem,
    List.any_eq_true, decide_eq_true_eq]
  constructor
  · rintro ⟨e, he⟩
    exact ⟨e, (hsame e (hgone e he)).mp he, hgone e he⟩
  · rintro ⟨e, he, hk⟩
    exact ⟨e, (hsame e hk).mpr he⟩

theorem locateLive_shape (s : Store) (k : Bytes) (now : Int64) :
    (locateLive hash s k now).1.ht0.size = s.ht0.size ∧
      (locateLive hash s k now).1.rehashIdx = s.rehashIdx := by
  unfold locateLive
  cases findSlotEither s k (hash k) with
  | none => exact ⟨rfl, rfl⟩
  | some r =>
    simp only
    split_ifs
    · exact unlink_shape s r
    · exact ⟨rfl, rfl⟩

theorem Table.WF.drop_map {α : Type} {t : Table} (hw : t.WF hash) (i : Nat)
    (f : List Entry → α) :
    (t.buckets.drop i).map f = (List.range' i (t.size - i)).map (fun j => f (t.chain j)) := by
  obtain ⟨d, hd⟩ : ∃ d, t.size - i = d := ⟨_, rfl⟩
  induction d generalizing i with
  | zero =>
    have hnil : t.buckets.drop i = [] := by
      rw [List.drop_eq_nil_iff, hw.length_buckets]
      omega
    rw [hd, hnil]
    rfl
  | succ d ih =>
    rw [hw.drop_chain (by omega), hd, List.range'_succ, List.map_cons, List.map_cons,
      ih (i + 1) (by omega), show t.size - (i + 1) = d by omega]

theorem stepVisits_spec {s : Store} (hs : s.Inv hash) (hb : s.rehashIdx ≠ -1) :
    (stepVisits s).map Visit.moves =
        seen rehashEmptyVisitsLimit ((s.ht0.buckets.drop s.rehashIdx.toNat).map occupied) ∧
      (stepVisits s).map Visit.bucket = List.range' s.rehashIdx.toNat (stepVisits s).length := by
  rw [stepVisits_busy hb]
  exact ⟨hs.wf0.loopVisits_moves _ _, loopVisits_buckets _ _ _⟩

section Twice

variable {s : Store} (hs : s.Inv hash) (hb : s.rehashIdx ≠ -1)
include hs hb

theorem stepVisits_logged :
    Logged s (rehashLoop hash rehashEmptyVisitsLimit s) (stepVisits s) := by
  rw [stepVisits_busy hb]
  exact (hs.moving hb).logged rehashEmptyVisitsLimit

theorem nothing_left_of_over (hover : (rehashStep hash s).rehashIdx = -1) :
    s.ht0.buckets.drop (s.rehashIdx.toNat + (stepVisits s).length) = [] := by
  have hcur := hs.busy hb
  have hlog := stepVisits_logged hs hb
  rw [List.drop_eq_nil_iff, hs.wf0.length_buckets]
  by_contra hlt
  have hcursor := hlog.cursor
  have hsize := hlog.size0
  rw [rehashStep, if_neg (by simpa [isRehashing] using hb), finishRehash, if_neg (by omega)] at hover
  omega

theorem shape_of_running (hrun : (rehashStep hash s).rehashIdx ≠ -1) :
    (rehashStep hash s).ht0.size = s.ht0.size ∧
      (rehashStep hash s).rehashIdx.toNat = s.rehashIdx.toNat + (stepVisits s).length := by
  have hcur := hs.busy hb
  have hlog := stepVisits_logged hs hb
  rw [rehashStep_busy hb hrun, hlog.size0, hlog.cursor]
  exact ⟨rfl, by omega⟩

-- the buckets the second step of a store_incrby that creates k finds, as they were before the first
theorem occupied_after_lookup (hrun : (rehashStep hash s).rehashIdx ≠ -1) {t : Store} {k : Bytes}
    {now : Int64} (hl : locateLive hash (rehashStep hash s) k now = (t, none)) (hti : t.Inv hash)
    (hsize : t.ht0.size = s.ht0.size) (hidx : t.rehashIdx = (rehashStep hash s).rehashIdx) :
    (t.ht0.buckets.drop t.rehashIdx.toNat).map occupied =
      (s.ht0.buckets.drop t.rehashIdx.toNat).map (holdsOther k) := by
  have hloop := rehashStep_busy hb hrun
  rw [hti.wf0.drop_map, hs.wf0.drop_map, hsize]
  refine List.map_congr_left (fun j hj => ?_)
  have hle := (List.mem_range'_1.mp hj).1
  rw [locateLive_chain (rehashStep_spec hs).1 hl, hloop]
  congr 1
  apply (hs.moving hb).rehashLoop_chain
  rwa [← hloop, ← hidx]

theorem visits_twice {t : Store} {k : Bytes} {now : Int64}
    (hl : locateLive hash (rehashStep hash s) k now = (t, none)) :
    (stepVisits s ++ stepVisits t).map Visit.moves =
        seenTwice rehashEmptyVisitsLimit
          (pendingFlags k rehashEmptyVisitsLimit (s.ht0.buckets.drop s.rehashIdx.toNat)) ∧
      ((stepVisits s ++ stepVisits t).map Visit.bucket).Nodup := by
  obtain ⟨hmoves, hbuckets⟩ := stepVisits_spec hs hb
  obtain ⟨hscan, hseen, hdrop⟩ :=
    pendingFlags_spec k rehashEmptyVisitsLimit (s.ht0.buckets.drop s.rehashIdx.toNat)
  have hlen : (stepVisits s).length =
      scan rehashEmptyVisitsLimit ((s.ht0.buckets.drop s.rehashIdx.toNat).map occupied) := by
    rw [← BoundedScan.length_seen, ← hmoves, List.length_map]
  obtain ⟨hsize, hidx⟩ := @locateLive_shape hash (rehashStep hash s) k now
  have hti := (locateLive_spec (rehashStep_spec hs).1 k now).inv
  rw [hl] at hsize hidx hti
  unfold seenTwice
  rw [hscan, hseen, hdrop, ← hlen, List.drop_drop]
  by_cases hover : (rehashStep hash s).rehashIdx = -1
  · -- the first step ended the rehash, so it has seen every bucket and the second does nothing
    rw [stepVisits_idle (hidx.trans hover), nothing_left_of_over hs hb hover, List.append_nil,
      hmoves, hbuckets]
    exact ⟨by simp [seen], List.nodup_range'⟩
  · obtain ⟨hsame, hcursor⟩ := shape_of_running hs hb hover
    obtain ⟨hmoves', hbuckets'⟩ := stepVisits_spec hti (by rw [hidx]; exact hover)
    have hflags := occupied_after_lookup hs hb hover hl hti (hsize.trans hsame) hidx
    rw [← hidx] at hcursor
    rw [List.map_append, List.map_append, hmoves, hmoves', hbuckets, hbuckets', hflags, hcursor]
    refine ⟨rfl, ?_⟩
    rw [List.range'_append_1]
    exact List.nodup_range'

end Twice

theorem locateLive_isSome_iff {s : Store} (hs : s.Inv hash) (k : Bytes) (now : Int64) :
    (locateLive hash (rehashStep hash s) k now).2.isSome = true ↔
      ∃ e ∈ s.entries, e.key = k ∧ liveEntry now e = true := by
  have hloc := (locateLive_rehash_spec hs k now).lookup
  rw [KvMap.purge, ExpiringMap.lookup_purge] at hloc
  rw [← Option.isSome_map, ← hloc, ← hs.mem_visited_keys, List.mem_map]
  constructor
  · rintro ⟨e, he, hk⟩
    exact ⟨e, (Store.mem_visited.mp he).1, hk, (Store.mem_visited.mp he).2⟩
  · rintro ⟨e, he, hk, hlive⟩
    exact ⟨e, Store.mem_visited.mpr ⟨he, hlive⟩, hk⟩

theorem incrby_work_iff {s : Store} (hs : s.Inv hash) (k : Bytes) (d now : Int64) :
    BoundedWork (callVisits hash s (.incrby k d now)) ↔ WorkFits s (.incrby k d now) := by
  have hfound := locateLive_isSome_iff hs k now
  simp only [callVisits, WorkFits, incrOverflows_zero]
  rcases hl : locateLive hash (rehashStep hash s) k now with ⟨t, _ | r⟩ <;> rw [hl] at hfound
  · have hgone : ¬ ∃ e ∈ s.entries, e.key = k ∧ liveEntry now e = true := by
      rw [← hfound]
      simp
    by_cases hb : s.rehashIdx = -1
    · have hidx := (@locateLive_shape hash (rehashStep hash s) k now).2
      rw [hl, rehashStep_idle hb, hb] at hidx
      refine iff_of_true ?_ (.inl hb)
      simp only [Bool.false_eq_true, if_false]
      rw [stepVisits_idle hb, stepVisits_idle hidx]
      exact ⟨by simp, by simp⟩
    · obtain ⟨hmoves, hnodup⟩ := visits_twice hs hb hl
      simp only [Bool.false_eq_true, if_false, hb, hgone, false_or]
      rw [boundedWork_iff hnodup, hmoves]
      exact BoundedScan.fits_seenTwice_iff (by decide) _
  · refine iff_of_true ?_ (.inr (.inl (hfound.mp rfl)))
    rw [List.append_nil]
    exact boundedWork_stepVisits hs

theorem call_work_bounded_iff {s : Store} (hs : StoreReachable hash s) {op : StoreOp}
    (hop : op ≠ .flush) : (BoundedWork (callVisits hash s op) ↔ WorkFits s op) ∧
      Rounds hash s (callVisits hash s op) (storeStep hash s op).1 := by
  refine ⟨?_, storeStep_rounds hs.inv hop⟩
  cases op with
  | incrby k d now => exact incrby_work_iff hs.inv k d now
  | flush => exact absurd rfl hop
  | _ => exact iff_of_true (boundedWork_stepVisits hs.inv) trivial

theorem call_work_bounded_get :
    isRehashing (Machine.run (storeStep fnv1aHash) storeCreate fourKeys).1 = true ∧
      BoundedWork (callVisits fnv1aHash (Machine.run (storeStep fnv1aHash) storeCreate fourKeys).1
        (.get (str "a") 7)) := by
  have hs : StoreReachable fnv1aHash (Machine.run (storeStep fnv1aHash) storeCreate fourKeys).1 :=
    ⟨fourKeys, rfl⟩
  exact ⟨by decide, (call_work_bounded_iff hs (by simp)).1.mpr trivial⟩

-- INCRBY of a new key while a rehash runs: store_incrby moves bucket 1, then its store_set bucket 2
theorem incrby_moves_two_buckets :
    StoreReachable fnv1aHash (Machine.run (storeStep fnv1aHash) storeCreate fourKeys).1 ∧
      callVisits fnv1aHash (Machine.run (storeStep fnv1aHash) storeCreate fourKeys).1
          (.incrby (str "e") 1 0) =
        [.migrated 1 [⟨str "b", str "2", 0⟩], .migrated 2 [⟨str "c", str "3", 5⟩]] ∧
      ¬ BoundedWork (callVisits fnv1aHash
        (Machine.run (storeStep fnv1aHash) storeCreate fourKeys).1 (.incrby (str "e") 1 0)) := by
  have hv : callVisits fnv1aHash (Machine.run (storeStep fnv1aHash) storeCreate fourKeys).1
      (.incrby (str "e") 1 0) =
        [.migrated 1 [⟨str "b", str "2", 0⟩], .migrated 2 [⟨str "c", str "3", 5⟩]] := by
    decide +kernel
  exact ⟨⟨fourKeys, rfl⟩, hv, by rw [hv]; decide⟩

end RedisServer

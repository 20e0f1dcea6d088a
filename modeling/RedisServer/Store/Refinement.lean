import RedisServer.Lib.KeyedList
import RedisServer.Store.Abstract
import RedisServer.Store.Invariant

namespace RedisServer

variable {hash : Bytes → UInt64}

def Store.toMap (s : Store) : KvMap :=
  KeyedList.toMap Entry.key (fun e => (e.val, e.expireAtMs)) s.entries

theorem Store.Sound.lookup_iff {s : Store} (hs : s.Sound hash) (e : Entry) :
    s.toMap.lookup e.key = some (e.val, e.expireAtMs) ↔ e ∈ s.entries := by
  rw [Store.toMap, KeyedList.lookup_toMap_iff hs.nodup]
  constructor
  · rintro ⟨x, hx, hk, hv⟩
    have : x = e := by
      cases x
      cases e
      simp_all
    exact this ▸ hx
  · exact fun he => ⟨e, he, rfl, rfl⟩

theorem Store.Sound.lookup_of_mem {s : Store} (hs : s.Sound hash) {e : Entry} {k : Bytes}
    (he : e ∈ s.entries) (hk : e.key = k) : s.toMap.lookup k = some (e.val, e.expireAtMs) :=
  hk ▸ (hs.lookup_iff e).mpr he

theorem Store.lookup_none {s : Store} {k : Bytes} (h : ∀ e ∈ s.entries, e.key ≠ k) :
    s.toMap.lookup k = none :=
  (KeyedList.lookup_toMap_none_iff k).mpr h

theorem Store.Sound.toMap_perm {s s' : Store} (hs : s.Sound hash)
    (h : s'.entries.Perm s.entries) : s'.toMap = s.toMap :=
  (KeyedList.toMap_perm hs.nodup h.symm).symm

theorem Store.Inv.unlink_toMap {s : Store} (hs : s.Inv hash) {r : Found} (h : s.Holds r) :
    (s.unlink r).toMap = s.toMap.erase r.entry.key := by
  have hp := Store.unlink_perm h
  have hn := (hp.map Entry.key).nodup_iff.mp hs.nodup
  rw [Store.toMap, KeyedList.toMap_tail hn, Store.toMap, KeyedList.toMap_perm hs.nodup hp]

theorem Store.Inv.rewrite_toMap {s : Store} (hs : s.Inv hash) {r : Found} (h : s.Holds r)
    (f : Entry → Entry) (hf : ∀ x, (f x).key = x.key) :
    (s.rewrite r f).toMap =
      s.toMap.insert r.entry.key ((f r.entry).val, (f r.entry).expireAtMs) := by
  obtain ⟨l, h1, h2⟩ := Store.rewrite_perm h f
  rw [Store.toMap, KeyedList.toMap_perm (hs.rewrite h hf).nodup h2,
    KeyedList.toMap_replace l (hf r.entry), Store.toMap, KeyedList.toMap_perm hs.nodup h1]

theorem insertEntry_spec {s : Store} (hs : s.Inv hash) {e : Entry}
    (hfresh : ∀ x ∈ s.entries, x.key ≠ e.key) :
    (insertEntry hash s e).Inv hash ∧ (insertEntry hash s e).entries.Perm (e :: s.entries) := by
  have hnd : ((e :: s.entries).map Entry.key).Nodup := by
    rw [List.map_cons, List.nodup_cons]
    refine ⟨fun hm => ?_, hs.nodup⟩
    obtain ⟨x, hx, hk⟩ := List.mem_map.mp hm
    exact hfresh x hx hk
  unfold insertEntry
  by_cases hr : isRehashing s = true
  · rw [if_pos hr]
    have hidx := (isRehashing_iff s).mp hr
    have hpos : 0 < s.ht1.size := by have := hs.busy hidx; have := hs.pos0; omega
    have hp : (Store.entries { s with ht1 := s.ht1.push (hash e.key) e }).Perm
        (e :: s.entries) :=
      ((hs.wf1.push_perm hpos (hash e.key) e).append_left _).trans List.perm_middle
    exact ⟨⟨⟨hs.wf0, hs.wf1.push hpos e, hs.pos0, (hp.map Entry.key).nodup_iff.mpr hnd,
      hs.migrated⟩, fun h => absurd h hidx, hs.busy⟩, hp⟩
  · rw [if_neg hr]
    have hidx : s.rehashIdx = -1 := by simpa [isRehashing] using hr
    have hp : (Store.entries { s with ht0 := s.ht0.push (hash e.key) e }).Perm
        (e :: s.entries) :=
      (hs.wf0.push_perm hs.pos0 (hash e.key) e).append_right _
    have hi : Store.Inv hash { s with ht0 := s.ht0.push (hash e.key) e } :=
      ⟨⟨hs.wf0.push hs.pos0 e, hs.wf1, hs.pos0, (hp.map Entry.key).nodup_iff.mpr hnd,
        fun i hlt => by simp only at hlt; omega⟩, hs.idle, fun h => absurd hidx h⟩
    obtain ⟨h1, h2⟩ := maybeStartRehash_spec hi
    exact ⟨h1, h2 ▸ hp⟩

theorem findSlotEither_lookup {s : Store} (hs : s.Inv hash) (k : Bytes) :
    s.toMap.lookup k = (findSlotEither s k (hash k)).map
      (fun r => (r.entry.val, r.entry.expireAtMs)) := by
  cases hf : findSlotEither s k (hash k) with
  | none => exact Store.lookup_none (findSlotEither_none hs hf)
  | some r =>
    obtain ⟨hh, hk⟩ := findSlotEither_some hs.toSound hf
    exact hs.lookup_of_mem hh.mem hk

theorem storeSet_spec {s : Store} (hs : s.Inv hash) (k v : Bytes) (e : Int64) :
    (storeSet hash s k v e).1.Inv hash ∧
      (storeSet hash s k v e).1.toMap = (s.toMap.set k v e).1 ∧
      (storeSet hash s k v e).2 = (s.toMap.set k v e).2 := by
  obtain ⟨hr, hp⟩ := rehashStep_spec hs
  have hm := hs.toMap_perm hp
  have hl := findSlotEither_lookup hr k
  simp only [storeSet, KvMap.set]
  cases hf : findSlotEither (rehashStep hash s) k (hash k) with
  | some r =>
    obtain ⟨hh, rfl⟩ := findSlotEither_some hr.toSound hf
    have hmem : r.entry.key ∈ s.toMap := by
      rw [← hm]
      exact Finmap.mem_of_lookup_eq_some (by simpa [hf] using hl)
    refine ⟨hr.rewrite hh (fun _ => rfl), ?_, (if_pos hmem).symm⟩
    rw [hr.rewrite_toMap hh (fun x => { x with val := v, expireAtMs := e }) (fun _ => rfl), hm]
  | none =>
    have hnot : k ∉ s.toMap := by
      rw [← hm]
      exact Finmap.lookup_eq_none.mp (by simpa [hf] using hl)
    obtain ⟨hi, hpi⟩ := insertEntry_spec hr (e := ⟨k, v, e⟩) (findSlotEither_none hr hf)
    refine ⟨hi, ?_, (if_neg hnot).symm⟩
    rw [Store.toMap, KeyedList.toMap_perm hi.nodup hpi, KeyedList.toMap_cons, ← hm]
    rfl

theorem storeDel_spec {s : Store} (hs : s.Inv hash) (k : Bytes) :
    (storeDel hash s k).1.Inv hash ∧
      (storeDel hash s k).1.toMap = (s.toMap.del k).1 ∧
      (storeDel hash s k).2 = (s.toMap.del k).2 := by
  obtain ⟨hr, hp⟩ := rehashStep_spec hs
  have hm := hs.toMap_perm hp
  have hl := findSlotEither_lookup hr k
  simp only [storeDel, KvMap.del]
  cases hf : findSlotEither (rehashStep hash s) k (hash k) with
  | some r =>
    obtain ⟨hh, rfl⟩ := findSlotEither_some hr.toSound hf
    have hmem : r.entry.key ∈ s.toMap := by
      rw [← hm]
      exact Finmap.mem_of_lookup_eq_some (by simpa [hf] using hl)
    exact ⟨hr.unlink hh, by rw [hr.unlink_toMap hh, hm], (if_pos hmem).symm⟩
  | none =>
    have hnot : s.toMap.lookup k = none := by rw [← hm]; simpa [hf] using hl
    refine ⟨hr, ?_, (if_neg (Finmap.lookup_eq_none.mp hnot)).symm⟩
    refine Finmap.ext_lookup (fun x => ?_)
    rw [hm]
    by_cases hx : x = k
    · subst hx
      rw [hnot, Finmap.lookup_erase]
    · rw [Finmap.lookup_erase_ne hx]

structure Located (hash : Bytes → UInt64) (m : KvMap) (k : Bytes) (r : Store × Option Found) :
    Prop where
  inv : r.1.Inv hash
  toMap : r.1.toMap = m
  lookup : m.lookup k = r.2.map (fun f => (f.entry.val, f.entry.expireAtMs))
  holds : ∀ f, r.2 = some f → r.1.Holds f ∧ f.entry.key = k

theorem locateLive_spec {s : Store} (hs : s.Inv hash) (k : Bytes) (now : Int64) :
    Located hash (s.toMap.purge k now) k (locateLive hash s k now) := by
  have hl := findSlotEither_lookup hs k
  unfold locateLive
  cases hf : findSlotEither s k (hash k) with
  | none =>
    have hn : s.toMap.lookup k = none := by simpa [hf] using hl
    have hp : s.toMap.purge k now = s.toMap := by simp [KvMap.purge, ExpiringMap.purge, hn]
    exact ⟨hs, hp.symm, by rw [hp, hn]; rfl, by simp⟩
  | some r =>
    obtain ⟨hh, hk⟩ := findSlotEither_some hs.toSound hf
    have hsome : s.toMap.lookup k = some (r.entry.val, r.entry.expireAtMs) := by
      simpa [hf] using hl
    simp only
    split_ifs with hd
    · have hp : s.toMap.purge k now = s.toMap.erase k := by
        simp [KvMap.purge, ExpiringMap.purge, hsome, hd]
      refine ⟨hs.unlink hh, by rw [hs.unlink_toMap hh, hp, hk], ?_, by simp⟩
      rw [hp, Finmap.lookup_erase]
      rfl
    · have hp : s.toMap.purge k now = s.toMap := by
        simp [KvMap.purge, ExpiringMap.purge, hsome, hd]
      refine ⟨hs, hp.symm, by rw [hp, hsome]; rfl, ?_⟩
      rintro f hf'
      cases hf'
      exact ⟨hh, hk⟩

theorem locateLive_rehash_spec {s : Store} (hs : s.Inv hash) (k : Bytes) (now : Int64) :
    Located hash (s.toMap.purge k now) k (locateLive hash (rehashStep hash s) k now) := by
  obtain ⟨hr, hp⟩ := rehashStep_spec hs
  have h := locateLive_spec hr k now
  rwa [hs.toMap_perm hp] at h

theorem storeGet_spec {s : Store} (hs : s.Inv hash) (k : Bytes) (now : Int64) :
    (storeGet hash s k now).1.Inv hash ∧
      (storeGet hash s k now).1.toMap = (s.toMap.get k now).1 ∧
      (storeGet hash s k now).2 = (s.toMap.get k now).2 := by
  have h := locateLive_rehash_spec hs k now
  refine ⟨h.inv, h.toMap, ?_⟩
  simp only [storeGet, KvMap.get, h.lookup, Option.map_map]
  rfl

theorem storeExists_spec {s : Store} (hs : s.Inv hash) (k : Bytes) (now : Int64) :
    (storeExists hash s k now).1.Inv hash ∧
      (storeExists hash s k now).1.toMap = (s.toMap.has k now).1 ∧
      (storeExists hash s k now).2 = (s.toMap.has k now).2 := by
  have h := locateLive_rehash_spec hs k now
  refine ⟨h.inv, h.toMap, ?_⟩
  simp only [storeExists, KvMap.has]
  congr 1
  rw [← Finmap.lookup_isSome, h.lookup, Option.isSome_map]

theorem storeExpire_spec {s : Store} (hs : s.Inv hash) (k : Bytes) (e now : Int64) :
    (storeExpire hash s k e now).1.Inv hash ∧
      (storeExpire hash s k e now).1.toMap = (s.toMap.expire k e now).1 ∧
      (storeExpire hash s k e now).2 = (s.toMap.expire k e now).2 := by
  have h := locateLive_rehash_spec hs k now
  unfold storeExpire KvMap.expire
  rcases hl : locateLive hash (rehashStep hash s) k now with ⟨s', _ | r⟩ <;> rw [hl] at h <;>
    rw [h.lookup]
  · exact ⟨h.inv, h.toMap, rfl⟩
  · obtain ⟨hh, rfl⟩ := h.holds r rfl
    refine ⟨h.inv.rewrite hh (fun _ => rfl), ?_, rfl⟩
    exact (h.inv.rewrite_toMap hh (fun x => { x with expireAtMs := e }) (fun _ => rfl)).trans
      (by rw [h.toMap]; rfl)

theorem storeTtlMs_spec {s : Store} (hs : s.Inv hash) (k : Bytes) (now now' : Int64) :
    (storeTtlMs hash s k now now').1.Inv hash ∧
      (storeTtlMs hash s k now now').1.toMap = (s.toMap.ttlMs k now now').1 ∧
      (storeTtlMs hash s k now now').2 = (s.toMap.ttlMs k now now').2 := by
  have h := locateLive_rehash_spec hs k now
  unfold storeTtlMs KvMap.ttlMs
  rcases hl : locateLive hash (rehashStep hash s) k now with ⟨s', _ | r⟩ <;> rw [hl] at h <;>
    rw [h.lookup] <;> exact ⟨h.inv, h.toMap, rfl⟩

theorem toInt_bounds (x : Int64) : -2 ^ 63 ≤ x.toInt ∧ x.toInt < 2 ^ 63 :=
  ⟨x.le_toInt, x.toInt_lt⟩

theorem KvMap.fits_iff {z : Int} : fits z ↔ -2 ^ 63 ≤ z ∧ z < 2 ^ 63 := by
  rw [fits, Int64.toInt_minValue, Int64.toInt_maxValue]
  omega

theorem fits_toInt (v : Int64) : KvMap.fits v.toInt := KvMap.fits_iff.mpr (toInt_bounds v)

theorem toInt_ofInt_of_fits {z : Int} (h : KvMap.fits z) : (Int64.ofInt z).toInt = z := by
  obtain ⟨hlo, hhi⟩ := KvMap.fits_iff.mp h
  exact Int64.toInt_ofInt_of_le hlo hhi

theorem toInt_add_ofInt {v : Int64} {z : Int} (h : KvMap.fits (v.toInt + z)) :
    (v + Int64.ofInt z).toInt = v.toInt + z := by
  rw [← toInt_ofInt_of_fits h, Int64.ofInt_add, Int64.ofInt_toInt]

theorem toInt_add_of_fits {a b : Int64} (h : KvMap.fits (a.toInt + b.toInt)) :
    (a + b).toInt = a.toInt + b.toInt := by
  have hsum := toInt_add_ofInt h
  rwa [Int64.ofInt_toInt] at hsum

theorem incrOverflows_iff (c d : Int64) :
    incrOverflows c d = true ↔ ¬ KvMap.fits (c.toInt + d.toInt) := by
  have hc := toInt_bounds c
  have hd := toInt_bounds d
  have h0 : (0 : Int64).toInt = 0 := rfl
  have hmax : 0 < d.toInt → (Int64.maxValue - d).toInt = 2 ^ 63 - 1 - d.toInt := by
    intro hp
    rw [Int64.toInt_sub, Int64.toInt_maxValue]
    exact Int.bmod_eq_of_le (by omega) (by omega)
  have hmin : d.toInt < 0 → (Int64.minValue - d).toInt = -2 ^ 63 - d.toInt := by
    intro hp
    rw [Int64.toInt_sub, Int64.toInt_minValue]
    exact Int.bmod_eq_of_le (by omega) (by omega)
  simp only [incrOverflows, KvMap.fits, Int64.toInt_minValue, Int64.toInt_maxValue,
    Bool.or_eq_true, Bool.and_eq_true, decide_eq_true_eq, gt_iff_lt, Int64.lt_iff_toInt_lt, h0]
  constructor
  · rintro (⟨h1, h2⟩ | ⟨h1, h2⟩)
    · rw [hmax h1] at h2
      omega
    · rw [hmin h1] at h2
      omega
  · intro h
    by_cases hp : 0 < d.toInt
    · rw [hmax hp]
      omega
    · have hn : d.toInt < 0 := by omega
      rw [hmin hn]
      omega

theorem KvMap.add_of_overflows {c d : Int64} (h : incrOverflows c d = true) (m : KvMap)
    (k : Bytes) (e : Int64) : m.add k c d e = (m, .overflow) :=
  if_neg ((incrOverflows_iff c d).mp h)

theorem KvMap.add_of_not_overflows {c d : Int64} (h : ¬ incrOverflows c d = true) (m : KvMap)
    (k : Bytes) (e : Int64) :
    m.add k c d e = (m.insert k (formatLld (c + d), e), .ok (c + d)) := by
  have hf : KvMap.fits (c.toInt + d.toInt) := by
    by_contra hn
    exact h ((incrOverflows_iff c d).mpr hn)
  rw [KvMap.add, if_pos hf, formatLld, toInt_add_of_fits hf, Int64.ofInt_add, Int64.ofInt_toInt,
    Int64.ofInt_toInt]

theorem storeIncrby_spec {s : Store} (hs : s.Inv hash) (k : Bytes) (d now : Int64) :
    (storeIncrby hash s k d now).1.Inv hash ∧
      (storeIncrby hash s k d now).1.toMap = (s.toMap.incrby k d now).1 ∧
      (storeIncrby hash s k d now).2 = (s.toMap.incrby k d now).2 := by
  have h := locateLive_rehash_spec hs k now
  unfold storeIncrby KvMap.incrby
  rcases hl : locateLive hash (rehashStep hash s) k now with ⟨s', _ | r⟩ <;> rw [hl] at h <;>
    rw [h.lookup] <;> simp only [Option.map_none, Option.map_some]
  · by_cases ho : incrOverflows 0 d = true
    · rw [if_pos ho, KvMap.add_of_overflows ho]
      exact ⟨h.inv, h.toMap, rfl⟩
    · rw [if_neg ho, KvMap.add_of_not_overflows ho]
      obtain ⟨h1, h2, -⟩ := storeSet_spec h.inv k (formatLld (0 + d)) 0
      exact ⟨h1, h2.trans (by rw [h.toMap]; rfl), rfl⟩
  · rw [Store.parseStrictLl]
    cases strictLl r.entry.val with
    | none => exact ⟨h.inv, h.toMap, rfl⟩
    | some c =>
      simp only
      by_cases ho : incrOverflows c d = true
      · rw [if_pos ho, KvMap.add_of_overflows ho]
        exact ⟨h.inv, h.toMap, rfl⟩
      · rw [if_neg ho, KvMap.add_of_not_overflows ho]
        obtain ⟨hh, rfl⟩ := h.holds r rfl
        refine ⟨h.inv.rewrite hh (fun _ => rfl), ?_, rfl⟩
        exact (h.inv.rewrite_toMap hh (fun x => { x with val := formatLld (c + d) })
          (fun _ => rfl)).trans (by rw [h.toMap])

theorem Store.Sound.storeSize_eq {s : Store} (hs : s.Sound hash) :
    storeSize s = s.entries.length := by
  rw [storeSize, hs.wf0.used_eq, hs.wf1.used_eq, Store.entries, List.length_append]

@[simp] theorem toMap_storeCreate : storeCreate.toMap = ∅ := by
  rw [Store.toMap, entries_storeCreate, KeyedList.toMap_nil]

theorem storeFlush_spec {s : Store} (hs : s.Inv hash) :
    (storeFlush s).1.Inv hash ∧ (storeFlush s).1.toMap = s.toMap.flush.1 ∧
      (storeFlush s).2 = s.toMap.flush.2 := by
  refine ⟨storeCreate_inv, toMap_storeCreate, ?_⟩
  rw [storeFlush, hs.storeSize_eq, KvMap.flush, Store.toMap, KeyedList.card_keys_toMap hs.nodup]

theorem storeStep_spec {s : Store} (hs : s.Inv hash) (op : StoreOp) :
    (storeStep hash s op).1.Inv hash ∧
      (storeStep hash s op).1.toMap = (s.toMap.step op).1 ∧
      (storeStep hash s op).2 = (s.toMap.step op).2 := by
  have lift {α : Type} (f : α → StoreRet) {t : Store} {m : KvMap} {a b : α}
      (h : t.Inv hash ∧ t.toMap = m ∧ a = b) : t.Inv hash ∧ t.toMap = m ∧ f a = f b :=
    ⟨h.1, h.2.1, congrArg f h.2.2⟩
  cases op with
  | set k v e => exact lift _ (storeSet_spec hs k v e)
  | get k now => exact lift _ (storeGet_spec hs k now)
  | «exists» k now => exact lift _ (storeExists_spec hs k now)
  | del k => exact lift _ (storeDel_spec hs k)
  | expire k e now => exact lift _ (storeExpire_spec hs k e now)
  | ttlMs k now now' => exact lift _ (storeTtlMs_spec hs k now now')
  | incrby k d now => exact lift _ (storeIncrby_spec hs k d now)
  | flush => exact lift _ (storeFlush_spec hs)

theorem StoreReachable.inv {s : Store} (h : StoreReachable hash s) : s.Inv hash :=
  Machine.Reachable.invariant h storeCreate_inv (fun _ op hs => (storeStep_spec hs op).1)

end RedisServer

import RedisServer.Store.Iterate

namespace RedisServer

open ExpiringMap

variable {hash : Bytes → UInt64}

theorem expired_mono (e n n' : Int64) (h : n ≤ n') (he : expired e n = true) :
    expired e n' = true := by
  simp only [expired, Bool.and_eq_true, decide_eq_true_eq] at he ⊢
  exact ⟨he.1, Int64.le_trans he.2 h⟩

namespace KvMap

variable {m m' : KvMap} {now : Int64}

theorem purge_agree (h : Agree expired m m' now) (k : Bytes) :
    Agree expired (purge m k now) (purge m' k now) now :=
  Agree.purge expired_mono h k (Int64.le_refl now)

theorem lookup_purge_agree (h : Agree expired m m' now) (k : Bytes) :
    (purge m k now).lookup k = (purge m' k now).lookup k := by
  rw [purge, purge, lookup_purge, lookup_purge, h k]

theorem get_agree (h : Agree expired m m' now) (k : Bytes) :
    Agree expired (get m k now).1 (get m' k now).1 now ∧ (get m k now).2 = (get m' k now).2 :=
  ⟨purge_agree h k, by simp only [get, lookup_purge_agree h k]⟩

theorem has_agree (h : Agree expired m m' now) (k : Bytes) :
    Agree expired (has m k now).1 (has m' k now).1 now ∧ (has m k now).2 = (has m' k now).2 := by
  refine ⟨purge_agree h k, ?_⟩
  simp only [has, ← Finmap.lookup_isSome, lookup_purge_agree h k]

theorem expire_agree (h : Agree expired m m' now) (k : Bytes) (e : Int64) :
    Agree expired (expire m k e now).1 (expire m' k e now).1 now ∧
      (expire m k e now).2 = (expire m' k e now).2 := by
  have hp := purge_agree h k
  rw [expire, expire, lookup_purge_agree h k]
  cases (purge m' k now).lookup k with
  | none => exact ⟨hp, rfl⟩
  | some p => exact ⟨hp.insert k (p.1, e), rfl⟩

theorem ttlMs_agree (h : Agree expired m m' now) (k : Bytes) (now' : Int64) :
    Agree expired (ttlMs m k now now').1 (ttlMs m' k now now').1 now ∧
      (ttlMs m k now now').2 = (ttlMs m' k now now').2 := by
  have hp := purge_agree h k
  rw [ttlMs, ttlMs, lookup_purge_agree h k]
  cases (purge m' k now).lookup k with
  | none => exact ⟨hp, rfl⟩
  | some p => exact ⟨hp, rfl⟩

theorem add_agree (h : Agree expired m m' now) (k : Bytes) (c d e : Int64) :
    Agree expired (add m k c d e).1 (add m' k c d e).1 now ∧
      (add m k c d e).2 = (add m' k c d e).2 := by
  unfold add
  split_ifs
  · exact ⟨h.insert k _, rfl⟩
  · exact ⟨h, rfl⟩

theorem incrby_agree (h : Agree expired m m' now) (k : Bytes) (d : Int64) :
    Agree expired (incrby m k d now).1 (incrby m' k d now).1 now ∧
      (incrby m k d now).2 = (incrby m' k d now).2 := by
  have hp := purge_agree h k
  rw [incrby, incrby, lookup_purge_agree h k]
  cases (purge m' k now).lookup k with
  | none => exact add_agree hp k 0 d 0
  | some p =>
    simp only
    cases strictLl p.1 with
    | none => exact ⟨hp, rfl⟩
    | some current => exact add_agree hp k current d p.2

end KvMap

structure Store.Twin (hash : Bytes → UInt64) (now : Int64) (s s' : Store) : Prop where
  inv : s.Inv hash
  inv' : s'.Inv hash
  agree : Agree expired s.toMap s'.toMap now

namespace Store.Twin

variable {s s' : Store} {now : Int64}

theorem later {t : Int64} (h : Twin hash t s s') (ht : t ≤ now) : Twin hash now s s' :=
  ⟨h.inv, h.inv', Agree.mono expired_mono h.agree ht⟩

theorem of_spec {α : Type} {r r' : Store × α} {q q' : KvMap × α}
    (hr : r.1.Inv hash ∧ r.1.toMap = q.1 ∧ r.2 = q.2)
    (hr' : r'.1.Inv hash ∧ r'.1.toMap = q'.1 ∧ r'.2 = q'.2)
    (hq : Agree expired q.1 q'.1 now ∧ q.2 = q'.2) : Twin hash now r.1 r'.1 ∧ r.2 = r'.2 := by
  obtain ⟨hi, hm, ho⟩ := hr
  obtain ⟨hi', hm', ho'⟩ := hr'
  exact ⟨⟨hi, hi', by rw [hm, hm']; exact hq.1⟩, by rw [ho, ho', hq.2]⟩

theorem get (h : Twin hash now s s') (k : Bytes) :
    Twin hash now (storeGet hash s k now).1 (storeGet hash s' k now).1 ∧
      (storeGet hash s k now).2 = (storeGet hash s' k now).2 :=
  of_spec (storeGet_spec h.inv k now) (storeGet_spec h.inv' k now) (KvMap.get_agree h.agree k)

theorem «exists» (h : Twin hash now s s') (k : Bytes) :
    Twin hash now (storeExists hash s k now).1 (storeExists hash s' k now).1 ∧
      (storeExists hash s k now).2 = (storeExists hash s' k now).2 :=
  of_spec (storeExists_spec h.inv k now) (storeExists_spec h.inv' k now)
    (KvMap.has_agree h.agree k)

theorem expire (h : Twin hash now s s') (k : Bytes) (e : Int64) :
    Twin hash now (storeExpire hash s k e now).1 (storeExpire hash s' k e now).1 ∧
      (storeExpire hash s k e now).2 = (storeExpire hash s' k e now).2 :=
  of_spec (storeExpire_spec h.inv k e now) (storeExpire_spec h.inv' k e now)
    (KvMap.expire_agree h.agree k e)

theorem ttlMs (h : Twin hash now s s') (k : Bytes) (now' : Int64) :
    Twin hash now (storeTtlMs hash s k now now').1 (storeTtlMs hash s' k now now').1 ∧
      (storeTtlMs hash s k now now').2 = (storeTtlMs hash s' k now now').2 :=
  of_spec (storeTtlMs_spec h.inv k now now') (storeTtlMs_spec h.inv' k now now')
    (KvMap.ttlMs_agree h.agree k now')

theorem incrby (h : Twin hash now s s') (k : Bytes) (d : Int64) :
    Twin hash now (storeIncrby hash s k d now).1 (storeIncrby hash s' k d now).1 ∧
      (storeIncrby hash s k d now).2 = (storeIncrby hash s' k d now).2 :=
  of_spec (storeIncrby_spec h.inv k d now) (storeIncrby_spec h.inv' k d now)
    (KvMap.incrby_agree h.agree k d)

theorem set (h : Twin hash now s s') (k v : Bytes) (e : Int64) :
    Twin hash now (storeSet hash s k v e).1 (storeSet hash s' k v e).1 := by
  obtain ⟨hi, hm, -⟩ := storeSet_spec h.inv k v e
  obtain ⟨hi', hm', -⟩ := storeSet_spec h.inv' k v e
  exact ⟨hi, hi', by rw [hm, hm']; exact h.agree.insert k (v, e)⟩

theorem del (h : Twin hash now s s') (k : Bytes) :
    Twin hash now (storeDel hash s k).1 (storeDel hash s' k).1 := by
  obtain ⟨hi, hm, -⟩ := storeDel_spec h.inv k
  obtain ⟨hi', hm', -⟩ := storeDel_spec h.inv' k
  exact ⟨hi, hi', by rw [hm, hm']; exact h.agree.erase k⟩

theorem flush (h : Twin hash now s s') : Twin hash now (storeFlush s).1 (storeFlush s').1 := by
  obtain ⟨hi, hm, -⟩ := storeFlush_spec h.inv
  obtain ⟨hi', hm', -⟩ := storeFlush_spec h.inv'
  exact ⟨hi, hi', fun k => by rw [hm, hm']; rfl⟩

end Store.Twin

theorem Store.Sound.live_iff {s : Store} (hs : s.Sound hash) (now : Int64) (e : Entry) :
    live expired s.toMap now e.key = some (e.val, e.expireAtMs) ↔ e ∈ s.visited now := by
  rw [live, Option.filter_eq_some_iff, hs.lookup_iff, Store.mem_visited, liveEntry_iff]
  simp

theorem Store.Sound.mem_visited_keys {s : Store} (hs : s.Sound hash) (now : Int64) (k : Bytes) :
    k ∈ (s.visited now).map Entry.key ↔ (live expired s.toMap now k).isSome = true := by
  rw [List.mem_map, Option.isSome_iff_exists]
  constructor
  · rintro ⟨e, he, rfl⟩
    exact ⟨_, (hs.live_iff now e).mpr he⟩
  · rintro ⟨⟨v, x⟩, h⟩
    exact ⟨⟨k, v, x⟩, (hs.live_iff now ⟨k, v, x⟩).mp h, rfl⟩

theorem Store.Twin.visited_perm {s s' : Store} {now : Int64} (h : Store.Twin hash now s s') :
    ((s.visited now).map Entry.key).Perm ((s'.visited now).map Entry.key) := by
  rw [List.perm_ext_iff_of_nodup (h.inv.toSound.visited_nodup now)
    (h.inv'.toSound.visited_nodup now)]
  intro k
  rw [h.inv.toSound.mem_visited_keys, h.inv'.toSound.mem_visited_keys, h.agree k]

end RedisServer

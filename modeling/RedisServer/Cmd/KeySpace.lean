import Mathlib.Data.Finset.Card
import Mathlib.Data.Set.Card
import RedisServer.Cmd.Expiry

namespace RedisServer

open ExpiringMap

variable {hash : Bytes → UInt64}

def KvMap.listed (m : KvMap) (keys : List Bytes) : Finset Bytes :=
  keys.toFinset.filter (· ∈ m)

theorem KvMap.card_listed_cons (m : KvMap) (k : Bytes) (keys : List Bytes) :
    (m.listed (k :: keys)).card = (if k ∈ m then 1 else 0) + (listed (m.erase k) keys).card := by
  have herase : listed (m.erase k) keys = (m.listed keys).erase k := by
    ext x
    simp only [listed, Finset.mem_filter, List.mem_toFinset, Finmap.mem_erase, Finset.mem_erase]
    tauto
  rw [herase, listed, List.toFinset_cons, Finset.filter_insert]
  split_ifs with hk
  · rw [← Finset.card_erase_add_one (Finset.mem_insert_self k _), Finset.erase_insert_eq_erase,
      Nat.add_comm]
    rfl
  · rw [Nat.zero_add, Finset.erase_eq_of_notMem]
    · rfl
    · simp [listed, hk]

theorem countLoop_del {s : Store} (hs : s.Inv hash) (keys : List Bytes) (n : Nat) :
    (∀ k, (countLoop (storeDel hash) keys s n).1.toMap.lookup k =
        if k ∈ keys then none else s.toMap.lookup k) ∧
      (countLoop (storeDel hash) keys s n).2 = n + (s.toMap.listed keys).card := by
  induction keys generalizing s n with
  | nil => simp [countLoop, KvMap.listed]
  | cons key keys ih =>
    obtain ⟨hi, hm, hr⟩ := storeDel_spec hs key
    obtain ⟨hlookup, hcount⟩ := ih hi (n + (storeDel hash s key).2)
    rw [countLoop]
    refine ⟨fun k => ?_, ?_⟩
    · rw [hlookup, hm, KvMap.del]
      by_cases hk : k = key
      · subst hk
        simp [Finmap.lookup_erase]
      · simp [hk, Finmap.lookup_erase_ne hk]
    · rw [hcount, hr, hm, KvMap.card_listed_cons, KvMap.del, Nat.add_assoc]

theorem respReplyInteger_ofNat {n : Nat} (h : n < 2 ^ 63) :
    respReplyInteger (Int64.ofNat n) = integerReply n := by
  rw [integerReply_eq, Int64.toInt_ofNat_of_lt h]

theorem integerReply_natCast_inj {m n : Nat} (hm : m < 2 ^ 63) (hn : n < 2 ^ 63)
    (h : integerReply m = integerReply n) : m = n := by
  rw [← respReplyInteger_ofNat hm, ← respReplyInteger_ofNat hn] at h
  have hint := congrArg Int64.toInt (respReplyInteger_injective h)
  rw [Int64.toInt_ofNat_of_lt hm, Int64.toInt_ofNat_of_lt hn] at hint
  exact Int.ofNat_inj.mp hint

-- the keys of the list that EXISTS counts
def existing (hash : Bytes → UInt64) (env : Env) (st : CmdState) (keys : List Bytes) :
    Finset Bytes :=
  keys.toFinset.filter
    (fun k => (cmdDispatch hash env st [str "EXISTS", k]).2 = respReplyInteger 1)

structure DelCountsLive (hash : Bytes → UInt64) (env : Env) (st : CmdState) (cmd : Command) :
    Prop where
  reply : (cmdDispatch hash env st cmd).2 = integerReply (existing hash env st (cmd.drop 1)).card
  gone : ∀ k ∈ cmd.drop 1, ∀ t,
    live expired (cmdDispatch hash env st cmd).1.store.toMap t k = none
  kept : ∀ k ∉ cmd.drop 1,
    (cmdDispatch hash env st cmd).1.store.toMap.lookup k = st.store.toMap.lookup k

theorem live_isSome_iff (m : KvMap) (t : Int64) (k : Bytes) :
    (live expired m t k).isSome ↔ ∃ p, m.lookup k = some p ∧ expired p.2 t = false := by
  rw [live, Option.isSome_iff_exists]
  simp [Option.filter_eq_some_iff]

theorem mem_existing {st : CmdState} (hs : st.store.Inv hash) {env : Env} {keys : List Bytes}
    {k : Bytes} :
    k ∈ existing hash env st keys ↔
      k ∈ keys ∧ ∃ p, st.store.toMap.lookup k = some p ∧ expired p.2 env.now = false := by
  rw [existing, Finset.mem_filter, List.mem_toFinset, (seenAs_live hs env k).existence,
    live_isSome_iff]

theorem existing_subset_listed {st : CmdState} (hs : st.store.Inv hash) (env : Env)
    (keys : List Bytes) : existing hash env st keys ⊆ st.store.toMap.listed keys := by
  intro k hk
  obtain ⟨hkeys, p, hp, -⟩ := (mem_existing hs).mp hk
  rw [KvMap.listed, Finset.mem_filter, List.mem_toFinset]
  exact ⟨hkeys, Finmap.mem_of_lookup_eq_some hp⟩

theorem existing_eq_listed_iff {st : CmdState} (hs : st.store.Inv hash) (env : Env)
    (keys : List Bytes) :
    existing hash env st keys = st.store.toMap.listed keys ↔
      ∀ k ∈ keys, ∀ p, st.store.toMap.lookup k = some p → expired p.2 env.now = false := by
  constructor
  · intro heq k hk p hp
    have hmem : k ∈ st.store.toMap.listed keys := by
      rw [KvMap.listed, Finset.mem_filter, List.mem_toFinset]
      exact ⟨hk, Finmap.mem_of_lookup_eq_some hp⟩
    rw [← heq, mem_existing hs] at hmem
    obtain ⟨-, q, hq, hlive⟩ := hmem
    rw [hp] at hq
    cases hq
    exact hlive
  · intro h
    apply (existing_subset_listed hs env keys).antisymm
    intro k hk
    rw [KvMap.listed, Finset.mem_filter, List.mem_toFinset] at hk
    obtain ⟨p, hp⟩ := Finmap.mem_iff.mp hk.2
    exact (mem_existing hs).mpr ⟨hk.1, p, hp, h k hk.1 p hp⟩

theorem KvMap.card_listed_le (m : KvMap) (keys : List Bytes) :
    (m.listed keys).card ≤ keys.length :=
  (Finset.card_filter_le _ _).trans keys.toFinset_card_le

theorem del_outcome {st : CmdState} (hs : st.store.Inv hash) (env : Env) {cmd : Command}
    (hdel : lookupCommand (argAt cmd 0) = some .del) (hlen : 2 ≤ cmd.length)
    (hmax : cmd.length < 2 ^ 63) :
    (cmdDispatch hash env st cmd).2 =
        integerReply (st.store.toMap.listed (cmd.drop 1)).card ∧
      ∀ k, (cmdDispatch hash env st cmd).1.store.toMap.lookup k =
        if k ∈ cmd.drop 1 then none else st.store.toMap.lookup k := by
  obtain ⟨hlookup, hcount⟩ := countLoop_del hs (cmd.drop 1) 0
  have hdispatch : cmdDispatch hash env st cmd =
      ({ st with store := (countLoop (storeDel hash) (cmd.drop 1) st.store 0).1 },
        respReplyInteger (Int64.ofNat (countLoop (storeDel hash) (cmd.drop 1) st.store 0).2)) := by
    rw [cmdDispatch_of_lookup hdel]
    exact if_neg (by omega)
  have hle := st.store.toMap.card_listed_le (cmd.drop 1)
  rw [List.length_drop] at hle
  rw [hdispatch, hcount, Nat.zero_add]
  exact ⟨respReplyInteger_ofNat (by omega), hlookup⟩

theorem del_counts_live_iff {st : CmdState} (hs : StoreReachable hash st.store) (env : Env)
    {cmd : Command} (hdel : lookupCommand (argAt cmd 0) = some .del) (hlen : 2 ≤ cmd.length)
    (hmax : cmd.length < 2 ^ 63) :
    DelCountsLive hash env st cmd ↔
      ∀ k ∈ cmd.drop 1, ∀ p, st.store.toMap.lookup k = some p → expired p.2 env.now = false := by
  obtain ⟨hreply, hlookup⟩ := del_outcome hs.inv env hdel hlen hmax
  have hsub := existing_subset_listed hs.inv env (cmd.drop 1)
  rw [← existing_eq_listed_iff hs.inv]
  constructor
  · intro h
    have hle := st.store.toMap.card_listed_le (cmd.drop 1)
    have hcard := Finset.card_le_card hsub
    rw [List.length_drop] at hle
    have heq := integerReply_natCast_inj (by omega) (by omega) (hreply.symm.trans h.reply)
    exact Finset.eq_of_subset_of_card_le hsub heq.le
  · intro heq
    refine ⟨by rw [hreply, heq], fun k hk t => ?_, fun k hk => ?_⟩
    · rw [live, hlookup, if_pos hk]
      rfl
    · rw [hlookup, if_neg hk]

theorem del_counts_live_repeated :
    DelCountsLive fnv1aHash (counterEnv 99) counterState
      [str "DEL", str "n", str "n", str "x", str "a"] := by
  have hall : ∀ k ∈ [str "n", str "n", str "x", str "a"],
      (counterState.store.toMap.lookup k).all (fun p => !expired p.2 99) = true := by
    decide +kernel
  refine (del_counts_live_iff counterState_reachable (counterEnv 99) (by decide +kernel) (by decide)
    (by decide)).mpr ?_
  intro k hk p hp
  have hlive := hall k hk
  rw [hp] at hlive
  simpa [counterEnv] using hlive

theorem del_counts_expired_key :
    StoreReachable fnv1aHash counterState.store ∧
      (Machine.run (dispatchStep fnv1aHash) counterState
        [(counterEnv 100, [str "DEL", str "n"])]).2 = [str ":1\r\n"] ∧
      (Machine.run (dispatchStep fnv1aHash) counterState
        [(counterEnv 100, [str "EXISTS", str "n"]), (counterEnv 100, [str "DEL", str "n"])]).2 =
        [str ":0\r\n", str ":0\r\n"] ∧
      ¬ DelCountsLive fnv1aHash (counterEnv 100) counterState [str "DEL", str "n"] :=
  ⟨counterState_reachable, by decide +kernel, by decide +kernel,
    fun h => absurd h.reply (by decide +kernel)⟩

theorem setOf_exists_eq {st : CmdState} (hs : st.store.Inv hash) (env : Env) :
    {k | (cmdDispatch hash env st [str "EXISTS", k]).2 = respReplyInteger 1} =
      ((st.store.visited env.now).map Entry.key).toFinset := by
  ext k
  rw [Set.mem_ofPred_eq, (seenAs_live hs env k).existence, Finset.mem_coe, List.mem_toFinset,
    hs.toSound.mem_visited_keys]

theorem encard_exists {st : CmdState} (hs : st.store.Inv hash) (env : Env) :
    {k | (cmdDispatch hash env st [str "EXISTS", k]).2 = respReplyInteger 1}.encard =
      (st.store.visited env.now).length := by
  rw [setOf_exists_eq hs, Set.encard_coe_eq_coe_finsetCard,
    List.toFinset_card_of_nodup (hs.toSound.visited_nodup env.now), List.length_map]

-- KEYS *, DBSIZE and EXISTS give one and the same number of keys
def SizesAgree (hash : Bytes → UInt64) (env : Env) (st : CmdState) : Prop :=
  ∃ ks, (cmdDispatch hash env st [str "KEYS", str "*"]).2 = keysReply ks ∧
    (cmdDispatch hash env st [str "DBSIZE"]).2 = integerReply ks.length ∧
    {k | (cmdDispatch hash env st [str "EXISTS", k]).2 = respReplyInteger 1}.encard = ks.length

theorem length_visited_eq_iff {s : Store} (hs : s.Inv hash) (now : Int64) :
    (s.visited now).length = storeSize s ↔
      ∀ k p, s.toMap.lookup k = some p → expired p.2 now = false := by
  rw [hs.toSound.storeSize_eq, Store.visited, List.length_filter_eq_length_iff]
  constructor
  · rintro h k ⟨val, e⟩ hp
    have hmem := (hs.toSound.lookup_iff ⟨k, val, e⟩).mp hp
    simpa using (liveEntry_iff now _).mp (h _ hmem)
  · intro h e he
    have hp := (hs.toSound.lookup_iff e).mpr he
    simp [liveEntry_iff, h _ _ hp]

theorem dbsize_agrees_iff {st : CmdState} (hs : StoreReachable hash st.store) (env : Env)
    (hmax : storeSize st.store < 2 ^ 63) :
    SizesAgree hash env st ↔
      ∀ k p, st.store.toMap.lookup k = some p → expired p.2 env.now = false := by
  have hdbsize : (cmdDispatch hash env st [str "DBSIZE"]).2 = integerReply (storeSize st.store) :=
    respReplyInteger_ofNat hmax
  have hle : (st.store.visited env.now).length ≤ storeSize st.store := by
    rw [hs.inv.toSound.storeSize_eq]
    exact List.length_filter_le _ _
  rw [← length_visited_eq_iff hs.inv]
  constructor
  · rintro ⟨ks, -, hsize, hexists⟩
    rw [encard_exists hs.inv, Nat.cast_inj] at hexists
    rw [hdbsize, ← hexists] at hsize
    exact (integerReply_natCast_inj hmax (hle.trans_lt hmax) hsize).symm
  · intro heq
    refine ⟨_, keys_command_reply hs.inv env, ?_, ?_⟩
    · rw [hdbsize, List.length_map, heq]
    · rw [encard_exists hs.inv, List.length_map]

theorem dbsize_agrees_midway :
    isRehashing counterState.store = true ∧ SizesAgree fnv1aHash (counterEnv 99) counterState := by
  have hall : ∀ e ∈ counterState.store.entries, liveEntry 99 e = true := by decide +kernel
  refine ⟨by decide +kernel,
    (dbsize_agrees_iff counterState_reachable (counterEnv 99) (by decide +kernel)).mpr ?_⟩
  apply (length_visited_eq_iff counterState_reachable.inv 99).mp
  rw [counterState_reachable.inv.toSound.storeSize_eq]
  exact List.length_filter_eq_length_iff.mpr hall

theorem dbsize_counts_expired_key :
    StoreReachable fnv1aHash counterState.store ∧
      (cmdDispatch fnv1aHash (counterEnv 100) counterState [str "DBSIZE"]).2 = str ":4\r\n" ∧
      (counterState.store.visited 100).length = 3 ∧
      ¬ SizesAgree fnv1aHash (counterEnv 100) counterState := by
  have hsize : (cmdDispatch fnv1aHash (counterEnv 100) counterState [str "DBSIZE"]).2 =
      str ":4\r\n" := by decide +kernel
  have hvisited : (counterState.store.visited 100).length = 3 := by decide +kernel
  refine ⟨counterState_reachable, hsize, hvisited, ?_⟩
  rintro ⟨ks, -, hdbsize, hexists⟩
  have hcount := encard_exists counterState_reachable.inv (counterEnv 100)
  change _ = (((counterState.store.visited 100).length : ℕ) : ℕ∞) at hcount
  rw [hcount, hvisited, Nat.cast_inj] at hexists
  rw [hsize, ← hexists] at hdbsize
  exact absurd hdbsize (by decide +kernel)

-- the entries store_foreach hands to its callback, in order
def foreachCalls (s : Store) (now : Int64) : List Entry :=
  storeForeach s now (fun calls e => calls ++ [e]) []

structure VisitsLiveOnce (hash : Bytes → UInt64) (env : Env) (st : CmdState) : Prop where
  callback : ∀ {σ : Type} (fn : σ → Entry → σ) (ud : σ),
    storeForeach st.store env.now fn ud = (foreachCalls st.store env.now).foldl fn ud
  perm : (foreachCalls st.store env.now).Perm
    (st.store.entries.filter (fun e => !expired e.expireAtMs env.now))
  nodup : ((foreachCalls st.store env.now).map Entry.key).Nodup
  mem_iff : ∀ e, e ∈ foreachCalls st.store env.now ↔
    live expired st.store.toMap env.now e.key = some (e.val, e.expireAtMs)
  keys : ∃ ks, (cmdDispatch hash env st [str "KEYS", str "*"]).2 = keysReply ks ∧ ks.Nodup ∧
    ∀ k, k ∈ ks ↔ (cmdDispatch hash env st [str "GET", k]).2 ≠ respReplyNullBulk
  snapshot : ∃ es, persistImage st.store env.now = imageOf es ∧
    es.Perm (foreachCalls st.store env.now) ∧
    readU64 ((persistImage st.store env.now).drop magicLen) = UInt64.ofNat es.length

theorem foreachCalls_eq {s : Store} (hs : s.Sound hash) (now : Int64) :
    foreachCalls s now = s.visited now := by
  have hcollect : ∀ (es calls : List Entry),
      es.foldl (fun calls e => calls ++ [e]) calls = calls ++ es := by
    intro es
    induction es with
    | nil => simp
    | cons e es ih =>
      intro calls
      rw [List.foldl_cons, ih, List.append_assoc]
      rfl
  rw [foreachCalls, storeForeach_eq hs, hcollect, List.nil_append]

theorem foreach_visits_live_once {st : CmdState} (hs : StoreReachable hash st.store) (env : Env) :
    VisitsLiveOnce hash env st := by
  have hsound := hs.inv.toSound
  have hcalls := foreachCalls_eq hsound env.now
  have hfilter : st.store.visited env.now =
      st.store.entries.filter (fun e => !expired e.expireAtMs env.now) := by
    apply List.filter_congr
    intro e _
    rw [Bool.eq_iff_iff, liveEntry_iff]
    simp
  refine ⟨fun fn ud => ?_, ?_, ?_, fun e => ?_, ?_, ?_⟩
  · rw [storeForeach_eq hsound, hcalls]
  · rw [hcalls, hfilter]
  · rw [hcalls]
    exact hsound.visited_nodup env.now
  · rw [hcalls, hsound.live_iff]
  · refine ⟨_, keys_command_reply hs.inv env, hsound.visited_nodup env.now, fun k => ?_⟩
    rw [(seenAs_live hs.inv env k).get, hsound.mem_visited_keys]
  · refine ⟨_, persistImage_eq hsound env.now, by rw [hcalls], ?_⟩
    obtain ⟨rest, hcount⟩ := imageOf_drop_count (st.store.visited env.now)
    rw [persistImage_eq hsound, hcount, readU64_writeU64]

theorem foreach_visits_live_once_midway :
    isRehashing counterState.store = true ∧ VisitsLiveOnce fnv1aHash (counterEnv 100) counterState :=
  ⟨by decide +kernel, foreach_visits_live_once counterState_reachable (counterEnv 100)⟩

end RedisServer

import RedisServer.Cmd.Counters

namespace RedisServer

open ExpiringMap

variable {hash : Bytes → UInt64}

-- SET's EX counts seconds, its PX milliseconds
def setScale (cmd : Command) : Int := if argEqCi (argAt cmd 3) (str "EX") then 1000 else 1

-- what the readers of k answer at the clock of env when k holds val up to the given instant
structure ReadsUntil (hash : Bytes → UInt64) (st : CmdState) (env : Env) (k val : Bytes)
    (instant : Int) : Prop where
  get : (cmdDispatch hash env st [str "GET", k]).2 = respReplyBulkString val ↔
    env.now.toInt < instant
  pttl : env.now.toInt < instant →
    (cmdDispatch hash env st [str "PTTL", k]).2 = integerReply (instant - env.now.toInt)
  ttl : env.now.toInt < instant → ∃ secs : Int,
    (cmdDispatch hash env st [str "TTL", k]).2 = integerReply secs ∧
      1000 * (secs - 1) < instant - env.now.toInt ∧ instant - env.now.toInt ≤ 1000 * secs

-- the two sums of lapse are the results of the multiplication and of the addition in cmd_set
structure ExpiresExactly (hash : Bytes → UInt64) (env : Env) (st : CmdState) (cmd : Command)
    (lapse : Int) : Prop where
  arithmetic : KvMap.fits lapse ∧ KvMap.fits (env.now.toInt + lapse)
  stored : ∃ e : Int64, e.toInt = env.now.toInt + lapse ∧
    (cmdDispatch hash env st cmd).1.store.toMap.lookup (argAt cmd 1) = some (argAt cmd 2, e)
  later : ∀ xs : List (Env × Command), (∀ x ∈ xs, Elsewhere (argAt cmd 1) x) →
    ∀ env1 : Env, env.now ≤ env1.now →
      ReadsUntil hash (Machine.run (dispatchStep hash) (cmdDispatch hash env st cmd).1 xs).1 env1
        (argAt cmd 1) (argAt cmd 2) (env.now.toInt + lapse)

theorem live_deadline {m : KvMap} {k val : Bytes} {e : Int64} (h : m.lookup k = some (val, e))
    (he : e ≠ 0) (t : Int64) :
    live expired m t k = if t.toInt < e.toInt then some (val, e) else none := by
  have hdead : expired e t = true ↔ ¬ t.toInt < e.toInt := by
    rw [expired, Bool.and_eq_true, decide_eq_true_eq, decide_eq_true_eq, Int64.le_iff_toInt_le,
      not_lt]
    exact and_iff_right he
  rw [live, h]
  by_cases ht : t.toInt < e.toInt
  · have hlive : expired e t = false := by
      rw [← Bool.not_eq_true, hdead, not_not]
      exact ht
    simp [ht, hlive]
  · simp [ht, hdead.mpr ht]

section Remaining

variable {e t : Int64} (h0 : 0 ≤ t.toInt) (ht : t.toInt < e.toInt)
include h0 ht

theorem toInt_remaining : (e - t).toInt = e.toInt - t.toInt := by
  have hb := toInt_bounds e
  rw [Int64.toInt_sub]
  exact Int.bmod_eq_of_le (by omega) (by omega)

theorem remaining_pos : e - t > 0 := by
  rw [gt_iff_lt, Int64.lt_iff_toInt_lt, toInt_remaining h0 ht, Int64.toInt_zero]
  omega

theorem ne_zero_of_remaining : e ≠ 0 := by
  rintro rfl
  rw [Int64.toInt_zero] at ht
  omega

theorem ttlOf_remaining : ttlOf e t = e - t := by
  rw [ttlOf, if_neg (ne_zero_of_remaining h0 ht), if_pos (remaining_pos h0 ht)]

theorem ttlReply_remaining (val : Bytes) (wantMs : Bool) :
    ttlReply wantMs t (some (val, e)) =
      respReplyInteger (if wantMs then e - t else (e - t + 999) / 1000) := by
  have hpos := remaining_pos h0 ht
  have hkey : e - t ≠ storeTtlNoKey := by
    intro h
    rw [h] at hpos
    exact absurd hpos (by decide)
  have hexp : e - t ≠ storeTtlNoExpiry := by
    intro h
    rw [h] at hpos
    exact absurd hpos (by decide)
  rw [ttlReply, ttlOf_remaining h0 ht, replyTtl, if_neg hkey, if_neg hexp]

end Remaining

theorem toInt_ceil {d : Int64} (h0 : 0 ≤ d.toInt) (h : d.toInt ≤ Int64.maxValue.toInt - 999) :
    ((d + 999) / 1000).toInt = (d.toInt + 999) / 1000 := by
  rw [Int64.toInt_maxValue] at h
  have hn : (999 : Int64).toInt = 999 := rfl
  have hk : (1000 : Int64).toInt = 1000 := rfl
  have hsum : (d + 999).toInt = d.toInt + 999 := by
    rw [Int64.toInt_add, hn]
    exact Int.bmod_eq_of_le (by omega) (by omega)
  rw [Int64.toInt_div_of_ne_right _ _ (by decide), hsum, hk, Int.tdiv_eq_ediv_of_nonneg (by omega)]

-- the sum passes INT64_MAX by less than 999, so the wrapped quotient is far below every reply code
theorem toInt_ceil_wraps {d : Int64} (h : Int64.maxValue.toInt - 999 < d.toInt) :
    ((d + 999) / 1000).toInt < -2 := by
  rw [Int64.toInt_maxValue] at h
  have hb := toInt_bounds d
  have hn : (999 : Int64).toInt = 999 := rfl
  have hk : (1000 : Int64).toInt = 1000 := rfl
  have hsum : (d + 999).toInt = d.toInt + 999 - 2 ^ 64 := by
    rw [Int64.toInt_add, hn, Int.bmod_eq_emod]
    split <;> omega
  have hneg := Int.neg_tdiv (d.toInt + 999 - 2 ^ 64) 1000
  rw [Int.tdiv_eq_ediv_of_nonneg (by omega)] at hneg
  rw [Int64.toInt_div_of_ne_right _ _ (by decide), hsum, hk]
  omega

theorem ofInt_thousand (n : Int64) : Int64.ofInt (1000 * n.toInt) = n * 1000 := by
  rw [Int64.ofInt_mul, Int64.ofInt_toInt, Int64.mul_comm]
  rfl

theorem ofInt_setScale (cmd : Command) (n : Int64) :
    Int64.ofInt (setScale cmd * n.toInt) =
      if argEqCi (argAt cmd 3) (str "EX") then n * 1000 else n := by
  unfold setScale
  split_ifs
  · exact ofInt_thousand n
  · rw [Int.one_mul, Int64.ofInt_toInt]

theorem setExpiry_ok {env : Env} {cmd : Command} {e : Int64} (hlen : cmd.length = 5)
    (h : setExpiry env cmd = .ok e) :
    ∃ n : Int64, Cmd.parseStrictLl (argAt cmd 4) = some n ∧ 0 < n.toInt ∧
      e = env.now + Int64.ofInt (setScale cmd * n.toInt) := by
  rw [setExpiry, if_pos hlen] at h
  simp only [← ofInt_setScale] at h
  split at h
  · cases h
  cases hn : Cmd.parseStrictLl (argAt cmd 4) with
  | none =>
    rw [hn] at h
    cases h
  | some n =>
    simp only [hn] at h
    split at h
    · cases h
    next hpos =>
      rw [Int64.le_iff_toInt_le, not_le] at hpos
      exact ⟨n, rfl, hpos, (Except.ok.inj h).symm⟩

theorem set_stored {st : CmdState} (hs : st.store.Inv hash) {env : Env} {cmd : Command}
    (hset : lookupCommand (argAt cmd 0) = some .set) (hlen : cmd.length = 5)
    (hok : (cmdDispatch hash env st cmd).2 = respReplySimpleString (str "OK")) :
    ∃ n : Int64, Cmd.parseStrictLl (argAt cmd 4) = some n ∧ 0 < n.toInt ∧
      (cmdDispatch hash env st cmd).1.store.toMap.lookup (argAt cmd 1) =
        some (argAt cmd 2, env.now + Int64.ofInt (setScale cmd * n.toInt)) := by
  rw [cmdDispatch_of_lookup hset] at hok ⊢
  simp only [CmdId.handler, cmdSet, hlen] at hok ⊢
  cases he : setExpiry env cmd with
  | error msg =>
    simp [he, respReplyError, respReplySimpleString] at hok
  | ok e =>
    obtain ⟨n, hn, hpos, rfl⟩ := setExpiry_ok hlen he
    have hmap := (storeSet_spec hs (argAt cmd 1) (argAt cmd 2)
      (env.now + Int64.ofInt (setScale cmd * n.toInt))).2.1
    refine ⟨n, hn, hpos, ?_⟩
    change (storeSet hash st.store (argAt cmd 1) (argAt cmd 2) _).1.toMap.lookup (argAt cmd 1) = _
    rw [hmap]
    exact Finmap.lookup_insert _

theorem readsUntil_of_lookup {st : CmdState} (hs : st.store.Inv hash) {k val : Bytes} {e : Int64}
    (hl : st.store.toMap.lookup k = some (val, e)) (he : e ≠ 0) {env : Env}
    (h0 : 0 ≤ env.now.toInt)
    (hceil : e.toInt - env.now.toInt ≤ Int64.maxValue.toInt - 999) :
    ReadsUntil hash st env k val e.toInt := by
  have hlive := live_deadline hl he env.now
  refine ⟨?_, fun ht => ?_, fun ht => ?_⟩
  · rw [get_reply hs, hlive]
    split_ifs with ht
    · exact iff_of_true rfl ht
    · exact iff_of_false (replyValue_ne val).symm ht
  · rw [pttl_command_reply hs, hlive, if_pos ht, ttlReply_remaining h0 ht, if_pos rfl,
      integerReply_eq, toInt_remaining h0 ht]
  · have hd := toInt_remaining h0 ht
    refine ⟨(e.toInt - env.now.toInt + 999) / 1000, ?_, by omega, by omega⟩
    rw [ttl_command_reply hs, hlive, if_pos ht, ttlReply_remaining h0 ht, if_neg (by decide),
      integerReply_eq, toInt_ceil (by omega) (by omega), hd]

-- past INT64_MAX - 999 the rounding of TTL wraps, so the bound on the lapse is forced as well
theorem lapse_le_of_readsUntil {st : CmdState} (hs : st.store.Inv hash) {k val : Bytes} {e : Int64}
    (hl : st.store.toMap.lookup k = some (val, e)) {env : Env} (h0 : 0 ≤ env.now.toInt)
    (ht : env.now.toInt < e.toInt) (h : ReadsUntil hash st env k val e.toInt) :
    e.toInt - env.now.toInt ≤ Int64.maxValue.toInt - 999 := by
  by_contra hover
  have hd := toInt_remaining h0 ht
  have hb := toInt_bounds e
  rw [← hd, not_le] at hover
  obtain ⟨secs, hreply, hlo, hhi⟩ := h.ttl ht
  have hfit : KvMap.fits secs := KvMap.fits_iff.mpr (by omega)
  rw [ttl_command_reply hs, live_deadline hl (ne_zero_of_remaining h0 ht), if_pos ht,
    ttlReply_remaining h0 ht, if_neg (by decide), ← respReplyInteger_ofInt hfit] at hreply
  have hsecs := congrArg Int64.toInt (respReplyInteger_injective hreply)
  rw [toInt_ofInt_of_fits hfit] at hsecs
  have hwrap := toInt_ceil_wraps hover
  rw [Int64.toInt_maxValue] at hover
  omega

theorem set_expires_exactly_iff {st : CmdState} (hs : StoreReachable hash st.store) {env : Env}
    (h0 : 0 ≤ env.now.toInt) {cmd : Command} (hset : lookupCommand (argAt cmd 0) = some .set)
    (hlen : cmd.length = 5)
    (hok : (cmdDispatch hash env st cmd).2 = respReplySimpleString (str "OK")) :
    ∃ n : Int64, Cmd.parseStrictLl (argAt cmd 4) = some n ∧ 0 < n.toInt ∧
      (ExpiresExactly hash env st cmd (setScale cmd * n.toInt) ↔
        env.now.toInt + setScale cmd * n.toInt ≤ Int64.maxValue.toInt ∧
          setScale cmd * n.toInt ≤ Int64.maxValue.toInt - 999) := by
  obtain ⟨n, hn, hpos, hlookup⟩ := set_stored hs.inv hset hlen hok
  refine ⟨n, hn, hpos, ?_⟩
  have hinv := cmdDispatch_inv hs.inv env cmd
  have hlapse : 0 < setScale cmd * n.toInt := by
    unfold setScale
    split_ifs <;> omega
  generalize setScale cmd * n.toInt = lapse at hlapse hlookup ⊢
  constructor
  · intro h
    have hsum := toInt_add_ofInt h.arithmetic.2
    have hnow := h.later [] (by simp) env (Int64.le_refl _)
    rw [← hsum] at hnow
    have hle := lapse_le_of_readsUntil hinv hlookup h0 (by omega) hnow
    exact ⟨h.arithmetic.2.2, by omega⟩
  · rintro ⟨hmax, hceil⟩
    rw [Int64.toInt_maxValue] at hmax
    have hfit : KvMap.fits (env.now.toInt + lapse) := KvMap.fits_iff.mpr (by omega)
    have hfit' : KvMap.fits lapse := KvMap.fits_iff.mpr (by omega)
    have hsum := toInt_add_ofInt hfit
    refine ⟨⟨hfit', hfit⟩, ⟨_, hsum, hlookup⟩, fun xs hxs env1 h1 => ?_⟩
    obtain ⟨hinv', hkeep⟩ := run_elsewhere hinv hxs
    rw [hlookup] at hkeep
    rw [Int64.le_iff_toInt_le] at h1
    rw [← hsum]
    apply readsUntil_of_lookup hinv' hkeep _ (by omega) (by omega)
    exact ne_zero_of_remaining h0 (by omega)

def emptyState : CmdState := ⟨storeCreate, [], 0⟩

theorem set_expires_exactly_px :
    ExpiresExactly fnv1aHash (counterEnv 7) counterState
      [str "set", str "a", str "v", str "px", str "5000"] 5000 := by
  obtain ⟨n, hn, -, hiff⟩ := @set_expires_exactly_iff fnv1aHash counterState
    counterState_reachable (counterEnv 7) (by decide)
    [str "set", str "a", str "v", str "px", str "5000"] (by decide +kernel) rfl (by decide +kernel)
  have hparse : Cmd.parseStrictLl (argAt [str "set", str "a", str "v", str "px", str "5000"] 4) =
      some 5000 := by decide +kernel
  rw [hparse] at hn
  cases hn
  have hscale : setScale [str "set", str "a", str "v", str "px", str "5000"] * (5000 : Int64).toInt =
      5000 := by decide +kernel
  rw [hscale] at hiff
  exact hiff.mpr (by decide)

def forever : Command := [str "SET", str "k", str "v", str "EX", str "9223372036854775807"]

theorem set_ex_wraps_into_the_past :
    StoreReachable fnv1aHash emptyState.store ∧
      Cmd.parseStrictLl (argAt forever 4) = some Int64.maxValue ∧
      (Machine.run (dispatchStep fnv1aHash) emptyState
        [(counterEnv 1700000000000, forever),
          (counterEnv 1700000000000, [str "GET", str "k"])]).2 = [str "+OK\r\n", str "$-1\r\n"] ∧
      ¬ ExpiresExactly fnv1aHash (counterEnv 1700000000000) emptyState forever
        (setScale forever * Int64.maxValue.toInt) := by
  refine ⟨⟨[], rfl⟩, by decide +kernel, by decide +kernel, fun h => ?_⟩
  exact absurd h.arithmetic.1 (by decide +kernel)

-- how the readers of k see it at the clock of env
structure SeenAs (hash : Bytes → UInt64) (st : CmdState) (env : Env) (k : Bytes) (present : Prop) :
    Prop where
  live : (live expired st.store.toMap env.now k).isSome ↔ present
  get : (cmdDispatch hash env st [str "GET", k]).2 ≠ respReplyNullBulk ↔ present
  existence : (cmdDispatch hash env st [str "EXISTS", k]).2 = respReplyInteger 1 ↔ present
  ttl : (cmdDispatch hash env st [str "TTL", k]).2 ≠ respReplyInteger (-2) ↔ present
  keys : ∃ ks, (cmdDispatch hash env st [str "KEYS", str "*"]).2 = keysReply ks ∧
    (k ∈ ks ↔ present)
  snapshot : ∃ es, persistImage st.store env.now = imageOf es ∧
    ((∃ e ∈ es, e.key = k) ↔ present)

structure DeadlineKept (hash : Bytes → UInt64) (env : Env) (st : CmdState) (cmd : Command)
    (deadline : Int) : Prop where
  stored : ∃ val e, e ≠ 0 ∧
    (cmdDispatch hash env st cmd).1.store.toMap.lookup (argAt cmd 1) = some (val, e)
  later : ∀ xs : List (Env × Command), (∀ x ∈ xs, Unwritten (argAt cmd 1) x) →
    ∀ env1 : Env, env.now ≤ env1.now → (∀ x ∈ xs, x.1.now ≤ env1.now) →
      SeenAs hash (Machine.run (dispatchStep hash) (cmdDispatch hash env st cmd).1 xs).1 env1
        (argAt cmd 1) (env1.now.toInt < deadline)

theorem replyTtl_ne_noKey {d : Int64} (h : 0 ≤ d.toInt) :
    replyTtl d false ≠ respReplyInteger (-2) := by
  have hneg : ∀ c : Int64, c.toInt < 0 → d ≠ c := by
    rintro c hc rfl
    omega
  rw [replyTtl, if_neg (hneg storeTtlNoKey (by decide)), if_neg (hneg storeTtlNoExpiry (by decide))]
  intro hreply
  have hq := congrArg Int64.toInt (respReplyInteger_injective hreply)
  rw [if_neg (by decide), show (-2 : Int64).toInt = -2 from rfl] at hq
  rcases le_or_gt d.toInt (Int64.maxValue.toInt - 999) with hle | hlt
  · rw [toInt_ceil h hle] at hq
    omega
  · have hwrap := toInt_ceil_wraps hlt
    omega

theorem ttlReply_ne_noKey (now : Int64) (p : Bytes × Int64) :
    ttlReply false now (some p) ≠ ttlReply false now none := by
  change replyTtl (ttlOf p.2 now) false ≠ respReplyInteger (-2)
  unfold ttlOf
  split_ifs with hz hpos
  · decide
  · rw [gt_iff_lt, Int64.lt_iff_toInt_lt] at hpos
    exact replyTtl_ne_noKey (Int.le_of_lt hpos)
  · exact replyTtl_ne_noKey (by decide)

theorem seenAs_live {st : CmdState} (hs : st.store.Inv hash) (env : Env) (k : Bytes) :
    SeenAs hash st env k (ExpiringMap.live expired st.store.toMap env.now k).isSome := by
  have hkeys := hs.toSound.mem_visited_keys env.now k
  refine ⟨Iff.rfl, ?_, ?_, ?_, ⟨_, keys_command_reply hs env, hkeys⟩,
    ⟨_, persistImage_eq hs.toSound env.now, ?_⟩⟩
  · rw [get_reply hs]
    cases ExpiringMap.live expired st.store.toMap env.now k with
    | none => simp [replyValue]
    | some p => exact iff_of_true (replyValue_ne p.1) rfl
  · rw [exists_reply hs]
    cases ExpiringMap.live expired st.store.toMap env.now k with
    | none => decide
    | some p => simp
  · rw [ttl_command_reply hs]
    cases ExpiringMap.live expired st.store.toMap env.now k with
    | none => exact iff_of_false (fun h => h rfl) (by simp)
    | some p => exact iff_of_true (ttlReply_ne_noKey env.now p) rfl
  · rw [← hkeys, List.mem_map]

theorem expire_stored {st : CmdState} (hs : st.store.Inv hash) {env : Env} {cmd : Command}
    (hexp : lookupCommand (argAt cmd 0) = some .expire) (hlen : cmd.length = 3) {n : Int64}
    (hn : Cmd.parseStrictLl (argAt cmd 2) = some n) {p : Bytes × Int64}
    (hlive : live expired st.store.toMap env.now (argAt cmd 1) = some p) :
    (cmdDispatch hash env st cmd).2 = respReplyInteger 1 ∧
      (cmdDispatch hash env st cmd).1.store.toMap.lookup (argAt cmd 1) =
        some (p.1, env.now + Int64.ofInt (1000 * n.toInt)) := by
  obtain ⟨-, hmap, hcount⟩ := storeExpire_spec hs (argAt cmd 1) (env.now + n * 1000) env.now
  rw [KvMap.expire, KvMap.purge, lookup_purge, hlive] at hmap hcount
  rw [cmdDispatch_of_lookup hexp, ofInt_thousand]
  simp only [CmdId.handler, cmdExpire, hlen, hn]
  simp only [ne_eq, not_true_eq_false, if_false, hmap, hcount]
  exact ⟨rfl, Finmap.lookup_insert _⟩

theorem expire_keeps_deadline_iff {st : CmdState} (hs : StoreReachable hash st.store) {env : Env}
    {cmd : Command} (hexp : lookupCommand (argAt cmd 0) = some .expire) (hlen : cmd.length = 3)
    {n : Int64} (hn : Cmd.parseStrictLl (argAt cmd 2) = some n)
    (hlive : (live expired st.store.toMap env.now (argAt cmd 1)).isSome)
    (hfit : KvMap.fits (env.now.toInt + 1000 * n.toInt)) :
    (cmdDispatch hash env st cmd).2 = respReplyInteger 1 ∧
      (DeadlineKept hash env st cmd (env.now.toInt + 1000 * n.toInt) ↔
        env.now.toInt + 1000 * n.toInt ≠ 0) := by
  obtain ⟨p, hp⟩ := Option.isSome_iff_exists.mp hlive
  obtain ⟨hreply, hlookup⟩ := expire_stored hs.inv hexp hlen hn hp
  have hinv := cmdDispatch_inv hs.inv env cmd
  have hdeadline := toInt_add_ofInt hfit
  refine ⟨hreply, ?_⟩
  rw [← hdeadline]
  constructor
  · intro h hzero
    obtain ⟨val, e, hne, hstored⟩ := h.stored
    rw [hlookup, Option.some.injEq, Prod.mk.injEq] at hstored
    apply hne
    rw [← hstored.2]
    exact Int64.toInt_inj.mp hzero
  · intro hzero
    have hne : env.now + Int64.ofInt (1000 * n.toInt) ≠ 0 := by
      intro h
      rw [h] at hzero
      exact hzero rfl
    refine ⟨⟨_, _, hne, hlookup⟩, fun xs hxs env1 _ hclock => ?_⟩
    obtain ⟨hinv', hsame⟩ := run_unwritten hinv hxs hclock
    have hseen := seenAs_live hinv' env1 (argAt cmd 1)
    have hiff : (live expired (Machine.run (dispatchStep hash) (cmdDispatch hash env st cmd).1
        xs).1.store.toMap env1.now (argAt cmd 1)).isSome ↔
        env1.now.toInt < (env.now + Int64.ofInt (1000 * n.toInt)).toInt := by
      rw [hsame, live_deadline hlookup hne]
      split_ifs with ht
      · exact iff_of_true rfl ht
      · exact iff_of_false (by simp) ht
    rwa [propext hiff] at hseen

theorem expire_keeps_deadline_negative :
    (cmdDispatch fnv1aHash (counterEnv 7) counterState [str "EXPIRE", str "a", str "-3"]).2 =
        respReplyInteger 1 ∧
      DeadlineKept fnv1aHash (counterEnv 7) counterState [str "EXPIRE", str "a", str "-3"]
        (-2993) := by
  obtain ⟨hreply, hiff⟩ := @expire_keeps_deadline_iff fnv1aHash counterState
    counterState_reachable (counterEnv 7) [str "EXPIRE", str "a", str "-3"] (by decide +kernel) rfl
    (-3) (by decide +kernel) (by decide +kernel) (by decide)
  exact ⟨hreply, hiff.mpr (by decide)⟩

def persistedByExpire : Command := [str "EXPIRE", str "a", str "-1"]

theorem expire_at_zero_removes_expiry :
    StoreReachable fnv1aHash counterState.store ∧
      live expired counterState.store.toMap 1000 (str "a") = some (str "1", 0) ∧
      (Machine.run (dispatchStep fnv1aHash) counterState
        [(counterEnv 1000, persistedByExpire), (counterEnv 2000, [str "GET", str "a"]),
          (counterEnv 2000, [str "TTL", str "a"])]).2 =
        [str ":1\r\n", str "$1\r\n1\r\n", str ":-1\r\n"] ∧
      ¬ DeadlineKept fnv1aHash (counterEnv 1000) counterState persistedByExpire
        ((1000 : Int64).toInt + 1000 * (-1 : Int64).toInt) := by
  refine ⟨counterState_reachable, by decide +kernel, by decide +kernel, fun h => ?_⟩
  have hget := (h.later [] (by simp) (counterEnv 2000) (by decide) (by simp)).get
  exact absurd (hget.mp (by decide +kernel)) (by decide)

end RedisServer

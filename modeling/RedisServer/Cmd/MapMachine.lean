import RedisServer.Cmd.KeySpace
import RedisServer.Cmd.Requests

namespace RedisServer

open ExpiringMap PrefixCode

variable {hash : Bytes → UInt64}

-- the store holds m, save for dead entries that a lookup has dropped
structure Mirrors (hash : Bytes → UInt64) (now : Int64) (s : Store) (m : KvMap) : Prop where
  inv : s.Inv hash
  lags : Lags expired s.toMap m now

namespace Mirrors

variable {s : Store} {m : KvMap} {now : Int64}

theorem later {t : Int64} (h : Mirrors hash now s m) (ht : now ≤ t) : Mirrors hash t s m :=
  ⟨h.inv, h.lags.later expired_mono ht⟩

theorem purged (h : Mirrors hash now s m) (k : Bytes) :
    Lags expired (s.toMap.purge k now) m now :=
  h.lags.purge expired_mono (Int64.le_refl now) k

theorem get (h : Mirrors hash now s m) (k : Bytes) :
    Mirrors hash now (storeGet hash s k now).1 m ∧
      (storeGet hash s k now).2 = (live expired m now k).map Prod.fst := by
  obtain ⟨hi, hm, hr⟩ := storeGet_spec h.inv k now
  refine ⟨⟨hi, hm ▸ h.purged k⟩, ?_⟩
  rw [hr, KvMap.get, KvMap.purge, h.lags.lookup_purge]

theorem «exists» (h : Mirrors hash now s m) (k : Bytes) :
    Mirrors hash now (storeExists hash s k now).1 m ∧
      (storeExists hash s k now).2 = if (live expired m now k).isSome then 1 else 0 := by
  obtain ⟨hi, hm, hr⟩ := storeExists_spec h.inv k now
  refine ⟨⟨hi, hm ▸ h.purged k⟩, ?_⟩
  have hmem : k ∈ s.toMap.purge k now ↔ (live expired m now k).isSome := by
    rw [← Finmap.lookup_isSome, KvMap.purge, h.lags.lookup_purge]
  rw [hr, KvMap.has, if_congr hmem rfl rfl]

theorem ttlMs (h : Mirrors hash now s m) (k : Bytes) :
    Mirrors hash now (storeTtlMs hash s k now now).1 m ∧
      (storeTtlMs hash s k now now).2 =
        (live expired m now k).elim storeTtlNoKey (fun p => ttlOf p.2 now) := by
  obtain ⟨hi, hm, hr⟩ := storeTtlMs_spec h.inv k now now
  have hlookup := h.lags.lookup_purge k
  rw [KvMap.ttlMs, KvMap.purge, hlookup] at hm hr
  have hpurged := h.purged k
  rw [KvMap.purge] at hpurged
  cases hl : live expired m now k with
  | none =>
    rw [hl] at hm hr
    exact ⟨⟨hi, hm ▸ hpurged⟩, hr⟩
  | some p =>
    rw [hl] at hm hr
    exact ⟨⟨hi, hm ▸ hpurged⟩, hr⟩

theorem set (h : Mirrors hash now s m) (k v : Bytes) (e : Int64) :
    Mirrors hash now (storeSet hash s k v e).1 (m.insert k (v, e)) := by
  obtain ⟨hi, hm, -⟩ := storeSet_spec h.inv k v e
  exact ⟨hi, hm ▸ h.lags.insert k (v, e)⟩

theorem del (h : Mirrors hash now s m) (k : Bytes) :
    Mirrors hash now (storeDel hash s k).1 (m.erase k) := by
  obtain ⟨hi, hm, -⟩ := storeDel_spec h.inv k
  exact ⟨hi, hm ▸ h.lags.erase k⟩

theorem flush (h : Mirrors hash now s m) : Mirrors hash now (storeFlush s).1 ∅ := by
  obtain ⟨hi, hm, -⟩ := storeFlush_spec h.inv
  exact ⟨hi, hm ▸ .refl ∅ now⟩

theorem insert_purged (h : Mirrors hash now s m) (k : Bytes) (p : Bytes × Int64) :
    Lags expired ((s.toMap.purge k now).insert k p) (m.insert k p) now :=
  (h.purged k).insert k p

theorem expire (h : Mirrors hash now s m) (k : Bytes) (e : Int64) :
    Mirrors hash now (storeExpire hash s k e now).1
        ((live expired m now k).elim m (fun p => m.insert k (p.1, e))) ∧
      (storeExpire hash s k e now).2 = if (live expired m now k).isSome then 1 else 0 := by
  obtain ⟨hi, hm, hr⟩ := storeExpire_spec h.inv k e now
  have hlookup := h.lags.lookup_purge k
  rw [KvMap.expire, KvMap.purge, hlookup] at hm hr
  cases hl : live expired m now k with
  | none =>
    rw [hl] at hm hr
    exact ⟨⟨hi, hm ▸ h.purged k⟩, hr⟩
  | some p =>
    rw [hl] at hm hr
    exact ⟨⟨hi, hm ▸ h.insert_purged k (p.1, e)⟩, hr⟩

-- the map and the answer that an accepted or a rejected increment leads to
def Counted (hash : Bytes → UInt64) (now : Int64) (k : Bytes) (m : KvMap) (x : Store × StoreIncr) :
    Except Bytes (Int × Int64) → Prop
  | .error msg => Mirrors hash now x.1 m ∧ replyIncrResult x.2 = respReplyError msg
  | .ok r => Mirrors hash now x.1 (m.insert k (Decimal.ofInt r.1, r.2)) ∧
      ∃ v, v.toInt = r.1 ∧ replyIncrResult x.2 = respReplyInteger v

theorem incrby (h : Mirrors hash now s m) (k : Bytes) (delta : Int64) :
    Counted hash now k m (storeIncrby hash s k delta now) (counted delta (live expired m now k)) := by
  obtain ⟨hi, hm, hr⟩ := storeIncrby_spec h.inv k delta now
  have hlookup := h.lags.lookup_purge k
  rw [KvMap.incrby, KvMap.purge, hlookup] at hm hr
  have hpurged := h.purged k
  rw [KvMap.purge] at hpurged
  cases hl : live expired m now k with
  | none =>
    have hzero : (0 : Int64).toInt + delta.toInt = delta.toInt := by simp
    rw [hl] at hm hr
    simp only [KvMap.add, hzero, if_pos (fits_toInt delta)] at hm hr
    refine ⟨⟨hi, hm ▸ hpurged.insert k _⟩, Int64.ofInt delta.toInt, ?_, by rw [hr]; rfl⟩
    rw [Int64.ofInt_toInt]
  | some p =>
    rw [hl] at hm hr
    simp only [counted] at hm hr ⊢
    cases hp : strictLl p.1 with
    | none =>
      rw [hp] at hm hr
      exact ⟨⟨hi, hm ▸ hpurged⟩, by rw [hr]; rfl⟩
    | some current =>
      rw [hp] at hm hr
      simp only [KvMap.add] at hm hr ⊢
      by_cases hf : KvMap.fits (current.toInt + delta.toInt)
      · rw [if_pos hf] at hm hr ⊢
        exact ⟨⟨hi, hm ▸ hpurged.insert k _⟩, _, toInt_ofInt_of_fits hf, by rw [hr]; rfl⟩
      · rw [if_neg hf] at hm hr ⊢
        exact ⟨⟨hi, hm ▸ hpurged⟩, by rw [hr]; rfl⟩

theorem existsLoop (h : Mirrors hash now s m) (ks : List Bytes) (n : Nat) :
    Mirrors hash now (countLoop (fun s k => storeExists hash s k now) ks s n).1 m ∧
      (countLoop (fun s k => storeExists hash s k now) ks s n).2 =
        n + ks.countP (fun k => (live expired m now k).isSome) := by
  induction ks generalizing s n with
  | nil => exact ⟨h, rfl⟩
  | cons k ks ih =>
    obtain ⟨hk, hr⟩ := h.exists k
    obtain ⟨hks, hn⟩ := ih hk (n + (storeExists hash s k now).2)
    refine ⟨hks, hn.trans ?_⟩
    rw [hr, List.countP_cons, Nat.add_assoc, Nat.add_comm (ks.countP _)]

theorem mgetLoop (h : Mirrors hash now s m) (ks : List Bytes) (out : Bytes) :
    Mirrors hash now (mgetLoop hash now ks s out).1 m ∧
      (RedisServer.mgetLoop hash now ks s out).2 =
        out ++ (ks.map (fun k => replyValue ((live expired m now k).map Prod.fst))).flatten := by
  induction ks generalizing s out with
  | nil => exact ⟨h, (List.append_nil out).symm⟩
  | cons k ks ih =>
    obtain ⟨hk, hr⟩ := h.get k
    obtain ⟨hks, hout⟩ := ih hk (out ++ replyValue (storeGet hash s k now).2)
    refine ⟨hks, hout.trans ?_⟩
    rw [hr, List.map_cons, List.flatten_cons, List.append_assoc]

theorem msetLoop (h : Mirrors hash now s m) (kvs : List Bytes) :
    Mirrors hash now (msetLoop hash kvs s)
      ((pairsOf kvs).foldl (fun m p => m.insert p.1 (p.2, 0)) m) := by
  induction kvs, s using msetLoop.induct hash generalizing m with
  | case1 key val rest s ih =>
    rw [RedisServer.msetLoop, pairsOf, List.foldl_cons]
    exact ih (h.set key val 0)
  | case2 kvs s hne =>
    rw [RedisServer.msetLoop, pairsOf]
    · exact h
    · exact hne
    · exact hne

theorem delLoop (h : Mirrors hash now s m) (ks : List Bytes) (n : Nat) :
    Mirrors hash now (countLoop (storeDel hash) ks s n).1 (ks.foldl (fun m k => m.erase k) m) := by
  induction ks generalizing s m n with
  | nil => exact h
  | cons k ks ih => exact ih (h.del k) _

theorem del_bounds (h : Mirrors hash now s m) (ks : List Bytes) :
    (ks.toFinset.filter (fun k => (live expired m now k).isSome)).card ≤
        (countLoop (storeDel hash) ks s 0).2 ∧
      (countLoop (storeDel hash) ks s 0).2 ≤ (ks.toFinset.filter (· ∈ m)).card := by
  rw [(countLoop_del h.inv ks 0).2, Nat.zero_add, KvMap.listed]
  exact ⟨Finset.card_le_card (Finset.monotone_filter_right _ (fun _ _ hk => h.lags.live_mem hk)),
    Finset.card_le_card (Finset.monotone_filter_right _ (fun k _ hk => h.lags.within k hk))⟩

theorem size_bounds (h : Mirrors hash now s m) :
    (m.keys.filter (fun k => (live expired m now k).isSome)).card ≤ storeSize s ∧
      storeSize s ≤ m.keys.card := by
  rw [h.inv.toSound.storeSize_eq, ← KeyedList.card_keys_toMap h.inv.toSound.nodup]
  refine ⟨Finset.card_le_card (fun k hk => ?_), Finset.card_le_card (fun k hk => ?_)⟩
  · exact Finmap.mem_keys.mpr (h.lags.live_mem (Finset.mem_filter.mp hk).2)
  · exact Finmap.mem_keys.mpr (h.lags.within k (Finmap.mem_keys.mp hk))

end Mirrors

section Replies

theorem wire_integer (v : Int64) : Wire (.integer v.toInt) (respReplyInteger v) := by
  unfold respReplyInteger formatLld Decimal.ofInt
  split_ifs with hneg
  · have h := Wire.negative (isDecimal_ofNat v.toInt.natAbs)
    rw [Decimal.value_ofNat] at h
    have hv : v.toInt = -(v.toInt.natAbs : Int) := by omega
    rw [← hv] at h
    exact h
  · have h := Wire.natural (isDecimal_ofNat v.toInt.natAbs)
    rw [Decimal.value_ofNat] at h
    have hv : v.toInt = (v.toInt.natAbs : Int) := by omega
    rw [← hv] at h
    exact h

theorem wire_entry (p : Option (Bytes × Int64)) :
    Wire (p.elim .null (fun q => .bulk q.1)) (replyValue (p.map Prod.fst)) := by
  cases p with
  | none => exact wire_nullBulk
  | some q => exact wire_bulkString q.1

theorem wire_list {α : Type} {v : α → Resp} {r : α → Bytes} (h : ∀ a, Wire (v a) (r a))
    (as : List α) :
    Wire (.array (as.map v)) (respReplyArrayHeader as.length ++ (as.map r).flatten) := by
  have hitems : ∀ p ∈ as.map (fun a => (v a, r a)), Wire p.1 p.2 := by
    intro p hp
    obtain ⟨a, -, rfl⟩ := List.mem_map.mp hp
    exact h a
  simpa [payload, Function.comp_def] using wire_array hitems

theorem toInt_ttlOf_nonneg {e : Int64} (he : e ≠ 0) (now : Int64) : 0 ≤ (ttlOf e now).toInt := by
  rw [ttlOf, if_neg he]
  split_ifs with hpos
  · rw [gt_iff_lt, Int64.lt_iff_toInt_lt] at hpos
    exact Int.le_of_lt hpos
  · exact le_rfl

theorem replyTtl_eq (wantMs : Bool) (now : Int64) (p : Option (Bytes × Int64)) :
    replyTtl (p.elim storeTtlNoKey (fun q => ttlOf q.2 now)) wantMs =
      respReplyInteger (ttlAnswer wantMs now p) := by
  cases p with
  | none => rfl
  | some q =>
    rw [Option.elim_some, ttlAnswer]
    by_cases hz : q.2 = 0
    · rw [if_pos hz, ttlOf, if_pos hz]
      rfl
    · have hnonneg := toInt_ttlOf_nonneg hz now
      have hne : ∀ c : Int64, c.toInt < 0 → ttlOf q.2 now ≠ c := by
        rintro c hc rfl
        omega
      rw [if_neg hz, replyTtl, if_neg (hne _ (by decide)), if_neg (hne _ (by decide))]

theorem isLine_wrongArity (cmd : Command) : IsLine (wrongArityMsg cmd) :=
  ((IsLine.append (by decide +kernel) (isLine_safeToken _ _)).append (by decide +kernel)).take _

theorem isLine_unknown (name : Bytes) : IsLine (unknownMsg name) :=
  ((IsLine.append (by decide +kernel) (isLine_safeToken _ _)).append (by decide +kernel)).take _

theorem isLine_counted {delta : Int64} {p : Option (Bytes × Int64)} {msg : Bytes}
    (h : counted delta p = .error msg) : IsLine msg := by
  cases p with
  | none => cases h
  | some q =>
    rw [counted] at h
    cases hl : strictLl q.1 with
    | none =>
      rw [hl] at h
      cases h
      decide +kernel
    | some current =>
      rw [hl] at h
      simp only at h
      split_ifs at h
      cases h
      decide +kernel

theorem setExpiry_eq (env : Env) (cmd : Command) :
    setExpiry env cmd = (setTtl cmd).map (deadline env.now) := by
  rw [setExpiry, setTtl]
  by_cases hl : cmd.length = 5
  · simp only [if_pos hl]
    cases Cmd.parseStrictLl (argAt cmd 4) with
    | none => split_ifs <;> rfl
    | some n =>
      simp only
      split_ifs <;> rfl
  · rw [if_neg hl, if_neg hl]
    rfl

end Replies

structure Shows (hash : Bytes → UInt64) (now : Int64) (st : CmdState) (σ : KvServer) : Prop where
  mirrors : Mirrors hash now st.store σ.map
  savePath : st.savePath = σ.savePath
  lastsaveTime : st.lastsaveTime = σ.lastsaveTime

-- x is what a handler makes of a request, or of arguments that are none
def Meets (hash : Bytes → UInt64) (env : Env) (σ : KvServer) (x : CmdState × Bytes) :
    Except Bytes Request → Prop
  | .error msg => Shows hash env.now x.1 σ ∧ Wire (.error msg) x.2
  | .ok req => Shows hash env.now x.1 (req.after env σ) ∧ ∃ v, req.Answers env σ v ∧ Wire v x.2

section Handlers

variable {env : Env} {st : CmdState} {σ : KvServer} (h : Shows hash env.now st σ)
include h

theorem Shows.with_store {s : Store} {m : KvMap} (hs : Mirrors hash env.now s m) :
    Shows hash env.now { st with store := s } { σ with map := m } :=
  ⟨hs, h.savePath, h.lastsaveTime⟩

theorem Shows.rejects {msg : Bytes} (hmsg : IsLine msg) :
    Meets hash env σ (st, respReplyError msg) (.error msg) := ⟨h, .error hmsg⟩

theorem Shows.arity {wrong : Prop} [Decidable wrong] {cmd : Command} {x : CmdState × Bytes}
    {r : Except Bytes Request} (hx : Meets hash env σ x r) :
    Meets hash env σ (if wrong then (st, replyWrongArity cmd) else x)
      (arityCheck wrong cmd r) := by
  rw [arityCheck]
  split_ifs
  · exact h.rejects (isLine_wrongArity cmd)
  · exact hx

theorem Shows.meets_set (cmd : Command) :
    Meets hash env σ (cmdSet hash env st cmd) (CmdId.set.request cmd) := by
  refine h.arity ?_
  rw [setRequest, setExpiry_eq]
  cases ht : setTtl cmd with
  | error msg =>
    have hmsg : setExpiry env cmd = .error msg := by rw [setExpiry_eq, ht]; rfl
    exact h.rejects (isLine_setExpiry hmsg)
  | ok ttl => exact ⟨h.with_store (h.mirrors.set _ _ _), _, rfl, .simple (by decide)⟩

theorem Shows.meets_keys (cmd : Command) :
    Meets hash env σ (cmdKeys env st cmd) (CmdId.keys.request cmd) := by
  refine h.arity ?_
  rw [keysRequest]
  split_ifs
  · exact h.rejects (by decide +kernel)
  · have hsound := h.mirrors.inv.toSound
    refine ⟨h, _, ⟨(st.store.visited env.now).map Entry.key, hsound.visited_nodup env.now, ?_, rfl⟩,
      ?_⟩
    · intro k
      rw [hsound.mem_visited_keys, KvServer.entry, h.mirrors.lags.agree k]
    · have hwire := wire_list wire_bulkString ((st.store.visited env.now).map Entry.key)
      rw [← keysReply, ← keys_reply_eq hsound] at hwire
      exact hwire

theorem Shows.meets_expire (cmd : Command) :
    Meets hash env σ (cmdExpire hash env st cmd) (CmdId.expire.request cmd) := by
  refine h.arity ?_
  rw [expireRequest]
  cases Cmd.parseStrictLl (argAt cmd 2) with
  | none => exact h.rejects (by decide +kernel)
  | some seconds =>
    obtain ⟨hm, hr⟩ := h.mirrors.expire (argAt cmd 1) (env.now + seconds * 1000)
    have hshows := h.with_store hm
    cases hl : live expired σ.map env.now (argAt cmd 1) with
    | none =>
      rw [hl] at hshows hr
      refine ⟨?_, .integer 0, ?_, ?_⟩
      · simp only [Request.after, KvServer.entry, hl]
        exact hshows
      · simp [Request.Answers, KvServer.entry, hl]
      · simp only [hr]
        exact wire_integer 0
    | some p =>
      rw [hl] at hshows hr
      refine ⟨?_, .integer 1, ?_, ?_⟩
      · simp only [Request.after, KvServer.entry, hl]
        exact hshows
      · simp [Request.Answers, KvServer.entry, hl]
      · simp only [hr]
        exact wire_integer 1

theorem Shows.meets_incr (key : Bytes) (delta : Int64) :
    Meets hash env σ (incrStep hash env st key delta) (.ok (.incrby key delta)) := by
  have hc := h.mirrors.incrby key delta
  simp only [Meets, Request.after, Request.Answers, KvServer.entry]
  cases hr : counted delta (live expired σ.map env.now key) with
  | error msg =>
    rw [hr] at hc
    refine ⟨h.with_store hc.1, _, rfl, ?_⟩
    rw [incrStep, hc.2]
    exact .error (isLine_counted hr)
  | ok r =>
    rw [hr] at hc
    obtain ⟨hm, v, hv, hreply⟩ := hc
    refine ⟨h.with_store hm, _, rfl, ?_⟩
    rw [incrStep, hreply, ← hv]
    exact wire_integer v

theorem Shows.meets_incrby (cmd : Command) (negate : Bool) :
    Meets hash env σ (cmdIncrbyGeneric hash negate env st cmd)
      (arityCheck (cmd.length ≠ 3) cmd (incrbyRequest cmd negate)) := by
  refine h.arity ?_
  rw [incrbyRequest]
  cases Cmd.parseStrictLl (argAt cmd 2) with
  | none => exact h.rejects (by decide +kernel)
  | some delta =>
    simp only
    split_ifs
    · exact h.rejects (by decide +kernel)
    · exact h.meets_incr _ _
    · exact h.meets_incr _ _

theorem Shows.meets_ttl (cmd : Command) (wantMs : Bool) :
    Meets hash env σ (cmdTtlGeneric hash wantMs env st cmd)
      (arityCheck (cmd.length ≠ 2) cmd (.ok (.ttl (argAt cmd 1) wantMs))) := by
  refine h.arity ?_
  obtain ⟨hm, hr⟩ := h.mirrors.ttlMs (argAt cmd 1)
  refine ⟨h.with_store hm, _, rfl, ?_⟩
  simp only [hr, replyTtl_eq]
  exact wire_integer _

theorem Shows.meets_save (cmd : Command) :
    Meets hash env σ (cmdSave env st cmd) (CmdId.save.request cmd) := by
  refine h.arity ?_
  rw [doSave, h.savePath]
  simp only [Meets, Request.after, Request.Answers]
  by_cases hp : σ.savePath = []
  · rw [if_pos hp, if_neg (fun hn => hn.1 hp)]
    exact ⟨h, _, rfl, by rw [if_pos hp]; exact .error (by decide +kernel)⟩
  · rw [if_neg hp]
    by_cases hs : env.saveStatus = .ok
    · rw [if_neg (fun hn => hn hs), if_pos ⟨hp, hs⟩]
      refine ⟨⟨h.mirrors, rfl, rfl⟩, _, rfl, ?_⟩
      rw [if_neg hp, if_neg (fun hn => hn hs)]
      exact .simple (by decide)
    · rw [if_pos hs, if_neg (fun hn => hs hn.2)]
      refine ⟨h, _, rfl, ?_⟩
      rw [if_neg hp, if_pos hs]
      exact .error ((IsLine.append (by decide) (isLine_strerror _)).take _)

theorem Shows.meets_bgsave (cmd : Command) :
    Meets hash env σ (cmdBgsave env st cmd) (CmdId.bgsave.request cmd) := by
  refine h.arity ?_
  rw [h.savePath]
  simp only [Meets, Request.after, Request.Answers]
  by_cases hp : σ.savePath = []
  · rw [if_pos hp, if_neg (fun hn => hn.1 hp)]
    exact ⟨h, _, rfl, by rw [if_pos hp]; exact .error (by decide +kernel)⟩
  · rw [if_neg hp]
    cases hf : env.forkFails with
    | false =>
      rw [if_neg Bool.false_ne_true, if_pos ⟨hp, rfl⟩]
      refine ⟨⟨h.mirrors, rfl, rfl⟩, _, rfl, ?_⟩
      rw [if_neg hp, if_neg Bool.false_ne_true]
      exact .simple (by decide)
    | true =>
      rw [if_pos rfl, if_neg (fun hn => Bool.noConfusion hn.2)]
      refine ⟨h, _, rfl, ?_⟩
      rw [if_neg hp, if_pos rfl]
      exact .error (by decide)

theorem Shows.meets_mget (cmd : Command) :
    Meets hash env σ (cmdMget hash env st cmd) (CmdId.mget.request cmd) := by
  refine h.arity ?_
  obtain ⟨hm, hr⟩ := h.mirrors.mgetLoop (cmd.drop 1) (respReplyArrayHeader (cmd.length - 1))
  refine ⟨h.with_store hm, _, rfl, ?_⟩
  have hwire := wire_list (fun k => wire_entry (live expired σ.map env.now k)) (cmd.drop 1)
  rw [List.length_drop] at hwire
  simp only [hr]
  exact hwire

theorem Shows.meets_ping (cmd : Command) :
    Meets hash env σ (cmdPing env st cmd) (CmdId.ping.request cmd) := by
  refine h.arity ?_
  split_ifs
  · exact ⟨h, _, rfl, wire_bulkString _⟩
  · exact ⟨h, _, rfl, .simple (by decide)⟩

theorem Shows.meets (id : CmdId) (cmd : Command) :
    Meets hash env σ (id.handler hash env st cmd) (id.request cmd) := by
  cases id with
  | ping => exact h.meets_ping cmd
  | echo => exact h.arity ⟨h, _, rfl, wire_bulkString _⟩
  | set => exact h.meets_set cmd
  | get =>
    obtain ⟨hm, hr⟩ := h.mirrors.get (argAt cmd 1)
    refine h.arity ⟨h.with_store hm, _, rfl, ?_⟩
    rw [hr]
    exact wire_entry _
  | mget => exact h.meets_mget cmd
  | mset => exact h.arity ⟨h.with_store (h.mirrors.msetLoop _), _, rfl, .simple (by decide)⟩
  | del =>
    obtain ⟨hlo, hhi⟩ := h.mirrors.del_bounds (cmd.drop 1)
    exact h.arity ⟨h.with_store (h.mirrors.delLoop _ 0), _, ⟨_, rfl, hlo, hhi⟩, wire_integer _⟩
  | «exists» =>
    obtain ⟨hm, hr⟩ := h.mirrors.existsLoop (cmd.drop 1) 0
    refine h.arity ⟨h.with_store hm, _, rfl, ?_⟩
    rw [hr, Nat.zero_add]
    exact wire_integer _
  | keys => exact h.meets_keys cmd
  | expire => exact h.meets_expire cmd
  | ttl => exact h.meets_ttl cmd false
  | pttl => exact h.meets_ttl cmd true
  | incr => exact h.arity (h.meets_incr _ _)
  | decr => exact h.arity (h.meets_incr _ _)
  | incrby => exact h.meets_incrby cmd false
  | decrby => exact h.meets_incrby cmd true
  | dbsize =>
    obtain ⟨hlo, hhi⟩ := h.mirrors.size_bounds
    exact h.arity ⟨h, _, ⟨_, rfl, hlo, hhi⟩, wire_integer _⟩
  | flushdb => exact h.arity ⟨h.with_store h.mirrors.flush, _, rfl, .simple (by decide)⟩
  | save => exact h.meets_save cmd
  | bgsave => exact h.meets_bgsave cmd
  | lastsave => exact h.arity ⟨h, _, rfl, h.lastsaveTime ▸ wire_integer _⟩

end Handlers

def Encodes : Option Resp → Bytes → Prop
  | none, r => r = []
  | some v, r => Wire v r

theorem Shows.step {env : Env} {st : CmdState} {σ : KvServer} (h : Shows hash env.now st σ)
    (cmd : Command) :
    ∃ v σ', KvServer.Step env σ cmd v σ' ∧ Encodes v (cmdDispatch hash env st cmd).2 ∧
      Shows hash env.now (cmdDispatch hash env st cmd).1 σ' := by
  by_cases hnil : cmd = []
  · subst hnil
    exact ⟨none, σ, .blank, rfl, h⟩
  · have hmeets : Meets hash env σ (cmdDispatch hash env st cmd) (request cmd) := by
      rw [cmdDispatch, if_neg (by simpa using hnil), request]
      cases lookupCommand (argAt cmd 0) with
      | none => exact h.rejects (isLine_unknown _)
      | some id => exact h.meets id cmd
    cases hreq : request cmd with
    | error msg =>
      rw [hreq] at hmeets
      exact ⟨_, σ, .rejected hnil hreq, hmeets.2, hmeets.1⟩
    | ok req =>
      rw [hreq] at hmeets
      obtain ⟨hshows, v, hanswer, hwire⟩ := hmeets
      exact ⟨some v, _, .served hnil hreq hanswer, hwire, hshows⟩

theorem Shows.later {t t' : Int64} {st : CmdState} {σ : KvServer} (h : Shows hash t st σ)
    (ht : t ≤ t') : Shows hash t' st σ :=
  ⟨h.mirrors.later ht, h.savePath, h.lastsaveTime⟩

theorem Shows.runs {t : Int64} {st : CmdState} {σ : KvServer} (h : Shows hash t st σ)
    {calls : List (Env × Command)}
    (hclock : (t :: calls.map (fun x => x.1.now)).Pairwise (· ≤ ·)) :
    ∃ vs σ', KvServer.Runs σ calls vs σ' ∧
      List.Forall₂ Encodes vs (Machine.run (dispatchStep hash) st calls).2 ∧
      Shows hash (calls.foldl (fun _ x => x.1.now) t)
        (Machine.run (dispatchStep hash) st calls).1 σ' := by
  induction calls generalizing t st σ with
  | nil => exact ⟨[], σ, .done σ, .nil, h⟩
  | cons x calls ih =>
    obtain ⟨hle, hrest⟩ := List.pairwise_cons.mp hclock
    obtain ⟨v, σ₁, hstep, hv, hshows⟩ := (h.later (hle x.1.now (by simp))).step x.2
    obtain ⟨vs, σ₂, hruns, hvs, hlast⟩ := ih hshows hrest
    exact ⟨v :: vs, σ₂, .step hstep hruns, .cons hv hvs, hlast⟩

theorem StoreReachable.dispatch {st : CmdState} (h : StoreReachable hash st.store) (env : Env)
    (cmd : Command) : StoreReachable hash (cmdDispatch hash env st cmd).1.store := by
  rw [cmdDispatch_store]
  exact Machine.Reachable.run h _

def CmdState.kv (st : CmdState) : KvServer := ⟨st.store.toMap, st.savePath, st.lastsaveTime⟩

theorem StoreReachable.shows {st : CmdState} (h : StoreReachable hash st.store) (t : Int64) :
    Shows hash t st st.kv := ⟨⟨h.inv, .refl _ t⟩, rfl, rfl⟩

theorem int64_minValue_le (t : Int64) : Int64.minValue ≤ t :=
  Int64.le_iff_toInt_le.mpr t.minValue_le_toInt

theorem StoreReachable.runs {st : CmdState} (h : StoreReachable hash st.store)
    {calls : List (Env × Command)}
    (hclock : (calls.map (fun x => x.1.now)).Pairwise (· ≤ ·)) :
    ∃ vs σ, KvServer.Runs st.kv calls vs σ ∧
      List.Forall₂ Encodes vs (Machine.run (dispatchStep hash) st calls).2 ∧
      Shows hash (calls.foldl (fun _ x => x.1.now) Int64.minValue)
        (Machine.run (dispatchStep hash) st calls).1 σ :=
  (h.shows Int64.minValue).runs
    (List.pairwise_cons.mpr ⟨fun t _ => int64_minValue_le t, hclock⟩)

theorem foldl_now_le {calls : List (Env × Command)} {t t' : Int64} (h : t ≤ t')
    (hcalls : ∀ x ∈ calls, x.1.now ≤ t') : calls.foldl (fun _ x => x.1.now) t ≤ t' := by
  induction calls generalizing t with
  | nil => exact h
  | cons x calls ih => exact ih (hcalls x (by simp)) (fun y hy => hcalls y (by simp [hy]))

-- the hash tables, the chains and the dead entries in them are not to be seen from outside
theorem commands_refine_map {st : CmdState} (hs : StoreReachable hash st.store)
    {calls : List (Env × Command)}
    (hclock : (calls.map (fun x => x.1.now)).Pairwise (· ≤ ·)) :
    ∃ vs σ, KvServer.Runs st.kv calls vs σ ∧
      List.Forall₂ Encodes vs (Machine.run (dispatchStep hash) st calls).2 ∧
      ∀ t, (∀ x ∈ calls, x.1.now ≤ t) →
        Agree expired (Machine.run (dispatchStep hash) st calls).1.store.toMap σ.map t := by
  obtain ⟨vs, σ, hruns, hvs, hshows⟩ := hs.runs hclock
  refine ⟨vs, σ, hruns, hvs, fun t ht => ?_⟩
  have hlast := hshows.later (foldl_now_le (int64_minValue_le t) ht)
  exact hlast.mirrors.lags.agree

def agingCalls : List (Env × Command) :=
  [(counterEnv 10, [str "SET", str "k", str "7", str "PX", str "5"]),
    (counterEnv 12, [str "INCR", str "k"]), (counterEnv 20, [str "INCRBY", str "k", str "x"]),
    (counterEnv 20, [str "DBSIZE"]), (counterEnv 20, [str "GET", str "k"])]

theorem commands_refine_map_aging :
    ∃ vs σ, KvServer.Runs emptyState.kv agingCalls vs σ ∧
      List.Forall₂ Encodes vs
        (Machine.run (dispatchStep fnv1aHash) emptyState agingCalls).2 := by
  obtain ⟨vs, σ, hruns, hvs, -⟩ :=
    @commands_refine_map fnv1aHash emptyState storeCreate_reachable agingCalls (by decide)
  exact ⟨vs, σ, hruns, hvs⟩

end RedisServer

import RedisServer.Cmd.ReplyFraming
import RedisServer.Persist.RoundTrip
import RedisServer.Store.LiveView

namespace RedisServer

variable {hash : Bytes → UInt64}

def keysReply (ks : List Bytes) : Bytes :=
  respReplyArrayHeader ks.length ++ (ks.map respReplyBulkString).flatten

def SameKeys (r r' : Bytes) : Prop :=
  r = r' ∨ ∃ ks ks' : List Bytes, ks.Perm ks' ∧ r = keysReply ks ∧ r' = keysReply ks'

-- how far the replies of two servers have to agree; full stands for servers whose save path, last
-- save time and save outcomes are the same too
def RepliesAgree (full : Prop) (id : Option CmdId) (r r' : Bytes) : Prop :=
  match id with
  | some .del | some .dbsize => True
  | some .keys => SameKeys r r'
  | some .save | some .bgsave | some .lastsave => full → r = r'
  | _ => r = r'

theorem RepliesAgree.of_eq {full : Prop} {id : Option CmdId} {r r' : Bytes} (h : r = r') :
    RepliesAgree full id r r' := by
  unfold RepliesAgree
  split
  · trivial
  · trivial
  · exact .inl h
  · exact fun _ => h
  · exact fun _ => h
  · exact fun _ => h
  · exact h

structure CmdState.Twin (hash : Bytes → UInt64) (full : Prop) (now : Int64) (st st' : CmdState) :
    Prop where
  store : Store.Twin hash now st.store st'.store
  savePath : full → st.savePath = st'.savePath
  lastsaveTime : full → st.lastsaveTime = st'.lastsaveTime

def Alike (hash : Bytes → UInt64) (full : Prop) (now : Int64) (id : Option CmdId)
    (x x' : CmdState × Bytes) : Prop :=
  CmdState.Twin hash full now x.1 x'.1 ∧ RepliesAgree full id x.2 x'.2

section Handlers

variable {full : Prop} {now : Int64} {id : Option CmdId} {st st' : CmdState}

theorem CmdState.Twin.alike (h : CmdState.Twin hash full now st st') (r : Bytes) :
    Alike hash full now id (st, r) (st', r) := ⟨h, .of_eq rfl⟩

theorem CmdState.Twin.withStore (h : CmdState.Twin hash full now st st') {s s' : Store}
    (hs : Store.Twin hash now s s') :
    CmdState.Twin hash full now { st with store := s } { st' with store := s' } :=
  ⟨hs, h.savePath, h.lastsaveTime⟩

theorem Alike.ite {c : Prop} [Decidable c] {x x' y y' : CmdState × Bytes}
    (hx : Alike hash full now id x x') (hy : Alike hash full now id y y') :
    Alike hash full now id (if c then x else y) (if c then x' else y') := by
  split_ifs
  · exact hx
  · exact hy

theorem CmdState.Twin.update (h : CmdState.Twin hash full now st st') {α : Type}
    {x x' : Store × α} (hx : Store.Twin hash now x.1 x'.1 ∧ x.2 = x'.2) (f : α → Bytes) :
    Alike hash full now id ({ st with store := x.1 }, f x.2) ({ st' with store := x'.1 }, f x'.2) :=
  ⟨h.withStore hx.1, .of_eq (by rw [hx.2])⟩

theorem countLoop_twin {f : Store → Bytes → Store × Nat}
    (hf : ∀ {s s' : Store}, Store.Twin hash now s s' → ∀ k,
      Store.Twin hash now (f s k).1 (f s' k).1 ∧ (f s k).2 = (f s' k).2)
    (keys : List Bytes) {s s' : Store} (h : Store.Twin hash now s s') (n : Nat) :
    Store.Twin hash now (countLoop f keys s n).1 (countLoop f keys s' n).1 ∧
      (countLoop f keys s n).2 = (countLoop f keys s' n).2 := by
  induction keys generalizing s s' n with
  | nil => exact ⟨h, rfl⟩
  | cons k keys ih =>
    obtain ⟨hk, hr⟩ := hf h k
    rw [countLoop, countLoop, hr]
    exact ih hk _

theorem delLoop_twin (keys : List Bytes) {s s' : Store} (h : Store.Twin hash now s s')
    (n n' : Nat) :
    Store.Twin hash now (countLoop (storeDel hash) keys s n).1
      (countLoop (storeDel hash) keys s' n').1 := by
  induction keys generalizing s s' n n' with
  | nil => exact h
  | cons k keys ih => exact ih (h.del k) _ _

theorem mgetLoop_twin (keys : List Bytes) {s s' : Store} (h : Store.Twin hash now s s')
    (out : Bytes) :
    Store.Twin hash now (mgetLoop hash now keys s out).1 (mgetLoop hash now keys s' out).1 ∧
      (mgetLoop hash now keys s out).2 = (mgetLoop hash now keys s' out).2 := by
  induction keys generalizing s s' out with
  | nil => exact ⟨h, rfl⟩
  | cons k keys ih =>
    obtain ⟨hk, hr⟩ := h.get k
    rw [mgetLoop, mgetLoop, hr]
    exact ih hk _

theorem msetLoop_twin (kvs : List Bytes) {s s' : Store} (h : Store.Twin hash now s s') :
    Store.Twin hash now (msetLoop hash kvs s) (msetLoop hash kvs s') := by
  induction kvs, s using msetLoop.induct hash generalizing s' with
  | case1 key val rest s ih =>
    rw [msetLoop, msetLoop]
    exact ih (h.set key val 0)
  | case2 kvs s hne =>
    rw [msetLoop, msetLoop]
    · exact h
    · exact hne
    · exact hne

theorem payload_keyItem (es : List Entry) :
    PrefixCode.payload (es.map keyItem) = ((es.map Entry.key).map respReplyBulkString).flatten := by
  simp [PrefixCode.payload, keyItem, Function.comp_def]

theorem keys_reply_eq {s : Store} (hs : s.Sound hash) (now : Int64) :
    respReplyArrayHeader (storeForeach s now keysCollectCb ([], 0)).2 ++
      (storeForeach s now keysCollectCb ([], 0)).1 =
      keysReply ((s.visited now).map Entry.key) := by
  rw [storeForeach_eq hs, foldl_keysCollectCb, keysReply, payload_keyItem]
  simp

theorem setExpiry_now {env env' : Env} (h : env.now = env'.now) (cmd : Command) :
    setExpiry env cmd = setExpiry env' cmd := by
  rw [setExpiry, setExpiry, h]

variable {env env' : Env}

theorem cmdSet_alike (hn : env.now = env'.now) (h : CmdState.Twin hash full env.now st st')
    (cmd : Command) :
    Alike hash full env.now id (cmdSet hash env st cmd) (cmdSet hash env' st' cmd) := by
  apply Alike.ite (h.alike _)
  rw [setExpiry_now hn]
  cases setExpiry env' cmd with
  | error msg => exact h.alike _
  | ok expireAtMs => exact ⟨h.withStore (h.store.set _ _ _), .of_eq rfl⟩

theorem cmdExpire_alike (hn : env.now = env'.now) (h : CmdState.Twin hash full env.now st st')
    (cmd : Command) :
    Alike hash full env.now id (cmdExpire hash env st cmd) (cmdExpire hash env' st' cmd) := by
  apply Alike.ite (h.alike _)
  rw [← hn]
  cases Cmd.parseStrictLl (argAt cmd 2) with
  | none => exact h.alike _
  | some seconds =>
    exact h.update (h.store.expire _ _) (fun r => respReplyInteger (if r ≠ 0 then 1 else 0))

theorem incrStep_alike (hn : env.now = env'.now) (h : CmdState.Twin hash full env.now st st')
    (key : Bytes) (delta : Int64) :
    Alike hash full env.now id (incrStep hash env st key delta)
      (incrStep hash env' st' key delta) := by
  rw [incrStep, incrStep, ← hn]
  exact h.update (h.store.incrby key delta) replyIncrResult

theorem cmdIncrbyGeneric_alike (hn : env.now = env'.now)
    (h : CmdState.Twin hash full env.now st st') (negate : Bool) (cmd : Command) :
    Alike hash full env.now id (cmdIncrbyGeneric hash negate env st cmd)
      (cmdIncrbyGeneric hash negate env' st' cmd) := by
  apply Alike.ite (h.alike _)
  cases Cmd.parseStrictLl (argAt cmd 2) with
  | none => exact h.alike _
  | some delta => exact Alike.ite (h.alike _) (incrStep_alike hn h _ _)

theorem cmdTtlGeneric_alike (hn : env.now = env'.now)
    (h : CmdState.Twin hash full env.now st st') (wantMs : Bool) (cmd : Command) :
    Alike hash full env.now id (cmdTtlGeneric hash wantMs env st cmd)
      (cmdTtlGeneric hash wantMs env' st' cmd) := by
  apply Alike.ite (h.alike _)
  rw [← hn]
  exact h.update (h.store.ttlMs _ _) (replyTtl · wantMs)

theorem cmdKeys_alike (hn : env.now = env'.now) (h : CmdState.Twin hash full env.now st st')
    (cmd : Command) :
    Alike hash full env.now (some .keys) (cmdKeys env st cmd) (cmdKeys env' st' cmd) := by
  apply Alike.ite (h.alike _)
  apply Alike.ite (h.alike _)
  refine ⟨h, .inr ⟨_, _, h.store.visited_perm, keys_reply_eq h.store.inv.toSound env.now, ?_⟩⟩
  rw [hn]
  exact keys_reply_eq h.store.inv'.toSound env'.now

-- SAVE, BGSAVE and LASTSAVE answer from the save state alone
def StoreBlind (f : Handler) : Prop :=
  ∀ env st cmd s, f env { st with store := s } cmd =
    ({ (f env st cmd).1 with store := s }, (f env st cmd).2)

theorem StoreBlind.store {f : Handler} (hf : StoreBlind f) (env : Env) (st : CmdState)
    (cmd : Command) : (f env st cmd).1.store = st.store := by
  have h := hf env st cmd st.store
  rw [show ({ st with store := st.store } : CmdState) = st from rfl] at h
  rw [h]

theorem storeBlind_cmdSave : StoreBlind cmdSave := by
  intro env st cmd s
  unfold cmdSave doSave
  split_ifs <;> rfl

theorem storeBlind_cmdBgsave : StoreBlind cmdBgsave := by
  intro env st cmd s
  unfold cmdBgsave
  split_ifs <;> rfl

theorem storeBlind_cmdLastsave : StoreBlind cmdLastsave := by
  intro env st cmd s
  unfold cmdLastsave
  split_ifs <;> rfl

theorem CmdState.Twin.eq_withStore (h : CmdState.Twin hash full now st st') (hf : full) :
    st' = { st with store := st'.store } := by
  obtain ⟨s', p', l'⟩ := st'
  have hp := h.savePath hf
  have hl := h.lastsaveTime hf
  simp only at hp hl
  rw [← hp, ← hl]

theorem StoreBlind.twin {f : Handler} (hf : StoreBlind f) (he : full → env = env')
    (h : CmdState.Twin hash full now st st') (cmd : Command) :
    CmdState.Twin hash full now (f env st cmd).1 (f env' st' cmd).1 ∧
      (full → (f env st cmd).2 = (f env' st' cmd).2) := by
  have key : full → f env' st' cmd =
      ({ (f env st cmd).1 with store := st'.store }, (f env st cmd).2) := by
    intro hfull
    rw [← he hfull, h.eq_withStore hfull]
    exact hf env st cmd st'.store
  refine ⟨⟨?_, fun hfull => by rw [key hfull], fun hfull => by rw [key hfull]⟩,
    fun hfull => by rw [key hfull]⟩
  rw [hf.store, hf.store]
  exact h.store

theorem handler_alike (hn : env.now = env'.now) (he : full → env = env')
    (h : CmdState.Twin hash full env.now st st') (cid : CmdId) (cmd : Command) :
    Alike hash full env.now (some cid) (cid.handler hash env st cmd)
      (cid.handler hash env' st' cmd) := by
  cases cid with
  | ping => exact Alike.ite (h.alike _) (Alike.ite (h.alike _) (h.alike _))
  | echo => exact Alike.ite (h.alike _) (h.alike _)
  | set => exact cmdSet_alike hn h cmd
  | get =>
    apply Alike.ite (h.alike _)
    rw [← hn]
    exact h.update (h.store.get _) replyValue
  | mget =>
    apply Alike.ite (h.alike _)
    rw [← hn]
    exact h.update (mgetLoop_twin _ h.store _) (fun r => r)
  | mset => exact Alike.ite (h.alike _) ⟨h.withStore (msetLoop_twin _ h.store), .of_eq rfl⟩
  | del => exact Alike.ite (h.alike _) ⟨h.withStore (delLoop_twin _ h.store 0 0), trivial⟩
  | «exists» =>
    apply Alike.ite (h.alike _)
    rw [← hn]
    exact h.update (countLoop_twin (fun ht k => ht.exists k) _ h.store 0)
      (fun r => respReplyInteger (Int64.ofNat r))
  | keys => exact cmdKeys_alike hn h cmd
  | expire => exact cmdExpire_alike hn h cmd
  | ttl => exact cmdTtlGeneric_alike hn h false cmd
  | pttl => exact cmdTtlGeneric_alike hn h true cmd
  | incr => exact Alike.ite (h.alike _) (incrStep_alike hn h _ _)
  | decr => exact Alike.ite (h.alike _) (incrStep_alike hn h _ _)
  | incrby => exact cmdIncrbyGeneric_alike hn h false cmd
  | decrby => exact cmdIncrbyGeneric_alike hn h true cmd
  | dbsize => exact Alike.ite (h.alike _) ⟨h, trivial⟩
  | flushdb => exact Alike.ite (h.alike _) ⟨h.withStore h.store.flush, .of_eq rfl⟩
  | save => exact storeBlind_cmdSave.twin he h cmd
  | bgsave => exact storeBlind_cmdBgsave.twin he h cmd
  | lastsave => exact storeBlind_cmdLastsave.twin he h cmd

theorem cmdDispatch_alike (hn : env.now = env'.now) (he : full → env = env')
    (h : CmdState.Twin hash full env.now st st') (cmd : Command) :
    Alike hash full env.now (lookupCommand (argAt cmd 0)) (cmdDispatch hash env st cmd)
      (cmdDispatch hash env' st' cmd) := by
  apply Alike.ite (h.alike _)
  cases lookupCommand (argAt cmd 0) with
  | none => exact h.alike _
  | some cid => exact handler_alike hn he h cid cmd

end Handlers

structure Paired where
  env : Env
  env' : Env
  cmd : Command

def runFirst (hash : Bytes → UInt64) (st : CmdState) (xs : List Paired) : CmdState × List Bytes :=
  Machine.run (dispatchStep hash) st (xs.map (fun x => (x.env, x.cmd)))

def runSecond (hash : Bytes → UInt64) (st : CmdState) (xs : List Paired) : CmdState × List Bytes :=
  Machine.run (dispatchStep hash) st (xs.map (fun x => (x.env', x.cmd)))

def lastClock (t : Int64) (xs : List Paired) : Int64 := xs.foldl (fun _ x => x.env.now) t

def Paired.Agrees (full : Prop) (x : Paired) (rr : Bytes × Bytes) : Prop :=
  RepliesAgree full (lookupCommand (argAt x.cmd 0)) rr.1 rr.2

def AnswersAlike (hash : Bytes → UInt64) (full : Prop) (t : Int64) (st st' : CmdState)
    (xs : List Paired) : Prop :=
  List.Forall₂ (Paired.Agrees full) xs ((runFirst hash st xs).2.zip (runSecond hash st' xs).2) ∧
    ∀ ys zs, xs = ys ++ zs →
      ExpiringMap.Agree expired (runFirst hash st ys).1.store.toMap
        (runSecond hash st' ys).1.store.toMap (lastClock t ys)

theorem run_alike {full : Prop} {t : Int64} {st st' : CmdState}
    (h : CmdState.Twin hash full t st st') {xs : List Paired}
    (hclock : (t :: xs.map (fun x => x.env.now)).Pairwise (· ≤ ·))
    (hsame : ∀ x ∈ xs, x.env.now = x.env'.now ∧ (full → x.env = x.env')) :
    List.Forall₂ (Paired.Agrees full) xs ((runFirst hash st xs).2.zip (runSecond hash st' xs).2) ∧
      CmdState.Twin hash full (lastClock t xs) (runFirst hash st xs).1
        (runSecond hash st' xs).1 := by
  induction xs generalizing t st st' with
  | nil => exact ⟨.nil, h⟩
  | cons x xs ih =>
    obtain ⟨hle, hrest⟩ := List.pairwise_cons.mp hclock
    obtain ⟨hn, he⟩ := hsame x (by simp)
    have hx : CmdState.Twin hash full x.env.now st st' :=
      ⟨h.store.later (hle _ (by simp)), h.savePath, h.lastsaveTime⟩
    obtain ⟨ht, hr⟩ := cmdDispatch_alike hn he hx x.cmd
    obtain ⟨hrs, hfin⟩ := ih ht hrest (fun y hy => hsame y (by simp [hy]))
    exact ⟨.cons hr hrs, hfin⟩

theorem answersAlike_of_twin {full : Prop} {t : Int64} {st st' : CmdState}
    (h : CmdState.Twin hash full t st st') {xs : List Paired}
    (hclock : (t :: xs.map (fun x => x.env.now)).Pairwise (· ≤ ·))
    (hsame : ∀ x ∈ xs, x.env.now = x.env'.now ∧ (full → x.env = x.env')) :
    AnswersAlike hash full t st st' xs := by
  refine ⟨(run_alike h hclock hsame).1, ?_⟩
  rintro ys zs rfl
  rw [List.map_append, ← List.cons_append] at hclock
  exact (run_alike h (List.pairwise_append.mp hclock).1
    (fun y hy => hsame y (by simp [hy]))).2.store.agree

def reloaded (hash : Bytes → UInt64) (s : Store) (t1 t2 : Int64) : Store :=
  (persistLoad hash storeCreate (.contents (persistImage s t1)) t2).1

theorem reloaded_eq {s : Store} (hs : StoreReachable hash s) {t1 : Int64} (t2 : Int64)
    (hfit : (persistImage s t1).length < 2 ^ 63) :
    reloaded hash s t1 t2 = (s.visited t1).foldl (loadEntry hash t2) storeCreate := by
  rw [reloaded, persistLoad_persistImage hs.inv.toSound storeCreate t2 hfit]

theorem storeCreate_reachable : StoreReachable hash storeCreate := ⟨[], rfl⟩

theorem reloaded_reachable {s : Store} (hs : StoreReachable hash s) {t1 : Int64} (t2 : Int64)
    (hfit : (persistImage s t1).length < 2 ^ 63) :
    StoreReachable hash (reloaded hash s t1 t2) := by
  rw [reloaded_eq hs t2 hfit]
  exact foldl_loadEntry_reachable storeCreate_reachable t2 _

theorem reloaded_twin {s : Store} (hs : StoreReachable hash s) {t1 t2 : Int64} (ht : t1 ≤ t2)
    (hfit : (persistImage s t1).length < 2 ^ 63) :
    Store.Twin hash t2 s (reloaded hash s t1 t2) := by
  refine ⟨hs.inv, (reloaded_reachable hs t2 hfit).inv, fun k => ?_⟩
  have hk := lookup_loaded hs.inv.toSound storeCreate_reachable ht k
  rw [reloaded_eq hs t2 hfit, ExpiringMap.live, ExpiringMap.live, hk, toMap_storeCreate]
  cases s.toMap.lookup k with
  | none => simp
  | some p =>
    obtain ⟨v, x⟩ := p
    simp only
    by_cases hx : x = 0 ∨ t2 < x
    · rw [if_pos hx]
    · have hdead : expired x t2 = true := by
        by_contra hn
        exact hx (by simpa [liveEntry] using (liveEntry_iff t2 ⟨k, v, x⟩).mpr hn)
      rw [if_neg hx]
      simp [hdead, Option.filter]

theorem live_view_determines_replies {st st' : CmdState} {t : Int64} {xs : List Paired}
    (hs : StoreReachable hash st.store) (hs' : StoreReachable hash st'.store)
    (hagree : ExpiringMap.Agree expired st.store.toMap st'.store.toMap t)
    (hclock : (t :: xs.map (fun x => x.env.now)).Pairwise (· ≤ ·))
    (hsame : ∀ x ∈ xs, x.env.now = x.env'.now) :
    AnswersAlike hash False t st st' xs ∧
    ∀ t1, t1 ≤ t → (persistImage st.store t1).length < 2 ^ 63 →
      AnswersAlike hash True t st { st with store := reloaded hash st.store t1 t }
        (xs.map (fun x => ⟨x.env, x.env, x.cmd⟩)) := by
  constructor
  · exact answersAlike_of_twin ⟨⟨hs.inv, hs'.inv, hagree⟩, False.elim, False.elim⟩ hclock
      (fun x hx => ⟨hsame x hx, False.elim⟩)
  · intro t1 ht hfit
    have hstore := reloaded_twin hs ht hfit
    generalize reloaded hash st.store t1 t = s at hstore ⊢
    have htwin : CmdState.Twin hash True t st { st with store := s } :=
      ⟨hstore, fun _ => rfl, fun _ => rfl⟩
    apply answersAlike_of_twin htwin
    · simpa [Function.comp_def] using hclock
    · intro x hx
      obtain ⟨y, -, rfl⟩ := List.mem_map.mp hx
      exact ⟨rfl, fun _ => rfl⟩

def pairedAt (now : Int64) (cmd : Command) : Paired :=
  ⟨⟨now, 0, .ok, false⟩, ⟨now, 0, .errIo, true⟩, cmd⟩

def pairedRun : List Paired :=
  [pairedAt 7 [str "GET", str "b"], pairedAt 9 [str "INCR", []], pairedAt 9 [str "KEYS", str "*"]]

theorem live_view_determines_replies_midway :
    isRehashing savedStore = true ∧ isRehashing (reloaded fnv1aHash savedStore 3 7) = false ∧
      AnswersAlike fnv1aHash False 7 ⟨savedStore, [], 0⟩
        ⟨reloaded fnv1aHash savedStore 3 7, str "dump", 4⟩ pairedRun := by
  have hs : StoreReachable fnv1aHash savedStore := ⟨_, rfl⟩
  have hfit : (persistImage savedStore 3).length < 2 ^ 63 := by decide +kernel
  have hsame : ∀ x ∈ pairedRun, x.env.now = x.env'.now := by simp [pairedRun, pairedAt]
  have answers (s s' : Store) (hs : StoreReachable fnv1aHash s) (hs' : StoreReachable fnv1aHash s')
      (h : ExpiringMap.Agree expired s.toMap s'.toMap 7) :
      AnswersAlike fnv1aHash False 7 ⟨s, [], 0⟩ ⟨s', str "dump", 4⟩ pairedRun :=
    (@live_view_determines_replies fnv1aHash ⟨s, [], 0⟩ ⟨s', str "dump", 4⟩ 7 pairedRun hs hs' h
      (by decide) hsame).1
  exact ⟨by decide, by decide +kernel, answers _ _ hs (reloaded_reachable hs 7 hfit)
    (reloaded_twin hs (by decide) hfit).agree⟩

end RedisServer

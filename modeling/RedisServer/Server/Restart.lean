import RedisServer.Server.DurableMap

namespace RedisServer

open ExpiringMap FileSystem

variable {hash : Bytes → UInt64} {path : Bytes}

def KvServer.next (env : Env) (kv : KvServer) (cmd : Command) : KvServer :=
  match request cmd with
  | .ok req => req.after env kv
  | .error _ => kv

def CountBetween (lo hi : Nat) (r : Bytes) : Prop :=
  ∃ n, lo ≤ n ∧ n ≤ hi ∧ r = respReplyInteger (Int64.ofNat n)

-- what a server that went on and one that restarted answer to the same command; the map has the
-- dead entries that either of them may still count
def SameReply (kv : KvServer) (x : Paired) (r r' : Bytes) : Prop :=
  match lookupCommand (argAt x.cmd 0) with
  | some .keys => SameKeys r r'
  | some .del =>
    r = r' ∨ ∀ y ∈ [r, r'], CountBetween
      ((x.cmd.drop 1).toFinset.filter (fun k => (kv.entry x.env.now k).isSome)).card
      ((x.cmd.drop 1).toFinset.filter (· ∈ kv.map)).card y
  | some .dbsize =>
    r = r' ∨ ∀ y ∈ [r, r'], CountBetween
      (kv.map.keys.filter (fun k => (kv.entry x.env.now k).isSome)).card kv.map.keys.card y
  | some .save => x.env.saveStatus = x.env'.saveStatus → r = r'
  | some .bgsave => x.env.forkFails = x.env'.forkFails → r = r'
  | some .lastsave => r = r' ∨ ∀ y ∈ [r, r'], ∃ v, y = respReplyInteger v
  | _ => r = r'

def SameReplies (hash : Bytes → UInt64) : KvServer → CmdState → CmdState → List Paired → Prop
  | _, _, _, [] => True
  | kv, st, st', x :: xs =>
    SameReply kv x (cmdDispatch hash x.env st x.cmd).2 (cmdDispatch hash x.env' st' x.cmd).2 ∧
      SameReplies hash (kv.next x.env x.cmd) (cmdDispatch hash x.env st x.cmd).1
        (cmdDispatch hash x.env' st' x.cmd).1 xs

theorem SameReply.of_eq {kv : KvServer} {x : Paired} {r r' : Bytes} (h : r = r') :
    SameReply kv x r r' := by
  unfold SameReply
  split
  · exact .inl h
  · exact .inl h
  · exact .inl h
  · exact fun _ => h
  · exact fun _ => h
  · exact .inl h
  · exact h

theorem KvServer.Step.eq_next {env : Env} {kv kv' : KvServer} {cmd : Command} {v : Option Resp}
    (h : Step env kv cmd v kv') : kv' = kv.next env cmd := by
  cases h with
  | blank =>
    have hnone : lookupCommand (argAt [] 0) = none := by decide
    rw [next, request, hnone]
  | rejected _ h => rw [next, h]
  | served _ h _ => rw [next, h]

theorem Shows.next {env : Env} {st : CmdState} {kv : KvServer} (h : Shows hash env.now st kv)
    (cmd : Command) : Shows hash env.now (cmdDispatch hash env st cmd).1 (kv.next env cmd) := by
  obtain ⟨v, kv', hstep, -, hshows⟩ := h.step cmd
  rwa [← hstep.eq_next]

theorem Request.after_map {env env' : Env} {kv kv' : KvServer} (hn : env.now = env'.now)
    (hm : kv.map = kv'.map) (req : Request) :
    (req.after env kv).map = (req.after env' kv').map := by
  have hentry (k : Bytes) : kv.entry env.now k = kv'.entry env'.now k := by
    rw [KvServer.entry, KvServer.entry, hn, hm]
  cases req with
  | set k v d => simp only [after, hn, hm]
  | mset kvs => simp only [after, hm]
  | del ks => simp only [after, hm]
  | expire k d =>
    simp only [after, hentry k]
    cases kv'.entry env'.now k with
    | none => exact hm
    | some p => simp only [hn, hm]
  | incrby k delta =>
    simp only [after, hentry k]
    cases counted delta (kv'.entry env'.now k) with
    | error msg => exact hm
    | ok r => simp only [hm]
  | flushdb => rfl
  | save =>
    simp only [after]
    split_ifs <;> exact hm
  | bgsave =>
    simp only [after]
    split_ifs <;> exact hm
  | _ => exact hm

theorem KvServer.next_map {env env' : Env} {kv kv' : KvServer} (hn : env.now = env'.now)
    (hm : kv.map = kv'.map) (cmd : Command) : (kv.next env cmd).map = (kv'.next env' cmd).map := by
  rw [next, next]
  cases request cmd with
  | error msg => exact hm
  | ok req => exact req.after_map hn hm

theorem KvServer.next_savePath (env : Env) (kv : KvServer) (cmd : Command) :
    (kv.next env cmd).savePath = kv.savePath := by
  rw [next]
  cases request cmd with
  | error msg => rfl
  | ok req => exact req.after_savePath env kv

-- two servers over one map: their tables may keep different dead entries, their last saves may be
-- different ones
structure Siblings (hash : Bytes → UInt64) (now : Int64) (kv : KvServer) (st st' : CmdState) :
    Prop where
  twin : CmdState.Twin hash False now st st'
  first : Mirrors hash now st.store kv.map
  second : Mirrors hash now st'.store kv.map
  savePath : st.savePath = st'.savePath

namespace Siblings

variable {now : Int64} {kv : KvServer} {st st' : CmdState}

theorem later {t : Int64} (h : Siblings hash now kv st st') (ht : now ≤ t) :
    Siblings hash t kv st st' :=
  ⟨⟨h.twin.store.later ht, False.elim, False.elim⟩, h.first.later ht, h.second.later ht,
    h.savePath⟩

theorem next {env env' : Env} (h : Siblings hash env.now kv st st') (hn : env.now = env'.now)
    (cmd : Command) : Siblings hash env.now (kv.next env cmd) (cmdDispatch hash env st cmd).1
      (cmdDispatch hash env' st' cmd).1 := by
  have hfirst : Shows hash env.now st ⟨kv.map, st.savePath, st.lastsaveTime⟩ := ⟨h.first, rfl, rfl⟩
  have hsecond : Shows hash env'.now st' ⟨kv.map, st'.savePath, st'.lastsaveTime⟩ :=
    ⟨hn ▸ h.second, rfl, rfl⟩
  have h1 := hfirst.next cmd
  have h2 := hsecond.next cmd
  refine ⟨(cmdDispatch_alike hn False.elim h.twin cmd).1, ?_, ?_, ?_⟩
  · have hmap := @KvServer.next_map env env kv ⟨kv.map, st.savePath, st.lastsaveTime⟩ rfl rfl cmd
    rw [hmap]
    exact h1.mirrors
  · have hmap := @KvServer.next_map env env' kv ⟨kv.map, st'.savePath, st'.lastsaveTime⟩ hn rfl cmd
    rw [hmap, hn]
    exact h2.mirrors
  · rw [h1.savePath, h2.savePath, KvServer.next_savePath, KvServer.next_savePath]
    exact h.savePath

theorem sameReply {x : Paired} (h : Siblings hash x.env.now kv st st')
    (hn : x.env.now = x.env'.now) :
    SameReply kv x (cmdDispatch hash x.env st x.cmd).2 (cmdDispatch hash x.env' st' x.cmd).2 := by
  have halike := (cmdDispatch_alike hn False.elim h.twin x.cmd).2
  cases hid : lookupCommand (argAt x.cmd 0) with
  | none =>
    rw [hid] at halike
    exact .of_eq halike
  | some id =>
    rw [hid] at halike
    rw [cmdDispatch_of_lookup hid, cmdDispatch_of_lookup hid] at halike ⊢
    cases id with
    | keys =>
      rw [SameReply, hid]
      exact halike
    | del =>
      rw [CmdId.handler, cmdDel, cmdDel]
      by_cases hl : x.cmd.length < 2
      · rw [if_pos hl, if_pos hl]
        exact .of_eq rfl
      · rw [if_neg hl, if_neg hl, SameReply, hid]
        obtain ⟨hlo, hhi⟩ := h.first.del_bounds (x.cmd.drop 1)
        obtain ⟨hlo', hhi'⟩ := h.second.del_bounds (x.cmd.drop 1)
        exact .inr (List.forall_mem_cons.mpr ⟨⟨_, hlo, hhi, rfl⟩,
          List.forall_mem_singleton.mpr ⟨_, hlo', hhi', rfl⟩⟩)
    | dbsize =>
      rw [CmdId.handler, cmdDbsize, cmdDbsize]
      by_cases hl : x.cmd.length ≠ 1
      · rw [if_pos hl, if_pos hl]
        exact .of_eq rfl
      · rw [if_neg hl, if_neg hl, SameReply, hid]
        obtain ⟨hlo, hhi⟩ := h.first.size_bounds
        obtain ⟨hlo', hhi'⟩ := h.second.size_bounds
        exact .inr (List.forall_mem_cons.mpr ⟨⟨_, hlo, hhi, rfl⟩,
          List.forall_mem_singleton.mpr ⟨_, hlo', hhi', rfl⟩⟩)
    | save =>
      rw [SameReply, hid]
      intro hstatus
      simp only [CmdId.handler, cmdSave, doSave, h.savePath, hstatus]
      split_ifs <;> rfl
    | bgsave =>
      rw [SameReply, hid]
      intro hfork
      simp only [CmdId.handler, cmdBgsave, h.savePath, hfork]
      split_ifs <;> rfl
    | lastsave =>
      rw [CmdId.handler, cmdLastsave, cmdLastsave]
      by_cases hl : x.cmd.length ≠ 1
      · rw [if_pos hl, if_pos hl]
        exact .of_eq rfl
      · rw [if_neg hl, if_neg hl, SameReply, hid]
        exact .inr (List.forall_mem_cons.mpr ⟨⟨_, rfl⟩, List.forall_mem_singleton.mpr ⟨_, rfl⟩⟩)
    | _ => exact .of_eq halike

theorem sameReplies (h : Siblings hash now kv st st') {xs : List Paired}
    (hclock : (now :: xs.map (fun x => x.env.now)).Pairwise (· ≤ ·))
    (hsame : ∀ x ∈ xs, x.env.now = x.env'.now) : SameReplies hash kv st st' xs := by
  induction xs generalizing now kv st st' with
  | nil => trivial
  | cons x xs ih =>
    obtain ⟨hle, hrest⟩ := List.pairwise_cons.mp hclock
    have hx := h.later (hle x.env.now (by simp))
    have hn := hsame x (by simp)
    exact ⟨hx.sameReply hn, ih (hx.next hn x.cmd) hrest (fun y hy => hsame y (by simp [hy]))⟩

end Siblings

variable {σ : Host}

theorem clean_restart_is_invisible (hlen : path.length < savePathSize) {files : FS Bytes UInt8}
    {clock now now' : Int64} {m : KvMap} (hfirst : Snapshot hash clock m (files.contents path))
    {es : List HostEvent}
    (h : Machine.exec (Machine.permit Host.Sole (Host.step hash path)) (Host.start files clock) es =
      some σ) {st : CmdState} (hst : σ.server = some st) {actions : List SaverAction}
    (hsole : σ.Sole (.shutdown now actions .ok)) {σ₁ σ₂ : Host}
    (hdown : σ.step hash path (.shutdown now actions .ok) = some σ₁)
    (hup : σ₁.step hash path (.boot now') = some σ₂) :
    ∃ st', σ₂.server = some st' ∧ ∀ xs : List Paired,
      (now' :: xs.map (fun x => x.env.now)).Pairwise (· ≤ ·) →
      (∀ x ∈ xs, x.env.now = x.env'.now) →
      SameReplies hash st.kv st st' xs ∧ AnswersAlike hash False now' st st' xs := by
  obtain ⟨_, d, _, _, hkeeps⟩ := Host.exec_refines hlen hfirst h
  obtain ⟨kv, _, hrunning⟩ := hkeeps.running hst
  obtain ⟨st₀, hst₀, hdown⟩ := Option.bind_eq_some_iff.mp hdown
  obtain rfl : st = st₀ := Option.some.inj (hst.symm.trans hst₀)
  obtain ⟨hclock, hdown⟩ := Option.ite_none_right_eq_some.mp hdown
  obtain ⟨fs, hfinish, rfl⟩ := Option.map_eq_some_iff.mp hdown
  obtain ⟨⟨-, hnow⟩, heq⟩ := Option.ite_none_right_eq_some.mp hup
  cases heq
  obtain ⟨-, hfit⟩ := hsole st hst
  have hran := SaveRun.Ran.of_finish hfinish
  have hrenamed := (hran.outcome_ok_iff.mp rfl).2
  have hfile : fs.contents path = some (persistImage st.store now) := by
    rw [hran.contents_eq, if_pos hrenamed]
    rfl
  have hload : snapshotAt fs path = .contents (persistImage st.store now) := by
    rw [snapshotAt, hfile]
  have hsaved : Snapshot hash now st.store.toMap (fs.contents path) := by
    rw [hfile]
    exact .image hrunning.reachable (Int64.le_refl _) (.refl _ _) hfit
  obtain ⟨hreach, hlags⟩ := hsaved.loaded hnow
  have htwin : Store.Twin hash now' st.store
      (persistLoad hash storeCreate (snapshotAt fs path) now').1 := by
    rw [hload]
    exact reloaded_twin hrunning.reachable hnow hfit
  refine ⟨_, rfl, fun xs hxs hsame => ⟨?_, ?_⟩⟩
  · have hpath : st.savePath = cmdSetSavePath path :=
      hrunning.savePath.trans (cmdSetSavePath_eq hlen).symm
    exact Siblings.sameReplies ⟨⟨htwin, False.elim, False.elim⟩,
      ⟨hrunning.reachable.inv, .refl _ _⟩, ⟨hreach.inv, hlags⟩, hpath⟩ hxs hsame
  · exact answersAlike_of_twin ⟨htwin, False.elim, False.elim⟩ hxs
      (fun x hx => ⟨hsame x hx, False.elim⟩)

-- the entry is dead at the shutdown, and the old process still counts it
def agedEvents : List HostEvent :=
  [.boot 1, .command (counterEnv 2) [str "SET", str "b", str "7", str "PX", str "2"] []]

def resumedRun : List Paired :=
  [pairedAt 9 [str "DBSIZE"], pairedAt 9 [str "DEL", str "b"], pairedAt 9 [str "GET", str "b"]]

theorem hostRun_aged :
    (hostRun agedEvents).bind (fun σ =>
      (σ.step fnv1aHash (str "dump") (.shutdown 6 saverActions .ok)).bind (fun σ₁ =>
        (σ₁.step fnv1aHash (str "dump") (.boot 7)).map (fun _ =>
          (σ.server.isSome, decide (σ.Sole (.shutdown 6 saverActions .ok)))))) =
      some (true, true) := by
  decide +kernel

theorem clean_restart_is_invisible_aged :
    ∃ σ σ₁ σ₂ st st', hostRun agedEvents = some σ ∧ σ.server = some st ∧
      σ.step fnv1aHash (str "dump") (.shutdown 6 saverActions .ok) = some σ₁ ∧
      σ₁.step fnv1aHash (str "dump") (.boot 7) = some σ₂ ∧ σ₂.server = some st' ∧
      SameReplies fnv1aHash st.kv st st' resumedRun := by
  obtain ⟨σ, hσ, h⟩ := Option.bind_eq_some_iff.mp hostRun_aged
  obtain ⟨σ₁, hdown, h⟩ := Option.bind_eq_some_iff.mp h
  obtain ⟨σ₂, hup, h⟩ := Option.map_eq_some_iff.mp h
  obtain ⟨hserver, hsole⟩ := Prod.mk.inj h
  obtain ⟨st, hst⟩ := Option.isSome_iff_exists.mp hserver
  obtain ⟨st', hst', halike⟩ := clean_restart_is_invisible (by decide) (.absent rfl) hσ hst
    (of_decide_eq_true hsole) hdown hup
  obtain ⟨hreplies, -⟩ := halike resumedRun (by decide) (by simp [resumedRun, pairedAt])
  exact ⟨σ, σ₁, σ₂, st, st', hσ, hst, hdown, hup, hst', hreplies⟩

end RedisServer

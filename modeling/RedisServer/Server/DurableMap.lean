import RedisServer.Server.Lifecycle

namespace RedisServer

open ExpiringMap FileSystem

variable {hash : Bytes → UInt64} {path : Bytes}

theorem cmdSetSavePath_eq (h : path.length < savePathSize) : cmdSetSavePath path = path :=
  List.take_of_length_le (Nat.le_sub_one_of_lt h)

theorem toOption_eq_some {ε α : Type} {r : Except ε α} {a : α} :
    r.toOption = some a ↔ r = .ok a := by
  cases r with
  | error e => exact iff_of_false nofun nofun
  | ok b => simp [Except.toOption]

theorem SaveRun.Ran.of_finish {r : SaveRun} {fs fs' : FS Bytes UInt8}
    (h : r.finish path fs = some fs') : r.Ran path fs fs' := by
  obtain ⟨w, hexec, hw⟩ := Option.bind_eq_some_iff.mp h
  cases hout : r.outcome with
  | none =>
    rw [hout] at hw
    cases hw
    exact ⟨w, hexec, rfl, fun st hst => absurd (hout.symm.trans hst) nofun⟩
  | some st =>
    simp only [hout] at hw
    rw [Option.ite_none_right_eq_some] at hw
    obtain ⟨hphase, hfiles⟩ := hw
    cases hfiles
    refine ⟨w, hexec, rfl, fun st' hst => ?_⟩
    rw [hout] at hst
    cases hst
    exact hphase

-- the file that a boot finds, and the map it stands for
inductive Snapshot (hash : Bytes → UInt64) (clock : Int64) (m : KvMap) : Option Bytes → Prop
  | absent (hm : m = ∅) : Snapshot hash clock m none
  | image {s : Store} {t : Int64} (hs : StoreReachable hash s) (ht : t ≤ clock)
    (hm : Lags expired s.toMap m t) (hfit : (persistImage s t).length < 2 ^ 63) :
    Snapshot hash clock m (some (persistImage s t))

theorem Snapshot.later {clock clock' : Int64} {m : KvMap} {file : Option Bytes}
    (h : Snapshot hash clock m file) (ht : clock ≤ clock') : Snapshot hash clock' m file := by
  cases h with
  | absent hm => exact .absent hm
  | image hs htime hm hfit => exact .image hs (Int64.le_trans htime ht) hm hfit

theorem Snapshot.loaded {clock now : Int64} {m : KvMap} {files : FS Bytes UInt8}
    (h : Snapshot hash clock m (files.contents path)) (hnow : clock ≤ now) :
    StoreReachable hash (persistLoad hash storeCreate (snapshotAt files path) now).1 ∧
      Lags expired (persistLoad hash storeCreate (snapshotAt files path) now).1.toMap m now := by
  rw [snapshotAt]
  generalize files.contents path = file at h
  cases h with
  | absent hm =>
    refine ⟨storeCreate_reachable, ?_⟩
    rw [hm]
    change Lags expired storeCreate.toMap ∅ now
    rw [toMap_storeCreate]
    exact .refl ∅ now
  | @image s t hs ht hm hfit =>
    have hle := Int64.le_trans ht hnow
    refine ⟨reloaded_reachable hs now hfit, fun k => ?_, fun k hk => ?_⟩
    · rw [← (hm.later expired_mono hle).agree k, (reloaded_twin hs hle hfit).agree k]
      rfl
    · rw [← Finmap.lookup_isSome] at hk
      have hl := lookup_loaded hs.inv.toSound storeCreate_reachable hle k
      rw [← reloaded_eq hs now hfit] at hl
      change ((reloaded hash s t now).toMap.lookup k).isSome at hk
      rw [hl, toMap_storeCreate] at hk
      refine hm.within k (Finmap.lookup_isSome.mp ?_)
      cases hs' : s.toMap.lookup k with
      | none => simp [hs'] at hk
      | some p => rfl

structure Running (hash : Bytes → UInt64) (path : Bytes) (clock : Int64) (st : CmdState)
    (kv : KvServer) : Prop where
  shows : Shows hash clock st kv
  reachable : StoreReachable hash st.store
  savePath : st.savePath = path

theorem Running.later {clock clock' : Int64} {st : CmdState} {kv : KvServer}
    (h : Running hash path clock st kv) (ht : clock ≤ clock') :
    Running hash path clock' st kv :=
  ⟨h.shows.later ht, h.reachable, h.savePath⟩

-- a child holds the map as it was at the fork, and its persist_save has come as far as phase says
structure Forked (hash : Bytes → UInt64) (path : Bytes) (files : FS Bytes UInt8) (clock : Int64)
    (m : KvMap) (c : Child) : Prop where
  reachable : StoreReachable hash c.store
  waiting : c.time = none → c.phase = .built ∧ Lags expired c.store.toMap m clock
  saving : ∀ t, c.time = some t → t ≤ clock ∧ Lags expired c.store.toMap m t ∧
    (persistImage c.store t).length < 2 ^ 63 ∧
    ∃ old, SaveStage path (persistImage c.store t) old files c.phase

theorem Forked.later {files : FS Bytes UInt8} {clock clock' : Int64} {m : KvMap} {c : Child}
    (h : Forked hash path files clock m c) (ht : clock ≤ clock') :
    Forked hash path files clock' m c where
  reachable := h.reachable
  waiting hc := ⟨(h.waiting hc).1, (h.waiting hc).2.later expired_mono ht⟩
  saving t hc := by
    obtain ⟨hle, hrest⟩ := h.saving t hc
    exact ⟨Int64.le_trans hle ht, hrest⟩

inductive Children (hash : Bytes → UInt64) (path : Bytes) (files : FS Bytes UInt8)
    (clock : Int64) : List Child → Option KvMap → Prop
  | nobody : Children hash path files clock [] none
  | one {c : Child} {m : KvMap} (h : Forked hash path files clock m c) :
    Children hash path files clock [c] (some m)

theorem Children.later {files : FS Bytes UInt8} {clock clock' : Int64} {cs : List Child}
    {pending : Option KvMap} (h : Children hash path files clock cs pending)
    (ht : clock ≤ clock') : Children hash path files clock' cs pending := by
  cases h with
  | nobody => exact .nobody
  | one hc => exact .one (hc.later ht)

theorem Children.eq_one {files : FS Bytes UInt8} {clock : Int64} {cs : List Child}
    {pending : Option KvMap} (h : Children hash path files clock cs pending) {i : Nat}
    {c : Child} (hi : cs[i]? = some c) :
    i = 0 ∧ cs = [c] ∧ ∃ m, pending = some m ∧ Forked hash path files clock m c := by
  cases h with
  | nobody => cases hi
  | @one c' m hc =>
    cases i with
    | zero =>
      cases hi
      exact ⟨rfl, rfl, m, rfl, hc⟩
    | succ i => cases hi

structure Keeps (hash : Bytes → UInt64) (path : Bytes) (σ : Host) (d : Durable) : Prop where
  server : Option.Rel (Running hash path σ.clock) σ.server d.server
  snapshot : Snapshot hash σ.clock d.saved (σ.files.contents path)
  children : Children hash path σ.files σ.clock σ.children d.pending

theorem Running.rel_later {clock clock' : Int64} {a : Option CmdState} {b : Option KvServer}
    (h : Option.Rel (Running hash path clock) a b) (ht : clock ≤ clock') :
    Option.Rel (Running hash path clock') a b := by
  cases h with
  | some h => exact .some (h.later ht)
  | none => exact .none

theorem Keeps.boot {σ : Host} {d : Durable} (h : Keeps hash path σ d)
    (hlen : path.length < savePathSize) {now : Int64} (hdown : σ.server = none)
    (hnow : σ.clock ≤ now) :
    d.server = none ∧ Keeps hash path
      { σ with clock := now, server := some (σ.boot hash path now) }
      { d with server := some ⟨d.saved, path, 0⟩ } := by
  have hserver := h.server
  rw [hdown] at hserver
  have hd : d.server = none := by
    generalize d.server = x at hserver
    cases hserver
    rfl
  obtain ⟨hreach, hlags⟩ := h.snapshot.loaded hnow
  refine ⟨hd, .some ⟨⟨⟨hreach.inv, hlags⟩, cmdSetSavePath_eq hlen, rfl⟩, hreach,
    cmdSetSavePath_eq hlen⟩, h.snapshot.later hnow, h.children.later hnow⟩

theorem Running.served {clock : Int64} {st : CmdState} {kv : KvServer}
    (h : Running hash path clock st kv) {env : Env} (hclock : clock ≤ env.now) (cmd : Command) :
    ∃ v kv', KvServer.Step env kv cmd v kv' ∧ Encodes v (cmdDispatch hash env st cmd).2 ∧
      Running hash path env.now (cmdDispatch hash env st cmd).1 kv' := by
  obtain ⟨v, kv', hstep, hv, hshows⟩ := (h.later hclock).shows.step cmd
  refine ⟨v, kv', hstep, hv, hshows, h.reachable.dispatch env cmd, ?_⟩
  rw [hshows.savePath, hstep.savePath, ← h.shows.savePath, h.savePath]

theorem Durable.after_save {d : Durable} {env : Env} {cmd : Command} {kv kv' : KvServer}
    (h : request cmd = .ok .save) (hpath : kv.savePath ≠ []) :
    d.after env cmd kv kv' =
      { d with server := some kv', saved := if env.saveStatus = .ok then kv.map else d.saved } := by
  simp [after, h, hpath, Except.toOption]

theorem Durable.after_bgsave {d : Durable} {env : Env} {cmd : Command} {kv kv' : KvServer}
    (h : request cmd = .ok .bgsave) (hpath : kv.savePath ≠ []) (hfork : env.forkFails = false) :
    d.after env cmd kv kv' = { d with server := some kv', pending := some kv.map } := by
  simp [after, h, hpath, hfork, Except.toOption]

theorem Durable.after_other {d : Durable} {env : Env} {cmd : Command} {kv kv' : KvServer}
    (hsave : ¬ (request cmd = .ok .save ∧ kv.savePath ≠ []))
    (hbgsave : ¬ (request cmd = .ok .bgsave ∧ kv.savePath ≠ [] ∧ env.forkFails = false)) :
    d.after env cmd kv kv' = { d with server := some kv' } := by
  simp only [after, toOption_eq_some]
  rw [if_neg (fun h => hsave ⟨h.1, h.2.1⟩), if_neg hbgsave]

-- one persist_save of a server, and the map that path then stands for
theorem SaveRun.Ran.snapshot {r : SaveRun} {fs fs' : FS Bytes UInt8} (h : r.Ran path fs fs')
    {m old : KvMap} (hs : StoreReachable hash r.store) (hm : Lags expired r.store.toMap m r.time)
    (hfit : (persistImage r.store r.time).length < 2 ^ 63)
    (hold : Snapshot hash r.time old (fs.contents path)) :
    Snapshot hash r.time (if r.renamed = true then m else old) (fs'.contents path) := by
  rw [h.contents_eq]
  split_ifs
  · exact .image hs (Int64.le_refl _) hm hfit
  · exact hold

theorem SaveRun.Ran.idle {r : SaveRun} {fs fs' : FS Bytes UInt8} (h : r.Ran path fs fs')
    (hactions : r.actions = []) : fs' = fs := by
  obtain ⟨w, hexec, rfl, -⟩ := h.leaves
  rw [exec, hactions] at hexec
  cases hexec
  rfl

theorem Children.eq_none {files : FS Bytes UInt8} {clock : Int64} {pending : Option KvMap}
    (h : Children hash path files clock [] pending) : pending = none := by
  cases h
  rfl

variable {σ σ' : Host} {d : Durable}

theorem Keeps.running (h : Keeps hash path σ d) {st : CmdState} (hst : σ.server = some st) :
    ∃ kv, d.server = some kv ∧ Running hash path σ.clock st kv := by
  have hserver := h.server
  rw [hst] at hserver
  generalize d.server = x at hserver
  cases hserver with
  | some hrunning => exact ⟨_, rfl, hrunning⟩

theorem Keeps.quiet (h : Keeps hash path σ d) (hc : σ.children = []) (files : FS Bytes UInt8)
    (clock : Int64) : d.pending = none ∧ Children hash path files clock σ.children d.pending := by
  have hchildren := h.children
  rw [hc] at hchildren ⊢
  have hp := hchildren.eq_none
  exact ⟨hp, hp ▸ .nobody⟩

theorem Keeps.command (h : Keeps hash path σ d) {st : CmdState} {env : Env}
    {cmd : Command} {actions : List SaverAction} (hst : σ.server = some st)
    (hclock : σ.clock ≤ env.now) (hsole : σ.Sole (.command env cmd actions))
    (hs : σ.command hash st env cmd actions = some σ') :
    ∃ v kv kv', d.server = some kv ∧ KvServer.Step env kv cmd v kv' ∧
      Encodes v (cmdDispatch hash env st cmd).2 ∧
      σ'.said = σ.said ++ [((env, cmd), (cmdDispatch hash env st cmd).2)] ∧
      Keeps hash path σ' (d.after env cmd kv kv') := by
  obtain ⟨kv, hkv, hrunning⟩ := h.running hst
  obtain ⟨v, kv', hstep, hv, hrunning'⟩ := hrunning.served hclock cmd
  obtain ⟨hsave, hfork⟩ := hsole st hst
  have hsavePath : kv.savePath = path := hrunning.shows.savePath.symm.trans hrunning.savePath
  have hlags := (hrunning.later hclock).shows.mirrors.lags
  have hsaves : savesNow st cmd ↔ request cmd = .ok .save ∧ kv.savePath ≠ [] := by
    rw [savesNow, request_eq_save, hrunning.shows.savePath, and_assoc]
  have hforks : forksNow env st cmd ↔
      request cmd = .ok .bgsave ∧ kv.savePath ≠ [] ∧ env.forkFails = false := by
    rw [forksNow, request_eq_bgsave, hrunning.shows.savePath, and_assoc]
  refine ⟨v, kv, kv', hkv, hstep, hv, ?_⟩
  rw [Host.command] at hs
  by_cases hsn : savesNow st cmd
  · rw [if_pos hsn] at hs
    obtain ⟨fs, hfinish, rfl⟩ := Option.map_eq_some_iff.mp hs
    obtain ⟨hnone, hfit⟩ := hsave hsn
    obtain ⟨hreq, hne⟩ := hsaves.mp hsn
    have hran := SaveRun.Ran.of_finish hfinish
    rw [hrunning.savePath] at hran
    have hok : env.saveStatus = .ok ↔
        SaveRun.renamed ⟨st.store, env.now, actions, some env.saveStatus⟩ = true := by
      simpa using hran.outcome_ok_iff
    have hsnap := hran.snapshot hrunning.reachable hlags hfit (h.snapshot.later hclock)
    rw [Durable.after_save hreq hne]
    refine ⟨rfl, .some hrunning', ?_, (h.quiet hnone fs env.now).2⟩
    rw [if_congr hok rfl rfl]
    exact hsnap
  · rw [if_neg hsn] at hs
    by_cases hfn : forksNow env st cmd
    · rw [if_pos hfn] at hs
      cases hs
      obtain ⟨hreq, hne, hff⟩ := hforks.mp hfn
      rw [Durable.after_bgsave hreq hne hff]
      refine ⟨rfl, .some hrunning', h.snapshot.later hclock, ?_⟩
      rw [hfork hfn]
      exact .one ⟨hrunning.reachable, fun _ => ⟨rfl, hlags⟩, nofun⟩
    · rw [if_neg hfn] at hs
      cases hs
      rw [Durable.after_other (fun h => hsn (hsaves.mpr h)) (fun h => hfn (hforks.mpr h))]
      exact ⟨rfl, .some hrunning', h.snapshot.later hclock, h.children.later hclock⟩

theorem Host.stop_outcome {st : CmdState} {now : Int64} {actions : List SaverAction}
    {outcome : PersistStatus} (hs : σ.stop path st now actions (some outcome) = some σ') :
    outcome = .ok ↔ .rename ∈ actions := by
  obtain ⟨fs, hfinish, -⟩ := Option.map_eq_some_iff.mp hs
  have hran := SaveRun.Ran.of_finish hfinish
  simpa [SaveRun.renamed] using hran.outcome_ok_iff

theorem Keeps.stop (h : Keeps hash path σ d) {st : CmdState} {now : Int64}
    {actions : List SaverAction} {outcome : Option PersistStatus} (hst : σ.server = some st)
    (hclock : σ.clock ≤ now)
    (hsole : actions ≠ [] → σ.children = [] ∧ (persistImage st.store now).length < 2 ^ 63)
    (hs : σ.stop path st now actions outcome = some σ') {renamed : Prop} [Decidable renamed]
    (hrenamed : renamed ↔ .rename ∈ actions) :
    ∃ kv, d.server = some kv ∧ σ'.said = σ.said ∧ Keeps hash path σ' (d.stopped kv renamed) := by
  obtain ⟨kv, hkv, hrunning⟩ := h.running hst
  have hlags := (hrunning.later hclock).shows.mirrors.lags
  obtain ⟨fs, hfinish, rfl⟩ := Option.map_eq_some_iff.mp hs
  have hran := SaveRun.Ran.of_finish hfinish
  by_cases hactions : actions = []
  · obtain rfl := hran.idle hactions
    have hsaved : (d.stopped kv renamed).saved = d.saved :=
      if_neg (fun hr => by simpa [hactions] using hrenamed.mp hr)
    refine ⟨kv, hkv, rfl, .none, ?_, h.children.later hclock⟩
    rw [hsaved]
    exact h.snapshot.later hclock
  · obtain ⟨hnone, hfit⟩ := hsole hactions
    have hsnap := hran.snapshot hrunning.reachable hlags hfit (h.snapshot.later hclock)
    refine ⟨kv, hkv, rfl, .none, ?_, (h.quiet hnone fs now).2⟩
    have hiff : renamed ↔
        SaveRun.renamed ⟨st.store, now, actions, outcome⟩ = true := by
      rw [hrenamed, SaveRun.renamed, List.contains_iff_mem]
    rw [Durable.stopped, if_congr hiff rfl rfl]
    exact hsnap

theorem Keeps.childReads (h : Keeps hash path σ d) {i : Nat} {c : Child} {now : Int64}
    (hi : σ.children[i]? = some c) (htime : c.time = none) (hclock : σ.clock ≤ now)
    (hfit : (persistImage c.store now).length < 2 ^ 63) :
    Keeps hash path
      { σ with clock := now, children := σ.children.set i { c with time := some now } } d := by
  obtain ⟨rfl, hcs, m, hm, hforked⟩ := h.children.eq_one hi
  obtain ⟨hphase, hlags⟩ := hforked.waiting htime
  refine ⟨Running.rel_later h.server hclock, h.snapshot.later hclock, ?_⟩
  rw [hcs, hm]
  refine .one ⟨hforked.reachable, nofun, ?_⟩
  rintro t ht
  cases ht
  refine ⟨Int64.le_refl _, hlags.later expired_mono hclock, hfit, σ.files.contents path, ?_⟩
  change SaveStage path (persistImage c.store now) (σ.files.contents path) σ.files c.phase
  rw [hphase]
  exact .built rfl

theorem Keeps.childActs (h : Keeps hash path σ d) (hlen : path.length < savePathSize) {i : Nat}
    {c : Child} {t : Int64} {a : SaverAction} (hi : σ.children[i]? = some c)
    (htime : c.time = some t) (hs : σ.childActs path i c t a = some σ') :
    ∃ d', Durable.Step path d (.childActs i a) [] d' ∧ σ'.said = σ.said ∧
      Keeps hash path σ' d' := by
  obtain ⟨rfl, hcs, m, hm, hforked⟩ := h.children.eq_one hi
  obtain ⟨hle, hlags, hfit, old, hstage⟩ := hforked.saving t htime
  obtain ⟨w, hw, rfl⟩ := Option.map_eq_some_iff.mp hs
  rw [cmdSetSavePath_eq hlen] at hw
  have hbefore : c.phase ≠ .returned .ok := by
    intro hp
    rw [saveStep_returned hp] at hw
    cases hw
  obtain ⟨hstage', hrename⟩ :=
    @SaveStage.step path old (fun _ => (c.store, t)) ⟨σ.files, fun _ => c.phase⟩ w a hstage hw
  have hchildren : Children hash path w.files σ.clock
      (σ.children.set 0 { c with phase := w.phase () }) d.pending := by
    rw [hcs, hm]
    refine .one ⟨hforked.reachable, fun hnone => absurd (htime.symm.trans hnone) nofun, ?_⟩
    rintro t' ht'
    obtain rfl : t = t' := Option.some.inj (htime.symm.trans ht')
    exact ⟨hle, hlags, hfit, old, hstage'⟩
  by_cases hp : w.phase () = .returned .ok
  · rw [hp] at hstage'
    cases hstage' with
    | renamed hnew =>
      obtain rfl := hrename.mp hp
      refine ⟨_, .renames hm, rfl, h.server, ?_, hchildren⟩
      rw [hnew]
      exact .image hforked.reachable hle hlags hfit
  · refine ⟨d, .acts (fun ha => hp (hrename.mpr ha)), rfl, h.server, ?_, hchildren⟩
    have hsame : w.files.contents path = σ.files.contents path :=
      (hstage'.contents_old hp).trans (hstage.contents_old hbefore).symm
    change Snapshot hash σ.clock d.saved (w.files.contents path)
    rw [hsame]
    exact h.snapshot

theorem Keeps.childExits (h : Keeps hash path σ d) {i : Nat} {c : Child}
    (hi : σ.children[i]? = some c) :
    Keeps hash path { σ with children := σ.children.eraseIdx i } { d with pending := none } := by
  obtain ⟨rfl, hcs, -⟩ := h.children.eq_one hi
  refine ⟨h.server, h.snapshot, ?_⟩
  rw [hcs]
  exact .nobody

-- one event of the host is one step of the map machine, and the answers match
theorem Keeps.step (h : Keeps hash path σ d) (hlen : path.length < savePathSize) {e : HostEvent}
    (hsole : σ.Sole e) (hs : σ.step hash path e = some σ') :
    ∃ more said d', Durable.Step path d e more d' ∧ σ'.said = σ.said ++ said ∧
      List.Forall₂ (fun x y => x.1 = y.1 ∧ Encodes x.2 y.2) more said ∧ Keeps hash path σ' d' := by
  have silent {d' : Durable} (hstep : Durable.Step path d e [] d') (hsaid : σ'.said = σ.said)
      (hkeeps : Keeps hash path σ' d') :
      ∃ more said d', Durable.Step path d e more d' ∧ σ'.said = σ.said ++ said ∧
        List.Forall₂ (fun x y => x.1 = y.1 ∧ Encodes x.2 y.2) more said ∧
        Keeps hash path σ' d' :=
    ⟨[], [], d', hstep, hsaid.trans (List.append_nil _).symm, .nil, hkeeps⟩
  cases e with
  | boot now =>
    obtain ⟨⟨hdown, hclock⟩, heq⟩ := Option.ite_none_right_eq_some.mp hs
    cases heq
    obtain ⟨hnone, hboot⟩ := h.boot hlen hdown hclock
    exact silent (.boots hnone) rfl hboot
  | command env cmd actions =>
    obtain ⟨st, hst, hs⟩ := Option.bind_eq_some_iff.mp hs
    obtain ⟨hclock, hs⟩ := Option.ite_none_right_eq_some.mp hs
    obtain ⟨v, kv, kv', hkv, hstep, hv, hmore, hkeeps⟩ := h.command hst hclock hsole hs
    exact ⟨_, _, _, .serves hkv hstep, hmore, .cons ⟨rfl, hv⟩ .nil, hkeeps⟩
  | childReads i now =>
    obtain ⟨c, hi, hs⟩ := Option.bind_eq_some_iff.mp hs
    obtain ⟨⟨htime, hclock⟩, heq⟩ := Option.ite_none_right_eq_some.mp hs
    cases heq
    exact silent .reads rfl (h.childReads hi htime hclock (hsole c hi))
  | childActs i a =>
    obtain ⟨c, hi, hs⟩ := Option.bind_eq_some_iff.mp hs
    obtain ⟨t, htime, hs⟩ := Option.bind_eq_some_iff.mp hs
    obtain ⟨d', hstep, hsaid, hkeeps⟩ := h.childActs hlen hi htime hs
    exact silent hstep hsaid hkeeps
  | childExits i =>
    obtain ⟨c, hi, hs⟩ := Option.bind_eq_some_iff.mp hs
    obtain ⟨-, heq⟩ := Option.ite_none_right_eq_some.mp hs
    cases heq
    exact silent .exits rfl (h.childExits hi)
  | shutdown now actions outcome =>
    obtain ⟨st, hst, hs⟩ := Option.bind_eq_some_iff.mp hs
    obtain ⟨hclock, hs⟩ := Option.ite_none_right_eq_some.mp hs
    obtain ⟨kv, hkv, hsaid, hkeeps⟩ :=
      h.stop hst hclock (fun _ => hsole st hst) hs (Host.stop_outcome hs)
    exact silent (.shutsDown hkv) hsaid hkeeps
  | crash now actions =>
    obtain ⟨st, hst, hs⟩ := Option.bind_eq_some_iff.mp hs
    obtain ⟨hclock, hs⟩ := Option.ite_none_right_eq_some.mp hs
    obtain ⟨kv, hkv, hsaid, hkeeps⟩ := h.stop hst hclock (hsole st hst) hs Iff.rfl
    exact silent (.crashes hkv) hsaid hkeeps

theorem Host.exec_refines (hlen : path.length < savePathSize) {files : FS Bytes UInt8}
    {clock : Int64} {m : KvMap} (hfirst : Snapshot hash clock m (files.contents path))
    {es : List HostEvent}
    (h : Machine.exec (Machine.permit Sole (step hash path)) (start files clock) es = some σ) :
    ∃ answers d, Durable.Runs path m es answers d ∧
      List.Forall₂ (fun x y => x.1 = y.1 ∧ Encodes x.2 y.2) answers σ.said ∧
      Keeps hash path σ d := by
  let P (σ : Host) (es : List HostEvent) : Prop :=
    ∃ answers d, Durable.Runs path m es answers d ∧
      List.Forall₂ (fun x y => x.1 = y.1 ∧ Encodes x.2 y.2) answers σ.said ∧ Keeps hash path σ d
  have hstep : ∀ σ es e σ', P σ es → Machine.permit Sole (step hash path) σ e = some σ' →
      P σ' (es ++ [e]) := by
    rintro σ es e σ' ⟨answers, d, hruns, hsaid, hkeeps⟩ hs
    obtain ⟨hsole, hs⟩ := Option.ite_none_right_eq_some.mp hs
    obtain ⟨more, said, d', hnext, hmore, hencodes, hkeeps'⟩ := hkeeps.step hlen hsole hs
    refine ⟨answers ++ more, d', .next hruns hnext, ?_, hkeeps'⟩
    rw [hmore]
    exact List.rel_append hsaid hencodes
  exact Machine.exec_invariant hstep (P := P)
    ⟨[], .start m, .start, .nil, .none, hfirst, .nobody⟩ h

-- crashes, reloads and savers lose nothing of the map but what came after the last snapshot
theorem host_serves_durable_map (hlen : path.length < savePathSize) {files : FS Bytes UInt8}
    {clock : Int64} {m : KvMap} (hfirst : Snapshot hash clock m (files.contents path))
    {es : List HostEvent}
    (h : Machine.exec (Machine.permit Host.Sole (Host.step hash path)) (Host.start files clock) es =
      some σ) :
    ∃ answers d, Durable.Runs path m es answers d ∧
      List.Forall₂ (fun x y => x.1 = y.1 ∧ Encodes x.2 y.2) answers σ.said ∧
      Option.Rel (Shows hash σ.clock) σ.server d.server := by
  obtain ⟨answers, d, hruns, hsaid, hkeeps⟩ := Host.exec_refines hlen hfirst h
  refine ⟨answers, d, hruns, hsaid, ?_⟩
  have hserver := hkeeps.server
  generalize σ.server = st at hserver
  generalize d.server = kv at hserver
  cases hserver with
  | some hrunning => exact .some hrunning.shows
  | none => exact .none

def saverActions : List SaverAction := [.fopen, .write 999, .fclose, .rename]

-- INCR comes after the snapshot and is lost in the crash
def crashEvents : List HostEvent :=
  [.boot 1, .command (counterEnv 2) [str "SET", str "k", str "7"] [],
    .command (counterEnv 3) [str "BGSAVE"] [], .childReads 0 4] ++
  saverActions.map (.childActs 0) ++
  [.childExits 0, .command (counterEnv 5) [str "INCR", str "k"] [], .crash 6 [.fopen, .write 3],
    .boot 7, .command (counterEnv 8) [str "GET", str "k"] []]

def hostRun (es : List HostEvent) : Option Host :=
  Machine.exec (Machine.permit Host.Sole (Host.step fnv1aHash (str "dump")))
    (Host.start .empty 0) es

theorem hostRun_crash :
    (hostRun crashEvents).map (fun σ => σ.said.map (fun x => x.2)) =
      some [str "+OK\r\n", str "+Background saving started\r\n", str ":8\r\n",
        str "$1\r\n7\r\n"] := by
  decide +kernel

theorem host_serves_durable_map_crash :
    ∃ σ, hostRun crashEvents = some σ ∧ σ.said.map (fun x => x.2) = [str "+OK\r\n",
      str "+Background saving started\r\n", str ":8\r\n", str "$1\r\n7\r\n"] ∧
      ∃ answers d, Durable.Runs (str "dump") ∅ crashEvents answers d ∧
        List.Forall₂ (fun x y => x.1 = y.1 ∧ Encodes x.2 y.2) answers σ.said := by
  obtain ⟨σ, hσ, hsaid⟩ := Option.map_eq_some_iff.mp hostRun_crash
  obtain ⟨answers, d, hruns, hencodes, -⟩ :=
    host_serves_durable_map (by decide) (.absent rfl) hσ
  exact ⟨σ, hσ, hsaid, answers, d, hruns, hencodes⟩

end RedisServer

import RedisServer.Cmd.MapMachine
import RedisServer.Server.EpollRuns
import RedisServer.Server.PoolRefinement

namespace RedisServer

variable {hash : Bytes → UInt64} {κ : Type} [DecidableEq κ]

-- the answers of one run that go to one client
def answersOf (c : κ) (log : DispatchLog κ) (vs : List (Option Resp)) : List (Option Resp) :=
  ((log.zip vs).filter (fun x => x.1.1 = c)).map Prod.snd

theorem forall₂_zip_filter {α β γ : Type} {R : β → γ → Prop} (p : α → Bool) {bs : List β}
    {cs : List γ} (h : List.Forall₂ R bs cs) (as : List α) :
    List.Forall₂ R (((as.zip bs).filter (fun x => p x.1)).map Prod.snd)
      (((as.zip cs).filter (fun x => p x.1)).map Prod.snd) := by
  induction h generalizing as with
  | nil => simp
  | @cons b c bs cs hbc _ ih =>
    cases as with
    | nil => exact .nil
    | cons a as =>
      rw [List.zip_cons_cons, List.zip_cons_cons, List.filter_cons, List.filter_cons]
      cases hp : p a with
      | true => exact .cons hbc (ih as)
      | false => exact ih as

theorem log_serves_map {st : CmdState} (hs : StoreReachable hash st.store) {log : DispatchLog κ}
    (hclock : (log.map (fun x => x.2.1.now)).Pairwise (· ≤ ·)) :
    ∃ vs kv, KvServer.Runs st.kv (log.map Prod.snd) vs kv ∧
      ∀ c, List.Forall₂ Encodes (answersOf c log vs) (repliesOf hash st c log) := by
  have hcalls : ((log.map Prod.snd).map (fun x => x.1.now)).Pairwise (· ≤ ·) := by
    rwa [List.map_map]
  obtain ⟨vs, kv, hruns, hvs, -⟩ := hs.runs hcalls
  exact ⟨vs, kv, hruns, fun c =>
    forall₂_zip_filter (fun x : κ × Env × Command => decide (x.1 = c)) hvs log⟩

theorem EpollServer.epoll_server_serves_map {st : CmdState} (hs : StoreReachable hash st.store)
    {envs : Nat → Nat → Env} {σ : EpollServer} (h : Reached hash envs st σ)
    (hclock : (σ.log.map (fun x => x.2.1.now)).Pairwise (· ≤ ·)) :
    ∃ vs kv, KvServer.Runs st.kv (σ.log.map Prod.snd) vs kv ∧
      ∀ c, ∃ replies tail : List Bytes, List.Forall₂ Encodes (answersOf c σ.log vs) replies ∧
        (∀ line ∈ tail, IsErrorLine line) ∧
        (tail ≠ [] → (σ.session c).conn.closing = true) ∧
        (σ.session c).delivered = replies.flatten ++ tail.flatten := by
  obtain ⟨vs, kv, hruns, hvs⟩ := log_serves_map hs hclock
  refine ⟨vs, kv, hruns, fun c => ?_⟩
  obtain ⟨tail, hlines, hclosing, howed⟩ := (h.inv.attends.answered c).owed
  exact ⟨_, tail, hvs c, hlines, hclosing, howed⟩

theorem EpollServer.reuseServer_clock :
    (reuseServer []).map (fun σ => σ.log.map (fun x => x.2.1.now)) = some [0, 0] := by
  decide +kernel

theorem EpollServer.epoll_server_serves_map_reuse :
    ∃ σ, reuseServer [] = some σ ∧ ∃ vs kv,
      KvServer.Runs freshState.kv (σ.log.map Prod.snd) vs kv ∧
      ∃ replies tail : List Bytes, List.Forall₂ Encodes (answersOf 1 σ.log vs) replies ∧
        (σ.session 1).delivered = replies.flatten ++ tail.flatten := by
  obtain ⟨σ, hσ, hclock⟩ := Option.map_eq_some_iff.mp reuseServer_clock
  obtain ⟨vs, kv, hruns, hserved⟩ := epoll_server_serves_map storeCreate_reachable
    (reached_reuseServer hσ) (by rw [hclock]; decide)
  obtain ⟨replies, tail, hencodes, -, -, howed⟩ := hserved 1
  exact ⟨σ, hσ, vs, kv, hruns, replies, tail, hencodes, howed⟩

theorem ThreadPool.thread_pool_serves_map {n : Nat} {st : CmdState}
    (hs : StoreReachable hash st.store) {stream : κ → Bytes} {arriving : List κ}
    {path : Option Bytes} {σ : ThreadPool κ n}
    (h : Reached hash stream arriving st path σ)
    (hclock : (σ.log.map (fun x => x.2.1.now)).Pairwise (· ≤ ·)) :
    ∃ vs kv, KvServer.Runs st.kv (σ.log.map Prod.snd) vs kv ∧
      ∀ c, ∃ replies : List Bytes, List.Forall₂ Encodes (answersOf c σ.log vs) replies ∧
        Served replies (σ.peer c) := by
  obtain ⟨vs, kv, hruns, hvs⟩ := log_serves_map hs hclock
  refine ⟨vs, kv, hruns, fun c => ⟨_, hvs c, ?_⟩⟩
  obtain ⟨⟨rest, hc, -, -⟩, -, howes, hbroken, hsettled⟩ := h.refines.2.inv.peers c
  exact ⟨howes, hsettled.resolve_left, hbroken⟩

theorem ThreadPool.reuseEnd_clock :
    reuseEnd.map (fun σ => σ.log.map (fun x => x.2.1.now)) = some [0, 0] := by
  decide +kernel

theorem ThreadPool.thread_pool_serves_map_reuse :
    ∃ σ, reuseEnd = some σ ∧ ∃ vs kv, KvServer.Runs freshState.kv (σ.log.map Prod.snd) vs kv ∧
      ∃ replies : List Bytes, List.Forall₂ Encodes (answersOf true σ.log vs) replies ∧
        Served replies (σ.peer true) := by
  obtain ⟨σ, hσ, hclock⟩ := Option.map_eq_some_iff.mp reuseEnd_clock
  have hrun : Reached fnv1aHash (fun _ => str "INCR n\r\n") [true, false] freshState
      (some (str "dump")) σ :=
    Machine.ReachableVia.start.exec (fun _ _ => trivial) hσ
  obtain ⟨vs, kv, hruns, hserved⟩ := thread_pool_serves_map storeCreate_reachable hrun
    (by rw [hclock]; decide)
  obtain ⟨replies, hencodes, hpeer⟩ := hserved true
  exact ⟨σ, hσ, vs, kv, hruns, replies, hencodes, hpeer⟩

end RedisServer

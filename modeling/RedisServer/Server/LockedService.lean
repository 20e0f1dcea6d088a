import RedisServer.Server.LockedRefinement
import RedisServer.Server.PoolTermination

namespace RedisServer

open Monitor (Pc)
open Sections

variable {κ : Type} {n : Nat}

-- the steps a thread takes by itself: no client, no signal and no spurious wakeup is needed
def ThreadEvent.own : ThreadEvent n → Bool
  | .accept _ => false
  | .stop => false
  | .queue (.spurious _) => false
  | .serve _ .parse => true
  | .serve _ _ => false
  | _ => true

def LockedEvent.own : LockedEvent n → Bool
  | .pool ev => ev.own
  | .write _ _ => false
  | .interrupted _ => false
  | .writeFails _ => false
  | _ => true

theorem ThreadEvent.not_coarse {ev : ThreadEvent n} (h : ev.own = true) : ev.coarse = false := by
  cases ev with
  | serve i s =>
    cases s with
    | dispatch => cases h
    | flush => cases h
    | _ => rfl
  | _ => rfl

namespace LockedPool

-- in read(), or in write() with bytes left
def waitsForClient (σ : LockedPool κ n) (i : Fin n) : Prop :=
  ∃ c, σ.pool.conn i = some c ∧ ((σ.pool.peer c).phase = .reading ∨
    (∃ fatal, σ.flushing c = some fatal) ∧ σ.sent c < (σ.pool.peer c).out.length)

variable [DecidableEq κ] {hash : Bytes → UInt64} {cut : Cut hash} {stream : κ → Bytes}
  {arriving : List κ} {st before : CmdState} {path : Option Bytes} {σ σ' : LockedPool κ n}

section Order

omit [DecidableEq κ] in
theorem received_ordered {replies : List Bytes} {c : κ} (h : Served replies (σ.pool.peer c)) :
    ∃ tail, (tail = [] ∨ (σ.pool.peer c).phase.alive = false ∧
        IsFarewell (σ.pool.peer c).inBuf tail) ∧ σ.received c <+: replies.flatten ++ tail := by
  obtain ⟨tail, htail, howes⟩ := h.owes
  refine ⟨tail, htail, ?_⟩
  rw [received]
  by_cases hbroken : (σ.pool.peer c).broken = true
  · have hout : (σ.pool.peer c).out = [] := by
      by_contra hne
      obtain ⟨fatal, hphase⟩ := h.flushed hne
      rw [h.broken hbroken] at hphase
      cases hphase
    rw [if_pos hbroken] at howes
    rwa [hout, List.take_nil, List.append_nil]
  · rw [if_neg hbroken] at howes
    rw [← howes]
    exact (List.prefix_append_right_inj _).mpr (List.take_prefix _ _)

theorem Locked.before_eq (h : Locked hash stream arriving st path σ before) :
    before = (sequential hash st σ.pool.log).1 := h.reached.refines.2.inv.state

theorem Locked.served (h : Locked hash stream arriving st path σ before) (c : κ) :
    commandsOf c σ.pool.log <+: (respParser.drain (stream c)).cmds ∧
      Served (repliesOf hash st c σ.pool.log) (σ.pool.peer c) := by
  obtain ⟨⟨rest, hc, -, -⟩, -, howes, hbroken, hsettled⟩ := h.reached.refines.2.inv.peers c
  exact ⟨hc.initial, howes, hsettled.resolve_left, hbroken⟩

theorem lock_level_server_serializable (h : Reached cut stream arriving st path σ) :
    (∀ i, σ.body i ≠ none → σ.owner = some i) ∧
    Interleaved hash stream arriving st
      { σ.pool.view with state := (sequential hash st σ.pool.log).1 } ∧
    ((∀ i, σ.body i = none) → σ.pool.state = (sequential hash st σ.pool.log).1) ∧
    (∀ i code, σ.body i = some code → ∃ c cmd consumed, σ.pool.conn i = some c ∧
      (σ.pool.peer c).phase = .locking cmd consumed ∧ code.run σ.pool.state =
        cmdDispatch hash (σ.moment i) (sequential hash st σ.pool.log).1 cmd) ∧
    (∀ c, commandsOf c σ.pool.log <+: (respParser.drain (stream c)).cmds ∧
      Served (repliesOf hash st c σ.pool.log) (σ.pool.peer c) ∧
      ∃ tail, (tail = [] ∨ (σ.pool.peer c).phase.alive = false ∧
          IsFarewell (σ.pool.peer c).inBuf tail) ∧
        σ.received c <+: (repliesOf hash st c σ.pool.log).flatten ++ tail) ∧
    σ.pool.live.Nodup ∧ ∀ fd, (∃ c, σ.pool.files fd = some c) ↔ fd ∈ σ.pool.live := by
  obtain ⟨before, hlocked⟩ := h.locked
  have hbefore := hlocked.before_eq
  subst hbefore
  have hdesk := hlocked.reached.whole.desk
  refine ⟨hlocked.inside, hlocked.reached.refines.2, hlocked.underway.clean, ?_, ?_, hdesk.nodup,
    fun fd => ⟨?_, hdesk.filed fd⟩⟩
  · intro i code hcode
    obtain ⟨c, cmd, consumed, hconn, hphase, hrun⟩ := hlocked.underway.ends i code hcode
    exact ⟨c, cmd, consumed, hconn, hphase, hrun.symm⟩
  · intro c
    obtain ⟨hcommands, hserved⟩ := hlocked.served c
    exact ⟨hcommands, hserved, received_ordered hserved⟩
  · rintro ⟨c, hc⟩
    refine hdesk.held fd ?_
    change σ.pool.files fd ≠ none
    rw [hc]
    nofun

end Order

section Contention

open ThreadPool (one two)

def queued (t : Option (Fin 2)) (chosen : Option (Option (Fin 2))) : List (LockedEvent 2) :=
  [.pool (.queue (.lock t)), .pool (.queue (.test t)), .pool (.queue (.wake t chosen)),
    .pool (.queue (.unlock t))]

def asks (i : Fin 2) : List (LockedEvent 2) := [.pool (.serve i (.read 8)), .pool (.serve i .parse)]

-- both clients want to count; the reply to the first is half written, and the second holds the
-- mutex, has changed the store and has no reply yet
def contendedRun : List (LockedEvent 2) :=
  List.flatten [
    [.pool (.accept 5)], queued none none, [.pool (.pop two)], queued (some two) none,
    [.pool (.accept 6)], queued none none, [.pool (.pop one)], queued (some one) none,
    asks two, asks one,
    [.lock two quietMoment, .access two, .access two, .access two, .unlock two, .interrupted two,
      .write two 2, .lock one quietMoment, .access one, .access one]]

def lockedStart : LockedPool Bool 2 :=
  start (fun _ => str "INCR n\r\n") [true, false] ⟨storeCreate, [], 0⟩ (some (str "dump"))

def contendedEnd : Option (LockedPool Bool 2) :=
  Machine.exec (step (storeCut fnv1aHash)) lockedStart contendedRun

theorem contendedEnd_reached {σ : LockedPool Bool 2} (h : contendedEnd = some σ) :
    Reached (storeCut fnv1aHash) (fun _ => str "INCR n\r\n") [true, false]
      ⟨storeCreate, [], 0⟩ (some (str "dump")) σ :=
  Machine.ReachableVia.start.exec (fun _ _ => trivial) h

theorem contendedEnd_view :
    contendedEnd.map (fun σ => (σ.owner, σ.pool.main, (σ.body one).isSome, σ.received true,
        σ.pool.log.map Prod.fst)) = some (some one, .accepting, true, str ":1", [true]) := by
  decide +kernel

theorem lock_level_server_serializable_contended :
    ∃ σ, contendedEnd = some σ ∧ σ.received true = str ":1" ∧ ∃ code c cmd,
      σ.body one = some code ∧ code.run σ.pool.state = cmdDispatch fnv1aHash (σ.moment one)
        (sequential fnv1aHash ⟨storeCreate, [], 0⟩ σ.pool.log).1 cmd ∧
      σ.pool.conn one = some c := by
  obtain ⟨σ, hσ, hview⟩ := Option.map_eq_some_iff.mp contendedEnd_view
  simp only [Prod.mk.injEq] at hview
  obtain ⟨-, -, hbody, hreceived, -⟩ := hview
  obtain ⟨code, hcode⟩ := Option.isSome_iff_exists.mp hbody
  obtain ⟨-, -, -, hends, -⟩ := lock_level_server_serializable (contendedEnd_reached hσ)
  obtain ⟨c, cmd, -, hconn, -, hrun⟩ := hends one code hcode
  exact ⟨σ, hσ, hreceived, code, c, cmd, hcode, hrun, hconn⟩

end Contention

section End

theorem Locked.nobody (h : Locked hash stream arriving st path σ before)
    {outcome : Option PersistStatus} (hsaved : σ.pool.main = .saved outcome) (i : Fin n) :
    σ.pool.conn i = none := by
  rw [ThreadPool.conn, show σ.pool.worker i = .exited from
    (h.reached.whole.ending.saved outcome hsaved).1 i]

theorem Locked.stopped (h : Locked hash stream arriving st path σ before)
    {outcome : Option PersistStatus} (hsaved : σ.pool.main = .saved outcome)
    (ev : LockedEvent n) : LockedPool.step cut σ ev = none := by
  have hnobody := h.nobody hsaved
  rw [Option.eq_none_iff_forall_ne_some]
  intro σ' hs
  cases step_cases hs with
  | pool hev hp =>
    have hcase := (h.pool_case hev hp).2.step
    rw [h.reached.whole.stopped hsaved] at hcase
    cases hcase
  | @access i f next hbody =>
    obtain ⟨c, -, -, hconn, -⟩ := h.underway.ends i _ hbody
    rw [hnobody] at hconn
    cases hconn
  | lockRefuse _ hconn => rw [hnobody] at hconn; cases hconn
  | lock _ hconn => rw [hnobody] at hconn; cases hconn
  | unlock hconn => rw [hnobody] at hconn; cases hconn
  | unlockRefuse hconn => rw [hnobody] at hconn; cases hconn
  | write hconn => rw [hnobody] at hconn; cases hconn
  | interrupted hconn => rw [hnobody] at hconn; cases hconn
  | leaveWrite hconn => rw [hnobody] at hconn; cases hconn

end End

section Goodbye

open ThreadPool (one two)

def answers (i : Fin 2) : List (LockedEvent 2) :=
  [.lock i quietMoment, .access i, .access i, .access i, .unlock i, .write i 1, .write i 3,
    .flushed i, .pool (.serve i .parse)]

def leaves (i : Fin 2) : List (LockedEvent 2) :=
  [.pool (.serve i (.noRead .eof)), .pool (.close i), .pool (.pop i),
    .pool (.queue (.lock (some i))), .pool (.queue (.test (some i))),
    .pool (.queue (.unlock (some i)))]

end Goodbye

section Progress

theorem step_pool (ev : ThreadEvent n) {p : ThreadPool κ n} (hev : ev.own = true)
    (hs : ThreadPool.step hash σ.pool ev = some p) :
    ∃ ev σ', LockedEvent.own ev = true ∧ step cut σ ev = some σ' := by
  refine ⟨.pool ev, { σ with pool := p, refusing := σ.refuse ev p }, hev, ?_⟩
  rw [step, ThreadEvent.not_coarse hev, if_neg Bool.false_ne_true, hs]
  rfl

variable (h : Locked hash stream arriving st path σ before)

include h

theorem Locked.control : ThreadPool.Control σ.pool :=
  have hc := h.reached.whole.control
  ⟨hc.reached, hc.fits, hc.mainOut, hc.workerOut, hc.flag⟩

theorem Locked.awake_moves {t : Option (Fin n)} (ht : (σ.pool.threads.pc t).awake = true) :
    ∃ ev σ', LockedEvent.own ev = true ∧ LockedPool.step cut σ ev = some σ' := by
  obtain ⟨e, q, hactor, hs⟩ := Monitor.awake_moves (m := queueMonitor)
    (Monitor.Reached.owned h.control.reached) ht
  have inner (hown : (ThreadEvent.queue e : ThreadEvent n).own = true)
      (hq : ThreadPool.queueStep σ.pool e = some { σ.pool with threads := q }) :
      ∃ ev σ', LockedEvent.own ev = true ∧ LockedPool.step cut σ ev = some σ' :=
    step_pool _ hown hq
  cases e with
  | call u op =>
    cases Monitor.step_cases hs with
    | call hpc => simp [Monitor.Event.actor, hpc, Pc.awake] at hactor
  | spurious u =>
    cases Monitor.step_cases hs with
    | spurious hpc => simp [Monitor.Event.actor, hpc, Pc.awake] at hactor
  | unlock u =>
    cases Monitor.step_cases hs with
    | unlock hpc =>
      exact step_pool (.queue (.unlock u)) rfl
        (by simp only [ThreadPool.step, ThreadPool.queueStep, hpc, hs]; rfl)
  | lock u => exact inner rfl (by simp only [ThreadPool.queueStep, hs]; rfl)
  | test u => exact inner rfl (by simp only [ThreadPool.queueStep, hs]; rfl)
  | wake u chosen => exact inner rfl (by simp only [ThreadPool.queueStep, hs]; rfl)

-- whoever holds g_store_mu can go on: there is no other lock to take inside
theorem Locked.owner_moves {i : Fin n} (howner : σ.owner = some i) :
    ∃ ev σ', LockedEvent.own ev = true ∧ LockedPool.step cut σ ev = some σ' := by
  cases hbody : σ.body i with
  | none =>
    obtain ⟨c, hconn, hrefuse⟩ := h.holds i howner hbody
    refine ⟨.unlock i,
      { σ with owner := none, refusing := Function.update σ.refusing c false }, rfl, ?_⟩
    simp [LockedPool.step, hconn, LockedPool.unlock, hbody, h.refusing c hrefuse, howner, hrefuse]
  | some code =>
    cases code with
    | step f next =>
      exact ⟨.access i, _, rfl, by simp only [LockedPool.step, LockedPool.access, hbody]; rfl⟩
    | ret reply =>
      obtain ⟨c, cmd, consumed, hconn, hphase, -⟩ := h.underway.ends i _ hbody
      refine ⟨.unlock i, { σ with
        pool := dispatched σ.pool c (σ.moment i) cmd consumed reply
        owner := none
        body := Function.update σ.body i none }, rfl, ?_⟩
      simp only [LockedPool.step, hconn, Option.bind_some, LockedPool.unlock, hbody, hphase]

theorem Locked.serving_moves (hfree : σ.owner = none) {i : Fin n} {fd : Nat}
    (hserving : σ.pool.worker i = .serving fd) :
    σ.waitsForClient i ∨
      ∃ ev σ', LockedEvent.own ev = true ∧ LockedPool.step cut σ ev = some σ' := by
  have hclaim : (σ.atLock before).claimed i = some fd := ThreadPool.claimed_of_serving hserving
  obtain ⟨c, hfile⟩ := h.reached.whole.desk.filed fd
    (ThreadPool.mem_live.mpr (.inr (.inr ⟨i, hclaim⟩)))
  have hconn : σ.pool.conn i = some c := ThreadPool.conn_of_serving hserving hfile
  have hlock (hgo : ∃ σ', LockedPool.lock cut σ i quietMoment c = some σ') :
      ∃ ev σ', LockedEvent.own ev = true ∧ LockedPool.step cut σ ev = some σ' := by
    obtain ⟨σ', hσ'⟩ := hgo
    refine ⟨.lock i quietMoment, σ', rfl, ?_⟩
    rw [LockedPool.step, hconn, Option.bind_some, if_pos hfree, hσ']
  cases hphase : (σ.pool.peer c).phase with
  | reading => exact .inl ⟨c, hconn, .inl hphase⟩
  | parsing =>
    refine .inr (step_pool (.serve i .parse)
      (p := σ.pool.absorb (σ.pool.view.setPeer c (peerParse (σ.pool.peer c)))) rfl ?_)
    have hparse : poolStep hash σ.pool.view (ConnStep.event i .parse) =
        some (σ.pool.view.setPeer c (peerParse (σ.pool.peer c))) := by
      rw [ConnStep.event, poolStep, ThreadPool.view_worker hconn]
      exact if_pos hphase
    simp only [ThreadPool.step, hserving, hparse]
    rfl
  | locking cmd consumed =>
    refine .inr (hlock ?_)
    rw [LockedPool.lock, hphase]
    split_ifs
    · exact ⟨_, rfl⟩
    · exact ⟨_, rfl⟩
  | flushing fatal =>
    cases hrefuse : σ.refusing c with
    | true => exact .inr (hlock ⟨_, if_pos hrefuse⟩)
    | false =>
      have hflush : σ.flushing c = some fatal := flushing_eq_some.mpr ⟨hphase, hrefuse⟩
      rcases Nat.lt_or_eq_of_le (h.sent c) with hlt | heq
      · exact .inl ⟨c, hconn, .inr ⟨⟨fatal, hflush⟩, hlt⟩⟩
      · refine .inr ⟨.flushed i, σ.leaveWrite c fatal none, rfl, ?_⟩
        rw [LockedPool.step, hconn, Option.bind_some, LockedPool.flushed, hflush, Option.bind_some,
          if_pos heq]
  | closed =>
    have hopen : σ.pool.files fd = some c := hfile
    exact .inr (step_pool (.close i) rfl
      (by simp only [ThreadPool.step, hserving, hopen, hphase, if_true]; rfl))

theorem Locked.idle_moves {i : Fin n} (hidle : σ.pool.worker i = .idle) :
    (∃ op, σ.pool.threads.pc (some i) = .asleep op) ∨
      ∃ ev σ', LockedEvent.own ev = true ∧ LockedPool.step cut σ ev = some σ' := by
  cases hpc : σ.pool.threads.pc (some i) with
  | asleep op => exact .inl ⟨op, rfl⟩
  | outside =>
    exact .inr (step_pool (.pop i) rfl
      (by simp only [ThreadPool.step, hidle, ThreadPool.callQueue, Monitor.step, hpc]; rfl))
  | locking op => exact .inr (h.awake_moves (t := some i) (by rw [hpc]; rfl))
  | testing op => exact .inr (h.awake_moves (t := some i) (by rw [hpc]; rfl))
  | waking o left => exact .inr (h.awake_moves (t := some i) (by rw [hpc]; rfl))

end Progress

-- no thread can go on by itself: both mutexes are free, and everybody waits for a client, for main
-- or for nothing any more
structure AtRest (σ : LockedPool κ n) : Prop where
  storeMu : σ.owner = none
  queueMu : σ.pool.threads.owner = none
  workers : ∀ i, σ.pool.worker i = .exited ∨ (∃ op, σ.pool.threads.pc (some i) = .asleep op) ∨
    σ.waitsForClient i
  queue : ∀ i op, σ.pool.threads.pc (some i) = .asleep op → σ.pool.threads.shared.count = 0

section Deadlock

variable (h : Locked hash stream arriving st path σ before)
  (hstuck : ¬ ∃ ev σ', LockedEvent.own ev = true ∧ LockedPool.step cut σ ev = some σ')

include h hstuck

theorem Locked.quiet (t : Option (Fin n)) : (σ.pool.threads.pc t).awake = false := by
  by_contra ht
  exact hstuck (h.awake_moves (by simpa using ht))

theorem Locked.asleep_blocked {t : Option (Fin n)} {op : QueueOp}
    (ht : σ.pool.threads.pc t = .asleep op) : wqStep σ.pool.threads.shared op = none := by
  have hreached : Monitor.Reached queueMonitor wqInit σ.pool.threads := h.control.reached
  exact workQueueCredit.no_lost_wakeup (Nat.zero_le _) hreached (h.quiet hstuck) ht

theorem Locked.popping {i : Fin n} {op : QueueOp}
    (hi : σ.pool.threads.pc (some i) = .asleep op) :
    σ.pool.threads.shared.count = 0 ∧ σ.pool.threads.shared.shutdown = false := by
  have hblocked := h.asleep_blocked hstuck hi
  have hfits := h.control.fits (some i)
  rw [hi] at hfits
  cases op with
  | push => cases hfits
  | shutdown => cases hfits
  | pop worker => exact (wqStep_pop_none worker).mp hblocked

theorem Locked.atRest : σ.AtRest := by
  have hfree : σ.owner = none := by
    by_contra hne
    obtain ⟨i, hi⟩ := Option.ne_none_iff_exists'.mp hne
    exact hstuck (h.owner_moves hi)
  refine ⟨hfree, ?_, fun i => ?_, fun i op hi => (h.popping hstuck hi).1⟩
  · by_contra hne
    obtain ⟨t, ht⟩ := Option.ne_none_iff_exists'.mp hne
    have hinside := ((Monitor.Reached.owned h.control.reached) t).mpr ht
    have hquiet := h.quiet hstuck t
    cases hpc : σ.pool.threads.pc t with
    | testing op => rw [hpc] at hquiet; cases hquiet
    | waking o left => rw [hpc] at hquiet; cases hquiet
    | _ => rw [hpc] at hinside; cases hinside
  · cases hphase : σ.pool.worker i with
    | exited => exact .inl rfl
    | idle => exact .inr (.inl ((h.idle_moves hphase).resolve_right hstuck))
    | serving fd => exact .inr (.inr ((h.serving_moves hfree hphase).resolve_right hstuck))

-- main sleeps in wq_push because the queue is full, and then no worker sleeps
theorem Locked.pushing (hn : 0 < n) {op : QueueOp}
    (hpc : σ.pool.threads.pc none = .asleep op) : ∃ i, σ.waitsForClient i := by
  have hblocked := h.asleep_blocked hstuck hpc
  have hfits := h.control.fits none
  rw [hpc] at hfits
  cases op with
  | pop => cases hfits
  | shutdown => cases hblocked
  | push fd =>
    obtain ⟨hfull, hopen⟩ := (wqStep_push_none fd).mp hblocked
    refine ⟨⟨0, hn⟩, ?_⟩
    rcases (h.atRest hstuck).workers ⟨0, hn⟩ with hexit | ⟨op, hop⟩ | hwaits
    · have hshut := (h.reached.whole.ending.drained ⟨0, hn⟩ (.inl hexit)).2
      exact absurd (hopen.symm.trans hshut) nofun
    · have hempty := (h.popping hstuck hop).1
      rw [hfull] at hempty
      cases hempty
    · exact hwaits

theorem Locked.joining {k : Nat} (hmain : σ.pool.main = .joining k) :
    ∃ i, σ.waitsForClient i := by
  have hclosing : (σ.atLock before).main.closing = true := by
    change σ.pool.main.closing = true
    rw [hmain]
    rfl
  rcases Nat.lt_or_eq_of_le (h.reached.whole.ending.joined k hmain).1 with hk | rfl
  · refine ⟨⟨k, hk⟩, ?_⟩
    rcases (h.atRest hstuck).workers ⟨k, hk⟩ with hexit | ⟨op, hop⟩ | hwaits
    · refine absurd (step_pool .join (p := { σ.pool with main := .joining (k + 1) }) rfl ?_) hstuck
      simp only [ThreadPool.step, hmain, hk, hexit]
      rfl
    · exact absurd hop (h.reached.whole.nobody_asleep hclosing _ op)
    · exact hwaits
  · refine absurd (step_pool (.save .ok) (p := σ.pool.save .ok) rfl ?_) hstuck
    simp only [ThreadPool.step, hmain, if_true]

end Deadlock

theorem thread_pool_never_deadlocks (hn : 0 < n) (h : Reached cut stream arriving st path σ)
    (hm : ∀ outcome, σ.pool.main ≠ .saved outcome) :
    (∃ ev σ', LockedEvent.own ev = true ∧ step cut σ ev = some σ') ∨
      σ.AtRest ∧ (σ.pool.main = .accepting ∨ ∃ i, σ.waitsForClient i) := by
  obtain ⟨before, hlocked⟩ := h.locked
  by_cases hstuck : ∃ ev σ', LockedEvent.own ev = true ∧ step cut σ ev = some σ'
  · exact .inl hstuck
  · refine .inr ⟨hlocked.atRest hstuck, ?_⟩
    cases hmain : σ.pool.main with
    | accepting => exact .inl rfl
    | joining k => exact .inr (hlocked.joining hstuck hmain)
    | saved outcome => exact absurd hmain (hm outcome)
    | calling =>
      have hout := hlocked.reached.whole.ending.calling hmain
      have hquiet := hlocked.quiet hstuck none
      cases hpc : σ.pool.threads.pc none with
      | outside => exact absurd hpc hout
      | asleep op => exact .inr (hlocked.pushing hstuck hn hpc)
      | locking op => rw [hpc] at hquiet; cases hquiet
      | testing op => rw [hpc] at hquiet; cases hquiet
      | waking o left => rw [hpc] at hquiet; cases hquiet

section Contention

theorem thread_pool_never_deadlocks_contended :
    ∃ σ, contendedEnd = some σ ∧
      ∃ ev σ', LockedEvent.own ev = true ∧ step (storeCut fnv1aHash) σ ev = some σ' := by
  obtain ⟨σ, hσ, hview⟩ := Option.map_eq_some_iff.mp contendedEnd_view
  simp only [Prod.mk.injEq] at hview
  obtain ⟨howner, hmain, -⟩ := hview
  refine ⟨σ, hσ, ?_⟩
  rcases thread_pool_never_deadlocks Nat.two_pos (contendedEnd_reached hσ)
    (by rw [hmain]; nofun) with hmoves | ⟨hrest, -⟩
  · exact hmoves
  · exact absurd (howner.symm.trans hrest.storeMu) (by simp)

end Contention

end LockedPool

end RedisServer

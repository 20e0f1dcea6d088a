import RedisServer.Server.LockedPool

namespace RedisServer

open Sections

variable {κ : Type} {n : Nat}

namespace ThreadPool

variable {σ σ' : ThreadPool κ n}

theorem conn_serving {i : Fin n} {c : κ} (h : σ.conn i = some c) :
    ∃ fd, σ.worker i = .serving fd ∧ σ.files fd = some c := by
  rw [conn] at h
  split at h
  case h_1 fd hserving => exact ⟨fd, hserving, h⟩
  case h_2 => cases h

theorem conn_of_serving {i : Fin n} {fd : Nat} {c : κ} (hserving : σ.worker i = .serving fd)
    (hfile : σ.files fd = some c) : σ.conn i = some c := by
  rw [conn, hserving]
  exact hfile

theorem view_worker {i : Fin n} {c : κ} (h : σ.conn i = some c) : σ.view.worker i = some c := by
  obtain ⟨fd, hserving, hfile⟩ := conn_serving h
  change (σ.claimed i).bind σ.files = some c
  rw [claimed_of_serving hserving, Option.bind_some, hfile]

variable [DecidableEq κ] {hash : Bytes → UInt64}

theorem Case.step {ev : ThreadEvent n} (h : Case hash σ ev σ') :
    ThreadPool.step hash σ ev = some σ' := by
  cases h with
  | accept hmain harr hfree hpc =>
    simp [ThreadPool.step, hmain, harr, hfree, callQueue, Monitor.step, hpc]
  | stop hmain hpc => simp [ThreadPool.step, hmain, callQueue, Monitor.step, hpc]
  | pop hidle hpc => simp [ThreadPool.step, hidle, callQueue, Monitor.step, hpc]
  | @inner e q hcall hunlock hq =>
    have hstep := hq.step
    cases e with
    | call t op => exact absurd rfl (hcall t op)
    | unlock t => exact absurd rfl (hunlock t)
    | _ => simp [ThreadPool.step, queueStep, hstep]
  | leave hpc => simp [ThreadPool.step, queueStep, hpc, Monitor.step]
  | serve hserving hs => simp [ThreadPool.step, hserving, hs]
  | close hserving hfile hclosed => simp [ThreadPool.step, hserving, hfile, hclosed]
  | join hmain hk hexit => simp [ThreadPool.step, hmain, hk, hexit]
  | save hmain => simp [ThreadPool.step, hmain]

-- a read() or a turn of the parse loop, which leave the store alone
structure Local (hash : Bytes → UInt64) (v w : Pool κ (Fin n)) (i : Fin n) (s : ConnStep) (c : κ)
    (p : Peer) : Prop where
  conn : v.worker i = some c
  phase : (v.peer c).phase = .reading ∨ (v.peer c).phase = .parsing
  out : (v.peer c).out.length ≤ p.out.length
  peer : w.peer = Function.update v.peer c p
  state : w.state = v.state
  with_state : ∀ st, poolStep hash { v with state := st } (s.event i) = some { w with state := st }

theorem length_out_peerRead (p : Peer) (r : ReadResult) :
    p.out.length ≤ (peerRead p r).out.length := by
  cases r with
  | data chunk =>
    rw [peerRead]
    split_ifs
    · simp
    · exact le_refl _
  | _ => exact le_refl _

theorem length_out_peerParse (p : Peer) : p.out.length ≤ (peerParse p).out.length := by
  rw [peerParse]
  split_ifs
  · exact le_refl _
  · cases respParse p.inBuf with
    | error e => simp
    | _ => exact le_refl _

theorem serve_local {v w : Pool κ (Fin n)} {i : Fin n} {s : ConnStep}
    (hs : poolStep hash v (s.event i) = some w)
    (hcoarse : (ThreadEvent.serve i s).coarse = false) : ∃ c p, Local hash v w i s c p := by
  cases s with
  | read k =>
    obtain ⟨c, hc, hr⟩ := Option.bind_eq_some_iff.mp hs
    obtain ⟨hgo, hr⟩ := Option.ite_none_right_eq_some.mp hr
    cases hr
    refine ⟨c, _, hc, .inl hgo.1, length_out_peerRead _ _, rfl, rfl, fun st => ?_⟩
    exact Option.bind_eq_some_iff.mpr ⟨c, hc, if_pos hgo⟩
  | noRead r =>
    obtain ⟨c, hc, hr⟩ := Option.bind_eq_some_iff.mp hs
    rw [poolNoRead.eq_def] at hr
    cases r with
    | data chunk => cases hr
    | _ =>
      obtain ⟨hgo, hr⟩ := Option.ite_none_right_eq_some.mp hr
      cases hr
      refine ⟨c, _, hc, .inl hgo.1, length_out_peerRead _ _, rfl, rfl, fun st => ?_⟩
      exact Option.bind_eq_some_iff.mpr ⟨c, hc, if_pos hgo⟩
  | parse =>
    obtain ⟨c, hc, hp⟩ := Option.bind_eq_some_iff.mp hs
    obtain ⟨hgo, hp⟩ := Option.ite_none_right_eq_some.mp hp
    cases hp
    refine ⟨c, _, hc, .inr hgo, length_out_peerParse _, rfl, rfl, fun st => ?_⟩
    exact Option.bind_eq_some_iff.mpr ⟨c, hc, if_pos hgo⟩
  | dispatch env => cases hcoarse
  | flush lost => cases hcoarse

theorem Case.with_state {ev : ThreadEvent n} (h : Case hash σ ev σ') (hcoarse : ev.coarse = false)
    (hsave : ∀ status, ev ≠ .save status) (st : CmdState) :
    σ'.state = σ.state ∧ Case hash { σ with state := st } ev { σ' with state := st } := by
  cases h with
  | accept hmain harr hfree hpc => exact ⟨rfl, .accept hmain harr hfree hpc⟩
  | stop hmain hpc => exact ⟨rfl, .stop hmain hpc⟩
  | pop hidle hpc => exact ⟨rfl, .pop hidle hpc⟩
  | inner hcall hunlock hq => exact ⟨rfl, .inner hcall hunlock hq⟩
  | @leave t o hpc =>
    have hresume : ∀ σ : ThreadPool κ n, (resume σ t o).state = σ.state ∧
        { resume σ t o with state := st } = resume { σ with state := st } t o := by
      intro σ
      cases t with
      | none => cases o <;> exact ⟨rfl, rfl⟩
      | some i =>
        cases o with
        | returned fd => cases fd <;> exact ⟨rfl, rfl⟩
        | _ => exact ⟨rfl, rfl⟩
    refine ⟨(hresume _).1, ?_⟩
    rw [(hresume _).2]
    exact .leave (σ := { σ with state := st }) hpc
  | @serve i fd s w hserving hs =>
    obtain ⟨c, p, hlocal⟩ := serve_local hs hcoarse
    exact ⟨hlocal.state, .serve (σ := { σ with state := st }) hserving (hlocal.with_state st)⟩
  | close hserving hfile hclosed => exact ⟨rfl, .close hserving hfile hclosed⟩
  | join hmain hk hexit => exact ⟨rfl, .join hmain hk hexit⟩
  | save => exact absurd rfl (hsave _)

theorem Case.savePath {ev : ThreadEvent n} (h : Case hash σ ev σ') : σ'.savePath = σ.savePath := by
  cases h with
  | @leave t o =>
    cases t with
    | none => cases o <;> rfl
    | some i =>
      cases o with
      | returned fd => cases fd <;> rfl
      | _ => rfl
  | _ => rfl

theorem Reached.savePath {stream : κ → Bytes} {arriving : List κ} {st : CmdState}
    {path : Option Bytes} (h : Reached hash stream arriving st path σ) : σ.savePath = path :=
  Machine.ReachableVia.invariant (P := fun σ : ThreadPool κ n => σ.savePath = path) h rfl
    (fun _ _ _ hp _ hs => (step_cases hs).savePath.trans hp)

-- what one thread does leaves the other connections alone, and its own between read() and close()
structure Frame (σ σ' : ThreadPool κ n) : Prop where
  peer : ∀ {c phase}, (σ.peer c).phase = phase → phase ≠ .reading → phase ≠ .parsing →
    σ'.peer c = σ.peer c
  out : ∀ c, (σ.peer c).out.length ≤ (σ'.peer c).out.length
  conn : ∀ {i c phase}, σ.conn i = some c → (σ.peer c).phase = phase → phase ≠ .closed →
    σ'.conn i = some c

omit [DecidableEq κ] in
theorem Frame.of_conn (hpeer : σ'.peer = σ.peer)
    (hconn : ∀ i c, σ.conn i = some c → (σ.peer c).phase ≠ .closed → σ'.conn i = some c) :
    Frame σ σ' where
  peer _ _ _ := by rw [hpeer]
  out c := by rw [hpeer]
  conn hd hphase hopen := hconn _ _ hd (hphase ▸ hopen)

theorem Case.frame {ev : ThreadEvent n} (h : Case hash σ ev σ') (hcontrol : Control σ)
    (hcoarse : ev.coarse = false) : Frame σ σ' := by
  cases h with
  | @accept fd c cs hmain harr hfree hpc =>
    refine .of_conn rfl (fun i d hd _ => ?_)
    obtain ⟨fd', hserving, hfile⟩ := conn_serving hd
    have hne : fd' ≠ fd := by
      rintro rfl
      rw [hfree] at hfile
      cases hfile
    exact conn_of_serving hserving ((Function.update_of_ne hne ..).trans hfile)
  | stop => exact .of_conn rfl (fun _ _ hd _ => hd)
  | pop => exact .of_conn rfl (fun _ _ hd _ => hd)
  | inner => exact .of_conn rfl (fun _ _ hd _ => hd)
  | @leave t o ht =>
    have hreply := hcontrol.fits t
    rw [ht] at hreply
    cases t with
    | none =>
      cases o with
      | queued => exact .of_conn rfl (fun _ _ hd _ => hd)
      | shut => exact .of_conn rfl (fun _ _ hd _ => hd)
      | closed => cases hreply
      | returned => cases hreply
    | some j =>
      have hidle := hcontrol.idle (i := j) (by rw [ht]; nofun)
      have hkeep (w : WorkerPhase) : ∀ i c, σ.conn i = some c → (σ.peer c).phase ≠ .closed →
          conn { σ with worker := Function.update σ.worker j w } i = some c := by
        intro i d hd _
        obtain ⟨fd, hserving, hfile⟩ := conn_serving hd
        have hne : i ≠ j := by
          rintro rfl
          rw [hidle] at hserving
          cases hserving
        exact conn_of_serving ((Function.update_of_ne hne ..).trans hserving) hfile
      cases o with
      | returned fd =>
        cases fd with
        | ofNat fd => exact .of_conn rfl (hkeep _)
        | negSucc k => exact .of_conn rfl (hkeep _)
      | queued => cases hreply
      | closed => cases hreply
      | shut => cases hreply
  | @serve i fd s w hserving hs =>
    obtain ⟨c, p, hlocal⟩ := serve_local hs hcoarse
    have hpeer : (σ.absorb w).peer = Function.update σ.peer c p := hlocal.peer
    refine ⟨fun {d phase} hphase hread hparse => ?_, fun d => ?_, fun hd _ _ => hd⟩
    · have hne : d ≠ c := by
        rintro rfl
        rcases hlocal.phase with hp | hp
        · exact hread (hphase.symm.trans hp)
        · exact hparse (hphase.symm.trans hp)
      rw [hpeer, Function.update_of_ne hne]
    · rw [hpeer]
      rcases eq_or_ne d c with rfl | hne
      · rw [Function.update_self]
        exact hlocal.out
      · rw [Function.update_of_ne hne]
  | @close j fd c hserving hfile hclosed =>
    refine .of_conn rfl (fun i d hd hphase => ?_)
    obtain ⟨fd', hserving', hfile'⟩ := conn_serving hd
    have hfd : fd' ≠ fd := by
      rintro rfl
      rw [hfile] at hfile'
      cases hfile'
      exact hphase hclosed
    have hij : i ≠ j := by
      rintro rfl
      rw [hserving] at hserving'
      cases hserving'
      exact hfd rfl
    exact conn_of_serving ((Function.update_of_ne hij ..).trans hserving')
      ((Function.update_of_ne hfd ..).trans hfile')
  | join => exact .of_conn rfl (fun _ _ hd _ => hd)
  | save => exact .of_conn rfl (fun _ _ hd _ => hd)

end ThreadPool

namespace LockedPool

open ThreadPool (conn_serving conn_of_serving view_worker)

variable [DecidableEq κ] {hash : Bytes → UInt64} {cut : Cut hash} {stream : κ → Bytes}
  {arriving : List κ} {st : CmdState} {path : Option Bytes} {σ σ' : LockedPool κ n}
  {before : CmdState}

def atLock (σ : LockedPool κ n) (before : CmdState) : ThreadPool κ n :=
  { σ.pool with state := before }

def Goal (hash : Bytes → UInt64) (σ : LockedPool κ n) (before : CmdState) (i : Fin n)
    (r : CmdState × Bytes) : Prop :=
  ∃ c cmd consumed, σ.pool.conn i = some c ∧ (σ.pool.peer c).phase = .locking cmd consumed ∧
    cmdDispatch hash (σ.moment i) before cmd = r

-- before is the store as the last section has left it; with it in its place the server is a
-- ThreadPool whose dispatches are steps
structure Locked (hash : Bytes → UInt64) (stream : κ → Bytes) (arriving : List κ) (st : CmdState)
    (path : Option Bytes) (σ : LockedPool κ n) (before : CmdState) : Prop where
  reached : ThreadPool.Reached hash stream arriving st path (σ.atLock before)
  underway : Underway (Goal hash σ before) before σ.pool.state σ.body
  inside : ∀ i, σ.body i ≠ none → σ.owner = some i
  holds : ∀ i, σ.owner = some i → σ.body i = none →
    ∃ c, σ.pool.conn i = some c ∧ σ.refusing c = true
  refusing : ∀ c, σ.refusing c = true → (σ.pool.peer c).phase = .flushing true
  sent : ∀ c, σ.sent c ≤ (σ.pool.peer c).out.length

theorem refuse_eq (σ : LockedPool κ n) (ev : ThreadEvent n) (p : ThreadPool κ n) (c : κ) :
    σ.refuse ev p c = σ.refusing c ∨
      σ.refuse ev p c = decide ((p.peer c).phase = .flushing true) := by
  rw [refuse.eq_def]
  split
  case h_1 i k =>
    cases p.conn i with
    | none => exact .inl rfl
    | some d =>
      rcases eq_or_ne c d with rfl | hne
      · exact .inr (Function.update_self ..)
      · exact .inl (Function.update_of_ne hne ..)
  case h_2 => exact .inl rfl

namespace Locked

theorem start : Locked hash stream arriving st path
    (LockedPool.start stream arriving st path : LockedPool κ n) st where
  reached := .start
  underway := .start st
  inside _ hi := absurd rfl hi
  holds := nofun
  refusing := nofun
  sent _ := Nat.zero_le _

theorem free (h : Locked hash stream arriving st path σ before) (hfree : σ.owner = none)
    (i : Fin n) : σ.body i = none := by
  by_contra hi
  have howner := h.inside i hi
  rw [hfree] at howner
  cases howner

-- a step of a thread outside cmd_dispatch and write_all
theorem pool_case (h : Locked hash stream arriving st path σ before) {ev : ThreadEvent n}
    {p : ThreadPool κ n} (hev : ev.coarse = false) (hs : ThreadPool.step hash σ.pool ev = some p) :
    p.state = σ.pool.state ∧
      ThreadPool.Case hash (σ.atLock before) ev { p with state := before } := by
  have hcase := ThreadPool.step_cases hs
  by_cases hsave : ∀ status, ev ≠ .save status
  · exact hcase.with_state hev hsave before
  · obtain ⟨status, hstatus⟩ := not_forall.mp hsave
    obtain rfl := not_not.mp hstatus
    cases hcase with
    | save hmain =>
      have hexited := (h.reached.whole.ending.joined n hmain).2
      have hnone : ∀ i, σ.body i = none := by
        intro i
        by_contra hi
        obtain ⟨code, hcode⟩ := Option.ne_none_iff_exists'.mp hi
        obtain ⟨c, -, -, hconn, -⟩ := h.underway.ends i code hcode
        obtain ⟨fd, hserving, -⟩ := conn_serving hconn
        exact absurd (hserving.symm.trans (hexited i i.isLt)) nofun
      refine ⟨rfl, ?_⟩
      have hclean := h.underway.clean hnone
      rw [← hclean]
      exact .save hmain

theorem pool (h : Locked hash stream arriving st path σ before) {ev : ThreadEvent n}
    {p : ThreadPool κ n} (hev : ev.coarse = false) (hs : ThreadPool.step hash σ.pool ev = some p) :
    Locked hash stream arriving st path { σ with pool := p, refusing := σ.refuse ev p } before := by
  obtain ⟨hstate, hcase⟩ := h.pool_case hev hs
  have hcoarse := hcase.frame h.reached.whole.control hev
  have hframe : ThreadPool.Frame σ.pool p := ⟨hcoarse.peer, hcoarse.out, hcoarse.conn⟩
  have hkeep {c : κ} (hc : σ.refusing c = true) : p.peer c = σ.pool.peer c :=
    hframe.peer (h.refusing c hc) nofun nofun
  refine ⟨h.reached.next trivial hcase.step, ?_, h.inside, ?_, ?_,
    fun c => (h.sent c).trans (hframe.out c)⟩
  · change Underway _ before p.state σ.body
    rw [hstate]
    refine h.underway.mono ?_
    rintro i r - ⟨c, cmd, consumed, hconn, hphase, hr⟩
    refine ⟨c, cmd, consumed, hframe.conn hconn hphase nofun, ?_, hr⟩
    change (p.peer c).phase = _
    rw [hframe.peer hphase nofun nofun, hphase]
  · intro i howner hbody
    obtain ⟨c, hconn, hrefuse⟩ := h.holds i howner hbody
    refine ⟨c, hframe.conn hconn (h.refusing c hrefuse) nofun, ?_⟩
    rcases refuse_eq σ ev p c with heq | heq
    · exact heq.trans hrefuse
    · refine heq.trans ?_
      rw [hkeep hrefuse, h.refusing c hrefuse]
      rfl
  · intro c hc
    change (p.peer c).phase = _
    rcases refuse_eq σ ev p c with heq | heq
    · have hrefuse := heq.symm.trans hc
      rw [hkeep hrefuse, h.refusing c hrefuse]
    · exact of_decide_eq_true (heq.symm.trans hc)

theorem lockRefuse (h : Locked hash stream arriving st path σ before) {i : Fin n} {c : κ}
    (hfree : σ.owner = none) (hconn : σ.pool.conn i = some c) (hrefuse : σ.refusing c = true) :
    Locked hash stream arriving st path { σ with owner := some i } before := by
  refine ⟨h.reached, h.underway, fun j hj => absurd (h.free hfree j) hj, ?_, h.refusing, h.sent⟩
  rintro j howner -
  cases howner
  exact ⟨c, hconn, hrefuse⟩

theorem lock (h : Locked hash stream arriving st path σ before) {i : Fin n} {env : Env} {c : κ}
    {cmd : Command} {consumed : Nat} (hfree : σ.owner = none) (hconn : σ.pool.conn i = some c)
    (hphase : (σ.pool.peer c).phase = .locking cmd consumed) :
    Locked hash stream arriving st path
      { σ with
        owner := some i
        body := Function.update σ.body i (some (cut.code env cmd))
        moment := Function.update σ.moment i env } before := by
  refine ⟨h.reached, h.underway.enter (h.free hfree) ?_, ?_, ?_, h.refusing, h.sent⟩
  · refine ⟨c, cmd, consumed, hconn, hphase, ?_⟩
    have hmoment : Function.update σ.moment i env i = env := Function.update_self ..
    rw [cut.run_eq]
    exact congrArg (fun env => cmdDispatch hash env before cmd) hmoment
  · intro j hj
    rcases eq_or_ne j i with rfl | hne
    · rfl
    · change Function.update σ.body i _ j ≠ none at hj
      rw [Function.update_of_ne hne] at hj
      exact absurd (h.free hfree j) hj
  · intro j howner hbody
    cases howner
    change Function.update σ.body i _ i = none at hbody
    rw [Function.update_self] at hbody
    cases hbody

theorem access (h : Locked hash stream arriving st path σ before) {i : Fin n}
    {f : CmdState → CmdState} {next : CmdState → Code CmdState Bytes}
    (hbody : σ.body i = some (.step f next)) :
    Locked hash stream arriving st path
      { σ with
        pool := { σ.pool with state := f σ.pool.state }
        body := Function.update σ.body i (some (next σ.pool.state)) } before := by
  have howner := h.inside i (by rw [hbody]; nofun)
  refine ⟨h.reached, h.underway.access hbody, ?_, ?_, h.refusing, h.sent⟩
  · intro j hj
    rcases eq_or_ne j i with rfl | hne
    · exact howner
    · change Function.update σ.body i _ j ≠ none at hj
      rw [Function.update_of_ne hne] at hj
      exact h.inside j hj
  · intro j hj hnone
    cases howner.symm.trans hj
    change Function.update σ.body i _ i = none at hnone
    rw [Function.update_self] at hnone
    cases hnone

-- the section ends where the dispatch in one step would have
theorem unlock (h : Locked hash stream arriving st path σ before) {i : Fin n} {c : κ}
    {cmd : Command} {consumed : Nat} {reply : Bytes} (hconn : σ.pool.conn i = some c)
    (hbody : σ.body i = some (.ret reply))
    (hphase : (σ.pool.peer c).phase = .locking cmd consumed) :
    Locked hash stream arriving st path
      { σ with
        pool := dispatched σ.pool c (σ.moment i) cmd consumed reply
        owner := none
        body := Function.update σ.body i none } σ.pool.state := by
  obtain ⟨⟨c', cmd', consumed', hconn', hphase', hrun⟩, hunder⟩ := h.underway.leave hbody
  obtain rfl : c = c' := Option.some.inj (hconn.symm.trans hconn')
  obtain ⟨rfl, rfl⟩ : cmd = cmd' ∧ consumed = consumed' := by
    rw [hphase] at hphase'
    cases hphase'
    exact ⟨rfl, rfl⟩
  have hnone : ∀ j, Function.update σ.body i none j = none := by
    intro j
    rcases eq_or_ne j i with rfl | hne
    · rw [Function.update_self]
    · rw [Function.update_of_ne hne, h.underway.others (by simp [hbody]) j hne]
  obtain ⟨fd, hserving, hfile⟩ := conn_serving hconn
  have hworker : (σ.atLock before).view.worker i = some c :=
    view_worker (conn_of_serving (σ := σ.atLock before) hserving hfile)
  have hcoarse : poolStep hash (σ.atLock before).view (ConnStep.event i (.dispatch (σ.moment i))) =
      some { (σ.atLock before).view with
        peer := Function.update σ.pool.peer c
          { σ.pool.peer c with
            out := (σ.pool.peer c).out ++ reply
            inBuf := (σ.pool.peer c).inBuf.drop consumed
            phase := .flushing false }
        state := σ.pool.state
        log := σ.pool.log ++ [(c, σ.moment i, cmd)] } := by
    have hview : ((σ.atLock before).view.peer c).phase = .locking cmd consumed := hphase
    have hrun' : cmdDispatch hash (σ.moment i) (σ.atLock before).view.state cmd =
        (σ.pool.state, reply) := hrun
    simp only [ConnStep.event, poolStep, hworker, Option.bind_some, poolDispatch, hview,
      peerDispatch, hrun']
    rfl
  have hnext := h.reached.next trivial
    (ThreadPool.Case.serve (σ := σ.atLock before) hserving hcoarse).step
  have hother {d : κ} (hd : d ≠ c) := dispatched_peer_ne σ.pool hd (σ.moment i) cmd consumed reply
  refine ⟨hnext, hunder, fun j hj => absurd (hnone j) hj, by simp, fun d hd => ?_, fun d => ?_⟩
  · have hflush := h.refusing d hd
    have hne : d ≠ c := by
      rintro rfl
      rw [hphase] at hflush
      cases hflush
    change ((dispatched σ.pool c (σ.moment i) cmd consumed reply).peer d).phase = _
    rw [hother hne, hflush]
  · change σ.sent d ≤ ((dispatched σ.pool c (σ.moment i) cmd consumed reply).peer d).out.length
    rcases eq_or_ne d c with rfl | hne
    · rw [dispatched_out_self, List.length_append]
      exact (h.sent d).trans (Nat.le_add_right _ _)
    · rw [hother hne]
      exact h.sent d

theorem unlockRefuse (h : Locked hash stream arriving st path σ before) {i : Fin n} {c : κ}
    (hbody : σ.body i = none) (howner : σ.owner = some i) :
    Locked hash stream arriving st path
      { σ with owner := none, refusing := Function.update σ.refusing c false } before := by
  refine ⟨h.reached, h.underway, ?_, nofun, ?_, h.sent⟩
  · intro j hj
    cases howner.symm.trans (h.inside j hj)
    exact absurd hbody hj
  · intro d hd
    change Function.update σ.refusing c false d = true at hd
    rcases eq_or_ne d c with rfl | hne
    · rw [Function.update_self] at hd
      cases hd
    · rw [Function.update_of_ne hne] at hd
      exact h.refusing d hd

theorem write (h : Locked hash stream arriving st path σ before) {c : κ} {k : Nat}
    (hroom : σ.sent c + k ≤ (σ.pool.peer c).out.length) :
    Locked hash stream arriving st path
      { σ with sent := Function.update σ.sent c (σ.sent c + k) } before := by
  refine ⟨h.reached, h.underway, h.inside, h.holds, h.refusing, fun d => ?_⟩
  change Function.update σ.sent c (σ.sent c + k) d ≤ _
  rcases eq_or_ne d c with rfl | hne
  · rwa [Function.update_self]
  · rw [Function.update_of_ne hne]
    exact h.sent d

theorem leaveWrite (h : Locked hash stream arriving st path σ before) {i : Fin n} {c : κ}
    {fatal : Bool} {lost : Option Nat} (hconn : σ.pool.conn i = some c)
    (hphase : (σ.pool.peer c).phase = .flushing fatal) (hrefuse : σ.refusing c = false) :
    Locked hash stream arriving st path (σ.leaveWrite c fatal lost) before := by
  obtain ⟨fd, hserving, hfile⟩ := conn_serving hconn
  have hworker : (σ.atLock before).view.worker i = some c :=
    view_worker (conn_of_serving (σ := σ.atLock before) hserving hfile)
  have hcoarse : poolStep hash (σ.atLock before).view (ConnStep.event i (.flush lost)) =
      some { (σ.atLock before).view with
        peer := Function.update σ.pool.peer c (peerFlush (σ.pool.peer c) fatal lost) } := by
    have hview : ((σ.atLock before).view.peer c).phase = .flushing fatal := hphase
    simp only [ConnStep.event, poolStep, hworker, Option.bind_some, poolFlush, hview]
    rfl
  have hnext := h.reached.next trivial
    (ThreadPool.Case.serve (σ := σ.atLock before) hserving hcoarse).step
  have hother {d : κ} (hd : d ≠ c) := σ.leaveWrite_ne hd fatal lost
  refine ⟨hnext, h.underway.mono ?_, h.inside, h.holds, fun d hd => ?_, fun d => ?_⟩
  · rintro j r - ⟨d, cmd, consumed, hd, hlocking, hr⟩
    have hne : d ≠ c := by
      rintro rfl
      rw [hphase] at hlocking
      cases hlocking
    exact ⟨d, cmd, consumed, hd, by rw [(hother hne).2, hlocking], hr⟩
  · have hne : d ≠ c := by
      rintro rfl
      exact Bool.false_ne_true (hrefuse.symm.trans hd)
    rw [(hother hne).2]
    exact h.refusing d hd
  · rcases eq_or_ne d c with rfl | hne
    · rw [leaveWrite_sent_self]
      exact Nat.zero_le _
    · rw [(hother hne).1, (hother hne).2]
      exact h.sent d

theorem step {ev : LockedEvent n} (h : Locked hash stream arriving st path σ before)
    (hs : LockedPool.step cut σ ev = some σ') :
    ∃ before', Locked hash stream arriving st path σ' before' := by
  cases step_cases hs with
  | pool hev hp => exact ⟨before, h.pool hev hp⟩
  | lockRefuse hfree hconn hrefuse => exact ⟨before, h.lockRefuse hfree hconn hrefuse⟩
  | lock hfree hconn hphase => exact ⟨before, h.lock hfree hconn hphase⟩
  | access hbody => exact ⟨before, h.access hbody⟩
  | unlock hconn hbody hphase => exact ⟨_, h.unlock hconn hbody hphase⟩
  | unlockRefuse _ hbody howner => exact ⟨before, h.unlockRefuse hbody howner⟩
  | write _ hroom => exact ⟨before, h.write hroom⟩
  | interrupted _ => exact ⟨before, h⟩
  | leaveWrite hconn hphase hrefuse => exact ⟨before, h.leaveWrite hconn hphase hrefuse⟩

end Locked

theorem Reached.locked (h : Reached cut stream arriving st path σ) :
    ∃ before, Locked hash stream arriving st path σ before := by
  refine Machine.ReachableVia.invariant
    (P := fun σ => ∃ before, Locked hash stream arriving st path σ before) h ⟨st, .start⟩ ?_
  rintro σ ev σ' ⟨before, hlocked⟩ - hs
  exact hlocked.step hs

end LockedPool

end RedisServer

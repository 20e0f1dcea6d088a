import RedisServer.Server.PoolRefinement

namespace RedisServer

open Monitor (Pc)

variable {n : Nat}

-- wq_pop found the queue empty and shut, the worker is on its way out
def dismissed : Pc QueueOp QueueReply QueueCond → Bool
  | .waking (.returned (.negSucc _)) _ => true
  | _ => false

section Quiet

variable {q : WorkQueue} {p p' : Pc QueueOp QueueReply QueueCond}

theorem dismissed_quiet (h : Monitor.Quiet queueMonitor q p p') : dismissed p' = dismissed p := by
  cases h with
  | @wake o =>
    cases o with
    | returned fd => cases fd <;> rfl
    | _ => rfl
  | _ => rfl

theorem inside_quiet (h : Monitor.Quiet queueMonitor q p p') (hp : p ≠ .outside) :
    p' ≠ .outside := by
  cases h with
  | same => exact hp
  | _ => nofun

end Quiet

namespace ThreadPool

variable {κ : Type} {σ σ' : ThreadPool κ n}

structure Ending (σ : ThreadPool κ n) : Prop where
  drained : ∀ i, σ.worker i = .exited ∨ dismissed (σ.threads.pc (some i)) = true →
    σ.threads.shared.count = 0 ∧ σ.threads.shared.shutdown = true
  calling : σ.main = .calling → σ.threads.pc none ≠ .outside
  joined : ∀ k, σ.main = .joining k → k ≤ n ∧ ∀ i : Fin n, i.val < k → σ.worker i = .exited
  unsaved : (∀ outcome, σ.main ≠ .saved outcome) → σ.snapshot = none
  saved : ∀ outcome, σ.main = .saved outcome → (∀ i, σ.worker i = .exited) ∧
    (outcome = none ↔ σ.savePath = none) ∧
    σ.snapshot = if outcome = some .ok then some σ.state.store else none

namespace Ending

theorem start (stream : κ → Bytes) (arriving : List κ) (st : CmdState) (path : Option Bytes) :
    Ending (ThreadPool.start stream arriving st path : ThreadPool κ n) where
  drained := by
    rintro i (hw | hp)
    · cases hw
    · cases hp
  calling := nofun
  joined := nofun
  unsaved _ := rfl
  saved := nofun

-- the threads move on, the workers stay in their phases
theorem threads (h : Ending σ) {q : QueueThreads (Option (Fin n))}
    (hdrained : ∀ i, σ.worker i = .exited ∨ dismissed (q.pc (some i)) = true →
      q.shared.count = 0 ∧ q.shared.shutdown = true)
    (hcalling : σ.main = .calling → q.pc none ≠ .outside) : Ending { σ with threads := q } where
  drained := hdrained
  calling := hcalling
  joined := h.joined
  unsaved := h.unsaved
  saved := h.saved

theorem mainCalls (h : Ending σ) (hmain : σ.main = .accepting) {op : QueueOp}
    {files : Nat → Option κ} {arriving : List κ} :
    Ending { σ with
      threads := σ.threads.set none (.locking op)
      main := .calling
      arriving := arriving
      files := files } where
  drained i hi := by
    have hpc : (σ.threads.set none (.locking op)).pc (some i) = σ.threads.pc (some i) :=
      Monitor.State.set_pc_ne σ.threads _ (Option.some_ne_none i)
    exact h.drained i (hi.imp_right (fun hd => hpc ▸ hd))
  calling _ := by
    rw [Monitor.State.set_pc_self]
    nofun
  joined := nofun
  unsaved _ := h.unsaved (by rw [hmain]; nofun)
  saved := nofun

theorem enter (h : Ending σ) {t : Option (Fin n)} {op : QueueOp} {s : WorkQueue} {o : QueueReply}
    (hc : WqCase σ.threads.shared op s o) {log : QueueLog} :
    Ending { σ with
      threads := { σ.threads.set t (.waking o (queueWakes op o)) with
        shared := s
        log := log } } := by
  refine h.threads ?_ ?_
  · intro i hi
    have hold : σ.worker i = .exited ∨ dismissed (σ.threads.pc (some i)) = true ∨
        dismissed (.waking o (queueWakes op o)) = true := by
      refine hi.imp_right (fun hd => ?_)
      rcases eq_or_ne (some i) t with rfl | hne
      · rw [Monitor.State.set_pc_self] at hd
        exact .inr hd
      · rw [Monitor.State.set_pc_ne σ.threads _ hne] at hd
        exact .inl hd
    have hbefore := fun hx => h.drained i hx
    cases hc with
    | queued hroom hopen =>
      have hshut := (hbefore (hold.imp_right (fun hd => hd.resolve_right nofun))).2
      rw [hopen] at hshut
      cases hshut
    | closed => exact hbefore (hold.imp_right (fun hd => hd.resolve_right nofun))
    | handed hn =>
      have hempty := (hbefore (hold.imp_right (fun hd => hd.resolve_right nofun))).1
      rw [hn] at hempty
      cases hempty
    | drained hempty hshut => exact ⟨hempty, hshut⟩
    | shut => exact ⟨(hbefore (hold.imp_right (fun hd => hd.resolve_right nofun))).1, rfl⟩
  · intro hm
    rcases eq_or_ne t none with rfl | hne
    · rw [Monitor.State.set_pc_self]
      nofun
    · rw [Monitor.State.set_pc_ne σ.threads _ hne.symm]
      exact h.calling hm

theorem moveWorker (h : Ending σ) {i : Fin n} (hi : σ.worker i ≠ .exited) {w : WorkerPhase}
    {q : QueueThreads (Option (Fin n))} {files : Nat → Option κ}
    (hnone : q.pc none = σ.threads.pc none)
    (hdrained : ∀ j, Function.update σ.worker i w j = .exited ∨ dismissed (q.pc (some j)) = true →
      q.shared.count = 0 ∧ q.shared.shutdown = true) :
    Ending { σ with
      threads := q
      worker := Function.update σ.worker i w
      files := files } := by
  have hkeep : ∀ j, σ.worker j = .exited → Function.update σ.worker i w j = .exited := by
    intro j hj
    have hne : j ≠ i := by
      rintro rfl
      exact hi hj
    rw [Function.update_of_ne hne, hj]
  refine ⟨hdrained, fun hm => hnone ▸ h.calling hm, ?_, h.unsaved, ?_⟩
  · intro k hk
    obtain ⟨hle, hall⟩ := h.joined k hk
    exact ⟨hle, fun j hj => hkeep j (hall j hj)⟩
  · intro outcome hs
    obtain ⟨hall, hsnap⟩ := h.saved outcome hs
    exact ⟨fun j => hkeep j (hall j), hsnap⟩

theorem leave (h : Ending σ) (hcontrol : Control σ) {t : Option (Fin n)} {o : QueueReply}
    (ht : σ.threads.pc t = .waking o []) :
    Ending (resume { σ with threads := { σ.threads.set t .outside with owner := none } } t o) := by
  have hreply := hcontrol.fits t
  rw [ht] at hreply
  cases t with
  | none =>
    have hpc : ∀ i, (σ.threads.set none .outside).pc (some i) = σ.threads.pc (some i) := fun i =>
      Monitor.State.set_pc_ne σ.threads _ (Option.some_ne_none i)
    have hdrained : ∀ i, σ.worker i = .exited ∨
        dismissed ((σ.threads.set none .outside).pc (some i)) = true →
        σ.threads.shared.count = 0 ∧ σ.threads.shared.shutdown = true := fun i hi =>
      h.drained i (hi.imp_right (fun hd => hpc i ▸ hd))
    have hunsaved : σ.snapshot = none :=
      h.unsaved (by rw [hcontrol.calling (by rw [ht]; nofun)]; nofun)
    cases o with
    | queued => exact ⟨hdrained, nofun, nofun, fun _ => hunsaved, nofun⟩
    | shut =>
      refine ⟨hdrained, nofun, ?_, fun _ => hunsaved, nofun⟩
      intro k hk
      cases hk
      exact ⟨Nat.zero_le n, fun i hi => absurd hi (Nat.not_lt_zero _)⟩
    | closed => cases hreply
    | returned => cases hreply
  | some i =>
    have hidle : σ.worker i = .idle := hcontrol.idle (by rw [ht]; nofun)
    have hnone : (σ.threads.set (some i) .outside).pc none = σ.threads.pc none :=
      Monitor.State.set_pc_ne σ.threads _ (Option.some_ne_none i).symm
    have hothers : ∀ (w : WorkerPhase) (j : Fin n), j ≠ i →
        Function.update σ.worker i w j = .exited ∨
          dismissed ((σ.threads.set (some i) .outside).pc (some j)) = true →
        σ.threads.shared.count = 0 ∧ σ.threads.shared.shutdown = true := by
      intro w j hne hj
      rw [Function.update_of_ne hne, Monitor.State.set_pc_ne σ.threads _ (by simpa using hne)] at hj
      exact h.drained j hj
    cases o with
    | returned fd =>
      cases fd with
      | ofNat fd =>
        refine h.moveWorker (by rw [hidle]; nofun) hnone ?_
        intro j hj
        rcases eq_or_ne j i with rfl | hne
        · rw [Function.update_self, Monitor.State.set_pc_self] at hj
          rcases hj with hj | hj
          · cases hj
          · cases hj
        · exact hothers _ j hne hj
      | negSucc k =>
        refine h.moveWorker (by rw [hidle]; nofun) hnone ?_
        intro j hj
        rcases eq_or_ne j i with rfl | hne
        · exact h.drained j (.inr (by rw [ht]; rfl))
        · exact hothers _ j hne hj
    | queued => cases hreply
    | closed => cases hreply
    | shut => cases hreply

variable [DecidableEq κ] {hash : Bytes → UInt64}

theorem step {ev : ThreadEvent n} (h : Ending σ) (hcontrol : Control σ)
    (hc : Case hash σ ev σ') : Ending σ' := by
  cases hc with
  | accept hmain => exact h.mainCalls hmain
  | stop hmain => exact h.mainCalls hmain
  | @pop i hidle hpc =>
    refine h.threads ?_ ?_
    · intro j hj
      rcases eq_or_ne j i with rfl | hne
      · rw [hidle, Monitor.State.set_pc_self] at hj
        rcases hj with hj | hj
        · cases hj
        · cases hj
      · rw [Monitor.State.set_pc_ne σ.threads _ (by simpa using hne)] at hj
        exact h.drained j hj
    · intro hm
      rw [Monitor.State.set_pc_ne σ.threads _ (Option.some_ne_none i).symm]
      exact h.calling hm
  | inner hcall hunlock hq =>
    cases hq.kind with
    | call => exact absurd rfl (hcall _ _)
    | quiet hshared hall =>
      refine h.threads ?_ (fun hm => inside_quiet (hall none) (h.calling hm))
      intro i hi
      rw [hshared]
      exact h.drained i (hi.imp_right (fun hd => (dismissed_quiet (hall (some i))) ▸ hd))
    | enter _ hgo => exact h.enter (wqStep_cases hgo)
    | unlock => exact absurd rfl (hunlock _)
  | leave hpc => exact h.leave hcontrol hpc
  | @serve i fd s w hserving _ =>
    refine ⟨h.drained, h.calling, h.joined, h.unsaved, ?_⟩
    intro outcome hs
    have hexit := (h.saved outcome hs).1 i
    rw [hserving] at hexit
    cases hexit
  | @close i fd c hserving _ _ =>
    refine h.moveWorker (by rw [hserving]; nofun) rfl ?_
    intro j hj
    rcases eq_or_ne j i with rfl | hne
    · rw [Function.update_self] at hj
      exact h.drained j (.inr (hj.resolve_left nofun))
    · rw [Function.update_of_ne hne] at hj
      exact h.drained j hj
  | @join k hmain hk hexit =>
    refine ⟨h.drained, nofun, ?_, fun _ => h.unsaved (by rw [hmain]; nofun), nofun⟩
    intro k' hk'
    cases hk'
    refine ⟨hk, ?_⟩
    intro i hi
    rcases Nat.lt_succ_iff_lt_or_eq.mp hi with hlt | heq
    · exact (h.joined k hmain).2 i hlt
    · have hik : i = ⟨k, hk⟩ := Fin.ext heq
      rw [hik]
      exact hexit
  | @save status hmain =>
    refine ⟨h.drained, nofun, nofun, fun hm => absurd rfl (hm _), ?_⟩
    intro outcome houtcome
    cases houtcome
    refine ⟨fun i => (h.joined n hmain).2 i i.isLt, Option.map_eq_none_iff, ?_⟩
    rw [← h.unsaved (by rw [hmain]; nofun)]
    rfl

end Ending

-- every connection main has accepted is in somebody's hands or has been closed
structure Accounted (arriving : List κ) (σ : ThreadPool κ n) : Prop where
  split : ∃ accepted, arriving = accepted ++ σ.arriving ∧
    ∀ c ∈ accepted, (σ.peer c).phase = .closed ∨ ∃ fd ∈ σ.live, σ.files fd = some c

section Accounted

variable {arriving : List κ}

theorem Accounted.start (stream : κ → Bytes) (arriving : List κ) (st : CmdState)
    (path : Option Bytes) :
    Accounted arriving (ThreadPool.start stream arriving st path : ThreadPool κ n) where
  split := ⟨[], rfl, nofun⟩

theorem Accounted.keep (h : Accounted arriving σ) (harriving : σ'.arriving = σ.arriving)
    (hclosed : ∀ c, (σ.peer c).phase = .closed → (σ'.peer c).phase = .closed)
    (hlive : ∀ fd ∈ σ.live, ∀ c, σ.files fd = some c →
      (σ'.peer c).phase = .closed ∨ fd ∈ σ'.live ∧ σ'.files fd = some c) :
    Accounted arriving σ' := by
  obtain ⟨accepted, hsplit, hall⟩ := h.split
  refine ⟨accepted, harriving ▸ hsplit, ?_⟩
  intro c hc
  rcases hall c hc with hc | ⟨fd, hfd, hfile⟩
  · exact .inl (hclosed c hc)
  · exact (hlive fd hfd c hfile).imp_right (fun hx => ⟨fd, hx⟩)

variable [DecidableEq κ]

theorem closed_setPeer {w : Pool κ (Fin n)} {c d : κ} {p : Peer} (hc : (w.peer c).phase ≠ .closed)
    (hd : (w.peer d).phase = .closed) : ((w.setPeer c p).peer d).phase = .closed := by
  have hne : d ≠ c := by
    rintro rfl
    exact hc hd
  simpa [Pool.setPeer, hne] using hd

theorem conn_event_closed {hash : Bytes → UInt64} {v w : Pool κ (Fin n)} {i : Fin n} {s : ConnStep}
    (h : poolStep hash v (s.event i) = some w) {d : κ} (hd : (v.peer d).phase = .closed) :
    (w.peer d).phase = .closed := by
  cases s with
  | read k =>
    obtain ⟨c, -, hr⟩ := Option.bind_eq_some_iff.mp h
    rw [poolRead, Option.ite_none_right_eq_some] at hr
    obtain ⟨⟨hp, -⟩, hr⟩ := hr
    cases hr
    exact closed_setPeer (by simp [hp]) hd
  | noRead r =>
    obtain ⟨c, -, hr⟩ := Option.bind_eq_some_iff.mp h
    rw [poolNoRead.eq_def] at hr
    split at hr
    case h_1 => cases hr
    case h_2 =>
      rw [Option.ite_none_right_eq_some] at hr
      obtain ⟨⟨hp, -⟩, hr⟩ := hr
      cases hr
      exact closed_setPeer (by simp [hp]) hd
  | parse =>
    obtain ⟨c, -, hp⟩ := Option.bind_eq_some_iff.mp h
    rw [poolParse, Option.ite_none_right_eq_some] at hp
    obtain ⟨hphase, hp⟩ := hp
    cases hp
    exact closed_setPeer (by simp [hphase]) hd
  | dispatch env =>
    obtain ⟨c, -, hx⟩ := Option.bind_eq_some_iff.mp h
    rw [poolDispatch] at hx
    split at hx
    case h_1 cmd consumed hp =>
      cases hx
      exact closed_setPeer (by simp [hp]) hd
    case h_2 => cases hx
  | flush lost =>
    obtain ⟨c, -, hf⟩ := Option.bind_eq_some_iff.mp h
    rw [poolFlush] at hf
    split at hf
    case h_1 fatal hp =>
      cases hf
      exact closed_setPeer (by simp [hp]) hd
    case h_2 => cases hf

theorem Accounted.step {hash : Bytes → UInt64} (h : Accounted arriving σ) (hdesk : Desk σ)
    (hh : Handover hash σ σ') : Accounted arriving σ' := by
  cases hh with
  | still hconns hpending hring hclaimed hfiles harriving =>
    have hlive := live_still hpending hring hclaimed
    refine h.keep harriving (fun c hc => hconns.peer ▸ hc) ?_
    intro fd hfd c hfile
    exact .inr ⟨hlive ▸ hfd, hfiles ▸ hfile⟩
  | @accept fd c hconns hnone hpending hring hclaimed hfree hfiles harriving =>
    have hlive := live_accept hnone hpending hring hclaimed
    obtain ⟨accepted, hsplit, hall⟩ := h.split
    refine ⟨accepted ++ [c], by rw [hsplit, harriving]; simp, ?_⟩
    intro d hd
    rw [hlive, hconns.peer, hfiles]
    rcases List.mem_append.mp hd with hd | hd
    · refine (hall d hd).imp_right ?_
      rintro ⟨x, hx, hfile⟩
      have hne : x ≠ fd := fun he => hdesk.ne_of_free hfree (he ▸ hx)
      exact ⟨x, List.mem_cons_of_mem fd hx, by rw [Function.update_of_ne hne, hfile]⟩
    · rw [List.mem_singleton.mp hd]
      exact .inr ⟨fd, List.mem_cons_self, Function.update_self ..⟩
  | @push fd hconns hpending hnone hring hclaimed hfiles harriving =>
    have hlive := live_push hpending hnone hring hclaimed
    refine h.keep harriving (fun c hc => hconns.peer ▸ hc) ?_
    intro x hx c hfile
    exact .inr ⟨hlive.mem_iff.mpr hx, hfiles ▸ hfile⟩
  | @pop i fd hconns hpending hring hidle hclaim hclaimed hfiles harriving =>
    have hlive := live_pop hpending hring hidle hclaim hclaimed
    refine h.keep harriving (fun c hc => hconns.peer ▸ hc) ?_
    intro x hx c hfile
    exact .inr ⟨hlive.mem_iff.mpr hx, hfiles ▸ hfile⟩
  | serve hs heq =>
    subst heq
    exact h.keep rfl (fun c hc => conn_event_closed hs hc) (fun fd hfd c hfile =>
      .inr ⟨hfd, hfile⟩)
  | @close i fd c hconns hpending hring hclaim hidle hclaimed hfile hclosed hfiles harriving =>
    have hlive := live_close hpending hring hclaim hidle hclaimed
    refine h.keep harriving (fun d hd => hconns.peer ▸ hd) ?_
    intro x hx d hd
    rcases List.mem_cons.mp (hlive.mem_iff.mp hx) with rfl | hmem
    · rw [hfile] at hd
      cases hd
      rw [hconns.peer]
      exact .inl hclosed
    · have hne : x ≠ fd := by
        rintro rfl
        have hnodup := hlive.nodup_iff.mp hdesk.nodup
        exact (List.nodup_cons.mp hnodup).1 hmem
      rw [hfiles, Function.update_of_ne hne]
      exact .inr ⟨hmem, hd⟩

end Accounted

structure Whole (arriving : List κ) (σ : ThreadPool κ n) : Prop where
  control : Control σ
  desk : Desk σ
  ending : Ending σ
  accounted : Accounted arriving σ

theorem Whole.start (stream : κ → Bytes) (arriving : List κ) (st : CmdState)
    (path : Option Bytes) :
    Whole arriving (ThreadPool.start stream arriving st path : ThreadPool κ n) :=
  ⟨.start stream arriving st path, .start stream arriving st path, .start stream arriving st path,
    .start stream arriving st path⟩

section End

variable {arriving : List κ} {outcome : Option PersistStatus}

theorem Whole.outside (h : Whole arriving σ) (hsaved : σ.main = .saved outcome)
    (t : Option (Fin n)) : σ.threads.pc t = .outside := by
  cases t with
  | none => exact h.control.mainOut (by rw [hsaved]; nofun)
  | some i =>
    refine h.control.workerOut i ?_
    rw [(h.ending.saved outcome hsaved).1 i]
    nofun

end End

section Saved

variable [DecidableEq κ] {hash : Bytes → UInt64} {stream : κ → Bytes} {arriving : List κ}
  {st : CmdState} {path : Option Bytes} {outcome : Option PersistStatus}

theorem Whole.step (h : Whole arriving σ) {ev : ThreadEvent n} (hs : step hash σ ev = some σ') :
    Whole arriving σ' := by
  have hcase := step_cases hs
  have hhand := hcase.handover h.control
  exact ⟨h.control.step hcase, h.desk.step hhand, h.ending.step h.control hcase,
    h.accounted.step h.desk hhand⟩

theorem Reached.whole (h : Reached hash stream arriving st path σ) : Whole arriving σ :=
  h.invariant (.start stream arriving st path) (fun _ _ _ hw _ hs => hw.step hs)

theorem Whole.stopped (h : Whole arriving σ) (hsaved : σ.main = .saved outcome)
    (ev : ThreadEvent n) : ThreadPool.step hash σ ev = none := by
  have hout := h.outside hsaved
  have hexited := (h.ending.saved outcome hsaved).1
  rw [Option.eq_none_iff_forall_ne_some]
  intro σ' hs
  cases step_cases hs with
  | accept hmain => rw [hsaved] at hmain; cases hmain
  | stop hmain => rw [hsaved] at hmain; cases hmain
  | @pop i hidle => rw [hexited i] at hidle; cases hidle
  | inner hcall _ hq =>
    cases hq with
    | call => exact hcall _ _ rfl
    | @lock t _ _ ht => rw [hout t] at ht; cases ht
    | @sleep t _ ht => rw [hout t] at ht; cases ht
    | @enter t _ _ _ ht => rw [hout t] at ht; cases ht
    | @idleSignal t _ _ _ ht => rw [hout t] at ht; cases ht
    | @signal t _ _ _ _ _ ht => rw [hout t] at ht; cases ht
    | @broadcast t _ _ _ _ ht => rw [hout t] at ht; cases ht
    | @unlock t _ ht => rw [hout t] at ht; cases ht
    | @spurious t _ ht => rw [hout t] at ht; cases ht
  | @leave t o ht => rw [hout t] at ht; cases ht
  | @serve i _ _ _ hserving => rw [hexited i] at hserving; cases hserving
  | @close i _ _ hserving => rw [hexited i] at hserving; cases hserving
  | join hmain => rw [hsaved] at hmain; cases hmain
  | save hmain => rw [hsaved] at hmain; cases hmain

end Saved

end ThreadPool

end RedisServer

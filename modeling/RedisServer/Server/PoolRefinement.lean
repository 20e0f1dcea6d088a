import RedisServer.Server.ThreadPool

namespace RedisServer

open Monitor (Pc)

variable {n : Nat}

def opFor : Option (Fin n) → QueueOp → Bool
  | none, .push _ => true
  | none, .shutdown => true
  | some i, .pop worker => worker = i
  | _, _ => false

-- the main thread never gets a descriptor back: it is the only one to push, and no longer does
-- when it shuts the queue
def replyFor : Option (Fin n) → QueueReply → Bool
  | none, .queued => true
  | none, .shut => true
  | some _, .returned _ => true
  | _, _ => false

def fits (t : Option (Fin n)) : Pc QueueOp QueueReply QueueCond → Bool
  | .outside => true
  | .locking a => opFor t a
  | .testing a => opFor t a
  | .asleep a => opFor t a
  | .waking o _ => replyFor t o

section Quiet

variable {q : WorkQueue} {p p' : Pc QueueOp QueueReply QueueCond}

theorem carried_quiet (h : Monitor.Quiet queueMonitor q p p') : carried p' = carried p := by
  cases h with
  | same => rfl
  | @lock op => cases op <;> rfl
  | @sleep op => cases op <;> rfl
  | @wake o =>
    cases o with
    | returned fd => cases fd <;> rfl
    | _ => rfl
  | @rouse op => cases op <;> rfl

theorem fits_quiet (h : Monitor.Quiet queueMonitor q p p') (t : Option (Fin n)) :
    fits t p' = fits t p := by
  cases h <;> rfl

def announcing : Pc QueueOp QueueReply QueueCond → Bool
  | .waking .shut _ => true
  | _ => false

theorem announcing_quiet (h : Monitor.Quiet queueMonitor q p p') :
    announcing p' = announcing p := by
  cases h with
  | @wake o => cases o <;> rfl
  | _ => rfl

theorem outside_quiet (h : Monitor.Quiet queueMonitor q p p') (hp : p = .outside) :
    p' = .outside := by
  subst hp
  cases h
  rfl

end Quiet

theorem fits_set {q : QueueThreads (Option (Fin n))} (h : ∀ t, fits t (q.pc t) = true)
    {t : Option (Fin n)} {p : Pc QueueOp QueueReply QueueCond} (hp : fits t p = true)
    (u : Option (Fin n)) : fits u ((q.set t p).pc u) = true := by
  rcases eq_or_ne u t with rfl | hne
  · rwa [Monitor.State.set_pc_self]
  · rw [Monitor.State.set_pc_ne q p hne]
    exact h u

def MainPhase.closing : MainPhase → Bool
  | .joining _ => true
  | .saved _ => true
  | _ => false

namespace ThreadPool

variable {κ : Type} {σ : ThreadPool κ n}

structure Control (σ : ThreadPool κ n) : Prop where
  reached : QueueThreads.Reached σ.threads
  fits : ∀ t, fits t (σ.threads.pc t) = true
  mainOut : σ.main ≠ .calling → σ.threads.pc none = .outside
  workerOut : ∀ i, σ.worker i ≠ .idle → σ.threads.pc (some i) = .outside
  flag : σ.threads.shared.shutdown = (σ.main.closing || announcing (σ.threads.pc none))

namespace Control

theorem start (stream : κ → Bytes) (arriving : List κ) (st : CmdState) (path : Option Bytes) :
    Control (ThreadPool.start stream arriving st path : ThreadPool κ n) where
  reached := .start
  fits _ := rfl
  mainOut _ := rfl
  workerOut _ _ := rfl
  flag := rfl

theorem calling (h : Control σ) (hpc : σ.threads.pc none ≠ .outside) : σ.main = .calling := by
  by_contra hmain
  exact hpc (h.mainOut hmain)

theorem idle (h : Control σ) {i : Fin n} (hpc : σ.threads.pc (some i) ≠ .outside) :
    σ.worker i = .idle := by
  by_contra hw
  exact hpc (h.workerOut i hw)

theorem openQueue (h : Control σ) {fd : Nat} (hpc : σ.threads.pc none = .testing (.push fd)) :
    σ.threads.shared.shutdown = false := by
  rw [h.flag, h.calling (by rw [hpc]; nofun), hpc]
  rfl

theorem mainCalls (h : Control σ) (hmain : σ.main = .accepting) {op : QueueOp}
    (hop : opFor (none : Option (Fin n)) op = true) {files : Nat → Option κ} {arriving : List κ} :
    Control { σ with
      threads := σ.threads.set none (.locking op)
      main := .calling
      arriving := arriving
      files := files } := by
  have hpc : σ.threads.pc none = .outside := h.mainOut (by rw [hmain]; nofun)
  refine ⟨h.reached.next (.call hpc), fits_set h.fits hop, fun hm => absurd rfl hm, ?_, ?_⟩
  · intro i hi
    exact (Monitor.State.set_pc_ne σ.threads _ (Option.some_ne_none i)).trans (h.workerOut i hi)
  · have hflag := h.flag
    rw [hmain, hpc] at hflag
    rw [Monitor.State.set_pc_self]
    exact hflag

theorem quiet (h : Control σ) {q : QueueThreads (Option (Fin n))}
    (hreached : QueueThreads.Reached q) (hshared : q.shared = σ.threads.shared)
    (hq : ∀ u, Monitor.Quiet queueMonitor σ.threads.shared (σ.threads.pc u) (q.pc u)) :
    Control { σ with threads := q } where
  reached := hreached
  fits t := (fits_quiet (hq t) t).trans (h.fits t)
  mainOut hm := outside_quiet (hq none) (h.mainOut hm)
  workerOut i hi := outside_quiet (hq (some i)) (h.workerOut i hi)
  flag := by
    rw [hshared, announcing_quiet (hq none)]
    exact h.flag

theorem replyFor_of_case {t : Option (Fin n)} {q q' : WorkQueue} {op : QueueOp} {o : QueueReply}
    (hop : opFor t op = true) (hopen : t = none → ∀ fd, op = .push fd → q.shutdown = false)
    (hc : WqCase q op q' o) : replyFor t o = true := by
  cases t with
  | none =>
    cases hc with
    | queued => rfl
    | closed hshut =>
      rw [hopen rfl _ rfl] at hshut
      cases hshut
    | handed => cases hop
    | drained => cases hop
    | shut => rfl
  | some i =>
    cases hc with
    | queued => cases hop
    | closed => cases hop
    | handed => rfl
    | drained => rfl
    | shut => cases hop

theorem flag_enter (h : Control σ) {t : Option (Fin n)} {op : QueueOp} {s : WorkQueue}
    {o : QueueReply} (ht : σ.threads.pc t = .testing op) (hc : WqCase σ.threads.shared op s o)
    {left : List (Monitor.Wake QueueCond)} :
    s.shutdown = (σ.main.closing || announcing ((σ.threads.set t (.waking o left)).pc none)) := by
  have hop : opFor t op = true := by
    have hfits := h.fits t
    rwa [ht] at hfits
  have hflag := h.flag
  cases t with
  | none =>
    rw [h.calling (by rw [ht]; nofun), ht] at hflag
    rw [h.calling (by rw [ht]; nofun), Monitor.State.set_pc_self]
    cases hc with
    | queued => exact hflag
    | closed => exact hflag
    | handed => cases hop
    | drained => cases hop
    | shut => rfl
  | some i =>
    rw [Monitor.State.set_pc_ne σ.threads _ (Option.some_ne_none i).symm, ← hflag]
    cases hc with
    | shut => cases hop
    | _ => rfl

theorem enter (h : Control σ) {t : Option (Fin n)} {op : QueueOp} {s : WorkQueue}
    {o : QueueReply} (ht : σ.threads.pc t = .testing op)
    (hgo : wqStep σ.threads.shared op = some (s, o)) :
    Control { σ with
      threads := { σ.threads.set t (.waking o (queueWakes op o)) with
        shared := s
        log := σ.threads.log ++ [(op, o)] } } where
  reached := h.reached.next (.enter ht hgo)
  fits := by
    refine fits_set h.fits ?_
    have hop := h.fits t
    rw [ht] at hop
    refine replyFor_of_case hop ?_ (wqStep_cases hgo)
    rintro rfl fd rfl
    exact h.openQueue ht
  mainOut hm := by
    have hne : t ≠ none := by
      rintro rfl
      exact hm (h.calling (by rw [ht]; nofun))
    exact (Monitor.State.set_pc_ne σ.threads _ hne.symm).trans (h.mainOut hm)
  workerOut i hi := by
    have hne : t ≠ some i := by
      rintro rfl
      exact hi (h.idle (by rw [ht]; nofun))
    exact (Monitor.State.set_pc_ne σ.threads _ hne.symm).trans (h.workerOut i hi)
  flag := h.flag_enter ht (wqStep_cases hgo)

-- after the unlock a thread goes on outside the queue, as its answer tells it
theorem leave (h : Control σ) {t : Option (Fin n)} {o : QueueReply}
    (ht : σ.threads.pc t = .waking o []) :
    Control (resume { σ with threads := { σ.threads.set t .outside with owner := none } } t o) := by
  have hreached : QueueThreads.Reached { σ.threads.set t .outside with owner := none } :=
    h.reached.next (.unlock ht)
  have hfits := fits_set (p := .outside) h.fits (t := t) rfl
  have hreply := h.fits t
  rw [ht] at hreply
  have hflag := h.flag
  cases t with
  | none =>
    have hself : (σ.threads.set none .outside).pc none = .outside :=
      Monitor.State.set_pc_self σ.threads _
    have hother : ∀ i, σ.worker i ≠ .idle →
        (σ.threads.set none .outside).pc (some i) = .outside := fun i hi =>
      (Monitor.State.set_pc_ne σ.threads _ (Option.some_ne_none i)).trans (h.workerOut i hi)
    rw [h.calling (by rw [ht]; nofun), ht] at hflag
    cases o with
    | queued =>
      refine ⟨hreached, hfits, fun _ => hself, hother, hflag.trans ?_⟩
      exact (congrArg (fun p => false || announcing p) hself).symm
    | shut => exact ⟨hreached, hfits, fun _ => hself, hother, hflag⟩
    | closed => cases hreply
    | returned => cases hreply
  | some i =>
    have hmain : (σ.threads.set (some i) .outside).pc none = σ.threads.pc none :=
      Monitor.State.set_pc_ne σ.threads _ (Option.some_ne_none i).symm
    have hout : σ.main ≠ .calling → (σ.threads.set (some i) .outside).pc none = .outside :=
      fun hm => hmain.trans (h.mainOut hm)
    have hworker : ∀ (w : WorkerPhase) (j : Fin n), Function.update σ.worker i w j ≠ .idle →
        (σ.threads.set (some i) .outside).pc (some j) = .outside := by
      intro w j hj
      rcases eq_or_ne j i with rfl | hne
      · exact Monitor.State.set_pc_self σ.threads _
      · rw [Function.update_of_ne hne] at hj
        rw [Monitor.State.set_pc_ne σ.threads _ (by simpa using hne)]
        exact h.workerOut j hj
    rw [← hmain] at hflag
    cases o with
    | returned fd =>
      cases fd with
      | ofNat fd => exact ⟨hreached, hfits, hout, hworker _, hflag⟩
      | negSucc k => exact ⟨hreached, hfits, hout, hworker _, hflag⟩
    | queued => cases hreply
    | closed => cases hreply
    | shut => cases hreply

variable [DecidableEq κ] {hash : Bytes → UInt64} {σ' : ThreadPool κ n}

theorem step {ev : ThreadEvent n} (h : Control σ) (hc : Case hash σ ev σ') : Control σ' := by
  cases hc with
  | accept hmain _ _ _ => exact h.mainCalls hmain rfl
  | stop hmain _ => exact h.mainCalls hmain rfl
  | @pop i hidle hpc =>
    refine ⟨h.reached.next (.call hpc), fits_set h.fits (by simp [RedisServer.fits, opFor]), ?_, ?_,
      ?_⟩
    · intro hm
      exact (Monitor.State.set_pc_ne σ.threads _ (Option.some_ne_none i).symm).trans (h.mainOut hm)
    · intro j hj
      have hne : some j ≠ some i := by
        rintro hji
        cases hji
        exact hj hidle
      exact (Monitor.State.set_pc_ne σ.threads _ hne).trans (h.workerOut j hj)
    · rw [Monitor.State.set_pc_ne σ.threads _ (Option.some_ne_none i).symm]
      exact h.flag
  | inner hcall hunlock hq =>
    cases hq.kind with
    | call => exact absurd rfl (hcall _ _)
    | quiet hshared hall => exact h.quiet (h.reached.next hq) hshared hall
    | enter ht hgo => exact h.enter ht hgo
    | unlock => exact absurd rfl (hunlock _)
  | leave hpc => exact h.leave hpc
  | serve => exact ⟨h.reached, h.fits, h.mainOut, h.workerOut, h.flag⟩
  | @close i fd c hserving _ _ =>
    refine ⟨h.reached, h.fits, h.mainOut, ?_, h.flag⟩
    intro j hj
    rcases eq_or_ne j i with rfl | hne
    · exact h.workerOut j (by rw [hserving]; nofun)
    · change Function.update σ.worker i .idle j ≠ .idle at hj
      rw [Function.update_of_ne hne] at hj
      exact h.workerOut j hj
  | join hmain =>
    have hflag := h.flag
    rw [hmain] at hflag
    exact ⟨h.reached, h.fits, fun _ => h.mainOut (by rw [hmain]; nofun), h.workerOut, hflag⟩
  | save hmain =>
    have hflag := h.flag
    rw [hmain] at hflag
    exact ⟨h.reached, h.fits, fun _ => h.mainOut (by rw [hmain]; nofun), h.workerOut, hflag⟩

end Control

def claims (σ : ThreadPool κ n) : List Nat := (List.finRange n).filterMap σ.claimed

def live (σ : ThreadPool κ n) : List Nat :=
  σ.pending.toList ++ (σ.threads.shared.ring ++ σ.claims)

-- the open descriptors are those in use, and each is in one place: with main, in the ring, or with
-- one worker
structure Desk (σ : ThreadPool κ n) : Prop where
  nodup : σ.live.Nodup
  filed : ∀ fd ∈ σ.live, ∃ c, σ.files fd = some c
  held : ∀ fd, σ.files fd ≠ none → fd ∈ σ.live

section Desk

variable {σ : ThreadPool κ n}

theorem mem_live {fd : Nat} :
    fd ∈ σ.live ↔
      σ.pending = some fd ∨ fd ∈ σ.threads.shared.ring ∨ ∃ i, σ.claimed i = some fd := by
  simp [live, claims]

theorem Desk.start (stream : κ → Bytes) (arriving : List κ) (st : CmdState)
    (path : Option Bytes) : Desk (ThreadPool.start stream arriving st path : ThreadPool κ n) := by
  have hclaims : (ThreadPool.start stream arriving st path : ThreadPool κ n).claims = [] :=
    List.filterMap_eq_nil_iff.mpr (fun _ _ => rfl)
  have hlive : (ThreadPool.start stream arriving st path : ThreadPool κ n).live = [] := by
    rw [live, hclaims]
    rfl
  exact ⟨by rw [hlive]; exact List.nodup_nil, by rw [hlive]; nofun, fun _ hopen => absurd rfl hopen⟩

theorem claims_perm {f g : Fin n → Option Nat} {i : Fin n} {fd : Nat} (hf : f i = none)
    (hg : g i = some fd) (h : ∀ j, j ≠ i → g j = f j) :
    ((List.finRange n).filterMap g).Perm (fd :: (List.finRange n).filterMap f) := by
  have hsplit : (List.finRange n).Perm (i :: (List.finRange n).erase i) :=
    List.perm_cons_erase (List.mem_finRange i)
  have hrest : ((List.finRange n).erase i).filterMap g = ((List.finRange n).erase i).filterMap f := by
    refine List.filterMap_congr ?_
    intro j hj
    exact h j (((List.nodup_finRange n).mem_erase_iff.mp hj).1)
  have hwith := hsplit.filterMap g
  have hwithout := hsplit.filterMap f
  rw [List.filterMap_cons_some hg, hrest] at hwith
  rw [List.filterMap_cons_none hf] at hwithout
  exact hwith.trans (hwithout.symm.cons fd)

theorem claims_congr {σ' : ThreadPool κ n} (h : ∀ i, σ'.claimed i = σ.claimed i) :
    σ'.claims = σ.claims := by
  rw [claims, claims, funext h]

section Files

variable {f g : Nat → Option κ} (h : ∀ fd ∈ σ.live, f fd = g fd)

include h

theorem pending_bind_congr : σ.pending.bind f = σ.pending.bind g := by
  cases hp : σ.pending with
  | none => rfl
  | some fd => exact h fd (mem_live.mpr (.inl hp))

theorem ring_filterMap_congr :
    σ.threads.shared.ring.filterMap f = σ.threads.shared.ring.filterMap g :=
  List.filterMap_congr (fun fd hfd => h fd (mem_live.mpr (.inr (.inl hfd))))

theorem claimed_bind_congr (i : Fin n) : (σ.claimed i).bind f = (σ.claimed i).bind g := by
  cases hc : σ.claimed i with
  | none => rfl
  | some fd => exact h fd (mem_live.mpr (.inr (.inr ⟨i, hc⟩)))

end Files

theorem Desk.of_perm (h : Desk σ) {σ' : ThreadPool κ n} (hfiles : σ'.files = σ.files)
    (hlive : σ'.live.Perm σ.live) : Desk σ' where
  nodup := hlive.nodup_iff.mpr h.nodup
  filed fd hfd := hfiles ▸ h.filed fd (hlive.mem_iff.mp hfd)
  held fd hfd := hlive.mem_iff.mpr (h.held fd (hfiles ▸ hfd))

theorem Desk.ne_of_free (h : Desk σ) {fd : Nat} (hfree : σ.files fd = none) : fd ∉ σ.live := by
  intro hmem
  obtain ⟨c, hc⟩ := h.filed fd hmem
  rw [hfree] at hc
  cases hc

end Desk

section Handover

variable {σ σ' : ThreadPool κ n}

theorem claimed_congr {i : Fin n} (hw : σ'.worker i = σ.worker i)
    (hpc : carried (σ'.threads.pc (some i)) = carried (σ.threads.pc (some i))) :
    σ'.claimed i = σ.claimed i := by
  rw [claimed, claimed, hw, hpc]

theorem claimed_of_idle {i : Fin n} {p : Pc QueueOp QueueReply QueueCond}
    (h : σ.worker i = .idle) (hpc : σ.threads.pc (some i) = p) : σ.claimed i = carried p := by
  rw [claimed, h, hpc]

theorem claimed_of_serving {i : Fin n} {fd : Nat} (h : σ.worker i = .serving fd) :
    σ.claimed i = some fd := by
  rw [claimed, h]

theorem claimed_of_exited {i : Fin n} {p : Pc QueueOp QueueReply QueueCond}
    (h : σ.worker i = .exited) (hpc : σ.threads.pc (some i) = p) : σ.claimed i = carried p := by
  rw [claimed, h, hpc]

section Live

variable {fd : Nat} {i : Fin n}

theorem live_still (hpending : σ'.pending = σ.pending)
    (hring : σ'.threads.shared.ring = σ.threads.shared.ring)
    (hclaimed : ∀ i, σ'.claimed i = σ.claimed i) : σ'.live = σ.live := by
  rw [live, live, hpending, hring, claims_congr hclaimed]

theorem live_accept (hnone : σ.pending = none) (hpending : σ'.pending = some fd)
    (hring : σ'.threads.shared.ring = σ.threads.shared.ring)
    (hclaimed : ∀ i, σ'.claimed i = σ.claimed i) : σ'.live = fd :: σ.live := by
  rw [live, live, hpending, hnone, hring, claims_congr hclaimed]
  rfl

theorem live_push (hpending : σ.pending = some fd) (hnone : σ'.pending = none)
    (hring : σ'.threads.shared.ring = σ.threads.shared.ring ++ [fd])
    (hclaimed : ∀ i, σ'.claimed i = σ.claimed i) : σ'.live.Perm σ.live := by
  rw [live, live, hpending, hnone, hring, claims_congr hclaimed, List.append_assoc]
  exact List.perm_middle

theorem live_pop (hpending : σ'.pending = σ.pending)
    (hring : σ.threads.shared.ring = fd :: σ'.threads.shared.ring) (hidle : σ.claimed i = none)
    (hclaim : σ'.claimed i = some fd) (hclaimed : ∀ j, j ≠ i → σ'.claimed j = σ.claimed j) :
    σ'.live.Perm σ.live := by
  rw [live, live, hpending, hring]
  refine List.Perm.append_left _ ?_
  exact ((claims_perm hidle hclaim hclaimed).append_left _).trans List.perm_middle

theorem live_close (hpending : σ'.pending = σ.pending)
    (hring : σ'.threads.shared.ring = σ.threads.shared.ring) (hclaim : σ.claimed i = some fd)
    (hidle : σ'.claimed i = none) (hclaimed : ∀ j, j ≠ i → σ'.claimed j = σ.claimed j) :
    σ.live.Perm (fd :: σ'.live) := by
  have hclaims := claims_perm hidle hclaim (fun j hj => (hclaimed j hj).symm)
  rw [live, live, hpending, hring]
  refine List.Perm.trans (List.Perm.append_left _ (hclaims.append_left _)) ?_
  exact (List.perm_middle.append_left _).trans List.perm_middle

end Live

structure SameConns (σ σ' : ThreadPool κ n) : Prop where
  peer : σ'.peer = σ.peer
  unread : σ'.unread = σ.unread
  state : σ'.state = σ.state
  log : σ'.log = σ.log

-- what a step can do to the descriptors
inductive Handover (hash : Bytes → UInt64) [DecidableEq κ] (σ σ' : ThreadPool κ n) : Prop
  | still (hconns : SameConns σ σ') (hpending : σ'.pending = σ.pending)
    (hring : σ'.threads.shared.ring = σ.threads.shared.ring)
    (hclaimed : ∀ i, σ'.claimed i = σ.claimed i) (hfiles : σ'.files = σ.files)
    (harriving : σ'.arriving = σ.arriving)
  | accept {fd : Nat} {c : κ} (hconns : SameConns σ σ') (hnone : σ.pending = none)
    (hpending : σ'.pending = some fd) (hring : σ'.threads.shared.ring = σ.threads.shared.ring)
    (hclaimed : ∀ i, σ'.claimed i = σ.claimed i) (hfree : σ.files fd = none)
    (hfiles : σ'.files = Function.update σ.files fd (some c))
    (harriving : σ.arriving = c :: σ'.arriving)
  | push {fd : Nat} (hconns : SameConns σ σ') (hpending : σ.pending = some fd)
    (hnone : σ'.pending = none)
    (hring : σ'.threads.shared.ring = σ.threads.shared.ring ++ [fd])
    (hclaimed : ∀ i, σ'.claimed i = σ.claimed i) (hfiles : σ'.files = σ.files)
    (harriving : σ'.arriving = σ.arriving)
  | pop {i : Fin n} {fd : Nat} (hconns : SameConns σ σ') (hpending : σ'.pending = σ.pending)
    (hring : σ.threads.shared.ring = fd :: σ'.threads.shared.ring)
    (hidle : σ.claimed i = none) (hclaim : σ'.claimed i = some fd)
    (hclaimed : ∀ j, j ≠ i → σ'.claimed j = σ.claimed j) (hfiles : σ'.files = σ.files)
    (harriving : σ'.arriving = σ.arriving)
  | serve {i : Fin n} {s : ConnStep} {w : Pool κ (Fin n)}
    (hs : poolStep hash σ.view (s.event i) = some w) (heq : σ' = σ.absorb w)
  | close {i : Fin n} {fd : Nat} {c : κ} (hconns : SameConns σ σ')
    (hpending : σ'.pending = σ.pending)
    (hring : σ'.threads.shared.ring = σ.threads.shared.ring) (hclaim : σ.claimed i = some fd)
    (hidle : σ'.claimed i = none) (hclaimed : ∀ j, j ≠ i → σ'.claimed j = σ.claimed j)
    (hfile : σ.files fd = some c) (hclosed : (σ.peer c).phase = .closed)
    (hfiles : σ'.files = Function.update σ.files fd none) (harriving : σ'.arriving = σ.arriving)

variable [DecidableEq κ] {hash : Bytes → UInt64}

theorem enter_handover (h : Control σ) {t : Option (Fin n)} {op : QueueOp} {s : WorkQueue}
    {o : QueueReply} (ht : σ.threads.pc t = .testing op)
    (hgo : wqStep σ.threads.shared op = some (s, o)) :
    Handover hash σ { σ with
      threads := { σ.threads.set t (.waking o (queueWakes op o)) with
        shared := s
        log := σ.threads.log ++ [(op, o)] } } := by
  have hself := Monitor.State.set_pc_self σ.threads (t := t) (.waking o (queueWakes op o))
  have hne : ∀ {u}, u ≠ t → (σ.threads.set t (.waking o (queueWakes op o))).pc u =
      σ.threads.pc u := fun hu => Monitor.State.set_pc_ne σ.threads _ hu
  have hfits := h.fits t
  rw [ht] at hfits
  have hcase := wqStep_cases hgo
  cases t with
  | none =>
    have hclaimed : ∀ i, carried ((σ.threads.set none (.waking o (queueWakes op o))).pc (some i)) =
        carried (σ.threads.pc (some i)) := fun i => by rw [hne (Option.some_ne_none i)]
    have hbefore : σ.pending = carried (.testing op) := by rw [pending, ht]
    cases hcase with
    | @queued fd hroom hopen =>
      have hinv := h.reached.wqInv
      have hring : Ring.contents (Function.update σ.threads.shared.fds σ.threads.shared.tail fd)
          queueCapacity σ.threads.shared.head (σ.threads.shared.count + 1) =
            σ.threads.shared.ring ++ [fd] := by
        rw [hinv.tail_eq]
        exact Ring.contents_push (lt_of_le_of_ne hinv.count_le hroom) fd
      exact .push ⟨rfl, rfl, rfl, rfl⟩ hbefore (congrArg carried hself) hring
        (fun i => claimed_congr rfl (hclaimed i)) rfl rfl
    | closed hshut =>
      rw [h.openQueue ht] at hshut
      cases hshut
    | handed => cases hfits
    | drained => cases hfits
    | shut =>
      exact .still ⟨rfl, rfl, rfl, rfl⟩ ((congrArg carried hself).trans hbefore.symm) rfl
        (fun i => claimed_congr rfl (hclaimed i)) rfl rfl
  | some i =>
    have hidle : σ.worker i = .idle := h.idle (by rw [ht]; nofun)
    have hpending : carried ((σ.threads.set (some i) (.waking o (queueWakes op o))).pc none) =
        σ.pending := by rw [hne (Option.some_ne_none i).symm, pending]
    have hothers : ∀ j, j ≠ i →
        carried ((σ.threads.set (some i) (.waking o (queueWakes op o))).pc (some j)) =
          carried (σ.threads.pc (some j)) := fun j hj => by rw [hne (by simpa using hj)]
    have hbefore : σ.claimed i = carried (.testing op) := claimed_of_idle hidle ht
    have hafter : ThreadPool.claimed { σ with
        threads := { σ.threads.set (some i) (.waking o (queueWakes op o)) with
          shared := s
          log := σ.threads.log ++ [(op, o)] } } i = carried (.waking o (queueWakes op o)) :=
      claimed_of_idle hidle hself
    cases hcase with
    | queued => cases hfits
    | closed => cases hfits
    | @handed worker k hk =>
      have hring : σ.threads.shared.ring = σ.threads.shared.fds σ.threads.shared.head ::
          Ring.contents σ.threads.shared.fds queueCapacity
            ((σ.threads.shared.head + 1) % queueCapacity) k := by
        rw [WorkQueue.ring, hk]
        exact Ring.contents_pop h.reached.wqInv.head_lt
      exact .pop (i := i) ⟨rfl, rfl, rfl, rfl⟩ hpending hring hbefore hafter
        (fun j hj => claimed_congr rfl (hothers j hj)) rfl rfl
    | drained =>
      refine .still ⟨rfl, rfl, rfl, rfl⟩ hpending rfl (fun j => ?_) rfl rfl
      rcases eq_or_ne j i with rfl | hj
      · exact hafter.trans hbefore.symm
      · exact claimed_congr rfl (hothers j hj)
    | shut => cases hfits

theorem leave_handover (h : Control σ) {t : Option (Fin n)} {o : QueueReply}
    (ht : σ.threads.pc t = .waking o []) :
    Handover hash σ
      (resume { σ with threads := { σ.threads.set t .outside with owner := none } } t o) := by
  have hself := Monitor.State.set_pc_self σ.threads (t := t) .outside
  have hne : ∀ {u}, u ≠ t → (σ.threads.set t .outside).pc u = σ.threads.pc u :=
    fun hu => Monitor.State.set_pc_ne σ.threads _ hu
  have hreply := h.fits t
  rw [ht] at hreply
  cases t with
  | none =>
    have hclaimed : ∀ i, carried ((σ.threads.set none .outside).pc (some i)) =
        carried (σ.threads.pc (some i)) := fun i => by rw [hne (Option.some_ne_none i)]
    have hbefore : σ.pending = carried (.waking o []) := by rw [pending, ht]
    cases o with
    | queued =>
      exact .still ⟨rfl, rfl, rfl, rfl⟩ ((congrArg carried hself).trans hbefore.symm) rfl
        (fun i => claimed_congr rfl (hclaimed i)) rfl rfl
    | shut =>
      exact .still ⟨rfl, rfl, rfl, rfl⟩ ((congrArg carried hself).trans hbefore.symm) rfl
        (fun i => claimed_congr rfl (hclaimed i)) rfl rfl
    | closed => cases hreply
    | returned => cases hreply
  | some i =>
    have hidle : σ.worker i = .idle := h.idle (by rw [ht]; nofun)
    have hbefore : σ.claimed i = carried (.waking o []) := claimed_of_idle hidle ht
    have hpending : carried ((σ.threads.set (some i) .outside).pc none) = σ.pending := by
      rw [hne (Option.some_ne_none i).symm, pending]
    have hothers : ∀ j, j ≠ i → carried ((σ.threads.set (some i) .outside).pc (some j)) =
        carried (σ.threads.pc (some j)) := fun j hj => by rw [hne (by simpa using hj)]
    cases o with
    | returned fd =>
      cases fd with
      | ofNat fd =>
        refine .still ⟨rfl, rfl, rfl, rfl⟩ hpending rfl (fun j => ?_) rfl rfl
        rcases eq_or_ne j i with rfl | hj
        · exact (claimed_of_serving (Function.update_self ..)).trans hbefore.symm
        · exact claimed_congr (Function.update_of_ne hj ..) (hothers j hj)
      | negSucc k =>
        refine .still ⟨rfl, rfl, rfl, rfl⟩ hpending rfl (fun j => ?_) rfl rfl
        rcases eq_or_ne j i with rfl | hj
        · exact (claimed_of_exited (p := .outside) (Function.update_self ..) hself).trans hbefore.symm
        · exact claimed_congr (Function.update_of_ne hj ..) (hothers j hj)
    | queued => cases hreply
    | closed => cases hreply
    | shut => cases hreply

theorem Case.handover {ev : ThreadEvent n} (h : Control σ) (hc : Case hash σ ev σ') :
    Handover hash σ σ' := by
  cases hc with
  | @accept fd c cs hmain harr hfree hpc =>
    have hnone : σ.pending = none := congrArg carried hpc
    exact .accept ⟨rfl, rfl, rfl, rfl⟩ hnone
      (congrArg carried (Monitor.State.set_pc_self σ.threads _)) rfl
      (fun i => claimed_congr rfl
        (congrArg carried (Monitor.State.set_pc_ne σ.threads _ (Option.some_ne_none i))))
      hfree rfl harr
  | stop hmain hpc =>
    have hnone : σ.pending = none := congrArg carried hpc
    exact .still ⟨rfl, rfl, rfl, rfl⟩
      ((congrArg carried (Monitor.State.set_pc_self σ.threads _)).trans hnone.symm) rfl
      (fun i => claimed_congr rfl
        (congrArg carried (Monitor.State.set_pc_ne σ.threads _ (Option.some_ne_none i)))) rfl rfl
  | @pop i hidle hpc =>
    refine .still ⟨rfl, rfl, rfl, rfl⟩
      (congrArg carried (Monitor.State.set_pc_ne σ.threads _ (Option.some_ne_none i).symm)) rfl
      (fun j => claimed_congr rfl ?_) rfl rfl
    rcases eq_or_ne j i with rfl | hj
    · rw [Monitor.State.set_pc_self, hpc]
      rfl
    · rw [Monitor.State.set_pc_ne σ.threads _ (by simpa using hj)]
  | inner hcall hunlock hq =>
    cases hq.kind with
    | call => exact absurd rfl (hcall _ _)
    | quiet hshared hall =>
      exact .still ⟨rfl, rfl, rfl, rfl⟩ (carried_quiet (hall none))
        (congrArg WorkQueue.ring hshared)
        (fun i => claimed_congr rfl (carried_quiet (hall (some i)))) rfl rfl
    | enter ht hgo => exact enter_handover h ht hgo
    | unlock => exact absurd rfl (hunlock _)
  | leave hpc => exact leave_handover h hpc
  | serve _ hs => exact .serve hs rfl
  | @close i fd c hserving hfile hclosed =>
    have hpc := h.workerOut i (by rw [hserving]; nofun)
    exact .close (i := i) ⟨rfl, rfl, rfl, rfl⟩ rfl rfl (claimed_of_serving hserving)
      (claimed_of_idle (p := .outside) (Function.update_self ..) hpc)
      (fun j hj => claimed_congr (Function.update_of_ne hj ..) rfl) hfile hclosed rfl rfl
  | join => exact .still ⟨rfl, rfl, rfl, rfl⟩ rfl rfl (fun _ => rfl) rfl rfl
  | save => exact .still ⟨rfl, rfl, rfl, rfl⟩ rfl rfl (fun _ => rfl) rfl rfl

theorem Desk.step (h : Desk σ) (hh : Handover hash σ σ') : Desk σ' := by
  cases hh with
  | still _ hpending hring hclaimed hfiles _ =>
    exact h.of_perm hfiles (List.Perm.of_eq (live_still hpending hring hclaimed))
  | @accept fd c _ hnone hpending hring hclaimed hfree hfiles _ =>
    have hlive := live_accept hnone hpending hring hclaimed
    have hnew := h.ne_of_free hfree
    refine ⟨by rw [hlive]; exact h.nodup.cons hnew, ?_, ?_⟩
    · intro x hx
      rw [hlive] at hx
      rcases List.mem_cons.mp hx with rfl | hx
      · exact ⟨c, by rw [hfiles, Function.update_self]⟩
      · have hne : x ≠ fd := fun he => hnew (he ▸ hx)
        rw [hfiles, Function.update_of_ne hne]
        exact h.filed x hx
    · intro x hx
      rw [hlive]
      rcases eq_or_ne x fd with rfl | hne
      · exact List.mem_cons_self
      · rw [hfiles, Function.update_of_ne hne] at hx
        exact List.mem_cons_of_mem fd (h.held x hx)
  | push _ hpending hnone hring hclaimed hfiles _ =>
    exact h.of_perm hfiles (live_push hpending hnone hring hclaimed)
  | pop _ hpending hring hidle hclaim hclaimed hfiles _ =>
    exact h.of_perm hfiles (live_pop hpending hring hidle hclaim hclaimed)
  | serve _ heq =>
    subst heq
    exact ⟨h.nodup, h.filed, h.held⟩
  | @close i fd c _ hpending hring hclaim hidle hclaimed _ _ hfiles _ =>
    have hlive := live_close hpending hring hclaim hidle hclaimed
    have hnodup := List.nodup_cons.mp (hlive.nodup_iff.mp h.nodup)
    refine ⟨hnodup.2, ?_, ?_⟩
    · intro x hx
      have hne : x ≠ fd := fun he => hnodup.1 (he ▸ hx)
      rw [hfiles, Function.update_of_ne hne]
      exact h.filed x (hlive.mem_iff.mpr (List.mem_cons_of_mem fd hx))
    · intro x hx
      have hne : x ≠ fd := by
        rintro rfl
        rw [hfiles, Function.update_self] at hx
        exact hx rfl
      rw [hfiles, Function.update_of_ne hne] at hx
      exact (List.mem_cons.mp (hlive.mem_iff.mp (h.held x hx))).resolve_left hne

theorem conn_event_frame {v w : Pool κ (Fin n)} {i : Fin n} {s : ConnStep}
    (h : poolStep hash v (s.event i) = some w) :
    w.arriving = v.arriving ∧ w.queue = v.queue ∧ w.worker = v.worker := by
  cases s with
  | read k =>
    obtain ⟨c, -, hr⟩ := Option.bind_eq_some_iff.mp h
    rw [poolRead, Option.ite_none_right_eq_some] at hr
    obtain ⟨-, hr⟩ := hr
    cases hr
    exact ⟨rfl, rfl, rfl⟩
  | noRead r =>
    obtain ⟨c, -, hr⟩ := Option.bind_eq_some_iff.mp h
    rw [poolNoRead.eq_def] at hr
    split at hr
    case h_1 => cases hr
    case h_2 =>
      rw [Option.ite_none_right_eq_some] at hr
      obtain ⟨-, hr⟩ := hr
      cases hr
      exact ⟨rfl, rfl, rfl⟩
  | parse =>
    obtain ⟨c, -, hp⟩ := Option.bind_eq_some_iff.mp h
    rw [poolParse, Option.ite_none_right_eq_some] at hp
    obtain ⟨-, hp⟩ := hp
    cases hp
    exact ⟨rfl, rfl, rfl⟩
  | dispatch env =>
    obtain ⟨c, -, hd⟩ := Option.bind_eq_some_iff.mp h
    rw [poolDispatch] at hd
    split at hd
    case h_1 =>
      cases hd
      exact ⟨rfl, rfl, rfl⟩
    case h_2 => cases hd
  | flush lost =>
    obtain ⟨c, -, hf⟩ := Option.bind_eq_some_iff.mp h
    rw [poolFlush] at hf
    split at hf
    case h_1 =>
      cases hf
      exact ⟨rfl, rfl, rfl⟩
    case h_2 => cases hf

omit [DecidableEq κ] in
theorem view_eq_of (v : Pool κ (Fin n))
    (harriving : (σ.pending.bind σ.files).toList ++ σ.arriving = v.arriving)
    (hqueue : σ.threads.shared.ring.filterMap σ.files = v.queue)
    (hworker : ∀ i, (σ.claimed i).bind σ.files = v.worker i) (hpeer : σ.peer = v.peer)
    (hunread : σ.unread = v.unread) (hstate : σ.state = v.state) (hlog : σ.log = v.log) :
    σ.view = v := by
  cases v
  simp only [view, harriving, hqueue, funext hworker, hpeer, hunread, hstate, hlog]

theorem Handover.view (h : Desk σ) (hh : Handover hash σ σ') :
    σ'.view = σ.view ∨ ∃ ev, poolStep hash σ.view ev = some σ'.view := by
  have hstep := h.step hh
  cases hh with
  | still hconns hpending hring hclaimed hfiles harriving =>
    refine .inl (view_eq_of σ.view ?_ ?_ ?_ hconns.peer hconns.unread hconns.state hconns.log)
    · rw [hpending, hfiles, harriving]
      rfl
    · rw [hring, hfiles]
      rfl
    · intro i
      rw [hclaimed i, hfiles]
      rfl
  | @accept fd c hconns hnone hpending hring hclaimed hfree hfiles harriving =>
    have hold : ∀ x ∈ σ.live, σ'.files x = σ.files x := by
      intro x hx
      have hne : x ≠ fd := fun he => h.ne_of_free hfree (he ▸ hx)
      rw [hfiles, Function.update_of_ne hne]
    refine .inl (view_eq_of σ.view ?_ ?_ ?_ hconns.peer hconns.unread hconns.state hconns.log)
    · rw [hpending, hfiles, Option.bind_some, Function.update_self]
      change c :: σ'.arriving = (σ.pending.bind σ.files).toList ++ σ.arriving
      rw [hnone, harriving]
      rfl
    · rw [hring]
      exact ring_filterMap_congr hold
    · intro i
      rw [hclaimed i]
      exact claimed_bind_congr hold i
  | @push fd hconns hpending hnone hring hclaimed hfiles harriving =>
    obtain ⟨c, hc⟩ := h.filed fd (mem_live.mpr (.inl hpending))
    have harr : σ.view.arriving = c :: σ.arriving := by
      change (σ.pending.bind σ.files).toList ++ σ.arriving = c :: σ.arriving
      rw [hpending, Option.bind_some, hc]
      rfl
    refine .inr ⟨.accept, ?_⟩
    rw [poolStep, harr]
    refine congrArg some (view_eq_of _ ?_ ?_ ?_ hconns.peer hconns.unread hconns.state
      hconns.log).symm
    · rw [hnone, harriving]
      rfl
    · rw [hring, hfiles, List.filterMap_append]
      simp [ThreadPool.view, hc]
    · intro i
      rw [hclaimed i, hfiles]
      rfl
  | @pop i fd hconns hpending hring hidle hclaim hclaimed hfiles harriving =>
    have hmem : fd ∈ σ.threads.shared.ring := by
      rw [hring]
      exact List.mem_cons_self
    obtain ⟨c, hc⟩ := h.filed fd (mem_live.mpr (.inr (.inl hmem)))
    have hworker : σ.view.worker i = none := by
      change (σ.claimed i).bind σ.files = none
      rw [hidle]
      rfl
    have hqueue : σ.view.queue = c :: σ'.threads.shared.ring.filterMap σ.files := by
      change σ.threads.shared.ring.filterMap σ.files = _
      rw [hring, List.filterMap_cons_some hc]
    refine .inr ⟨.pop i, ?_⟩
    rw [poolStep, hworker, hqueue]
    refine congrArg some (view_eq_of _ ?_ ?_ ?_ hconns.peer hconns.unread hconns.state
      hconns.log).symm
    · rw [hpending, hfiles, harriving]
      rfl
    · rw [hfiles]
    · intro j
      rcases eq_or_ne j i with rfl | hj
      · simp [hclaim, hfiles, hc]
      · simp [hclaimed j hj, hfiles, hj, ThreadPool.view]
  | @serve i s w hs heq =>
    subst heq
    obtain ⟨harriving, hqueue, hworker⟩ := conn_event_frame hs
    refine .inr ⟨s.event i, hs.trans (congrArg some ?_)⟩
    exact (view_eq_of (σ := σ.absorb w) w harriving.symm hqueue.symm
      (fun j => (congrFun hworker j).symm) rfl rfl rfl rfl).symm
  | @close i fd c hconns hpending hring hclaim hidle hclaimed hfile hclosed hfiles harriving =>
    have hgone : fd ∉ σ'.live := by
      intro hmem
      obtain ⟨d, hd⟩ := hstep.filed fd hmem
      rw [hfiles, Function.update_self] at hd
      cases hd
    have hold : ∀ x ∈ σ'.live, σ'.files x = σ.files x := by
      intro x hx
      have hne : x ≠ fd := fun he => hgone (he ▸ hx)
      rw [hfiles, Function.update_of_ne hne]
    have hworker : σ.view.worker i = some c := by
      change (σ.claimed i).bind σ.files = some c
      rw [hclaim, Option.bind_some, hfile]
    refine .inr ⟨.finish i, ?_⟩
    rw [poolStep, hworker, Option.bind_some]
    refine (if_pos hclosed).trans (congrArg some ?_)
    refine (view_eq_of _ ?_ ?_ ?_ hconns.peer hconns.unread hconns.state hconns.log).symm
    · rw [pending_bind_congr hold, hpending, harriving]
      rfl
    · rw [ring_filterMap_congr hold, hring]
      rfl
    · intro j
      rw [claimed_bind_congr hold j]
      rcases eq_or_ne j i with rfl | hj
      · simp [hidle]
      · simp [hclaimed j hj, hj, ThreadPool.view]

structure Inv (σ : ThreadPool κ n) : Prop where
  control : Control σ
  desk : Desk σ

theorem Reached.refines {stream : κ → Bytes} {arriving : List κ} {st : CmdState}
    {path : Option Bytes} (h : Reached hash stream arriving st path σ) :
    Inv σ ∧ Interleaved hash stream arriving st σ.view := by
  have hview : (ThreadPool.start stream arriving st path : ThreadPool κ n).view =
      Pool.start stream arriving st := view_eq_of _ rfl rfl (fun _ => rfl) rfl rfl rfl rfl
  have hstep : ∀ (σ : ThreadPool κ n) ev σ', Inv σ → True → ThreadPool.step hash σ ev = some σ' →
      Inv σ' ∧ (σ'.view = σ.view ∨ ∃ j, poolStep hash σ.view j = some σ'.view) := by
    rintro σ ev σ' ⟨hcontrol, hdesk⟩ - hs
    have hcase := step_cases hs
    have hhand := hcase.handover hcontrol
    exact ⟨⟨hcontrol.step hcase, hdesk.step hhand⟩, hhand.view hdesk⟩
  have hsim := Machine.ReachableVia.simulation h
    ⟨.start stream arriving st path, .start stream arriving st path⟩ hstep
  rw [hview] at hsim
  exact hsim

end Handover

section Reuse

def one : Fin 2 := 0
def two : Fin 2 := 1

-- both clients get descriptor 5, one after the other, and both workers contend for the queue
def reuseRun : List (ThreadEvent 2) :=
  [.pop two, .queue (.lock (some two)), .queue (.test (some two)), .accept 5, .pop one,
    .queue (.lock none), .queue (.test none), .queue (.wake none (some (some two))),
    .queue (.unlock none), .queue (.lock (some two)), .queue (.test (some two)),
    .queue (.wake (some two) none), .queue (.unlock (some two)), .serve two (.read 8),
    .serve two .parse, .serve two (.dispatch quietMoment), .serve two (.flush none),
    .serve two .parse, .serve two (.noRead .eof), .close two, .accept 5, .queue (.lock none),
    .queue (.test none), .queue (.wake none none), .queue (.unlock none),
    .queue (.lock (some one)), .queue (.test (some one)), .queue (.wake (some one) none),
    .queue (.unlock (some one)), .serve one (.read 8), .serve one .parse,
    .serve one (.dispatch quietMoment), .serve one (.flush none)]

def reuseEnd : Option (ThreadPool Bool 2) :=
  Machine.exec (step fnv1aHash)
    (start (fun _ => str "INCR n\r\n") [true, false] ⟨storeCreate, [], 0⟩ (some (str "dump")))
    reuseRun

end Reuse

end ThreadPool

end RedisServer

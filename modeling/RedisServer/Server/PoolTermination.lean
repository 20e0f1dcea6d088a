import RedisServer.Server.PoolShutdown
import Mathlib.Algebra.BigOperators.WithTop

namespace RedisServer

open Monitor (Pc)

variable {n : Nat}

-- upper bounds on the steps a worker still takes between here and its exit, when the queue is shut
def pcWork : Pc QueueOp QueueReply QueueCond → Nat
  | .outside => 7
  | .locking _ => 6
  | .testing _ => 5
  | .asleep _ => 7
  | .waking (.returned (.ofNat _)) left => 10 + left.length
  | .waking _ left => 1 + left.length

def MainPhase.work (n : Nat) : MainPhase → Nat
  | .joining k => n + 1 - k
  | _ => 0

theorem queueWakes_length (op : QueueOp) (o : QueueReply) : (queueWakes op o).length ≤ 2 := by
  rw [queueWakes.eq_def]
  split <;> simp

theorem queueWakes_returned {op : QueueOp} {fd : Int} {c : QueueCond} :
    .broadcast c ∉ queueWakes op (.returned fd) := by
  rw [queueWakes.eq_def]
  split
  case h_1 hr => cases hr
  case h_2 => simp
  case h_3 hr => cases hr
  case h_4 => simp

theorem supply_ne_top {c : QueueCond} {left : List (Monitor.Wake QueueCond)}
    (h : ∀ d, .broadcast d ∉ left) : Monitor.supply c left ≠ ⊤ := by
  induction left with
  | nil => simp [Monitor.supply]
  | cons w left ih =>
    rw [Monitor.supply_cons]
    have hrest := ih (fun d hd => h d (List.mem_cons_of_mem w hd))
    cases w with
    | signal d =>
      have hfirst : (Monitor.Wake.signal d).supply c ≠ ⊤ := by
        rw [Monitor.Wake.supply]
        split <;> simp
      exact WithTop.add_ne_top.mpr ⟨hfirst, hrest⟩
    | broadcast d => exact absurd List.mem_cons_self (h d)

def ThreadEvent.serving : ThreadEvent n → Bool
  | .serve _ _ => true
  | _ => false

namespace ThreadPool

variable {κ : Type} {σ σ' : ThreadPool κ n} {arriving : List κ}

def workerWork (σ : ThreadPool κ n) (i : Fin n) : Nat :=
  match σ.worker i with
  | .idle => pcWork (σ.threads.pc (some i))
  | .serving _ => 9
  | .exited => 0

def workers (σ : ThreadPool κ n) : Nat := ∑ i, σ.workerWork i

def remaining (σ : ThreadPool κ n) : Nat :=
  σ.workers + 8 * σ.threads.shared.count + σ.main.work n

section Closing

variable (h : Whole arriving σ) (hclosing : σ.main.closing = true)

include h

theorem Whole.reply {i : Fin n} {o : QueueReply} {left : List (Monitor.Wake QueueCond)}
    (hpc : σ.threads.pc (some i) = .waking o left) :
    (∃ fd, o = .returned fd) ∧ left.length ≤ 2 ∧ ∀ c, .broadcast c ∉ left := by
  have hfits := h.control.fits (some i)
  rw [hpc] at hfits
  obtain ⟨op, hsuffix⟩ := h.control.reached.waking_suffix hpc
  cases o with
  | returned fd =>
    refine ⟨⟨fd, rfl⟩, hsuffix.length_le.trans (queueWakes_length op _), ?_⟩
    intro c hc
    exact queueWakes_returned (hsuffix.subset hc)
  | queued => cases hfits
  | closed => cases hfits
  | shut => cases hfits

theorem Whole.weight_ne_top (i : Fin n) (c : QueueCond) :
    queueMonitor.weight c (σ.threads.pc (some i)) ≠ ⊤ := by
  cases hpc : σ.threads.pc (some i) with
  | outside => exact WithTop.zero_ne_top
  | locking op => exact Monitor.demand_ne_top queueMonitor c op
  | testing op => exact Monitor.demand_ne_top queueMonitor c op
  | asleep op => exact WithTop.zero_ne_top
  | waking o left => exact supply_ne_top (h.reply hpc).2.2

include hclosing

theorem Whole.main_outside : σ.threads.pc none = .outside := by
  refine h.control.mainOut ?_
  intro hm
  rw [hm] at hclosing
  cases hclosing

theorem Whole.shut : σ.threads.shared.shutdown = true := by
  rw [h.control.flag, hclosing, Bool.true_or]

-- the broadcast has been made, and nobody goes to sleep on a queue that is shut
theorem Whole.nobody_asleep (t : Option (Fin n)) (op : QueueOp) :
    σ.threads.pc t ≠ .asleep op := by
  intro ht
  have hreached : Monitor.Reached queueMonitor wqInit σ.threads := h.control.reached
  have hgood : workQueueCredit.good wqInit := Nat.zero_le _
  obtain ⟨c, hc⟩ := workQueueCredit.asleep_waits hgood hreached ht
  have hle := (workQueueCredit.covered hgood hreached).2 c t
    (by simp [ht, Monitor.Spec.sleepsOn, hc])
  change queueCover c σ.threads.shared ≤ _ at hle
  rw [queueCover_shut (h.shut hclosing), top_le_iff] at hle
  obtain ⟨u, -, hu⟩ := WithTop.sum_eq_top.mp hle
  cases u with
  | none =>
    rw [h.main_outside hclosing] at hu
    cases hu
  | some i => exact h.weight_ne_top i c hu

end Closing

theorem workers_move {i : Fin n} (h : ∀ j, j ≠ i → σ'.workerWork j = σ.workerWork j) :
    σ'.workers + σ.workerWork i = σ.workers + σ'.workerWork i := by
  have hrest : ∑ j ∈ Finset.univ.erase i, σ'.workerWork j =
      ∑ j ∈ Finset.univ.erase i, σ.workerWork j :=
    Finset.sum_congr rfl (fun j hj => h j (Finset.ne_of_mem_erase hj))
  rw [workers, workers, ← Finset.add_sum_erase _ σ'.workerWork (Finset.mem_univ i),
    ← Finset.add_sum_erase _ σ.workerWork (Finset.mem_univ i), hrest]
  omega

theorem workerWork_congr {i : Fin n} (hw : σ'.worker i = σ.worker i)
    (hpc : σ'.threads.pc (some i) = σ.threads.pc (some i)) :
    σ'.workerWork i = σ.workerWork i := by
  rw [workerWork, workerWork, hw, hpc]

theorem remaining_lt {i : Fin n} (hmain : σ'.main = σ.main)
    (hothers : ∀ j, j ≠ i → σ'.workerWork j = σ.workerWork j)
    (hless : σ'.workerWork i + 8 * σ'.threads.shared.count <
      σ.workerWork i + 8 * σ.threads.shared.count) : σ'.remaining < σ.remaining := by
  have hmove := workers_move hothers
  rw [remaining, remaining, hmain]
  omega

theorem remaining_set {i : Fin n} (hidle : σ.worker i = .idle)
    {p : Pc QueueOp QueueReply QueueCond} {q : QueueThreads (Option (Fin n))}
    (hpc : q.pc = (σ.threads.set (some i) p).pc)
    (hless : pcWork p + 8 * q.shared.count <
      pcWork (σ.threads.pc (some i)) + 8 * σ.threads.shared.count) :
    remaining { σ with threads := q } < σ.remaining := by
  have hself : q.pc (some i) = p := by rw [hpc, Monitor.State.set_pc_self]
  refine remaining_lt (i := i) rfl ?_ ?_
  · intro j hj
    refine workerWork_congr rfl ?_
    change q.pc (some j) = _
    rw [hpc, Monitor.State.set_pc_ne σ.threads _ (by simpa using hj)]
  · rw [workerWork, workerWork, hidle]
    change pcWork (q.pc (some i)) + 8 * q.shared.count < _
    rw [hself]
    exact hless

theorem remaining_inner (h : Whole arriving σ) (hclosing : σ.main.closing = true)
    {e : Monitor.Event (Option (Fin n)) QueueOp} {q : QueueThreads (Option (Fin n))}
    (hcall : ∀ t op, e ≠ .call t op) (hunlock : ∀ t, e ≠ .unlock t)
    (hq : Monitor.Case queueMonitor σ.threads e q) :
    remaining { σ with threads := q } < σ.remaining := by
  have hworker : ∀ {t p}, σ.threads.pc t = p → p ≠ .outside →
      ∃ i, t = some i ∧ σ.worker i = .idle ∧ fits (some i) p = true := by
    intro t p ht hp
    cases t with
    | none => exact absurd (ht.symm.trans (h.main_outside hclosing)) hp
    | some i => exact ⟨i, rfl, h.control.idle (by rwa [ht]), ht ▸ h.control.fits (some i)⟩
  cases hq with
  | call => exact absurd rfl (hcall _ _)
  | unlock => exact absurd rfl (hunlock _)
  | @lock t op _ ht =>
    obtain ⟨i, rfl, hidle, -⟩ := hworker ht nofun
    refine remaining_set hidle rfl ?_
    rw [ht]
    exact Nat.add_lt_add_right (Nat.lt_succ_self 5) _
  | @sleep t op ht hwait =>
    obtain ⟨i, rfl, -, hfits⟩ := hworker ht nofun
    cases op with
    | push => cases hfits
    | shutdown => cases hfits
    | pop worker =>
      have hopen := ((wqStep_pop_none worker).mp hwait).2
      rw [h.shut hclosing] at hopen
      cases hopen
  | @enter t op s o ht hgo =>
    obtain ⟨i, rfl, hidle, hfits⟩ := hworker ht nofun
    refine remaining_set hidle rfl ?_
    rw [ht]
    cases wqStep_cases hgo with
    | queued => cases hfits
    | closed => cases hfits
    | @handed worker k hk =>
      change 10 + 1 + 8 * k < 5 + 8 * σ.threads.shared.count
      omega
    | drained => exact Nat.add_lt_add_right (show 1 < 5 by decide) _
    | shut => cases hfits
  | @idleSignal t o c left ht =>
    obtain ⟨i, rfl, hidle, -⟩ := hworker ht nofun
    refine remaining_set hidle rfl ?_
    rw [ht]
    obtain ⟨⟨fd, rfl⟩, -, -⟩ := h.reply ht
    refine Nat.add_lt_add_right ?_ _
    cases fd <;> simp [pcWork]
  | @signal t u o c left op ht hu => exact absurd hu (h.nobody_asleep hclosing u op)
  | @broadcast t chosen o c left ht =>
    obtain ⟨i, rfl, -, -⟩ := hworker ht nofun
    exact absurd List.mem_cons_self ((h.reply ht).2.2 c)
  | @spurious t op ht => exact absurd ht (h.nobody_asleep hclosing t op)

theorem remaining_leave (h : Whole arriving σ) (hclosing : σ.main.closing = true)
    {t : Option (Fin n)} {o : QueueReply} (ht : σ.threads.pc t = .waking o []) :
    ∃ i w, t = some i ∧
      resume { σ with threads := { σ.threads.set t .outside with owner := none } } t o =
        { σ with
          threads := { σ.threads.set t .outside with owner := none }
          worker := Function.update σ.worker i w } ∧
      remaining { σ with
          threads := { σ.threads.set t .outside with owner := none }
          worker := Function.update σ.worker i w } < σ.remaining := by
  cases t with
  | none =>
    rw [h.main_outside hclosing] at ht
    cases ht
  | some i =>
    have hidle := h.control.idle (i := i) (by rw [ht]; nofun)
    obtain ⟨⟨fd, rfl⟩, -, -⟩ := h.reply ht
    have hothers : ∀ (w : WorkerPhase) (j : Fin n), j ≠ i →
        workerWork { σ with
          threads := { σ.threads.set (some i) .outside with owner := none }
          worker := Function.update σ.worker i w } j = σ.workerWork j := fun w j hj =>
      workerWork_congr (Function.update_of_ne hj ..)
        (Monitor.State.set_pc_ne σ.threads _ (by simpa using hj))
    have hbefore : σ.workerWork i = pcWork (.waking (.returned fd) []) := by
      rw [workerWork, hidle, ht]
    cases fd with
    | ofNat fd =>
      refine ⟨i, .serving fd, rfl, rfl, remaining_lt (i := i) rfl (hothers _) ?_⟩
      have hafter : workerWork { σ with
          threads := { σ.threads.set (some i) .outside with owner := none }
          worker := Function.update σ.worker i (.serving fd) } i = 9 := by
        simp [workerWork]
      rw [hafter, hbefore]
      exact Nat.add_lt_add_right (Nat.lt_succ_self 9) _
    | negSucc k =>
      refine ⟨i, .exited, rfl, rfl, remaining_lt (i := i) rfl (hothers _) ?_⟩
      have hafter : workerWork { σ with
          threads := { σ.threads.set (some i) .outside with owner := none }
          worker := Function.update σ.worker i .exited } i = 0 := by
        simp [workerWork]
      rw [hafter, hbefore]
      exact Nat.add_lt_add_right Nat.zero_lt_one _

variable [DecidableEq κ] {hash : Bytes → UInt64}

-- the connections still being served are the only thing that can hold the shutdown up
theorem remaining_step (h : Whole arriving σ) (hclosing : σ.main.closing = true)
    {ev : ThreadEvent n} (hc : Case hash σ ev σ') :
    σ'.main.closing = true ∧
      if ev.serving then σ'.remaining = σ.remaining
      else σ'.remaining < σ.remaining := by
  cases hc with
  | accept hmain =>
    rw [hmain] at hclosing
    cases hclosing
  | stop hmain =>
    rw [hmain] at hclosing
    cases hclosing
  | @pop i hidle hpc =>
    refine ⟨hclosing, remaining_set hidle rfl ?_⟩
    rw [hpc]
    exact Nat.add_lt_add_right (Nat.lt_succ_self 6) _
  | inner hcall hunlock hq => exact ⟨hclosing, remaining_inner h hclosing hcall hunlock hq⟩
  | leave ht =>
    obtain ⟨i, w, -, heq, hless⟩ := remaining_leave h hclosing ht
    rw [heq]
    exact ⟨hclosing, hless⟩
  | serve => exact ⟨hclosing, rfl⟩
  | @close i fd c hserving _ _ =>
    refine ⟨hclosing, remaining_lt (i := i) rfl ?_ ?_⟩
    · exact fun j hj => workerWork_congr (Function.update_of_ne hj ..) rfl
    · have hpc := h.control.workerOut i (by rw [hserving]; nofun)
      have hbefore : σ.workerWork i = 9 := by rw [workerWork, hserving]
      have hafter : workerWork { σ with
          worker := Function.update σ.worker i .idle
          files := Function.update σ.files fd none } i = 7 := by
        simp [workerWork, hpc, pcWork]
      rw [hbefore, hafter]
      exact Nat.add_lt_add_right (show 7 < 9 by decide) _
  | @join k hmain hk hexit =>
    refine ⟨rfl, ?_⟩
    change σ.workers + 8 * σ.threads.shared.count + (n + 1 - (k + 1)) < σ.remaining
    rw [remaining, hmain, MainPhase.work]
    omega
  | save hmain =>
    refine ⟨rfl, ?_⟩
    change σ.workers + 8 * σ.threads.shared.count + 0 < σ.remaining
    rw [remaining, hmain, MainPhase.work]
    omega

theorem remaining_run (h : Whole arriving σ) (hclosing : σ.main.closing = true)
    {evs : List (ThreadEvent n)} (he : Machine.exec (step hash) σ evs = some σ') :
    (evs.filter (fun ev => !ev.serving)).length + σ'.remaining ≤ σ.remaining := by
  induction evs generalizing σ with
  | nil =>
    cases he
    simp
  | cons ev evs ih =>
    obtain ⟨τ, hs, he⟩ := Option.bind_eq_some_iff.mp he
    obtain ⟨hτ, hwork⟩ := remaining_step h hclosing (step_cases hs)
    have hrest := ih (h.step hs) hτ he
    cases hserving : ev.serving with
    | true =>
      rw [hserving, if_pos rfl] at hwork
      rw [List.filter_cons_of_neg (by simp [hserving]), ← hwork]
      exact hrest
    | false =>
      rw [hserving] at hwork
      rw [List.filter_cons_of_pos (by simp [hserving]), List.length_cons]
      simp only [Bool.false_eq_true, if_false] at hwork
      omega

omit [DecidableEq κ] in
theorem remaining_le (h : Whole arriving σ) : σ.remaining ≤ 13 * n + 4097 := by
  have hworker : ∀ i ∈ Finset.univ, σ.workerWork i ≤ 12 := by
    intro i _
    rw [workerWork]
    split
    case h_1 =>
      cases hpc : σ.threads.pc (some i) with
      | waking o left =>
        obtain ⟨⟨fd, rfl⟩, hlen, -⟩ := h.reply hpc
        cases fd with
        | ofNat fd =>
          change 10 + left.length ≤ 12
          omega
        | negSucc k =>
          change 1 + left.length ≤ 12
          omega
      | _ => simp [pcWork]
    case h_2 => decide
    case h_3 => decide
  have hsum : σ.workers ≤ Finset.univ.card • 12 := Finset.sum_le_card_nsmul _ _ 12 hworker
  rw [Finset.card_univ, Fintype.card_fin, smul_eq_mul] at hsum
  have hcount : σ.threads.shared.count ≤ 512 := h.control.reached.wqInv.count_le
  have hmain : σ.main.work n ≤ n + 1 := by
    cases σ.main with
    | joining k => exact Nat.sub_le _ _
    | _ => exact Nat.zero_le _
  rw [remaining]
  omega

section Results

variable {stream : κ → Bytes} {st : CmdState} {path : Option Bytes}

theorem shutdown_is_bounded (h : Reached hash stream arriving st path σ)
    (hclosing : σ.main.closing = true) {evs : List (ThreadEvent n)}
    (he : Machine.exec (step hash) σ evs = some σ') :
    (evs.filter (fun ev => !ev.serving)).length ≤ 13 * n + 4097 := by
  have hrun := remaining_run h.whole hclosing he
  have hle := remaining_le h.whole
  omega

end Results

section Goodbye

def haltRun : List (ThreadEvent 2) :=
  reuseRun ++ [.serve one .parse, .stop, .queue (.lock none), .queue (.test none),
    .queue (.wake none none), .queue (.wake none none), .queue (.unlock none)]

def leaveRun : List (ThreadEvent 2) :=
  [.pop two, .queue (.lock (some two)), .queue (.test (some two)), .queue (.unlock (some two)),
    .serve one (.noRead .eof), .close one, .pop one, .queue (.lock (some one)),
    .queue (.test (some one)), .queue (.unlock (some one)), .join, .join, .save .ok]

def haltEnd : Option (ThreadPool Bool 2) :=
  Machine.exec (step fnv1aHash)
    (start (fun _ => str "INCR n\r\n") [true, false] ⟨storeCreate, [], 0⟩ (some (str "dump")))
    haltRun

theorem haltEnd_reached {σ : ThreadPool Bool 2} (h : haltEnd = some σ) :
    Reached fnv1aHash (fun _ => str "INCR n\r\n") [true, false] ⟨storeCreate, [], 0⟩
      (some (str "dump")) σ :=
  Machine.ReachableVia.start.exec (fun _ _ => trivial) h

theorem haltEnd_leave :
    haltEnd.bind (fun σ => (Machine.exec (step fnv1aHash) σ leaveRun).map
      (fun σ' => (σ.main, σ'.main))) = some (.joining 0, .saved (some .ok)) := by
  decide +kernel

theorem shutdown_is_bounded_halt :
    ∃ σ σ', haltEnd = some σ ∧ Machine.exec (step fnv1aHash) σ leaveRun = some σ' ∧
      σ'.main = .saved (some .ok) ∧
      (leaveRun.filter (fun ev => !ev.serving)).length ≤ 4123 := by
  obtain ⟨σ, hσ, hleave⟩ := Option.bind_eq_some_iff.mp haltEnd_leave
  obtain ⟨σ', hσ', hmain⟩ := Option.map_eq_some_iff.mp hleave
  obtain ⟨hjoining, hsaved⟩ := Prod.mk.inj hmain
  exact ⟨σ, σ', hσ, hσ', hsaved,
    shutdown_is_bounded (haltEnd_reached hσ) (by rw [hjoining]; rfl) hσ'⟩

end Goodbye

end ThreadPool

end RedisServer

import RedisServer.Lib.Monitor
import RedisServer.Server.WorkQueue

namespace RedisServer

inductive QueueCond where
  | notEmpty
  | notFull
  deriving DecidableEq, Repr

-- the pthread_cond_signal and pthread_cond_broadcast calls of a section that is through its loop
def queueWakes : QueueOp → QueueReply → List (Monitor.Wake QueueCond)
  | .push _, .queued => [.signal .notEmpty]
  | .pop _, .returned (.ofNat _) => [.signal .notFull]
  | .shutdown, .shut => [.broadcast .notEmpty, .broadcast .notFull]
  | _, _ => []

def queueMonitor : Monitor.Spec WorkQueue QueueOp QueueReply QueueCond where
  enter := wqStep
  waitsOn
    | .push _ => some .notFull
    | .pop _ => some .notEmpty
    | .shutdown => none
  wakes := queueWakes

abbrev QueueThreads (T : Type) := Monitor.State T WorkQueue QueueOp QueueReply QueueCond

def queueCredit (q : WorkQueue) : QueueCond → Nat
  | .notEmpty => q.count
  | .notFull => queueCapacity - q.count

theorem wqStep_push_none {q : WorkQueue} (fd : Nat) :
    wqStep q (.push fd) = none ↔ q.count = queueCapacity ∧ q.shutdown = false := by
  rw [wqStep, wqPush]
  split_ifs with hwait hopen
  · simp [hwait]
  · simpa using hwait
  · simpa using hwait

theorem wqStep_pop_none {q : WorkQueue} (worker : Nat) :
    wqStep q (.pop worker) = none ↔ q.count = 0 ∧ q.shutdown = false := by
  rw [wqStep, wqPop]
  split_ifs with hwait hcount
  · simp [hwait]
  · simpa using hwait
  · simpa using hwait

def queueCover (c : QueueCond) (q : WorkQueue) : ℕ∞ :=
  if q.shutdown = true then ⊤ else queueCredit q c

theorem queueCover_open {q : WorkQueue} (hopen : q.shutdown = false) (c : QueueCond) :
    queueCover c q = queueCredit q c := by
  simp [queueCover, hopen]

theorem queueCover_shut {q : WorkQueue} (hshut : q.shutdown = true) (c : QueueCond) :
    queueCover c q = ⊤ := if_pos hshut

section Paid

variable {q : WorkQueue} (c : QueueCond)

theorem queued_paid {fd : Nat} (hlt : q.count < queueCapacity) (hopen : q.shutdown = false) :
    queueCover c { q with
      fds := Function.update q.fds q.tail fd
      tail := (q.tail + 1) % queueCapacity
      count := q.count + 1 } + queueMonitor.demand c (.push fd) ≤
    queueCover c q + Monitor.supply c (queueWakes (.push fd) .queued) := by
  rw [queueCover_open hopen, queueCover_open (by exact hopen)]
  cases c with
  | notEmpty =>
    have hdemand : queueMonitor.demand .notEmpty (.push fd) = 0 := rfl
    have hsupply : Monitor.supply .notEmpty (queueWakes (.push fd) .queued) = 1 := rfl
    rw [hdemand, hsupply, add_zero]
    exact le_refl _
  | notFull =>
    have hdemand : queueMonitor.demand .notFull (.push fd) = 1 := rfl
    have hsupply : Monitor.supply .notFull (queueWakes (.push fd) .queued) = 0 := rfl
    have hroom : queueCapacity - (q.count + 1) + 1 ≤ queueCapacity - q.count := by omega
    rw [hdemand, hsupply, add_zero]
    exact_mod_cast hroom

theorem handed_paid {worker n : Nat} (hn : q.count = n + 1) (hopen : q.shutdown = false) :
    queueCover c { q with head := (q.head + 1) % queueCapacity, count := n } +
      queueMonitor.demand c (.pop worker) ≤
    queueCover c q + Monitor.supply c (queueWakes (.pop worker) (.returned (q.fds q.head))) := by
  rw [queueCover_open hopen, queueCover_open (by exact hopen)]
  cases c with
  | notEmpty =>
    have hdemand : queueMonitor.demand .notEmpty (.pop worker) = 1 := rfl
    have hsupply : Monitor.supply .notEmpty
        (queueWakes (.pop worker) (.returned (q.fds q.head))) = 0 := rfl
    rw [hdemand, hsupply, add_zero, queueCredit, queueCredit, hn]
    exact le_refl _
  | notFull =>
    have hdemand : queueMonitor.demand .notFull (.pop worker) = 0 := rfl
    have hsupply : Monitor.supply .notFull
        (queueWakes (.pop worker) (.returned (q.fds q.head))) = 1 := rfl
    have hroom : queueCapacity - n ≤ queueCapacity - q.count + 1 := by omega
    rw [hdemand, hsupply, add_zero]
    exact_mod_cast hroom

theorem shut_supply : Monitor.supply c (queueWakes .shutdown .shut) = ⊤ := by
  cases c with
  | notEmpty => rfl
  | notFull => rfl

end Paid

def workQueueCredit : Monitor.Credit queueMonitor where
  good q := q.count ≤ queueCapacity
  credit := queueCover
  keeps := by
    intro q q' op o hq h
    cases wqStep_cases h with
    | queued hroom => exact lt_of_le_of_ne hq hroom
    | @handed worker n hn =>
      rw [hn] at hq
      exact (Nat.le_succ n).trans hq
    | _ => exact hq
  blocked := by
    intro q op hq h
    cases op with
    | push fd =>
      obtain ⟨hfull, hopen⟩ := (wqStep_push_none fd).mp h
      exact ⟨.notFull, rfl, by simp [queueCover_open hopen, queueCredit, hfull]⟩
    | pop worker =>
      obtain ⟨hempty, hopen⟩ := (wqStep_pop_none worker).mp h
      exact ⟨.notEmpty, rfl, by simp [queueCover_open hopen, queueCredit, hempty]⟩
    | shutdown => cases h
  starved := by
    intro q op c hq hc h
    have hopen : q.shutdown = false := by
      by_contra hs
      rw [queueCover_shut (by simpa using hs)] at h
      cases h
    rw [queueCover_open hopen, Nat.cast_eq_zero] at h
    cases op with
    | push fd =>
      cases hc
      exact (wqStep_push_none fd).mpr ⟨le_antisymm hq (Nat.le_of_sub_eq_zero h), hopen⟩
    | pop worker =>
      cases hc
      exact (wqStep_pop_none worker).mpr ⟨h, hopen⟩
    | shutdown => cases hc
  paid := by
    intro q q' op o hq h c
    cases hshut : q.shutdown with
    | true =>
      rw [queueCover_shut hshut, top_add]
      exact le_top
    | false =>
      cases wqStep_cases h with
      | queued hroom hopen => exact queued_paid c (lt_of_le_of_ne hq hroom) hopen
      | closed hs => simp [hshut] at hs
      | handed hn => exact handed_paid c hn hshut
      | drained _ hs => simp [hshut] at hs
      | shut =>
        change _ ≤ queueCover c q + Monitor.supply c (queueWakes .shutdown .shut)
        rw [shut_supply, add_top]
        exact le_top

section Runs

variable {T : Type} [DecidableEq T] [Fintype T] {σ : QueueThreads T}

abbrev QueueThreads.Reached (σ : QueueThreads T) : Prop := Monitor.Reached queueMonitor wqInit σ

theorem QueueThreads.Reached.wqInv (h : σ.Reached) : WqInv σ.log σ.shared :=
  (Monitor.Reached.trace h).invariant wqInit_inv (fun _ _ _ _ _ hq hs => hq.step hs)

theorem queue_wakeups_are_not_lost (h : σ.Reached) {t : T} {op : QueueOp}
    (ht : σ.pc t = .asleep op) :
    (∃ c, queueMonitor.waitsOn op = some c ∧
      queueCover c σ.shared ≤ Monitor.total queueMonitor c σ) ∧
    (wqStep σ.shared op ≠ none →
      ∃ e σ', (σ.pc e.actor).awake = true ∧ Monitor.step queueMonitor σ e = some σ') := by
  have hgood : workQueueCredit.good wqInit := Nat.zero_le _
  constructor
  · obtain ⟨c, hc⟩ := workQueueCredit.asleep_waits hgood h ht
    refine ⟨c, hc, (workQueueCredit.covered hgood h).2 c t ?_⟩
    simp [ht, Monitor.Spec.sleepsOn, hc]
  · intro hgo
    by_contra hstuck
    refine hgo (workQueueCredit.no_lost_wakeup hgood h ?_ ht)
    intro u
    by_contra hu
    exact hstuck (Monitor.awake_moves (Monitor.Reached.owned h) (by simpa using hu))

end Runs

section Sleeper

def sleeperRun : List (Monitor.Event Bool QueueOp) :=
  [.call true (.pop 0), .lock true, .test true, .call false (.push 7), .lock false, .test false]

def sleeperEnd : Option (QueueThreads Bool) :=
  Machine.exec (Monitor.step queueMonitor) (Monitor.State.start wqInit) sleeperRun

theorem sleeperEnd_view :
    sleeperEnd.map (fun σ => (σ.pc true, σ.pc false, σ.shared.count, σ.log)) =
      some (.asleep (.pop 0), .waking .queued [.signal .notEmpty], 1, [(.push 7, .queued)]) := by
  decide +kernel

theorem sleeperEnd_reached {σ : QueueThreads Bool} (h : sleeperEnd = some σ) : σ.Reached :=
  Machine.ReachableVia.start.exec (fun _ _ => trivial) h

theorem queue_wakeups_are_not_lost_sleeper :
    ∃ σ, sleeperEnd = some σ ∧ σ.pc true = .asleep (.pop 0) ∧
      ∃ e σ', (σ.pc e.actor).awake = true ∧ Monitor.step queueMonitor σ e = some σ' := by
  obtain ⟨σ, hσ, hview⟩ := Option.map_eq_some_iff.mp sleeperEnd_view
  simp only [Prod.mk.injEq] at hview
  obtain ⟨hsleeps, -, hcount, -⟩ := hview
  refine ⟨σ, hσ, hsleeps, (queue_wakeups_are_not_lost (sleeperEnd_reached hσ) hsleeps).2 ?_⟩
  rw [Ne, wqStep_pop_none, hcount]
  simp

end Sleeper

end RedisServer

import RedisServer.Lib.MonitorSteps
import RedisServer.Server.QueueThreads

namespace RedisServer

open Sections

-- the condition of the while loop around pthread_cond_wait
def wqWaits (q : WorkQueue) : QueueOp → Bool
  | .push _ => q.count = queueCapacity && !q.shutdown
  | .pop _ => q.count = 0 && !q.shutdown
  | .shutdown => false

-- what follows the loop, access by access
def wqBody : QueueOp → Code WorkQueue QueueReply
  | .push fd =>
    .read (fun q =>
      if !q.shutdown then
        .write (fun q => { q with fds := Function.update q.fds q.tail fd })
          (.write (fun q => { q with tail := (q.tail + 1) % queueCapacity })
            (.write (fun q => { q with count := q.count + 1 }) (.ret .queued)))
      else .ret (.closed fd))
  | .pop _ =>
    .read (fun q =>
      if 0 < q.count then
        .read (fun q =>
          .write (fun q => { q with head := (q.head + 1) % queueCapacity })
            (.write (fun q => { q with count := q.count - 1 })
              (.ret (.returned (q.fds q.head)))))
      else .ret (.returned (-1)))
  | .shutdown => .write (fun q => { q with shutdown := true }) (.ret .shut)

theorem wqStep_eq (q : WorkQueue) (op : QueueOp) :
    wqStep q op = if wqWaits q op then none else some ((wqBody op).run q) := by
  cases op with
  | push fd =>
    rw [wqStep, wqPush, wqWaits, wqBody]
    cases hshut : q.shutdown with
    | true => simp [hshut]
    | false => simp [hshut]
  | pop worker =>
    rw [wqStep, wqPop, wqWaits, wqBody]
    cases hshut : q.shutdown with
    | true =>
      by_cases hcount : 0 < q.count
      · simp [hshut, hcount]
      · simp [hcount]
    | false =>
      by_cases hcount : 0 < q.count
      · simp [hshut, hcount, hcount.ne']
      · simp [Nat.eq_zero_of_not_pos hcount]
  | shutdown => rfl

def queueBody : Monitor.Body queueMonitor := ⟨wqWaits, wqBody, wqStep_eq⟩

abbrev QueueSteps (T : Type) := Monitor.Threads T WorkQueue QueueOp QueueReply QueueCond

section Runs

variable {T : Type} [DecidableEq T] [Fintype T] {σ : QueueSteps T}

abbrev QueueSteps.Reached (σ : QueueSteps T) : Prop := Monitor.Threads.Reached queueBody wqInit σ

-- q is the queue behind the sections that are over; what is left of one in progress goes on from
-- there as if it had not been interrupted
theorem queue_sections_are_atomic (h : σ.Reached) :
    (∀ t u, (σ.base.pc t).inside = true → (σ.base.pc u).inside = true → t = u) ∧
    ∃ q, Machine.Trace wqStep wqInit σ.base.log q ∧
      handedOut σ.base.log ++ q.ring = pushes (beforeShutdown σ.base.log) ∧
      closedFds σ.base.log = pushes (afterShutdown σ.base.log) ∧
      ((∀ t, σ.body t = none) → σ.base.shared = q) ∧
      ∀ t code, σ.body t = some code →
        ∃ op, σ.base.pc t = .testing op ∧ wqStep q op = some (code.run σ.base.shared) := by
  obtain ⟨q, hatomic⟩ := Monitor.Threads.Reached.atomic h
  have hreached : QueueThreads.Reached { σ.base with shared := q } := hatomic.reached
  have hinv : WqInv σ.base.log q := hreached.wqInv
  refine ⟨fun t u => Monitor.mutual_exclusion hreached, q, Monitor.Reached.trace hreached,
    hinv.fifo, hinv.late, hatomic.underway.clean, fun t code ht => ?_⟩
  obtain ⟨op, hpc, hgo⟩ := hatomic.underway.ends t code ht
  exact ⟨op, hpc, hgo⟩

end Runs

section Interrupted

-- the second push has moved tail, but count does not know of its descriptor yet
def interruptedRun : List (Monitor.Move Bool QueueOp) :=
  [.thread (.call false (.push 7)), .thread (.lock false), .thread (.test false), .access false,
    .access false, .access false, .access false, .access false, .thread (.wake false none),
    .thread (.unlock false), .thread (.call true (.push 8)), .thread (.call false (.pop 0)),
    .thread (.lock true), .thread (.test true), .access true, .access true, .access true]

def interruptedEnd : Option (QueueSteps Bool) :=
  Machine.exec (Monitor.Threads.step queueBody) (Monitor.Threads.start wqInit) interruptedRun

theorem interruptedEnd_view :
    interruptedEnd.map (fun σ =>
        (σ.base.shared.tail, σ.base.shared.count, σ.base.log, (σ.body true).isSome)) =
      some (2, 1, [(.push 7, .queued)], true) := by
  decide +kernel

theorem queue_sections_are_atomic_interrupted :
    ∃ σ q, interruptedEnd = some σ ∧ σ.base.shared.tail = 2 ∧ q.ring = [7] ∧
      ∃ op q', wqStep q op = some q' := by
  obtain ⟨σ, hσ, hview⟩ := Option.map_eq_some_iff.mp interruptedEnd_view
  simp only [Prod.mk.injEq] at hview
  obtain ⟨htail, -, hlog, hbody⟩ := hview
  have hrun : σ.Reached := Machine.ReachableVia.start.exec (fun _ _ => trivial) hσ
  obtain ⟨-, q, -, hfifo, -, -, hends⟩ := queue_sections_are_atomic hrun
  obtain ⟨code, hcode⟩ := Option.isSome_iff_exists.mp hbody
  obtain ⟨op, -, hgo⟩ := hends true code hcode
  rw [hlog] at hfifo
  exact ⟨σ, q, hσ, htail, hfifo, op, _, hgo⟩

end Interrupted

end RedisServer

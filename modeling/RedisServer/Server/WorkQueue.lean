import RedisServer.Lib.Machine
import RedisServer.Lib.Ring
import Mathlib.Data.List.TakeWhile
import Mathlib.Tactic

namespace RedisServer

def queueCapacity : Nat := 512

structure WorkQueue where
  fds : Nat → Nat
  head : Nat
  tail : Nat
  count : Nat
  shutdown : Bool

-- g_queue is static, so the cells start as zeros
def wqInit : WorkQueue := ⟨fun _ => 0, 0, 0, 0, false⟩

inductive QueueOp where
  | push (fd : Nat)
  | pop (worker : Nat)
  | shutdown
  deriving DecidableEq, Repr

inductive QueueReply where
  | queued
  | closed (fd : Nat)
  | returned (fd : Int)
  | shut
  deriving DecidableEq, Repr

def wqPush (q : WorkQueue) (fd : Nat) : Option (WorkQueue × QueueReply) :=
  if q.count = queueCapacity ∧ q.shutdown = false then none
  else if q.shutdown = false then
    some ({ q with
      fds := Function.update q.fds q.tail fd
      tail := (q.tail + 1) % queueCapacity
      count := q.count + 1 }, .queued)
  else some (q, .closed fd)

def wqPop (q : WorkQueue) : Option (WorkQueue × QueueReply) :=
  if q.count = 0 ∧ q.shutdown = false then none
  else if 0 < q.count then
    some ({ q with head := (q.head + 1) % queueCapacity, count := q.count - 1 },
      .returned (q.fds q.head))
  else some (q, .returned (-1))

def wqShutdown (q : WorkQueue) : WorkQueue := { q with shutdown := true }

-- one critical section, none while it has to wait
def wqStep (q : WorkQueue) : QueueOp → Option (WorkQueue × QueueReply)
  | .push fd => wqPush q fd
  | .pop _ => wqPop q
  | .shutdown => some (wqShutdown q, .shut)

def WorkQueue.ring (q : WorkQueue) : List Nat :=
  Ring.contents q.fds queueCapacity q.head q.count

abbrev QueueLog := List (QueueOp × QueueReply)

def pushes (log : QueueLog) : List Nat :=
  log.filterMap (fun e => match e.1 with | .push fd => some fd | _ => none)

def handedOut (log : QueueLog) : List Nat :=
  log.filterMap (fun e => match e.2 with | .returned (.ofNat fd) => some fd | _ => none)

def closedFds (log : QueueLog) : List Nat :=
  log.filterMap (fun e => match e.2 with | .closed fd => some fd | _ => none)

def isOpenOp (e : QueueOp × QueueReply) : Bool := e.1 != .shutdown

def beforeShutdown (log : QueueLog) : QueueLog := log.takeWhile isOpenOp

def afterShutdown (log : QueueLog) : QueueLog := log.dropWhile isOpenOp

inductive WqCase (q : WorkQueue) : QueueOp → WorkQueue → QueueReply → Prop
  | queued {fd : Nat} (hroom : q.count ≠ queueCapacity) (hopen : q.shutdown = false) :
    WqCase q (.push fd) { q with
      fds := Function.update q.fds q.tail fd
      tail := (q.tail + 1) % queueCapacity
      count := q.count + 1 } .queued
  | closed {fd : Nat} (hshut : q.shutdown = true) : WqCase q (.push fd) q (.closed fd)
  | handed {worker n : Nat} (hn : q.count = n + 1) :
    WqCase q (.pop worker) { q with head := (q.head + 1) % queueCapacity, count := n }
      (.returned (q.fds q.head))
  | drained {worker : Nat} (hempty : q.count = 0) (hshut : q.shutdown = true) :
    WqCase q (.pop worker) q (.returned (-1))
  | shut : WqCase q .shutdown { q with shutdown := true } .shut

theorem wqStep_cases {q q' : WorkQueue} {op : QueueOp} {o : QueueReply}
    (h : wqStep q op = some (q', o)) : WqCase q op q' o := by
  cases op with
  | push fd =>
    simp only [wqStep, wqPush] at h
    split_ifs at h with hwait hopen
    · cases h
      exact .queued (fun hfull => hwait ⟨hfull, hopen⟩) hopen
    · cases h
      exact .closed (by simpa using hopen)
  | pop worker =>
    simp only [wqStep, wqPop] at h
    split_ifs at h with hwait hcount
    · cases h
      obtain ⟨n, hn⟩ := Nat.exists_eq_succ_of_ne_zero hcount.ne'
      rw [hn, Nat.succ_sub_one]
      exact .handed hn
    · cases h
      have hempty : q.count = 0 := by omega
      exact .drained hempty (by simpa [hempty] using hwait)
  | shutdown =>
    cases h
    exact .shut

section Logs

variable (log : QueueLog) (e : QueueOp × QueueReply)

theorem pushes_append (log' : QueueLog) : pushes (log ++ log') = pushes log ++ pushes log' :=
  List.filterMap_append

theorem handedOut_append (log' : QueueLog) :
    handedOut (log ++ log') = handedOut log ++ handedOut log' := List.filterMap_append

theorem closedFds_append (log' : QueueLog) :
    closedFds (log ++ log') = closedFds log ++ closedFds log' := List.filterMap_append

variable {log}

theorem beforeShutdown_of_open (h : ∀ x ∈ log, isOpenOp x = true) : beforeShutdown log = log :=
  List.takeWhile_eq_self_iff.mpr h

theorem afterShutdown_of_open (h : ∀ x ∈ log, isOpenOp x = true) : afterShutdown log = [] :=
  List.dropWhile_eq_nil_iff.mpr h

theorem beforeShutdown_snoc_open (h : ∀ x ∈ log, isOpenOp x = true) :
    beforeShutdown (log ++ [e]) = beforeShutdown log ++ beforeShutdown [e] := by
  rw [beforeShutdown_of_open h]
  exact List.takeWhile_append_of_pos h

theorem afterShutdown_snoc_open (h : ∀ x ∈ log, isOpenOp x = true) :
    afterShutdown (log ++ [e]) = afterShutdown log ++ afterShutdown [e] := by
  rw [afterShutdown_of_open h]
  exact List.dropWhile_append_of_pos h

theorem afterShutdown_snoc_shut (h : ¬ ∀ x ∈ log, isOpenOp x = true) :
    afterShutdown (log ++ [e]) = afterShutdown log ++ [e] := by
  have hne : ¬ (log.dropWhile isOpenOp).isEmpty = true := by
    rwa [List.isEmpty_iff, List.dropWhile_eq_nil_iff]
  rw [afterShutdown, List.dropWhile_append, if_neg hne, afterShutdown]

theorem beforeShutdown_snoc_shut (h : ¬ ∀ x ∈ log, isOpenOp x = true) :
    beforeShutdown (log ++ [e]) = beforeShutdown log := by
  have hsplit : beforeShutdown (log ++ [e]) ++ afterShutdown (log ++ [e]) =
      beforeShutdown log ++ (afterShutdown log ++ [e]) := by
    rw [← List.append_assoc]
    simp only [beforeShutdown, afterShutdown, List.takeWhile_append_dropWhile]
  rwa [afterShutdown_snoc_shut e h, List.append_cancel_right_eq] at hsplit

variable (log) {e}

theorem pushes_before_quiet (he : pushes [e] = []) :
    pushes (beforeShutdown (log ++ [e])) = pushes (beforeShutdown log) := by
  by_cases h : ∀ x ∈ log, isOpenOp x = true
  · have hlast : pushes (beforeShutdown [e]) = [] := by
      cases ho : isOpenOp e with
      | true => rwa [beforeShutdown_of_open (by simpa using ho)]
      | false => simp [beforeShutdown, ho, pushes]
    rw [beforeShutdown_snoc_open e h, pushes_append, hlast, List.append_nil]
  · rw [beforeShutdown_snoc_shut e h]

theorem pushes_after_quiet (he : pushes [e] = []) :
    pushes (afterShutdown (log ++ [e])) = pushes (afterShutdown log) := by
  by_cases h : ∀ x ∈ log, isOpenOp x = true
  · have hlast : pushes (afterShutdown [e]) = [] := by
      cases ho : isOpenOp e with
      | true => rw [afterShutdown_of_open (by simpa using ho)]; rfl
      | false => simpa [afterShutdown, ho] using he
    rw [afterShutdown_snoc_open e h, pushes_append, hlast, List.append_nil]
  · rw [afterShutdown_snoc_shut e h, pushes_append, he, List.append_nil]

end Logs

structure WqInv (log : QueueLog) (q : WorkQueue) : Prop where
  head_lt : q.head < queueCapacity
  count_le : q.count ≤ queueCapacity
  tail_eq : q.tail = (q.head + q.count) % queueCapacity
  open_iff : q.shutdown = false ↔ ∀ e ∈ log, isOpenOp e = true
  fifo : handedOut log ++ q.ring = pushes (beforeShutdown log)
  late : closedFds log = pushes (afterShutdown log)

theorem wqInit_inv : WqInv [] wqInit where
  head_lt := by decide
  count_le := by decide
  tail_eq := rfl
  open_iff := by simp [wqInit]
  fifo := rfl
  late := rfl

namespace WqInv

variable {log : QueueLog} {q : WorkQueue}

theorem shut (h : WqInv log q) (hs : q.shutdown = true) : ¬ ∀ e ∈ log, isOpenOp e = true := by
  intro hall
  rw [h.open_iff.mpr hall] at hs
  cases hs

theorem open_snoc (h : WqInv log q) {e : QueueOp × QueueReply} (he : isOpenOp e = true) :
    q.shutdown = false ↔ ∀ x ∈ log ++ [e], isOpenOp x = true := by
  rw [h.open_iff]
  simp only [List.mem_append, List.mem_singleton]
  constructor
  · rintro hall x (hx | rfl)
    · exact hall x hx
    · exact he
  · exact fun hall x hx => hall x (.inl hx)

theorem fifo_quiet (h : WqInv log q) {e : QueueOp × QueueReply} (hp : pushes [e] = [])
    (hh : handedOut [e] = []) :
    handedOut (log ++ [e]) ++ q.ring = pushes (beforeShutdown (log ++ [e])) := by
  rw [handedOut_append, hh, List.append_nil, pushes_before_quiet log hp, h.fifo]

theorem late_quiet (h : WqInv log q) {e : QueueOp × QueueReply} (hp : pushes [e] = [])
    (hc : closedFds [e] = []) :
    closedFds (log ++ [e]) = pushes (afterShutdown (log ++ [e])) := by
  rw [closedFds_append, hc, List.append_nil, pushes_after_quiet log hp, h.late]

theorem queued (h : WqInv log q) (fd : Nat) (hroom : q.count ≠ queueCapacity)
    (hopen : q.shutdown = false) :
    WqInv (log ++ [(.push fd, .queued)]) { q with
      fds := Function.update q.fds q.tail fd
      tail := (q.tail + 1) % queueCapacity
      count := q.count + 1 } := by
  have hall := h.open_iff.mp hopen
  have hlt : q.count < queueCapacity := lt_of_le_of_ne h.count_le hroom
  refine ⟨h.head_lt, hlt, Ring.tail_push _ h.tail_eq, h.open_snoc rfl, ?_, ?_⟩
  · have hring : Ring.contents (Function.update q.fds q.tail fd) queueCapacity q.head
        (q.count + 1) = q.ring ++ [fd] := by
      rw [h.tail_eq]
      exact Ring.contents_push hlt fd
    have hnew : pushes (beforeShutdown [(.push fd, .queued)]) = [fd] := rfl
    rw [handedOut_append, beforeShutdown_snoc_open _ hall, pushes_append, ← h.fifo, WorkQueue.ring,
      hring, hnew]
    simp [handedOut]
  · rw [closedFds_append, afterShutdown_snoc_open _ hall, pushes_append, h.late]
    rfl

theorem refused (h : WqInv log q) (fd : Nat) (hshut : q.shutdown = true) :
    WqInv (log ++ [(.push fd, .closed fd)]) q := by
  have hsh := h.shut hshut
  refine ⟨h.head_lt, h.count_le, h.tail_eq, h.open_snoc rfl, ?_, ?_⟩
  · rw [handedOut_append, beforeShutdown_snoc_shut _ hsh, ← h.fifo]
    simp [handedOut]
  · rw [closedFds_append, afterShutdown_snoc_shut _ hsh, pushes_append, h.late]
    rfl

theorem handed (h : WqInv log q) (worker : Nat) {n : Nat} (hn : q.count = n + 1) :
    WqInv (log ++ [(.pop worker, .returned (q.fds q.head))])
      { q with head := (q.head + 1) % queueCapacity, count := n } := by
  have hpop : q.ring = q.fds q.head :: Ring.contents q.fds queueCapacity
      ((q.head + 1) % queueCapacity) n := by
    rw [WorkQueue.ring, hn]
    exact Ring.contents_pop h.head_lt
  have hle := h.count_le
  refine ⟨Nat.mod_lt _ (by decide), ?_, Ring.tail_pop _ (hn ▸ h.tail_eq), h.open_snoc rfl, ?_,
    h.late_quiet rfl rfl⟩
  · change n ≤ queueCapacity
    omega
  · rw [handedOut_append, pushes_before_quiet log rfl, ← h.fifo, hpop, List.append_assoc]
    rfl

theorem step {q' : WorkQueue} {op : QueueOp} {o : QueueReply} (h : WqInv log q)
    (hs : wqStep q op = some (q', o)) : WqInv (log ++ [(op, o)]) q' := by
  cases wqStep_cases hs with
  | queued hroom hopen => exact h.queued _ hroom hopen
  | closed hshut => exact h.refused _ hshut
  | handed hn => exact h.handed _ hn
  | drained =>
    exact ⟨h.head_lt, h.count_le, h.tail_eq, h.open_snoc rfl, h.fifo_quiet rfl rfl,
      h.late_quiet rfl rfl⟩
  | shut =>
    exact ⟨h.head_lt, h.count_le, h.tail_eq, by simp [isOpenOp], h.fifo_quiet rfl rfl,
      h.late_quiet rfl rfl⟩

end WqInv

theorem accept_queue_is_fifo {log : QueueLog} {q : WorkQueue}
    (h : Machine.Trace wqStep wqInit log q) :
    q.count ≤ queueCapacity ∧ q.tail = (q.head + q.count) % queueCapacity ∧
    handedOut log ++ q.ring = pushes (beforeShutdown log) ∧
    closedFds log = pushes (afterShutdown log) ∧
    ∀ worker q', wqStep q (.pop worker) = some (q', .returned (-1)) →
      q.shutdown = true ∧ handedOut log = pushes (beforeShutdown log) := by
  have hinv : WqInv log q := h.invariant wqInit_inv (fun _ _ _ _ _ hq hs => hq.step hs)
  refine ⟨hinv.count_le, hinv.tail_eq, hinv.fifo, hinv.late, fun worker q' hpop => ?_⟩
  generalize ho : QueueReply.returned (-1) = o at hpop
  cases wqStep_cases hpop with
  | handed hn => cases ho
  | drained hempty hshut =>
    have hfifo := hinv.fifo
    rw [WorkQueue.ring, hempty, Ring.contents_zero, List.append_nil] at hfifo
    exact ⟨hshut, hfifo⟩

def drainedLog : QueueLog :=
  [(.push 7, .queued), (.push 8, .queued), (.pop 0, .returned 7), (.shutdown, .shut),
    (.push 9, .closed 9), (.pop 1, .returned 8)]

def drainedQueue : WorkQueue :=
  ⟨Function.update (Function.update (fun _ => 0) 0 7) 1 8, 2, 2, 0, true⟩

theorem accept_queue_is_fifo_drained :
    Machine.Trace wqStep wqInit drainedLog drainedQueue ∧
      handedOut drainedLog ++ drainedQueue.ring = [7, 8] ∧ closedFds drainedLog = [9] ∧
      wqStep drainedQueue (.pop 0) = some (drainedQueue, .returned (-1)) ∧
      handedOut drainedLog = pushes (beforeShutdown drainedLog) := by
  have htrace : Machine.Trace wqStep wqInit drainedLog drainedQueue :=
    .next (.next (.next (.next (.next (.next .start rfl) rfl) rfl) rfl) rfl) rfl
  have hpop : wqStep drainedQueue (.pop 0) = some (drainedQueue, .returned (-1)) := rfl
  obtain ⟨-, -, hfifo, hlate, hlast⟩ := accept_queue_is_fifo htrace
  exact ⟨htrace, hfifo, hlate, hpop, (hlast 0 drainedQueue hpop).2⟩

end RedisServer

import RedisServer.Server.QueueThreads
import RedisServer.Server.Serializable

namespace RedisServer

open Monitor (Pc)

-- where main() stands: in accept(), in wq_push or wq_shutdown, joining the workers one by one, or
-- behind the save that follows the last join, none without --save
inductive MainPhase where
  | accepting
  | calling
  | joining (next : Nat)
  | saved (outcome : Option PersistStatus)
  deriving DecidableEq, Repr

-- a worker is about to call wq_pop or inside it, in handle_conn, or has returned
inductive WorkerPhase where
  | idle
  | serving (fd : Nat)
  | exited
  deriving DecidableEq, Repr

-- none is the main thread; files is the descriptor table of the process, snapshot what the last
-- persist_save has put under the path of --save
structure ThreadPool (κ : Type) (n : Nat) where
  threads : QueueThreads (Option (Fin n))
  main : MainPhase
  worker : Fin n → WorkerPhase
  files : Nat → Option κ
  arriving : List κ
  peer : κ → Peer
  unread : κ → Bytes
  state : CmdState
  log : DispatchLog κ
  savePath : Option Bytes
  snapshot : Option Store

inductive ConnStep where
  | read (n : Nat)
  | noRead (r : ReadResult)
  | parse
  | dispatch (env : Env)
  | flush (lost : Option Nat)

def ConnStep.event {ω : Type} (i : ω) : ConnStep → PoolEvent ω
  | .read n => .read i n
  | .noRead r => .noRead i r
  | .parse => .parse i
  | .dispatch env => .dispatch i env
  | .flush lost => .flush i lost

inductive ThreadEvent (n : Nat) where
  | accept (fd : Nat)
  | stop
  | pop (i : Fin n)
  | queue (e : Monitor.Event (Option (Fin n)) QueueOp)
  | serve (i : Fin n) (s : ConnStep)
  | close (i : Fin n)
  | join
  | save (status : PersistStatus)

-- the descriptor a thread has in hand inside the queue's code
def carried : Pc QueueOp QueueReply QueueCond → Option Nat
  | .locking (.push fd) => some fd
  | .testing (.push fd) => some fd
  | .asleep (.push fd) => some fd
  | .waking (.returned (.ofNat fd)) _ => some fd
  | _ => none

namespace ThreadPool

variable {κ : Type} {n : Nat}

def start (stream : κ → Bytes) (arriving : List κ) (st : CmdState) (savePath : Option Bytes) :
    ThreadPool κ n where
  threads := Monitor.State.start wqInit
  main := .accepting
  worker := fun _ => .idle
  files := fun _ => none
  arriving := arriving
  peer := fun _ => Peer.accepted
  unread := stream
  state := st
  log := []
  savePath := savePath
  snapshot := none

def claimed (σ : ThreadPool κ n) (i : Fin n) : Option Nat :=
  match σ.worker i with
  | .serving fd => some fd
  | _ => carried (σ.threads.pc (some i))

def pending (σ : ThreadPool κ n) : Option Nat := carried (σ.threads.pc none)

-- the server as its clients see it, without locks, descriptors and the ring buffer
def view (σ : ThreadPool κ n) : Pool κ (Fin n) where
  arriving := (σ.pending.bind σ.files).toList ++ σ.arriving
  queue := σ.threads.shared.ring.filterMap σ.files
  worker := fun i => (σ.claimed i).bind σ.files
  peer := σ.peer
  unread := σ.unread
  state := σ.state
  log := σ.log

def absorb (σ : ThreadPool κ n) (w : Pool κ (Fin n)) : ThreadPool κ n :=
  { σ with peer := w.peer, unread := w.unread, state := w.state, log := w.log }

-- what a thread does with the answer of the queue once it has left the section
def resume (σ : ThreadPool κ n) : Option (Fin n) → QueueReply → ThreadPool κ n
  | none, .queued => { σ with main := .accepting }
  | none, .closed fd => { σ with main := .accepting, files := Function.update σ.files fd none }
  | none, .shut => { σ with main := .joining 0 }
  | some i, .returned (.ofNat fd) =>
    { σ with worker := Function.update σ.worker i (.serving fd) }
  | some i, .returned (.negSucc _) => { σ with worker := Function.update σ.worker i .exited }
  | _, _ => σ

def callQueue (σ : ThreadPool κ n) (t : Option (Fin n)) (op : QueueOp) :
    Option (QueueThreads (Option (Fin n))) :=
  Monitor.step queueMonitor σ.threads (.call t op)

def queueStep (σ : ThreadPool κ n) : Monitor.Event (Option (Fin n)) QueueOp →
    Option (ThreadPool κ n)
  | .call _ _ => none
  | .unlock t =>
    match σ.threads.pc t with
    | .waking o [] =>
      (Monitor.step queueMonitor σ.threads (.unlock t)).map
        (fun q => resume { σ with threads := q } t o)
    | _ => none
  | e => (Monitor.step queueMonitor σ.threads e).map (fun q => { σ with threads := q })

-- the end of main(); status is what persist_save returns if it is called
def save (σ : ThreadPool κ n) (status : PersistStatus) : ThreadPool κ n :=
  let outcome := σ.savePath.map (fun _ => status)
  { σ with
    main := .saved outcome
    snapshot := if outcome = some .ok then some σ.state.store else σ.snapshot }

variable (hash : Bytes → UInt64) [DecidableEq κ]

def step (σ : ThreadPool κ n) : ThreadEvent n → Option (ThreadPool κ n)
  | .accept fd =>
    match σ.main, σ.arriving, σ.files fd with
    | .accepting, c :: cs, none =>
      (σ.callQueue none (.push fd)).map (fun q =>
        { σ with
          threads := q
          main := .calling
          arriving := cs
          files := Function.update σ.files fd (some c) })
    | _, _, _ => none
  | .stop =>
    match σ.main with
    | .accepting =>
      (σ.callQueue none .shutdown).map (fun q => { σ with threads := q, main := .calling })
    | _ => none
  | .pop i =>
    match σ.worker i with
    | .idle => (σ.callQueue (some i) (.pop i)).map (fun q => { σ with threads := q })
    | _ => none
  | .queue e => σ.queueStep e
  | .serve i s =>
    match σ.worker i with
    | .serving _ => (poolStep hash σ.view (s.event i)).map σ.absorb
    | _ => none
  | .close i =>
    match σ.worker i with
    | .serving fd =>
      match σ.files fd with
      | some c =>
        if (σ.peer c).phase = .closed then
          some { σ with
            worker := Function.update σ.worker i .idle
            files := Function.update σ.files fd none }
        else none
      | none => none
    | _ => none
  | .join =>
    match σ.main with
    | .joining k =>
      if h : k < n then
        if σ.worker ⟨k, h⟩ = .exited then some { σ with main := .joining (k + 1) } else none
      else none
    | _ => none
  | .save status =>
    match σ.main with
    | .joining k => if k = n then some (σ.save status) else none
    | _ => none

inductive Case (σ : ThreadPool κ n) : ThreadEvent n → ThreadPool κ n → Prop
  | accept {fd : Nat} {c : κ} {cs : List κ} (hmain : σ.main = .accepting)
    (harr : σ.arriving = c :: cs) (hfree : σ.files fd = none)
    (hpc : σ.threads.pc none = .outside) :
    Case σ (.accept fd)
      { σ with
        threads := σ.threads.set none (.locking (.push fd))
        main := .calling
        arriving := cs
        files := Function.update σ.files fd (some c) }
  | stop (hmain : σ.main = .accepting) (hpc : σ.threads.pc none = .outside) :
    Case σ .stop
      { σ with threads := σ.threads.set none (.locking .shutdown), main := .calling }
  | pop {i : Fin n} (hidle : σ.worker i = .idle) (hpc : σ.threads.pc (some i) = .outside) :
    Case σ (.pop i) { σ with threads := σ.threads.set (some i) (.locking (.pop i)) }
  | inner {e : Monitor.Event (Option (Fin n)) QueueOp} {q : QueueThreads (Option (Fin n))}
    (hcall : ∀ t op, e ≠ .call t op) (hunlock : ∀ t, e ≠ .unlock t)
    (hq : Monitor.Case queueMonitor σ.threads e q) :
    Case σ (.queue e) { σ with threads := q }
  | leave {t : Option (Fin n)} {o : QueueReply} (hpc : σ.threads.pc t = .waking o []) :
    Case σ (.queue (.unlock t))
      (resume { σ with threads := { σ.threads.set t .outside with owner := none } } t o)
  | serve {i : Fin n} {fd : Nat} {s : ConnStep} {w : Pool κ (Fin n)}
    (hserving : σ.worker i = .serving fd)
    (hs : poolStep hash σ.view (s.event i) = some w) : Case σ (.serve i s) (σ.absorb w)
  | close {i : Fin n} {fd : Nat} {c : κ} (hserving : σ.worker i = .serving fd)
    (hfile : σ.files fd = some c) (hclosed : (σ.peer c).phase = .closed) :
    Case σ (.close i)
      { σ with
        worker := Function.update σ.worker i .idle
        files := Function.update σ.files fd none }
  | join {k : Nat} (hmain : σ.main = .joining k) (hk : k < n)
    (hexit : σ.worker ⟨k, hk⟩ = .exited) : Case σ .join { σ with main := .joining (k + 1) }
  | save {status : PersistStatus} (hmain : σ.main = .joining n) :
    Case σ (.save status) (σ.save status)

variable {hash}

omit [DecidableEq κ] in
theorem callQueue_cases {σ : ThreadPool κ n} {t : Option (Fin n)} {op : QueueOp}
    {q : QueueThreads (Option (Fin n))} (h : σ.callQueue t op = some q) :
    σ.threads.pc t = .outside ∧ q = σ.threads.set t (.locking op) := by
  cases Monitor.step_cases h with
  | call hpc => exact ⟨hpc, rfl⟩

theorem queueStep_cases {σ σ' : ThreadPool κ n} {e : Monitor.Event (Option (Fin n)) QueueOp}
    (h : σ.queueStep e = some σ') : Case hash σ (.queue e) σ' := by
  cases e with
  | call t op => cases h
  | unlock t =>
    rw [queueStep] at h
    split at h
    case h_1 o hpc =>
      obtain ⟨q, hq, rfl⟩ := Option.map_eq_some_iff.mp h
      cases Monitor.step_cases hq with
      | unlock => exact .leave hpc
    case h_2 => cases h
  | lock t =>
    obtain ⟨q, hq, rfl⟩ := Option.map_eq_some_iff.mp h
    exact .inner nofun nofun (Monitor.step_cases hq)
  | test t =>
    obtain ⟨q, hq, rfl⟩ := Option.map_eq_some_iff.mp h
    exact .inner nofun nofun (Monitor.step_cases hq)
  | wake t chosen =>
    obtain ⟨q, hq, rfl⟩ := Option.map_eq_some_iff.mp h
    exact .inner nofun nofun (Monitor.step_cases hq)
  | spurious t =>
    obtain ⟨q, hq, rfl⟩ := Option.map_eq_some_iff.mp h
    exact .inner nofun nofun (Monitor.step_cases hq)

theorem step_cases {σ σ' : ThreadPool κ n} {ev : ThreadEvent n} (h : step hash σ ev = some σ') :
    Case hash σ ev σ' := by
  cases ev with
  | accept fd =>
    rw [step] at h
    split at h
    case h_1 c cs hmain harr hfree =>
      obtain ⟨q, hq, rfl⟩ := Option.map_eq_some_iff.mp h
      obtain ⟨hpc, rfl⟩ := callQueue_cases hq
      exact .accept hmain harr hfree hpc
    case h_2 => cases h
  | stop =>
    rw [step] at h
    split at h
    case h_1 hmain =>
      obtain ⟨q, hq, rfl⟩ := Option.map_eq_some_iff.mp h
      obtain ⟨hpc, rfl⟩ := callQueue_cases hq
      exact .stop hmain hpc
    case h_2 => cases h
  | pop i =>
    rw [step] at h
    split at h
    case h_1 hidle =>
      obtain ⟨q, hq, rfl⟩ := Option.map_eq_some_iff.mp h
      obtain ⟨hpc, rfl⟩ := callQueue_cases hq
      exact .pop hidle hpc
    case h_2 => cases h
  | queue e => exact queueStep_cases h
  | serve i s =>
    rw [step] at h
    split at h
    case h_1 fd hserving =>
      obtain ⟨w, hw, rfl⟩ := Option.map_eq_some_iff.mp h
      exact .serve hserving hw
    case h_2 => cases h
  | close i =>
    rw [step] at h
    split at h
    case h_1 fd hserving =>
      split at h
      case h_1 c hfile =>
        rw [Option.ite_none_right_eq_some] at h
        obtain ⟨hclosed, h⟩ := h
        cases h
        exact .close hserving hfile hclosed
      case h_2 => cases h
    case h_2 => cases h
  | join =>
    rw [step] at h
    split at h
    case h_1 k hmain =>
      split at h
      case isTrue hk =>
        rw [Option.ite_none_right_eq_some] at h
        obtain ⟨hexit, h⟩ := h
        cases h
        exact .join hmain hk hexit
      case isFalse => cases h
    case h_2 => cases h
  | save status =>
    rw [step] at h
    split at h
    case h_1 k hmain =>
      rw [Option.ite_none_right_eq_some] at h
      obtain ⟨rfl, h⟩ := h
      cases h
      exact .save hmain
    case h_2 => cases h

variable (hash)

def Reached (stream : κ → Bytes) (arriving : List κ) (st : CmdState) (savePath : Option Bytes)
    (σ : ThreadPool κ n) : Prop :=
  Machine.ReachableVia (step hash) (fun _ _ => True) (start stream arriving st savePath) σ

end ThreadPool

end RedisServer

import RedisServer.Cmd.StoreCalls
import RedisServer.Lib.Sections
import RedisServer.Server.PoolShutdown

namespace RedisServer

open Sections

-- cmd_dispatch as single accesses to what g_store_mu guards
structure Cut (hash : Bytes → UInt64) where
  code : Env → Command → Code CmdState Bytes
  run_eq : ∀ env cmd st, (code env cmd).run st = cmdDispatch hash env st cmd

section StoreCut

variable (hash : Bytes → UInt64)

def callsCode : List StoreOp → Code CmdState Bytes → Code CmdState Bytes
  | [], rest => rest
  | op :: ops, rest =>
    .write (fun st => { st with store := (storeStep hash st.store op).1 }) (callsCode ops rest)

-- the calls of store.h one by one, the save state last
def dispatchCode (env : Env) (cmd : Command) : Code CmdState Bytes :=
  .read (fun st =>
    let r := cmdDispatch hash env st cmd
    callsCode hash (storeCalls env cmd)
      (.write (fun now => { r.1 with store := now.store }) (.ret r.2)))

variable {hash}

theorem run_callsCode (ops : List StoreOp) (rest : Code CmdState Bytes) (st : CmdState) :
    (callsCode hash ops rest).run st =
      rest.run { st with store := afterCalls hash st.store ops } := by
  induction ops generalizing st with
  | nil => rfl
  | cons op ops ih =>
    rw [callsCode, Code.run_write, ih]
    rfl

variable (hash)

def storeCut : Cut hash where
  code := dispatchCode hash
  run_eq env cmd st := by
    rw [dispatchCode, Code.run_read, run_callsCode, ← cmdDispatch_store]
    rfl

end StoreCut

-- the server with g_store_mu; owner holds it, body is what is left of the cmd_dispatch of a worker
-- inside, and moment what that one reads from outside; refusing is set where handle_conn has still
-- to take the mutex for the input limit, and sent is the local of write_all
structure LockedPool (κ : Type) (n : Nat) where
  pool : ThreadPool κ n
  owner : Option (Fin n)
  body : Fin n → Option (Code CmdState Bytes)
  moment : Fin n → Env
  refusing : κ → Bool
  sent : κ → Nat

inductive LockedEvent (n : Nat) where
  | pool (ev : ThreadEvent n)
  | lock (i : Fin n) (env : Env)
  | access (i : Fin n)
  | unlock (i : Fin n)
  | write (i : Fin n) (k : Nat)
  | interrupted (i : Fin n)
  | writeFails (i : Fin n)
  | flushed (i : Fin n)

-- the steps that LockedPool takes apart
def ThreadEvent.coarse {n : Nat} : ThreadEvent n → Bool
  | .serve _ (.dispatch _) => true
  | .serve _ (.flush _) => true
  | _ => false

-- the connection whose handle_conn a worker is in
def ThreadPool.conn {κ : Type} {n : Nat} (σ : ThreadPool κ n) (i : Fin n) : Option κ :=
  match σ.worker i with
  | .serving fd => σ.files fd
  | _ => none

namespace LockedPool

variable {κ : Type} {n : Nat}

def start (stream : κ → Bytes) (arriving : List κ) (st : CmdState) (savePath : Option Bytes) :
    LockedPool κ n where
  pool := ThreadPool.start stream arriving st savePath
  owner := none
  body := fun _ => none
  moment := fun _ => ⟨0, 0, .ok, false⟩
  refusing := fun _ => false
  sent := fun _ => 0

-- what the client of c has on the wire
def received (σ : LockedPool κ n) (c : κ) : Bytes :=
  (σ.pool.peer c).written ++ (σ.pool.peer c).out.take (σ.sent c)

variable [DecidableEq κ] {hash : Bytes → UInt64} (cut : Cut hash)

-- the error line of the limit goes into the worker's own out; the mutex is all there is to wait for
def refuse (σ : LockedPool κ n) (ev : ThreadEvent n) (p : ThreadPool κ n) : κ → Bool :=
  match ev with
  | .serve i (.read _) =>
    match p.conn i with
    | some c => Function.update σ.refusing c ((p.peer c).phase = .flushing true)
    | none => σ.refusing
  | _ => σ.refusing

def lock (σ : LockedPool κ n) (i : Fin n) (env : Env) (c : κ) : Option (LockedPool κ n) :=
  if σ.refusing c then some { σ with owner := some i }
  else
    match (σ.pool.peer c).phase with
    | .locking cmd _ =>
      some
        { σ with
          owner := some i
          body := Function.update σ.body i (some (cut.code env cmd))
          moment := Function.update σ.moment i env }
    | _ => none

def access (σ : LockedPool κ n) (i : Fin n) : Option (LockedPool κ n) :=
  match σ.body i with
  | some (.step f next) =>
    some
      { σ with
        pool := { σ.pool with state := f σ.pool.state }
        body := Function.update σ.body i (some (next σ.pool.state)) }
  | _ => none

def dispatched (p : ThreadPool κ n) (c : κ) (env : Env) (cmd : Command) (consumed : Nat)
    (reply : Bytes) : ThreadPool κ n :=
  { p with
    peer := Function.update p.peer c
      { p.peer c with
        out := (p.peer c).out ++ reply
        inBuf := (p.peer c).inBuf.drop consumed
        phase := .flushing false }
    log := p.log ++ [(c, env, cmd)] }

theorem dispatched_out_self (p : ThreadPool κ n) (c : κ) (env : Env) (cmd : Command)
    (consumed : Nat) (reply : Bytes) :
    ((dispatched p c env cmd consumed reply).peer c).out = (p.peer c).out ++ reply := by
  simp [dispatched]

theorem dispatched_peer_ne (p : ThreadPool κ n) {c d : κ} (h : d ≠ c) (env : Env) (cmd : Command)
    (consumed : Nat) (reply : Bytes) :
    (dispatched p c env cmd consumed reply).peer d = p.peer d := Function.update_of_ne h ..

def unlock (σ : LockedPool κ n) (i : Fin n) (c : κ) : Option (LockedPool κ n) :=
  match σ.body i, (σ.pool.peer c).phase with
  | some (.ret reply), .locking cmd consumed =>
    some
      { σ with
        pool := dispatched σ.pool c (σ.moment i) cmd consumed reply
        owner := none
        body := Function.update σ.body i none }
  | none, .flushing _ =>
    if σ.owner = some i ∧ σ.refusing c then
      some { σ with owner := none, refusing := Function.update σ.refusing c false }
    else none
  | _, _ => none

-- set where a worker is before write_all or in it
def flushing (σ : LockedPool κ n) (c : κ) : Option Bool :=
  match (σ.pool.peer c).phase with
  | .flushing fatal => if σ.refusing c then none else some fatal
  | _ => none

def write (σ : LockedPool κ n) (c : κ) (k : Nat) : Option (LockedPool κ n) :=
  (σ.flushing c).bind (fun _ =>
    if 0 < k ∧ σ.sent c + k ≤ (σ.pool.peer c).out.length then
      some { σ with sent := Function.update σ.sent c (σ.sent c + k) }
    else none)

def interrupted (σ : LockedPool κ n) (c : κ) : Option (LockedPool κ n) :=
  (σ.flushing c).bind (fun _ =>
    if σ.sent c < (σ.pool.peer c).out.length then some σ else none)

def leaveWrite (σ : LockedPool κ n) (c : κ) (fatal : Bool) (lost : Option Nat) : LockedPool κ n :=
  { σ with
    pool := { σ.pool with
      peer := Function.update σ.pool.peer c (peerFlush (σ.pool.peer c) fatal lost) }
    sent := Function.update σ.sent c 0 }

theorem leaveWrite_sent_self (σ : LockedPool κ n) (c : κ) (fatal : Bool) (lost : Option Nat) :
    (σ.leaveWrite c fatal lost).sent c = 0 := Function.update_self ..

theorem leaveWrite_ne (σ : LockedPool κ n) {c d : κ} (h : d ≠ c) (fatal : Bool)
    (lost : Option Nat) :
    (σ.leaveWrite c fatal lost).sent d = σ.sent d ∧
      (σ.leaveWrite c fatal lost).pool.peer d = σ.pool.peer d :=
  ⟨Function.update_of_ne h .., Function.update_of_ne h ..⟩

def writeFails (σ : LockedPool κ n) (c : κ) : Option (LockedPool κ n) :=
  (σ.flushing c).bind (fun fatal =>
    if σ.sent c < (σ.pool.peer c).out.length then some (σ.leaveWrite c fatal (some (σ.sent c)))
    else none)

def flushed (σ : LockedPool κ n) (c : κ) : Option (LockedPool κ n) :=
  (σ.flushing c).bind (fun fatal =>
    if σ.sent c = (σ.pool.peer c).out.length then some (σ.leaveWrite c fatal none) else none)

def step (σ : LockedPool κ n) : LockedEvent n → Option (LockedPool κ n)
  | .pool ev =>
    if ev.coarse then none
    else
      (ThreadPool.step hash σ.pool ev).map (fun p =>
        { σ with pool := p, refusing := σ.refuse ev p })
  | .lock i env =>
    (σ.pool.conn i).bind (fun c => if σ.owner = none then σ.lock cut i env c else none)
  | .access i => σ.access i
  | .unlock i => (σ.pool.conn i).bind (σ.unlock i)
  | .write i k => (σ.pool.conn i).bind (fun c => σ.write c k)
  | .interrupted i => (σ.pool.conn i).bind σ.interrupted
  | .writeFails i => (σ.pool.conn i).bind σ.writeFails
  | .flushed i => (σ.pool.conn i).bind σ.flushed

inductive Case (σ : LockedPool κ n) : LockedEvent n → LockedPool κ n → Prop
  | pool {ev : ThreadEvent n} {p : ThreadPool κ n} (hev : ev.coarse = false)
    (hs : ThreadPool.step hash σ.pool ev = some p) :
    Case σ (.pool ev) { σ with pool := p, refusing := σ.refuse ev p }
  | lockRefuse {i : Fin n} {env : Env} {c : κ} (hfree : σ.owner = none)
    (hconn : σ.pool.conn i = some c) (hrefuse : σ.refusing c = true) :
    Case σ (.lock i env) { σ with owner := some i }
  | lock {i : Fin n} {env : Env} {c : κ} {cmd : Command} {consumed : Nat}
    (hfree : σ.owner = none) (hconn : σ.pool.conn i = some c)
    (hphase : (σ.pool.peer c).phase = .locking cmd consumed) :
    Case σ (.lock i env)
      { σ with
        owner := some i
        body := Function.update σ.body i (some (cut.code env cmd))
        moment := Function.update σ.moment i env }
  | access {i : Fin n} {f : CmdState → CmdState} {next : CmdState → Code CmdState Bytes}
    (hbody : σ.body i = some (.step f next)) :
    Case σ (.access i)
      { σ with
        pool := { σ.pool with state := f σ.pool.state }
        body := Function.update σ.body i (some (next σ.pool.state)) }
  | unlock {i : Fin n} {c : κ} {cmd : Command} {consumed : Nat} {reply : Bytes}
    (hconn : σ.pool.conn i = some c) (hbody : σ.body i = some (.ret reply))
    (hphase : (σ.pool.peer c).phase = .locking cmd consumed) :
    Case σ (.unlock i)
      { σ with
        pool := dispatched σ.pool c (σ.moment i) cmd consumed reply
        owner := none
        body := Function.update σ.body i none }
  | unlockRefuse {i : Fin n} {c : κ} (hconn : σ.pool.conn i = some c) (hbody : σ.body i = none)
    (howner : σ.owner = some i) :
    Case σ (.unlock i)
      { σ with owner := none, refusing := Function.update σ.refusing c false }
  | write {i : Fin n} {c : κ} {k : Nat} (hconn : σ.pool.conn i = some c)
    (hroom : σ.sent c + k ≤ (σ.pool.peer c).out.length) :
    Case σ (.write i k) { σ with sent := Function.update σ.sent c (σ.sent c + k) }
  | interrupted {i : Fin n} {c : κ} (hconn : σ.pool.conn i = some c) :
    Case σ (.interrupted i) σ
  | leaveWrite {ev : LockedEvent n} {i : Fin n} {c : κ} {fatal : Bool} {lost : Option Nat}
    (hconn : σ.pool.conn i = some c) (hphase : (σ.pool.peer c).phase = .flushing fatal)
    (hrefuse : σ.refusing c = false) : Case σ ev (σ.leaveWrite c fatal lost)

variable {cut}

omit [DecidableEq κ] in
theorem flushing_eq_some {σ : LockedPool κ n} {c : κ} {fatal : Bool} :
    σ.flushing c = some fatal ↔
      (σ.pool.peer c).phase = .flushing fatal ∧ σ.refusing c = false := by
  rw [flushing]
  cases (σ.pool.peer c).phase with
  | flushing fatal' =>
    cases σ.refusing c with
    | true => simp
    | false => simp
  | _ => simp

theorem step_cases {σ σ' : LockedPool κ n} {ev : LockedEvent n} (h : step cut σ ev = some σ') :
    Case cut σ ev σ' := by
  cases ev with
  | pool ev =>
    rw [step, Option.ite_none_left_eq_some] at h
    obtain ⟨hev, h⟩ := h
    obtain ⟨p, hp, rfl⟩ := Option.map_eq_some_iff.mp h
    exact .pool (by simpa using hev) hp
  | lock i env =>
    obtain ⟨c, hconn, h⟩ := Option.bind_eq_some_iff.mp h
    obtain ⟨hfree, h⟩ := Option.ite_none_right_eq_some.mp h
    rw [lock] at h
    split at h
    case isTrue hrefuse =>
      cases h
      exact .lockRefuse hfree hconn hrefuse
    case isFalse =>
      split at h
      case h_1 hphase =>
        cases h
        exact .lock hfree hconn hphase
      case h_2 => cases h
  | access i =>
    rw [step, access] at h
    split at h
    case h_1 hbody =>
      cases h
      exact .access hbody
    case h_2 => cases h
  | unlock i =>
    obtain ⟨c, hconn, h⟩ := Option.bind_eq_some_iff.mp h
    rw [unlock] at h
    split at h
    case h_1 hbody hphase =>
      cases h
      exact .unlock hconn hbody hphase
    case h_2 hbody _ =>
      obtain ⟨⟨howner, -⟩, h⟩ := Option.ite_none_right_eq_some.mp h
      cases h
      exact .unlockRefuse hconn hbody howner
    case h_3 => cases h
  | write i k =>
    obtain ⟨c, hconn, h⟩ := Option.bind_eq_some_iff.mp h
    obtain ⟨fatal, -, h⟩ := Option.bind_eq_some_iff.mp h
    obtain ⟨⟨-, hroom⟩, h⟩ := Option.ite_none_right_eq_some.mp h
    cases h
    exact .write hconn hroom
  | interrupted i =>
    obtain ⟨c, hconn, h⟩ := Option.bind_eq_some_iff.mp h
    obtain ⟨fatal, -, h⟩ := Option.bind_eq_some_iff.mp h
    obtain ⟨-, h⟩ := Option.ite_none_right_eq_some.mp h
    cases h
    exact .interrupted hconn
  | writeFails i =>
    obtain ⟨c, hconn, h⟩ := Option.bind_eq_some_iff.mp h
    obtain ⟨fatal, hflush, h⟩ := Option.bind_eq_some_iff.mp h
    obtain ⟨-, h⟩ := Option.ite_none_right_eq_some.mp h
    cases h
    obtain ⟨hphase, hrefuse⟩ := flushing_eq_some.mp hflush
    exact .leaveWrite hconn hphase hrefuse
  | flushed i =>
    obtain ⟨c, hconn, h⟩ := Option.bind_eq_some_iff.mp h
    obtain ⟨fatal, hflush, h⟩ := Option.bind_eq_some_iff.mp h
    obtain ⟨-, h⟩ := Option.ite_none_right_eq_some.mp h
    cases h
    obtain ⟨hphase, hrefuse⟩ := flushing_eq_some.mp hflush
    exact .leaveWrite hconn hphase hrefuse

variable (cut)

def Reached (stream : κ → Bytes) (arriving : List κ) (st : CmdState) (savePath : Option Bytes)
    (σ : LockedPool κ n) : Prop :=
  Machine.ReachableVia (step cut) (fun _ _ => True) (start stream arriving st savePath) σ

end LockedPool

end RedisServer

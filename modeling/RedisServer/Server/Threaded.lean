import Mathlib.Logic.Function.Basic
import RedisServer.Server.Epoll

namespace RedisServer

variable (hash : Bytes → UInt64)

def maxInputBuf : Nat := 16 * 1024 * 1024

-- where a worker stands in handle_conn: before read(), at the top of the parse loop, before
-- g_store_mu with a parsed command, before write_all, or behind close()
inductive PeerPhase where
  | reading
  | parsing
  | locking (cmd : Command) (consumed : Nat)
  | flushing (fatal : Bool)
  | closed
  deriving DecidableEq, Repr

-- the locals of handle_conn; written and broken record what write_all sent and whether it failed
structure Peer where
  inBuf : Bytes
  out : Bytes
  phase : PeerPhase
  written : Bytes
  broken : Bool
  deriving DecidableEq, Repr

def Peer.accepted : Peer := ⟨[], [], .reading, [], false⟩

def peerRead (p : Peer) : ReadResult → Peer
  | .data chunk =>
    if maxInputBuf < p.inBuf.length + chunk.length then
      { p with out := p.out ++ respReplyError inputLimitMsg, phase := .flushing true }
    else { p with inBuf := p.inBuf ++ chunk, phase := .parsing }
  | .eintr => p
  | .eof => { p with phase := .closed }
  | .eagain => { p with phase := .closed }
  | .fail => { p with phase := .closed }

def peerParse (p : Peer) : Peer :=
  if p.inBuf.length = 0 then { p with phase := .reading }
  else
    match respParse p.inBuf with
    | .incomplete => { p with phase := .reading }
    | .error e => { p with out := p.out ++ respReplyError e.msg, phase := .flushing true }
    | .ok cmd consumed => { p with phase := .locking cmd consumed }

def peerDispatch (env : Env) (st : CmdState) (p : Peer) (cmd : Command) (consumed : Nat) :
    CmdState × Peer :=
  let r := cmdDispatch hash env st cmd
  (r.1, { p with out := p.out ++ r.2, inBuf := p.inBuf.drop consumed, phase := .flushing false })

-- write_all and what follows it; lost = some n when the connection went away after n bytes
def peerFlush (p : Peer) (fatal : Bool) (lost : Option Nat) : Peer :=
  match (if p.out = [] then none else lost) with
  | none =>
    { p with
      written := p.written ++ p.out
      out := []
      phase := if fatal then .closed else .parsing }
  | some n =>
    { p with written := p.written ++ p.out.take n, out := [], phase := .closed, broken := true }

structure Handled where
  peer : Peer
  state : CmdState
  dispatched : List Command
  deriving DecidableEq, Repr

def Handled.start (st : CmdState) : Handled := ⟨Peer.accepted, st, []⟩

def handleInput (envs : Nat → Env) : Nat → Handled → Handled
  | 0, h => h
  | fuel + 1, h =>
    let p := peerParse h.peer
    match p.phase with
    | .locking cmd consumed =>
      let r := peerDispatch hash (envs h.dispatched.length) h.state p cmd consumed
      handleInput envs fuel ⟨peerFlush r.2 false none, r.1, h.dispatched ++ [cmd]⟩
    | .flushing fatal => { h with peer := peerFlush p fatal none }
    | _ => { h with peer := p }

def handleConn (envs : Nat → Env) : List ReadResult → Handled → Handled
  | [], h => h
  | r :: rs, h =>
    if h.peer.phase ≠ .reading then h
    else
      let p := peerRead h.peer r
      match p.phase with
      | .parsing => handleConn envs rs (handleInput hash envs (p.inBuf.length + 1) { h with peer := p })
      | .flushing fatal => handleConn envs rs { h with peer := peerFlush p fatal none }
      | _ => handleConn envs rs { h with peer := p }

section Pool

variable {κ ω : Type} [DecidableEq κ] [DecidableEq ω]

-- the whole server: connections the accept loop has still to push, the work queue, the connection
-- each worker is handling, what each client has still to send, and the log of all dispatches
structure Pool (κ ω : Type) where
  arriving : List κ
  queue : List κ
  worker : ω → Option κ
  peer : κ → Peer
  unread : κ → Bytes
  state : CmdState
  log : List (κ × Env × Command)

def Pool.start (stream : κ → Bytes) (arriving : List κ) (st : CmdState) : Pool κ ω where
  arriving := arriving
  queue := []
  worker := fun _ => none
  peer := fun _ => Peer.accepted
  unread := stream
  state := st
  log := []

def Pool.setPeer (w : Pool κ ω) (c : κ) (p : Peer) : Pool κ ω :=
  { w with peer := Function.update w.peer c p }

inductive PoolEvent (ω : Type) where
  | accept
  | pop (worker : ω)
  | read (worker : ω) (n : Nat)
  | noRead (worker : ω) (r : ReadResult)
  | parse (worker : ω)
  | dispatch (worker : ω) (env : Env)
  | flush (worker : ω) (lost : Option Nat)
  | finish (worker : ω)

def poolRead (w : Pool κ ω) (c : κ) (n : Nat) : Option (Pool κ ω) :=
  if (w.peer c).phase = .reading ∧ 0 < n ∧ n ≤ readChunk ∧ n ≤ (w.unread c).length then
    some
      { w.setPeer c (peerRead (w.peer c) (.data ((w.unread c).take n))) with
        unread := Function.update w.unread c ((w.unread c).drop n) }
  else none

-- a read() without data; the end of file comes behind the last byte
def poolNoRead (w : Pool κ ω) (c : κ) : ReadResult → Option (Pool κ ω)
  | .data _ => none
  | r =>
    if (w.peer c).phase = .reading ∧ (r = .eof → w.unread c = []) then
      some (w.setPeer c (peerRead (w.peer c) r))
    else none

def poolParse (w : Pool κ ω) (c : κ) : Option (Pool κ ω) :=
  if (w.peer c).phase = .parsing then some (w.setPeer c (peerParse (w.peer c))) else none

def poolDispatch (w : Pool κ ω) (c : κ) (env : Env) : Option (Pool κ ω) :=
  match (w.peer c).phase with
  | .locking cmd consumed =>
    let r := peerDispatch hash env w.state (w.peer c) cmd consumed
    some { w.setPeer c r.2 with state := r.1, log := w.log ++ [(c, env, cmd)] }
  | _ => none

def poolFlush (w : Pool κ ω) (c : κ) (lost : Option Nat) : Option (Pool κ ω) :=
  match (w.peer c).phase with
  | .flushing fatal => some (w.setPeer c (peerFlush (w.peer c) fatal lost))
  | _ => none

def poolStep (w : Pool κ ω) : PoolEvent ω → Option (Pool κ ω)
  | .accept =>
    match w.arriving with
    | [] => none
    | c :: cs => some { w with arriving := cs, queue := w.queue ++ [c] }
  | .pop i =>
    match w.worker i, w.queue with
    | none, c :: cs => some { w with queue := cs, worker := Function.update w.worker i (some c) }
    | _, _ => none
  | .read i n => (w.worker i).bind (fun c => poolRead w c n)
  | .noRead i r => (w.worker i).bind (fun c => poolNoRead w c r)
  | .parse i => (w.worker i).bind (poolParse w)
  | .dispatch i env => (w.worker i).bind (fun c => poolDispatch hash w c env)
  | .flush i lost => (w.worker i).bind (fun c => poolFlush w c lost)
  | .finish i =>
    (w.worker i).bind (fun c =>
      if (w.peer c).phase = .closed then
        some { w with worker := Function.update w.worker i none }
      else none)

end Pool

end RedisServer

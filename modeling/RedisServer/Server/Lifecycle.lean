import RedisServer.Cmd.MapMachine
import RedisServer.Persist.Durability

namespace RedisServer

open ExpiringMap FileSystem

variable (hash : Bytes → UInt64) (path : Bytes)

def savePathSize : Nat := 4096

def cmdSetSavePath (path : Bytes) : Bytes := path.take (savePathSize - 1)

-- a child of BGSAVE: its copy of the store, and the time at which store_foreach reads the clock
structure Child where
  store : Store
  time : Option Int64
  phase : SaverPhase
  deriving DecidableEq

-- one machine over any number of server processes, one after the other; clock is the last time
-- anybody read, and said records all commands with their replies
structure Host where
  files : FS Bytes UInt8
  clock : Int64
  server : Option CmdState
  children : List Child
  said : List ((Env × Command) × Bytes)

inductive HostEvent where
  | boot (now : Int64)
  | command (env : Env) (cmd : Command) (actions : List SaverAction)
  | childReads (i : Nat) (now : Int64)
  | childActs (i : Nat) (a : SaverAction)
  | childExits (i : Nat)
  | shutdown (now : Int64) (actions : List SaverAction) (outcome : PersistStatus)
  | crash (now : Int64) (actions : List SaverAction)

def savesNow (st : CmdState) (cmd : Command) : Prop :=
  lookupCommand (argAt cmd 0) = some .save ∧ cmd.length = 1 ∧ st.savePath ≠ []

def forksNow (env : Env) (st : CmdState) (cmd : Command) : Prop :=
  lookupCommand (argAt cmd 0) = some .bgsave ∧ cmd.length = 1 ∧ st.savePath ≠ [] ∧
    env.forkFails = false

instance (st : CmdState) (cmd : Command) : Decidable (savesNow st cmd) :=
  inferInstanceAs (Decidable (_ ∧ _ ∧ _))

instance (env : Env) (st : CmdState) (cmd : Command) : Decidable (forksNow env st cmd) :=
  inferInstanceAs (Decidable (_ ∧ _ ∧ _ ∧ _))

-- a persist_save that comes back with its outcome, or that the process dies in
def SaveRun.finish (path : Bytes) (r : SaveRun) (fs : FS Bytes UInt8) :
    Option (FS Bytes UInt8) :=
  (r.exec path fs).bind (fun w =>
    match r.outcome with
    | none => some w.files
    | some st => if w.phase () = .returned st then some w.files else none)

def SaverPhase.over : SaverPhase → Bool
  | .returned _ => true
  | .crashed => true
  | _ => false

namespace Host

def start (files : FS Bytes UInt8) (clock : Int64) : Host := ⟨files, clock, none, [], []⟩

def boot (σ : Host) (now : Int64) : CmdState where
  store := (persistLoad hash storeCreate (snapshotAt σ.files path) now).1
  savePath := cmdSetSavePath path
  lastsaveTime := 0

def command (σ : Host) (st : CmdState) (env : Env) (cmd : Command)
    (actions : List SaverAction) : Option Host :=
  let r := cmdDispatch hash env st cmd
  let σ' := { σ with
    clock := env.now
    server := some r.1
    said := σ.said ++ [((env, cmd), r.2)] }
  if savesNow st cmd then
    (SaveRun.finish st.savePath ⟨st.store, env.now, actions, some env.saveStatus⟩ σ.files).map
      (fun fs => { σ' with files := fs })
  else if forksNow env st cmd then
    some { σ' with children := σ.children ++ [⟨st.store, none, .built⟩] }
  else some σ'

-- the last persist_save of a server process; outcome is none when it dies before it is back
def stop (σ : Host) (st : CmdState) (now : Int64) (actions : List SaverAction)
    (outcome : Option PersistStatus) : Option Host :=
  (SaveRun.finish path ⟨st.store, now, actions, outcome⟩ σ.files).map
    (fun fs => { σ with files := fs, clock := now, server := none })

def childActs (σ : Host) (i : Nat) (c : Child) (t : Int64) (a : SaverAction) : Option Host :=
  (saveStep (cmdSetSavePath path) (fun _ => (c.store, t)) ⟨σ.files, fun _ => c.phase⟩ ((), a)).map
    (fun w => { σ with
      files := w.files
      children := σ.children.set i { c with phase := w.phase () } })

def step (σ : Host) : HostEvent → Option Host
  | .boot now =>
    if σ.server = none ∧ σ.clock ≤ now then
      some { σ with clock := now, server := some (σ.boot hash path now) }
    else none
  | .command env cmd actions =>
    σ.server.bind (fun st =>
      if σ.clock ≤ env.now then σ.command hash st env cmd actions else none)
  | .childReads i now =>
    σ.children[i]?.bind (fun c =>
      if c.time = none ∧ σ.clock ≤ now then
        some { σ with clock := now, children := σ.children.set i { c with time := some now } }
      else none)
  | .childActs i a =>
    σ.children[i]?.bind (fun c => c.time.bind (fun t => σ.childActs path i c t a))
  | .childExits i =>
    σ.children[i]?.bind (fun c =>
      if c.phase.over then some { σ with children := σ.children.eraseIdx i } else none)
  | .shutdown now actions outcome =>
    σ.server.bind (fun st =>
      if σ.clock ≤ now then σ.stop path st now actions (some outcome) else none)
  | .crash now actions =>
    σ.server.bind (fun st => if σ.clock ≤ now then σ.stop path st now actions none else none)

-- one saver at a time, and a snapshot whose size is a long
def Sole (σ : Host) : HostEvent → Prop
  | .command env cmd _ =>
    ∀ st, σ.server = some st →
      (savesNow st cmd → σ.children = [] ∧ (persistImage st.store env.now).length < 2 ^ 63) ∧
      (forksNow env st cmd → σ.children = [])
  | .childReads i now =>
    ∀ c, σ.children[i]? = some c → (persistImage c.store now).length < 2 ^ 63
  | .shutdown now _ _ =>
    ∀ st, σ.server = some st → σ.children = [] ∧ (persistImage st.store now).length < 2 ^ 63
  | .crash now actions =>
    ∀ st, σ.server = some st → actions ≠ [] →
      σ.children = [] ∧ (persistImage st.store now).length < 2 ^ 63
  | _ => True

instance (σ : Host) : (e : HostEvent) → Decidable (σ.Sole e)
  | .boot _ => inferInstanceAs (Decidable True)
  | .command _ _ _ => inferInstanceAs (Decidable (∀ st ∈ σ.server, _ ∧ _))
  | .childReads i _ => inferInstanceAs (Decidable (∀ c ∈ σ.children[i]?, _))
  | .childActs _ _ => inferInstanceAs (Decidable True)
  | .childExits _ => inferInstanceAs (Decidable True)
  | .shutdown _ _ _ => inferInstanceAs (Decidable (∀ st ∈ σ.server, _ ∧ _))
  | .crash _ actions => inferInstanceAs (Decidable (∀ st ∈ σ.server, actions ≠ [] → _ ∧ _))

end Host

-- what persistence is for: a map that survives as it was when the last save began
structure Durable where
  server : Option KvServer
  saved : KvMap
  pending : Option KvMap

namespace Durable

def start (m : KvMap) : Durable := ⟨none, m, none⟩

def after (d : Durable) (env : Env) (cmd : Command) (kv kv' : KvServer) : Durable where
  server := some kv'
  saved :=
    if (request cmd).toOption = some .save ∧ kv.savePath ≠ [] ∧ env.saveStatus = .ok then kv.map
    else d.saved
  pending :=
    if (request cmd).toOption = some .bgsave ∧ kv.savePath ≠ [] ∧ env.forkFails = false then
      some kv.map
    else d.pending

def stopped (d : Durable) (kv : KvServer) (renamed : Prop) [Decidable renamed] : Durable where
  server := none
  saved := if renamed then kv.map else d.saved
  pending := d.pending

-- what one event of the host does to the map, and the answers it brings
inductive Step (path : Bytes) (d : Durable) :
    HostEvent → List ((Env × Command) × Option Resp) → Durable → Prop
  | boots {now : Int64} (h : d.server = none) :
    Step path d (.boot now) [] { d with server := some ⟨d.saved, path, 0⟩ }
  | serves {env : Env} {cmd : Command} {actions : List SaverAction} {kv kv' : KvServer}
    {v : Option Resp} (h : d.server = some kv) (hs : KvServer.Step env kv cmd v kv') :
    Step path d (.command env cmd actions) [((env, cmd), v)] (d.after env cmd kv kv')
  | reads {i : Nat} {now : Int64} : Step path d (.childReads i now) [] d
  | acts {i : Nat} {a : SaverAction} (ha : a ≠ .rename) : Step path d (.childActs i a) [] d
  | renames {i : Nat} {m : KvMap} (h : d.pending = some m) :
    Step path d (.childActs i .rename) [] { d with saved := m }
  | exits {i : Nat} : Step path d (.childExits i) [] { d with pending := none }
  | shutsDown {now : Int64} {actions : List SaverAction} {outcome : PersistStatus}
    {kv : KvServer} (h : d.server = some kv) :
    Step path d (.shutdown now actions outcome) [] (d.stopped kv (outcome = .ok))
  | crashes {now : Int64} {actions : List SaverAction} {kv : KvServer} (h : d.server = some kv) :
    Step path d (.crash now actions) [] (d.stopped kv (.rename ∈ actions))

inductive Runs (path : Bytes) (m : KvMap) :
    List HostEvent → List ((Env × Command) × Option Resp) → Durable → Prop
  | start : Runs path m [] [] (start m)
  | next {es : List HostEvent} {e : HostEvent} {d d' : Durable}
    {said more : List ((Env × Command) × Option Resp)} (h : Runs path m es said d)
    (hs : Step path d e more d') : Runs path m (es ++ [e]) (said ++ more) d'

end Durable

end RedisServer

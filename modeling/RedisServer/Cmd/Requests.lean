import RedisServer.Resp.Value
import RedisServer.Store.Abstract
import RedisServer.Cmd.Handlers

namespace RedisServer

open ExpiringMap

-- what the arguments of a well-formed command ask for
inductive Request where
  | ping (msg : Option Bytes)
  | echo (msg : Bytes)
  | set (k v : Bytes) (ttl : Option Int64)
  | get (k : Bytes)
  | mget (ks : List Bytes)
  | mset (kvs : List (Bytes × Bytes))
  | del (ks : List Bytes)
  | exists (ks : List Bytes)
  | keys
  | expire (k : Bytes) (ttl : Int64)
  | ttl (k : Bytes) (wantMs : Bool)
  | incrby (k : Bytes) (delta : Int64)
  | dbsize
  | flushdb
  | save
  | bgsave
  | lastsave
  deriving DecidableEq

def wrongArityMsg (cmd : Command) : Bytes :=
  (str "ERR wrong number of arguments for '" ++ safeToken 32 (argAt cmd 0) ++
    str "' command").take 79

def unknownMsg (name : Bytes) : Bytes :=
  (str "ERR unknown command '" ++ safeToken 32 name ++ str "'").take 79

def notIntegerMsg : Bytes := str "ERR value is not an integer or out of range"
def overflowMsg : Bytes := str "ERR increment or decrement would overflow"
def noSavePathMsg : Bytes := str "ERR no save path configured (start server with --save <file>)"

def saveFailedMsg (status : PersistStatus) : Bytes :=
  (str "ERR save failed: " ++ persistStrerror status).take 127

def arityCheck (wrong : Prop) [Decidable wrong] (cmd : Command) (r : Except Bytes Request) :
    Except Bytes Request :=
  if wrong then .error (wrongArityMsg cmd) else r

def setTtl (cmd : Command) : Except Bytes (Option Int64) :=
  if cmd.length = 5 then
    let isEx := argEqCi (argAt cmd 3) (str "EX")
    let isPx := argEqCi (argAt cmd 3) (str "PX")
    if !isEx && !isPx then .error (str "ERR syntax error")
    else
      match Cmd.parseStrictLl (argAt cmd 4) with
      | none => .error (str "ERR invalid expire time in 'set' command")
      | some n =>
        if n ≤ 0 then .error (str "ERR invalid expire time in 'set' command")
        else .ok (some (if isEx then n * 1000 else n))
  else .ok none

def pairsOf : List Bytes → List (Bytes × Bytes)
  | k :: v :: rest => (k, v) :: pairsOf rest
  | _ => []

def setRequest (cmd : Command) : Except Bytes Request :=
  match setTtl cmd with
  | .error msg => .error msg
  | .ok ttl => .ok (.set (argAt cmd 1) (argAt cmd 2) ttl)

def expireRequest (cmd : Command) : Except Bytes Request :=
  match Cmd.parseStrictLl (argAt cmd 2) with
  | none => .error notIntegerMsg
  | some seconds => .ok (.expire (argAt cmd 1) (seconds * 1000))

def incrbyRequest (cmd : Command) (negate : Bool) : Except Bytes Request :=
  match Cmd.parseStrictLl (argAt cmd 2) with
  | none => .error notIntegerMsg
  | some delta =>
    if negate && delta = Int64.minValue then .error overflowMsg
    else .ok (.incrby (argAt cmd 1) (if negate then -delta else delta))

def keysRequest (cmd : Command) : Except Bytes Request :=
  if (argAt cmd 1).length ≠ 1 ∨ byteAt (argAt cmd 1) 0 ≠ 42 then
    .error (str "ERR only '*' pattern supported in KEYS")
  else .ok .keys

def CmdId.request (cmd : Command) : CmdId → Except Bytes Request
  | .ping =>
    arityCheck (2 < cmd.length) cmd
      (.ok (.ping (if cmd.length = 2 then some (argAt cmd 1) else none)))
  | .echo => arityCheck (cmd.length ≠ 2) cmd (.ok (.echo (argAt cmd 1)))
  | .set => arityCheck (cmd.length ≠ 3 ∧ cmd.length ≠ 5) cmd (setRequest cmd)
  | .get => arityCheck (cmd.length ≠ 2) cmd (.ok (.get (argAt cmd 1)))
  | .mget => arityCheck (cmd.length < 2) cmd (.ok (.mget (cmd.drop 1)))
  | .mset =>
    arityCheck (cmd.length < 3 ∨ cmd.length % 2 = 0) cmd (.ok (.mset (pairsOf (cmd.drop 1))))
  | .del => arityCheck (cmd.length < 2) cmd (.ok (.del (cmd.drop 1)))
  | .exists => arityCheck (cmd.length < 2) cmd (.ok (.exists (cmd.drop 1)))
  | .keys => arityCheck (cmd.length ≠ 2) cmd (keysRequest cmd)
  | .expire => arityCheck (cmd.length ≠ 3) cmd (expireRequest cmd)
  | .ttl => arityCheck (cmd.length ≠ 2) cmd (.ok (.ttl (argAt cmd 1) false))
  | .pttl => arityCheck (cmd.length ≠ 2) cmd (.ok (.ttl (argAt cmd 1) true))
  | .incr => arityCheck (cmd.length ≠ 2) cmd (.ok (.incrby (argAt cmd 1) 1))
  | .decr => arityCheck (cmd.length ≠ 2) cmd (.ok (.incrby (argAt cmd 1) (-1)))
  | .incrby => arityCheck (cmd.length ≠ 3) cmd (incrbyRequest cmd false)
  | .decrby => arityCheck (cmd.length ≠ 3) cmd (incrbyRequest cmd true)
  | .dbsize => arityCheck (cmd.length ≠ 1) cmd (.ok .dbsize)
  | .flushdb => arityCheck (cmd.length ≠ 1) cmd (.ok .flushdb)
  | .save => arityCheck (cmd.length ≠ 1) cmd (.ok .save)
  | .bgsave => arityCheck (cmd.length ≠ 1) cmd (.ok .bgsave)
  | .lastsave => arityCheck (cmd.length ≠ 1) cmd (.ok .lastsave)

def request (cmd : Command) : Except Bytes Request :=
  match lookupCommand (argAt cmd 0) with
  | some id => id.request cmd
  | none => .error (unknownMsg (argAt cmd 0))

-- the server as its clients see it: a map with deadlines that only writes change
structure KvServer where
  map : KvMap
  savePath : Bytes
  lastsaveTime : Int64

def deadline (now : Int64) : Option Int64 → Int64
  | none => 0
  | some ttl => now + ttl

def KvServer.entry (σ : KvServer) (now : Int64) (k : Bytes) : Option (Bytes × Int64) :=
  live expired σ.map now k

-- the sum in the unbounded integers, with the deadline that the key keeps
def counted (delta : Int64) : Option (Bytes × Int64) → Except Bytes (Int × Int64)
  | none => .ok (delta.toInt, 0)
  | some p =>
    match strictLl p.1 with
    | none => .error notIntegerMsg
    | some current =>
      if KvMap.fits (current.toInt + delta.toInt) then .ok (current.toInt + delta.toInt, p.2)
      else .error overflowMsg

def ttlAnswer (wantMs : Bool) (now : Int64) : Option (Bytes × Int64) → Int64
  | none => -2
  | some p =>
    if p.2 = 0 then -1
    else if wantMs then ttlOf p.2 now
    else (ttlOf p.2 now + 999) / 1000

-- an unsigned count printed as a long long
def countAnswer (n : Nat) : Resp := .integer (Int64.ofNat n).toInt

namespace Request

def after (env : Env) (σ : KvServer) : Request → KvServer
  | .set k v d => { σ with map := σ.map.insert k (v, deadline env.now d) }
  | .mset kvs => { σ with map := kvs.foldl (fun m p => m.insert p.1 (p.2, 0)) σ.map }
  | .del ks => { σ with map := ks.foldl (fun m k => m.erase k) σ.map }
  | .expire k d =>
    match σ.entry env.now k with
    | none => σ
    | some p => { σ with map := σ.map.insert k (p.1, env.now + d) }
  | .incrby k delta =>
    match counted delta (σ.entry env.now k) with
    | .error _ => σ
    | .ok r => { σ with map := σ.map.insert k (Decimal.ofInt r.1, r.2) }
  | .flushdb => { σ with map := ∅ }
  | .save =>
    if σ.savePath ≠ [] ∧ env.saveStatus = .ok then { σ with lastsaveTime := env.tvSec } else σ
  | .bgsave =>
    if σ.savePath ≠ [] ∧ env.forkFails = false then { σ with lastsaveTime := env.tvSec } else σ
  | _ => σ

-- only KEYS, DEL and DBSIZE leave a choice: any order, and between the live keys and all that
-- were not deleted, for an expired key counts until a lookup meets it
def Answers (env : Env) (σ : KvServer) : Request → Resp → Prop
  | .ping none, v => v = .simple (str "PONG")
  | .ping (some msg), v => v = .bulk msg
  | .echo msg, v => v = .bulk msg
  | .set _ _ _, v => v = .simple (str "OK")
  | .get k, v => v = ((σ.entry env.now k).elim .null (fun p => .bulk p.1))
  | .mget ks, v =>
    v = .array (ks.map (fun k => (σ.entry env.now k).elim .null (fun p => .bulk p.1)))
  | .mset _, v => v = .simple (str "OK")
  | .del ks, v =>
    ∃ n, v = countAnswer n ∧
      (ks.toFinset.filter (fun k => (σ.entry env.now k).isSome)).card ≤ n ∧
      n ≤ (ks.toFinset.filter (· ∈ σ.map)).card
  | .exists ks, v => v = countAnswer (ks.countP (fun k => (σ.entry env.now k).isSome))
  | .keys, v =>
    ∃ ks : List Bytes, ks.Nodup ∧ (∀ k, k ∈ ks ↔ (σ.entry env.now k).isSome) ∧
      v = .array (ks.map .bulk)
  | .expire k _, v => v = .integer (if (σ.entry env.now k).isSome then 1 else 0)
  | .ttl k wantMs, v => v = .integer (ttlAnswer wantMs env.now (σ.entry env.now k)).toInt
  | .incrby k delta, v =>
    match counted delta (σ.entry env.now k) with
    | .error msg => v = .error msg
    | .ok r => v = .integer r.1
  | .dbsize, v =>
    ∃ n, v = countAnswer n ∧
      (σ.map.keys.filter (fun k => (σ.entry env.now k).isSome)).card ≤ n ∧ n ≤ σ.map.keys.card
  | .flushdb, v => v = .simple (str "OK")
  | .save, v =>
    v = if σ.savePath = [] then .error noSavePathMsg
      else if env.saveStatus ≠ .ok then .error (saveFailedMsg env.saveStatus)
      else .simple (str "OK")
  | .bgsave, v =>
    v = if σ.savePath = [] then .error noSavePathMsg
      else if env.forkFails then .error (str "ERR fork failed")
      else .simple (str "Background saving started")
  | .lastsave, v => v = .integer σ.lastsaveTime.toInt

end Request

namespace KvServer

inductive Step (env : Env) (σ : KvServer) : Command → Option Resp → KvServer → Prop
  | blank : Step env σ [] none σ
  | rejected {cmd : Command} {msg : Bytes} (hc : cmd ≠ []) (h : request cmd = .error msg) :
    Step env σ cmd (some (.error msg)) σ
  | served {cmd : Command} {req : Request} {v : Resp} (hc : cmd ≠ [])
    (h : request cmd = .ok req) (hv : req.Answers env σ v) :
    Step env σ cmd (some v) (req.after env σ)

inductive Runs : KvServer → List (Env × Command) → List (Option Resp) → KvServer → Prop
  | done (σ : KvServer) : Runs σ [] [] σ
  | step {σ σ' σ'' : KvServer} {env : Env} {cmd : Command} {v : Option Resp}
    {calls : List (Env × Command)} {vs : List (Option Resp)} (h : Step env σ cmd v σ')
    (hs : Runs σ' calls vs σ'') : Runs σ ((env, cmd) :: calls) (v :: vs) σ''

end KvServer

theorem arityCheck_ok {wrong : Prop} [Decidable wrong] {cmd : Command}
    {r : Except Bytes Request} {req : Request} :
    arityCheck wrong cmd r = .ok req ↔ ¬ wrong ∧ r = .ok req := by
  rw [arityCheck]
  split_ifs with hw
  · exact iff_of_false nofun (fun h => h.1 hw)
  · exact ⟨fun h => ⟨hw, h⟩, fun h => h.2⟩

theorem setRequest_ok {cmd : Command} {req : Request} (h : setRequest cmd = .ok req) :
    ∃ ttl, req = .set (argAt cmd 1) (argAt cmd 2) ttl := by
  rw [setRequest] at h
  cases ht : setTtl cmd with
  | error msg =>
    rw [ht] at h
    cases h
  | ok ttl =>
    rw [ht] at h
    cases h
    exact ⟨ttl, rfl⟩

theorem expireRequest_ok {cmd : Command} {req : Request} (h : expireRequest cmd = .ok req) :
    ∃ d, req = .expire (argAt cmd 1) d := by
  rw [expireRequest] at h
  cases hp : Cmd.parseStrictLl (argAt cmd 2) with
  | none =>
    rw [hp] at h
    cases h
  | some seconds =>
    rw [hp] at h
    cases h
    exact ⟨_, rfl⟩

theorem incrbyRequest_ok {cmd : Command} {negate : Bool} {req : Request}
    (h : incrbyRequest cmd negate = .ok req) : ∃ d, req = .incrby (argAt cmd 1) d := by
  rw [incrbyRequest] at h
  cases hp : Cmd.parseStrictLl (argAt cmd 2) with
  | none =>
    rw [hp] at h
    cases h
  | some delta =>
    rw [hp] at h
    simp only at h
    split_ifs at h <;> cases h <;> exact ⟨_, rfl⟩

theorem keysRequest_ok {cmd : Command} {req : Request} (h : keysRequest cmd = .ok req) :
    req = .keys := by
  rw [keysRequest] at h
  split_ifs at h
  cases h
  rfl

-- the commands whose requests are about the snapshot
theorem request_save (cmd : Command) (id : CmdId) :
    (id.request cmd = .ok .save ↔ id = .save ∧ cmd.length = 1) ∧
      (id.request cmd = .ok .bgsave ↔ id = .bgsave ∧ cmd.length = 1) := by
  cases id with
  | set =>
    constructor <;> refine iff_of_false (fun h => ?_) (fun h => nomatch h.1) <;>
      obtain ⟨_, hreq⟩ := setRequest_ok (arityCheck_ok.mp h).2 <;> cases hreq
  | expire =>
    constructor <;> refine iff_of_false (fun h => ?_) (fun h => nomatch h.1) <;>
      obtain ⟨_, hreq⟩ := expireRequest_ok (arityCheck_ok.mp h).2 <;> cases hreq
  | incrby =>
    constructor <;> refine iff_of_false (fun h => ?_) (fun h => nomatch h.1) <;>
      obtain ⟨_, hreq⟩ := incrbyRequest_ok (arityCheck_ok.mp h).2 <;> cases hreq
  | decrby =>
    constructor <;> refine iff_of_false (fun h => ?_) (fun h => nomatch h.1) <;>
      obtain ⟨_, hreq⟩ := incrbyRequest_ok (arityCheck_ok.mp h).2 <;> cases hreq
  | keys =>
    constructor <;> refine iff_of_false (fun h => ?_) (fun h => nomatch h.1) <;>
      cases keysRequest_ok (arityCheck_ok.mp h).2
  | _ => simp [CmdId.request, arityCheck_ok]

theorem request_ok_iff {cmd : Command} {req : Request} {id : CmdId}
    (h : ∀ i : CmdId, i.request cmd = .ok req ↔ i = id ∧ cmd.length = 1) :
    request cmd = .ok req ↔ lookupCommand (argAt cmd 0) = some id ∧ cmd.length = 1 := by
  rw [request]
  cases lookupCommand (argAt cmd 0) with
  | none => exact iff_of_false nofun (fun h => nomatch h.1)
  | some i => simp [h]

theorem request_eq_save (cmd : Command) :
    request cmd = .ok .save ↔ lookupCommand (argAt cmd 0) = some .save ∧ cmd.length = 1 :=
  request_ok_iff (fun id => (request_save cmd id).1)

theorem request_eq_bgsave (cmd : Command) :
    request cmd = .ok .bgsave ↔ lookupCommand (argAt cmd 0) = some .bgsave ∧ cmd.length = 1 :=
  request_ok_iff (fun id => (request_save cmd id).2)

theorem Request.after_savePath (env : Env) (kv : KvServer) (req : Request) :
    (req.after env kv).savePath = kv.savePath := by
  cases req with
  | expire k d =>
    rw [after]
    cases kv.entry env.now k <;> rfl
  | incrby k delta =>
    rw [after]
    cases counted delta (kv.entry env.now k) <;> rfl
  | save =>
    rw [after]
    split_ifs <;> rfl
  | bgsave =>
    rw [after]
    split_ifs <;> rfl
  | _ => rfl

theorem KvServer.Step.savePath {env : Env} {kv kv' : KvServer} {cmd : Command} {v : Option Resp}
    (h : Step env kv cmd v kv') : kv'.savePath = kv.savePath := by
  cases h with
  | blank => rfl
  | rejected _ _ => rfl
  | served _ _ _ => exact Request.after_savePath env kv _

end RedisServer

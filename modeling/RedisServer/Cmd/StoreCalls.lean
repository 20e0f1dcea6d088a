import RedisServer.Cmd.Rejections

namespace RedisServer

open ExpiringMap

variable {hash : Bytes → UInt64}

def msetCalls : List Bytes → List StoreOp
  | key :: val :: rest => .set key val 0 :: msetCalls rest
  | _ => []

def incrbyCalls (env : Env) (cmd : Command) (negate : Bool) : List StoreOp :=
  if cmd.length ≠ 3 then []
  else
    match Cmd.parseStrictLl (argAt cmd 2) with
    | none => []
    | some delta =>
      if negate && delta = Int64.minValue then []
      else [.incrby (argAt cmd 1) (if negate then -delta else delta) env.now]

-- the store_* functions a handler calls, in order; what they answer never decides the next call
def CmdId.storeCalls (env : Env) (cmd : Command) : CmdId → List StoreOp
  | .set =>
    if cmd.length ≠ 3 ∧ cmd.length ≠ 5 then []
    else
      match setExpiry env cmd with
      | .error _ => []
      | .ok expireAtMs => [.set (argAt cmd 1) (argAt cmd 2) expireAtMs]
  | .get => if cmd.length ≠ 2 then [] else [.get (argAt cmd 1) env.now]
  | .mget => if cmd.length < 2 then [] else (cmd.drop 1).map (fun k => .get k env.now)
  | .mset => if cmd.length < 3 ∨ cmd.length % 2 = 0 then [] else msetCalls (cmd.drop 1)
  | .del => if cmd.length < 2 then [] else (cmd.drop 1).map .del
  | .exists => if cmd.length < 2 then [] else (cmd.drop 1).map (fun k => .exists k env.now)
  | .expire =>
    if cmd.length ≠ 3 then []
    else
      match Cmd.parseStrictLl (argAt cmd 2) with
      | none => []
      | some seconds => [.expire (argAt cmd 1) (env.now + seconds * 1000) env.now]
  | .ttl => if cmd.length ≠ 2 then [] else [.ttlMs (argAt cmd 1) env.now env.now]
  | .pttl => if cmd.length ≠ 2 then [] else [.ttlMs (argAt cmd 1) env.now env.now]
  | .incr => if cmd.length ≠ 2 then [] else [.incrby (argAt cmd 1) 1 env.now]
  | .decr => if cmd.length ≠ 2 then [] else [.incrby (argAt cmd 1) (-1) env.now]
  | .incrby => incrbyCalls env cmd false
  | .decrby => incrbyCalls env cmd true
  | .flushdb => if cmd.length ≠ 1 then [] else [.flush]
  | .ping | .echo | .keys | .dbsize | .save | .bgsave | .lastsave => []

def storeCalls (env : Env) (cmd : Command) : List StoreOp :=
  match lookupCommand (argAt cmd 0) with
  | some id => id.storeCalls env cmd
  | none => []

def afterCalls (hash : Bytes → UInt64) (s : Store) (ops : List StoreOp) : Store :=
  (Machine.run (storeStep hash) s ops).1

theorem countLoop_store (f : Store → Bytes → Store × Nat) (op : Bytes → StoreOp)
    (hf : ∀ s k, (storeStep hash s (op k)).1 = (f s k).1) (keys : List Bytes) (s : Store) (n : Nat) :
    (countLoop f keys s n).1 = afterCalls hash s (keys.map op) := by
  induction keys generalizing s n with
  | nil => rfl
  | cons k keys ih =>
    rw [countLoop, ih, ← hf s k]
    rfl

theorem mgetLoop_store (now : Int64) (keys : List Bytes) (s : Store) (out : Bytes) :
    (mgetLoop hash now keys s out).1 = afterCalls hash s (keys.map (fun k => .get k now)) := by
  induction keys generalizing s out with
  | nil => rfl
  | cons k keys ih => exact ih _ _

theorem msetLoop_store (kvs : List Bytes) (s : Store) :
    msetLoop hash kvs s = afterCalls hash s (msetCalls kvs) := by
  induction kvs, s using msetLoop.induct hash with
  | case1 key val rest s ih =>
    rw [msetLoop, ih]
    rfl
  | case2 kvs s hne =>
    rw [msetLoop, msetCalls]
    · rfl
    · exact hne
    · exact hne

-- x leaves the store as the calls ops leave the store of st
def Calls (hash : Bytes → UInt64) (st : CmdState) (ops : List StoreOp) (x : CmdState × Bytes) :
    Prop := x.1.store = afterCalls hash st.store ops

section Handlers

variable {st : CmdState} {ops ops' : List StoreOp} {x y : CmdState × Bytes} {c : Prop} [Decidable c]

theorem Calls.ite (hx : Calls hash st ops x) (hy : Calls hash st ops' y) :
    Calls hash st (if c then ops else ops') (if c then x else y) := by
  split_ifs
  · exact hx
  · exact hy

theorem Calls.either (hx : Calls hash st ops x) (hy : Calls hash st ops y) :
    Calls hash st ops (if c then x else y) := by
  split_ifs
  · exact hx
  · exact hy

theorem Calls.untouched (reply : Bytes) : Calls hash st [] (st, reply) := rfl

theorem calls_cmdIncrbyGeneric (negate : Bool) (env : Env) (cmd : Command) :
    Calls hash st (incrbyCalls env cmd negate) (cmdIncrbyGeneric hash negate env st cmd) := by
  apply Calls.ite (.untouched _)
  cases Cmd.parseStrictLl (argAt cmd 2) with
  | none => exact .untouched _
  | some delta => exact .ite (.untouched _) rfl

theorem calls_cmdSet (env : Env) (cmd : Command) :
    Calls hash st (CmdId.set.storeCalls env cmd) (cmdSet hash env st cmd) := by
  apply Calls.ite (.untouched _)
  cases setExpiry env cmd with
  | error msg => exact .untouched _
  | ok expireAtMs => exact rfl

theorem calls_cmdExpire (env : Env) (cmd : Command) :
    Calls hash st (CmdId.expire.storeCalls env cmd) (cmdExpire hash env st cmd) := by
  apply Calls.ite (.untouched _)
  cases Cmd.parseStrictLl (argAt cmd 2) with
  | none => exact .untouched _
  | some seconds => exact rfl

theorem calls_doSave (env : Env) : Calls hash st [] (doSave env st) :=
  .either (.untouched _) (.either (.untouched _) rfl)

theorem calls_handler (id : CmdId) (env : Env) (cmd : Command) :
    Calls hash st (id.storeCalls env cmd) (id.handler hash env st cmd) := by
  cases id with
  | ping => exact .either (.untouched _) (.either (.untouched _) (.untouched _))
  | echo => exact .either (.untouched _) (.untouched _)
  | set => exact calls_cmdSet env cmd
  | get => exact .ite (.untouched _) rfl
  | mget => exact .ite (.untouched _) (mgetLoop_store _ _ _ _)
  | mset => exact .ite (.untouched _) (msetLoop_store _ _)
  | del => exact .ite (.untouched _) (countLoop_store _ .del (fun _ _ => rfl) _ _ _)
  | «exists» =>
    exact .ite (.untouched _)
      (countLoop_store _ (fun k => .exists k env.now) (fun _ _ => rfl) _ _ _)
  | keys => exact .either (.untouched _) (.either (.untouched _) (.untouched _))
  | expire => exact calls_cmdExpire env cmd
  | ttl => exact .ite (.untouched _) rfl
  | pttl => exact .ite (.untouched _) rfl
  | incr => exact .ite (.untouched _) rfl
  | decr => exact .ite (.untouched _) rfl
  | incrby => exact calls_cmdIncrbyGeneric false env cmd
  | decrby => exact calls_cmdIncrbyGeneric true env cmd
  | dbsize => exact .either (.untouched _) (.untouched _)
  | flushdb => exact .ite (.untouched _) rfl
  | save => exact .either (.untouched _) (calls_doSave env)
  | bgsave =>
    exact .either (.untouched _) (.either (.untouched _) (.either (.untouched _) rfl))
  | lastsave => exact .either (.untouched _) (.untouched _)

end Handlers

theorem cmdDispatch_of_lookup {env : Env} {st : CmdState} {cmd : Command} {id : CmdId}
    (h : lookupCommand (argAt cmd 0) = some id) :
    cmdDispatch hash env st cmd = id.handler hash env st cmd := by
  have hne : cmd.length ≠ 0 := by
    intro h0
    have hnone : lookupCommand (argAt [] 0) = none := by decide
    rw [List.length_eq_zero_iff.mp h0, hnone] at h
    cases h
  rw [cmdDispatch, if_neg hne, h]

theorem cmdDispatch_store (env : Env) (st : CmdState) (cmd : Command) :
    (cmdDispatch hash env st cmd).1.store = afterCalls hash st.store (storeCalls env cmd) := by
  unfold cmdDispatch storeCalls
  by_cases hl : cmd.length = 0
  · rw [if_pos hl, List.length_eq_zero_iff.mp hl]
    rfl
  · rw [if_neg hl]
    cases lookupCommand (argAt cmd 0) with
    | none => rfl
    | some id => exact calls_handler id env cmd

theorem cmdDispatch_inv {st : CmdState} (hs : st.store.Inv hash) (env : Env) (cmd : Command) :
    (cmdDispatch hash env st cmd).1.store.Inv hash := by
  rw [cmdDispatch_store]
  exact Machine.run_invariant (P := fun s : Store => s.Inv hash)
    (fun _ op h => (storeStep_spec h op).1) hs _

def StoreOp.NamesOther (k : Bytes) (op : StoreOp) : Prop := ∃ k', op.key? = some k' ∧ k' ≠ k

-- the key and the clock of a call that only looks its key up
def StoreOp.looksUp : StoreOp → Option (Bytes × Int64)
  | .get k now => some (k, now)
  | .exists k now => some (k, now)
  | .ttlMs k now _ => some (k, now)
  | _ => none

theorem KvMap.step_looksUp {m : KvMap} {op : StoreOp} {k : Bytes} {now : Int64}
    (h : op.looksUp = some (k, now)) : (m.step op).1 = m.purge k now := by
  cases op <;> simp only [StoreOp.looksUp, Option.some.injEq, Prod.mk.injEq, reduceCtorEq] at h <;>
    obtain ⟨rfl, rfl⟩ := h
  case get => rfl
  case «exists» => rfl
  case ttlMs =>
    simp only [step, ttlMs]
    split <;> rfl

theorem lookup_afterCalls {s : Store} (hs : s.Inv hash) {k : Bytes} {ops : List StoreOp}
    (h : ∀ op ∈ ops, op.NamesOther k) :
    (afterCalls hash s ops).toMap.lookup k = s.toMap.lookup k := by
  induction ops generalizing s with
  | nil => rfl
  | cons op ops ih =>
    obtain ⟨k', hk, hne⟩ := h op (by simp)
    obtain ⟨hi, hm, -⟩ := storeStep_spec hs op
    have hrest := ih hi (fun o ho => h o (by simp [ho]))
    rw [hm, KvMap.lookup_step_ne s.toMap hk hne.symm] at hrest
    exact hrest

theorem live_afterCalls {s : Store} (hs : s.Inv hash) {k : Bytes} {t : Int64} {ops : List StoreOp}
    (h : ∀ op ∈ ops, op.NamesOther k ∨ ∃ k' now, op.looksUp = some (k', now) ∧ now ≤ t) :
    live expired (afterCalls hash s ops).toMap t k = live expired s.toMap t k := by
  induction ops generalizing s with
  | nil => rfl
  | cons op ops ih =>
    obtain ⟨hi, hm, -⟩ := storeStep_spec hs op
    have hrest := ih hi (fun o ho => h o (by simp [ho]))
    refine Eq.trans hrest ?_
    rw [hm]
    rcases h op (by simp) with ⟨k', hk, hne⟩ | ⟨k', now, hlook, hle⟩
    · exact live_congr (KvMap.lookup_step_ne s.toMap hk hne.symm) t
    · rw [KvMap.step_looksUp hlook]
      exact live_purge expired_mono s.toMap k' k hle

def Elsewhere (k : Bytes) (x : Env × Command) : Prop :=
  ∀ op ∈ storeCalls x.1 x.2, op.NamesOther k

def Unwritten (k : Bytes) (x : Env × Command) : Prop :=
  ∀ op ∈ storeCalls x.1 x.2, op.NamesOther k ∨ ∃ k', op.looksUp = some (k', x.1.now)

theorem run_elsewhere {st : CmdState} (hs : st.store.Inv hash) {k : Bytes}
    {xs : List (Env × Command)} (h : ∀ x ∈ xs, Elsewhere k x) :
    (Machine.run (dispatchStep hash) st xs).1.store.Inv hash ∧
      (Machine.run (dispatchStep hash) st xs).1.store.toMap.lookup k = st.store.toMap.lookup k := by
  induction xs generalizing st with
  | nil => exact ⟨hs, rfl⟩
  | cons x xs ih =>
    obtain ⟨hi, hl⟩ := ih (cmdDispatch_inv hs x.1 x.2) (fun y hy => h y (by simp [hy]))
    rw [cmdDispatch_store, lookup_afterCalls hs (h x (by simp))] at hl
    exact ⟨hi, hl⟩

theorem run_unwritten {st : CmdState} (hs : st.store.Inv hash) {k : Bytes} {t : Int64}
    {xs : List (Env × Command)} (h : ∀ x ∈ xs, Unwritten k x) (ht : ∀ x ∈ xs, x.1.now ≤ t) :
    (Machine.run (dispatchStep hash) st xs).1.store.Inv hash ∧
      live expired (Machine.run (dispatchStep hash) st xs).1.store.toMap t k =
        live expired st.store.toMap t k := by
  induction xs generalizing st with
  | nil => exact ⟨hs, rfl⟩
  | cons x xs ih =>
    obtain ⟨hi, hl⟩ := ih (cmdDispatch_inv hs x.1 x.2) (fun y hy => h y (by simp [hy]))
      (fun y hy => ht y (by simp [hy]))
    have hcalls : ∀ op ∈ storeCalls x.1 x.2,
        op.NamesOther k ∨ ∃ k' now, op.looksUp = some (k', now) ∧ now ≤ t := by
      intro op hop
      refine (h x (by simp) op hop).imp_right ?_
      rintro ⟨k', hk⟩
      exact ⟨k', x.1.now, hk, ht x (by simp)⟩
    rw [cmdDispatch_store, live_afterCalls hs hcalls] at hl
    exact ⟨hi, hl⟩

end RedisServer

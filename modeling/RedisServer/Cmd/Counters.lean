import RedisServer.Lib.Guarded
import RedisServer.Cmd.Readers

namespace RedisServer

open ExpiringMap

variable {hash : Bytes → UInt64}

namespace Checked

open Guarded

-- store_incrby and its callers again, with every int64_t result checked
def int64 (z : Int) : Except Fault Int64 := do
  let v ← Guarded.within Int64.minValue.toInt Int64.maxValue.toInt z
  return Int64.ofInt v

def incrOverflows (current delta : Int64) : Except Fault Bool :=
  if delta > 0 then do
    let room ← int64 (Int64.maxValue.toInt - delta.toInt)
    return current > room
  else if delta < 0 then do
    let room ← int64 (Int64.minValue.toInt - delta.toInt)
    return current < room
  else .ok false

variable (hash)

def storeIncrby (s : Store) (key : Bytes) (delta now : Int64) : Except Fault (Store × StoreIncr) :=
  match locateLive hash (rehashStep hash s) key now with
  | (s, some r) =>
    match Store.parseStrictLl r.entry.val with
    | none => .ok (s, .notInteger)
    | some current => do
      if ← incrOverflows current delta then return (s, .overflow)
      let result ← int64 (current.toInt + delta.toInt)
      return (s.rewrite r (fun e => { e with val := formatLld result }), .ok result)
  | (s, none) => do
    if ← incrOverflows 0 delta then return (s, .overflow)
    let result ← int64 ((0 : Int64).toInt + delta.toInt)
    return ((storeSet hash s key (formatLld result) 0).1, .ok result)

def incrStep (env : Env) (st : CmdState) (key : Bytes) (delta : Int64) :
    Except Fault (CmdState × Bytes) := do
  let r ← storeIncrby hash st.store key delta env.now
  return ({ st with store := r.1 }, replyIncrResult r.2)

def cmdIncrBy (delta : Int64) (env : Env) (st : CmdState) (cmd : Command) :
    Except Fault (CmdState × Bytes) :=
  if cmd.length ≠ 2 then .ok (st, replyWrongArity cmd)
  else incrStep hash env st (argAt cmd 1) delta

def cmdIncrbyGeneric (negate : Bool) (env : Env) (st : CmdState) (cmd : Command) :
    Except Fault (CmdState × Bytes) :=
  if cmd.length ≠ 3 then .ok (st, replyWrongArity cmd)
  else
    match Cmd.parseStrictLl (argAt cmd 2) with
    | none => .ok (st, respReplyError (str "ERR value is not an integer or out of range"))
    | some delta =>
      if negate && delta = Int64.minValue then
        .ok (st, respReplyError (str "ERR increment or decrement would overflow"))
      else do
        let delta ← if negate then int64 (-delta.toInt) else .ok delta
        incrStep hash env st (argAt cmd 1) delta

def counterDispatch (env : Env) (st : CmdState) (cmd : Command) :
    Except Fault (CmdState × Bytes) :=
  match lookupCommand (argAt cmd 0) with
  | some .incr => cmdIncrBy hash 1 env st cmd
  | some .decr => cmdIncrBy hash (-1) env st cmd
  | some .incrby => cmdIncrbyGeneric hash false env st cmd
  | some .decrby => cmdIncrbyGeneric hash true env st cmd
  | _ => .ok (cmdDispatch hash env st cmd)

variable {hash}

theorem int64_eq {z : Int} (h : KvMap.fits z) : int64 z = .ok (Int64.ofInt z) := by
  rw [int64, Guarded.within_eq h]
  rfl

theorem incrOverflows_eq (c d : Int64) :
    incrOverflows c d = .ok (RedisServer.incrOverflows c d) := by
  have hb := toInt_bounds d
  have hsub : ∀ a : Int64, Int64.ofInt (a.toInt - d.toInt) = a - d := by simp
  unfold incrOverflows RedisServer.incrOverflows
  by_cases hpos : d > 0
  · have hneg : ¬ d < 0 := by
      rw [gt_iff_lt, Int64.lt_iff_toInt_lt] at hpos
      rw [Int64.lt_iff_toInt_lt]
      omega
    have hfit : KvMap.fits (Int64.maxValue.toInt - d.toInt) := by
      rw [gt_iff_lt, Int64.lt_iff_toInt_lt, Int64.toInt_zero] at hpos
      exact KvMap.fits_iff.mpr (by rw [Int64.toInt_maxValue]; omega)
    rw [if_pos hpos, int64_eq hfit, hsub]
    simp [hpos, hneg]
  · rw [if_neg hpos]
    by_cases hneg : d < 0
    · have hfit : KvMap.fits (Int64.minValue.toInt - d.toInt) := by
        rw [Int64.lt_iff_toInt_lt, Int64.toInt_zero] at hneg
        exact KvMap.fits_iff.mpr (by rw [Int64.toInt_minValue]; omega)
      rw [if_pos hneg, int64_eq hfit, hsub]
      simp [hpos, hneg]
    · rw [if_neg hneg]
      simp [hpos, hneg]

theorem int64_add {c d : Int64} (h : RedisServer.incrOverflows c d = false) :
    int64 (c.toInt + d.toInt) = .ok (c + d) := by
  have hfit : KvMap.fits (c.toInt + d.toInt) := by
    by_contra hn
    rw [(incrOverflows_iff c d).mpr hn] at h
    cases h
  rw [int64_eq hfit]
  simp

theorem storeIncrby_eq (s : Store) (key : Bytes) (delta now : Int64) :
    storeIncrby hash s key delta now = .ok (RedisServer.storeIncrby hash s key delta now) := by
  unfold storeIncrby RedisServer.storeIncrby
  rcases locateLive hash (rehashStep hash s) key now with ⟨t, _ | r⟩
  · simp only [incrOverflows_eq, ok_bind]
    cases ho : RedisServer.incrOverflows 0 delta with
    | true => rfl
    | false =>
      simp only [int64_add ho]
      rfl
  · cases hp : Store.parseStrictLl r.entry.val with
    | none => simp only [hp]
    | some current =>
      simp only [hp, incrOverflows_eq, ok_bind]
      cases ho : RedisServer.incrOverflows current delta with
      | true => rfl
      | false =>
        simp only [int64_add ho]
        rfl

theorem incrStep_eq (env : Env) (st : CmdState) (key : Bytes) (delta : Int64) :
    incrStep hash env st key delta = .ok (RedisServer.incrStep hash env st key delta) := by
  rw [incrStep, storeIncrby_eq]
  rfl

theorem int64_neg {v : Int64} (h : v ≠ Int64.minValue) : int64 (-v.toInt) = .ok (-v) := by
  have hb := toInt_bounds v
  have hne : v.toInt ≠ -2 ^ 63 := fun hv => h (Int64.toInt_inj.mp hv)
  rw [int64_eq (KvMap.fits_iff.mpr (by omega))]
  simp

theorem cmdIncrbyGeneric_eq (negate : Bool) (env : Env) (st : CmdState) (cmd : Command) :
    cmdIncrbyGeneric hash negate env st cmd =
      .ok (RedisServer.cmdIncrbyGeneric hash negate env st cmd) := by
  unfold cmdIncrbyGeneric RedisServer.cmdIncrbyGeneric
  by_cases hlen : cmd.length ≠ 3
  · rw [if_pos hlen, if_pos hlen]
  · rw [if_neg hlen, if_neg hlen]
    cases Cmd.parseStrictLl (argAt cmd 2) with
    | none => rfl
    | some delta =>
      cases negate with
      | false => exact incrStep_eq env st _ _
      | true =>
        by_cases hmin : delta = Int64.minValue
        · simp [hmin]
        · simp only [hmin, int64_neg hmin, incrStep_eq, Bool.true_and, decide_false,
            Bool.false_eq_true, if_false, if_true, ok_bind]

theorem counterDispatch_eq (env : Env) (st : CmdState) (cmd : Command) :
    counterDispatch hash env st cmd = .ok (cmdDispatch hash env st cmd) := by
  have hincr : ∀ d : Int64, cmdIncrBy hash d env st cmd =
      .ok (if cmd.length ≠ 2 then (st, replyWrongArity cmd)
        else RedisServer.incrStep hash env st (argAt cmd 1) d) := by
    intro d
    unfold cmdIncrBy
    split_ifs
    · rfl
    · exact incrStep_eq env st _ d
  unfold counterDispatch
  split
  case h_1 hl => rw [hincr, cmdDispatch_of_lookup hl]; rfl
  case h_2 hl => rw [hincr, cmdDispatch_of_lookup hl]; rfl
  case h_3 hl => rw [cmdIncrbyGeneric_eq, cmdDispatch_of_lookup hl]; rfl
  case h_4 hl => rw [cmdIncrbyGeneric_eq, cmdDispatch_of_lookup hl]; rfl
  case h_5 => rfl

end Checked

def counterIds : List CmdId := [.incr, .decr, .incrby, .decrby]

def IsCounter (k : Bytes) (cmd : Command) : Prop :=
  (∃ id ∈ counterIds, lookupCommand (argAt cmd 0) = some id) ∧ argAt cmd 1 = k

instance (k : Bytes) (cmd : Command) : Decidable (IsCounter k cmd) :=
  inferInstanceAs (Decidable (_ ∧ _))

-- the number a counter command gives and whether the command takes its negative
structure CounterRequest where
  negate : Bool
  arg : Int64
  deriving DecidableEq, Repr

namespace CounterRequest

def delta (r : CounterRequest) : Int := if r.negate then -r.arg.toInt else r.arg.toInt

def delta64 (r : CounterRequest) : Int64 := if r.negate then -r.arg else r.arg

def NegatesMin (r : CounterRequest) : Prop := r.negate = true ∧ r.arg = Int64.minValue

instance (r : CounterRequest) : Decidable r.NegatesMin := inferInstanceAs (Decidable (_ ∧ _))

end CounterRequest

-- none stands for a command with the wrong number of arguments or no int64 where one is due
def counterRequest (cmd : Command) : Option CounterRequest :=
  match lookupCommand (argAt cmd 0) with
  | some .incr => if cmd.length ≠ 2 then none else some ⟨false, 1⟩
  | some .decr => if cmd.length ≠ 2 then none else some ⟨false, -1⟩
  | some .incrby =>
    if cmd.length ≠ 3 then none
    else (Cmd.parseStrictLl (argAt cmd 2)).map (CounterRequest.mk false)
  | some .decrby =>
    if cmd.length ≠ 3 then none
    else (Cmd.parseStrictLl (argAt cmd 2)).map (CounterRequest.mk true)
  | _ => none

-- the variable current of store_incrby
def counterCurrent : Option (Bytes × Int64) → Option Int64
  | none => some 0
  | some p => strictLl p.1

def counterExpiry : Option (Bytes × Int64) → Int64
  | none => 0
  | some p => p.2

def overflowReply : Bytes := respReplyError (str "ERR increment or decrement would overflow")

-- the deltas of the counter commands on k that a log of commands and replies shows as accepted
def acceptedDeltas (k : Bytes) (log : List ((Env × Command) × Bytes)) : List Int :=
  log.filterMap (fun x =>
    if IsCounter k x.1.2 ∧ ¬ IsErrorReply x.2 then (counterRequest x.1.2).map CounterRequest.delta
    else none)

def dispatchLog (hash : Bytes → UInt64) (st : CmdState) (xs : List (Env × Command)) :
    List ((Env × Command) × Bytes) := xs.zip (Machine.run (dispatchStep hash) st xs).2

structure CountsExactly (hash : Bytes → UInt64) (k : Bytes) (sum : Int) (e : Int64) (st : CmdState)
    (x : Env × Command) : Prop where
  current : (counterCurrent (live expired st.store.toMap x.1.now k)).map Int64.toInt = some sum
  expiry : counterExpiry (live expired st.store.toMap x.1.now k) = e
  invalid : counterRequest x.2 = none → IsErrorReply (dispatchStep hash st x).2
  overflow : ∀ r, counterRequest x.2 = some r →
    ((dispatchStep hash st x).2 = overflowReply ↔
      ¬ KvMap.fits (sum + r.delta) ∨ r.NegatesMin)
  rejected : IsErrorReply (dispatchStep hash st x).2 →
    (dispatchStep hash st x).1.store.toMap.lookup k = st.store.toMap.lookup k
  accepted : ∀ r, counterRequest x.2 = some r → (dispatchStep hash st x).2 ≠ overflowReply →
    (dispatchStep hash st x).2 = integerReply (sum + r.delta) ∧
    (dispatchStep hash st x).1.store.toMap.lookup k = some (Decimal.ofInt (sum + r.delta), e) ∧
    (strictLl (Decimal.ofInt (sum + r.delta))).map Int64.toInt = some (sum + r.delta)
  arithmetic : Checked.counterDispatch hash x.1 st x.2 = .ok (dispatchStep hash st x)

-- how a counter command with the request q on the key k is answered
def CounterAnswer (hash : Bytes → UInt64) (env : Env) (st : CmdState) (k : Bytes)
    (q : Option CounterRequest) (x : CmdState × Bytes) : Prop :=
  match q with
  | none => x.1 = st ∧ IsErrorReply x.2
  | some r =>
    (r.NegatesMin → x = (st, overflowReply)) ∧
      (¬ r.NegatesMin → x = incrStep hash env st k r.delta64)

section Handlers

variable (env : Env) (st : CmdState) (cmd : Command)

theorem counterAnswer_step (v : Int64) (h : v ≠ Int64.minValue) :
    CounterAnswer hash env st (argAt cmd 1) (if cmd.length ≠ 2 then none else some ⟨false, v⟩)
      (if cmd.length ≠ 2 then (st, replyWrongArity cmd)
        else incrStep hash env st (argAt cmd 1) v) := by
  split_ifs
  · exact ⟨rfl, rfl⟩
  · exact ⟨fun hm => absurd hm.2 h, fun _ => rfl⟩

theorem counterAnswer_generic (negate : Bool) :
    CounterAnswer hash env st (argAt cmd 1)
      (if cmd.length ≠ 3 then none
        else (Cmd.parseStrictLl (argAt cmd 2)).map (CounterRequest.mk negate))
      (cmdIncrbyGeneric hash negate env st cmd) := by
  unfold cmdIncrbyGeneric
  by_cases hlen : cmd.length ≠ 3
  · rw [if_pos hlen, if_pos hlen]
    exact ⟨rfl, rfl⟩
  rw [if_neg hlen, if_neg hlen]
  cases Cmd.parseStrictLl (argAt cmd 2) with
  | none => exact ⟨rfl, rfl⟩
  | some v =>
    have hguard : (negate && decide (v = Int64.minValue)) = true ↔
        CounterRequest.NegatesMin ⟨negate, v⟩ := by
      simp [CounterRequest.NegatesMin]
    exact ⟨fun hm => if_pos (hguard.mpr hm), fun hm => if_neg (mt hguard.mp hm)⟩

theorem counterAnswer_dispatch {k : Bytes} {cmd : Command} (hk : IsCounter k cmd) :
    CounterAnswer hash env st k (counterRequest cmd) (cmdDispatch hash env st cmd) := by
  obtain ⟨⟨id, hid, hl⟩, rfl⟩ := hk
  rw [cmdDispatch_of_lookup hl]
  simp only [counterRequest, hl]
  simp only [counterIds, List.mem_cons, List.not_mem_nil, or_false] at hid
  rcases hid with rfl | rfl | rfl | rfl
  · exact counterAnswer_step env st cmd 1 (by decide)
  · exact counterAnswer_step env st cmd (-1) (by decide)
  · exact counterAnswer_generic env st cmd false
  · exact counterAnswer_generic env st cmd true

end Handlers

theorem CounterRequest.toInt_delta64 {r : CounterRequest} (h : ¬ r.NegatesMin) :
    r.delta64.toInt = r.delta := by
  obtain ⟨negate, v⟩ := r
  cases negate with
  | false => rfl
  | true =>
    have hb := toInt_bounds v
    have hne : v.toInt ≠ -2 ^ 63 := by
      intro hv
      apply h
      exact ⟨rfl, Int64.toInt_inj.mp hv⟩
    simp only [delta64, delta, if_true, Int64.toInt_neg]
    exact Int.bmod_eq_of_le (by omega) (by omega)

theorem KvMap.incrby_eq_add {m : KvMap} {k : Bytes} {now c : Int64}
    (h : counterCurrent (live expired m now k) = some c) (d : Int64) :
    m.incrby k d now = (m.purge k now).add k c d (counterExpiry (live expired m now k)) := by
  rw [incrby, purge, lookup_purge]
  cases hl : live expired m now k with
  | none =>
    rw [hl] at h
    cases h
    rfl
  | some p =>
    rw [hl] at h
    simp only [counterCurrent] at h
    simp only [h]
    rfl

theorem lookup_purge_of_live {m : KvMap} {k : Bytes} {now : Int64} {p : Bytes × Int64}
    (h : live expired m now k = some p) : (m.purge k now).lookup k = m.lookup k := by
  rw [KvMap.purge, lookup_purge, h]
  exact (Option.filter_eq_some_iff.mp h).1.symm

theorem integerReply_ne_overflowReply (z : Int) : integerReply z ≠ overflowReply := by
  simp [integerReply, overflowReply, respReplyError]

theorem strictLl_ofInt {z : Int} (h : KvMap.fits z) :
    (strictLl (Decimal.ofInt z)).map Int64.toInt = some z := by
  have hz := toInt_ofInt_of_fits h
  have hs := strictLl_formatLld (Int64.ofInt z)
  rw [formatLld, hz] at hs
  rw [hs, Option.map_some, hz]

theorem strictLl_int_iff (s : Bytes) (z : Int) :
    (strictLl s).map Int64.toInt = some z ↔
      s.length ≤ 20 ∧ SignedNumeral s z ∧ KvMap.fits z := by
  constructor
  · intro h
    obtain ⟨v, hv, rfl⟩ := Option.map_eq_some_iff.mp h
    obtain ⟨hlen, hnum⟩ := (strictLl_iff s v).mp hv
    exact ⟨hlen, hnum, fits_toInt v⟩
  · rintro ⟨hlen, hnum, hz⟩
    have hv := toInt_ofInt_of_fits hz
    rw [← hv] at hnum
    rw [(strictLl_iff s (Int64.ofInt z)).mpr ⟨hlen, hnum⟩, Option.map_some, hv]

-- store.c and cmd.c read the same integers, and %lld prints what they read back
theorem parseStrictLl_exact :
    (∀ s, Store.parseStrictLl s = Cmd.parseStrictLl s) ∧
    (∀ s z, (Store.parseStrictLl s).map Int64.toInt = some z ↔
      s.length ≤ 20 ∧ SignedNumeral s z ∧ KvMap.fits z) ∧
    ∀ v, Store.parseStrictLl (formatLld v) = some v :=
  ⟨fun _ => rfl, strictLl_int_iff, strictLl_formatLld⟩

section Step

variable {st : CmdState} (hs : st.store.Inv hash) {k : Bytes}
include hs

theorem incrStep_accepts {env : Env} {c d : Int64}
    (hc : counterCurrent (live expired st.store.toMap env.now k) = some c)
    (hf : KvMap.fits (c.toInt + d.toInt)) :
    (incrStep hash env st k d).2 = integerReply (c.toInt + d.toInt) ∧
      (incrStep hash env st k d).1.store.toMap.lookup k =
        some (Decimal.ofInt (c.toInt + d.toInt),
          counterExpiry (live expired st.store.toMap env.now k)) := by
  obtain ⟨-, hm, hr⟩ := storeIncrby_spec hs k d env.now
  rw [KvMap.incrby_eq_add hc, KvMap.add, if_pos hf] at hm hr
  simp only [incrStep]
  rw [hm, hr]
  exact ⟨respReplyInteger_ofInt hf, Finmap.lookup_insert _⟩

theorem incrStep_rejects {env : Env} {c d : Int64}
    (hc : counterCurrent (live expired st.store.toMap env.now k) = some c)
    (hf : ¬ KvMap.fits (c.toInt + d.toInt)) :
    (incrStep hash env st k d).2 = overflowReply ∧
      (incrStep hash env st k d).1.store.toMap.lookup k = st.store.toMap.lookup k := by
  obtain ⟨-, hm, hr⟩ := storeIncrby_spec hs k d env.now
  rw [KvMap.incrby_eq_add hc, KvMap.add, if_neg hf] at hm hr
  simp only [incrStep]
  rw [hm, hr]
  refine ⟨rfl, ?_⟩
  cases hl : live expired st.store.toMap env.now k with
  | none =>
    -- a missing key counts as 0, and 0 + d never leaves int64
    rw [hl] at hc
    cases hc
    rw [Int64.toInt_zero, Int.zero_add] at hf
    exact absurd (fits_toInt d) hf
  | some p => exact lookup_purge_of_live hl

theorem counter_answered {x : Env × Command} {c : Int64} {r : CounterRequest}
    (hk : IsCounter k x.2) (hq : counterRequest x.2 = some r)
    (hc : counterCurrent (live expired st.store.toMap x.1.now k) = some c) :
    ((¬ KvMap.fits (c.toInt + r.delta) ∨ r.NegatesMin) ∧
      (dispatchStep hash st x).2 = overflowReply ∧
      (dispatchStep hash st x).1.store.toMap.lookup k = st.store.toMap.lookup k) ∨
    (¬ (¬ KvMap.fits (c.toInt + r.delta) ∨ r.NegatesMin) ∧
      (dispatchStep hash st x).2 = integerReply (c.toInt + r.delta) ∧
      (dispatchStep hash st x).1.store.toMap.lookup k =
        some (Decimal.ofInt (c.toInt + r.delta),
          counterExpiry (live expired st.store.toMap x.1.now k))) := by
  have ha := @counterAnswer_dispatch hash x.1 st k x.2 hk
  rw [hq] at ha
  by_cases hmin : r.NegatesMin
  · refine .inl ⟨.inr hmin, ?_⟩
    rw [dispatchStep, ha.1 hmin]
    exact ⟨rfl, rfl⟩
  · have hd := CounterRequest.toInt_delta64 hmin
    rw [dispatchStep, ha.2 hmin, ← hd]
    by_cases hf : KvMap.fits (c.toInt + r.delta64.toInt)
    · exact .inr ⟨by simp [hf, hmin], incrStep_accepts hs hc hf⟩
    · exact .inl ⟨.inl hf, incrStep_rejects hs hc hf⟩

theorem countsExactly_step {x : Env × Command} {sum : Int} {e : Int64} (hk : IsCounter k x.2)
    (hcur : (counterCurrent (live expired st.store.toMap x.1.now k)).map Int64.toInt = some sum)
    (he : counterExpiry (live expired st.store.toMap x.1.now k) = e) :
    CountsExactly hash k sum e st x := by
  obtain ⟨c, hc, rfl⟩ := Option.map_eq_some_iff.mp hcur
  have hinvalid := @counterAnswer_dispatch hash x.1 st k x.2 hk
  refine ⟨hcur, he, fun hq => ?_, fun r hq => ?_, fun herr => ?_, fun r hq hne => ?_,
    Checked.counterDispatch_eq x.1 st x.2⟩
  · rw [hq] at hinvalid
    exact hinvalid.2
  · rcases counter_answered hs hk hq hc with ⟨hcond, hreply, -⟩ | ⟨hcond, hreply, -⟩
    · exact iff_of_true hreply hcond
    · rw [hreply]
      exact iff_of_false (integerReply_ne_overflowReply _) hcond
  · cases hq : counterRequest x.2 with
    | none =>
      rw [hq] at hinvalid
      rw [dispatchStep, hinvalid.1]
    | some r =>
      rcases counter_answered hs hk hq hc with ⟨-, -, hkeep⟩ | ⟨-, hreply, -⟩
      · exact hkeep
      · rw [hreply] at herr
        simp [IsErrorReply, integerReply] at herr
  · rcases counter_answered hs hk hq hc with ⟨-, hreply, -⟩ | ⟨hcond, hreply, hstored⟩
    · exact absurd hreply hne
    · rw [not_or, not_not] at hcond
      rw [he] at hstored
      exact ⟨hreply, hstored, strictLl_ofInt hcond.1⟩

end Step

def CounterAt (m : KvMap) (k : Bytes) (v : Int) (e t : Int64) : Prop :=
  (counterCurrent (live expired m t k)).map Int64.toInt = some v ∧
    counterExpiry (live expired m t k) = e

theorem CounterAt.not_expired {m : KvMap} {k : Bytes} {v : Int} {e t : Int64}
    (h : CounterAt m k v e t) : expired e t = false := by
  rw [← h.2]
  cases hl : live expired m t k with
  | none => rfl
  | some p =>
    have hp := (Option.filter_eq_some_iff.mp hl).2
    simpa [counterExpiry] using hp

theorem CounterAt.congr {m m' : KvMap} {k : Bytes} {v : Int} {e t : Int64}
    (h : CounterAt m k v e t) (hm : m'.lookup k = m.lookup k) : CounterAt m' k v e t := by
  rw [CounterAt, live_congr hm]
  exact h

theorem acceptedDeltas_cons (k : Bytes) (a : (Env × Command) × Bytes)
    (log : List ((Env × Command) × Bytes)) :
    acceptedDeltas k (a :: log) = acceptedDeltas k [a] ++ acceptedDeltas k log :=
  List.filterMap_append (l := [a])

theorem counterAt_step {st : CmdState} (hs : st.store.Inv hash) {k : Bytes} {y : Env × Command}
    (hmix : IsCounter k y.2 ∨ Elsewhere k y) {v : Int} {e t : Int64}
    (hy : CounterAt st.store.toMap k v e y.1.now) (ht : CounterAt st.store.toMap k v e t) :
    CounterAt (dispatchStep hash st y).1.store.toMap k
      (v + (acceptedDeltas k [(y, (dispatchStep hash st y).2)]).sum) e t := by
  by_cases hk : IsCounter k y.2
  · have hstep := countsExactly_step hs hk hy.1 hy.2
    by_cases herr : IsErrorReply (dispatchStep hash st y).2
    · have hnone : acceptedDeltas k [(y, (dispatchStep hash st y).2)] = [] := by
        simp [acceptedDeltas, herr]
      rw [hnone, List.sum_nil, Int.add_zero]
      exact ht.congr (hstep.rejected herr)
    · obtain ⟨r, hr⟩ := Option.ne_none_iff_exists'.mp (mt hstep.invalid herr)
      have hdelta : acceptedDeltas k [(y, (dispatchStep hash st y).2)] = [r.delta] := by
        simp [acceptedDeltas, herr, hk, hr]
      have hne : (dispatchStep hash st y).2 ≠ overflowReply := by
        intro hover
        rw [hover] at herr
        exact herr rfl
      obtain ⟨-, hstored, hparse⟩ := hstep.accepted r hr hne
      have hlive : live expired (dispatchStep hash st y).1.store.toMap t k =
          some (Decimal.ofInt (v + r.delta), e) := by
        rw [live, hstored]
        simp [ht.not_expired]
      rw [hdelta, List.sum_singleton, CounterAt, hlive]
      exact ⟨hparse, rfl⟩
  · have hnone : acceptedDeltas k [(y, (dispatchStep hash st y).2)] = [] := by
      simp [acceptedDeltas, hk]
    rw [hnone, List.sum_nil, Int.add_zero]
    apply ht.congr
    rw [dispatchStep, cmdDispatch_store]
    exact lookup_afterCalls hs (hmix.resolve_left hk)

theorem countsExactly_run {st : CmdState} (hs : st.store.Inv hash) {k : Bytes} {v : Int} {e : Int64}
    {pre post : List (Env × Command)} {x : Env × Command}
    (hmix : ∀ y ∈ pre ++ x :: post, IsCounter k y.2 ∨ Elsewhere k y)
    (hat : ∀ y ∈ pre ++ x :: post, CounterAt st.store.toMap k v e y.1.now) (hk : IsCounter k x.2) :
    CountsExactly hash k (v + (acceptedDeltas k (dispatchLog hash st pre)).sum) e
      (Machine.run (dispatchStep hash) st pre).1 x := by
  induction pre generalizing st v with
  | nil =>
    obtain ⟨hcur, he⟩ := hat x (by simp)
    have hstep := countsExactly_step hs hk hcur he
    rwa [← Int.add_zero v] at hstep
  | cons y pre ih =>
    have hnext : ∀ z ∈ pre ++ x :: post,
        CounterAt (dispatchStep hash st y).1.store.toMap k
          (v + (acceptedDeltas k [(y, (dispatchStep hash st y).2)]).sum) e z.1.now := by
      intro z hz
      exact counterAt_step hs (hmix y (by simp)) (hat y (by simp)) (hat z (by simp [hz]))
    have hrest := ih (cmdDispatch_inv hs y.1 y.2) (fun z hz => hmix z (by simp [hz])) hnext
    rw [Int.add_assoc, ← List.sum_append, ← acceptedDeltas_cons] at hrest
    exact hrest

theorem counters_account_exactly {st : CmdState} (hs : StoreReachable hash st.store) {k : Bytes}
    {cur : Option (Bytes × Int64)} {v0 : Int64} {xs : List (Env × Command)}
    (hcur : ∀ y ∈ xs, live expired st.store.toMap y.1.now k = cur)
    (hv : counterCurrent cur = some v0) (hmix : ∀ y ∈ xs, IsCounter k y.2 ∨ Elsewhere k y)
    {pre post : List (Env × Command)} {x : Env × Command} (hx : xs = pre ++ x :: post)
    (hk : IsCounter k x.2) :
    CountsExactly hash k (v0.toInt + (acceptedDeltas k (dispatchLog hash st pre)).sum)
      (counterExpiry cur) (Machine.run (dispatchStep hash) st pre).1 x := by
  subst hx
  apply countsExactly_run hs.inv hmix _ hk
  intro y hy
  rw [CounterAt, hcur y hy, hv]
  exact ⟨rfl, rfl⟩

def counterOps : List StoreOp :=
  [.set (str "n") (str "9223372036854775806") 100, .set (str "a") (str "1") 0,
    .set (str "b") (str "2") 0, .set (str "c") (str "3") 0]

def counterState : CmdState := ⟨(Machine.run (storeStep fnv1aHash) storeCreate counterOps).1, [], 0⟩

theorem counterState_reachable : StoreReachable fnv1aHash counterState.store := by
  dsimp only [counterState]
  exact ⟨counterOps, rfl⟩

def counterEnv (now : Int64) : Env := ⟨now, 0, .ok, false⟩

def counterRun : List (Env × Command) :=
  [(counterEnv 7, [str "INCR", str "n"]), (counterEnv 8, [str "SET", str "d", str "4"]),
    (counterEnv 9, [str "incr", str "n"]),
    (counterEnv 9, [str "DECRBY", str "n", str "-9223372036854775808"])]

theorem counters_account_exactly_at_max :
    isRehashing counterState.store = true ∧
      (Machine.run (dispatchStep fnv1aHash) counterState counterRun).2 =
        [str ":9223372036854775807\r\n", str "+OK\r\n", overflowReply, overflowReply] ∧
      CountsExactly fnv1aHash (str "n") 9223372036854775807 100
        (Machine.run (dispatchStep fnv1aHash) counterState counterRun).1
        (counterEnv 9, [str "DECR", str "n"]) := by
  have hset : storeCalls (counterEnv 8) [str "SET", str "d", str "4"] =
      [.set (str "d") (str "4") 0] := by decide +kernel
  have hother : Elsewhere (str "n") (counterEnv 8, [str "SET", str "d", str "4"]) := by
    intro op hop
    rw [hset, List.mem_singleton] at hop
    exact ⟨str "d", by rw [hop]; rfl, by decide⟩
  have hmix : ∀ y ∈ counterRun ++ [(counterEnv 9, [str "DECR", str "n"])],
      IsCounter (str "n") y.2 ∨ Elsewhere (str "n") y := by
    simp only [counterRun, List.cons_append, List.nil_append, List.forall_mem_cons]
    exact ⟨.inl (by decide +kernel), .inr hother, .inl (by decide +kernel),
      .inl (by decide +kernel), .inl (by decide +kernel), by simp⟩
  have hcur : ∀ y ∈ counterRun ++ [(counterEnv 9, [str "DECR", str "n"])],
      live expired counterState.store.toMap y.1.now (str "n") =
        some (str "9223372036854775806", 100) := by decide +kernel
  have hv : counterCurrent (some (str "9223372036854775806", 100)) =
      some 9223372036854775806 := by decide +kernel
  have h := counters_account_exactly counterState_reachable hcur hv hmix rfl (by decide +kernel)
  have hsum : acceptedDeltas (str "n") (dispatchLog fnv1aHash counterState counterRun) = [1] := by
    decide +kernel
  rw [hsum] at h
  exact ⟨by decide +kernel, by decide +kernel, h⟩

end RedisServer

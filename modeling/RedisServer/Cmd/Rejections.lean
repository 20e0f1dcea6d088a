import RedisServer.Cmd.Handlers
import RedisServer.Store.LiveView

namespace RedisServer

open ExpiringMap

variable {hash : Bytes → UInt64}

def IsErrorReply (reply : Bytes) : Prop := reply.head? = some 45

instance (reply : Bytes) : Decidable (IsErrorReply reply) := inferInstanceAs (Decidable (_ = _))

theorem not_error_simpleString (s : Bytes) : ¬ IsErrorReply (respReplySimpleString s) := by
  simp [IsErrorReply, respReplySimpleString]

theorem not_error_integer (v : Int64) : ¬ IsErrorReply (respReplyInteger v) := by
  simp [IsErrorReply, respReplyInteger]

theorem not_error_bulkString (s : Bytes) : ¬ IsErrorReply (respReplyBulkString s) := by
  simp [IsErrorReply, respReplyBulkString]

theorem not_error_arrayHeader (n : Nat) (rest : Bytes) :
    ¬ IsErrorReply (respReplyArrayHeader n ++ rest) := by
  simp [IsErrorReply, respReplyArrayHeader]

theorem not_error_replyValue (v : Option Bytes) : ¬ IsErrorReply (replyValue v) := by
  cases v with
  | none => decide
  | some val => exact not_error_bulkString val

theorem not_error_replyTtl (ttlMs : Int64) (wantMs : Bool) : ¬ IsErrorReply (replyTtl ttlMs wantMs) := by
  unfold replyTtl
  split_ifs <;> exact not_error_integer _

-- what a handler may have made of the state st when it answers with an error at time now
def Spared (now : Int64) (st : CmdState) (r : CmdState × Bytes) : Prop :=
  IsErrorReply r.2 → ∀ t, now ≤ t → Agree expired st.store.toMap r.1.store.toMap t

namespace Spared

variable {now : Int64} {st : CmdState}

theorem same {st' : CmdState} (h : st'.store = st.store) (reply : Bytes) :
    Spared now st (st', reply) := by
  intro _ t _ k
  rw [h]

theorem untouched (reply : Bytes) : Spared now st (st, reply) := same rfl reply

theorem accepted {r : CmdState × Bytes} (h : ¬ IsErrorReply r.2) : Spared now st r :=
  fun he => absurd he h

theorem ite {c : Prop} [Decidable c] {x y : CmdState × Bytes} (hx : Spared now st x)
    (hy : Spared now st y) : Spared now st (if c then x else y) := by
  split_ifs
  · exact hx
  · exact hy

end Spared

theorem KvMap.add_of_not_ok {m : KvMap} {k : Bytes} {c d e : Int64}
    (h : ∀ v, (m.add k c d e).2 ≠ .ok v) : (m.add k c d e).1 = m := by
  unfold add at h ⊢
  split_ifs at h ⊢ with hf
  · exact absurd rfl (h _)
  · rfl

theorem KvMap.incrby_of_not_ok {m : KvMap} {k : Bytes} {d now : Int64}
    (h : ∀ v, (m.incrby k d now).2 ≠ .ok v) : (m.incrby k d now).1 = m.purge k now := by
  unfold incrby at h ⊢
  cases hl : (m.purge k now).lookup k with
  | none =>
    rw [hl] at h
    exact add_of_not_ok h
  | some p =>
    rw [hl] at h
    cases hp : strictLl p.1 with
    | none => simp only [hp]
    | some c =>
      simp only [hp] at h ⊢
      exact add_of_not_ok h

theorem spared_incrStep {st : CmdState} (hs : st.store.Inv hash) (env : Env) (key : Bytes)
    (delta : Int64) : Spared env.now st (incrStep hash env st key delta) := by
  obtain ⟨-, hm, hr⟩ := storeIncrby_spec hs key delta env.now
  intro herr t ht k
  have hfail : ∀ v, (st.store.toMap.incrby key delta env.now).2 ≠ .ok v := by
    intro v hv
    rw [← hr] at hv
    rw [incrStep, hv] at herr
    exact not_error_integer v herr
  change _ = live expired (storeIncrby hash st.store key delta env.now).1.toMap t k
  rw [hm, KvMap.incrby_of_not_ok hfail]
  exact (live_purge expired_mono st.store.toMap key k ht).symm

theorem not_error_mgetLoop (now : Int64) (keys : List Bytes) (s : Store) (n : Nat) (rest : Bytes) :
    ¬ IsErrorReply (mgetLoop hash now keys s (respReplyArrayHeader n ++ rest)).2 := by
  induction keys generalizing s rest with
  | nil => exact not_error_arrayHeader n rest
  | cons k keys ih =>
    rw [mgetLoop, List.append_assoc]
    exact ih _ _

theorem spared_cmdSet (env : Env) (st : CmdState) (cmd : Command) :
    Spared env.now st (cmdSet hash env st cmd) := by
  apply Spared.ite (.untouched _)
  cases setExpiry env cmd with
  | error msg => exact .untouched _
  | ok expireAtMs => exact .accepted (not_error_simpleString _)

theorem spared_cmdExpire (env : Env) (st : CmdState) (cmd : Command) :
    Spared env.now st (cmdExpire hash env st cmd) := by
  apply Spared.ite (.untouched _)
  cases Cmd.parseStrictLl (argAt cmd 2) with
  | none => exact .untouched _
  | some seconds => exact .accepted (not_error_integer _)

theorem spared_cmdIncrbyGeneric {st : CmdState} (hs : st.store.Inv hash) (negate : Bool)
    (env : Env) (cmd : Command) : Spared env.now st (cmdIncrbyGeneric hash negate env st cmd) := by
  apply Spared.ite (.untouched _)
  cases Cmd.parseStrictLl (argAt cmd 2) with
  | none => exact .untouched _
  | some delta => exact .ite (.untouched _) (spared_incrStep hs env _ _)

theorem spared_cmdTtlGeneric (wantMs : Bool) (env : Env) (st : CmdState) (cmd : Command) :
    Spared env.now st (cmdTtlGeneric hash wantMs env st cmd) :=
  .ite (.untouched _) (.accepted (not_error_replyTtl _ _))

theorem spared_doSave (env : Env) (st : CmdState) : Spared env.now st (doSave env st) :=
  .ite (.untouched _) (.ite (.untouched _) (.same rfl _))

theorem spared_handler {st : CmdState} (hs : st.store.Inv hash) (cid : CmdId) (env : Env)
    (cmd : Command) : Spared env.now st (cid.handler hash env st cmd) := by
  cases cid with
  | ping => exact .ite (.untouched _) (.ite (.untouched _) (.untouched _))
  | echo => exact .ite (.untouched _) (.untouched _)
  | set => exact spared_cmdSet env st cmd
  | get => exact .ite (.untouched _) (.accepted (not_error_replyValue _))
  | mget =>
    apply Spared.ite (.untouched _)
    have h := @not_error_mgetLoop hash env.now (cmd.drop 1) st.store (cmd.length - 1) []
    rw [List.append_nil] at h
    exact .accepted h
  | mset => exact .ite (.untouched _) (.accepted (not_error_simpleString _))
  | del => exact .ite (.untouched _) (.accepted (not_error_integer _))
  | «exists» => exact .ite (.untouched _) (.accepted (not_error_integer _))
  | keys => exact .ite (.untouched _) (.ite (.untouched _) (.untouched _))
  | expire => exact spared_cmdExpire env st cmd
  | ttl => exact spared_cmdTtlGeneric false env st cmd
  | pttl => exact spared_cmdTtlGeneric true env st cmd
  | incr => exact .ite (.untouched _) (spared_incrStep hs env _ _)
  | decr => exact .ite (.untouched _) (spared_incrStep hs env _ _)
  | incrby => exact spared_cmdIncrbyGeneric hs false env cmd
  | decrby => exact spared_cmdIncrbyGeneric hs true env cmd
  | dbsize => exact .ite (.untouched _) (.untouched _)
  | flushdb => exact .ite (.untouched _) (.accepted (not_error_simpleString _))
  | save => exact .ite (.untouched _) (spared_doSave env st)
  | bgsave => exact .ite (.untouched _) (.ite (.untouched _) (.ite (.untouched _) (.same rfl _)))
  | lastsave => exact .ite (.untouched _) (.untouched _)

theorem error_reply_keeps_live_contents {st : CmdState} (hs : StoreReachable hash st.store)
    (env : Env) (cmd : Command) (herr : IsErrorReply (cmdDispatch hash env st cmd).2) (t : Int64)
    (ht : env.now ≤ t) :
    Agree expired st.store.toMap (cmdDispatch hash env st cmd).1.store.toMap t := by
  have h : Spared env.now st (cmdDispatch hash env st cmd) := by
    apply Spared.ite (.untouched _)
    cases lookupCommand (argAt cmd 0) with
    | none => exact .untouched _
    | some cid => exact spared_handler hs.inv cid env cmd
  exact h herr t ht

def wordOps : List StoreOp :=
  [.set (str "a") (str "1") 0, .set (str "b") (str "two") 0, .set (str "c") (str "3") 5,
    .set (str "d") (str "4") 0]

def wordState : CmdState := ⟨(Machine.run (storeStep fnv1aHash) storeCreate wordOps).1, [], 0⟩

def wordEnv : Env := ⟨7, 0, .ok, false⟩

theorem error_reply_keeps_live_contents_incr :
    isRehashing wordState.store = true ∧
      (cmdDispatch fnv1aHash wordEnv wordState [str "incr", str "b"]).1.store ≠ wordState.store ∧
      Agree expired wordState.store.toMap
        (cmdDispatch fnv1aHash wordEnv wordState [str "incr", str "b"]).1.store.toMap 9 := by
  have herr : IsErrorReply (cmdDispatch fnv1aHash wordEnv wordState [str "incr", str "b"]).2 := by
    decide +kernel
  have hs : StoreReachable fnv1aHash wordState.store := by
    dsimp only [wordState]
    exact ⟨wordOps, rfl⟩
  have hbusy : isRehashing wordState.store = true := by decide +kernel
  have hmoved : (cmdDispatch fnv1aHash wordEnv wordState [str "incr", str "b"]).1.store ≠
      wordState.store := by decide +kernel
  exact ⟨hbusy, hmoved, error_reply_keeps_live_contents hs wordEnv _ herr 9 (by decide)⟩

end RedisServer

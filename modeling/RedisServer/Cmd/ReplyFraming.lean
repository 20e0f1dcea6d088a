import RedisServer.Cmd.Handlers
import RedisServer.Resp.Value
import RedisServer.Lib.Machine

namespace RedisServer

open PrefixCode

variable (hash : Bytes → UInt64)

instance (s : Bytes) : Decidable (IsLine s) := inferInstanceAs (Decidable (_ ∧ _))

theorem IsLine.append {s t : Bytes} (hs : IsLine s) (ht : IsLine t) : IsLine (s ++ t) := by
  simp only [IsLine, List.mem_append, not_or]
  exact ⟨⟨hs.1, ht.1⟩, hs.2, ht.2⟩

theorem IsLine.take {s : Bytes} (hs : IsLine s) (n : Nat) : IsLine (s.take n) :=
  ⟨fun h => hs.1 (List.mem_of_mem_take h), fun h => hs.2 (List.mem_of_mem_take h)⟩

theorem tolower_toNat_ge {c : UInt8} (h : ¬ c < 0x20) : 32 ≤ (tolower c).toNat := by
  simp only [UInt8.lt_iff_toNat_lt, UInt8.toNat_ofNat, Nat.not_lt] at h
  unfold tolower
  split_ifs with hc
  · simp only [UInt8.le_iff_toNat_le, UInt8.toNat_ofNat] at hc
    rw [UInt8.toNat_add]
    simp only [UInt8.toNat_ofNat]
    omega
  · omega

theorem isLine_safeToken (dstCap : Nat) (arg : Bytes) : IsLine (safeToken dstCap arg) := by
  have key : ∀ b ∈ safeToken dstCap arg, 32 ≤ b.toNat := by
    intro b hb
    obtain ⟨c, -, rfl⟩ := List.mem_map.mp hb
    by_cases hc : c < 0x20 ∨ c = 0x7f
    · simp [hc]
    · rw [if_neg hc]
      exact tolower_toNat_ge (fun h => hc (.inl h))
  exact ⟨fun h => absurd (key cr h) (by decide), fun h => absurd (key lf h) (by decide)⟩

def Answered (r : Bytes) : Prop := ∃ v, Wire v r

theorem answered_simpleString {s : Bytes} (h : IsLine s) : Answered (respReplySimpleString s) :=
  ⟨_, .simple h⟩

theorem answered_error {s : Bytes} (h : IsLine s) : Answered (respReplyError s) := ⟨_, .error h⟩

@[simp]
theorem answered_integer (v : Int64) : Answered (respReplyInteger v) := by
  unfold respReplyInteger formatLld Decimal.ofInt
  split_ifs
  · exact ⟨_, .negative (isDecimal_ofNat _)⟩
  · exact ⟨_, .natural (isDecimal_ofNat _)⟩

theorem wire_bulkString (s : Bytes) : Wire (.bulk s) (respReplyBulkString s) :=
  .bulk (isDecimal_ofNat _) (Decimal.value_ofNat _)

@[simp]
theorem answered_bulkString (s : Bytes) : Answered (respReplyBulkString s) := ⟨_, wire_bulkString s⟩

theorem wire_nullBulk : Wire .null respReplyNullBulk := .null

theorem wire_array {items : List (Resp × Bytes)} (h : ∀ p ∈ items, Wire p.1 p.2) :
    Wire (.array (items.map Prod.fst)) (respReplyArrayHeader items.length ++ payload items) :=
  .array (isDecimal_ofNat _) (Decimal.value_ofNat _) h

@[simp]
theorem answered_wrongArity (cmd : Command) : Answered (replyWrongArity cmd) :=
  answered_error (((IsLine.append (by decide +kernel) (isLine_safeToken _ _)).append
    (by decide +kernel)).take _)

@[simp]
theorem answered_unknown (name : Bytes) : Answered (replyUnknown name) :=
  answered_error (((IsLine.append (by decide +kernel) (isLine_safeToken _ _)).append
    (by decide +kernel)).take _)

theorem answered_arity {c : Prop} [Decidable c] {cmd : Command} {st : CmdState}
    {r : CmdState × Bytes} (h : Answered r.2) :
    Answered (if c then (st, replyWrongArity cmd) else r).2 := by
  split_ifs
  · exact answered_wrongArity cmd
  · exact h

def replyItem : Option Bytes → Resp
  | some val => .bulk val
  | none => .null

theorem wire_replyValue (r : Option Bytes) : Wire (replyItem r) (replyValue r) := by
  cases r with
  | none => exact wire_nullBulk
  | some val => exact wire_bulkString val

theorem mgetLoop_payload (now : Int64) (keys : List Bytes) (s : Store) (out : Bytes) :
    ∃ items : List (Resp × Bytes), items.length = keys.length ∧ (∀ p ∈ items, Wire p.1 p.2) ∧
      (mgetLoop hash now keys s out).2 = out ++ payload items := by
  induction keys generalizing s out with
  | nil => exact ⟨[], rfl, by simp, by simp [mgetLoop, payload_nil]⟩
  | cons key keys ih =>
    obtain ⟨items, hl, hw, he⟩ := ih (storeGet hash s key now).1
      (out ++ replyValue (storeGet hash s key now).2)
    refine ⟨(replyItem (storeGet hash s key now).2, replyValue (storeGet hash s key now).2) :: items,
      by simp [hl], ?_, by rw [mgetLoop, he, payload_cons, List.append_assoc]⟩
    simp only [List.mem_cons, forall_eq_or_imp]
    exact ⟨wire_replyValue _, hw⟩

def keyItem (e : Entry) : Resp × Bytes := (.bulk e.key, respReplyBulkString e.key)

theorem foldl_keysCollectCb (es : List Entry) (ctx : Bytes × Nat) :
    es.foldl keysCollectCb ctx = (ctx.1 ++ payload (es.map keyItem), ctx.2 + es.length) := by
  induction es generalizing ctx with
  | nil => simp [payload_nil]
  | cons e es ih =>
    rw [List.foldl_cons, ih, List.map_cons, payload_cons, keysCollectCb, List.length_cons]
    simp only [keyItem, List.append_assoc, Nat.add_assoc, Nat.add_comm 1]

theorem keys_reply (s : Store) (now : Int64) :
    let ctx := storeForeach s now keysCollectCb ([], 0)
    Answered (respReplyArrayHeader ctx.2 ++ ctx.1) := by
  intro ctx
  have hw : ∀ p ∈ ((s.ht0.walk ++ s.ht1.walk).filter (liveEntry now)).map keyItem,
      Wire p.1 p.2 := by
    intro p hp
    obtain ⟨e, -, rfl⟩ := List.mem_map.mp hp
    exact wire_bulkString e.key
  have h := wire_array hw
  simp only [ctx, storeForeach, foldl_keysCollectCb, List.nil_append, Nat.zero_add]
  rw [List.length_map] at h
  exact ⟨_, h⟩

theorem answered_replyValue (r : Option Bytes) : Answered (replyValue r) := ⟨_, wire_replyValue r⟩

theorem answered_ok : Answered (respReplySimpleString (str "OK")) :=
  answered_simpleString (by decide)

theorem answered_notInteger :
    Answered (respReplyError (str "ERR value is not an integer or out of range")) :=
  answered_error (by decide +kernel)

theorem answered_overflow :
    Answered (respReplyError (str "ERR increment or decrement would overflow")) :=
  answered_error (by decide +kernel)

theorem answered_noSavePath : Answered replyNoSavePath := answered_error (by decide +kernel)

theorem answered_incrResult (r : StoreIncr) : Answered (replyIncrResult r) := by
  cases r with
  | ok val => exact answered_integer val
  | notInteger => exact answered_notInteger
  | overflow => exact answered_overflow

theorem isLine_setExpiry {env : Env} {cmd : Command} {msg : Bytes}
    (h : setExpiry env cmd = .error msg) : IsLine msg := by
  simp only [setExpiry] at h
  by_cases hl : cmd.length = 5
  · rw [if_pos hl] at h
    split at h
    · cases h
      decide
    · split at h
      · cases h
        decide +kernel
      · split at h
        · cases h
          decide +kernel
        · cases h
  · rw [if_neg hl] at h
    cases h

theorem answered_cmdSet (env : Env) (st : CmdState) (cmd : Command) :
    Answered (cmdSet hash env st cmd).2 := by
  apply answered_arity
  cases he : setExpiry env cmd with
  | error msg => exact answered_error (isLine_setExpiry he)
  | ok expireAtMs => exact answered_ok

theorem answered_cmdMget (env : Env) (st : CmdState) (cmd : Command) :
    Answered (cmdMget hash env st cmd).2 := by
  apply answered_arity
  obtain ⟨items, hl, hw, he⟩ := mgetLoop_payload hash env.now (cmd.drop 1) st.store
    (respReplyArrayHeader (cmd.length - 1))
  rw [List.length_drop] at hl
  simp only [he]
  rw [← hl]
  exact ⟨_, wire_array hw⟩

theorem answered_cmdKeys (env : Env) (st : CmdState) (cmd : Command) :
    Answered (cmdKeys env st cmd).2 := by
  unfold cmdKeys
  split_ifs
  · exact answered_wrongArity cmd
  · exact answered_error (by decide +kernel)
  · exact keys_reply st.store env.now

theorem answered_cmdExpire (env : Env) (st : CmdState) (cmd : Command) :
    Answered (cmdExpire hash env st cmd).2 := by
  apply answered_arity
  cases Cmd.parseStrictLl (argAt cmd 2) with
  | none => exact answered_notInteger
  | some seconds => exact answered_integer _

theorem answered_replyTtl (ttlMs : Int64) (wantMs : Bool) : Answered (replyTtl ttlMs wantMs) := by
  unfold replyTtl
  split_ifs <;> simp

theorem answered_cmdTtlGeneric (wantMs : Bool) (env : Env) (st : CmdState) (cmd : Command) :
    Answered (cmdTtlGeneric hash wantMs env st cmd).2 :=
  answered_arity (answered_replyTtl _ wantMs)

theorem answered_cmdIncrbyGeneric (negate : Bool) (env : Env) (st : CmdState) (cmd : Command) :
    Answered (cmdIncrbyGeneric hash negate env st cmd).2 := by
  apply answered_arity
  cases Cmd.parseStrictLl (argAt cmd 2) with
  | none => exact answered_notInteger
  | some delta =>
    by_cases hm : (negate && decide (delta = Int64.minValue)) = true
    · simp only [hm, if_true]
      exact answered_overflow
    · simp only [hm]
      exact answered_incrResult _

theorem isLine_strerror (st : PersistStatus) : IsLine (persistStrerror st) := by
  cases st <;> decide +kernel

theorem answered_doSave (env : Env) (st : CmdState) : Answered (doSave env st).2 := by
  unfold doSave
  split_ifs
  · exact answered_noSavePath
  · exact answered_error ((IsLine.append (by decide) (isLine_strerror _)).take _)
  · exact answered_ok

theorem answered_cmdBgsave (env : Env) (st : CmdState) (cmd : Command) :
    Answered (cmdBgsave env st cmd).2 := by
  unfold cmdBgsave
  split_ifs
  · exact answered_wrongArity cmd
  · exact answered_noSavePath
  · exact answered_error (by decide)
  · exact answered_simpleString (by decide)

theorem answered_handler (id : CmdId) (env : Env) (st : CmdState) (cmd : Command) :
    Answered (id.handler hash env st cmd).2 := by
  cases id with
  | ping =>
    apply answered_arity
    split_ifs
    · exact answered_bulkString _
    · exact answered_simpleString (by decide)
  | echo => exact answered_arity (answered_bulkString _)
  | set => exact answered_cmdSet hash env st cmd
  | get => exact answered_arity (answered_replyValue _)
  | mget => exact answered_cmdMget hash env st cmd
  | mset => exact answered_arity answered_ok
  | del => exact answered_arity (answered_integer _)
  | «exists» => exact answered_arity (answered_integer _)
  | keys => exact answered_cmdKeys env st cmd
  | expire => exact answered_cmdExpire hash env st cmd
  | ttl => exact answered_cmdTtlGeneric hash false env st cmd
  | pttl => exact answered_cmdTtlGeneric hash true env st cmd
  | incr => exact answered_arity (answered_incrResult _)
  | decr => exact answered_arity (answered_incrResult _)
  | incrby => exact answered_cmdIncrbyGeneric hash false env st cmd
  | decrby => exact answered_cmdIncrbyGeneric hash true env st cmd
  | dbsize => exact answered_arity (answered_integer _)
  | flushdb => exact answered_arity answered_ok
  | save => exact answered_arity (answered_doSave env st)
  | bgsave => exact answered_cmdBgsave env st cmd
  | lastsave => exact answered_arity (answered_integer _)

theorem answered_cmdDispatch (env : Env) (st : CmdState) {cmd : Command} (h : cmd ≠ []) :
    Answered (cmdDispatch hash env st cmd).2 := by
  unfold cmdDispatch
  rw [if_neg (by simpa using h)]
  cases lookupCommand (argAt cmd 0) with
  | none => exact answered_unknown _
  | some id => exact answered_handler hash id env st cmd

def Replies (ec : Env × Command) (r : Bytes) : Prop := if ec.2 = [] then r = [] else Answered r

theorem replies_dispatchStep (st : CmdState) (ec : Env × Command) :
    Replies ec (dispatchStep hash st ec).2 := by
  obtain ⟨env, cmd⟩ := ec
  by_cases h : cmd = []
  · subst h
    rfl
  · simp only [Replies, dispatchStep, if_neg h]
    exact answered_cmdDispatch hash env st h

theorem replies_run (st : CmdState) (ecs : List (Env × Command)) :
    List.Forall₂ Replies ecs (Machine.run (dispatchStep hash) st ecs).2 := by
  induction ecs generalizing st with
  | nil => exact .nil
  | cons ec ecs ih => exact .cons (replies_dispatchStep hash st ec) (ih _)

theorem items_of_replies {ecs : List (Env × Command)} {rs : List Bytes}
    (h : List.Forall₂ Replies ecs rs) :
    ∃ items : List (Resp × Bytes), (∀ p ∈ items, Wire p.1 p.2) ∧
      items.map Prod.snd = rs.filter (· ≠ []) ∧
      items.length = (ecs.filter (fun ec => ec.2 ≠ [])).length ∧
      payload items = rs.flatten := by
  induction h with
  | nil => exact ⟨[], by simp, rfl, rfl, rfl⟩
  | @cons ec r ecs rs hr _ ih =>
    obtain ⟨items, hw, hm, hl, hp⟩ := ih
    by_cases hc : ec.2 = []
    · simp only [Replies, if_pos hc] at hr
      exact ⟨items, hw, by simp [hm, hr], by simp [hl, hc], by simp [hp, hr]⟩
    · simp only [Replies, if_neg hc] at hr
      obtain ⟨v, hv⟩ := hr
      have hne := hv.ne_nil
      refine ⟨(v, r) :: items, ?_, by simp [hm, hne], by simp [hl, hc], by simp [hp]⟩
      simp only [List.mem_cons, forall_eq_or_imp]
      exact ⟨hv, hw⟩

theorem cmd_dispatch_replies_decode_uniquely (st : CmdState) (ecs : List (Env × Command)) :
    List.Forall₂ Replies ecs (Machine.run (dispatchStep hash) st ecs).2 ∧
    ∃ items : List (Resp × Bytes), (∀ p ∈ items, Wire p.1 p.2) ∧
      items.map Prod.snd = (Machine.run (dispatchStep hash) st ecs).2.filter (· ≠ []) ∧
      items.length = (ecs.filter (fun ec => ec.2 ≠ [])).length ∧
      payload items = (Machine.run (dispatchStep hash) st ecs).2.flatten ∧
      ∀ items' : List (Resp × Bytes), (∀ p ∈ items', Wire p.1 p.2) →
        payload items' = (Machine.run (dispatchStep hash) st ecs).2.flatten → items' = items := by
  have hr := replies_run hash st ecs
  obtain ⟨items, hw, hm, hl, hp⟩ := items_of_replies hr
  refine ⟨hr, items, hw, hm, hl, hp, ?_⟩
  intro items' hw' hp'
  exact items_unique Wire.ne_nil Wire.determined hw' hw (hp'.trans hp.symm)

end RedisServer

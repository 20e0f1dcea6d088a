import RedisServer.Cmd.LiveView
import RedisServer.Cmd.StoreCalls
import RedisServer.Strtoll

namespace RedisServer

open ExpiringMap

variable {hash : Bytes → UInt64}

-- what the readers of a key answer, in terms of its live entry alone
def ttlReply (wantMs : Bool) (now : Int64) : Option (Bytes × Int64) → Bytes
  | none => replyTtl storeTtlNoKey wantMs
  | some p => replyTtl (ttlOf p.2 now) wantMs

section Replies

variable {st : CmdState} (hs : st.store.Inv hash) (env : Env) (k : Bytes)
include hs

theorem get_reply :
    (cmdDispatch hash env st [str "GET", k]).2 =
      replyValue ((live expired st.store.toMap env.now k).map Prod.fst) := by
  have hget : lookupCommand (argAt [str "GET", k] 0) = some .get :=
    (by decide : lookupCommand (str "GET") = some .get)
  rw [cmdDispatch_of_lookup hget]
  change replyValue (storeGet hash st.store k env.now).2 = _
  rw [(storeGet_spec hs k env.now).2.2, KvMap.get, KvMap.purge, lookup_purge]

theorem exists_reply :
    (cmdDispatch hash env st [str "EXISTS", k]).2 =
      respReplyInteger (if (live expired st.store.toMap env.now k).isSome then 1 else 0) := by
  have hexists : lookupCommand (argAt [str "EXISTS", k] 0) = some .exists :=
    (by decide : lookupCommand (str "EXISTS") = some .exists)
  rw [cmdDispatch_of_lookup hexists]
  change respReplyInteger (Int64.ofNat (0 + (storeExists hash st.store k env.now).2)) = _
  have hmem : k ∈ st.store.toMap.purge k env.now ↔
      (live expired st.store.toMap env.now k).isSome := by
    rw [← Finmap.lookup_isSome, KvMap.purge, lookup_purge]
  rw [(storeExists_spec hs k env.now).2.2, KvMap.has, Nat.zero_add, if_congr hmem rfl rfl]
  cases live expired st.store.toMap env.now k <;> rfl

theorem ttl_reply (wantMs : Bool) :
    replyTtl (storeTtlMs hash st.store k env.now env.now).2 wantMs =
      ttlReply wantMs env.now (live expired st.store.toMap env.now k) := by
  rw [(storeTtlMs_spec hs k env.now env.now).2.2, KvMap.ttlMs, KvMap.purge, lookup_purge]
  cases live expired st.store.toMap env.now k <;> rfl

theorem ttl_command_reply :
    (cmdDispatch hash env st [str "TTL", k]).2 =
      ttlReply false env.now (live expired st.store.toMap env.now k) := ttl_reply hs env k false

theorem pttl_command_reply :
    (cmdDispatch hash env st [str "PTTL", k]).2 =
      ttlReply true env.now (live expired st.store.toMap env.now k) := ttl_reply hs env k true

omit k in
theorem keys_command_reply :
    (cmdDispatch hash env st [str "KEYS", str "*"]).2 =
      keysReply ((st.store.visited env.now).map Entry.key) := keys_reply_eq hs.toSound env.now

end Replies

theorem formatLld_injective {v w : Int64} (h : formatLld v = formatLld w) : v = w := by
  have hs := strictLl_formatLld v
  rw [h, strictLl_formatLld w] at hs
  exact (Option.some.inj hs).symm

theorem respReplyInteger_injective {v w : Int64} (h : respReplyInteger v = respReplyInteger w) :
    v = w := by
  simp only [respReplyInteger, List.cons_append, List.cons.injEq, true_and] at h
  exact formatLld_injective (List.append_cancel_right h)

-- the reply :z with z in the unbounded integers
def integerReply (z : Int) : Bytes := 58 :: Decimal.ofInt z ++ crlf

theorem integerReply_eq (v : Int64) : respReplyInteger v = integerReply v.toInt := rfl

theorem respReplyInteger_ofInt {z : Int} (h : KvMap.fits z) :
    respReplyInteger (Int64.ofInt z) = integerReply z := by
  rw [integerReply_eq, toInt_ofInt_of_fits h]

theorem replyValue_ne (val : Bytes) : replyValue (some val) ≠ replyValue none := by
  intro h
  simp only [replyValue, respReplyBulkString, respReplyNullBulk] at h
  obtain ⟨b, l, hb⟩ := List.exists_cons_of_ne_nil (Decimal.ofNat_ne_nil val.length)
  have hd : Decimal.isDigit b = true := Decimal.isDigit_of_mem_ofNat (n := val.length) (by simp [hb])
  have hbyte := congrArg (fun r => r[1]?) h
  simp only [formatZu, hb] at hbyte
  have hminus : b = 45 := by simpa [str] using hbyte
  rw [hminus] at hd
  exact absurd hd (by decide)

end RedisServer

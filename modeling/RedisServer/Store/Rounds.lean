import RedisServer.Store.Refinement

namespace RedisServer

variable {hash : Bytes → UInt64}

inductive Visit where
  | skipped (bucket : Nat)
  | migrated (bucket : Nat) (chain : List Entry)
  deriving DecidableEq, Repr

-- the buckets the while loop of rehash_step looks at, from bucket i of ht[0] on
def loopVisits (t : Table) : Nat → Nat → List Visit
  | 0, _ => []
  | visits + 1, i =>
    if i < t.size then
      match t.chain i with
      | [] => .skipped i :: loopVisits t visits (i + 1)
      | e :: es => [.migrated i (e :: es)]
    else []

def stepVisits (s : Store) : List Visit :=
  if !isRehashing s then [] else loopVisits s.ht0 rehashEmptyVisitsLimit s.rehashIdx.toNat

-- every store_* function but store_flush opens with rehash_step; store_incrby runs it again inside
-- the store_set that creates its key
def callVisits (hash : Bytes → UInt64) (s : Store) : StoreOp → List Visit
  | .flush => []
  | .incrby k d now =>
    stepVisits s ++
      match locateLive hash (rehashStep hash s) k now with
      | (_, some _) => []
      | (t, none) => if incrOverflows 0 d then [] else stepVisits t
  | _ => stepVisits s

def movedEntries (vs : List Visit) : List Entry :=
  vs.flatMap (fun v => match v with
    | .skipped _ => []
    | .migrated _ c => c)

theorem loopVisits_succ (t : Table) (visits i : Nat) :
    loopVisits t (visits + 1) i =
      if i < t.size then
        if t.chain i = [] then .skipped i :: loopVisits t visits (i + 1)
        else [.migrated i (t.chain i)]
      else [] := by
  rw [loopVisits]
  split_ifs with hlt hc
  · rw [hc]
  · cases hch : t.chain i with
    | nil => exact absurd hch hc
    | cons e es => rfl
  · rfl

-- what the log says is what the loop did: the cursor moved over the logged buckets, and the logged
-- chains are the entries that changed tables
structure Logged (s t : Store) (vs : List Visit) : Prop where
  size0 : t.ht0.size = s.ht0.size
  cursor : t.rehashIdx = s.rehashIdx + vs.length
  left : s.ht0.entries.Perm (movedEntries vs ++ t.ht0.entries)
  arrived : t.ht1.entries.Perm (movedEntries vs ++ s.ht1.entries)

theorem Store.Moving.logged {s : Store} (hs : s.Moving hash) (visits : Nat) :
    Logged s (RedisServer.rehashLoop hash visits s) (loopVisits s.ht0 visits s.rehashIdx.toNat) := by
  induction visits generalizing s with
  | zero => exact ⟨rfl, by simp [RedisServer.rehashLoop, loopVisits], .refl _, .refl _⟩
  | succ visits ih =>
    have h0 := hs.cursor_nonneg
    rw [rehashLoop_succ, loopVisits_succ]
    split_ifs with hlt hc
    · have hnext := ih (hs.skip hlt hc)
      have hcur : (s.rehashIdx + 1).toNat = s.rehashIdx.toNat + 1 := by omega
      simp only [hcur] at hnext
      refine ⟨hnext.size0, ?_, hnext.left, hnext.arrived⟩
      rw [hnext.cursor, List.length_cons]
      push_cast
      ring
    · have hpos : 0 < s.ht1.size := by have := hs.doubled; have := hs.pos0; omega
      obtain ⟨-, -, hp⟩ := migrateChain_snd hs.wf1 hpos s.ht0 (s.ht0.chain s.rehashIdx.toNat)
      have hmoved : movedEntries [.migrated s.rehashIdx.toNat (s.ht0.chain s.rehashIdx.toNat)] =
          s.ht0.chain s.rehashIdx.toNat := by simp [movedEntries]
      refine ⟨rfl, rfl, ?_, ?_⟩ <;> rw [hmoved]
      · exact hs.wf0.clear_perm hlt
      · exact hp
    · exact ⟨rfl, by simp, .refl _, .refl _⟩

-- one rehash_step: no work without a rehash, and else the log of the loop in front of its last test
inductive StepLogged (hash : Bytes → UInt64) (s : Store) : Prop
  | idle (h : s.rehashIdx = -1) (hv : stepVisits s = []) (hs : rehashStep hash s = s)
  | busy {u : Store} (h : s.rehashIdx ≠ -1) (hl : Logged s u (stepVisits s))
    (hs : rehashStep hash s = finishRehash u)

theorem stepVisits_idle {s : Store} (h : s.rehashIdx = -1) : stepVisits s = [] := by
  simp [stepVisits, isRehashing, h]

theorem stepVisits_busy {s : Store} (hb : s.rehashIdx ≠ -1) :
    stepVisits s = loopVisits s.ht0 rehashEmptyVisitsLimit s.rehashIdx.toNat :=
  if_neg (by simpa [isRehashing] using hb)

theorem rehashStep_idle {s : Store} (h : s.rehashIdx = -1) : rehashStep hash s = s := by
  simp [rehashStep, isRehashing, h]

theorem Store.Inv.stepLogged {s : Store} (hs : s.Inv hash) : StepLogged hash s := by
  by_cases hb : s.rehashIdx = -1
  · exact .idle hb (stepVisits_idle hb) (rehashStep_idle hb)
  · have hlog := (hs.moving hb).logged rehashEmptyVisitsLimit
    rw [← stepVisits_busy hb] at hlog
    exact .busy hb hlog (if_neg (by simpa [isRehashing] using hb))

-- what a store_* call may do to the tables once its rehash step is over
inductive Effect (hash : Bytes → UInt64) (s : Store) : Store → Prop
  | none : Effect hash s s
  | unlink {r : Found} (h : s.Holds r) : Effect hash s (s.unlink r)
  | rewrite {r : Found} {f : Entry → Entry} (h : s.Holds r) (hf : ∀ x, (f x).key = x.key) :
    Effect hash s (s.rewrite r f)
  | insert {e : Entry} (h : ∀ x ∈ s.entries, x.key ≠ e.key) : Effect hash s (insertEntry hash s e)

def Round (hash : Bytes → UInt64) (s t : Store) : Prop := Effect hash (rehashStep hash s) t

theorem round_storeSet {s : Store} (hs : s.Inv hash) (k v : Bytes) (e : Int64) :
    Round hash s (storeSet hash s k v e).1 := by
  have hr := (rehashStep_spec hs).1
  simp only [storeSet, Round]
  cases hf : findSlotEither (rehashStep hash s) k (hash k) with
  | none => exact .insert (findSlotEither_none hr hf)
  | some r => exact .rewrite (findSlotEither_some hr.toSound hf).1 (fun _ => rfl)

theorem round_storeDel {s : Store} (hs : s.Inv hash) (k : Bytes) :
    Round hash s (storeDel hash s k).1 := by
  have hr := (rehashStep_spec hs).1
  simp only [storeDel, Round]
  cases hf : findSlotEither (rehashStep hash s) k (hash k) with
  | none => exact .none
  | some r => exact .unlink (findSlotEither_some hr.toSound hf).1

theorem locateLive_effect {s : Store} (hs : s.Inv hash) (k : Bytes) (now : Int64) :
    Effect hash s (locateLive hash s k now).1 ∧
      ∀ r, (locateLive hash s k now).2 = some r →
        (locateLive hash s k now).1 = s ∧ s.Holds r := by
  unfold locateLive
  cases hf : findSlotEither s k (hash k) with
  | none => exact ⟨.none, by simp⟩
  | some r =>
    have hh := (findSlotEither_some hs.toSound hf).1
    simp only
    split_ifs
    · exact ⟨.unlink hh, by simp⟩
    · refine ⟨.none, ?_⟩
      rintro r' h
      cases h
      exact ⟨rfl, hh⟩

theorem round_locateLive {s : Store} (hs : s.Inv hash) (k : Bytes) (now : Int64) :
    Round hash s (locateLive hash (rehashStep hash s) k now).1 :=
  (locateLive_effect (rehashStep_spec hs).1 k now).1

theorem round_storeExpire {s : Store} (hs : s.Inv hash) (k : Bytes) (e now : Int64) :
    Round hash s (storeExpire hash s k e now).1 := by
  obtain ⟨he, hsome⟩ := locateLive_effect (rehashStep_spec hs).1 k now
  unfold storeExpire
  rcases hl : locateLive hash (rehashStep hash s) k now with ⟨t, _ | r⟩ <;> rw [hl] at he hsome
  · exact he
  · obtain ⟨ht, hh⟩ := hsome r rfl
    simp only at ht
    subst ht
    exact .rewrite hh (fun _ => rfl)

theorem round_storeTtlMs {s : Store} (hs : s.Inv hash) (k : Bytes) (now now' : Int64) :
    Round hash s (storeTtlMs hash s k now now').1 := by
  have he := round_locateLive hs k now
  unfold storeTtlMs
  rcases hl : locateLive hash (rehashStep hash s) k now with ⟨t, _ | r⟩ <;> rw [hl] at he <;>
    exact he

theorem incrOverflows_zero (d : Int64) : incrOverflows 0 d = false := by
  rw [Bool.eq_false_iff, Ne, incrOverflows_iff, not_not]
  rw [Int64.toInt_zero, Int.zero_add]
  exact fits_toInt d

-- one call is one round, or two when store_incrby creates its key
inductive Rounds (hash : Bytes → UInt64) (s : Store) (vs : List Visit) (u : Store) : Prop
  | once (h : Round hash s u) (hl : StepLogged hash s) (hv : vs = stepVisits s)
  | twice {t : Store} (h : Round hash s t) (hl : StepLogged hash s) (h' : Round hash t u)
    (hl' : StepLogged hash t) (hv : vs = stepVisits s ++ stepVisits t)

theorem Effect.inv {s t : Store} (hs : s.Inv hash) (h : Effect hash s t) : t.Inv hash := by
  cases h with
  | none => exact hs
  | unlink h => exact hs.unlink h
  | rewrite h hf => exact hs.rewrite h hf
  | insert h => exact (insertEntry_spec hs h).1

theorem Round.inv {s t : Store} (hs : s.Inv hash) (h : Round hash s t) : t.Inv hash :=
  Effect.inv (rehashStep_spec hs).1 h

theorem rounds_storeIncrby {s : Store} (hs : s.Inv hash) (k : Bytes) (d now : Int64) :
    Rounds hash s (callVisits hash s (.incrby k d now)) (storeIncrby hash s k d now).1 := by
  obtain ⟨he, hsome⟩ := locateLive_effect (rehashStep_spec hs).1 k now
  have hi := (rehashStep_spec hs).1
  simp only [storeIncrby, callVisits, incrOverflows_zero]
  rcases hl : locateLive hash (rehashStep hash s) k now with ⟨t, _ | r⟩ <;>
    rw [hl] at he hsome <;> simp only at he ⊢
  · have ht := he.inv hi
    exact .twice he hs.stepLogged (round_storeSet ht k _ 0) ht.stepLogged rfl
  · obtain ⟨ht, hh⟩ := hsome r rfl
    simp only at ht
    subst ht
    rw [List.append_nil]
    cases Store.parseStrictLl r.entry.val with
    | none => exact .once .none hs.stepLogged rfl
    | some c =>
      simp only
      split_ifs
      · exact .once .none hs.stepLogged rfl
      · exact .once (.rewrite hh (fun _ => rfl)) hs.stepLogged rfl

theorem storeStep_rounds {s : Store} (hs : s.Inv hash) {op : StoreOp} (hop : op ≠ .flush) :
    Rounds hash s (callVisits hash s op) (storeStep hash s op).1 := by
  cases op with
  | set k v e => exact .once (round_storeSet hs k v e) hs.stepLogged rfl
  | get k now => exact .once (round_locateLive hs k now) hs.stepLogged rfl
  | «exists» k now => exact .once (round_locateLive hs k now) hs.stepLogged rfl
  | del k => exact .once (round_storeDel hs k) hs.stepLogged rfl
  | expire k e now => exact .once (round_storeExpire hs k e now) hs.stepLogged rfl
  | ttlMs k now now' => exact .once (round_storeTtlMs hs k now now') hs.stepLogged rfl
  | incrby k d now => exact rounds_storeIncrby hs k d now
  | flush => exact absurd rfl hop

end RedisServer

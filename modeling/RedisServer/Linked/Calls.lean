import RedisServer.Linked.Rehash

namespace RedisServer

namespace Linked

open Cells

variable {hash : Bytes → UInt64} {s : LinkedStore} {S : Store} {c : Layout}

theorem StoreLaid.targets (hS : S.Inv hash) (x : UInt64) :
    let id : TableId := if RedisServer.isRehashing S then .ht1 else .ht0
    bucketIndex (S.table id) x < (S.table id).size := by
  intro id
  have hpos := hS.pos0
  refine StoreLaid.index_lt hS.toSound id x ?_
  by_cases hb : RedisServer.isRehashing S
  · have hdoubled := (hS.busy ((isRehashing_iff S).mp hb)).1
    simp only [id, if_pos hb, Store.table]
    omega
  · simp only [id, if_neg hb, Store.table]
    omega

theorem insertEntry_spec (h : StoreLaid s S c) (hS : S.Inv hash) (key val : Bytes)
    (expireAtMs : Int64) :
    Triple (storeCells s c) (insertEntry hash s key val expireAtMs) (fun s' m' =>
      Memory s' (RedisServer.insertEntry hash S ⟨key, val, expireAtMs⟩) m') := by
  rw [insertEntry]
  refine .malloc (fun a => .malloc (fun k => .malloc (fun v => ?_)))
  have htarget := StoreLaid.targets hS (hash key)
  simp only [h.isRehashing] at htarget ⊢
  generalize hid : (if RedisServer.isRehashing S then TableId.ht1 else .ht0) = id at htarget ⊢
  have hlaid := h.table id
  have hindex : (hash key).toNat &&& (s.table id).mask = bucketIndex (S.table id) (hash key) := by
    rw [hlaid.mask, bucketIndex]
  rw [hindex]
  refine hlaid.bucketAt htarget (fun array harray => ?_)
  have hlt : bucketIndex (S.table id) (hash key) < (c id).length := hlaid.length ▸ htarget
  have hb := List.getElem?_eq_getElem hlt
  have hpush := hlaid.push (p := ⟨a, k, v, ⟨key, val, expireAtMs⟩⟩) hb
  generalize bucketIndex (S.table id) (hash key) = b at hlt hb hpush
  have hcells : (v, Obj.bytes (val ++ [0])) ::ₘ (k, Obj.bytes (key ++ [0])) ::ₘ
      (a, Obj.entry .raw) ::ₘ storeCells s c =
        Placed.blocks ⟨a, k, v, ⟨key, val, expireAtMs⟩⟩ .raw +
          (tableCells (some array) (c id) + otherCells s c id) := by
    rw [storeCells_eq s c id, harray]
    simp only [Placed.blocks, ← Multiset.singleton_add]
    abel
  rw [hcells]
  refine pushFront_spec hb ⟨a, k, v, ⟨key, val, expireAtMs⟩⟩ .raw ?_
  rw [← harray, ← storeCells_set]
  have hstore := h.set id hpush
  have hidx : (S.setTable ((S.table id).push (hash key) ⟨key, val, expireAtMs⟩) id).rehashIdx =
      S.rehashIdx := by
    cases id <;> rfl
  have hbusy := hstore.isRehashing
  rw [RedisServer.isRehashing, hidx, ← RedisServer.isRehashing] at hbusy
  rw [hbusy, RedisServer.insertEntry]
  split_ifs at hid ⊢ with hr
  · subst hid
    exact .pure ⟨_, hstore, rfl⟩
  · subst hid
    exact maybeStartRehash_spec hstore hS.idle

theorem setTable_self (s : LinkedStore) (id : TableId) : s.setTable (s.table id) id = s := by
  cases id <;> rfl

-- the cells of an entry and the rest; another entry in its place is a rewrite
theorem Located.focus (h : StoreLaid s S c) {a : Nat} {f : Found} (ha : Located c a f) :
    ∃ (p : Placed) (next : Option Nat) (F : Multiset (Nat × Obj)),
      p.addr = a ∧ p.entry = f.entry ∧ storeCells s c = p.cells next + F ∧
      ∀ q : Placed, q.addr = a → ∀ g : Entry → Entry, q.entry = g p.entry →
        ∃ c', StoreLaid s (S.rewrite f g) c' ∧ storeCells s c' = q.cells next + F := by
  obtain ⟨pre, p, post, hp, rfl, hentry⟩ := ha
  have hlaid := h.table f.table
  have hb : f.slot.bucket < (c f.table).length := (List.getElem?_eq_some_iff.mp hp.chain).1
  obtain ⟨array, harray⟩ := hlaid.exists_array (hlaid.length ▸ Nat.zero_lt_of_lt hb)
  obtain ⟨F, hcells⟩ : ∃ F, ∀ q : Placed, q.addr = p.addr →
      tableCells (s.table f.table).buckets ((c f.table).set f.slot.bucket (pre ++ q :: post)) +
        otherCells s c f.table = q.cells (head post none) + F := by
    refine ⟨link array f.slot.bucket (heads (c f.table)) pre (some p.addr) +
      (segment post none + others (c f.table) f.slot.bucket + otherCells s c f.table),
      fun q hq => ?_⟩
    have hhead : head (q :: post) none = some p.addr := by rw [← hq]; rfl
    rw [harray, tableCells_set array hb, hhead, segment]
    abel
  refine ⟨p, head post none, F, rfl, hentry, ?_, fun q hq g hg => ?_⟩
  · rw [← hcells p rfl, set_of_getElem? hp.chain, storeCells_eq s c f.table]
  · have hset := h.set f.table (hlaid.rewrite hp hg)
    rw [setTable_self] at hset
    refine ⟨_, hset, ?_⟩
    rw [← hcells q hq, ← storeCells_set, setTable_self]

theorem replaceValue_spec (h : StoreLaid s S c) {a : Nat} {f : Found} (ha : Located c a f)
    (val : Bytes) (expireAtMs : Option Int64) :
    Triple (storeCells s c) (replaceValue a val expireAtMs) (fun _ m' => Memory s (S.rewrite f
      (fun e => { e with val := val, expireAtMs := expireAtMs.getD e.expireAtMs })) m') := by
  obtain ⟨p, next, F, rfl, -, hcells, hrewrite⟩ := ha.focus h
  rw [replaceValue, hcells]
  refine .malloc (fun v => ?_)
  have hbefore : (v, Obj.bytes (val ++ [0])) ::ₘ (p.cells next + F) =
      p.cells next + ((v, Obj.bytes (val ++ [0])) ::ₘ F) := by
    rw [Multiset.add_cons]
  rw [hbefore]
  refine loadNode_spec ?_
  have hval : p.cells next + ((v, Obj.bytes (val ++ [0])) ::ₘ F) =
      ((p.node next).val, Obj.bytes (p.entry.val ++ [0])) ::ₘ
        ((p.addr, Obj.entry (p.node next)) ::ₘ (p.keyAddr, Obj.bytes (p.entry.key ++ [0])) ::ₘ
          (v, Obj.bytes (val ++ [0])) ::ₘ F) := by
    simp only [Placed.cells, Placed.blocks, Placed.node, ← Multiset.singleton_add]
    abel
  rw [hval]
  refine .free ?_
  rw [← bind_pure (store _ _)]
  refine .store (.pure ?_)
  obtain ⟨c', hlaid, hq⟩ := hrewrite { p with
    valAddr := v
    entry := { p.entry with val := val, expireAtMs := expireAtMs.getD p.entry.expireAtMs } } rfl
    (fun e => { e with val := val, expireAtMs := expireAtMs.getD e.expireAtMs }) rfl
  refine ⟨c', hlaid, ?_⟩
  rw [hq]
  simp only [Placed.cells, Placed.blocks, Placed.node, ← Multiset.singleton_add]
  abel

section Calls

variable (h : StoreLaid s S c) (hS : S.Inv hash)
include h hS

theorem storeSet_spec (key val : Bytes) (expireAtMs : Int64) :
    Triple (storeCells s c) (storeSet hash s key val expireAtMs) (fun r m' =>
      Memory r.1 (RedisServer.storeSet hash S key val expireAtMs).1 m' ∧
        r.2 = (RedisServer.storeSet hash S key val expireAtMs).2) := by
  have hS' := (RedisServer.rehashStep_spec hS).1
  rw [storeSet, RedisServer.storeSet]
  refine (rehashStep_spec h hS).bind ?_
  rintro s m' ⟨c, h, rfl⟩
  generalize RedisServer.rehashStep hash S = S at h hS'
  refine (findSlotEither_spec h hS'.toSound key (hash key)).bind ?_
  rintro r m' ⟨rfl, hr⟩
  generalize RedisServer.findSlotEither S key (hash key) = found at hr
  cases hr with
  | none =>
    refine (insertEntry_spec h hS' key val expireAtMs).bind ?_
    rintro s' m' hmemory
    exact .pure ⟨hmemory, rfl⟩
  | @some y f hy =>
    obtain ⟨p, hy⟩ := hy
    refine hy.entryAt ((replaceValue_spec h hy.located val (some expireAtMs)).bind ?_)
    rintro - m' hmemory
    exact .pure ⟨hmemory, rfl⟩

theorem storeDel_spec (key : Bytes) :
    Triple (storeCells s c) (storeDel hash s key) (fun r m' =>
      Memory r.1 (RedisServer.storeDel hash S key).1 m' ∧
        r.2 = (RedisServer.storeDel hash S key).2) := by
  have hS' := (RedisServer.rehashStep_spec hS).1
  rw [storeDel, RedisServer.storeDel]
  refine (rehashStep_spec h hS).bind ?_
  rintro s m' ⟨c, h, rfl⟩
  generalize RedisServer.rehashStep hash S = S at h hS'
  refine (findSlotEither_spec h hS'.toSound key (hash key)).bind ?_
  rintro r m' ⟨rfl, hr⟩
  generalize RedisServer.findSlotEither S key (hash key) = found at hr
  cases hr with
  | none => exact .pure ⟨⟨c, h, rfl⟩, rfl⟩
  | @some y f hy =>
    obtain ⟨p, hy⟩ := hy
    refine hy.entryAt ((hy.unlink h).bind ?_)
    rintro s' m' hmemory
    exact .pure ⟨hmemory, rfl⟩

-- what locate_live leaves, for the calls that begin with it
theorem located_spec (key : Bytes) (now : Int64) {α : Type} {Q : α → Multiset (Nat × Obj) → Prop}
    {g : LinkedStore × Option Nat → Prog Obj α}
    (hg : ∀ s' S' c' a f, RedisServer.locateLive hash (RedisServer.rehashStep hash S) key now =
      (S', f) → StoreLaid s' S' c' → Option.Rel (Located c') a f →
      Triple (storeCells s' c') (g (s', a)) Q) :
    Triple (storeCells s c) (do g (← locateLive hash (← rehashStep hash s) key now)) Q := by
  have hS' := (RedisServer.rehashStep_spec hS).1
  refine (rehashStep_spec h hS).bind ?_
  rintro s m' ⟨c, h, rfl⟩
  refine (locateLive_spec h hS'.toSound key now).bind ?_
  rintro ⟨s', a⟩ m' ⟨c', h', rfl, ha⟩
  exact hg _ _ _ _ _ rfl h' ha

theorem storeExists_spec (key : Bytes) (now : Int64) :
    Triple (storeCells s c) (storeExists hash s key now) (fun r m' =>
      Memory r.1 (RedisServer.storeExists hash S key now).1 m' ∧
        r.2 = (RedisServer.storeExists hash S key now).2) := by
  rw [storeExists, RedisServer.storeExists]
  refine located_spec h hS key now (fun s' S' c' a f hf h' ha => ?_)
  rw [hf]
  refine .pure ⟨⟨c', h', rfl⟩, ?_⟩
  cases ha <;> rfl

theorem storeTtlMs_spec (key : Bytes) (now now' : Int64) :
    Triple (storeCells s c) (storeTtlMs hash s key now now') (fun r m' =>
      Memory r.1 (RedisServer.storeTtlMs hash S key now now').1 m' ∧
        r.2 = (RedisServer.storeTtlMs hash S key now now').2) := by
  rw [storeTtlMs, RedisServer.storeTtlMs]
  refine located_spec h hS key now (fun s' S' c' a f hf h' ha => ?_)
  rw [hf]
  cases ha with
  | none => exact .pure ⟨⟨c', h', rfl⟩, rfl⟩
  | @some a f ha =>
    obtain ⟨p, next, F, rfl, hentry, hcells, -⟩ := ha.focus h'
    rw [hcells]
    refine loadNode_spec (.pure ⟨⟨c', h', hcells.symm⟩, ?_⟩)
    exact congrArg (fun e : Entry => ttlOf e.expireAtMs now') hentry

theorem storeExpire_spec (key : Bytes) (expireAtMs now : Int64) :
    Triple (storeCells s c) (storeExpire hash s key expireAtMs now) (fun r m' =>
      Memory r.1 (RedisServer.storeExpire hash S key expireAtMs now).1 m' ∧
        r.2 = (RedisServer.storeExpire hash S key expireAtMs now).2) := by
  rw [storeExpire, RedisServer.storeExpire]
  refine located_spec h hS key now (fun s' S' c' a f hf h' ha => ?_)
  rw [hf]
  cases ha with
  | none => exact .pure ⟨⟨c', h', rfl⟩, rfl⟩
  | @some a f ha =>
    obtain ⟨p, next, F, rfl, -, hcells, hrewrite⟩ := ha.focus h'
    obtain ⟨c'', hlaid, hq⟩ := hrewrite
      { p with entry := { p.entry with expireAtMs := expireAtMs } } rfl
      (fun e => { e with expireAtMs := expireAtMs }) rfl
    rw [hcells]
    refine loadNode_spec ?_
    rw [Placed.cells, Placed.blocks, Multiset.cons_add]
    refine .store (.pure ⟨⟨c'', hlaid, ?_⟩, rfl⟩)
    rw [hq]
    simp only [Placed.cells, Placed.blocks, Placed.node, ← Multiset.singleton_add]
    abel

-- the value that store_get points to, with the zero behind it
def Holds (m : Multiset (Nat × Obj)) (p : Nat × Nat) (v : Bytes) : Prop :=
  (p.1, .bytes (v ++ [0])) ∈ m ∧ p.2 = v.length

theorem storeGet_spec (key : Bytes) (now : Int64) :
    Triple (storeCells s c) (storeGet hash s key now) (fun r m' =>
      Memory r.1 (RedisServer.storeGet hash S key now).1 m' ∧
        Option.Rel (Holds m') r.2 (RedisServer.storeGet hash S key now).2) := by
  rw [storeGet, RedisServer.storeGet]
  refine located_spec h hS key now (fun s' S' c' a f hf h' ha => ?_)
  rw [hf]
  cases ha with
  | none => exact .pure ⟨⟨c', h', rfl⟩, .none⟩
  | @some a f ha =>
    obtain ⟨p, next, F, rfl, hentry, hcells, -⟩ := ha.focus h'
    rw [hcells]
    refine loadNode_spec (.pure ⟨⟨c', h', hcells.symm⟩, .some ?_⟩)
    have hvalue : Holds (p.cells next + F) ((p.node next).val, (p.node next).valLen) p.entry.val :=
      ⟨Multiset.mem_add.mpr (.inl (p.val_mem next)), rfl⟩
    rw [hentry] at hvalue
    exact hvalue

omit h hS in
theorem parseStrictLl_spec {α : Type} {m : Multiset (Nat × Obj)}
    {Q : α → Multiset (Nat × Obj) → Prop} {a : Nat} {text : Bytes} {g : Option Int64 → Prog Obj α}
    (ha : (a, .bytes (text ++ [0])) ∈ m) (hg : Triple m (g (Store.parseStrictLl text)) Q) :
    Triple m (parseStrictLl a text.length >>= g) Q := by
  rw [parseStrictLl]
  split_ifs with hlen
  · rw [Store.parseStrictLl, strictLl, if_pos hlen] at hg
    exact hg
  · rw [bind_assoc]
    exact readText_spec ha hg

theorem storeIncrby_spec (key : Bytes) (delta now : Int64) :
    Triple (storeCells s c) (storeIncrby hash s key delta now) (fun r m' =>
      Memory r.1 (RedisServer.storeIncrby hash S key delta now).1 m' ∧
        r.2 = (RedisServer.storeIncrby hash S key delta now).2) := by
  have hlive := (locateLive_rehash_spec hS key now).inv
  rw [storeIncrby, RedisServer.storeIncrby]
  refine located_spec h hS key now (fun s' S' c' a f hf h' ha => ?_)
  rw [hf] at hlive ⊢
  cases ha with
  | none =>
    by_cases hover : incrOverflows 0 delta
    · simp only [if_pos hover]
      exact .pure ⟨⟨c', h', rfl⟩, rfl⟩
    · simp only [if_neg hover]
      refine (storeSet_spec h' hlive key (formatLld (0 + delta)) 0).bind ?_
      rintro r m' ⟨hmemory, -⟩
      exact .pure ⟨hmemory, rfl⟩
  | @some a f ha =>
    obtain ⟨p, next, F, rfl, hentry, hcells, -⟩ := ha.focus h'
    have hvalue : ((p.node next).val, Obj.bytes (p.entry.val ++ [0])) ∈ p.cells next + F :=
      Multiset.mem_add.mpr (.inl (p.val_mem next))
    rw [hcells]
    refine loadNode_spec (parseStrictLl_spec hvalue ?_)
    rw [← hcells, hentry]
    cases hparse : Store.parseStrictLl f.entry.val with
    | none =>
      simp only [hparse]
      exact .pure ⟨⟨c', h', rfl⟩, rfl⟩
    | some current =>
      simp only [hparse]
      by_cases hover : incrOverflows current delta
      · simp only [if_pos hover]
        exact .pure ⟨⟨c', h', rfl⟩, rfl⟩
      · simp only [if_neg hover]
        refine (replaceValue_spec h' ha (formatLld (current + delta)) none).bind ?_
        rintro - m' hmemory
        exact .pure ⟨hmemory, rfl⟩

end Calls

end Linked

end RedisServer

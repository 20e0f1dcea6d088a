import RedisServer.Linked.Chains

namespace RedisServer

namespace Linked

open Cells

def heads (chains : List (List Placed)) : List (Option Nat) := chains.map (head · none)

theorem length_heads (chains : List (List Placed)) : (heads chains).length = chains.length :=
  List.length_map _

def chainCells (chains : List (List Placed)) : Multiset (Nat × Obj) :=
  (chains.map (segment · none)).sum

def tableCells (buckets : Option Nat) (chains : List (List Placed)) : Multiset (Nat × Obj) :=
  (buckets.elim 0 (fun array => {(array, .array (heads chains))})) + chainCells chains

-- all chains but those of bucket b
def others (chains : List (List Placed)) (b : Nat) : Multiset (Nat × Obj) :=
  chainCells (chains.eraseIdx b)

theorem others_succ (c : List Placed) (chains : List (List Placed)) (b : Nat) :
    others (c :: chains) (b + 1) = segment c none + others chains b := rfl

theorem chainCells_set {chains : List (List Placed)} {b : Nat} (hb : b < chains.length)
    (ps : List Placed) : chainCells (chains.set b ps) = segment ps none + others chains b := by
  induction chains generalizing b with
  | nil => cases hb
  | cons c chains ih =>
    cases b with
    | zero => rfl
    | succ b =>
      have hcons : chainCells ((c :: chains).set (b + 1) ps) =
          segment c none + chainCells (chains.set b ps) := rfl
      rw [hcons, ih (Nat.lt_of_succ_lt_succ hb), others_succ]
      abel

theorem heads_set (chains : List (List Placed)) (b : Nat) (ps : List Placed) :
    heads (chains.set b ps) = (heads chains).set b (head ps none) := List.map_set

theorem tableCells_set (array : Nat) {chains : List (List Placed)} {b : Nat}
    (hb : b < chains.length) (pre post : List Placed) :
    tableCells (some array) (chains.set b (pre ++ post)) =
      link array b (heads chains) pre (head post none) +
        (segment post none + others chains b) := by
  rw [tableCells, chainCells_set hb, heads_set, segment_append, head_append, link, add_assoc,
    Option.elim_some, Multiset.singleton_add, Multiset.cons_add]

theorem set_of_getElem? {α : Type} {l : List α} {i : Nat} {x : α} (h : l[i]? = some x) :
    l.set i x = l := by
  obtain ⟨hi, rfl⟩ := List.getElem?_eq_some_iff.mp h
  exact List.set_getElem_self hi

theorem tableCells_eq (array : Nat) {chains : List (List Placed)} {b : Nat} {pre post : List Placed}
    (hb : chains[b]? = some (pre ++ post)) :
    tableCells (some array) chains = link array b (heads chains) pre (head post none) +
      (segment post none + others chains b) := by
  have hset := tableCells_set array (List.getElem?_eq_some_iff.mp hb).1 pre post
  rwa [set_of_getElem? hb] at hset

theorem tableCells_front (array : Nat) {chains : List (List Placed)} {b : Nat} {ps : List Placed}
    (hb : chains[b]? = some ps) : tableCells (some array) chains =
      link array b (heads chains) [] (head ps none) + (segment ps none + others chains b) := by
  rw [← List.nil_append ps] at hb
  exact tableCells_eq array hb

theorem array_mem (array : Nat) (chains : List (List Placed)) :
    (array, .array (heads chains)) ∈ tableCells (some array) chains := by
  simp [tableCells]

theorem readBucket_spec {α : Type} {m : Multiset (Nat × Obj)}
    {Q : α → Multiset (Nat × Obj) → Prop} {array i : Nat} {chains : List (List Placed)}
    {ps : List Placed} (ha : (array, .array (heads chains)) ∈ m) (hi : chains[i]? = some ps)
    {f : Option Nat → Prog Obj α} (hf : Triple m (f (head ps none)) Q) :
    Triple m (readSlot (.bucket array i) >>= f) Q := by
  rw [readSlot, bind_assoc]
  refine loadArray_spec ha ?_
  rw [heads, List.getElem?_map, hi]
  exact hf

-- t is laid out in memory as the chains of T
structure Laid (t : StoreTable) (T : Table) (chains : List (List Placed)) : Prop where
  size : t.size = T.size
  mask : t.mask = T.mask
  used : t.used = T.used
  buckets : chains.map (·.map Placed.entry) = T.buckets
  length : chains.length = T.size
  array : t.buckets = none ↔ T.size = 0

namespace Laid

variable {t : StoreTable} {T : Table} {chains : List (List Placed)}

theorem chain (h : Laid t T chains) {b : Nat} {ps : List Placed} (hb : chains[b]? = some ps) :
    T.chain b = ps.map Placed.entry := by
  rw [Table.chain, ← h.buckets, List.getD_eq_getElem?_getD, List.getElem?_map, hb]
  rfl

theorem exists_array (h : Laid t T chains) (hpos : 0 < T.size) :
    ∃ array, t.buckets = some array :=
  Option.ne_none_iff_exists'.mp (fun hnone => hpos.ne' (h.array.mp hnone))

theorem bucketAt (h : Laid t T chains) {α : Type} {m : Multiset (Nat × Obj)} {i : Nat}
    {Q : α → Multiset (Nat × Obj) → Prop} {f : SlotPtr → Prog Obj α} (hi : i < T.size)
    (hf : ∀ array, t.buckets = some array → Triple m (f (.bucket array i)) Q) :
    Triple m (t.bucketAt i >>= f) Q := by
  obtain ⟨array, harray⟩ := h.exists_array (Nat.zero_lt_of_lt hi)
  rw [StoreTable.bucketAt, harray]
  exact hf array harray

end Laid

-- p is the entry that the list model has at slot
structure Stands (chains : List (List Placed)) (slot : Slot) (pre : List Placed) (p : Placed)
    (post : List Placed) : Prop where
  chain : chains[slot.bucket]? = some (pre ++ p :: post)
  pos : pre.length = slot.pos

-- ptr is the address of the link to p
def PointsTo (t : StoreTable) (chains : List (List Placed)) (ptr : SlotPtr) (slot : Slot)
    (p : Placed) : Prop :=
  ∃ array pre post, t.buckets = some array ∧ Stands chains slot pre p post ∧
    ptr = slotAfter array slot.bucket pre

theorem keyIs_spec {α : Type} {m : Multiset (Nat × Obj)} {Q : α → Multiset (Nat × Obj) → Prop}
    {p : Placed} {next : Option Nat} {key : Bytes} {f : Bool → Prog Obj α}
    (hp : (p.keyAddr, .bytes (p.entry.key ++ [0])) ∈ m)
    (hf : Triple m (f (decide (p.entry.key = key))) Q) :
    Triple m ((p.node next).keyIs key >>= f) Q := by
  rw [EntryNode.keyIs]
  split_ifs with hlen
  · rw [bind_assoc, ← hlen]
    exact readText_spec hp hf
  · have hne : p.entry.key ≠ key := fun h => hlen (congrArg List.length h)
    rw [decide_eq_false hne] at hf
    exact hf

-- the chain is pre ++ rest, and the walk stands behind pre
theorem findFrom_spec {array b : Nat} {hs : List (Option Nat)} (hb : b < hs.length) (key : Bytes)
    {m F : Multiset (Nat × Obj)} {rest pre : List Placed}
    (hm : m = link array b hs pre (head rest none) + segment rest none + F) {n : Nat}
    (hn : rest.length ≤ n) :
    Triple m (findFrom key (n + 1) (slotAfter array b pre)) (fun r m' => m' = m ∧
      Option.Rel (fun slot (x : Nat × Entry) => ∃ pre' p post, pre ++ rest = pre' ++ p :: post ∧
        pre'.length = x.1 ∧ p.entry = x.2 ∧ slot = slotAfter array b pre')
        r (findInChain key (rest.map Placed.entry) pre.length)) := by
  induction rest generalizing pre n with
  | nil =>
    rw [findFrom, hm, add_assoc]
    exact readSlot_link hb pre _ (.pure ⟨rfl, .none⟩)
  | cons p rest ih =>
    have hentry : (p.addr, .entry (p.node (head rest none))) ∈ m := by
      rw [hm, segment]
      simp
    have hkey : (p.keyAddr, .bytes (p.entry.key ++ [0])) ∈ m := by
      rw [hm, segment]
      simp
    rw [findFrom]
    have hread {α : Type} {Q : α → Multiset (Nat × Obj) → Prop} {f : Option Nat → Prog Obj α}
        (hf : Triple m (f (some p.addr)) Q) :
        Triple m (readSlot (slotAfter array b pre) >>= f) Q := by
      rw [hm, add_assoc] at hf ⊢
      exact readSlot_link hb pre _ hf
    refine hread (loadEntry_spec hentry (keyIs_spec hkey ?_))
    rw [List.map_cons, findInChain]
    by_cases hk : p.entry.key = key
    · rw [decide_eq_true hk, if_pos rfl, if_pos hk]
      exact .pure ⟨rfl, .some ⟨pre, p, rest, rfl, rfl, rfl, rfl⟩⟩
    · rw [decide_eq_false hk, if_neg Bool.false_ne_true, if_neg hk]
      cases n with
      | zero => exact absurd hn (by simp)
      | succ n =>
        have hnext : m = link array b hs (pre ++ [p]) (head rest none) + segment rest none + F := by
          have hp : head (p :: rest) none = some p.addr := rfl
          rw [hm, link_snoc, segment, hp]
          abel
        have hstep := ih hnext (Nat.le_of_succ_le_succ hn)
        rw [slotAfter_snoc, List.length_append, List.append_assoc] at hstep
        exact hstep

theorem length_le_card {chains : List (List Placed)} {b : Nat} {ps : List Placed}
    (hb : chains[b]? = some ps) (array : Nat) (F : Multiset (Nat × Obj)) :
    ps.length ≤ (tableCells (some array) chains + F).card := by
  rw [tableCells_front array hb]
  simp only [Multiset.card_add, card_segment]
  omega

theorem findInTable_spec {t : StoreTable} {T : Table} {chains : List (List Placed)}
    (h : Laid t T chains) (key : Bytes) (x : UInt64) (hx : T.size ≠ 0 → bucketIndex T x < T.size)
    (F : Multiset (Nat × Obj)) :
    Triple (tableCells t.buckets chains + F) (findInTable t key x) (fun r m' =>
      m' = tableCells t.buckets chains + F ∧
      Option.Rel (fun ptr (y : Slot × Entry) => ∃ p, p.entry = y.2 ∧ PointsTo t chains ptr y.1 p)
        r (RedisServer.findInTable T key x)) := by
  rw [findInTable, RedisServer.findInTable, h.size]
  split_ifs with hz
  · exact .pure ⟨rfl, .none⟩
  · have hindex : x.toNat &&& t.mask = bucketIndex T x := by rw [h.mask, bucketIndex]
    rw [hindex]
    refine h.bucketAt (hx hz) (fun array harray => ?_)
    have hlt : bucketIndex T x < chains.length := h.length ▸ hx hz
    have hb : chains[bucketIndex T x]? = some (chains[bucketIndex T x]) :=
      List.getElem?_eq_getElem hlt
    generalize chains[bucketIndex T x] = ps at hb
    rw [harray, h.chain hb]
    refine .bounded (fun n hn => ?_)
    have hcells : tableCells (some array) chains + F =
        link array (bucketIndex T x) (heads chains) [] (head ps none) + segment ps none +
          (others chains (bucketIndex T x) + F) := by
      rw [tableCells_front array hb]
      abel
    have hfind := findFrom_spec (by rwa [length_heads]) key hcells
      ((length_le_card hb array F).trans hn)
    refine hfind.mono ?_
    rintro r m' ⟨rfl, hr⟩
    refine ⟨rfl, ?_⟩
    rw [List.length_nil] at hr
    generalize findInChain key (ps.map Placed.entry) 0 = found at hr
    cases hr with
    | none => exact .none
    | @some slot y hy =>
      obtain ⟨pre, p, post, hps, hlen, hentry, hslot⟩ := hy
      exact .some ⟨p, hentry, array, pre, post, harray, ⟨by rw [hb, ← hps]; rfl, hlen⟩, hslot⟩

end Linked

end RedisServer

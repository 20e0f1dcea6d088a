import RedisServer.Linked.Store

namespace RedisServer

namespace Linked

open Cells

-- an entry of the list model with the addresses of its three blocks
structure Placed where
  addr : Nat
  keyAddr : Nat
  valAddr : Nat
  entry : Entry

def Placed.node (p : Placed) (next : Option Nat) : EntryNode where
  key := p.keyAddr
  keyLen := p.entry.key.length
  val := p.valAddr
  valLen := p.entry.val.length
  expireAtMs := p.entry.expireAtMs
  next := next

def Placed.blocks (p : Placed) (e : EntryNode) : Multiset (Nat × Obj) :=
  (p.addr, .entry e) ::ₘ (p.keyAddr, .bytes (p.entry.key ++ [0])) ::ₘ
    {(p.valAddr, .bytes (p.entry.val ++ [0]))}

def Placed.cells (p : Placed) (next : Option Nat) : Multiset (Nat × Obj) := p.blocks (p.node next)

namespace Placed

@[simp] theorem node_mem (p : Placed) (next : Option Nat) :
    (p.addr, .entry (p.node next)) ∈ p.cells next := by
  simp [cells, blocks]

@[simp] theorem key_mem (p : Placed) (next : Option Nat) :
    (p.keyAddr, .bytes (p.entry.key ++ [0])) ∈ p.cells next := by
  simp [cells, blocks]

@[simp] theorem val_mem (p : Placed) (next : Option Nat) :
    (p.valAddr, .bytes (p.entry.val ++ [0])) ∈ p.cells next := by
  simp [cells, blocks]

end Placed

-- where a chain begins, if it ends in last
def head (ps : List Placed) (last : Option Nat) : Option Nat :=
  (ps.head?.map Placed.addr).or last

def segment : List Placed → Option Nat → Multiset (Nat × Obj)
  | [], _ => 0
  | p :: ps, last => p.cells (head ps last) + segment ps last

theorem head_nil (last : Option Nat) : head [] last = last := rfl

theorem head_cons (p : Placed) (ps : List Placed) (last : Option Nat) :
    head (p :: ps) last = some p.addr := rfl

theorem head_append (ps qs : List Placed) (last : Option Nat) :
    head (ps ++ qs) last = head ps (head qs last) := by
  cases ps with
  | nil => cases qs <;> rfl
  | cons p ps => rfl

theorem segment_append (ps qs : List Placed) (last : Option Nat) :
    segment (ps ++ qs) last = segment ps (head qs last) + segment qs last := by
  induction ps with
  | nil => rw [List.nil_append, segment, zero_add]
  | cons p ps ih => rw [List.cons_append, segment, segment, ih, head_append, add_assoc]

theorem card_segment (ps : List Placed) (last : Option Nat) :
    (segment ps last).card = 3 * ps.length := by
  induction ps with
  | nil => rfl
  | cons p ps ih =>
    rw [segment, Multiset.card_add, ih, List.length_cons]
    simp only [Placed.cells, Placed.blocks, Multiset.card_cons, Multiset.card_singleton]
    omega

-- a bucket of the array hs and the entries pre that stand in it, the last of them linked to x
def link (array b : Nat) (hs : List (Option Nat)) (pre : List Placed) (x : Option Nat) :
    Multiset (Nat × Obj) :=
  (array, .array (hs.set b (head pre x))) ::ₘ segment pre x

def slotAfter (array b : Nat) (pre : List Placed) : SlotPtr :=
  match pre.getLast? with
  | none => .bucket array b
  | some q => .next q.addr

theorem slotAfter_nil (array b : Nat) : slotAfter array b [] = .bucket array b := rfl

theorem slotAfter_snoc (array b : Nat) (pre : List Placed) (q : Placed) :
    slotAfter array b (pre ++ [q]) = .next q.addr := by
  rw [slotAfter, List.getLast?_append_cons]
  rfl

theorem link_snoc (array b : Nat) (hs : List (Option Nat)) (pre : List Placed) (q : Placed)
    (x : Option Nat) :
    link array b hs (pre ++ [q]) x = q.cells x + link array b hs pre (some q.addr) := by
  have hq : head [q] x = some q.addr := rfl
  rw [link, link, segment_append, head_append, hq, segment, segment, add_zero,
    add_comm (segment pre _), Multiset.add_cons]
  rfl

section Blocks

variable {α : Type} {F : Multiset (Nat × Obj)} {Q : α → Multiset (Nat × Obj) → Prop}

theorem loadEntry_spec {m : Multiset (Nat × Obj)} {a : Nat} {e : EntryNode}
    {f : EntryNode → Prog Obj α} (ha : (a, .entry e) ∈ m) (hf : Triple m (f e) Q) :
    Triple m (loadEntry a >>= f) Q := by
  rw [loadEntry, bind_assoc]
  exact .load ha hf

theorem loadArray_spec {m : Multiset (Nat × Obj)} {a : Nat} {slots : List (Option Nat)}
    {f : List (Option Nat) → Prog Obj α} (ha : (a, .array slots) ∈ m) (hf : Triple m (f slots) Q) :
    Triple m (loadArray a >>= f) Q := by
  rw [loadArray, bind_assoc]
  exact .load ha hf

theorem readBytes_spec {m : Multiset (Nat × Obj)} {a n : Nat} {data : Bytes}
    {f : Bytes → Prog Obj α} (ha : (a, .bytes data) ∈ m) (hn : n ≤ data.length)
    (hf : Triple m (f (data.take n)) Q) : Triple m (readBytes a n >>= f) Q := by
  rw [readBytes, loadBytes, bind_assoc, bind_assoc]
  refine .load ha ?_
  simp only [pure_bind, if_pos hn]
  exact hf

theorem readText_spec {m : Multiset (Nat × Obj)} {a : Nat} {text : Bytes}
    {f : Bytes → Prog Obj α} (ha : (a, .bytes (text ++ [0])) ∈ m) (hf : Triple m (f text) Q) :
    Triple m (readBytes a text.length >>= f) Q := by
  refine readBytes_spec ha (by simp) ?_
  rw [List.take_left']
  · exact hf
  · rfl

theorem readSlot_link {array b : Nat} {hs : List (Option Nat)} (hb : b < hs.length)
    (pre : List Placed) (x : Option Nat) {f : Option Nat → Prog Obj α}
    (hf : Triple (link array b hs pre x + F) (f x) Q) :
    Triple (link array b hs pre x + F) (readSlot (slotAfter array b pre) >>= f) Q := by
  rcases List.eq_nil_or_concat pre with rfl | ⟨pre, q, rfl⟩
  · rw [slotAfter_nil, readSlot, bind_assoc]
    refine loadArray_spec (Multiset.mem_add.mpr (.inl (Multiset.mem_cons_self _ _))) ?_
    rw [List.getElem?_set_self hb]
    exact hf
  · rw [List.concat_eq_append] at hf ⊢
    rw [slotAfter_snoc, readSlot, bind_assoc]
    refine loadEntry_spec (e := q.node x) ?_ hf
    rw [link_snoc]
    simp

theorem writeSlot_link {array b : Nat} {hs : List (Option Nat)} (hb : b < hs.length)
    (pre : List Placed) (x y : Option Nat) {f : Unit → Prog Obj α}
    (hf : Triple (link array b hs pre y + F) (f ()) Q) :
    Triple (link array b hs pre x + F) (writeSlot (slotAfter array b pre) y >>= f) Q := by
  rcases List.eq_nil_or_concat pre with rfl | ⟨pre, q, rfl⟩
  · rw [slotAfter_nil, writeSlot, bind_assoc]
    refine loadArray_spec (Multiset.mem_add.mpr (.inl (Multiset.mem_cons_self _ _))) ?_
    rw [if_pos (by simpa using hb), List.set_set]
    rw [link, Multiset.cons_add]
    refine .store ?_
    rw [← Multiset.cons_add]
    exact hf
  · rw [List.concat_eq_append] at hf ⊢
    rw [slotAfter_snoc, writeSlot, bind_assoc]
    refine loadEntry_spec (e := q.node x) ?_ ?_
    · rw [link_snoc]
      simp
    · rw [link_snoc, Placed.cells, Placed.blocks, Multiset.cons_add, Multiset.cons_add]
      refine .store ?_
      rw [← Multiset.cons_add, ← Multiset.cons_add]
      rw [link_snoc] at hf
      exact hf

end Blocks

end Linked

end RedisServer

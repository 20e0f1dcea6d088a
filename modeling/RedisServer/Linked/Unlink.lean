import RedisServer.Linked.Layout

namespace RedisServer

namespace Linked

open Cells

variable {hash : Bytes → UInt64}

section Blocks

variable {α : Type} {F m : Multiset (Nat × Obj)} {Q : α → Multiset (Nat × Obj) → Prop} {p : Placed}
  {next : Option Nat}

theorem loadNode_spec {f : EntryNode → Prog Obj α}
    (hf : Triple (p.cells next + F) (f (p.node next)) Q) :
    Triple (p.cells next + F) (loadEntry p.addr >>= f) Q :=
  loadEntry_spec (by simp) hf

theorem freeEntry_spec {f : Unit → Prog Obj α} (hf : Triple F (f ()) Q) :
    Triple (p.cells next + F) (freeEntry p.addr >>= f) Q := by
  rw [freeEntry, bind_assoc]
  refine loadNode_spec ?_
  rw [bind_assoc, bind_assoc, Placed.cells, Placed.blocks, Multiset.cons_add, Multiset.cons_add,
    Multiset.singleton_add, Multiset.cons_swap]
  refine .free ?_
  rw [Multiset.cons_swap]
  exact .free (.free hf)

theorem entryAt_spec {array b : Nat} {hs : List (Option Nat)} (hb : b < hs.length)
    {pre : List Placed} {a : Nat} {f : Nat → Prog Obj α}
    (hf : Triple (link array b hs pre (some a) + F) (f a) Q) :
    Triple (link array b hs pre (some a) + F) (entryAt (slotAfter array b pre) >>= f) Q := by
  rw [entryAt, bind_assoc]
  exact readSlot_link hb pre _ hf

end Blocks

section Unlink

variable {s : LinkedStore} {S : Store} {c : Layout} {α : Type}
  {Q : α → Multiset (Nat × Obj) → Prop}

-- the cells around an entry: its link, itself and the rest
theorem PointsTo.cells {t : StoreTable} {chains : List (List Placed)} {ptr : SlotPtr} {slot : Slot}
    {p : Placed} (h : PointsTo t chains ptr slot p) (F : Multiset (Nat × Obj)) :
    ∃ array pre post G, t.buckets = some array ∧ Stands chains slot pre p post ∧
      ptr = slotAfter array slot.bucket pre ∧ slot.bucket < (heads chains).length ∧
      tableCells t.buckets chains + F =
        link array slot.bucket (heads chains) pre (some p.addr) +
          (p.cells (head post none) + G) ∧
      tableCells t.buckets (chains.set slot.bucket (pre ++ post)) + F =
        link array slot.bucket (heads chains) pre (head post none) + G := by
  obtain ⟨array, pre, post, harray, hp, hptr⟩ := h
  have hb : slot.bucket < chains.length := (List.getElem?_eq_some_iff.mp hp.chain).1
  refine ⟨array, pre, post, segment post none + others chains slot.bucket + F, harray, hp, hptr,
    by rwa [length_heads], ?_, ?_⟩
  · rw [harray, tableCells_eq array hp.chain, head_cons, segment]
    abel
  · rw [harray, tableCells_set array hb]
    abel

theorem Finds.entryAt {y : TableId × SlotPtr} {f : Found} {p : Placed} (hy : Finds s c y f p)
    {g : Nat → Prog Obj α} (hg : Triple (storeCells s c) (g p.addr) Q) :
    Triple (storeCells s c) (entryAt y.2 >>= g) Q := by
  obtain ⟨array, pre, post, G, -, -, hptr, hb, hcells, -⟩ :=
    hy.points.cells (otherCells s c f.table)
  rw [← storeCells_eq] at hcells
  rw [hcells] at hg ⊢
  rw [hptr]
  exact entryAt_spec hb hg

theorem Finds.loadEntry {y : TableId × SlotPtr} {f : Found} {p : Placed} (hy : Finds s c y f p)
    {g : EntryNode → Prog Obj α} (hg : ∀ next, Triple (storeCells s c) (g (p.node next)) Q) :
    Triple (storeCells s c) (loadEntry p.addr >>= g) Q := by
  obtain ⟨array, pre, post, G, -, -, -, -, hcells, -⟩ := hy.points.cells (otherCells s c f.table)
  rw [← storeCells_eq, add_left_comm] at hcells
  have hnode := hg (head post none)
  rw [hcells] at hnode ⊢
  exact loadNode_spec hnode

theorem Finds.unlink (h : StoreLaid s S c) {y : TableId × SlotPtr} {f : Found} {p : Placed}
    (hy : Finds s c y f p) :
    Triple (storeCells s c) (unlink s y.1 y.2 p.addr)
      (fun s' m' => Memory s' (S.unlink f) m') := by
  obtain ⟨array, pre, post, G, -, hp, hptr, hb, hbefore, hafter⟩ :=
    hy.points.cells (otherCells s c f.table)
  rw [← storeCells_eq] at hbefore
  rw [hbefore, hptr, hy.table, Linked.unlink, add_left_comm]
  refine loadNode_spec ?_
  rw [add_left_comm]
  refine writeSlot_link hb pre _ (head post none) ?_
  rw [add_left_comm]
  refine freeEntry_spec (.pure ?_)
  refine ⟨_, h.set _ ((h.table f.table).unlink hp), ?_⟩
  rw [storeCells_set, ← hafter]

-- the entry that locate_live returns, and where the list model has it
def Located (c : Layout) (a : Nat) (f : Found) : Prop :=
  ∃ pre p post, Stands (c f.table) f.slot pre p post ∧ p.addr = a ∧ p.entry = f.entry

theorem Finds.located {y : TableId × SlotPtr} {f : Found} {p : Placed} (hy : Finds s c y f p) :
    Located c p.addr f := by
  obtain ⟨array, pre, post, -, hp, -⟩ := hy.points
  exact ⟨pre, p, post, hp, rfl, hy.entry⟩

theorem locateLive_spec (h : StoreLaid s S c) (hs : S.Sound hash) (key : Bytes) (now : Int64) :
    Triple (storeCells s c) (locateLive hash s key now) (fun r m' =>
      ∃ c', StoreLaid r.1 (RedisServer.locateLive hash S key now).1 c' ∧ m' = storeCells r.1 c' ∧
        Option.Rel (Located c') r.2 (RedisServer.locateLive hash S key now).2) := by
  rw [locateLive, RedisServer.locateLive]
  refine (findSlotEither_spec h hs key (hash key)).bind ?_
  rintro r m' ⟨rfl, hr⟩
  generalize RedisServer.findSlotEither S key (hash key) = found at hr
  cases hr with
  | none => exact .pure ⟨c, h, rfl, .none⟩
  | @some y f hy =>
    obtain ⟨p, hy⟩ := hy
    refine hy.entryAt (hy.loadEntry (fun next => ?_))
    have hexp : (p.node next).expireAtMs = f.entry.expireAtMs := congrArg Entry.expireAtMs hy.entry
    simp only [hexp]
    split_ifs
    · refine (hy.unlink h).bind ?_
      rintro s' m' ⟨c', hlaid, rfl⟩
      exact .pure ⟨c', hlaid, rfl, .none⟩
    · exact .pure ⟨c, h, rfl, .some hy.located⟩

end Unlink

end Linked

end RedisServer

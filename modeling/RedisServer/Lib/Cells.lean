import Mathlib.Algebra.Order.Group.Multiset
import Mathlib.Data.Multiset.Range
import Mathlib.Tactic

namespace Cells

inductive Fault where
  | dangling
  | mistyped
  | outOfBounds
  | stuck
  deriving DecidableEq, Repr

-- objects at addresses; an address is given out once, so a stale one dangles for ever
structure Heap (O : Type) where
  cell : Nat → Option O
  next : Nat
  unused : ∀ a, next ≤ a → cell a = none

abbrev Prog (O : Type) : Type → Type := StateT (Heap O) (Except Fault)

variable {O α β : Type}

def fail (f : Fault) : Prog O α := fun _ => .error f

def load (a : Nat) : Prog O O := fun h =>
  match h.cell a with
  | some o => .ok (o, h)
  | none => .error .dangling

def Heap.push (h : Heap O) (o : O) : Heap O where
  cell := Function.update h.cell h.next (some o)
  next := h.next + 1
  unused := fun a ha => by
    rw [Function.update_of_ne (Nat.ne_of_gt ha)]
    exact h.unused a (Nat.le_of_succ_le ha)

def malloc (o : O) : Prog O Nat := fun h => .ok (h.next, h.push o)

-- x is what an allocated address holds from now on, or none
def Heap.put (h : Heap O) (a : Nat) (x : Option O) (ha : (h.cell a).isSome) : Heap O where
  cell := Function.update h.cell a x
  next := h.next
  unused := fun b hb => by
    have hne : b ≠ a := by
      rintro rfl
      rw [h.unused b hb] at ha
      cases ha
    rw [Function.update_of_ne hne]
    exact h.unused b hb

def store (a : Nat) (o : O) : Prog O Unit := fun h =>
  if ha : (h.cell a).isSome then .ok ((), h.put a (some o) ha) else .error .dangling

def free (a : Nat) : Prog O Unit := fun h =>
  if ha : (h.cell a).isSome then .ok ((), h.put a none ha) else .error .dangling

-- a walk along links meets no address twice, so there are no more turns than addresses
def bounded (body : Nat → Prog O α) : Prog O α := fun h => body (h.next + 1) h

-- the allocated cells, as a multiset that is cut into the parts of a data structure by +
structure Heap.Is (h : Heap O) (m : Multiset (Nat × O)) : Prop where
  nodup : (m.map Prod.fst).Nodup
  cell : ∀ a o, h.cell a = some o ↔ (a, o) ∈ m

def Heap.cells (h : Heap O) : Multiset (Nat × O) :=
  (Multiset.range h.next).filterMap (fun a => (h.cell a).map (a, ·))

theorem Heap.is_cells (h : Heap O) : h.Is h.cells := by
  have hmem (a : Nat) (o : O) : (a, o) ∈ h.cells ↔ h.cell a = some o := by
    rw [Heap.cells, Multiset.mem_filterMap]
    constructor
    · rintro ⟨b, -, hb⟩
      obtain ⟨x, hx, heq⟩ := Option.map_eq_some_iff.mp hb
      cases heq
      exact hx
    · intro ho
      refine ⟨a, Multiset.mem_range.mpr ?_, by rw [ho]; rfl⟩
      by_contra hge
      rw [h.unused a (Nat.le_of_not_lt hge)] at ho
      cases ho
  refine ⟨?_, fun a o => (hmem a o).symm⟩
  rw [Heap.cells, Multiset.map_filterMap]
  refine (Multiset.nodup_range _).filterMap _ (fun a a' b ha ha' => ?_)
  simp only [Option.map_map, Option.mem_def, Option.map_eq_some_iff] at ha ha'
  obtain ⟨x, -, rfl⟩ := ha
  obtain ⟨x', -, heq⟩ := ha'
  exact heq.symm

namespace Heap.Is

variable {h : Heap O} {m : Multiset (Nat × O)} {a : Nat} {o : O}

theorem absent (hm : h.Is ((a, o) ::ₘ m)) (o' : O) : (a, o') ∉ m := by
  have hn := hm.nodup
  rw [Multiset.map_cons, Multiset.nodup_cons] at hn
  exact fun hmem => hn.1 (Multiset.mem_map.mpr ⟨_, hmem, rfl⟩)

theorem live (hm : h.Is m) (ha : (a, o) ∈ m) : (h.cell a).isSome := by
  rw [(hm.cell a o).mpr ha]
  rfl

theorem card_le (hm : h.Is m) : m.card ≤ h.next := by
  have hsub : m.map Prod.fst ≤ Multiset.range h.next := by
    refine (Multiset.le_iff_subset hm.nodup).mpr (fun a ha => ?_)
    obtain ⟨⟨a, o⟩, hmem, rfl⟩ := Multiset.mem_map.mp ha
    rw [Multiset.mem_range]
    by_contra hge
    have hnone := h.unused a (Nat.le_of_not_lt hge)
    rw [(hm.cell a o).mpr hmem] at hnone
    cases hnone
  simpa using Multiset.card_le_card hsub

theorem unique {h' : Heap O} {m : Multiset (Nat × O)} (hm' : h'.Is m) (hm : h.Is m) :
    h'.cell = h.cell := by
  funext a
  refine Option.ext (fun o => ?_)
  rw [hm'.cell a o, hm.cell a o]

theorem put (hm : h.Is ((a, o) ::ₘ m)) (o' : O) (ha : (h.cell a).isSome) :
    (h.put a (some o') ha).Is ((a, o') ::ₘ m) := by
  refine ⟨by simpa using hm.nodup, fun b x => ?_⟩
  by_cases hb : b = a
  · subst hb
    simp [Heap.put, hm.absent, eq_comm]
  · have hcell : (h.put a (some o') ha).cell b = h.cell b := Function.update_of_ne hb _ _
    rw [hcell, hm.cell b x]
    simp [hb]

theorem drop (hm : h.Is ((a, o) ::ₘ m)) (ha : (h.cell a).isSome) :
    (h.put a none ha).Is m := by
  have hn := hm.nodup
  rw [Multiset.map_cons, Multiset.nodup_cons] at hn
  refine ⟨hn.2, fun b x => ?_⟩
  by_cases hb : b = a
  · subst hb
    simp [Heap.put, hm.absent]
  · have hcell : (h.put a none ha).cell b = h.cell b := Function.update_of_ne hb _ _
    rw [hcell, hm.cell b x]
    simp [hb]

theorem fresh (hm : h.Is m) (x : O) : (h.next, x) ∉ m := by
  intro hmem
  have hlive := hm.live hmem
  rw [h.unused _ le_rfl] at hlive
  cases hlive

theorem push (hm : h.Is m) (o : O) : (h.push o).Is ((h.next, o) ::ₘ m) := by
  refine ⟨?_, fun b x => ?_⟩
  · rw [Multiset.map_cons, Multiset.nodup_cons]
    refine ⟨fun hmem => ?_, hm.nodup⟩
    obtain ⟨⟨b, x⟩, hmem, rfl⟩ := Multiset.mem_map.mp hmem
    exact hm.fresh x hmem
  · by_cases hb : b = h.next
    · subst hb
      simp [Heap.push, hm.fresh, eq_comm]
    · have hcell : (h.push o).cell b = h.cell b := Function.update_of_ne hb _ _
      rw [hcell, hm.cell b x]
      simp [hb]

end Heap.Is

-- p has these cells and any others F; it comes to its end without a fault and leaves F alone
def Triple (m : Multiset (Nat × O)) (p : Prog O α) (Q : α → Multiset (Nat × O) → Prop) : Prop :=
  ∀ (F : Multiset (Nat × O)) (h : Heap O), h.Is (m + F) →
    ∃ r h' m', p h = .ok (r, h') ∧ h'.Is (m' + F) ∧ Q r m'

namespace Triple

variable {m : Multiset (Nat × O)} {Q : β → Multiset (Nat × O) → Prop}

theorem pure {Q : α → Multiset (Nat × O) → Prop} {r : α} (h : Q r m) : Triple m (pure r) Q :=
  fun _ heap hm => ⟨r, heap, m, rfl, hm, h⟩

theorem bind {p : Prog O α} {f : α → Prog O β} {R : α → Multiset (Nat × O) → Prop}
    (hp : Triple m p R) (hf : ∀ r m', R r m' → Triple m' (f r) Q) : Triple m (p >>= f) Q := by
  intro F heap hm
  obtain ⟨r, heap', m', hr, hm', hR⟩ := hp F heap hm
  obtain ⟨s, heap'', m'', hs, hm'', hQ⟩ := hf r m' hR F heap' hm'
  refine ⟨s, heap'', m'', ?_, hm'', hQ⟩
  change Except.bind (p heap) (fun x => f x.1 x.2) = _
  rw [hr]
  exact hs

theorem frame {p : Prog O β} (hp : Triple m p Q) (F : Multiset (Nat × O)) :
    Triple (m + F) p (fun r m' => ∃ k, m' = k + F ∧ Q r k) := by
  intro G heap hm
  rw [add_assoc] at hm
  obtain ⟨r, heap', k, hr, hm', hQ⟩ := hp (F + G) heap hm
  rw [← add_assoc] at hm'
  exact ⟨r, heap', k + F, hr, hm', k, rfl, hQ⟩

theorem mono {p : Prog O β} {R : β → Multiset (Nat × O) → Prop} (hp : Triple m p R)
    (h : ∀ r m', R r m' → Q r m') : Triple m p Q := by
  intro F heap hm
  obtain ⟨r, heap', m', hr, hm', hR⟩ := hp F heap hm
  exact ⟨r, heap', m', hr, hm', h r m' hR⟩

theorem load {a : Nat} {o : O} {f : O → Prog O β} (ha : (a, o) ∈ m) (hf : Triple m (f o) Q) :
    Triple m (Cells.load a >>= f) Q := by
  refine .bind (R := fun r m' => r = o ∧ m' = m) (fun F heap hm => ?_) ?_
  · refine ⟨o, heap, m, ?_, hm, rfl, rfl⟩
    rw [Cells.load, (hm.cell a o).mpr (Multiset.mem_add.mpr (.inl ha))]
  · rintro r m' ⟨rfl, rfl⟩
    exact hf

theorem store {a : Nat} {o o' : O} {f : Unit → Prog O β}
    (hf : Triple ((a, o') ::ₘ m) (f ()) Q) :
    Triple ((a, o) ::ₘ m) (Cells.store a o' >>= f) Q := by
  refine .bind (R := fun _ m' => m' = (a, o') ::ₘ m) (fun F heap hm => ?_) ?_
  · rw [Multiset.cons_add] at hm
    have ha := hm.live (Multiset.mem_cons_self _ _)
    refine ⟨(), _, _, dif_pos ha, ?_, rfl⟩
    rw [Multiset.cons_add]
    exact hm.put o' ha
  · rintro ⟨⟩ m' rfl
    exact hf

theorem free {a : Nat} {o : O} {f : Unit → Prog O β} (hf : Triple m (f ()) Q) :
    Triple ((a, o) ::ₘ m) (Cells.free a >>= f) Q := by
  refine .bind (R := fun _ m' => m' = m) (fun F heap hm => ?_) ?_
  · rw [Multiset.cons_add] at hm
    have ha := hm.live (Multiset.mem_cons_self _ _)
    exact ⟨(), _, _, dif_pos ha, hm.drop ha, rfl⟩
  · rintro ⟨⟩ m' rfl
    exact hf

theorem malloc {o : O} {f : Nat → Prog O β} (hf : ∀ a, Triple ((a, o) ::ₘ m) (f a) Q) :
    Triple m (Cells.malloc o >>= f) Q := by
  refine .bind (R := fun a m' => m' = (a, o) ::ₘ m) (fun F heap hm => ?_) ?_
  · refine ⟨heap.next, heap.push o, _, rfl, ?_, rfl⟩
    rw [Multiset.cons_add]
    exact hm.push o
  · rintro a m' rfl
    exact hf a

theorem bounded {body : Nat → Prog O β}
    (hbody : ∀ n, m.card ≤ n → Triple m (body (n + 1)) Q) : Triple m (Cells.bounded body) Q := by
  intro F heap hm
  have hcard := hm.card_le
  rw [Multiset.card_add] at hcard
  exact hbody heap.next (Nat.le_of_add_right_le hcard) F heap hm

end Triple

end Cells

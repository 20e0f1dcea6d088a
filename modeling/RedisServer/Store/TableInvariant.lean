import Mathlib.Tactic
import RedisServer.Lib.Buckets
import RedisServer.Store.Ops

namespace RedisServer

variable {hash : Bytes → UInt64}

structure Table.WF (hash : Bytes → UInt64) (t : Table) : Prop where
  length_buckets : t.buckets.length = t.size
  pow2 : t.size = 0 ∨ ∃ k, t.size = 2 ^ k
  mask_eq : t.mask = t.size - 1
  placed : ∀ i e, e ∈ t.chain i → bucketIndex t (hash e.key) = i
  used_eq : t.used = t.entries.length

def Table.Holds (t : Table) (slot : Slot) (e : Entry) : Prop :=
  slot.bucket < t.buckets.length ∧ (t.chain slot.bucket)[slot.pos]? = some e

theorem Table.mem_entries_iff {t : Table} {e : Entry} : e ∈ t.entries ↔ ∃ i, e ∈ t.chain i :=
  Buckets.mem_flatten_iff_getD

theorem Table.Holds.mem {t : Table} {slot : Slot} {e : Entry} (h : t.Holds slot e) :
    e ∈ t.entries :=
  Table.mem_entries_iff.mpr ⟨slot.bucket, List.mem_of_getElem? h.2⟩

@[simp] theorem chain_tableInit (n i : Nat) : (tableInit n).chain i = [] := by
  simp only [Table.chain, tableInit, List.getD_eq_getElem?_getD, List.getElem?_replicate]
  split <;> rfl

theorem tableInit_wf (n : Nat) (h : n = 0 ∨ ∃ k, n = 2 ^ k) : (tableInit n).WF hash where
  length_buckets := by simp [tableInit]
  pow2 := h
  mask_eq := by
    simp only [tableInit]
    split <;> omega
  placed := by
    intro i e he
    simp at he
  used_eq := by simp [tableInit, Table.entries]

@[simp] theorem entries_tableInit (n : Nat) : (tableInit n).entries = [] := by
  simp [tableInit, Table.entries]

theorem Table.WF.index_lt {t : Table} (h : t.WF hash) (hpos : 0 < t.size) (x : UInt64) :
    bucketIndex t x < t.buckets.length := by
  rcases h.pow2 with hz | ⟨k, hk⟩
  · omega
  · rw [h.length_buckets, bucketIndex, h.mask_eq, hk, Nat.and_two_pow_sub_one_eq_mod]
    exact Nat.mod_lt _ (Nat.two_pow_pos k)

theorem Table.WF.entries_nil_of_size {t : Table} (h : t.WF hash) (hz : t.size = 0) :
    t.entries = [] := by
  have hl : t.buckets.length = 0 := by rw [h.length_buckets, hz]
  simp [Table.entries, List.length_eq_zero_iff.mp hl]

theorem findInChain_some {key : Bytes} {chain : List Entry} {i j : Nat} {e : Entry}
    (h : findInChain key chain i = some (j, e)) :
    ∃ p, j = i + p ∧ chain[p]? = some e ∧ e.key = key := by
  induction chain generalizing i with
  | nil => simp [findInChain] at h
  | cons x chain ih =>
    simp only [findInChain] at h
    split_ifs at h with hx
    · simp only [Option.some.injEq, Prod.mk.injEq] at h
      exact ⟨0, by omega, by simp [h.2], h.2 ▸ hx⟩
    · obtain ⟨p, hj, hp, hk⟩ := ih h
      exact ⟨p + 1, by omega, by simpa using hp, hk⟩

theorem findInChain_none {key : Bytes} {c : List Entry} {i : Nat}
    (h : findInChain key c i = none) : ∀ e ∈ c, e.key ≠ key := by
  induction c generalizing i with
  | nil => simp
  | cons x c ih =>
    simp only [findInChain] at h
    split_ifs at h with hx
    intro e he
    rcases List.mem_cons.mp he with rfl | he
    · exact hx
    · exact ih h e he

theorem findInTable_some {t : Table} (hw : t.WF hash) {key : Bytes} {x : UInt64} {slot : Slot}
    {e : Entry} (h : findInTable t key x = some (slot, e)) : t.Holds slot e ∧ e.key = key := by
  unfold findInTable at h
  split_ifs at h with hz
  obtain ⟨⟨j, e'⟩, hf, heq⟩ := Option.map_eq_some_iff.mp h
  simp only [Prod.mk.injEq] at heq
  obtain ⟨rfl, rfl⟩ := heq
  obtain ⟨p, hj, hp, hk⟩ := findInChain_some hf
  rw [Nat.zero_add] at hj
  subst hj
  exact ⟨⟨hw.index_lt (by omega) x, hp⟩, hk⟩

theorem findInTable_none {t : Table} (hw : t.WF hash) {key : Bytes}
    (h : findInTable t key (hash key) = none) : ∀ e ∈ t.entries, e.key ≠ key := by
  unfold findInTable at h
  split_ifs at h with hz
  · simp [hw.entries_nil_of_size hz]
  · intro e he hk
    obtain ⟨i, hi⟩ := Table.mem_entries_iff.mp he
    have hp := hw.placed i e hi
    rw [hk] at hp
    exact findInChain_none (Option.map_eq_none_iff.mp h) e (hp ▸ hi) hk

theorem Table.unlink_perm {t : Table} {slot : Slot} {e : Entry} (h : t.Holds slot e) :
    t.entries.Perm (e :: (t.unlink slot).entries) :=
  Buckets.flatten_eraseIdx h.1 h.2

theorem Table.rewrite_perm {t : Table} {slot : Slot} {e : Entry} (h : t.Holds slot e)
    (f : Entry → Entry) :
    ∃ l, t.entries.Perm (e :: l) ∧ (t.rewrite slot f).entries.Perm (f e :: l) :=
  Buckets.flatten_modify_modify h.1 h.2 f

theorem Table.WF.push_perm {t : Table} (hw : t.WF hash) (hpos : 0 < t.size) (x : UInt64)
    (e : Entry) : (t.push x e).entries.Perm (e :: t.entries) :=
  Buckets.flatten_push (hw.index_lt hpos x) e

theorem Table.unlink_chain (t : Table) (slot : Slot) (i : Nat) :
    (t.unlink slot).chain i =
      if slot.bucket = i then (t.chain slot.bucket).eraseIdx slot.pos else t.chain i :=
  Buckets.getD_modify _ _ _ _ rfl

theorem Table.rewrite_chain (t : Table) (slot : Slot) (f : Entry → Entry) (i : Nat) :
    (t.rewrite slot f).chain i =
      if slot.bucket = i then (t.chain slot.bucket).modify slot.pos f else t.chain i :=
  Buckets.getD_modify _ _ _ _ (by simp)

theorem Table.WF.unlink {t : Table} (hw : t.WF hash) {slot : Slot} {e : Entry}
    (h : t.Holds slot e) : (t.unlink slot).WF hash where
  length_buckets := by simpa [Table.unlink] using hw.length_buckets
  pow2 := hw.pow2
  mask_eq := hw.mask_eq
  placed := by
    intro i x hx
    refine hw.placed i x ?_
    rw [Table.unlink_chain] at hx
    split_ifs at hx with hi
    · exact hi ▸ List.mem_of_mem_eraseIdx hx
    · exact hx
  used_eq := by
    have hl := (Table.unlink_perm h).length_eq
    have hu := hw.used_eq
    simp only [List.length_cons] at hl
    have : (t.unlink slot).used = t.used - 1 := rfl
    omega

theorem mem_modify {α : Type} {l : List α} {i : Nat} {f : α → α} {y : α}
    (h : y ∈ l.modify i f) : y ∈ l ∨ ∃ x ∈ l, y = f x := by
  obtain ⟨j, hj⟩ := List.mem_iff_getElem?.mp h
  rw [List.getElem?_modify] at hj
  obtain ⟨x, hx, rfl⟩ := Option.map_eq_some_iff.mp hj
  have hm : x ∈ l := List.mem_of_getElem? hx
  split
  · exact Or.inr ⟨x, hm, rfl⟩
  · exact Or.inl hm

theorem Table.WF.rewrite {t : Table} (hw : t.WF hash) {slot : Slot} {e : Entry}
    (h : t.Holds slot e) {f : Entry → Entry} (hf : ∀ x, (f x).key = x.key) :
    (t.rewrite slot f).WF hash where
  length_buckets := by simpa [Table.rewrite] using hw.length_buckets
  pow2 := hw.pow2
  mask_eq := hw.mask_eq
  placed := by
    intro i y hy
    rw [Table.rewrite_chain] at hy
    split_ifs at hy with hi
    · subst hi
      rcases mem_modify hy with hy | ⟨x, hx, rfl⟩
      · exact hw.placed _ y hy
      · rw [hf x]
        exact hw.placed _ x hx
    · exact hw.placed i y hy
  used_eq := by
    obtain ⟨l, h1, h2⟩ := Table.rewrite_perm h f
    have hu : (t.rewrite slot f).used = t.used := rfl
    rw [hu, hw.used_eq, h1.length_eq, h2.length_eq]
    rfl

theorem Table.WF.push {t : Table} (hw : t.WF hash) (hpos : 0 < t.size) (e : Entry) :
    (t.push (hash e.key) e).WF hash where
  length_buckets := by simpa [Table.push] using hw.length_buckets
  pow2 := hw.pow2
  mask_eq := hw.mask_eq
  placed := by
    intro i x hx
    rcases Buckets.mem_getD_modify_cons hx with ⟨hi, rfl⟩ | hx
    · exact hi
    · exact hw.placed i x hx
  used_eq := by
    have hl := (hw.push_perm hpos (hash e.key) e).length_eq
    have hu : (t.push (hash e.key) e).used = t.used + 1 := rfl
    rw [hu, hw.used_eq, hl]
    rfl

theorem migrateChain_fst (src dst : Table) (c : List Entry) :
    (migrateChain hash src dst c).1 = { src with used := src.used - c.length } := by
  induction c generalizing src dst with
  | nil => rfl
  | cons e c ih =>
    rw [migrateChain, ih]
    simp only [List.length_cons, Nat.sub_sub, Nat.add_comm]

theorem migrateChain_snd {dst : Table} (hw : dst.WF hash) (hpos : 0 < dst.size) (src : Table)
    (c : List Entry) :
    (migrateChain hash src dst c).2.WF hash ∧
      (migrateChain hash src dst c).2.size = dst.size ∧
      (migrateChain hash src dst c).2.entries.Perm (c ++ dst.entries) := by
  induction c generalizing src dst with
  | nil => exact ⟨hw, rfl, List.Perm.refl _⟩
  | cons e c ih =>
    obtain ⟨h1, h2, h3⟩ := ih (hw.push hpos e) hpos { src with used := src.used - 1 }
    refine ⟨h1, h2, h3.trans ?_⟩
    exact ((hw.push_perm hpos (hash e.key) e).append_left c).trans List.perm_middle

def Table.clear (t : Table) (i : Nat) : Table :=
  { t with
    buckets := t.buckets.modify i (fun _ => [])
    used := t.used - (t.chain i).length }

theorem Table.clear_chain (t : Table) (i j : Nat) :
    (t.clear i).chain j = if i = j then [] else t.chain j :=
  Buckets.getD_modify t.buckets i j (fun _ => []) rfl

theorem Table.WF.clear_perm {t : Table} (hw : t.WF hash) {i : Nat} (hi : i < t.size) :
    t.entries.Perm (t.chain i ++ (t.clear i).entries) :=
  Buckets.flatten_clear (by rw [hw.length_buckets]; exact hi)

theorem Table.WF.clear {t : Table} (hw : t.WF hash) {i : Nat} (hi : i < t.size) :
    (t.clear i).WF hash where
  length_buckets := by simpa [Table.clear] using hw.length_buckets
  pow2 := hw.pow2
  mask_eq := hw.mask_eq
  placed := by
    intro j x hx
    rw [Table.clear_chain] at hx
    split_ifs at hx
    · simp at hx
    · exact hw.placed j x hx
  used_eq := by
    have hl := (hw.clear_perm hi).length_eq
    have hu : (t.clear i).used = t.used - (t.chain i).length := rfl
    rw [List.length_append] at hl
    rw [hu, hw.used_eq, hl]
    omega

theorem nextPow2From_two_pow (fuel j k : Nat) (hjk : j ≤ k) (hf : k - j ≤ fuel) :
    nextPow2From fuel (2 ^ j) (2 ^ k) = 2 ^ k := by
  induction fuel generalizing j with
  | zero =>
    have : j = k := by omega
    subst this
    rfl
  | succ fuel ih =>
    rw [nextPow2From]
    split_ifs with hlt
    · rw [← pow_succ]
      have hne : j ≠ k := by
        rintro rfl
        exact absurd hlt (lt_irrefl _)
      exact ih (j + 1) (by omega) (by omega)
    · have hle : 2 ^ j ≤ 2 ^ k := Nat.pow_le_pow_right (by norm_num) hjk
      omega

theorem nextPow2_two_pow (k : Nat) : nextPow2 (2 ^ k) = 2 ^ k := by
  have h := nextPow2From_two_pow (2 ^ k) 0 k (Nat.zero_le k)
    (by have := Nat.lt_two_pow_self (n := k); omega)
  simpa [nextPow2] using h

end RedisServer

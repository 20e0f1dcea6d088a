import Mathlib.Data.Finmap

namespace ExpiringMap

variable {K V E N : Type} [DecidableEq K] (dead : E → N → Bool)

def purge (m : Finmap (fun _ : K => V × E)) (k : K) (now : N) : Finmap (fun _ : K => V × E) :=
  match m.lookup k with
  | some p => if dead p.2 now then m.erase k else m
  | none => m

def live (m : Finmap (fun _ : K => V × E)) (now : N) (k : K) : Option (V × E) :=
  (m.lookup k).filter (fun p => !dead p.2 now)

def Agree (m m' : Finmap (fun _ : K => V × E)) (now : N) : Prop :=
  ∀ k, live dead m now k = live dead m' now k

variable {dead}

theorem lookup_purge (m : Finmap (fun _ : K => V × E)) (k : K) (now : N) :
    (purge dead m k now).lookup k = live dead m now k := by
  unfold purge live
  cases h : m.lookup k with
  | none => simp [h]
  | some p => by_cases hd : dead p.2 now = true <;> simp [hd, h, Option.filter]

theorem lookup_purge_ne (m : Finmap (fun _ : K => V × E)) {k k' : K} (hk : k' ≠ k) (now : N) :
    (purge dead m k now).lookup k' = m.lookup k' := by
  unfold purge
  cases h : m.lookup k with
  | none => rfl
  | some p =>
    simp only
    split_ifs
    · exact Finmap.lookup_erase_ne hk
    · rfl

theorem live_congr {m m' : Finmap (fun _ : K => V × E)} {k : K}
    (h : m.lookup k = m'.lookup k) (now : N) : live dead m now k = live dead m' now k := by
  rw [live, live, h]

theorem live_insert_self (m : Finmap (fun _ : K => V × E)) (k : K) (p : V × E) (now : N) :
    live dead (m.insert k p) now k = if dead p.2 now then none else some p := by
  rw [live, Finmap.lookup_insert]
  by_cases hd : dead p.2 now = true <;> simp [hd]

theorem live_insert_ne (m : Finmap (fun _ : K => V × E)) {k k' : K} (hk : k' ≠ k) (p : V × E)
    (now : N) : live dead (m.insert k p) now k' = live dead m now k' :=
  live_congr (Finmap.lookup_insert_of_ne m hk) now

theorem live_erase (m : Finmap (fun _ : K => V × E)) (k k' : K) (now : N) :
    live dead (m.erase k) now k' = if k' = k then none else live dead m now k' := by
  split_ifs with hk
  · subst hk
    rw [live, Finmap.lookup_erase]
    rfl
  · exact live_congr (Finmap.lookup_erase_ne hk) now

section Monotone
variable [LE N] (hmono : ∀ e n n', n ≤ n' → dead e n = true → dead e n' = true)
include hmono

theorem live_purge (m : Finmap (fun _ : K => V × E)) (k k' : K) {now t : N} (ht : now ≤ t) :
    live dead (purge dead m k now) t k' = live dead m t k' := by
  by_cases hk : k' = k
  · subst hk
    rw [live, lookup_purge, live, live]
    cases h : m.lookup k' with
    | none => rfl
    | some p =>
      have hm := hmono p.2 now t ht
      cases hn : dead p.2 now <;> cases hd : dead p.2 t <;> simp_all [Option.filter]
  · exact live_congr (lookup_purge_ne m hk now) t

theorem live_later (m : Finmap (fun _ : K => V × E)) (k : K) {now t : N} (ht : now ≤ t) :
    live dead m t k = (live dead m now k).filter (fun p => !dead p.2 t) := by
  rw [live, live]
  cases h : m.lookup k with
  | none => rfl
  | some p =>
    have hm := hmono p.2 now t ht
    cases hn : dead p.2 now <;> cases hd : dead p.2 t <;> simp_all [Option.filter]

theorem Agree.mono {m m' : Finmap (fun _ : K => V × E)} {now t : N} (h : Agree dead m m' now)
    (ht : now ≤ t) : Agree dead m m' t := fun k => by
  rw [live_later hmono m k ht, live_later hmono m' k ht, h k]

theorem Agree.purge {m m' : Finmap (fun _ : K => V × E)} {now t : N} (h : Agree dead m m' t)
    (k : K) (ht : now ≤ t) :
    Agree dead (ExpiringMap.purge dead m k now) (ExpiringMap.purge dead m' k now) t := fun k' => by
  rw [live_purge hmono m k k' ht, live_purge hmono m' k k' ht, h k']

end Monotone

theorem Agree.insert {m m' : Finmap (fun _ : K => V × E)} {now : N} (h : Agree dead m m' now)
    (k : K) (p : V × E) : Agree dead (m.insert k p) (m'.insert k p) now := fun k' => by
  by_cases hk : k' = k
  · subst hk
    rw [live_insert_self, live_insert_self]
  · rw [live_insert_ne m hk, live_insert_ne m' hk, h k']

theorem Agree.erase {m m' : Finmap (fun _ : K => V × E)} {now : N} (h : Agree dead m m' now)
    (k : K) : Agree dead (m.erase k) (m'.erase k) now := fun k' => by
  rw [live_erase, live_erase, h k']

variable (dead) in
-- m is m' without some of the entries that are dead by now
structure Lags (m m' : Finmap (fun _ : K => V × E)) (now : N) : Prop where
  agree : Agree dead m m' now
  within : ∀ k ∈ m, k ∈ m'

namespace Lags

variable {m m' : Finmap (fun _ : K => V × E)} {now t : N}

theorem refl (m : Finmap (fun _ : K => V × E)) (now : N) : Lags dead m m now :=
  ⟨fun _ => rfl, fun _ hk => hk⟩

theorem lookup_purge (h : Lags dead m m' now) (k : K) :
    (ExpiringMap.purge dead m k now).lookup k = live dead m' now k := by
  rw [ExpiringMap.lookup_purge, h.agree k]

theorem insert (h : Lags dead m m' now) (k : K) (p : V × E) :
    Lags dead (m.insert k p) (m'.insert k p) now := by
  refine ⟨h.agree.insert k p, fun k' hk' => ?_⟩
  rw [Finmap.mem_insert] at hk' ⊢
  exact hk'.imp_right (h.within k')

theorem erase (h : Lags dead m m' now) (k : K) : Lags dead (m.erase k) (m'.erase k) now := by
  refine ⟨h.agree.erase k, fun k' hk' => ?_⟩
  rw [Finmap.mem_erase] at hk' ⊢
  exact hk'.imp_right (h.within k')

theorem live_mem (h : Lags dead m m' now) {k : K} (hk : (live dead m' now k).isSome) : k ∈ m := by
  rw [← h.agree k, live] at hk
  rw [← Finmap.lookup_isSome]
  cases hl : m.lookup k with
  | none =>
    rw [hl] at hk
    cases hk
  | some p => rfl

section Monotone
variable [LE N] (hmono : ∀ e n n', n ≤ n' → dead e n = true → dead e n' = true)
include hmono

theorem later (h : Lags dead m m' now) (ht : now ≤ t) : Lags dead m m' t :=
  ⟨h.agree.mono hmono ht, h.within⟩

theorem purge (h : Lags dead m m' now) (hnow : now ≤ now) (k : K) :
    Lags dead (purge dead m k now) m' now := by
  refine ⟨fun k' => by rw [live_purge hmono m k k' hnow, h.agree k'], fun k' hk' => ?_⟩
  refine h.within k' ?_
  revert hk'
  unfold ExpiringMap.purge
  cases m.lookup k with
  | none => exact id
  | some p =>
    simp only
    split_ifs
    · exact fun hk' => (Finmap.mem_erase.mp hk').2
    · exact id

end Monotone

end Lags

end ExpiringMap

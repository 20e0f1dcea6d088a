import Mathlib.Data.Finmap

namespace KeyedList

variable {α K V : Type} [DecidableEq K] (key : α → K) (val : α → V)

def toMap (l : List α) : Finmap (fun _ : K => V) :=
  (l.map (fun a => (⟨key a, val a⟩ : Sigma (fun _ : K => V)))).toFinmap

variable {key val}

omit [DecidableEq K] in
theorem nodupKeys_iff (l : List α) :
    (l.map (fun a => (⟨key a, val a⟩ : Sigma (fun _ : K => V)))).NodupKeys ↔
      (l.map key).Nodup := by
  simp [List.NodupKeys, List.keys, Function.comp_def]

theorem lookup_toMap_iff {l : List α} (h : (l.map key).Nodup) (k : K) (v : V) :
    (toMap key val l).lookup k = some v ↔ ∃ a ∈ l, key a = k ∧ val a = v := by
  rw [toMap, Finmap.dlookup_list_toFinmap, ← Option.mem_def,
    List.mem_dlookup_iff ((nodupKeys_iff l).mpr h)]
  simp

theorem lookup_toMap_none_iff {l : List α} (k : K) :
    (toMap key val l).lookup k = none ↔ ∀ a ∈ l, key a ≠ k := by
  rw [toMap, Finmap.dlookup_list_toFinmap, List.dlookup_eq_none]
  simp [List.keys]

theorem mem_toMap_iff {l : List α} (k : K) :
    k ∈ toMap key val l ↔ ∃ a ∈ l, key a = k := by
  rw [← not_iff_not, ← Finmap.lookup_eq_none, lookup_toMap_none_iff]
  push Not
  rfl

theorem toMap_perm {l l' : List α} (h : (l.map key).Nodup) (hp : l.Perm l') :
    toMap key val l = toMap key val l' := by
  refine Finmap.ext_lookup (fun k => ?_)
  rw [toMap, toMap, Finmap.dlookup_list_toFinmap, Finmap.dlookup_list_toFinmap]
  exact List.perm_dlookup k ((nodupKeys_iff l).mpr h) (hp.map _)

theorem lookup_toMap_cons (a : α) (l : List α) (k : K) :
    (toMap key val (a :: l)).lookup k =
      if key a = k then some (val a) else (toMap key val l).lookup k := by
  rw [toMap, toMap, Finmap.dlookup_list_toFinmap, Finmap.dlookup_list_toFinmap, List.map_cons]
  split_ifs with hk
  · subst hk
    exact List.dlookup_cons_eq _ _ _
  · exact List.dlookup_cons_ne _ _ (Ne.symm hk)

theorem toMap_cons (a : α) (l : List α) :
    toMap key val (a :: l) = (toMap key val l).insert (key a) (val a) := by
  refine Finmap.ext_lookup (fun k => ?_)
  rw [lookup_toMap_cons]
  split_ifs with hk
  · subst hk
    rw [Finmap.lookup_insert]
  · rw [Finmap.lookup_insert_of_ne _ (Ne.symm hk)]

theorem toMap_tail {a : α} {l : List α} (h : ((a :: l).map key).Nodup) :
    toMap key val l = (toMap key val (a :: l)).erase (key a) := by
  rw [List.map_cons, List.nodup_cons] at h
  refine Finmap.ext_lookup (fun k => ?_)
  by_cases hk : key a = k
  · subst hk
    rw [Finmap.lookup_erase, lookup_toMap_none_iff]
    intro b hb he
    exact h.1 (he ▸ List.mem_map_of_mem hb)
  · rw [Finmap.lookup_erase_ne (Ne.symm hk), lookup_toMap_cons, if_neg hk]

theorem toMap_replace {a b : α} (l : List α) (hab : key b = key a) :
    toMap key val (b :: l) = (toMap key val (a :: l)).insert (key a) (val b) := by
  rw [toMap_cons, toMap_cons, hab, Finmap.insert_insert]

theorem card_keys_toMap {l : List α} (h : (l.map key).Nodup) :
    (toMap key val l).keys.card = l.length := by
  have hk : (toMap key val l).keys = (l.map key).toFinset := by
    ext k
    rw [Finmap.mem_keys, mem_toMap_iff]
    simp
  rw [hk, List.toFinset_card_of_nodup h, List.length_map]

@[simp] theorem toMap_nil : toMap key val ([] : List α) = ∅ := by
  refine Finmap.ext_lookup (fun k => ?_)
  rw [Finmap.lookup_empty, lookup_toMap_none_iff]
  simp

end KeyedList

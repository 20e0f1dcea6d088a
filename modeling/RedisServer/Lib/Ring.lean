import Mathlib.Data.Nat.ModEq
import Mathlib.Logic.Function.Basic

namespace Ring

variable {α : Type} {slots : Nat → α} {cap head count : Nat}

def contents (slots : Nat → α) (cap head count : Nat) : List α :=
  (List.range count).map (fun i => slots ((head + i) % cap))

@[simp] theorem contents_zero : contents slots cap head 0 = [] := rfl

theorem slot_injective {i j : Nat} (hi : i < cap) (hj : j < cap)
    (h : (head + i) % cap = (head + j) % cap) : i = j := by
  have hmod : i % cap = j % cap := Nat.ModEq.add_left_cancel' head h
  rwa [Nat.mod_eq_of_lt hi, Nat.mod_eq_of_lt hj] at hmod

theorem contents_push (h : count < cap) (x : α) :
    contents (Function.update slots ((head + count) % cap) x) cap head (count + 1) =
      contents slots cap head count ++ [x] := by
  have hold : ∀ i ∈ List.range count,
      Function.update slots ((head + count) % cap) x ((head + i) % cap) =
        slots ((head + i) % cap) := by
    intro i hi
    have hlt := List.mem_range.mp hi
    exact Function.update_of_ne
      (fun he => absurd (slot_injective (Nat.lt_trans hlt h) h he) (Nat.ne_of_lt hlt)) _ _
  rw [contents, List.range_succ, List.map_append, List.map_congr_left hold]
  simp [contents]

theorem contents_pop (h : head < cap) :
    contents slots cap head (count + 1) =
      slots head :: contents slots cap ((head + 1) % cap) count := by
  rw [contents, List.range_succ_eq_map, List.map_cons, List.map_map, Nat.add_zero,
    Nat.mod_eq_of_lt h]
  have hshift : ∀ i ∈ List.range count, ((fun i => slots ((head + i) % cap)) ∘ Nat.succ) i =
      slots (((head + 1) % cap + i) % cap) := by
    intro i _
    rw [Nat.mod_add_mod]
    exact congrArg (fun n => slots (n % cap)) (by omega)
  rw [List.map_congr_left hshift]
  rfl

theorem tail_push (tail : Nat) (h : tail = (head + count) % cap) :
    (tail + 1) % cap = (head + (count + 1)) % cap := by
  rw [h, Nat.mod_add_mod, Nat.add_assoc]

theorem tail_pop (tail : Nat) (h : tail = (head + (count + 1)) % cap) :
    tail = ((head + 1) % cap + count) % cap := by
  rw [h, Nat.mod_add_mod]
  exact congrArg (· % cap) (by omega)

end Ring

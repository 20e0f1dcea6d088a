import Mathlib.Data.List.Perm.Basic
import Mathlib.Data.List.Nodup

namespace Buckets

variable {α : Type}

theorem modify_split {b : List (List α)} {i : Nat} (h : i < b.length) :
    ∃ pre post, b = pre ++ b.getD i [] :: post ∧
      ∀ f, b.modify i f = pre ++ f (b.getD i []) :: post := by
  refine ⟨b.take i, b.drop (i + 1), ?_, ?_⟩
  · have hg : b.getD i [] = b[i] := by simp [List.getD, h]
    rw [hg, ← List.drop_eq_getElem_cons h, List.take_append_drop]
  · intro f
    have hg : b.getD i [] = b[i] := by simp [List.getD, h]
    rw [hg, List.modify_eq_take_cons_drop h]

theorem flatten_modify {b : List (List α)} {i : Nat} (h : i < b.length) :
    ∃ r, b.flatten.Perm (b.getD i [] ++ r) ∧
      ∀ f, (b.modify i f).flatten.Perm (f (b.getD i []) ++ r) := by
  obtain ⟨pre, post, hb, hf⟩ := modify_split h
  have swap (c : List α) : (pre ++ c :: post).flatten.Perm (c ++ (pre.flatten ++ post.flatten)) := by
    simp only [List.flatten_append, List.flatten_cons]
    rw [← List.append_assoc, ← List.append_assoc]
    exact List.Perm.append_right _ List.perm_append_comm
  refine ⟨pre.flatten ++ post.flatten, ?_, fun f => ?_⟩
  · conv_lhs => rw [hb]
    exact swap _
  · rw [hf f]
    exact swap _

theorem flatten_push {b : List (List α)} {i : Nat} (h : i < b.length) (x : α) :
    (b.modify i (x :: ·)).flatten.Perm (x :: b.flatten) := by
  obtain ⟨r, hb, hf⟩ := flatten_modify h
  exact (hf _).trans (hb.symm.cons x)

theorem flatten_eraseIdx {b : List (List α)} {i j : Nat} {x : α} (h : i < b.length)
    (hx : (b.getD i [])[j]? = some x) :
    b.flatten.Perm (x :: (b.modify i (·.eraseIdx j)).flatten) := by
  obtain ⟨r, hb, hf⟩ := flatten_modify h
  obtain ⟨hj, hxj⟩ := List.getElem?_eq_some_iff.mp hx
  have hc : (b.getD i []).Perm (x :: (b.getD i []).eraseIdx j) := by
    rw [← hxj]
    exact (List.getElem_cons_eraseIdx_perm hj).symm
  exact hb.trans ((hc.append_right r).trans ((hf (·.eraseIdx j)).symm.cons x))

theorem flatten_modify_modify {b : List (List α)} {i j : Nat} {x : α} (h : i < b.length)
    (hx : (b.getD i [])[j]? = some x) (g : α → α) :
    ∃ r, b.flatten.Perm (x :: r) ∧ (b.modify i (·.modify j g)).flatten.Perm (g x :: r) := by
  obtain ⟨r, hb, hf⟩ := flatten_modify h
  obtain ⟨hj, hxj⟩ := List.getElem?_eq_some_iff.mp hx
  have hsplit : b.getD i [] = (b.getD i []).take j ++ x :: (b.getD i []).drop (j + 1) := by
    rw [← hxj, ← List.drop_eq_getElem_cons hj, List.take_append_drop]
  have hmod : (b.getD i []).modify j g =
      (b.getD i []).take j ++ g x :: (b.getD i []).drop (j + 1) := by
    rw [List.modify_eq_take_cons_drop hj, hxj]
  refine ⟨(b.getD i []).take j ++ (b.getD i []).drop (j + 1) ++ r, ?_, ?_⟩
  · refine hb.trans ?_
    conv_lhs => rw [hsplit]
    exact List.perm_middle.append_right r
  · refine (hf _).trans ?_
    rw [hmod]
    exact List.perm_middle.append_right r

theorem flatten_clear {b : List (List α)} {i : Nat} (h : i < b.length) :
    b.flatten.Perm (b.getD i [] ++ (b.modify i (fun _ => [])).flatten) := by
  obtain ⟨r, hb, hf⟩ := flatten_modify h
  exact hb.trans ((hf (fun _ => [])).symm.append_left _)

theorem getD_modify (b : List (List α)) (i j : Nat) (f : List α → List α) (hf : f [] = []) :
    (b.modify i f).getD j [] = if i = j then f (b.getD i []) else b.getD j [] := by
  rw [List.getD_eq_getElem?_getD, List.getElem?_modify]
  split_ifs with hij
  · subst hij
    cases hb : b[i]? <;> simp [List.getD_eq_getElem?_getD, hb, hf]
  · simp [List.getD_eq_getElem?_getD]

theorem mem_getD_modify_cons {b : List (List α)} {i j : Nat} {x y : α}
    (h : y ∈ (b.modify i (x :: ·)).getD j []) : (i = j ∧ y = x) ∨ y ∈ b.getD j [] := by
  rw [List.getD_eq_getElem?_getD, List.getElem?_modify] at h
  cases hb : b[j]? with
  | none => simp [hb] at h
  | some c =>
    by_cases hij : i = j
    · simp only [hij, hb, if_true, Option.map_eq_map, Option.map_some, Option.getD_some,
        List.mem_cons] at h
      rcases h with h | h
      · exact Or.inl ⟨hij, h⟩
      · exact Or.inr (by simpa [List.getD_eq_getElem?_getD, hb] using h)
    · exact Or.inr (by simpa [List.getD_eq_getElem?_getD, hij, hb] using h)

theorem mem_flatten_iff_getD {b : List (List α)} {x : α} :
    x ∈ b.flatten ↔ ∃ i, x ∈ b.getD i [] := by
  constructor
  · intro h
    obtain ⟨c, hc, hx⟩ := List.mem_flatten.mp h
    obtain ⟨i, hi, rfl⟩ := List.mem_iff_getElem.mp hc
    exact ⟨i, by simpa [List.getD_eq_getElem?_getD, hi] using hx⟩
  · rintro ⟨i, hx⟩
    by_cases hi : i < b.length
    · rw [List.getD_eq_getElem?_getD, List.getElem?_eq_getElem hi] at hx
      exact List.mem_flatten.mpr ⟨b[i], List.getElem_mem hi, hx⟩
    · simp [List.getD_eq_getElem?_getD, hi] at hx

theorem flatMap_range_getD (l : List (List α)) :
    (List.range l.length).flatMap (fun i => l.getD i []) = l.flatten := by
  have h : (List.range l.length).map (fun i => l.getD i []) = l := by
    apply List.ext_getElem
    · simp
    · intro i h1 h2
      simp [List.getD_eq_getElem?_getD, h2]
  rw [List.flatMap_def, h]

end Buckets

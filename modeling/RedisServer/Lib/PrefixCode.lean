import Mathlib.Data.List.Basic

namespace PrefixCode

variable {V α : Type} (W : V → List α → Prop)

def Determined (v : V) (b : List α) : Prop :=
  ∀ v' b' x y, W v' b' → b ++ x = b' ++ y → v = v' ∧ b = b'

def payload (items : List (V × List α)) : List α := (items.map Prod.snd).flatten

theorem payload_nil : payload ([] : List (V × List α)) = [] := rfl

@[simp]
theorem payload_cons (p : V × List α) (items : List (V × List α)) :
    payload (p :: items) = p.2 ++ payload items := rfl

variable {W}

theorem cut_unique {a : α} {l l' x y : List α} (h : a ∉ l) (h' : a ∉ l')
    (he : l ++ a :: x = l' ++ a :: y) : l = l' ∧ x = y := by
  induction l generalizing l' with
  | nil =>
    cases l' with
    | nil => exact ⟨rfl, by simpa using he⟩
    | cons b l' =>
      simp only [List.nil_append, List.cons_append, List.cons.injEq] at he
      exact absurd (by simp [he.1]) h'
  | cons b l ih =>
    cases l' with
    | nil =>
      simp only [List.nil_append, List.cons_append, List.cons.injEq] at he
      exact absurd (by simp [he.1]) h
    | cons c l' =>
      simp only [List.cons_append, List.cons.injEq] at he
      obtain ⟨hl, hx⟩ := ih (fun hm => h (by simp [hm])) (fun hm => h' (by simp [hm])) he.2
      exact ⟨by rw [he.1, hl], hx⟩

theorem items_unique_of_length {items items' : List (V × List α)} {x y : List α}
    (hl : items.length = items'.length) (h : ∀ p ∈ items, Determined W p.1 p.2)
    (h' : ∀ p ∈ items', W p.1 p.2) (he : payload items ++ x = payload items' ++ y) :
    items = items' := by
  induction items generalizing items' with
  | nil => exact (List.length_eq_zero_iff.mp hl.symm).symm
  | cons p items ih =>
    cases items' with
    | nil => simp at hl
    | cons q items' =>
      simp only [payload_cons, List.append_assoc] at he
      obtain ⟨hv, hb⟩ := h p (by simp) q.1 q.2 _ _ (h' q (by simp)) he
      rw [hb, List.append_cancel_left_eq] at he
      rw [ih (by simpa using hl) (fun r hr => h r (by simp [hr]))
        (fun r hr => h' r (by simp [hr])) he, Prod.ext hv hb]

theorem items_unique (hne : ∀ v b, W v b → b ≠ []) (hd : ∀ v b, W v b → Determined W v b)
    {items items' : List (V × List α)} (h : ∀ p ∈ items, W p.1 p.2) (h' : ∀ p ∈ items', W p.1 p.2)
    (he : payload items = payload items') : items = items' := by
  induction items generalizing items' with
  | nil =>
    cases items' with
    | nil => rfl
    | cons q items' => exact absurd he.symm (by simp [payload_nil, hne q.1 q.2 (h' q (by simp))])
  | cons p items ih =>
    cases items' with
    | nil => exact absurd he (by simp [payload_nil, hne p.1 p.2 (h p (by simp))])
    | cons q items' =>
      simp only [payload_cons] at he
      obtain ⟨hv, hb⟩ := hd p.1 p.2 (h p (by simp)) q.1 q.2 _ _ (h' q (by simp)) he
      rw [hb, List.append_cancel_left_eq] at he
      rw [ih (fun r hr => h r (by simp [hr])) (fun r hr => h' r (by simp [hr])) he,
        Prod.ext hv hb]

end PrefixCode

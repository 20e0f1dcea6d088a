import Mathlib.Data.List.TakeWhile
import Mathlib.Tactic

namespace Tokens

variable {α : Type*}

-- the positions of l that hold an element satisfying p
def At (p : α → Bool) (l : List α) (k : Nat) : Prop := ∃ x, l[k]? = some x ∧ p x = true

structure MaximalRun (P : Nat → Prop) (i j : Nat) : Prop where
  lt : i < j
  inside : ∀ k, i ≤ k → k < j → P k
  before : ∀ k, k + 1 = i → ¬ P k
  after : ¬ P j

structure ListsRuns (P : Nat → Prop) (spans : List (Nat × Nat)) : Prop where
  mem_iff : ∀ i j, (i, j) ∈ spans ↔ MaximalRun P i j
  ordered : spans.Pairwise (fun s t => s.2 < t.1)

def shift (n : Nat) (s : Nat × Nat) : Nat × Nat := (n + s.1, n + s.2)

theorem listsRuns_nil {P : Nat → Prop} (h : ∀ k, ¬ P k) : ListsRuns P [] where
  mem_iff i j := by
    refine ⟨fun hm => by simp at hm, fun hr => ?_⟩
    exact absurd (hr.inside i (le_refl i) hr.lt) (h i)
  ordered := .nil

theorem maximalRun_shift {P : Nat → Prop} {n : Nat} (hstop : ¬ P n) (i j : Nat) :
    MaximalRun P (n + i) (n + j) ↔ MaximalRun (fun k => P (n + k)) i j := by
  constructor
  · intro h
    refine ⟨by have := h.lt; omega, fun k hi hj => h.inside (n + k) (by omega) (by omega),
      fun k hk => h.before (n + k) (by omega), h.after⟩
  · intro h
    have hlt := h.lt
    refine ⟨by omega, ?_, ?_, h.after⟩
    · intro k hi hj
      obtain ⟨d, rfl⟩ : ∃ d, k = n + d := ⟨k - n, by omega⟩
      exact h.inside d (by omega) (by omega)
    · intro k hk
      cases i with
      | zero => exact absurd (h.inside 0 (le_refl 0) hlt) hstop
      | succ i =>
        obtain rfl : k = n + i := by omega
        exact h.before i rfl

section Cons

variable {P : Nat → Prop} {a n : Nat} (hblank : ∀ k, k < a → ¬ P k)
  (hrun : ∀ k, a ≤ k → k < n → P k) (hstop : ¬ P n)
include hblank hrun hstop

theorem MaximalRun.first_or_later {i j : Nat} (h : MaximalRun P i j) :
    (i = a ∧ j = n) ∨ n < i := by
  have hi := h.inside i (le_refl i) h.lt
  have hlow : a ≤ i := by
    by_contra hlt
    exact hblank i (by omega) hi
  have hne : i ≠ n := by
    rintro rfl
    exact hstop hi
  rcases Nat.lt_or_gt_of_ne hne with hin | hout
  · left
    have hfirst : i = a := by
      by_contra hia
      exact h.before (i - 1) (by omega) (hrun (i - 1) (by omega) (by omega))
    have hup : ¬ j < n := fun hj => h.after (hrun j (by have := h.lt; omega) hj)
    have hdown : ¬ n < j := fun hj => hstop (h.inside n (by omega) hj)
    exact ⟨hfirst, by omega⟩
  · exact .inr hout

theorem ListsRuns.cons (hlt : a < n) {spans : List (Nat × Nat)}
    (h : ListsRuns (fun k => P (n + k)) spans) :
    ListsRuns P ((a, n) :: spans.map (shift n)) where
  mem_iff i j := by
    simp only [List.mem_cons, Prod.mk.injEq, List.mem_map, Prod.exists, shift]
    constructor
    · rintro (⟨rfl, rfl⟩ | ⟨i', j', hm, rfl, rfl⟩)
      · exact ⟨hlt, hrun, fun k hk => hblank k (by omega), hstop⟩
      · exact (maximalRun_shift hstop i' j').mpr ((h.mem_iff i' j').mp hm)
    · intro hm
      refine (hm.first_or_later hblank hrun hstop).imp_right (fun hi => ?_)
      have hij := hm.lt
      rw [show i = n + (i - n) by omega, show j = n + (j - n) by omega,
        maximalRun_shift hstop] at hm
      exact ⟨i - n, j - n, (h.mem_iff _ _).mpr hm, by omega, by omega⟩
  ordered := by
    refine .cons ?_ ?_
    · intro s hs
      obtain ⟨t, ht, rfl⟩ := List.mem_map.mp hs
      have hm := (h.mem_iff t.1 t.2).mp ht
      have hpos : t.1 ≠ 0 := by
        intro h0
        have hn := hm.inside t.1 (le_refl _) hm.lt
        rw [h0] at hn
        exact hstop hn
      simp only [shift]
      omega
    · rw [List.pairwise_map]
      exact h.ordered.imp (fun hst => by simp only [shift]; omega)

end Cons

-- a text cut at its separators: the tokens are not empty and stop only at a separator or the end
inductive Splits (sep : α → Bool) : List α → List (List α) → Prop
  | blank {ws : List α} (h : ∀ x ∈ ws, sep x = true) : Splits sep ws []
  | token {ws tok rest : List α} {ts : List (List α)} (hws : ∀ x ∈ ws, sep x = true)
    (hne : tok ≠ []) (htok : ∀ x ∈ tok, sep x = false) (hstop : ∀ x ∈ rest.head?, sep x = true)
    (h : Splits sep rest ts) : Splits sep (ws ++ (tok ++ rest)) (tok :: ts)

def text (l : List α) (s : Nat × Nat) : List α := (l.drop s.1).take (s.2 - s.1)

theorem text_shift (a l : List α) (s : Nat × Nat) :
    text (a ++ l) (shift a.length s) = text l s := by
  simp only [text, shift]
  rw [Nat.add_sub_add_left, ← List.drop_drop, List.drop_left]

theorem text_middle (a tok l : List α) :
    text (a ++ (tok ++ l)) (a.length, a.length + tok.length) = tok := by
  simp only [text]
  rw [List.drop_left, Nat.add_sub_cancel_left, List.take_left]

theorem at_append_right (p : α → Bool) (a l : List α) (k : Nat) :
    At p (a ++ l) (a.length + k) ↔ At p l k := by
  rw [At, At, List.getElem?_append_right (by omega), Nat.add_sub_cancel_left]

theorem at_append_left (p : α → Bool) (a l : List α) {k : Nat} (h : k < a.length) :
    At p (a ++ l) k ↔ At p a k := by
  rw [At, At, List.getElem?_append_left h]

theorem at_of_forall {p : α → Bool} {a : List α} (h : ∀ x ∈ a, p x = true) {k : Nat}
    (hk : k < a.length) : At p a k :=
  ⟨a[k], List.getElem?_eq_getElem hk, h _ (List.getElem_mem hk)⟩

theorem not_at_of_forall {p : α → Bool} {a : List α} (h : ∀ x ∈ a, p x = false) (k : Nat) :
    ¬ At p a k := by
  rintro ⟨x, hx, hp⟩
  have hf := h x (List.mem_of_getElem? hx)
  rw [hf] at hp
  cases hp

namespace Splits

variable {sep : α → Bool} {l : List α} {ts : List (List α)}

-- the tokens of a text are its maximal runs of other elements, from left to right
theorem runs (h : Splits sep l ts) :
    ∃ spans, ListsRuns (At (fun x => !sep x) l) spans ∧ ts = spans.map (text l) := by
  induction h with
  | blank hws =>
    refine ⟨[], listsRuns_nil (not_at_of_forall fun x hx => ?_), rfl⟩
    rw [hws x hx, Bool.not_true]
  | @token ws tok rest ts hws hne htok hstop h ih =>
    obtain ⟨spans, hspans, rfl⟩ := ih
    have hlen := List.length_pos_iff.mpr hne
    have hblank : ∀ k, k < ws.length → ¬ At (fun x => !sep x) (ws ++ (tok ++ rest)) k := by
      intro k hk
      rw [at_append_left _ _ _ hk]
      exact not_at_of_forall (fun x hx => by rw [hws x hx, Bool.not_true]) k
    have hrun : ∀ k, ws.length ≤ k → k < ws.length + tok.length →
        At (fun x => !sep x) (ws ++ (tok ++ rest)) k := by
      intro k hlo hhi
      obtain ⟨d, rfl⟩ : ∃ d, k = ws.length + d := ⟨k - ws.length, by omega⟩
      have hd : d < tok.length := by omega
      rw [at_append_right, at_append_left _ _ _ hd]
      exact at_of_forall (fun x hx => by rw [htok x hx, Bool.not_false]) hd
    have hlater : ∀ k, At (fun x => !sep x) (ws ++ (tok ++ rest)) (ws.length + tok.length + k) ↔
        At (fun x => !sep x) rest k := by
      intro k
      rw [Nat.add_assoc, at_append_right, at_append_right]
    have hend : ¬ At (fun x => !sep x) (ws ++ (tok ++ rest)) (ws.length + tok.length) := by
      rw [← Nat.add_zero (ws.length + tok.length), hlater]
      rintro ⟨x, hx, hp⟩
      rw [← List.head?_eq_getElem?] at hx
      simp [hstop x hx] at hp
    have htail : ListsRuns (fun k => At (fun x => !sep x) (ws ++ (tok ++ rest))
        (ws.length + tok.length + k)) spans := by
      rw [funext fun k => propext (hlater k)]
      exact hspans
    refine ⟨_, htail.cons hblank hrun hend (by omega), ?_⟩
    rw [List.map_cons, text_middle, List.map_map, ← List.append_assoc]
    congr 1
    refine List.map_congr_left fun s _ => ?_
    rw [Function.comp_apply, ← List.length_append, text_shift]

theorem ne_nil_of_mem (h : Splits sep l ts) {t : List α} (ht : t ∈ ts) : t ≠ [] := by
  induction h with
  | blank => cases ht
  | token _ hne _ _ _ ih =>
    rcases List.mem_cons.mp ht with rfl | ht
    · exact hne
    · exact ih ht

theorem sep_append (h : Splits sep l ts) {a : List α} (ha : ∀ x ∈ a, sep x = true) :
    Splits sep (a ++ l) ts := by
  cases h with
  | blank hws => exact .blank (List.forall_mem_append.mpr ⟨ha, hws⟩)
  | token hws hne htok hstop h =>
    rw [← List.append_assoc]
    exact .token (List.forall_mem_append.mpr ⟨ha, hws⟩) hne htok hstop h

theorem append_sep (h : Splits sep l ts) {x : α} (hx : sep x = true) :
    Splits sep (l ++ [x]) ts := by
  induction h with
  | blank hws => exact .blank (List.forall_mem_append.mpr ⟨hws, by simpa using hx⟩)
  | @token ws tok rest ts hws hne htok hstop h ih =>
    rw [List.append_assoc, List.append_assoc]
    refine .token hws hne htok ?_ ih
    cases rest with
    | nil => simpa using hx
    | cons y rest => simpa using hstop

-- an element in front either starts a token of its own or makes the first token longer
theorem cons_other (h : Splits sep l ts) {x : α} (hx : sep x = false) :
    ∃ ts', Splits sep (x :: l) ts' := by
  by_cases hstop : ∀ y ∈ l.head?, sep y = true
  · exact ⟨[x] :: ts, @token _ sep [] [x] l ts (by simp) (by simp) (by simpa using hx) hstop h⟩
  · cases h with
    | blank hws => exact absurd (fun y hy => hws y (List.mem_of_mem_head? hy)) hstop
    | @token ws tok rest ts hws hne htok hrest h =>
      cases ws with
      | nil =>
        exact ⟨(x :: tok) :: ts, @token _ sep [] (x :: tok) rest ts (by simp) (by simp)
          (List.forall_mem_cons.mpr ⟨hx, htok⟩) hrest h⟩
      | cons y ws => exact absurd (by simpa using hws y (by simp)) hstop

end Splits

theorem takeWhile_append_stop {p : α → Bool} {a b : List α} (ha : ∀ x ∈ a, p x = true)
    (hb : ∀ x ∈ b.head?, p x = false) : (a ++ b).takeWhile p = a := by
  rw [List.takeWhile_append_of_pos ha]
  cases b with
  | nil => simp
  | cons y b => simp [hb y rfl]

theorem dropWhile_append_stop {p : α → Bool} {a b : List α} (ha : ∀ x ∈ a, p x = true)
    (hb : ∀ x ∈ b.head?, p x = false) : (a ++ b).dropWhile p = b := by
  rw [List.dropWhile_append_of_pos ha]
  cases b with
  | nil => rfl
  | cons y b => simp [hb y rfl]

section Token

variable {sep : α → Bool} {ws tok rest : List α} (hne : tok ≠ [])
  (htok : ∀ x ∈ tok, sep x = false)
include htok

section Gap

variable (hstop : ∀ x ∈ rest.head?, sep x = true)
include hstop

theorem takeWhile_token : (tok ++ rest).takeWhile (fun x => !sep x) = tok :=
  takeWhile_append_stop (fun x hx => by rw [htok x hx, Bool.not_false])
    (fun x hx => by rw [hstop x hx, Bool.not_true])

theorem dropWhile_token : (tok ++ rest).dropWhile (fun x => !sep x) = rest :=
  dropWhile_append_stop (fun x hx => by rw [htok x hx, Bool.not_false])
    (fun x hx => by rw [hstop x hx, Bool.not_true])

end Gap

include hne

theorem head_token : ∀ x ∈ (tok ++ rest).head?, sep x = false := by
  intro x hx
  rw [List.head?_append_of_ne_nil _ hne] at hx
  exact htok x (List.mem_of_mem_head? hx)

variable (hws : ∀ x ∈ ws, sep x = true)
include hws

theorem takeWhile_blank : (ws ++ (tok ++ rest)).takeWhile sep = ws :=
  takeWhile_append_stop hws (head_token hne htok)

theorem dropWhile_blank : (ws ++ (tok ++ rest)).dropWhile sep = tok ++ rest :=
  dropWhile_append_stop hws (head_token hne htok)

end Token

theorem splits_exists (sep : α → Bool) (l : List α) : ∃ ts, Splits sep l ts := by
  induction l with
  | nil => exact ⟨[], .blank (by simp)⟩
  | cons x l ih =>
    obtain ⟨ts, h⟩ := ih
    cases hx : sep x with
    | true => exact ⟨ts, @Splits.sep_append _ sep l ts h [x] (by simpa using hx)⟩
    | false => exact h.cons_other hx

end Tokens

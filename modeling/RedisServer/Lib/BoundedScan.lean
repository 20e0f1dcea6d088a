import Mathlib.Tactic

namespace BoundedScan

-- how many flags a scan reads that stops behind the first one set or behind n that are not
def scan : Nat → List Bool → Nat
  | 0, _ => 0
  | _ + 1, [] => 0
  | _ + 1, true :: _ => 1
  | n + 1, false :: l => scan n l + 1

inductive Scanned (n : Nat) : List Bool → Nat → Prop
  | found {a : Nat} (m : List Bool) (h : a < n) :
    Scanned n (List.replicate a false ++ true :: m) (a + 1)
  | spent (m : List Bool) : Scanned n (List.replicate n false ++ m) n
  | ended {a : Nat} (h : a < n) : Scanned n (List.replicate a false) a

theorem Scanned.skip {n v : Nat} {l : List Bool} (h : Scanned n l v) :
    Scanned (n + 1) (false :: l) (v + 1) := by
  cases h with
  | @found a m h => exact .found (a := a + 1) m (Nat.succ_lt_succ h)
  | spent m => exact .spent m
  | ended h => exact .ended (a := v + 1) (Nat.succ_lt_succ h)

theorem scanned (n : Nat) (l : List Bool) : Scanned n l (scan n l) := by
  fun_induction scan n l with
  | case1 l => exact .spent l
  | case2 n => exact .ended (a := 0) (Nat.succ_pos n)
  | case3 n l => exact .found (a := 0) l (Nat.succ_pos n)
  | case4 n l ih => exact ih.skip

-- the flags that one scan, or a second one behind it, has read
def seen (n : Nat) (l : List Bool) : List Bool := l.take (scan n l)

theorem length_seen (n : Nat) (l : List Bool) : (seen n l).length = scan n l := by
  have h := scanned n l
  unfold seen
  generalize scan n l = v at h
  cases h with
  | found m h => simp
  | spent m => simp
  | ended h => simp

def seenTwice (n : Nat) (l : List Bool) : List Bool :=
  seen n l ++ seen n (l.drop (scan n l))

def Fits (n : Nat) (l : List Bool) : Prop := l.count true ≤ 1 ∧ l.count false ≤ n

theorem fits_seen (n : Nat) (l : List Bool) : Fits n (seen n l) := by
  have h := scanned n l
  unfold seen Fits
  generalize scan n l = v at h
  cases h with
  | found m h => simp [List.take_append, List.count_replicate]; omega
  | spent m => simp [List.count_replicate]
  | ended h => simp [List.count_replicate]; omega

def TwiceFits (n : Nat) (l : List Bool) : Prop :=
  (l.length ≤ n ∧ l.count true ≤ 1) ∨ (l.length = n + 1 ∧ l.count true = 1) ∨
    (n + 1 < l.length ∧ (l.take (n + 1)).count true = 1 ∧
      (l[0]? = some true ∨ l[n]? = some true))

theorem twiceFits_found {n a : Nat} (h : a < n) (m : List Bool) :
    TwiceFits n (List.replicate a false ++ true :: m) ↔
      (a + m.length ≤ n ∧ m.count true = 0) ∨
        (a = 0 ∧ n < m.length ∧ (m.take n).count true = 0) := by
  have hlen : (List.replicate a false ++ true :: m).length = a + m.length + 1 := by
    simp
    omega
  have hcount : (List.replicate a false ++ true :: m).count true = m.count true + 1 := by
    simp [List.count_replicate]
  have htake : ((List.replicate a false ++ true :: m).take (n + 1)).count true =
      (m.take (n - a)).count true + 1 := by
    obtain ⟨d, hd⟩ : ∃ d, n - a = d := ⟨_, rfl⟩
    simp [List.take_append, List.count_replicate, show n + 1 - a = d + 1 by omega, hd]
  have hfirst : (List.replicate a false ++ true :: m)[0]? = some true ↔ a = 0 := by
    cases a <;> simp [List.replicate_succ]
  have hlast : (List.replicate a false ++ true :: m)[n]? = m[n - a - 1]? := by
    obtain ⟨d, hd⟩ : ∃ d, n - a = d + 1 := ⟨n - a - 1, by omega⟩
    rw [List.getElem?_append_right (by simp; omega), List.length_replicate, hd]
    rfl
  unfold TwiceFits
  rw [hlen, hcount, htake, hfirst, hlast]
  -- a flag behind the first one set that is set at n would be among the n + 1 counted
  have hnone : (m.take (n - a)).count true = 0 → m[n - a - 1]? ≠ some true := by
    intro hz hm
    rw [List.count_eq_zero] at hz
    apply hz
    refine List.mem_iff_getElem?.mpr ⟨n - a - 1, ?_⟩
    rw [List.getElem?_take_of_lt (by omega), hm]
  constructor
  · rintro (⟨h1, h2⟩ | ⟨h1, h2⟩ | ⟨h1, h2, h3⟩)
    · exact .inl ⟨by omega, by omega⟩
    · exact .inl ⟨by omega, by omega⟩
    · have hz := h3.resolve_right (hnone (by omega))
      subst hz
      exact .inr ⟨rfl, by omega, by simpa using h2⟩
  · rintro (⟨h1, h2⟩ | ⟨rfl, h1, h2⟩)
    · by_cases hle : a + m.length + 1 ≤ n
      · exact .inl ⟨hle, by omega⟩
      · exact .inr (.inl ⟨by omega, by omega⟩)
    · exact .inr (.inr ⟨by omega, by simpa using h2, .inl rfl⟩)

theorem twiceFits_spent {n : Nat} (b : Bool) (m : List Bool) :
    TwiceFits n (List.replicate n false ++ b :: m) ↔ b = true := by
  have htake : ((List.replicate n false ++ b :: m).take (n + 1)).count true =
      if b then 1 else 0 := by
    cases b <;> simp [List.take_append, List.count_replicate]
  have hlast : (List.replicate n false ++ b :: m)[n]? = some b := by simp
  have hlen : (List.replicate n false ++ b :: m).length = n + 1 + m.length := by
    simp
    omega
  unfold TwiceFits
  rw [hlen, htake, hlast]
  cases b with
  | true =>
    cases m with
    | nil => simp [List.count_replicate]
    | cons c m => simp
  | false =>
    have hone : n + 1 + m.length = n + 1 → (List.replicate n false ++ false :: m).count true = 0 := by
      intro h
      have hm : m = [] := List.length_eq_zero_iff.mp (by omega)
      simp [hm, List.count_replicate]
    simp only [Bool.false_eq_true, if_false, iff_false, not_or, not_and]
    exact ⟨by omega, fun h h1 => by rw [hone h] at h1; omega, by omega⟩

theorem fits_seenTwice_iff {n : Nat} (hn : 0 < n) (l : List Bool) :
    Fits n (seenTwice n l) ↔ TwiceFits n l := by
  have h := scanned n l
  unfold seenTwice seen Fits
  generalize scan n l = v at h
  cases h with
  | ended h => simp [TwiceFits, List.count_replicate, h.le]
  | spent m =>
    cases m with
    | nil => simp [TwiceFits, List.count_replicate]
    | cons b m =>
      obtain ⟨n, rfl⟩ : ∃ j, n = j + 1 := ⟨n - 1, by omega⟩
      rw [twiceFits_spent]
      cases b <;> simp [List.count_replicate, scan]
  | @found a m h =>
    have hdrop : (List.replicate a false ++ true :: m).drop (a + 1) = m := by
      simp [List.drop_append]
    have h' := scanned n m
    rw [twiceFits_found h, hdrop]
    generalize scan n m = v at h'
    cases h' with
    | ended h' =>
      simp [List.count_replicate, List.take_append]
      omega
    | spent m =>
      cases m with
      | nil => simp [List.count_replicate, List.take_append]
      | cons c m =>
        have hlong : ¬ a + (n + (m.length + 1)) ≤ n := by omega
        simp [List.count_replicate, List.take_append, hlong]
    | @found b m h' =>
      obtain ⟨d, hd⟩ : ∃ d, n - b = d + 1 := ⟨n - b - 1, by omega⟩
      simp [List.count_replicate, List.take_append, hd]

end BoundedScan

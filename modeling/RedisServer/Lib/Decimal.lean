import Mathlib.Data.Nat.Digits.Lemmas

namespace Decimal

def isDigit (b : UInt8) : Bool := 48 ≤ b && b ≤ 57

def digit (d : Nat) : UInt8 := UInt8.ofNat (48 + d)

def ofNat (n : Nat) : List UInt8 :=
  if n = 0 then [48] else (Nat.digits 10 n).reverse.map digit

def ofInt (z : Int) : List UInt8 :=
  if z < 0 then 45 :: ofNat z.natAbs else ofNat z.natAbs

def value (ds : List UInt8) : Nat := ds.foldl (fun v b => v * 10 + (b.toNat - 48)) 0

theorem digit_toNat {d : Nat} (h : d < 10) : (digit d).toNat = 48 + d := by
  rw [digit, UInt8.toNat_ofNat']
  omega

theorem isDigit_iff (b : UInt8) : isDigit b = true ↔ 48 ≤ b.toNat ∧ b.toNat ≤ 57 := by
  simp [isDigit, UInt8.le_iff_toNat_le]

theorem isDigit_digit {d : Nat} (h : d < 10) : isDigit (digit d) = true := by
  rw [isDigit_iff, digit_toNat h]
  omega

theorem ofNat_ne_nil (n : Nat) : ofNat n ≠ [] := by
  unfold ofNat
  split_ifs with h
  · simp
  · simpa using Nat.digits_ne_nil_iff_ne_zero.mpr h

theorem isDigit_of_mem_ofNat {n : Nat} {b : UInt8} (h : b ∈ ofNat n) : isDigit b = true := by
  unfold ofNat at h
  split_ifs at h
  · simp only [List.mem_singleton] at h
    subst h
    rfl
  · obtain ⟨d, hd, rfl⟩ := List.mem_map.mp h
    exact isDigit_digit (Nat.digits_lt_base (by norm_num) (List.mem_reverse.mp hd))

theorem length_ofNat_le {n k : Nat} (hk : 0 < k) (h : n < 10 ^ k) : (ofNat n).length ≤ k := by
  unfold ofNat
  split_ifs
  · exact hk
  · rw [List.length_map, List.length_reverse]
    exact (Nat.digits_length_le_iff (by norm_num) n).mpr h

theorem le_foldl_value (ds : List UInt8) (v : Nat) :
    v ≤ ds.foldl (fun v b => v * 10 + (b.toNat - 48)) v := by
  induction ds generalizing v with
  | nil => exact Nat.le_refl v
  | cons b ds ih =>
    have h := ih (v * 10 + (b.toNat - 48))
    rw [List.foldl_cons]
    omega

theorem foldr_digits (l : List Nat) (h : ∀ d ∈ l, d < 10) :
    (l.reverse.map digit).foldl (fun v b => v * 10 + (b.toNat - 48)) 0 = Nat.ofDigits 10 l := by
  induction l with
  | nil => rfl
  | cons d l ih =>
    have hd : (digit d).toNat - 48 = d := by
      rw [digit_toNat (h d (by simp))]
      omega
    rw [List.reverse_cons, List.map_append, List.foldl_append,
      ih (fun x hx => h x (by simp [hx])), Nat.ofDigits_cons]
    simp only [List.map_cons, List.map_nil, List.foldl_cons, List.foldl_nil, hd]
    omega

theorem value_ofNat (n : Nat) : value (ofNat n) = n := by
  unfold value ofNat
  split_ifs with h
  · subst h
    rfl
  · rw [foldr_digits _ (fun d hd => Nat.digits_lt_base (by norm_num) hd), Nat.ofDigits_digits]

end Decimal

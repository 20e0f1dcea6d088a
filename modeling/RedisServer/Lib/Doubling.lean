import Mathlib.Algebra.Order.Ring.Nat
import Mathlib.Tactic

namespace Doubling

-- while (cap < need) cap *= 2
def double : Nat → Nat → Nat → Nat
  | 0, cap, _ => cap
  | fuel + 1, cap, need => if cap < need then double fuel (cap * 2) need else cap

-- the capacity that a buffer of capacity cap gets when it is too small
def grow (first cap need : Nat) : Nat := double need (if cap = 0 then first else cap * 2) need

-- the loop has come to its end when its fuel is gone
theorem need_le_double {fuel cap need : Nat} (h : 0 < cap) (hf : need ≤ cap + fuel) :
    need ≤ double fuel cap need := by
  induction fuel generalizing cap with
  | zero => exact hf
  | succ fuel ih =>
    rw [double]
    split
    case isTrue => exact ih (by omega) (by omega)
    case isFalse hle => omega

theorem le_double (fuel cap need : Nat) : cap ≤ double fuel cap need := by
  induction fuel generalizing cap with
  | zero => exact le_rfl
  | succ fuel ih =>
    rw [double]
    split
    case isTrue => exact (Nat.le_mul_of_pos_right cap Nat.two_pos).trans (ih (cap * 2))
    case isFalse => exact le_rfl

theorem double_lt (fuel : Nat) {cap need : Nat} (h : cap < 2 * need) :
    double fuel cap need < 2 * need := by
  induction fuel generalizing cap with
  | zero => exact h
  | succ fuel ih =>
    rw [double]
    split
    case isTrue hlt => exact ih (by omega)
    case isFalse => exact h

theorem exists_double_eq (fuel cap need : Nat) : ∃ k, double fuel cap need = cap * 2 ^ k := by
  induction fuel generalizing cap with
  | zero => exact ⟨0, by rw [double, pow_zero, mul_one]⟩
  | succ fuel ih =>
    rw [double]
    split
    case isTrue =>
      obtain ⟨k, hk⟩ := ih (cap * 2)
      exact ⟨k + 1, by rw [hk, pow_succ']; ring⟩
    case isFalse => exact ⟨0, by rw [pow_zero, mul_one]⟩

section Grow

variable {first cap need : Nat}

theorem need_le_grow (hfirst : 0 < first) : need ≤ grow first cap need := by
  refine need_le_double ?_ (Nat.le_add_left _ _)
  split <;> omega

theorem cap_le_grow : cap ≤ grow first cap need := by
  refine le_trans ?_ (le_double _ _ _)
  split <;> omega

theorem grow_le (h : cap < need) : grow first cap need ≤ max first (2 * need) := by
  rw [grow]
  split
  case isTrue =>
    rcases Nat.lt_or_ge first (2 * need) with hlt | hle
    · exact (double_lt need hlt).le.trans (le_max_right _ _)
    · have hstop : double need first need = first := by
        cases need with
        | zero => rfl
        | succ n => rw [double, if_neg (by omega)]
      rw [hstop]
      exact le_max_left _ _
  case isFalse => exact (double_lt need (by omega)).le.trans (le_max_right _ _)

-- capacities stay on the powers of two above the first one
theorem exists_grow_eq {j : Nat} (hcap : cap = 0 ∨ cap = first * 2 ^ j) :
    ∃ k, grow first cap need = first * 2 ^ k := by
  obtain ⟨k, hk⟩ := exists_double_eq need (if cap = 0 then first else cap * 2) need
  rw [grow, hk]
  rcases hcap with rfl | rfl
  · exact ⟨k, by rw [if_pos rfl]⟩
  · split
    case isTrue => exact ⟨k, rfl⟩
    case isFalse => exact ⟨j + 1 + k, by rw [pow_add, pow_succ]; ring⟩

end Grow

end Doubling

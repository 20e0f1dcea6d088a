import Mathlib.Tactic

namespace LittleEndian

variable {w : Nat}

def write : Nat → BitVec w → List UInt8
  | 0, _ => []
  | n + 1, v => UInt8.ofBitVec ((v &&& 0xff).setWidth 8) :: write n (v >>> 8)

def read (p : List UInt8) : BitVec w :=
  p.foldr (fun b v => (v <<< 8) ||| b.toBitVec.setWidth w) 0

@[simp] theorem length_write (n : Nat) (v : BitVec w) : (write n v).length = n := by
  induction n generalizing v with
  | zero => rfl
  | succ n ih => rw [write, List.length_cons, ih]

theorem toNat_low_byte (h8 : 8 ≤ w) (v : BitVec w) :
    ((v &&& 0xff).setWidth 8).toNat = v.toNat % 256 := by
  have hpow : (2 : Nat) ^ 8 ≤ 2 ^ w := Nat.pow_le_pow_right (by norm_num) h8
  have hff : (0xff : BitVec w).toNat = 2 ^ 8 - 1 := by
    change (BitVec.ofNat w 255).toNat = 2 ^ 8 - 1
    rw [BitVec.toNat_ofNat, Nat.mod_eq_of_lt (by omega)]
    rfl
  rw [BitVec.toNat_setWidth, BitVec.toNat_and, hff, Nat.and_two_pow_sub_one_eq_mod]
  omega

theorem join_low_byte (h8 : 8 ≤ w) (v : BitVec w) :
    ((v >>> 8) <<< 8) ||| ((v &&& 0xff).setWidth 8).setWidth w = v := by
  have hpow : (2 : Nat) ^ 8 ≤ 2 ^ w := Nat.pow_le_pow_right (by norm_num) h8
  have hv := v.isLt
  apply BitVec.eq_of_toNat_eq
  rw [BitVec.toNat_or, BitVec.toNat_shiftLeft, BitVec.toNat_ushiftRight, BitVec.toNat_setWidth,
    toNat_low_byte h8, Nat.shiftRight_eq_div_pow, Nat.shiftLeft_eq,
    Nat.mod_eq_of_lt (show v.toNat / 2 ^ 8 * 2 ^ 8 < 2 ^ w by omega),
    Nat.mod_eq_of_lt (show v.toNat % 256 < 2 ^ w by omega), ← Nat.shiftLeft_eq,
    ← Nat.shiftLeft_add_eq_or_of_lt (show v.toNat % 256 < 2 ^ 8 by omega), Nat.shiftLeft_eq]
  omega

theorem read_write (h8 : 8 ≤ w) (n : Nat) (v : BitVec w) (h : v.toNat < 256 ^ n) :
    read (write n v) = v := by
  induction n generalizing v with
  | zero =>
    apply BitVec.eq_of_toNat_eq
    simp only [pow_zero] at h
    simp only [write, read, List.foldr_nil]
    change (BitVec.ofNat w 0).toNat = v.toNat
    rw [BitVec.toNat_ofNat, Nat.zero_mod]
    omega
  | succ n ih =>
    have hs : (v >>> 8).toNat < 256 ^ n := by
      rw [BitVec.toNat_ushiftRight, Nat.shiftRight_eq_div_pow]
      rw [pow_succ] at h
      omega
    have hr := ih (v >>> 8) hs
    rw [read] at hr
    rw [write, read, List.foldr_cons, hr]
    exact join_low_byte h8 v

theorem toNat_read_nil : (read [] : BitVec w).toNat = 0 := by
  change (BitVec.ofNat w 0).toNat = 0
  rw [BitVec.toNat_ofNat, Nat.zero_mod]

theorem toNat_read_cons (b : UInt8) (p : List UInt8) (hlt : (read p : BitVec w).toNat < 256 ^ p.length)
    (h : 8 * (p.length + 1) ≤ w) :
    (read (b :: p) : BitVec w).toNat = (read p : BitVec w).toNat * 256 + b.toNat := by
  have hb := b.toBitVec.isLt
  have hpow : (256 : Nat) ^ p.length * 256 ≤ 2 ^ w := by
    calc (256 : Nat) ^ p.length * 256 = 2 ^ (8 * (p.length + 1)) := by
          rw [pow_mul, pow_succ]
          norm_num
      _ ≤ 2 ^ w := Nat.pow_le_pow_right (by norm_num) h
  have hshift : (read p : BitVec w).toNat * 2 ^ 8 < 2 ^ w := by omega
  have hbyte : b.toBitVec.toNat < 2 ^ w := by
    have : (1 : Nat) ≤ 256 ^ p.length := Nat.one_le_pow _ _ (by norm_num)
    omega
  change ((read p <<< 8) ||| b.toBitVec.setWidth w).toNat = _
  rw [BitVec.toNat_or, BitVec.toNat_shiftLeft, BitVec.toNat_setWidth, Nat.shiftLeft_eq,
    Nat.mod_eq_of_lt hshift, Nat.mod_eq_of_lt hbyte, ← Nat.shiftLeft_eq,
    ← Nat.shiftLeft_add_eq_or_of_lt hb, Nat.shiftLeft_eq]
  rfl

theorem toNat_read_lt (p : List UInt8) (h : 8 * p.length ≤ w) :
    (read p : BitVec w).toNat < 256 ^ p.length := by
  induction p with
  | nil =>
    rw [toNat_read_nil]
    exact Nat.one_pos
  | cons b p ih =>
    rw [List.length_cons] at h
    have hlt := ih (by omega)
    have hb := b.toBitVec.isLt
    rw [toNat_read_cons b p hlt h, List.length_cons, pow_succ]
    change _ + b.toBitVec.toNat < _
    omega

theorem write_read (p : List UInt8) (h : 8 * p.length ≤ w) :
    write p.length (read p : BitVec w) = p := by
  induction p with
  | nil => rfl
  | cons b p ih =>
    rw [List.length_cons] at h ⊢
    have hlt := toNat_read_lt (w := w) p (by omega)
    have hval := toNat_read_cons b p hlt h
    have hb : b.toNat < 256 := b.toBitVec.isLt
    have hlow : UInt8.ofBitVec (((read (b :: p) : BitVec w) &&& 0xff).setWidth 8) = b := by
      apply UInt8.toNat_inj.mp
      change (((read (b :: p) : BitVec w) &&& 0xff).setWidth 8).toNat = b.toNat
      rw [toNat_low_byte (by omega), hval]
      omega
    have hrest : (read (b :: p) : BitVec w) >>> 8 = read p := by
      apply BitVec.eq_of_toNat_eq
      rw [BitVec.toNat_ushiftRight, hval, Nat.shiftRight_eq_div_pow]
      omega
    rw [write, hlow, hrest, ih (by omega)]

theorem read_injective {p q : List UInt8} (hl : p.length = q.length) (hw : 8 * p.length ≤ w)
    (h : (read p : BitVec w) = read q) : p = q := by
  rw [← write_read p hw, h, hl, write_read q (hl ▸ hw)]

end LittleEndian

import Mathlib.Data.List.TakeWhile
import Mathlib.Tactic
import RedisServer.Bytes

namespace RedisServer

theorem not_isspace_of_isDigit {b : UInt8} (h : Decimal.isDigit b = true) : isspace b = false := by
  simp only [Decimal.isDigit, Bool.and_eq_true, decide_eq_true_eq, UInt8.le_iff_toNat_le,
    UInt8.toNat_ofNat] at h
  have hne : b ≠ 32 := by
    rintro rfl
    simp at h
  have hgt : ¬ b ≤ 13 := by
    rw [UInt8.le_iff_toNat_le]
    simp only [UInt8.toNat_ofNat]
    omega
  simp [isspace, hne, hgt]

inductive SignText : Bytes → Bool → Prop
  | bare : SignText [] false
  | plus : SignText [43] false
  | minus : SignText [45] true

def signed (neg : Bool) (n : Nat) : Int := if neg then -(n : Int) else n

-- an optional sign, one or more decimal digits, and the integer they denote
inductive SignedNumeral : Bytes → Int → Prop
  | intro {g ds : Bytes} {neg : Bool} (hg : SignText g neg) (hne : ds ≠ [])
    (hd : ∀ b ∈ ds, Decimal.isDigit b = true) :
    SignedNumeral (g ++ ds) (signed neg (Decimal.value ds))

theorem signOf_other {b : UInt8} (hminus : b ≠ 45) (hplus : b ≠ 43) (l : Bytes) :
    signOf (b :: l) = (false, 0) := by
  unfold signOf
  split
  · next he => exact absurd (List.cons.inj he).1 hminus
  · next he => exact absurd (List.cons.inj he).1 hplus
  · rfl

theorem signOf_split {b : UInt8} (l : Bytes) : ∃ g t neg, SignText g neg ∧ b :: l = g ++ t ∧
    signOf (b :: l ++ [0]) = (neg, g.length) := by
  by_cases hminus : b = 45
  · exact ⟨[45], l, true, .minus, by rw [hminus]; rfl, by rw [hminus]; rfl⟩
  by_cases hplus : b = 43
  · exact ⟨[43], l, false, .plus, by rw [hplus]; rfl, by rw [hplus]; rfl⟩
  · exact ⟨[], b :: l, false, .bare, rfl, signOf_other hminus hplus _⟩

theorem signOf_text {g ds : Bytes} {neg : Bool} (hg : SignText g neg) (hne : ds ≠ [])
    (hd : ∀ b ∈ ds, Decimal.isDigit b = true) : signOf (g ++ ds ++ [0]) = (neg, g.length) := by
  cases hg with
  | plus => rfl
  | minus => rfl
  | bare =>
    obtain ⟨b, l, rfl⟩ := List.exists_cons_of_ne_nil hne
    have hb := hd b (by simp)
    apply signOf_other
    · rintro rfl
      exact absurd hb (by decide)
    · rintro rfl
      exact absurd hb (by decide)

theorem SignText.head_not_space {g ds : Bytes} {neg : Bool} (hg : SignText g neg) (hne : ds ≠ [])
    (hd : ∀ b ∈ ds, Decimal.isDigit b = true) : isspace ((g ++ ds).getD 0 0) = false := by
  cases hg with
  | plus => rfl
  | minus => rfl
  | bare =>
    obtain ⟨b, l, rfl⟩ := List.exists_cons_of_ne_nil hne
    exact not_isspace_of_isDigit (hd b (by simp))

theorem takeWhile_digits {ds : Bytes} (h : ∀ b ∈ ds, Decimal.isDigit b = true) :
    (ds ++ [0]).takeWhile Decimal.isDigit = ds := by
  have hstop : ([0] : Bytes).takeWhile Decimal.isDigit = [] := by decide
  rw [List.takeWhile_append_of_pos h, hstop, List.append_nil]

-- strtoll on a text that does not start with white space
theorem strtoll_eq {s : Bytes} {neg : Bool} {n : Nat} (hws : s.takeWhile isspace = [])
    (hsign : signOf s = (neg, n)) :
    strtoll s =
      if (s.drop n).takeWhile Decimal.isDigit = [] then ⟨0, 0, false⟩
      else
        let ds := (s.drop n).takeWhile Decimal.isDigit
        if Int64.maxValue.toInt < signed neg (Decimal.value ds) then
          ⟨Int64.maxValue, n + ds.length, true⟩
        else if signed neg (Decimal.value ds) < Int64.minValue.toInt then
          ⟨Int64.minValue, n + ds.length, true⟩
        else ⟨Int64.ofInt (signed neg (Decimal.value ds)), n + ds.length, false⟩ := by
  simp only [strtoll, hws, List.length_nil, List.drop_zero, hsign, Nat.zero_add]
  rfl

theorem takeWhile_isspace_copy {s : Bytes} (hne : s ≠ []) (hhead : isspace (s.getD 0 0) = false) :
    (s ++ [0]).takeWhile isspace = [] := by
  obtain ⟨b, l, rfl⟩ := List.exists_cons_of_ne_nil hne
  rw [List.cons_append, List.takeWhile_cons_of_neg]
  simpa using hhead

theorem SignedNumeral.strictLl_eq {s : Bytes} {v : Int64} (h : SignedNumeral s v.toInt)
    (hlen : s.length ≤ 20) : strictLl s = some v := by
  have hlo := v.le_toInt
  have hhi := v.toInt_lt
  generalize hz : v.toInt = z at h
  cases h with
  | @intro g ds neg hg hne hd =>
    have hhead := hg.head_not_space hne hd
    have hpos : g ++ ds ≠ [] := by simp [hne]
    have hcut : ((g ++ ds ++ [0]).drop g.length).takeWhile Decimal.isDigit = ds := by
      rw [List.append_assoc, List.drop_left, takeWhile_digits hd]
    have hmax : ¬ Int64.maxValue.toInt < signed neg (Decimal.value ds) := by
      rw [← hz, Int64.toInt_maxValue]
      omega
    have hmin : ¬ signed neg (Decimal.value ds) < Int64.minValue.toInt := by
      rw [← hz, Int64.toInt_minValue]
      omega
    have hcall := strtoll_eq (takeWhile_isspace_copy hpos hhead) (signOf_text hg hne hd)
    rw [hcut, if_neg hne, if_neg hmax, if_neg hmin, ← hz, Int64.ofInt_toInt,
      ← List.length_append] at hcall
    have hl := List.length_pos_iff.mpr hpos
    rw [strictLl, if_neg (by omega), hhead]
    simp only [hcall]
    simp

theorem eq_of_takeWhile_length {t : Bytes}
    (h : ((t ++ [0]).takeWhile Decimal.isDigit).length = t.length) :
    (t ++ [0]).takeWhile Decimal.isDigit = t := by
  have hrun := List.takeWhile_prefix (l := t ++ [0]) Decimal.isDigit
  have hstart : t <+: t ++ [0] := ⟨[0], rfl⟩
  exact (List.prefix_of_prefix_length_le hrun hstart h.le).eq_of_length h

theorem strictLl_some {s : Bytes} {v : Int64} (h : strictLl s = some v) :
    s ≠ [] ∧ s.length ≤ 20 ∧ isspace (s.getD 0 0) = false ∧
      strtoll (s ++ [0]) = ⟨v, s.length, false⟩ := by
  unfold strictLl at h
  dsimp only at h
  split_ifs at h with hlen hhead herange hend
  rw [not_or, not_lt] at hlen
  rw [Bool.not_eq_true] at hhead herange
  refine ⟨fun h0 => hlen.1 (by rw [h0]; rfl), hlen.2, hhead, ?_⟩
  rw [← Option.some.inj h, ← not_not.mp hend, ← herange]

-- a call that reads the whole text in range has read a sign and digits only
theorem digits_of_strtoll {g t : Bytes} {neg : Bool} {v : Int64} (hne : g ++ t ≠ [])
    (hws : (g ++ t ++ [0]).takeWhile isspace = []) (hsign : signOf (g ++ t ++ [0]) = (neg, g.length))
    (h : strtoll (g ++ t ++ [0]) = ⟨v, (g ++ t).length, false⟩) :
    t ≠ [] ∧ (∀ b ∈ t, Decimal.isDigit b = true) ∧ v.toInt = signed neg (Decimal.value t) := by
  rw [strtoll_eq hws hsign, List.append_assoc, List.drop_left] at h
  dsimp only at h
  split_ifs at h with hnone hmax hmin
  · have hend := (Strtoll.mk.inj h).2.1
    exact absurd (List.length_eq_zero_iff.mp hend.symm) hne
  · exact absurd (Strtoll.mk.inj h).2.2 (by decide)
  · exact absurd (Strtoll.mk.inj h).2.2 (by decide)
  · obtain ⟨hv, hend, -⟩ := Strtoll.mk.inj h
    rw [List.length_append, Nat.add_left_cancel_iff] at hend
    have hds := eq_of_takeWhile_length hend
    rw [hds] at hnone hmax hmin hv
    refine ⟨hnone, fun b hb => List.mem_takeWhile_imp (hds.symm ▸ hb), ?_⟩
    rw [← hv]
    rw [Int64.toInt_maxValue] at hmax
    rw [Int64.toInt_minValue] at hmin
    exact Int64.toInt_ofInt_of_le (by omega) (by omega)

theorem signedNumeral_of_strictLl {s : Bytes} {v : Int64} (h : strictLl s = some v) :
    s.length ≤ 20 ∧ SignedNumeral s v.toInt := by
  obtain ⟨hne, hlen, hhead, hcall⟩ := strictLl_some h
  have hws := takeWhile_isspace_copy hne hhead
  refine ⟨hlen, ?_⟩
  obtain ⟨b, l, rfl⟩ := List.exists_cons_of_ne_nil hne
  obtain ⟨g, t, neg, hg, hs, hsign⟩ := @signOf_split b l
  rw [hs] at hne hws hsign hcall ⊢
  obtain ⟨ht, hd, hv⟩ := digits_of_strtoll hne hws hsign hcall
  rw [hv]
  exact .intro hg ht hd

theorem strictLl_iff (s : Bytes) (v : Int64) :
    strictLl s = some v ↔ s.length ≤ 20 ∧ SignedNumeral s v.toInt :=
  ⟨signedNumeral_of_strictLl, fun h => h.2.strictLl_eq h.1⟩

theorem signedNumeral_ofInt (z : Int) : SignedNumeral (Decimal.ofInt z) z := by
  have hne := Decimal.ofNat_ne_nil z.natAbs
  have hd : ∀ b ∈ Decimal.ofNat z.natAbs, Decimal.isDigit b = true :=
    fun _ => Decimal.isDigit_of_mem_ofNat
  have hval := Decimal.value_ofNat z.natAbs
  unfold Decimal.ofInt
  split_ifs with hneg
  · have h := SignedNumeral.intro .minus hne hd
    rw [hval, signed, if_pos rfl, show -((z.natAbs : Nat) : Int) = z by omega] at h
    exact h
  · have h := SignedNumeral.intro .bare hne hd
    rw [hval, signed, if_neg (by decide), show ((z.natAbs : Nat) : Int) = z by omega] at h
    exact h

theorem strictLl_formatLld (v : Int64) : strictLl (formatLld v) = some v := by
  have hlo := v.le_toInt
  have hhi := v.toInt_lt
  have hlen : (Decimal.ofNat v.toInt.natAbs).length ≤ 19 :=
    Decimal.length_ofNat_le (by norm_num) (by norm_num; omega)
  refine (signedNumeral_ofInt v.toInt).strictLl_eq ?_
  unfold Decimal.ofInt
  split_ifs
  · rw [List.length_cons]
    omega
  · omega

end RedisServer

import RedisServer.Resp.Reply
import RedisServer.Lib.PrefixCode

namespace RedisServer

open PrefixCode

inductive Resp where
  | simple (s : Bytes)
  | error (s : Bytes)
  | integer (z : Int)
  | bulk (s : Bytes)
  | null
  | array (vs : List Resp)

def IsLine (s : Bytes) : Prop := cr ∉ s ∧ lf ∉ s

def IsDecimal (ds : Bytes) : Prop := ds ≠ [] ∧ ∀ b ∈ ds, Decimal.isDigit b = true

inductive Wire : Resp → Bytes → Prop
  | simple {s : Bytes} (h : IsLine s) : Wire (.simple s) (43 :: (s ++ crlf))
  | error {s : Bytes} (h : IsLine s) : Wire (.error s) (45 :: (s ++ crlf))
  | natural {ds : Bytes} (h : IsDecimal ds) :
    Wire (.integer (Decimal.value ds)) (58 :: (ds ++ crlf))
  | negative {ds : Bytes} (h : IsDecimal ds) :
    Wire (.integer (-(Decimal.value ds : Int))) (58 :: 45 :: (ds ++ crlf))
  | bulk {ds s : Bytes} (h : IsDecimal ds) (hv : Decimal.value ds = s.length) :
    Wire (.bulk s) (36 :: (ds ++ crlf ++ s ++ crlf))
  | null : Wire .null (36 :: 45 :: 49 :: crlf)
  | array {ds : Bytes} {items : List (Resp × Bytes)} (h : IsDecimal ds)
    (hv : Decimal.value ds = items.length) (hi : ∀ p ∈ items, Wire p.1 p.2) :
    Wire (.array (items.map Prod.fst)) (42 :: (ds ++ crlf ++ payload items))

theorem isDecimal_ofNat (n : Nat) : IsDecimal (Decimal.ofNat n) :=
  ⟨Decimal.ofNat_ne_nil n, fun _ => Decimal.isDigit_of_mem_ofNat⟩

theorem IsDecimal.cr_notMem {ds : Bytes} (h : IsDecimal ds) : cr ∉ ds :=
  fun hm => absurd (h.2 cr hm) (by decide)

theorem IsDecimal.ne_minus {ds l : Bytes} (h : IsDecimal ds) : ds ≠ 45 :: l := by
  rintro rfl
  exact absurd (h.2 45 (by simp)) (by decide)

theorem IsDecimal.minus_cr_notMem {ds : Bytes} (h : IsDecimal ds) : cr ∉ 45 :: ds := by
  simp only [List.mem_cons, not_or]
  exact ⟨by decide, h.cr_notMem⟩

theorem header_unique {l l' x y : Bytes} (h : cr ∉ l) (h' : cr ∉ l')
    (he : l ++ (crlf ++ x) = l' ++ (crlf ++ y)) : l = l' ∧ x = y := by
  obtain ⟨hl, hx⟩ := cut_unique h h' he
  exact ⟨hl, (List.cons.inj hx).2⟩

theorem Wire.ne_nil (v : Resp) (b : Bytes) (h : Wire v b) : b ≠ [] := by
  cases h <;> simp

theorem Wire.determined (v : Resp) (b : Bytes) (h : Wire v b) : Determined Wire v b := by
  induction h with
  | simple h =>
    intro v' b' x y h' he
    cases h' with
    | simple h' =>
      obtain ⟨hs, hx⟩ := header_unique h.1 h'.1 (by simpa using he)
      exact ⟨by rw [hs], by rw [hs]⟩
    | _ => simp at he
  | error h =>
    intro v' b' x y h' he
    cases h' with
    | error h' =>
      obtain ⟨hs, hx⟩ := header_unique h.1 h'.1 (by simpa using he)
      exact ⟨by rw [hs], by rw [hs]⟩
    | _ => simp at he
  | natural h =>
    intro v' b' x y h' he
    cases h' with
    | natural h' =>
      obtain ⟨hs, hx⟩ := header_unique h.cr_notMem h'.cr_notMem (by simpa using he)
      exact ⟨by rw [hs], by rw [hs]⟩
    | negative h' =>
      obtain ⟨hs, hx⟩ := header_unique h.cr_notMem h'.minus_cr_notMem (by simpa using he)
      exact absurd hs h.ne_minus
    | _ => simp at he
  | negative h =>
    intro v' b' x y h' he
    cases h' with
    | natural h' =>
      obtain ⟨hs, hx⟩ := header_unique h.minus_cr_notMem h'.cr_notMem (by simpa using he)
      exact absurd hs.symm h'.ne_minus
    | negative h' =>
      obtain ⟨hs, hx⟩ := header_unique h.minus_cr_notMem h'.minus_cr_notMem (by simpa using he)
      exact ⟨by rw [(List.cons.inj hs).2], by rw [(List.cons.inj hs).2]⟩
    | _ => simp at he
  | bulk h hv =>
    intro v' b' x y h' he
    cases h' with
    | bulk h' hv' =>
      simp only [List.cons_append, List.append_assoc, List.cons.injEq, true_and] at he
      obtain ⟨hs, hx⟩ := header_unique h.cr_notMem h'.cr_notMem he
      obtain ⟨hb, hx⟩ := List.append_inj hx (by rw [← hv, ← hv', hs])
      exact ⟨by rw [hb], by rw [hs, hb]⟩
    | null =>
      have hm : cr ∉ ([45, 49] : Bytes) := by decide
      obtain ⟨hs, hx⟩ := header_unique h.cr_notMem hm (by simpa using he)
      exact absurd hs h.ne_minus
    | _ => simp at he
  | null =>
    intro v' b' x y h' he
    cases h' with
    | bulk h' hv' =>
      have hm : cr ∉ ([45, 49] : Bytes) := by decide
      obtain ⟨hs, hx⟩ := header_unique hm h'.cr_notMem (by simpa using he)
      exact absurd hs.symm h'.ne_minus
    | null => exact ⟨rfl, rfl⟩
    | _ => simp at he
  | array h hv hi ih =>
    intro v' b' x y h' he
    cases h' with
    | array h' hv' hi' =>
      simp only [List.cons_append, List.append_assoc, List.cons.injEq, true_and] at he
      obtain ⟨hs, hx⟩ := header_unique h.cr_notMem h'.cr_notMem he
      have hitems := items_unique_of_length (by rw [← hv, ← hv', hs]) ih hi' hx
      exact ⟨by rw [hitems], by rw [hs, hitems]⟩
    | _ => simp at he

end RedisServer

import Mathlib.Tactic
import RedisServer.Resp.Parse

namespace RedisServer

open Incremental (Verdict)

theorem byteAt_append {buf : Bytes} {i : Nat} (h : i < buf.length) (x : Bytes) :
    byteAt (buf ++ x) i = byteAt buf i := by
  simp [byteAt, List.getD_eq_getElem?_getD, List.getElem?_append_left h]

theorem slice_append {buf : Bytes} {pos len : Nat} (h : pos + len ≤ buf.length) (x : Bytes) :
    slice (buf ++ x) pos len = slice buf pos len := by
  rw [slice, slice, List.drop_append_of_le_length (by omega),
    List.take_append_of_le_length (by rw [List.length_drop]; omega)]

theorem findCrlfFrom_bounds {l : Bytes} {i j : Nat} (h : findCrlfFrom l i = some j) :
    i ≤ j ∧ j + 2 ≤ i + l.length := by
  fun_induction findCrlfFrom l i with
  | case1 i a b rest hab =>
    simp only [Option.some.injEq] at h
    simp only [List.length_cons]
    omega
  | case2 i a b rest hab ih =>
    have := ih h
    simp only [List.length_cons] at this ⊢
    omega
  | case3 => simp at h

theorem findCrlfFrom_append {l : Bytes} {i j : Nat} (h : findCrlfFrom l i = some j) (x : Bytes) :
    findCrlfFrom (l ++ x) i = some j := by
  fun_induction findCrlfFrom l i with
  | case1 i a b rest hab =>
    rw [List.cons_append, List.cons_append, findCrlfFrom, if_pos hab]
    exact h
  | case2 i a b rest hab ih =>
    rw [List.cons_append, List.cons_append, findCrlfFrom, if_neg hab]
    exact ih h
  | case3 => simp at h

theorem findCrlf_bounds {buf : Bytes} {pos j : Nat} (h : findCrlf buf pos = some j) :
    pos ≤ j ∧ j + 2 ≤ buf.length := by
  have hb := findCrlfFrom_bounds h
  rw [List.length_drop] at hb
  omega

theorem findCrlfFrom_head {l : Bytes} {i : Nat} (h : findCrlfFrom l i = some i) :
    l.head? = some cr := by
  cases l with
  | nil => simp [findCrlfFrom] at h
  | cons a l =>
    cases l with
    | nil => simp [findCrlfFrom] at h
    | cons b l =>
      rw [findCrlfFrom] at h
      split_ifs at h with hab
      · simp [hab.1]
      · have := (findCrlfFrom_bounds h).1
        omega

theorem findCrlf_byteAt {buf : Bytes} {pos : Nat} (h : findCrlf buf pos = some pos) :
    byteAt buf pos = cr := by
  have hh := findCrlfFrom_head h
  rw [List.head?_drop] at hh
  simp [byteAt, List.getD_eq_getElem?_getD, hh]

theorem findCrlf_append {buf : Bytes} {pos j : Nat} (h : findCrlf buf pos = some j) (x : Bytes) :
    findCrlf (buf ++ x) pos = some j := by
  have hb := findCrlf_bounds h
  rw [findCrlf, List.drop_append_of_le_length (by omega)]
  exact findCrlfFrom_append h x

-- everything one turn of the argument loop can do, with the facts that fix its outcome
inductive BulkCase (buf : Bytes) (pos : Nat) : Verdict Bytes ProtoError → Prop
  | tooBig : findCrlf buf pos = none → respMaxInlineLen < buf.length - pos →
      BulkCase buf pos (.error .tooBigBulkCount)
  | noHeader : findCrlf buf pos = none → buf.length - pos ≤ respMaxInlineLen →
      BulkCase buf pos .incomplete
  | notDollar {j} : findCrlf buf pos = some j → byteAt buf pos ≠ 36 →
      BulkCase buf pos (.error .expectedDollar)
  | badLength {j} : findCrlf buf pos = some j → byteAt buf pos = 36 →
      (∀ v, parseLl (slice buf (pos + 1) (j - (pos + 1))) = some v →
        v < 0 ∨ (respMaxBulkLen : Int) < v) →
      BulkCase buf pos (.error .invalidBulkLength)
  | shortBody {j} {v : Int} : findCrlf buf pos = some j → byteAt buf pos = 36 →
      parseLl (slice buf (pos + 1) (j - (pos + 1))) = some v →
      0 ≤ v → v ≤ (respMaxBulkLen : Int) → buf.length < j + 2 + v.toNat + 2 →
      BulkCase buf pos .incomplete
  | noTail {j} {v : Int} : findCrlf buf pos = some j → byteAt buf pos = 36 →
      parseLl (slice buf (pos + 1) (j - (pos + 1))) = some v →
      0 ≤ v → v ≤ (respMaxBulkLen : Int) → j + 2 + v.toNat + 2 ≤ buf.length →
      (byteAt buf (j + 2 + v.toNat) ≠ cr ∨ byteAt buf (j + 2 + v.toNat + 1) ≠ lf) →
      BulkCase buf pos (.error .expectedCrlf)
  | next {j} {v : Int} : findCrlf buf pos = some j → byteAt buf pos = 36 →
      parseLl (slice buf (pos + 1) (j - (pos + 1))) = some v →
      0 ≤ v → v ≤ (respMaxBulkLen : Int) → j + 2 + v.toNat + 2 ≤ buf.length →
      byteAt buf (j + 2 + v.toNat) = cr → byteAt buf (j + 2 + v.toNat + 1) = lf →
      BulkCase buf pos (.ok (slice buf (j + 2) v.toNat) (j + 2 + v.toNat + 2))

theorem parseBulk_cases (buf : Bytes) (pos : Nat) : BulkCase buf pos (parseBulk buf pos) := by
  unfold parseBulk
  split
  · next h =>
    split_ifs with hl
    · exact .tooBig h hl
    · exact .noHeader h (by omega)
  · next j h =>
    split_ifs with hd
    · exact .notDollar h hd
    · push Not at hd
      split
      · next hv => exact .badLength h hd (by simp [hv])
      · next v hv =>
        dsimp only
        split_ifs with hr hs ht
        · exact .badLength h hd (by rintro w hw; rw [hv] at hw; cases hw; exact hr)
        · push Not at hr
          exact .shortBody h hd hv hr.1 hr.2 hs
        · push Not at hr
          exact .noTail h hd hv hr.1 hr.2 (by omega) ht
        · push Not at hr ht
          exact .next h hd hv hr.1 hr.2 (by omega) ht.1 ht.2

theorem header_pos {buf : Bytes} {pos j : Nat} (h : findCrlf buf pos = some j)
    (hd : byteAt buf pos ≠ cr) : pos + 1 ≤ j := by
  by_contra hlt
  have hb := findCrlf_bounds h
  have heq : pos = j := by omega
  subst heq
  exact hd (findCrlf_byteAt h)

theorem parseBulk_append {buf : Bytes} {pos j : Nat} (h : findCrlf buf pos = some j) (x : Bytes) :
    parseBulk (buf ++ x) pos = parseBulk buf pos ∨ parseBulk buf pos = .incomplete := by
  have hb := findCrlf_bounds h
  simp only [parseBulk, h, findCrlf_append h x]
  rw [byteAt_append (by omega)]
  by_cases hd : byteAt buf pos = 36
  · have hj := header_pos h (by rw [hd]; decide)
    rw [slice_append (by omega), if_neg (not_not.mpr hd), if_neg (not_not.mpr hd)]
    cases parseLl (slice buf (pos + 1) (j - (pos + 1))) with
    | none => exact Or.inl rfl
    | some v =>
      simp only
      by_cases hr : v < 0 ∨ (respMaxBulkLen : Int) < v
      · exact Or.inl (by rw [if_pos hr, if_pos hr])
      · rw [if_neg hr, if_neg hr]
        by_cases hs : buf.length < j + 2 + v.toNat + 2
        · exact Or.inr (if_pos hs)
        · have hx : ¬ (buf ++ x).length < j + 2 + v.toNat + 2 := by
            rw [List.length_append]
            omega
          left
          rw [if_neg hs, if_neg hx, byteAt_append (by omega), byteAt_append (by omega),
            slice_append (by omega)]
  · simp [hd]

theorem parseBulk_ok {buf body : Bytes} {pos p : Nat} (h : parseBulk buf pos = .ok body p) :
    pos < p ∧ p ≤ buf.length ∧ ∀ x, parseBulk (buf ++ x) pos = .ok body p := by
  have hc := parseBulk_cases buf pos
  rw [h] at hc
  cases hc with
  | next hj hd hv h0 h1 hl =>
    have hb := findCrlf_bounds hj
    refine ⟨by omega, hl, fun x => ?_⟩
    rcases parseBulk_append hj x with he | he
    · rw [he, h]
    · simp [he] at h

theorem parseBulk_error {buf : Bytes} {pos : Nat} {e : ProtoError}
    (h : parseBulk buf pos = .error e) (he : e.isLimit = false) (x : Bytes) :
    parseBulk (buf ++ x) pos = .error e := by
  have hc := parseBulk_cases buf pos
  rw [h] at hc
  obtain ⟨j, hj⟩ : ∃ j, findCrlf buf pos = some j := by
    cases hc with
    | tooBig => simp [ProtoError.isLimit] at he
    | notDollar hj => exact ⟨_, hj⟩
    | badLength hj => exact ⟨_, hj⟩
    | noTail hj => exact ⟨_, hj⟩
  rcases parseBulk_append hj x with ha | ha
  · rw [ha, h]
  · simp [ha] at h

theorem parseArgs_ok_bounds {buf : Bytes} {n pos p : Nat} {argv a : List Bytes}
    (h : parseArgs buf n pos argv = .ok a p) (hpos : pos ≤ buf.length) :
    pos + n ≤ p ∧ p ≤ buf.length := by
  induction n generalizing pos argv with
  | zero =>
    cases h
    exact ⟨le_refl _, hpos⟩
  | succ n ih =>
    rw [parseArgs] at h
    split at h
    · simp at h
    · simp at h
    · next body pos' hb =>
      obtain ⟨h1, h2, -⟩ := parseBulk_ok hb
      have := ih h h2
      omega

theorem parseArgs_ok_append {buf : Bytes} {n pos p : Nat} {argv a : List Bytes}
    (h : parseArgs buf n pos argv = .ok a p) (x : Bytes) :
    parseArgs (buf ++ x) n pos argv = .ok a p := by
  induction n generalizing pos argv with
  | zero => exact h
  | succ n ih =>
    rw [parseArgs] at h ⊢
    split at h
    · simp at h
    · simp at h
    · next body pos' hb =>
      rw [(parseBulk_ok hb).2.2 x]
      exact ih h

theorem parseArgs_error_append {buf : Bytes} {n pos : Nat} {argv : List Bytes} {e : ProtoError}
    (h : parseArgs buf n pos argv = .error e) (he : e.isLimit = false) (x : Bytes) :
    parseArgs (buf ++ x) n pos argv = .error e := by
  induction n generalizing pos argv with
  | zero => simp [parseArgs] at h
  | succ n ih =>
    rw [parseArgs] at h ⊢
    split at h
    · simp at h
    · next e' hb =>
      cases h
      rw [parseBulk_error hb he x]
    · next body pos' hb =>
      rw [(parseBulk_ok hb).2.2 x]
      exact ih h

theorem parseMultibulk_some {buf : Bytes} {j : Nat} (h : findCrlf buf 0 = some j)
    (h0 : byteAt buf 0 = 42) (x : Bytes) :
    findCrlf (buf ++ x) 0 = some j ∧ slice (buf ++ x) 1 (j - 1) = slice buf 1 (j - 1) := by
  have hb := findCrlf_bounds h
  have hj := header_pos h (by rw [h0]; decide)
  exact ⟨findCrlf_append h x, slice_append (by omega) x⟩

theorem parseMultibulk_ok {buf : Bytes} {a : Command} {p : Nat}
    (h : parseMultibulk buf = .ok a p) (h0 : byteAt buf 0 = 42) :
    0 < p ∧ p ≤ buf.length ∧ ∀ x, parseMultibulk (buf ++ x) = .ok a p := by
  unfold parseMultibulk at h ⊢
  split at h
  · split_ifs at h
  · next j hj =>
    have hb := findCrlf_bounds hj
    split at h
    · simp at h
    · next argc hv =>
      split_ifs at h with hr
      have hbd := parseArgs_ok_bounds h (by omega)
      refine ⟨by omega, hbd.2, fun x => ?_⟩
      obtain ⟨h1, h2⟩ := parseMultibulk_some hj h0 x
      simp only [h1, h2, hv, if_neg hr]
      exact parseArgs_ok_append h x

theorem parseMultibulk_error {buf : Bytes} {e : ProtoError} (h : parseMultibulk buf = .error e)
    (he : e.isLimit = false) (h0 : byteAt buf 0 = 42) (x : Bytes) :
    parseMultibulk (buf ++ x) = .error e := by
  unfold parseMultibulk at h ⊢
  split at h
  · split_ifs at h
    cases h
    simp [ProtoError.isLimit] at he
  · next j hj =>
    obtain ⟨h1, h2⟩ := parseMultibulk_some hj h0 x
    simp only [h1, h2]
    split at h
    · exact h
    · split_ifs at h ⊢ with hr
      · exact h
      · exact parseArgs_error_append h he x

theorem lineEndOf_append {buf : Bytes} (h : lineEndOf buf < buf.length) (x : Bytes) :
    lineEndOf (buf ++ x) = lineEndOf buf := by
  unfold lineEndOf at h ⊢
  rw [List.takeWhile_append, if_neg (by omega)]

theorem lineLenOf_le (buf : Bytes) : lineLenOf buf ≤ lineEndOf buf := by
  unfold lineLenOf
  split_ifs <;> omega

theorem lineLenOf_append {buf : Bytes} (h : lineEndOf buf < buf.length) (x : Bytes) :
    lineLenOf (buf ++ x) = lineLenOf buf := by
  rw [lineLenOf, lineLenOf, lineEndOf_append h, byteAt_append (by omega)]

theorem parseInline_ok {buf : Bytes} {a : Command} {p : Nat} (h : parseInline buf = .ok a p) :
    0 < p ∧ p ≤ buf.length ∧ ∀ x, parseInline (buf ++ x) = .ok a p := by
  unfold parseInline at h
  split_ifs at h with hle
  push Not at hle
  simp only [Verdict.ok.injEq] at h
  refine ⟨by omega, by omega, fun x => ?_⟩
  have hl : ¬ (buf ++ x).length ≤ lineEndOf (buf ++ x) := by
    rw [lineEndOf_append hle, List.length_append]
    omega
  have hlen := lineLenOf_le buf
  rw [parseInline, if_neg hl, lineEndOf_append hle, lineLenOf_append hle,
    List.take_append_of_le_length (by omega), h.1, h.2]

theorem parseInline_error {buf : Bytes} {e : ProtoError} (h : parseInline buf = .error e) :
    e = .tooBigInline := by
  unfold parseInline at h
  split_ifs at h
  simpa using h.symm

theorem byteAt_zero_append {buf : Bytes} (h : buf.length ≠ 0) (x : Bytes) :
    byteAt (buf ++ x) 0 = byteAt buf 0 := byteAt_append (by omega) x

theorem respParse_ok {buf : Bytes} {a : Command} {p : Nat} (h : respParse buf = .ok a p) :
    0 < p ∧ p ≤ buf.length ∧ ∀ x, respParse (buf ++ x) = .ok a p := by
  unfold respParse at h
  split_ifs at h with hn h0
  · obtain ⟨h1, h2, h3⟩ := parseMultibulk_ok h h0
    refine ⟨h1, h2, fun x => ?_⟩
    rw [respParse, if_neg (by rw [List.length_append]; omega), byteAt_zero_append hn, if_pos h0]
    exact h3 x
  · obtain ⟨h1, h2, h3⟩ := parseInline_ok h
    refine ⟨h1, h2, fun x => ?_⟩
    rw [respParse, if_neg (by rw [List.length_append]; omega), byteAt_zero_append hn, if_neg h0]
    exact h3 x

theorem respParse_error {buf : Bytes} {e : ProtoError} (h : respParse buf = .error e)
    (he : ¬ e.isLimit = true) (x : Bytes) : respParse (buf ++ x) = .error e := by
  unfold respParse at h
  split_ifs at h with hn h0
  · rw [respParse, if_neg (by rw [List.length_append]; omega), byteAt_zero_append hn, if_pos h0]
    exact parseMultibulk_error h (by simpa using he) h0 x
  · rw [parseInline_error h] at he
    exact absurd rfl he

def respParser : Incremental.Parser UInt8 Command ProtoError where
  parse := respParse
  limit e := e.isLimit = true
  parse_nil := rfl
  ok_bounds h := ⟨(respParse_ok h).1, (respParse_ok h).2.1⟩
  ok_append h := (respParse_ok h).2.2
  error_append h he := respParse_error h he

end RedisServer

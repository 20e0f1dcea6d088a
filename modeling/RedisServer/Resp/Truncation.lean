import Mathlib.Data.List.TakeWhile
import RedisServer.Resp.Stability

namespace RedisServer

open Incremental (Verdict)

def bulkHeadersFit (buf : Bytes) : Nat → Nat → Prop
  | 0, _ => True
  | n + 1, pos =>
    match findCrlf buf pos with
    | none => True
    | some j => j + 1 - pos ≤ respMaxInlineLen ∧
      match parseLl (slice buf (pos + 1) (j - (pos + 1))) with
      | none => True
      | some blen => bulkHeadersFit buf n (j + 2 + blen.toNat + 2)

-- the line of an inline command, or each length header of a multibulk command counted from its
-- first byte to its CR, has at most respMaxInlineLen bytes
def headersFit (buf : Bytes) : Prop :=
  if byteAt buf 0 = 42 then
    match findCrlf buf 0 with
    | none => True
    | some j => j + 1 ≤ respMaxInlineLen ∧
      match parseLl (slice buf 1 (j - 1)) with
      | none => True
      | some argc => bulkHeadersFit buf argc.toNat (j + 2)
  else lineEndOf buf ≤ respMaxInlineLen

theorem byteAt_take {buf : Bytes} {i k : Nat} (h : i < k) :
    byteAt (buf.take k) i = byteAt buf i := by
  simp [byteAt, List.getD_eq_getElem?_getD, h]

theorem slice_take (buf : Bytes) {pos len k : Nat} (h : pos + len ≤ k) :
    slice (buf.take k) pos len = slice buf pos len := by
  rw [slice, slice, List.drop_take, List.take_take, Nat.min_eq_left (by omega)]

theorem findCrlfFrom_take {l : Bytes} {i j m : Nat} (h : findCrlfFrom l i = some j)
    (hm : j + 2 ≤ i + m) : findCrlfFrom (l.take m) i = some j := by
  have hb := findCrlfFrom_bounds h
  fun_induction findCrlfFrom l i generalizing m with
  | case1 i a b rest hab =>
    simp only [Option.some.injEq] at h
    obtain ⟨m, rfl⟩ : ∃ m', m = m' + 2 := ⟨m - 2, by omega⟩
    rw [List.take_succ_cons, List.take_succ_cons, findCrlfFrom, if_pos hab, h]
  | case2 i a b rest hab ih =>
    have hb' := findCrlfFrom_bounds h
    obtain ⟨m, rfl⟩ : ∃ m', m = m' + 2 := ⟨m - 2, by omega⟩
    rw [List.take_succ_cons, List.take_succ_cons, findCrlfFrom, if_neg hab,
      ← List.take_succ_cons]
    exact ih h (by omega) hb'
  | case3 => simp at h

theorem findCrlf_take {buf : Bytes} {pos j k : Nat} (h : findCrlf buf pos = some j)
    (hk : j + 2 ≤ k) : findCrlf (buf.take k) pos = some j := by
  have hb := findCrlf_bounds h
  rw [findCrlf, List.drop_take]
  exact findCrlfFrom_take h (by omega)

theorem findCrlf_take_none {buf : Bytes} {pos j k : Nat} (h : findCrlf buf pos = some j)
    (hk : k ≤ j + 1) : findCrlf (buf.take k) pos = none := by
  cases hf : findCrlf (buf.take k) pos with
  | none => rfl
  | some i =>
    have hb := findCrlf_bounds hf
    have ha := findCrlf_append hf (buf.drop k)
    rw [List.take_append_drop, h] at ha
    rw [List.length_take] at hb
    simp only [Option.some.injEq] at ha
    omega

theorem parseBulk_take {buf : Bytes} {pos j k : Nat} {v : Int} (hj : findCrlf buf pos = some j)
    (hd : byteAt buf pos = 36) (hv : parseLl (slice buf (pos + 1) (j - (pos + 1))) = some v)
    (h0 : 0 ≤ v) (h1 : v ≤ (respMaxBulkLen : Int)) (hcr : byteAt buf (j + 2 + v.toNat) = cr)
    (hlf : byteAt buf (j + 2 + v.toNat + 1) = lf) (hjk : j + 2 ≤ k) (hk : k ≤ buf.length) :
    parseBulk (buf.take k) pos = if k < j + 2 + v.toNat + 2 then .incomplete
      else .ok (slice buf (j + 2) v.toNat) (j + 2 + v.toNat + 2) := by
  have hb := findCrlf_bounds hj
  have hp := header_pos hj (by rw [hd]; decide)
  have hlen : (buf.take k).length = k := List.length_take_of_le hk
  simp only [parseBulk, findCrlf_take hj hjk, byteAt_take (show pos < k by omega),
    slice_take buf (show pos + 1 + (j - (pos + 1)) ≤ k by omega), hd, hv, hlen]
  rw [if_neg (by simp), if_neg (by omega)]
  split_ifs with hs ht
  · rfl
  · rw [byteAt_take (by omega), byteAt_take (by omega)] at ht
    simp [hcr, hlf] at ht
  · rw [slice_take _ (by omega)]

theorem parseBulk_take_header {buf : Bytes} {pos j k : Nat} (hj : findCrlf buf pos = some j)
    (hjk : k ≤ j + 1) :
    parseBulk (buf.take k) pos =
      if respMaxInlineLen < k - pos then .error .tooBigBulkCount else .incomplete := by
  have hb := findCrlf_bounds hj
  simp only [parseBulk, findCrlf_take_none hj hjk]
  rw [List.length_take_of_le (by omega)]

theorem parseArgs_take_of_fit {buf : Bytes} {n pos p k : Nat} {argv a : List Bytes}
    (h : parseArgs buf n pos argv = .ok a p) (hfit : bulkHeadersFit buf n pos) (hk : k < p)
    (hpos : pos ≤ k) (hlen : k ≤ buf.length) : parseArgs (buf.take k) n pos argv = .incomplete := by
  induction n generalizing pos argv with
  | zero =>
    cases h
    omega
  | succ n ih =>
    rw [parseArgs] at h ⊢
    split at h
    · simp at h
    · simp at h
    · next body pos' hb =>
      have hc := parseBulk_cases buf pos
      rw [hb] at hc
      cases hc with
      | @next j v hj hd hv h0 h1 hl hcr hlf =>
        simp only [bulkHeadersFit, hj, hv] at hfit
        by_cases hjk : j + 2 ≤ k
        · rw [parseBulk_take hj hd hv h0 h1 hcr hlf hjk hlen]
          split_ifs with hs
          · rfl
          · exact ih h hfit.2 (by omega)
        · rw [parseBulk_take_header hj (by omega), if_neg (by omega)]

theorem parseArgs_take_of_not_fit {buf : Bytes} {n pos p : Nat} {argv a : List Bytes}
    (h : parseArgs buf n pos argv = .ok a p) (hfit : ¬ bulkHeadersFit buf n pos)
    (hpos : pos ≤ buf.length) :
    ∃ k, pos ≤ k ∧ k < p ∧ parseArgs (buf.take k) n pos argv = .error .tooBigBulkCount := by
  induction n generalizing pos argv with
  | zero => exact absurd trivial hfit
  | succ n ih =>
    have hbd := parseArgs_ok_bounds h hpos
    rw [parseArgs] at h
    split at h
    · simp at h
    · simp at h
    · next body pos' hb =>
      have hc := parseBulk_cases buf pos
      rw [hb] at hc
      cases hc with
      | @next j v hj hd hv h0 h1 hl hcr hlf =>
        have hjb := findCrlf_bounds hj
        have hpp := parseArgs_ok_bounds h hl
        simp only [bulkHeadersFit, hj, hv, not_and_or] at hfit
        by_cases hlong : j + 1 - pos ≤ respMaxInlineLen
        · obtain ⟨k, hk1, hk2, hk3⟩ := ih h (hfit.resolve_left (not_not.mpr hlong)) hl
          refine ⟨k, by omega, hk2, ?_⟩
          rw [parseArgs, parseBulk_take hj hd hv h0 h1 hcr hlf (by omega) (by omega),
            if_neg (by omega)]
          exact hk3
        · refine ⟨j + 1, by omega, by omega, ?_⟩
          rw [parseArgs, parseBulk_take_header hj (le_refl _), if_pos (by omega)]

theorem lineEndOf_take {buf : Bytes} {k : Nat} (h : k ≤ lineEndOf buf) :
    lineEndOf (buf.take k) = k := by
  unfold lineEndOf at h ⊢
  have hp : buf.take k <+: buf.takeWhile (· != lf) :=
    List.prefix_of_prefix_length_le (List.take_prefix k buf) (List.takeWhile_prefix _)
      (by rw [List.length_take]; omega)
  have hall : ∀ b ∈ buf.take k, (b != lf) = true := fun b hb =>
    List.mem_takeWhile_imp (p := (· != lf)) (hp.subset hb)
  have hle : (buf.takeWhile (· != lf)).length ≤ buf.length := (List.takeWhile_prefix _).length_le
  rw [List.takeWhile_eq_self_iff.mpr hall, List.length_take_of_le (by omega)]

theorem parseInline_take {buf : Bytes} {k : Nat} (h : k ≤ lineEndOf buf)
    (hlen : k ≤ buf.length) :
    parseInline (buf.take k) =
      if respMaxInlineLen < k then .error .tooBigInline else .incomplete := by
  rw [parseInline, lineEndOf_take h, List.length_take_of_le hlen, if_pos (le_refl k)]

theorem respParse_take {buf : Bytes} {k : Nat} (hk : 0 < k) (hlen : k ≤ buf.length) :
    respParse (buf.take k) =
      if byteAt buf 0 = 42 then parseMultibulk (buf.take k) else parseInline (buf.take k) := by
  rw [respParse, List.length_take_of_le hlen, if_neg (by omega), byteAt_take hk]

theorem parseMultibulk_take {buf : Bytes} {j k : Nat} {argc : Int} (hj : findCrlf buf 0 = some j)
    (h0 : byteAt buf 0 = 42) (hv : parseLl (slice buf 1 (j - 1)) = some argc)
    (hr : ¬ (argc ≤ 0 ∨ (respMaxArgc : Int) < argc)) (hlen : k ≤ buf.length) :
    parseMultibulk (buf.take k) =
      if k ≤ j + 1 then if respMaxInlineLen < k then .error .tooBigMbulkCount else .incomplete
      else parseArgs (buf.take k) argc.toNat (j + 2) [] := by
  have hp := header_pos hj (by rw [h0]; decide)
  by_cases hk : k ≤ j + 1
  · simp only [parseMultibulk, findCrlf_take_none hj hk, List.length_take_of_le hlen, if_pos hk]
  · simp only [parseMultibulk, findCrlf_take hj (show j + 2 ≤ k by omega),
      slice_take buf (show 1 + (j - 1) ≤ k by omega), hv, if_neg hr, if_neg hk]

theorem truncated_multibulk_iff {buf : Bytes} {a : Command} {n : Nat} (h0 : byteAt buf 0 = 42)
    (h : parseMultibulk buf = .ok a n) :
    (∀ k, 0 < k → k < n → parseMultibulk (buf.take k) = .incomplete) ↔ headersFit buf := by
  obtain ⟨-, hn, -⟩ := parseMultibulk_ok h h0
  unfold parseMultibulk at h
  split at h
  · split_ifs at h
  · next j hj =>
    have hjb := findCrlf_bounds hj
    split at h
    · simp at h
    · next argc hv =>
      split_ifs at h with hr
      have hbd := parseArgs_ok_bounds h (by omega)
      have hheaders : headersFit buf ↔
          j + 1 ≤ respMaxInlineLen ∧ bulkHeadersFit buf argc.toNat (j + 2) := by
        simp only [headersFit, if_pos h0, hj, hv]
      rw [hheaders]
      constructor
      · intro hall
        by_contra hfit
        rcases not_and_or.mp hfit with hfit | hfit
        · have hx := hall (j + 1) (by omega) (by omega)
          rw [parseMultibulk_take hj h0 hv hr (by omega), if_pos (le_refl _),
            if_pos (by omega)] at hx
          cases hx
        · obtain ⟨k, hk1, hk2, hk3⟩ := parseArgs_take_of_not_fit h hfit (by omega)
          have hx := hall k (by omega) hk2
          rw [parseMultibulk_take hj h0 hv hr (by omega), if_neg (by omega), hk3] at hx
          cases hx
      · rintro ⟨hf1, hf2⟩ k _ hkn
        rw [parseMultibulk_take hj h0 hv hr (by omega)]
        split_ifs with hk hl
        · omega
        · rfl
        · exact parseArgs_take_of_fit h hf2 hkn (by omega) (by omega)

theorem truncated_inline_iff {buf : Bytes} {a : Command} {n : Nat} (h0 : byteAt buf 0 ≠ 42)
    (h : parseInline buf = .ok a n) :
    (∀ k, 0 < k → k < n → parseInline (buf.take k) = .incomplete) ↔ headersFit buf := by
  rw [headersFit, if_neg h0]
  unfold parseInline at h
  split_ifs at h with hle
  simp only [Verdict.ok.injEq] at h
  constructor
  · intro hall
    by_contra hfit
    have hx := hall (lineEndOf buf) (by omega) (by omega)
    rw [parseInline_take (le_refl _) (by omega), if_pos (by omega)] at hx
    cases hx
  · intro hfit k _ hk
    rw [parseInline_take (by omega) (by omega), if_neg (by omega)]

theorem resp_parse_truncation_iff_headers_fit (buf : Bytes) (argv : Command) (n : Nat)
    (h : respParse buf = .ok argv n) :
    (∀ k, k < n → respParse (buf.take k) = .incomplete) ↔ headersFit buf := by
  have hb := respParse_ok h
  have hzero : respParse (buf.take 0) = .incomplete := rfl
  have hpos : (∀ k, k < n → respParse (buf.take k) = .incomplete) ↔
      ∀ k, 0 < k → k < n → respParse (buf.take k) = .incomplete :=
    ⟨fun hk k _ => hk k, fun hk k hkn => (Nat.eq_zero_or_pos k).elim
      (fun hz => hz ▸ hzero) (fun hp => hk k hp hkn)⟩
  rw [hpos]
  unfold respParse at h
  split_ifs at h with hn h0
  · rw [← truncated_multibulk_iff h0 h]
    refine forall₃_congr (fun k hk hkn => ?_)
    rw [respParse_take hk (by omega), if_pos h0]
  · rw [← truncated_inline_iff h0 h]
    refine forall₃_congr (fun k hk hkn => ?_)
    rw [respParse_take hk (by omega), if_neg h0]

theorem resp_parse_truncation_iff_headers_fit_ping :
    respParse (str "PING\r\nx") = .ok [str "PING"] 6 ∧
      ((∀ k, k < 6 → respParse ((str "PING\r\nx").take k) = .incomplete) ↔
        headersFit (str "PING\r\nx")) :=
  ⟨by decide, resp_parse_truncation_iff_headers_fit _ [str "PING"] 6 (by decide)⟩

def line (n : Nat) : Bytes := List.replicate n 97 ++ [lf]

theorem length_line (n : Nat) : (line n).length = n + 1 := by
  rw [line, List.length_append, List.length_replicate, List.length_singleton]

theorem lineEndOf_line (n : Nat) : lineEndOf (line n) = n := by
  have hall : ∀ b ∈ List.replicate n (97 : UInt8), (b != lf) = true := by
    intro b hb
    rw [List.eq_of_mem_replicate hb]
    decide
  have hlf : [lf].takeWhile (· != lf) = [] := by decide
  rw [lineEndOf, line, List.takeWhile_append_of_pos hall, hlf, List.append_nil,
    List.length_replicate]

theorem resp_parse_rejects_prefix_of_long_line :
    ∃ argv, respParse (line 65537) = .ok argv 65538 ∧
      respParse ((line 65537).take 65537) = .error .tooBigInline := by
  have h0 : byteAt (line 65537) 0 ≠ 42 := by
    rw [byteAt, line, List.replicate_succ, List.cons_append, List.getD_cons_zero]
    decide
  have hl := length_line 65537
  have he := lineEndOf_line 65537
  refine ⟨tokenize ((line 65537).take (lineLenOf (line 65537))), ?_, ?_⟩
  · rw [respParse, hl, if_neg (by omega), if_neg h0, parseInline, hl, he, if_neg (by omega)]
  · rw [respParse_take (by omega) (by omega), if_neg h0, parseInline_take (by omega) (by omega),
      if_pos (by decide)]

end RedisServer

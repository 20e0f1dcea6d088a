import RedisServer.Resp.Truncation
import RedisServer.Resp.Value

namespace RedisServer

open Incremental (Verdict)

inductive Numeral : Bytes → Int → Prop
  | natural {ds : Bytes} (h : IsDecimal ds) : Numeral ds (Decimal.value ds)
  | negative {ds : Bytes} (h : IsDecimal ds) : Numeral (45 :: ds) (-(Decimal.value ds : Int))

inductive BulkItems : List Bytes → Bytes → Prop
  | nil : BulkItems [] []
  | cons {body ds rest : Bytes} {argv : List Bytes} {v : Int} (hn : Numeral ds v) (h0 : 0 ≤ v)
    (hmax : v ≤ (respMaxBulkLen : Int)) (hlen : (body.length : Int) = v)
    (h : BulkItems argv rest) :
    BulkItems (body :: argv) (36 :: (ds ++ crlf ++ (body ++ crlf)) ++ rest)

inductive Multibulk : Command → Bytes → Prop
  | intro {argv : Command} {ds items : Bytes} {v : Int} (hn : Numeral ds v) (h1 : 1 ≤ v)
    (hmax : v ≤ (respMaxArgc : Int)) (hlen : (argv.length : Int) = v) (h : BulkItems argv items) :
    Multibulk argv (42 :: (ds ++ crlf) ++ items)

theorem Numeral.cr_notMem {ds : Bytes} {v : Int} (h : Numeral ds v) : cr ∉ ds := by
  cases h with
  | natural h => exact h.cr_notMem
  | negative h => exact h.minus_cr_notMem

theorem parseDigits_some {ds : Bytes} {v w : Nat} (h : parseDigits ds v = some w) :
    (∀ b ∈ ds, Decimal.isDigit b = true) ∧
      w = ds.foldl (fun v b => v * 10 + (b.toNat - 48)) v := by
  fun_induction parseDigits ds v with
  | case1 v => exact ⟨by simp, (Option.some.inj h).symm⟩
  | case2 => simp at h
  | case3 => simp at h
  | case4 b bs v hb u hu ih =>
    obtain ⟨hd, hw⟩ := ih h
    have hdigit : Decimal.isDigit b = true := by
      simp only [not_or, UInt8.not_lt] at hb
      simp [Decimal.isDigit, hb]
    refine ⟨?_, hw⟩
    simp only [List.mem_cons, forall_eq_or_imp]
    exact ⟨hdigit, hd⟩

-- the accumulator only grows, so the cut-off at twice the bulk limit is never met on the way to a
-- value below it
theorem parseDigits_eq {ds : Bytes} {v : Nat} (hd : ∀ b ∈ ds, Decimal.isDigit b = true)
    (hmax : ds.foldl (fun v b => v * 10 + (b.toNat - 48)) v ≤ respMaxBulkLen * 2) :
    parseDigits ds v = some (ds.foldl (fun v b => v * 10 + (b.toNat - 48)) v) := by
  induction ds generalizing v with
  | nil => rfl
  | cons b ds ih =>
    have hb := hd b (by simp)
    have hdigit : ¬ (b < 48 ∨ 57 < b) := by
      simp only [Decimal.isDigit, Bool.and_eq_true, decide_eq_true_eq] at hb
      simpa using hb
    rw [List.foldl_cons] at hmax ⊢
    have hle := Decimal.le_foldl_value ds (v * 10 + (b.toNat - 48))
    rw [parseDigits, if_neg hdigit]
    dsimp only
    rw [if_neg (by omega)]
    exact ih (fun x hx => hd x (by simp [hx])) hmax

theorem parseLl_negative {ds : Bytes} (h : ds ≠ []) :
    parseLl (45 :: ds) = (parseDigits ds 0).map (fun v : Nat => -(v : Int)) := by
  rw [parseLl, if_neg h]
  cases parseDigits ds 0 <;> rfl

theorem parseLl_natural {ds : Bytes} (h : ds ≠ []) (hneg : ∀ l, ds ≠ 45 :: l) :
    parseLl ds = (parseDigits ds 0).map (fun v : Nat => (v : Int)) := by
  unfold parseLl
  split
  · exact absurd rfl h
  · next l => exact absurd rfl (hneg l)
  · cases parseDigits ds 0 <;> rfl

theorem parseLl_some {ds : Bytes} {v : Int} (h : parseLl ds = some v) : Numeral ds v := by
  by_cases hneg : ∃ l, ds = 45 :: l
  · obtain ⟨l, rfl⟩ := hneg
    have hne : l ≠ [] := by
      rintro rfl
      simp [parseLl] at h
    rw [parseLl_negative hne] at h
    obtain ⟨w, hw, rfl⟩ := Option.map_eq_some_iff.mp h
    obtain ⟨hd, rfl⟩ := parseDigits_some hw
    exact .negative ⟨hne, hd⟩
  · have hne : ds ≠ [] := by
      rintro rfl
      simp [parseLl] at h
    rw [parseLl_natural hne (fun l hl => hneg ⟨l, hl⟩)] at h
    obtain ⟨w, hw, rfl⟩ := Option.map_eq_some_iff.mp h
    obtain ⟨hd, rfl⟩ := parseDigits_some hw
    exact .natural ⟨hne, hd⟩

theorem Numeral.parseLl_eq {ds : Bytes} {v : Int} (h : Numeral ds v)
    (hmax : v.natAbs ≤ respMaxBulkLen * 2) : parseLl ds = some v := by
  cases h with
  | natural h =>
    rw [Int.natAbs_natCast] at hmax
    rw [parseLl_natural h.1 (fun l => h.ne_minus), parseDigits_eq h.2 hmax]
    rfl
  | @negative ds h =>
    rw [Int.natAbs_neg, Int.natAbs_natCast] at hmax
    rw [parseLl_negative h.1, parseDigits_eq h.2 hmax]
    rfl

theorem findCrlfFrom_header {l : Bytes} (h : cr ∉ l) (i : Nat) (rest : Bytes) :
    findCrlfFrom (l ++ (crlf ++ rest)) i = some (i + l.length) := by
  induction l generalizing i with
  | nil =>
    rw [List.nil_append, crlf, List.cons_append, List.cons_append, findCrlfFrom,
      if_pos ⟨rfl, rfl⟩]
    rfl
  | cons a l ih =>
    simp only [List.mem_cons, not_or] at h
    obtain ⟨b, rest', hrest⟩ : ∃ b rest', l ++ (crlf ++ rest) = b :: rest' := by
      cases l with
      | nil => exact ⟨cr, lf :: rest, rfl⟩
      | cons b l => exact ⟨b, _, rfl⟩
    rw [List.cons_append, hrest, findCrlfFrom, if_neg (fun hc => h.1 hc.1.symm), ← hrest,
      ih h.2 (i + 1), List.length_cons]
    congr 1
    omega

theorem findCrlf_header {buf l rest : Bytes} {pos : Nat} (hd : buf.drop pos = l ++ (crlf ++ rest))
    (h : cr ∉ l) : findCrlf buf pos = some (pos + l.length) := by
  rw [findCrlf, hd, findCrlfFrom_header h]

theorem findCrlfFrom_split {l : Bytes} {i j : Nat} (h : findCrlfFrom l i = some j) :
    l = l.take (j - i) ++ (crlf ++ l.drop (j - i + 2)) := by
  fun_induction findCrlfFrom l i with
  | case1 a b rest i hab =>
    simp only [Option.some.injEq] at h
    subst h
    simp [crlf, hab.1, hab.2]
  | case2 a b rest i hab ih =>
    have hb := findCrlfFrom_bounds h
    have hi := ih h
    obtain ⟨d, hd⟩ : ∃ d, j - i = d + 1 := ⟨j - i - 1, by omega⟩
    rw [show j - (i + 1) = d by omega] at hi
    rw [hd, List.take_succ_cons, List.drop_succ_cons, List.cons_append, ← hi]
  | case3 => simp at h

theorem findCrlf_split {buf : Bytes} {pos j : Nat} (h : findCrlf buf pos = some j) :
    buf.drop pos = slice buf pos (j - pos) ++ (crlf ++ buf.drop (j + 2)) := by
  have hb := findCrlf_bounds h
  have hs := findCrlfFrom_split h
  rwa [List.drop_drop, show pos + (j - pos + 2) = j + 2 by omega] at hs

theorem drop_byteAt {buf : Bytes} {i : Nat} (h : i < buf.length) :
    buf.drop i = byteAt buf i :: buf.drop (i + 1) := by
  rw [List.drop_eq_getElem_cons h]
  simp [byteAt, List.getD_eq_getElem?_getD, h]

theorem slice_of_drop {buf a rest : Bytes} {pos : Nat} (h : buf.drop pos = a ++ rest) :
    slice buf pos a.length = a := by
  rw [slice, h, List.take_left]

theorem slice_drop (buf : Bytes) (pos len : Nat) :
    buf.drop pos = slice buf pos len ++ buf.drop (pos + len) := by
  rw [slice, ← List.drop_drop, List.take_append_drop]

theorem length_of_drop {buf a rest : Bytes} {pos : Nat} (h : buf.drop pos = a ++ rest)
    (hne : a ≠ []) : pos + a.length + rest.length = buf.length := by
  have hl := congrArg List.length h
  have ha := List.length_pos_iff.mpr hne
  rw [List.length_drop, List.length_append] at hl
  omega

theorem byteAt_of_drop {buf rest : Bytes} {b : UInt8} {pos : Nat} (h : buf.drop pos = b :: rest) :
    byteAt buf pos = b := by
  have hh := congrArg List.head? h
  rw [List.head?_drop] at hh
  simp [byteAt, List.getD_eq_getElem?_getD, hh]

-- a length line of the wire: a mark, a numeral and CRLF
structure HeaderAt (buf : Bytes) (pos : Nat) (mark : UInt8) (ds rest : Bytes) (v : Int) : Prop where
  drop : buf.drop pos = mark :: ds ++ (crlf ++ rest)
  mark_ne : mark ≠ cr
  numeral : Numeral ds v
  small : v.natAbs ≤ respMaxBulkLen * 2

namespace HeaderAt

variable {buf ds rest : Bytes} {pos : Nat} {mark : UInt8} {v : Int}

theorem findCrlf_eq (h : HeaderAt buf pos mark ds rest v) :
    findCrlf buf pos = some (pos + 1 + ds.length) := by
  have hc : cr ∉ mark :: ds := by
    simp only [List.mem_cons, not_or]
    exact ⟨h.mark_ne.symm, h.numeral.cr_notMem⟩
  rw [findCrlf_header h.drop hc, List.length_cons]
  congr 1
  omega

theorem byteAt_eq (h : HeaderAt buf pos mark ds rest v) : byteAt buf pos = mark :=
  byteAt_of_drop h.drop

theorem parseLl_eq (h : HeaderAt buf pos mark ds rest v) :
    parseLl (slice buf (pos + 1) (pos + 1 + ds.length - (pos + 1))) = some v := by
  have hd : buf.drop (pos + 1) = ds ++ (crlf ++ rest) := by
    rw [← List.drop_drop, h.drop]
    rfl
  rw [Nat.add_sub_cancel_left, slice_of_drop hd]
  exact h.numeral.parseLl_eq h.small

theorem rest_eq (h : HeaderAt buf pos mark ds rest v) :
    buf.drop (pos + 1 + ds.length + 2) = rest := by
  have hd : buf.drop pos = (mark :: ds ++ crlf) ++ rest := by
    rw [List.append_assoc]
    exact h.drop
  have hl : (mark :: ds ++ crlf).length = 1 + ds.length + 2 := by
    simp [crlf]
    omega
  have hr := drop_add_of_drop hd hl
  rwa [← Nat.add_assoc, ← Nat.add_assoc] at hr

end HeaderAt

theorem parseBulk_item {buf body ds rest : Bytes} {pos : Nat} {v : Int} (hn : Numeral ds v)
    (h0 : 0 ≤ v) (hmax : v ≤ (respMaxBulkLen : Int)) (hlen : (body.length : Int) = v)
    (hd : buf.drop pos = 36 :: (ds ++ crlf ++ (body ++ crlf)) ++ rest) :
    parseBulk buf pos = .ok body (pos + (36 :: (ds ++ crlf ++ (body ++ crlf))).length) := by
  have hh : HeaderAt buf pos 36 ds (body ++ (crlf ++ rest)) v :=
    ⟨by simpa using hd, by decide, hn, by omega⟩
  have hbody := hh.rest_eq
  have htail := drop_add_of_drop hbody rfl
  have hsize := length_of_drop hd (by simp)
  have hv : v.toNat = body.length := by omega
  have hcr : byteAt buf (pos + 1 + ds.length + 2 + body.length) = cr := byteAt_of_drop htail
  have hlf : byteAt buf (pos + 1 + ds.length + 2 + body.length + 1) = lf := by
    apply @byteAt_of_drop buf rest
    rw [← List.drop_drop, htail]
    rfl
  have hcount : (36 :: (ds ++ crlf ++ (body ++ crlf))).length = ds.length + body.length + 5 := by
    simp [crlf]
    omega
  rw [hcount] at hsize ⊢
  simp only [parseBulk, hh.findCrlf_eq, hh.byteAt_eq, hh.parseLl_eq, hv]
  rw [if_neg (by simp), if_neg (by omega), if_neg (by omega), if_neg (by simp [hcr, hlf]),
    slice_of_drop hbody]
  congr 1
  omega

theorem parseBulk_grammar {buf body : Bytes} {pos p : Nat} (h : parseBulk buf pos = .ok body p) :
    ∃ ds v, Numeral ds v ∧ 0 ≤ v ∧ v ≤ (respMaxBulkLen : Int) ∧ (body.length : Int) = v ∧
      buf.drop pos = 36 :: (ds ++ crlf ++ (body ++ crlf)) ++ buf.drop p := by
  have hc := parseBulk_cases buf pos
  rw [h] at hc
  cases hc with
  | @next j v hj hd hv h0 h1 hl hcr hlf =>
    have hb := findCrlf_bounds hj
    have hp := header_pos hj (by rw [hd]; decide)
    have hlen : (slice buf (j + 2) v.toNat).length = v.toNat := by
      rw [slice, List.length_take, List.length_drop]
      omega
    refine ⟨_, v, parseLl_some hv, h0, h1, by rw [hlen]; omega, ?_⟩
    have hhead : slice buf pos (j - pos) = 36 :: slice buf (pos + 1) (j - (pos + 1)) := by
      rw [slice, drop_byteAt (by omega), hd, slice, show j - pos = j - (pos + 1) + 1 by omega,
        List.take_succ_cons]
    rw [findCrlf_split hj, hhead, slice_drop buf (j + 2) v.toNat,
      drop_byteAt (show j + 2 + v.toNat < buf.length by omega),
      drop_byteAt (show j + 2 + v.toNat + 1 < buf.length by omega), hcr, hlf]
    simp [crlf]

theorem BulkItems.parseArgs_eq {argv : List Bytes} {items : Bytes} (h : BulkItems argv items)
    {buf rest : Bytes} {pos : Nat} (hd : buf.drop pos = items ++ rest) (acc : List Bytes) :
    parseArgs buf argv.length pos acc = .ok (acc ++ argv) (pos + items.length) := by
  induction h generalizing pos acc with
  | nil => simp [parseArgs]
  | @cons body ds rest' argv v hn h0 hmax hlen h ih =>
    rw [List.append_assoc] at hd
    rw [List.length_cons, parseArgs, parseBulk_item hn h0 hmax hlen hd]
    dsimp only
    rw [ih (drop_add_of_drop hd rfl), List.append_assoc, List.singleton_append,
      List.length_append, Nat.add_assoc]

theorem parseArgs_grammar {buf : Bytes} {n pos p : Nat} {acc a : List Bytes}
    (h : parseArgs buf n pos acc = .ok a p) :
    ∃ argv items, a = acc ++ argv ∧ argv.length = n ∧ BulkItems argv items ∧
      buf.drop pos = items ++ buf.drop p := by
  induction n generalizing pos acc with
  | zero =>
    cases h
    exact ⟨[], [], by simp, rfl, .nil, rfl⟩
  | succ n ih =>
    rw [parseArgs] at h
    split at h
    · simp at h
    · simp at h
    · next body pos' hb =>
      obtain ⟨ds, v, hn, h0, hmax, hlen, hd⟩ := parseBulk_grammar hb
      obtain ⟨argv, items, ha, hl, hi, hd'⟩ := ih h
      refine ⟨body :: argv, _, ?_, by rw [List.length_cons, hl], .cons hn h0 hmax hlen hi, ?_⟩
      · rw [ha, List.append_assoc, List.singleton_append]
      · rw [hd, hd', ← List.append_assoc]

theorem Multibulk.respParse_eq {argv : Command} {b : Bytes} (h : Multibulk argv b) (rest : Bytes) :
    respParse (b ++ rest) = .ok argv b.length := by
  cases h with
  | @intro ds items v hn h1 hmax hlen h =>
    have hargc : respMaxArgc ≤ respMaxBulkLen * 2 := by decide
    have hh : HeaderAt (42 :: (ds ++ crlf) ++ items ++ rest) 0 42 ds (items ++ rest) v :=
      ⟨by simp, by decide, hn, by omega⟩
    have hargs := h.parseArgs_eq hh.rest_eq []
    have hv : v.toNat = argv.length := by omega
    have hf := hh.findCrlf_eq
    have hl := hh.parseLl_eq
    rw [Nat.zero_add] at hf hl hargs
    rw [respParse, if_neg (by simp), if_pos hh.byteAt_eq]
    simp only [parseMultibulk, hf, hl, hv]
    rw [if_neg (by omega), hargs, List.nil_append]
    congr 1
    simp [crlf]
    omega

theorem parseMultibulk_grammar {buf : Bytes} {argv : Command} {n : Nat}
    (h0 : byteAt buf 0 = 42) (h : parseMultibulk buf = .ok argv n) :
    Multibulk argv (buf.take n) := by
  obtain ⟨-, hn, -⟩ := parseMultibulk_ok h h0
  unfold parseMultibulk at h
  split at h
  · split_ifs at h
  · next j hj =>
    have hb := findCrlf_bounds hj
    have hp := header_pos hj (by rw [h0]; decide)
    split at h
    · simp at h
    · next argc hv =>
      split_ifs at h with hr
      push Not at hr
      obtain ⟨args, items, rfl, hl, hi, hd⟩ := parseArgs_grammar h
      have hhead : slice buf 0 (j - 0) = 42 :: slice buf 1 (j - 1) := by
        rw [slice, drop_byteAt (by omega), h0, slice, show j - 0 = j - 1 + 1 by omega,
          List.take_succ_cons]
      have hsplit : buf = (42 :: (slice buf 1 (j - 1) ++ crlf) ++ items) ++ buf.drop n := by
        have hs := findCrlf_split hj
        rw [hhead, hd, List.drop_zero] at hs
        rw [List.append_assoc, List.cons_append, List.append_assoc]
        exact hs
      have htake : buf.take n = 42 :: (slice buf 1 (j - 1) ++ crlf) ++ items := by
        have hcut := List.take_append_drop n buf
        conv_rhs at hcut => rw [hsplit]
        exact List.append_cancel_right hcut
      rw [htake]
      exact .intro (parseLl_some hv) (by omega) (by omega) (by omega) hi

-- the pairs of arguments and lengths for which the grammar reads a command off the front of buf
def multibulkFront (buf : Bytes) : Set (Command × Nat) :=
  {p | p.2 ≤ buf.length ∧ Multibulk p.1 (buf.take p.2)}

theorem mem_multibulkFront_iff {buf : Bytes} (h0 : byteAt buf 0 = 42) (hne : buf.length ≠ 0)
    (argv : Command) (n : Nat) :
    respParse buf = .ok argv n ↔ (argv, n) ∈ multibulkFront buf := by
  constructor
  · intro h
    refine ⟨(respParse_ok h).2.1, ?_⟩
    rw [respParse, if_neg hne, if_pos h0] at h
    exact parseMultibulk_grammar h0 h
  · rintro ⟨hle, hm⟩
    have hp := hm.respParse_eq (buf.drop n)
    rwa [List.take_append_drop, List.length_take_of_le hle] at hp

theorem multibulk_parse_iff_grammar (tail : Bytes) :
    (∀ argv n, respParse (42 :: tail) = .ok argv n ↔
      n ≤ (42 :: tail).length ∧ Multibulk argv ((42 :: tail).take n)) ∧
    (multibulkFront (42 :: tail)).Subsingleton := by
  have hiff := fun argv n =>
    @mem_multibulkFront_iff (42 :: tail) rfl (by simp) argv n
  refine ⟨hiff, ?_⟩
  rintro ⟨argv, n⟩ h ⟨argv', n'⟩ h'
  have he := ((hiff argv n).mpr h).symm.trans ((hiff argv' n').mpr h')
  simp only [Verdict.ok.injEq] at he
  exact Prod.ext he.1 he.2

example : respParse (str "*01\r\n$-0\r\n\r\n") = .ok [[]] 12 := by decide

end RedisServer

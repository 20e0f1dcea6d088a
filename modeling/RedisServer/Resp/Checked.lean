import RedisServer.Lib.Guarded
import RedisServer.Resp.Inline

namespace RedisServer

namespace Checked

open Guarded Tokens

-- resp.c again, with every byte read through a bounds check, every size_t difference and every
-- long long value checked, and every loop bounded in its turns
inductive Status where
  | ok (argv : Command)
  | incomplete
  | error (e : ProtoError)
  deriving DecidableEq, Repr

def longLong (z : Int) : Except Fault Int :=
  within Int64.minValue.toInt Int64.maxValue.toInt z

def findCrlfTurn (buf : Bytes) (i : Nat) : Except Fault (Turn Nat (Option Nat)) :=
  if i + 1 < buf.length then do
    let a ← read buf i
    if a ≠ cr then return .again (i + 1)
    let b ← read buf (i + 1)
    return if b = lf then .leave (some i) else .again (i + 1)
  else .ok (.leave none)

def findCrlf (buf : Bytes) (start : Nat) : Except Fault (Option Nat) :=
  if buf.length ≤ start then .ok none
  else loop (findCrlfTurn buf) (buf.length - start + 1) start

-- the bytes s[0..len) of parse_ll stand at buf[s..s + len)
def parseLlTurn (buf : Bytes) (s len : Nat) (t : Nat × Int) :
    Except Fault (Turn (Nat × Int) (Option Int)) :=
  if t.1 < len then do
    let c ← read buf (s + t.1)
    if c < 48 ∨ 57 < c then return .leave none
    let shifted ← longLong (t.2 * 10)
    let v ← longLong (shifted + ((c.toNat : Int) - 48))
    return if (respMaxBulkLen * 2 : Nat) < v then .leave none else .again (t.1 + 1, v)
  else .ok (.leave (some t.2))

def parseLl (buf : Bytes) (s len : Nat) : Except Fault (Option Int) :=
  if len = 0 then .ok none
  else do
    let c ← read buf s
    if c = 45 then
      if len = 1 then return none
      match ← loop (parseLlTurn buf s len) (len + 1) (1, 0) with
      | none => return none
      | some v => return some (← longLong (-v))
    else loop (parseLlTurn buf s len) (len + 1) (0, 0)

structure ArgState where
  i : Nat
  pos : Nat
  argv : List Bytes

def parseArgsTurn (buf : Bytes) (argc : Nat) (a : ArgState) :
    Except Fault (Turn ArgState (Status × Option Nat)) :=
  if a.i < argc then do
    match ← findCrlf buf a.pos with
    | none =>
      let left ← sub buf.length a.pos
      return .leave (if respMaxInlineLen < left then .error .tooBigBulkCount else .incomplete, none)
    | some hdrEnd =>
      let mark ← read buf a.pos
      if mark ≠ 36 then return .leave (.error .expectedDollar, none)
      let hdrLen ← sub hdrEnd (a.pos + 1)
      match ← parseLl buf (a.pos + 1) hdrLen with
      | none => return .leave (.error .invalidBulkLength, none)
      | some blen =>
        if blen < 0 ∨ (respMaxBulkLen : Int) < blen then
          return .leave (.error .invalidBulkLength, none)
        let pos := hdrEnd + 2
        let blen := blen.toNat
        if buf.length < pos + blen + 2 then return .leave (.incomplete, none)
        if (← read buf (pos + blen)) ≠ cr then return .leave (.error .expectedCrlf, none)
        if (← read buf (pos + blen + 1)) ≠ lf then return .leave (.error .expectedCrlf, none)
        let data ← copy buf pos blen
        return .again ⟨a.i + 1, pos + blen + 2, a.argv ++ [data]⟩
  else .ok (.leave (.ok a.argv, some a.pos))

-- *consumed is an argument and part of the result, since only some paths write it
def parseMultibulk (buf : Bytes) (consumed : Nat) : Except Fault (Status × Nat) := do
  match ← findCrlf buf 0 with
  | none =>
    return (if respMaxInlineLen < buf.length then .error .tooBigMbulkCount else .incomplete, consumed)
  | some lineEnd =>
    let lineLen ← sub lineEnd (0 + 1)
    match ← parseLl buf (0 + 1) lineLen with
    | none => return (.error .invalidMultibulkLength, consumed)
    | some argc =>
      if argc ≤ 0 ∨ (respMaxArgc : Int) < argc then
        return (.error .invalidMultibulkLength, consumed)
      let r ← loop (parseArgsTurn buf argc.toNat) (argc.toNat + 1) ⟨0, lineEnd + 2, []⟩
      return (r.1, r.2.getD consumed)

def tokenTurn (buf : Bytes) (lineLen : Nat) (t : Nat × List Bytes) :
    Except Fault (Turn (Nat × List Bytes) (List Bytes)) :=
  if t.1 < lineLen then do
    let start ← scanWhile buf isspace lineLen t.1
    if lineLen ≤ start then return .leave t.2
    let p ← scanWhile buf (!isspace ·) lineLen start
    let tokLen ← sub p start
    let data ← copy buf start tokLen
    return .again (p, t.2 ++ [data])
  else .ok (.leave t.2)

def stripCr (buf : Bytes) (lineLen : Nat) : Except Fault Nat :=
  if 0 < lineLen then do
    let last ← sub lineLen 1
    let b ← read buf last
    return if b = cr then last else lineLen
  else .ok lineLen

def parseInline (buf : Bytes) (consumed : Nat) : Except Fault (Status × Nat) := do
  let i ← scanWhile buf (· != lf) buf.length 0
  if buf.length ≤ i then
    return (if respMaxInlineLen < buf.length then .error .tooBigInline else .incomplete, consumed)
  let lineLen ← stripCr buf i
  let consumed := i + 1
  let argv ← loop (tokenTurn buf lineLen) (lineLen + 1) (0, [])
  return (.ok argv, consumed)

def respParse (buf : Bytes) : Except Fault (Status × Nat) :=
  if buf.length = 0 then .ok (.incomplete, 0)
  else do
    let first ← read buf 0
    if first = 42 then parseMultibulk buf 0 else parseInline buf 0

example : respParse (str "*1\r\n$4\r\nPING\r\n*") = .ok (.ok [str "PING"], 14) := by decide
example : respParse (str "*\r\n") = .ok (.error .invalidMultibulkLength, 0) := by decide

theorem read_byteAt {buf : Bytes} {i : Nat} (h : i < buf.length) :
    read buf i = .ok (byteAt buf i) :=
  read_eq (by simp [byteAt, List.getD_eq_getElem?_getD, h])

theorem findCrlfFrom_short {l : Bytes} (h : l.length ≤ 1) (i : Nat) : findCrlfFrom l i = none := by
  cases l with
  | nil => rfl
  | cons a l =>
    cases l with
    | nil => rfl
    | cons b l => simp at h

theorem findCrlfTurn_spec (buf : Bytes) (i : Nat) :
    findCrlfTurn buf i = .ok (.leave (findCrlfFrom (buf.drop i) i)) ∨
      findCrlfTurn buf i = .ok (.again (i + 1)) ∧ i + 1 < buf.length ∧
        findCrlfFrom (buf.drop (i + 1)) (i + 1) = findCrlfFrom (buf.drop i) i := by
  unfold findCrlfTurn
  split_ifs with hi
  · rw [read_byteAt (by omega), read_byteAt hi]
    have hdrop : buf.drop i = byteAt buf i :: byteAt buf (i + 1) :: buf.drop (i + 2) := by
      rw [drop_byteAt (by omega), drop_byteAt hi]
    have hnext : buf.drop (i + 1) = byteAt buf (i + 1) :: buf.drop (i + 2) := drop_byteAt hi
    rw [hdrop, hnext, findCrlfFrom]
    by_cases hcr : byteAt buf i = cr
    · by_cases hlf : byteAt buf (i + 1) = lf
      · left
        simp [hcr, hlf]
      · right
        simp [hcr, hlf, hi]
    · right
      simp [hcr, hi]
  · left
    have hshort : (buf.drop i).length ≤ 1 := by
      rw [List.length_drop]
      omega
    rw [findCrlfFrom_short hshort]

theorem findCrlf_eq (buf : Bytes) (start : Nat) :
    findCrlf buf start = .ok (RedisServer.findCrlf buf start) := by
  unfold findCrlf
  split_ifs with hs
  · rw [RedisServer.findCrlf, List.drop_eq_nil_of_le hs]
    rfl
  · refine loop_eq (fun _ => True) (buf.length - ·) (fun i => findCrlfFrom (buf.drop i) i)
      (fun i _ => ?_) trivial (by omega)
    rcases findCrlfTurn_spec buf i with h | ⟨h, hi, hF⟩
    · exact .inl h
    · exact .inr ⟨i + 1, h, trivial, by omega, hF⟩

theorem parseDigits_le {ds : Bytes} {v w : Nat} (h : parseDigits ds v = some w)
    (hv : v ≤ respMaxBulkLen * 2) : w ≤ respMaxBulkLen * 2 := by
  fun_induction parseDigits ds v with
  | case1 v => exact Option.some.inj h ▸ hv
  | case2 => simp at h
  | case3 => simp at h
  | case4 b bs v hb u hu ih => exact ih h (by omega)

theorem longLong_eq {z : Int} (h : z.natAbs ≤ respMaxBulkLen * 20 + 9) : longLong z = .ok z := by
  apply within_eq
  rw [Int64.toInt_minValue, Int64.toInt_maxValue]
  simp only [respMaxBulkLen] at h
  omega

-- the digits that a turn of parse_ll has before it, and the value they add up to
def digitsFrom (buf : Bytes) (s len : Nat) (t : Nat × Int) : Option Int :=
  (parseDigits (slice buf (s + t.1) (len - t.1)) t.2.toNat).map (fun v : Nat => (v : Int))

structure LlInv (len : Nat) (t : Nat × Int) : Prop where
  cursor : t.1 ≤ len
  nonneg : 0 ≤ t.2
  small : t.2 ≤ (respMaxBulkLen * 2 : Nat)

theorem slice_cons {buf : Bytes} {pos n : Nat} (h : pos < buf.length) :
    slice buf pos (n + 1) = byteAt buf pos :: slice buf (pos + 1) n := by
  rw [slice, drop_byteAt h, List.take_succ_cons, slice]

theorem parseLlTurn_spec {buf : Bytes} {s len : Nat} (hlen : s + len ≤ buf.length) {t : Nat × Int}
    (h : LlInv len t) :
    parseLlTurn buf s len t = .ok (.leave (digitsFrom buf s len t)) ∨
      ∃ t', parseLlTurn buf s len t = .ok (.again t') ∧ LlInv len t' ∧ len - t'.1 < len - t.1 ∧
        digitsFrom buf s len t' = digitsFrom buf s len t := by
  obtain ⟨i, v⟩ := t
  obtain ⟨hi, h0, hv⟩ := h
  dsimp only at hi h0 hv
  obtain ⟨n, rfl⟩ := Int.eq_ofNat_of_zero_le h0
  rw [Int.ofNat_le] at hv
  unfold parseLlTurn
  dsimp only
  split_ifs with hlt
  · have hc : s + i < buf.length := by omega
    have hslice : slice buf (s + i) (len - i) =
        byteAt buf (s + i) :: slice buf (s + (i + 1)) (len - (i + 1)) := by
      rw [show len - i = len - (i + 1) + 1 by omega, slice_cons hc, Nat.add_assoc]
    rw [read_byteAt hc, ok_bind]
    by_cases hd : byteAt buf (s + i) < 48 ∨ 57 < byteAt buf (s + i)
    · left
      simp [digitsFrom, hslice, parseDigits, hd]
    · have hdigit : 48 ≤ (byteAt buf (s + i)).toNat ∧ (byteAt buf (s + i)).toNat ≤ 57 := by
        rw [not_or, UInt8.not_lt, UInt8.not_lt, UInt8.le_iff_toNat_le, UInt8.le_iff_toNat_le] at hd
        exact hd
      obtain ⟨w, hw⟩ : ∃ w : Nat, w = n * 10 + ((byteAt buf (s + i)).toNat - 48) := ⟨_, rfl⟩
      have hsum : (n : Int) * 10 + (((byteAt buf (s + i)).toNat : Int) - 48) = w := by omega
      have hF : digitsFrom buf s len (i, n) =
          if respMaxBulkLen * 2 < w then none else digitsFrom buf s len (i + 1, w) := by
        simp only [digitsFrom, hslice, Int.toNat_natCast, parseDigits, if_neg hd, ← hw]
        split_ifs <;> rfl
      rw [if_neg hd, longLong_eq (by omega), ok_bind, hsum, longLong_eq (by omega), ok_bind, hF,
        pure_eq]
      split_ifs with hmax hmax'
      · exact .inl rfl
      · omega
      · omega
      · exact .inr ⟨(i + 1, w), rfl, ⟨hlt, by omega, by omega⟩, by dsimp only; omega, rfl⟩
  · left
    rw [digitsFrom, show len - i = 0 by omega]
    simp [slice, parseDigits]

theorem parseLlLoop_eq {buf : Bytes} {s len i : Nat} (hlen : s + len ≤ buf.length) (hi : i ≤ len) :
    loop (parseLlTurn buf s len) (len + 1) (i, 0) = .ok (digitsFrom buf s len (i, 0)) :=
  loop_eq (LlInv len) (len - ·.1) (digitsFrom buf s len) (fun _ => parseLlTurn_spec hlen)
    ⟨hi, le_refl 0, by simp⟩ (by dsimp only; omega)

theorem parseLl_eq {buf : Bytes} {s len : Nat} (hlen : s + len ≤ buf.length) :
    parseLl buf s len = .ok (RedisServer.parseLl (slice buf s len)) := by
  cases len with
  | zero => rfl
  | succ n =>
    have hs : s < buf.length := by omega
    have hcons := @slice_cons buf s n hs
    rw [parseLl, if_neg (by omega), read_byteAt hs, ok_bind]
    by_cases hneg : byteAt buf s = 45
    · rw [if_pos hneg, hcons, hneg]
      cases n with
      | zero => simp [slice, RedisServer.parseLl]
      | succ n =>
        have hne : slice buf (s + 1) (n + 1) ≠ [] := by
          rw [slice_cons (by omega)]
          simp
        rw [if_neg (by omega), parseLlLoop_eq hlen (by omega), parseLl_negative hne]
        dsimp only [digitsFrom]
        rw [show n + 1 + 1 - 1 = n + 1 by omega, Int.toNat_zero]
        cases hd : parseDigits (slice buf (s + 1) (n + 1)) 0 with
        | none => rfl
        | some v =>
          have hv := parseDigits_le hd (Nat.zero_le _)
          simp [longLong_eq (show (-(v : Int)).natAbs ≤ respMaxBulkLen * 20 + 9 by omega)]
    · have hnat : ∀ l, slice buf s (n + 1) ≠ 45 :: l := by
        intro l hl
        rw [hcons, List.cons.injEq] at hl
        exact hneg hl.1
      rw [if_neg hneg, parseLlLoop_eq hlen (by omega), parseLl_natural (by simp [hcons]) hnat]
      rfl

def Status.of : ParseResult → Status
  | .ok argv _ => .ok argv
  | .incomplete => .incomplete
  | .error e => .error e

def consumedBy : ParseResult → Option Nat
  | .ok _ n => some n
  | _ => none

def ArgState.after (a : ArgState) : Incremental.Verdict Bytes ProtoError →
    Turn ArgState (Status × Option Nat)
  | .ok body pos => .again ⟨a.i + 1, pos, a.argv ++ [body]⟩
  | .incomplete => .leave (.incomplete, none)
  | .error e => .leave (.error e, none)

-- a header that starts with its mark is more than a bare CRLF, so its length minus one is a length
theorem header_checks {buf : Bytes} {pos j : Nat} {mark : UInt8}
    (hj : RedisServer.findCrlf buf pos = some j) (hd : byteAt buf pos = mark) (hm : mark ≠ cr) :
    read buf pos = .ok mark ∧ sub j (pos + 1) = .ok (j - (pos + 1)) ∧
      parseLl buf (pos + 1) (j - (pos + 1)) =
        .ok (RedisServer.parseLl (slice buf (pos + 1) (j - (pos + 1)))) := by
  have hb := findCrlf_bounds hj
  have hp := header_pos hj (by rwa [hd])
  refine ⟨?_, sub_eq hp, parseLl_eq (by omega)⟩
  rw [read_byteAt (by omega), hd]

-- once the body and its CRLF are known to be in the buffer, both bytes behind the body can be read
theorem body_checks {buf : Bytes} {j : Nat} {v : Int} (h0 : 0 ≤ v)
    (h1 : v ≤ (respMaxBulkLen : Int)) (hs : j + 2 + v.toNat + 2 ≤ buf.length) :
    ¬ (v < 0 ∨ (respMaxBulkLen : Int) < v) ∧ ¬ buf.length < j + 2 + v.toNat + 2 ∧
      read buf (j + 2 + v.toNat) = .ok (byteAt buf (j + 2 + v.toNat)) ∧
      read buf (j + 2 + v.toNat + 1) = .ok (byteAt buf (j + 2 + v.toNat + 1)) ∧
      copy buf (j + 2) v.toNat = .ok (slice buf (j + 2) v.toNat) :=
  ⟨by omega, by omega, read_byteAt (by omega), read_byteAt (by omega), copy_eq (by omega)⟩

theorem parseArgsTurn_eq {buf : Bytes} {argc : Nat} {a : ArgState} (hi : a.i < argc)
    (hpos : a.pos ≤ buf.length) :
    parseArgsTurn buf argc a = .ok (a.after (parseBulk buf a.pos)) := by
  rw [parseArgsTurn, if_pos hi, findCrlf_eq, ok_bind]
  have hcase := parseBulk_cases buf a.pos
  generalize parseBulk buf a.pos = v at hcase
  cases hcase with
  | tooBig hnone hlong => simp [hnone, sub_eq hpos, hlong, ArgState.after]
  | noHeader hnone hshort =>
    simp [hnone, sub_eq hpos, show ¬ respMaxInlineLen < buf.length - a.pos by omega,
      ArgState.after]
  | notDollar hj hd =>
    have hb := findCrlf_bounds hj
    rw [hj]
    simp [read_byteAt (show a.pos < buf.length by omega), hd, ArgState.after]
  | @badLength j hj hd hv =>
    obtain ⟨hread, hsub, hl⟩ := header_checks hj hd (by decide)
    rw [hj]
    cases hnum : RedisServer.parseLl (slice buf (a.pos + 1) (j - (a.pos + 1))) with
    | none => simp [hread, hsub, hl, hnum, ArgState.after]
    | some v => simp [hread, hsub, hl, hnum, hv v hnum, ArgState.after]
  | @shortBody j v hj hd hv h0 h1 hs =>
    obtain ⟨hread, hsub, hl⟩ := header_checks hj hd (by decide)
    have hrange : ¬ (v < 0 ∨ (respMaxBulkLen : Int) < v) := by omega
    rw [hj]
    simp [hread, hsub, hl, hv, hrange, hs, ArgState.after]
  | @noTail j v hj hd hv h0 h1 hs ht =>
    obtain ⟨hread, hsub, hl⟩ := header_checks hj hd (by decide)
    obtain ⟨hrange, hroom, hr1, hr2, -⟩ := body_checks h0 h1 hs
    rw [hj]
    by_cases hcr : byteAt buf (j + 2 + v.toNat) = cr
    · have hlf := ht.resolve_left (not_not.mpr hcr)
      simp [hread, hsub, hl, hv, hrange, hroom, hr1, hr2, hcr, hlf, ArgState.after]
    · simp [hread, hsub, hl, hv, hrange, hroom, hr1, hcr, ArgState.after]
  | @next j v hj hd hv h0 h1 hs hcr hlf =>
    obtain ⟨hread, hsub, hl⟩ := header_checks hj hd (by decide)
    obtain ⟨hrange, hroom, hr1, hr2, hcopy⟩ := body_checks h0 h1 hs
    rw [hj]
    simp [hread, hsub, hl, hv, hrange, hroom, hr1, hr2, hcr, hlf, hcopy, ArgState.after]

theorem parseArgsLoop_eq {buf : Bytes} {argc pos : Nat} (hpos : pos ≤ buf.length) :
    loop (parseArgsTurn buf argc) (argc + 1) ⟨0, pos, []⟩ =
      .ok (Status.of (parseArgs buf argc pos []), consumedBy (parseArgs buf argc pos [])) := by
  refine loop_eq (fun a : ArgState => a.i ≤ argc ∧ a.pos ≤ buf.length) (fun a => argc - a.i)
    (fun a => (Status.of (parseArgs buf (argc - a.i) a.pos a.argv),
      consumedBy (parseArgs buf (argc - a.i) a.pos a.argv)))
    ?_ ⟨Nat.zero_le _, hpos⟩ (by dsimp only; omega)
  rintro a ⟨hi, hp⟩
  rcases Nat.lt_or_eq_of_le hi with hlt | heq
  · rw [parseArgsTurn_eq hlt hp, show argc - a.i = argc - (a.i + 1) + 1 by omega, parseArgs]
    cases hb : parseBulk buf a.pos with
    | incomplete => exact .inl rfl
    | error e => exact .inl rfl
    | ok body pos' =>
      exact .inr ⟨_, rfl, ⟨hlt, (parseBulk_ok hb).2.1⟩, by dsimp only; omega, rfl⟩
  · left
    rw [parseArgsTurn, if_neg (by omega), heq, Nat.sub_self]
    rfl

theorem consumedBy_getD (r : ParseResult) : (consumedBy r).getD 0 = bytesConsumed r := by
  cases r <;> rfl

theorem parseMultibulk_eq {buf : Bytes} (h0 : byteAt buf 0 = 42) :
    parseMultibulk buf 0 = .ok (Status.of (RedisServer.parseMultibulk buf),
      bytesConsumed (RedisServer.parseMultibulk buf)) := by
  rw [parseMultibulk, findCrlf_eq, ok_bind, RedisServer.parseMultibulk]
  cases hj : RedisServer.findCrlf buf 0 with
  | none =>
    dsimp only
    split_ifs <;> rfl
  | some j =>
    obtain ⟨-, hsub, hl⟩ := header_checks hj h0 (by decide)
    rw [Nat.zero_add] at hsub hl
    dsimp only
    rw [Nat.zero_add, hsub, ok_bind, hl, ok_bind]
    cases RedisServer.parseLl (slice buf 1 (j - 1)) with
    | none => rfl
    | some argc =>
      dsimp only
      split_ifs with hr
      · rfl
      · have hb := findCrlf_bounds hj
        rw [parseArgsLoop_eq hb.2, ok_bind, consumedBy_getD]
        rfl

theorem stripCr_eq {buf : Bytes} (h : lineEndOf buf < buf.length) :
    stripCr buf (lineEndOf buf) = .ok (lineLenOf buf) := by
  unfold stripCr lineLenOf
  by_cases hpos : 0 < lineEndOf buf
  · rw [if_pos hpos, sub_eq hpos, ok_bind, read_byteAt (by omega), ok_bind]
    by_cases hcr : byteAt buf (lineEndOf buf - 1) = cr <;> simp [hpos, hcr]
  · simp [hpos]

-- one turn of the tokenizer skips white space and copies a token out, or finds none
theorem tokenTurn_spec {buf : Bytes} {lineLen : Nat} (hlen : lineLen ≤ buf.length)
    {t : Nat × List Bytes} (ht : t.1 ≤ lineLen) :
    tokenTurn buf lineLen t = .ok (.leave (t.2 ++ tokenize ((buf.take lineLen).drop t.1))) ∨
      ∃ t', tokenTurn buf lineLen t = .ok (.again t') ∧ t'.1 ≤ lineLen ∧
        lineLen - t'.1 < lineLen - t.1 ∧
        t'.2 ++ tokenize ((buf.take lineLen).drop t'.1) =
          t.2 ++ tokenize ((buf.take lineLen).drop t.1) := by
  obtain ⟨p, argv⟩ := t
  dsimp only at ht ⊢
  have hlength : ((buf.take lineLen).drop p).length = lineLen - p := by
    rw [List.length_drop, List.length_take_of_le hlen]
  have hskip := scanWhile_eq isspace hlen ht
  obtain ⟨ts, hts⟩ := splits_exists isspace ((buf.take lineLen).drop p)
  rw [tokenize_of_splits hts]
  generalize hline : (buf.take lineLen).drop p = line at hts hlength hskip
  unfold tokenTurn
  split_ifs with hlt
  · cases hts with
    | blank hws =>
      left
      rw [List.takeWhile_eq_self_iff.mpr hws, hlength] at hskip
      rw [hskip, ok_bind, if_pos (by omega), List.append_nil, pure_eq]
    | @token ws tok rest ts hws hne htok hstop hrest =>
      right
      have hpos := List.length_pos_iff.mpr hne
      rw [List.length_append, List.length_append] at hlength
      rw [takeWhile_blank hne htok hws] at hskip
      have htoken := drop_add_of_drop hline rfl
      have hscan := scanWhile_eq (!isspace ·) hlen (show p + ws.length ≤ lineLen by omega)
      rw [htoken, takeWhile_token htok hstop] at hscan
      have htext := congrArg (List.take tok.length) htoken
      rw [List.take_left, List.drop_take, List.take_take, min_eq_left (by omega)] at htext
      refine ⟨(p + ws.length + tok.length, argv ++ [tok]), ?_, ?_, ?_, ?_⟩
      · rw [hskip, ok_bind, if_neg (by omega), hscan, ok_bind, sub_eq (by omega), ok_bind,
          Nat.add_sub_cancel_left, copy_eq (by omega), ok_bind, htext, pure_eq]
      · dsimp only
        omega
      · dsimp only
        omega
      · dsimp only
        rw [drop_add_of_drop htoken rfl, tokenize_of_splits hrest, List.append_assoc,
          List.singleton_append]
  · left
    have hnil : line = [] := List.length_eq_zero_iff.mp (by omega)
    have htsnil := tokenize_of_splits hts
    rw [hnil] at htsnil
    rw [← htsnil, tokenize, List.length_nil, tokenizeFuel, List.append_nil]

theorem tokenLoop_eq {buf : Bytes} {lineLen : Nat} (hlen : lineLen ≤ buf.length) :
    loop (tokenTurn buf lineLen) (lineLen + 1) (0, []) = .ok (tokenize (buf.take lineLen)) :=
  loop_eq (fun t : Nat × List Bytes => t.1 ≤ lineLen) (fun t => lineLen - t.1)
    (fun t => t.2 ++ tokenize ((buf.take lineLen).drop t.1)) (fun _ => tokenTurn_spec hlen)
    (Nat.zero_le lineLen) (Nat.lt_succ_self lineLen)

theorem scanLine_eq (buf : Bytes) :
    scanWhile buf (· != lf) buf.length 0 = .ok (lineEndOf buf) := by
  rw [scanWhile_eq _ (le_refl _) (Nat.zero_le _), List.take_length, List.drop_zero, Nat.zero_add]
  rfl

theorem parseInline_eq (buf : Bytes) :
    parseInline buf 0 = .ok (Status.of (RedisServer.parseInline buf),
      bytesConsumed (RedisServer.parseInline buf)) := by
  rw [parseInline, scanLine_eq, ok_bind, RedisServer.parseInline]
  split_ifs with hlong hlimit
  · rfl
  · rfl
  · have hline := lineLenOf_le buf
    rw [stripCr_eq (by omega), ok_bind]
    dsimp only
    rw [tokenLoop_eq (by omega), ok_bind]
    rfl

theorem respParse_eq (buf : Bytes) :
    respParse buf = .ok (Status.of (RedisServer.respParse buf),
      bytesConsumed (RedisServer.respParse buf)) := by
  unfold respParse RedisServer.respParse
  split_ifs with hn h0
  · rfl
  · rw [read_byteAt (by omega), ok_bind, if_pos h0, parseMultibulk_eq h0]
  · rw [read_byteAt (by omega), ok_bind, if_neg h0, parseInline_eq]

end Checked

end RedisServer

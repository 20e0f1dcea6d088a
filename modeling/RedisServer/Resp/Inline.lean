import RedisServer.Lib.Tokens
import RedisServer.Resp.RoundTrip

namespace RedisServer

open Tokens

theorem tokenizeFuel_of_splits {line : Bytes} {ts : List Bytes} (h : Splits isspace line ts)
    {fuel : Nat} (hfuel : line.length ≤ fuel) : tokenizeFuel fuel line = ts := by
  induction h generalizing fuel with
  | blank hws =>
    cases fuel with
    | zero => rfl
    | succ fuel => rw [tokenizeFuel, List.dropWhile_eq_nil_iff.mpr hws, if_pos rfl]
  | @token ws tok rest ts hws hne htok hstop h ih =>
    have hlen := List.length_pos_iff.mpr hne
    rw [List.length_append, List.length_append] at hfuel
    obtain ⟨n, rfl⟩ : ∃ n, fuel = n + 1 := ⟨fuel - 1, by omega⟩
    rw [tokenizeFuel, dropWhile_blank hne htok hws, if_neg (by simp [hne]),
      takeWhile_token htok hstop, dropWhile_token htok hstop, ih (by omega)]

theorem tokenize_of_splits {line : Bytes} {ts : List Bytes} (h : Splits isspace line ts) :
    tokenize line = ts := tokenizeFuel_of_splits h (le_refl _)

-- a CR before the newline is white space itself, so taking it off changes no token
theorem tokenize_append_cr (line : Bytes) : tokenize (line ++ [cr]) = tokenize line := by
  obtain ⟨ts, h⟩ := splits_exists isspace line
  have hcr : isspace cr = true := by decide
  rw [tokenize_of_splits h, tokenize_of_splits (h.append_sep hcr)]

theorem lineEndOf_append_lf {line : Bytes} (h : lf ∉ line) (rest : Bytes) :
    lineEndOf (line ++ lf :: rest) = line.length := by
  have hother : ∀ b ∈ line, (b != lf) = true := by
    intro b hb
    rw [bne_iff_ne]
    rintro rfl
    exact h hb
  rw [lineEndOf, takeWhile_append_stop hother (by simp)]

theorem tokenize_lineLenOf {line : Bytes} (h : lf ∉ line) (rest : Bytes) :
    tokenize ((line ++ lf :: rest).take (lineLenOf (line ++ lf :: rest))) = tokenize line := by
  rw [lineLenOf, lineEndOf_append_lf h]
  split_ifs with hc
  · obtain ⟨hpos, hcr⟩ := hc
    obtain ⟨l, b, rfl⟩ := List.eq_nil_or_concat' line |>.resolve_left (by
      rintro rfl
      simp at hpos)
    have hb : b = cr := by simpa [byteAt] using hcr
    subst hb
    rw [List.length_append, List.length_singleton, Nat.add_sub_cancel, List.append_assoc,
      List.take_left, tokenize_append_cr]
  · rw [List.take_left]

theorem respParse_line {line : Bytes} (h : lf ∉ line) (rest : Bytes)
    (h0 : byteAt (line ++ lf :: rest) 0 ≠ 42) :
    respParse (line ++ lf :: rest) = .ok (tokenize line) (line.length + 1) := by
  have hlen : (line ++ lf :: rest).length = line.length + rest.length + 1 := by
    rw [List.length_append, List.length_cons]
    omega
  rw [respParse, if_neg (by omega), if_neg h0, parseInline, tokenize_lineLenOf h,
    lineEndOf_append_lf h, if_neg (by omega)]

theorem line_of_mem {buf : Bytes} (h : lf ∈ buf) :
    lf ∉ buf.take (buf.idxOf lf) ∧
      buf = buf.take (buf.idxOf lf) ++ lf :: buf.drop (buf.idxOf lf + 1) := by
  induction buf with
  | nil => simp at h
  | cons b buf ih =>
    by_cases hb : b = lf
    · subst hb
      simp
    · obtain ⟨hline, hbuf⟩ := ih ((List.mem_cons.mp h).resolve_left (Ne.symm hb))
      rw [List.idxOf_cons_ne buf hb, List.take_succ_cons, List.drop_succ_cons, List.cons_append,
        ← hbuf]
      exact ⟨by simp [Ne.symm hb, hline], rfl⟩

-- the arguments of a command with non-empty runs of white space other than the newline between
inductive Joined : Command → Bytes → Prop
  | last {a : Bytes} : Joined [a] a
  | cons {a gap rest : Bytes} {argv : Command} (hne : gap ≠ [])
    (hgap : ∀ b ∈ gap, isspace b = true) (hlf : lf ∉ gap) (h : Joined argv rest) :
    Joined (a :: argv) (a ++ (gap ++ rest))

def IsWord (a : Bytes) : Prop := a ≠ [] ∧ ∀ b ∈ a, isspace b = false

instance (a : Bytes) : Decidable (IsWord a) :=
  decidable_of_iff (a ≠ [] ∧ a.all (fun b => !isspace b) = true) (by simp [IsWord])

theorem Joined.splits {argv : Command} {line : Bytes} (h : Joined argv line)
    (hw : ∀ a ∈ argv, IsWord a) : Splits isspace line argv := by
  induction h with
  | @last a =>
    obtain ⟨hne, ha⟩ := hw a (by simp)
    have hs := @Splits.token _ isspace [] a [] [] (by simp) hne ha (by simp) (.blank (by simp))
    simpa using hs
  | @cons a gap rest argv hne hgap hlf h ih =>
    obtain ⟨hane, ha⟩ := hw a (by simp)
    have htail := (ih fun x hx => hw x (by simp [hx])).sep_append hgap
    refine @Splits.token _ isspace [] a (gap ++ rest) argv (by simp) hane ha ?_ htail
    intro b hb
    rw [List.head?_append_of_ne_nil _ hne] at hb
    exact hgap b (List.mem_of_mem_head? hb)

theorem IsWord.lf_notMem {a : Bytes} (h : IsWord a) : lf ∉ a := by
  intro hm
  have hs := h.2 lf hm
  exact absurd hs (by decide)

theorem Joined.lf_notMem {argv : Command} {line : Bytes} (h : Joined argv line)
    (hw : ∀ a ∈ argv, IsWord a) : lf ∉ line := by
  induction h with
  | last => exact (hw _ (by simp)).lf_notMem
  | cons hne hgap hlf h ih =>
    simp only [List.mem_append, not_or]
    exact ⟨(hw _ (by simp)).lf_notMem, hlf, ih fun x hx => hw x (by simp [hx])⟩

theorem Joined.byteAt_zero {argv : Command} {line : Bytes} (h : Joined argv line)
    (hw : ∀ a ∈ argv, IsWord a) (rest : Bytes) :
    byteAt (line ++ rest) 0 = byteAt (argv.headD []) 0 := by
  cases h with
  | last =>
    obtain ⟨b, l, rfl⟩ := List.exists_cons_of_ne_nil (hw line (by simp)).1
    rfl
  | @cons a gap rest' argv hne hgap hlf h =>
    obtain ⟨b, l, rfl⟩ := List.exists_cons_of_ne_nil (hw a (by simp)).1
    rfl

theorem Joined.respParse_eq {argv : Command} {line : Bytes} (h : Joined argv line)
    (hw : ∀ a ∈ argv, IsWord a) (h0 : byteAt (argv.headD []) 0 ≠ 42) {eol : Bytes}
    (heol : eol = [lf] ∨ eol = crlf) :
    respParse (line ++ eol) = .ok argv (line ++ eol).length := by
  have htok := tokenize_of_splits (h.splits hw)
  have hlf := h.lf_notMem hw
  have hfirst : byteAt (line ++ eol) 0 ≠ 42 := by rwa [h.byteAt_zero hw]
  rcases heol with rfl | rfl
  · rw [respParse_line hlf [] hfirst, htok, List.length_append, List.length_singleton]
  · have hcr : lf ∉ line ++ [cr] := by
      simp only [List.mem_append, List.mem_singleton, not_or]
      exact ⟨hlf, by decide⟩
    have hsplit : line ++ crlf = line ++ [cr] ++ lf :: [] := by
      rw [List.append_assoc]
      rfl
    rw [hsplit] at hfirst ⊢
    rw [respParse_line hcr [] hfirst, tokenize_append_cr, htok]
    simp

theorem respParse_inline {buf : Bytes} (h0 : byteAt buf 0 ≠ 42) (hlf : lf ∈ buf) (rest : Bytes) :
    respParse (buf.take (buf.idxOf lf + 1) ++ rest) =
      .ok (tokenize (buf.take (buf.idxOf lf))) (buf.idxOf lf + 1) := by
  obtain ⟨hline, hbuf⟩ := line_of_mem hlf
  have hidx : buf.idxOf lf < buf.length := List.idxOf_lt_length_of_mem hlf
  have hlen : (buf.take (buf.idxOf lf)).length = buf.idxOf lf := List.length_take_of_le hidx.le
  have htake : buf.take (buf.idxOf lf + 1) = buf.take (buf.idxOf lf) ++ [lf] := by
    rw [List.take_add_one, List.getElem?_idxOf hlf]
    rfl
  have hfirst : byteAt (buf.take (buf.idxOf lf) ++ lf :: rest) 0 ≠ 42 := by
    have hsame : byteAt (buf.take (buf.idxOf lf) ++ lf :: rest) 0 =
        byteAt (buf.take (buf.idxOf lf) ++ lf :: buf.drop (buf.idxOf lf + 1)) 0 := by
      cases buf.take (buf.idxOf lf) <;> rfl
    rwa [hsame, ← hbuf]
  rw [htake, List.append_assoc, List.singleton_append, respParse_line hline rest hfirst, hlen]

theorem inline_splits_one_line :
    (∀ buf : Bytes, byteAt buf 0 ≠ 42 → lf ∈ buf →
      ∃ spans argv, ListsRuns (At (fun b => !isspace b) (buf.take (buf.idxOf lf))) spans ∧
        argv = spans.map (text (buf.take (buf.idxOf lf))) ∧ [] ∉ argv ∧
        respParse buf = .ok argv (buf.idxOf lf + 1) ∧
        ∀ rest, respParse (buf.take (buf.idxOf lf + 1) ++ rest) = respParse buf) ∧
    ∀ (argv : Command) (line eol : Bytes), Encodable argv → (∀ a ∈ argv, IsWord a) →
      byteAt (argv.headD []) 0 ≠ 42 → Joined argv line → (eol = [lf] ∨ eol = crlf) →
      respParse (line ++ eol) = .ok argv (line ++ eol).length ∧
        respParse (respEncode argv) = .ok argv (respEncode argv).length := by
  constructor
  · intro buf h0 hlf
    obtain ⟨ts, hts⟩ := splits_exists isspace (buf.take (buf.idxOf lf))
    obtain ⟨spans, hspans, rfl⟩ := hts.runs
    have hparse := respParse_inline h0 hlf
    rw [tokenize_of_splits hts] at hparse
    have hbuf := hparse (buf.drop (buf.idxOf lf + 1))
    rw [List.take_append_drop] at hbuf
    exact ⟨spans, _, hspans, rfl, fun hm => hts.ne_nil_of_mem hm rfl, hbuf,
      fun rest => by rw [hparse, hbuf]⟩
  · intro argv line eol henc hw h0 hj heol
    have hwire := henc.multibulk.respParse_eq []
    rw [List.append_nil] at hwire
    exact ⟨hj.respParse_eq hw h0 heol, hwire⟩

theorem inline_splits_one_line_get :
    (∀ rest, respParse (str " GET\t k \r\n" ++ rest) = .ok [str "GET", str "k"] 10) ∧
      respParse (str "GET\t k" ++ crlf) = .ok [str "GET", str "k"] 8 ∧
      respParse (respEncode [str "GET", str "k"]) = .ok [str "GET", str "k"] 20 := by
  obtain ⟨spans, argv, -, -, -, -, hrest⟩ :=
    inline_splits_one_line.1 (str " GET\t k \r\n") (by decide) (by decide)
  have hget : respParse (str " GET\t k \r\n") = .ok [str "GET", str "k"] 10 := by decide
  have hj : Joined [str "GET", str "k"] (str "GET" ++ (str "\t " ++ str "k")) :=
    .cons (by decide) (List.all_eq_true.mp (by decide)) (by decide) .last
  have hw : ∀ a ∈ [str "GET", str "k"], IsWord a := by decide
  refine ⟨fun rest => (hrest rest).trans hget, ?_⟩
  exact inline_splits_one_line.2 _ _ crlf ⟨by decide, by decide, by decide⟩ hw (by decide) hj
    (.inr rfl)

end RedisServer

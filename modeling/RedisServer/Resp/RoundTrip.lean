import RedisServer.Resp.Grammar

namespace RedisServer

def respEncode (argv : Command) : Bytes :=
  respReplyArrayHeader argv.length ++ (argv.map respReplyBulkString).flatten

structure Encodable (argv : Command) : Prop where
  ne_nil : argv ≠ []
  argc_le : argv.length ≤ respMaxArgc
  bulk_le : ∀ a ∈ argv, a.length ≤ respMaxBulkLen

-- *bytes_consumed when resp_parse returns: zeroed on entry, written again only on the way to OK
def bytesConsumed : ParseResult → Nat
  | .ok _ n => n
  | _ => 0

theorem numeral_ofNat (n : Nat) : Numeral (Decimal.ofNat n) n := by
  have h := Numeral.natural (isDecimal_ofNat n)
  rwa [Decimal.value_ofNat] at h

theorem bulkItems_encode {argv : List Bytes} (h : ∀ a ∈ argv, a.length ≤ respMaxBulkLen) :
    BulkItems argv (argv.map respReplyBulkString).flatten := by
  induction argv with
  | nil => exact .nil
  | cons a argv ih =>
    have ha := h a (by simp)
    have hi := BulkItems.cons (numeral_ofNat a.length) (by omega) (by omega) rfl
      (ih (fun x hx => h x (by simp [hx])))
    simpa [respReplyBulkString, formatZu] using hi

theorem Encodable.multibulk {argv : Command} (h : Encodable argv) :
    Multibulk argv (respEncode argv) := by
  have hpos := List.length_pos_iff.mpr h.ne_nil
  have hmax := h.argc_le
  have hm := Multibulk.intro (numeral_ofNat argv.length) (by omega) (by omega) rfl
    (bulkItems_encode h.bulk_le)
  simpa [respEncode, respReplyArrayHeader, formatZu] using hm

theorem length_formatZu_le {n : Nat} (h : n ≤ respMaxBulkLen * 2) : (formatZu n).length ≤ 10 :=
  Decimal.length_ofNat_le (by omega) (h.trans_lt (by decide))

theorem bulkHeadersFit_encode {argv : List Bytes} (h : ∀ a ∈ argv, a.length ≤ respMaxBulkLen)
    {buf rest : Bytes} {pos : Nat}
    (hd : buf.drop pos = (argv.map respReplyBulkString).flatten ++ rest) :
    bulkHeadersFit buf argv.length pos := by
  induction argv generalizing pos with
  | nil => trivial
  | cons a argv ih =>
    have ha := h a (by simp)
    have hh : HeaderAt buf pos 36 (formatZu a.length)
        (a ++ (crlf ++ ((argv.map respReplyBulkString).flatten ++ rest))) a.length :=
      ⟨by simpa [respReplyBulkString] using hd, by decide, numeral_ofNat _, by omega⟩
    have hlen := length_formatZu_le (show a.length ≤ respMaxBulkLen * 2 by omega)
    have hnext := drop_add_of_drop (drop_add_of_drop hh.rest_eq rfl) (show crlf.length = 2 from rfl)
    simp only [List.length_cons, bulkHeadersFit, hh.findCrlf_eq, hh.parseLl_eq, Int.toNat_natCast]
    refine ⟨?_, ih (fun x hx => h x (by simp [hx])) hnext⟩
    simp only [respMaxInlineLen]
    omega

theorem Encodable.headersFit {argv : Command} (h : Encodable argv) :
    headersFit (respEncode argv) := by
  have hmax : argv.length ≤ respMaxBulkLen * 2 := h.argc_le.trans (by decide)
  have hh : HeaderAt (respEncode argv) 0 42 (formatZu argv.length)
      (argv.map respReplyBulkString).flatten argv.length :=
    ⟨by simp [respEncode, respReplyArrayHeader], by decide, numeral_ofNat _, by omega⟩
  have hlen := length_formatZu_le hmax
  have hf := hh.findCrlf_eq
  have hl := hh.parseLl_eq
  have hrest := hh.rest_eq
  rw [Nat.zero_add] at hf hl hrest
  simp only [RedisServer.headersFit, hh.byteAt_eq, if_true, hf, hl, Int.toNat_natCast]
  refine ⟨?_, @bulkHeadersFit_encode argv h.bulk_le _ [] _ (by rw [hrest, List.append_nil])⟩
  simp only [respMaxInlineLen]
  omega

theorem Encodable.respParse_take {argv : Command} (h : Encodable argv) {k : Nat}
    (hk : k < (respEncode argv).length) : respParse ((respEncode argv).take k) = .incomplete := by
  have hok := h.multibulk.respParse_eq []
  rw [List.append_nil] at hok
  have h0 : byteAt (respEncode argv) 0 = 42 := rfl
  have hm : parseMultibulk (respEncode argv) = .ok argv (respEncode argv).length := by
    rwa [respParse, if_neg (by omega), if_pos h0] at hok
  rcases Nat.eq_zero_or_pos k with rfl | hpos
  · rfl
  · rw [RedisServer.respParse_take hpos hk.le, if_pos h0]
    exact (truncated_multibulk_iff h0 hm).mpr h.headersFit k hpos hk

theorem drain_encode {cmds : List Command} (h : ∀ argv ∈ cmds, Encodable argv) :
    respParser.drain (cmds.map respEncode).flatten = ⟨cmds, [], none⟩ := by
  induction cmds with
  | nil => exact Incremental.Parser.drain_of_incomplete respParser.parse_nil
  | cons argv cmds ih =>
    have hok : respParser.parse (respEncode argv ++ (cmds.map respEncode).flatten) =
        .ok argv (respEncode argv).length :=
      (h argv (by simp)).multibulk.respParse_eq _
    rw [List.map_cons, List.flatten_cons, Incremental.Parser.drain_of_ok hok, List.drop_left,
      ih (fun a ha => h a (by simp [ha]))]

theorem wire_round_trip_streams :
    (∀ argv, Encodable argv →
      (∀ rest, respParse (respEncode argv ++ rest) = .ok argv (respEncode argv).length) ∧
      ∀ k, k < (respEncode argv).length →
        respParse ((respEncode argv).take k) = .incomplete ∧
          bytesConsumed (respParse ((respEncode argv).take k)) = 0) ∧
    ∀ cmds : List Command, (∀ argv ∈ cmds, Encodable argv) →
      respParser.drain (cmds.map respEncode).flatten = ⟨cmds, [], none⟩ := by
  refine ⟨fun argv h => ⟨h.multibulk.respParse_eq, fun k hk => ?_⟩, fun cmds => drain_encode⟩
  rw [h.respParse_take hk]
  exact ⟨rfl, rfl⟩

theorem wire_round_trip_streams_framing_bytes :
    Encodable [str "SET", str "*1\r\n", []] ∧
      respParse (respEncode [str "SET", str "*1\r\n", []] ++ str "$") =
        .ok [str "SET", str "*1\r\n", []] 29 ∧
      respParse ((respEncode [str "SET", str "*1\r\n", []]).take 20) = .incomplete := by
  have h : Encodable [str "SET", str "*1\r\n", []] := ⟨by simp, by decide, by decide⟩
  obtain ⟨hrest, htake⟩ := wire_round_trip_streams.1 _ h
  exact ⟨h, hrest (str "$"), (htake 20 (by decide)).1⟩

end RedisServer

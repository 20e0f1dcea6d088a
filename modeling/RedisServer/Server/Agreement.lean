import RedisServer.Server.Chunking
import RedisServer.Server.Threaded

namespace RedisServer

open Incremental

variable {hash : Bytes → UInt64} {envs : Nat → Env}

abbrev Progress := Drained UInt8 Command ProtoError

def served (hash : Bytes → UInt64) (envs : Nat → Env) (st : CmdState) (d : Progress) : Bytes :=
  (execFrom hash envs 0 st d.cmds).2.flatten ++ errorReply d.err

def connWriteOut (s : Session) : Session :=
  connOutReset { s with written := s.written ++ s.conn.out.drop s.conn.outSent }

theorem connFlushOutput_all {s : Session} (h : s.conn.outSent ≤ s.conn.out.length) :
    connFlushOutput [.all] s = (connWriteOut s, .flushed) := by
  by_cases hlt : s.conn.outSent < s.conn.out.length
  · have htake : slice s.conn.out s.conn.outSent (s.conn.out.length - s.conn.outSent) =
        s.conn.out.drop s.conn.outSent := List.take_of_length_le (List.length_drop ▸ le_rfl)
    have hdone : ¬ (connSend s (s.conn.out.length - s.conn.outSent)).conn.outSent <
        (connSend s (s.conn.out.length - s.conn.outSent)).conn.out.length := by
      simp only [connSend]
      omega
    rw [connFlushOutput, if_pos hlt]
    change connFlushOutput [] (connSend s (s.conn.out.length - s.conn.outSent)) = _
    rw [connFlushOutput, if_neg hdone, connSend, htake]
    rfl
  · rw [connFlushOutput, if_neg hlt, connWriteOut, List.drop_of_length_le (by omega),
      List.append_nil]

structure Session.Idle (hash : Bytes → UInt64) (envs : Nat → Env) (st : CmdState) (s : Session)
    (d : Progress) : Prop extends Session.Tracks hash envs st s d where
  flushed : s.conn.out = []
  closed : s.closed = d.err.isSome

theorem Session.Tracks.service {st : CmdState} {s : Session} {d : Progress}
    (h : s.Tracks hash envs st d) (hc : s.closed = false) :
    (connServiceOutput [.all] s).Idle hash envs st d := by
  have ht : (connWriteOut s).Tracks hash envs st d :=
    ⟨h.dispatched, h.parseError, h.closing, h.state, h.rest, le_rfl,
      by simpa [connWriteOut, connOutReset] using h.replied⟩
  have hflushed : (connWriteOut s).conn.out = [] := rfl
  have hopen : (connWriteOut s).closed = false := hc
  rw [connServiceOutput, connFlushOutput_all h.sent_le]
  generalize connWriteOut s = x at ht hflushed hopen
  by_cases hd : d.err = none
  · simp only [ht.closing, hd, Option.isSome_none, Bool.false_eq_true, if_false]
    exact ⟨⟨ht.dispatched, ht.parseError, ht.closing, ht.state, ht.rest, ht.sent_le, ht.replied⟩,
      hflushed, by rw [hd]; exact hopen⟩
  · have hsome := Option.isSome_iff_ne_none.mpr hd
    simp only [ht.closing, hsome, if_true]
    exact ⟨⟨ht.dispatched, ht.parseError, ht.closing, ht.state, ht.rest, ht.sent_le, ht.replied⟩,
      hflushed, hsome.symm⟩

theorem Session.Tracks.written {st : CmdState} {s : Session} {d : Progress}
    (h : s.Tracks hash envs st d) (hf : s.conn.out = []) : s.written = served hash envs st d := by
  have hr := h.replied
  rwa [hf, List.drop_nil, List.append_nil] at hr

structure Session.Outcome (hash : Bytes → UInt64) (envs : Nat → Env) (st : CmdState) (s : Session)
    (d : Progress) : Prop where
  dispatched : s.dispatched = d.cmds
  written : s.written = served hash envs st d
  closed : s.closed = true

def readsOf (chunks : List Bytes) : List ReadResult := chunks.map .data ++ [.eof]

-- the inputs at whose ends server.c parses: it goes on reading after a full chunk
def epollFeeds : Bytes → List Bytes → List Bytes
  | _, [] => []
  | acc, x :: xs =>
    if x.length < readChunk then (acc ++ x) :: epollFeeds [] xs else epollFeeds (acc ++ x) xs

def afterRead (hash : Bytes → UInt64) (envs : Nat → Env) (fuel : Nat)
    (r : Session × List ReadResult) : Session :=
  if r.1.closed then r.1
  else epollServe hash envs [.all] fuel r.2
    (connServiceOutput [.all] (if r.1.conn.closing then r.1 else connProcessInput hash envs r.1))

theorem epollServe_closed {s : Session} (h : s.closed = true) (fuel : Nat) (rs : List ReadResult) :
    epollServe hash envs [.all] fuel rs s = s := by
  cases fuel with
  | zero => rfl
  | succ fuel => rw [epollServe, if_pos h]

theorem epollServe_open {s : Session} (h : s.closed = false) (fuel : Nat) (rs : List ReadResult) :
    epollServe hash envs [.all] (fuel + 1) rs s = afterRead hash envs fuel (readLoop rs s) := by
  rw [epollServe, if_neg (by simp [h]), afterRead]
  simp only [handleClientReadable]
  by_cases hc : (readLoop rs s).1.closed = true
  · rw [if_pos hc, if_pos hc, epollServe_closed hc]
  · rw [if_neg hc, if_neg hc]

theorem feed_rest_length (d : Progress) (x : Bytes) :
    (respParser.feed d x).rest.length ≤ d.rest.length + x.length := by
  unfold Parser.feed
  split_ifs
  · omega
  · exact (Parser.length_rest_le _).trans (by rw [List.length_append])

theorem epoll_outcome {st : CmdState} {chunks : List Bytes} {fuel : Nat} {s : Session}
    {d : Progress} {acc : Bytes} (h : s.Tracks hash envs st ⟨d.cmds, d.rest ++ acc, d.err⟩)
    (hd : d.err = none) (hc : s.closed = false) (ho : s.conn.out = [])
    (hfuel : chunks.length ≤ fuel)
    (hcap : d.rest.length + acc.length + chunks.flatten.length ≤ maxConnInputBuf) :
    (afterRead hash envs fuel (readLoop (readsOf chunks) s)).Outcome hash envs st
      ((epollFeeds acc chunks).foldl respParser.feed d) := by
  induction chunks generalizing fuel s d acc with
  | nil =>
    have hr : readLoop (readsOf []) s = (connClose s, []) := rfl
    rw [hr, afterRead, if_pos (show (connClose s).closed = true from rfl)]
    exact ⟨h.dispatched, h.written ho, rfl⟩
  | cons x xs ih =>
    have hin : s.conn.inBuf = d.rest ++ acc := h.rest hd
    have hclosing : ¬ s.conn.closing = true := by simp [h.closing, hd]
    have ha := h.append x
    rw [List.flatten_cons, List.length_append] at hcap
    rw [List.length_cons] at hfuel
    have hfit : ¬ maxConnInputBuf < s.conn.inBuf.length + x.length := by
      rw [hin, List.length_append]
      omega
    rw [readsOf, List.map_cons, List.cons_append, readLoop, if_neg hfit, epollFeeds]
    by_cases hx : x.length < readChunk
    · rw [if_pos hx, if_pos hx, List.foldl_cons, afterRead, if_neg (by simp [hc])]
      rw [if_neg (show ¬ (connInAppend s.conn x).closing = true from hclosing)]
      simp only [List.append_assoc] at ha
      have hi := (ha.process hd).service ((connProcessInput_unwritten _).2.2.trans hc)
      have hlen := feed_rest_length d (acc ++ x)
      rw [List.length_append] at hlen
      obtain ⟨fuel, rfl⟩ := Nat.exists_eq_succ_of_ne_zero (show fuel ≠ 0 by omega)
      by_cases he : (respParser.feed d (acc ++ x)).err = none
      · rw [epollServe_open (by rw [hi.closed, he]; rfl)]
        refine ih ?_ he (by rw [hi.closed, he]; rfl) hi.flushed (by omega) ?_
        · simpa using hi.toTracks
        · simp only [List.length_nil]
          omega
      · have hclosed := hi.closed.trans (Option.isSome_iff_ne_none.mpr he)
        rw [epollServe_closed hclosed, Parser.foldl_feed_of_err he]
        exact ⟨hi.dispatched, hi.toTracks.written hi.flushed, hclosed⟩
    · rw [if_neg hx, if_neg hx]
      simp only [List.append_assoc] at ha
      exact ih ha hd hc ho (by omega) (by rw [List.length_append]; omega)

def Handled.advance (hash : Bytes → UInt64) (envs : Nat → Env) (h : Handled) (d : Progress) :
    Handled where
  peer :=
    { h.peer with
      inBuf := d.rest
      written := h.peer.written ++
        (execFrom hash envs h.dispatched.length h.state d.cmds).2.flatten ++ errorReply d.err
      phase := if d.err.isSome then .closed else .reading }
  state := (execFrom hash envs h.dispatched.length h.state d.cmds).1
  dispatched := h.dispatched ++ d.cmds

theorem peerFlush_none (p : Peer) (fatal : Bool) :
    peerFlush p fatal none =
      { p with
        written := p.written ++ p.out
        out := []
        phase := if fatal then .closed else .parsing } := by
  rw [peerFlush, ite_self]

theorem handleInput_eq {fuel : Nat} {h : Handled} (hf : h.peer.inBuf.length < fuel)
    (ho : h.peer.out = []) :
    handleInput hash envs fuel h = h.advance hash envs (respParser.drain h.peer.inBuf) := by
  induction fuel generalizing h with
  | zero => omega
  | succ fuel ih =>
    obtain ⟨⟨inBuf, out, phase, written, broken⟩, state, dispatched⟩ := h
    simp only at hf ho
    subst ho
    rw [handleInput, peerParse]
    by_cases hb : inBuf = []
    · subst hb
      rw [Parser.drain_of_incomplete respParser.parse_nil]
      simp [Handled.advance, execFrom, timed, Machine.run, errorReply]
    · simp only [List.length_eq_zero_iff, hb, if_false]
      cases hp : respParse inBuf with
      | incomplete =>
        rw [Parser.drain_of_incomplete (P := respParser) hp]
        simp [Handled.advance, execFrom, timed, Machine.run, errorReply]
      | error e =>
        rw [Parser.drain_of_error (P := respParser) hp]
        simp [Handled.advance, execFrom, timed, Machine.run, errorReply, peerFlush_none]
      | ok cmd n =>
        have hl : (inBuf.drop n).length < inBuf.length :=
          Parser.drop_length_lt (P := respParser) hp
        rw [Parser.drain_of_ok (P := respParser) hp]
        simp only [peerDispatch, peerFlush_none]
        rw [ih (by simp only; omega) rfl]
        simp [Handled.advance, execFrom_cons]

structure Handled.Tracks (hash : Bytes → UInt64) (envs : Nat → Env) (st : CmdState) (h : Handled)
    (d : Progress) : Prop where
  dispatched : h.dispatched = d.cmds
  state : h.state = (execFrom hash envs 0 st d.cmds).1
  out : h.peer.out = []
  written : h.peer.written = served hash envs st d
  phase : h.peer.phase = if d.err.isSome then .closed else .reading
  rest : d.err = none → h.peer.inBuf = d.rest

theorem Handled.Tracks.start (st : CmdState) :
    (Handled.start st).Tracks hash envs st ⟨[], [], none⟩ :=
  ⟨rfl, rfl, rfl, rfl, rfl, fun _ => rfl⟩

def Handled.receive (h : Handled) (x : Bytes) : Handled :=
  { h with peer := { h.peer with inBuf := h.peer.inBuf ++ x, phase := .parsing } }

theorem Handled.Tracks.feed {st : CmdState} {h : Handled} {d : Progress}
    (ht : h.Tracks hash envs st d) (hd : d.err = none) (x : Bytes) :
    (handleInput hash envs ((h.receive x).peer.inBuf.length + 1) (h.receive x)).Tracks hash envs st
      (respParser.feed d x) := by
  have hin : (h.receive x).peer.inBuf = d.rest ++ x := by rw [← ht.rest hd]; rfl
  have hs : execFrom hash envs (h.receive x).dispatched.length (h.receive x).state
        (respParser.drain (d.rest ++ x)).cmds =
      execFrom hash envs (0 + d.cmds.length) (execFrom hash envs 0 st d.cmds).1
        (respParser.drain (d.rest ++ x)).cmds := by
    rw [Nat.zero_add, ← ht.state, ← ht.dispatched]
    rfl
  rw [handleInput_eq (Nat.lt_succ_self _) (show (h.receive x).peer.out = [] from ht.out), hin,
    Parser.feed, if_neg (by simp [hd])]
  simp only [Handled.advance, hs]
  refine ⟨by simp only [Handled.receive, ht.dispatched], by simp only [execFrom_append], ht.out,
    ?_, rfl, fun _ => rfl⟩
  simp only [Handled.receive, ht.written, served, execFrom_append, hd, errorReply, List.append_nil,
    List.flatten_append, List.append_assoc]

theorem handleConn_not_reading {h : Handled} (hp : h.peer.phase = .closed) (rs : List ReadResult) :
    handleConn hash envs rs h = h := by
  cases rs with
  | nil => rfl
  | cons r rs => rw [handleConn, if_pos (by simp [hp])]

theorem handleConn_data {h : Handled} {x : Bytes} (hp : h.peer.phase = .reading)
    (hfit : h.peer.inBuf.length + x.length ≤ maxInputBuf) (rs : List ReadResult) :
    handleConn hash envs (.data x :: rs) h =
      handleConn hash envs rs
        (handleInput hash envs ((h.receive x).peer.inBuf.length + 1) (h.receive x)) := by
  rw [handleConn, if_neg (by simp [hp])]
  simp only [peerRead, if_neg (Nat.not_lt.mpr hfit)]
  rfl

theorem handleConn_outcome {st : CmdState} {chunks : List Bytes} {h : Handled} {d : Progress}
    (ht : h.Tracks hash envs st d)
    (hcap : d.rest.length + chunks.flatten.length ≤ maxInputBuf) :
    (handleConn hash envs (readsOf chunks) h).dispatched =
        (chunks.foldl respParser.feed d).cmds ∧
      (handleConn hash envs (readsOf chunks) h).peer.written =
        served hash envs st (chunks.foldl respParser.feed d) ∧
      (handleConn hash envs (readsOf chunks) h).peer.phase = .closed := by
  by_cases hd : d.err = none
  · have hp : h.peer.phase = .reading := by rw [ht.phase, hd]; rfl
    induction chunks generalizing h d with
    | nil =>
      have hr : handleConn hash envs (readsOf []) h =
          { h with peer := { h.peer with phase := .closed } } := by
        rw [readsOf, List.map_nil, List.nil_append, handleConn, if_neg (by simp [hp])]
        rfl
      rw [hr]
      exact ⟨ht.dispatched, ht.written, rfl⟩
    | cons x xs ih =>
      rw [List.flatten_cons, List.length_append] at hcap
      have hlen := feed_rest_length d x
      have hfeed := ht.feed hd x
      rw [readsOf, List.map_cons, List.cons_append,
        handleConn_data hp (by rw [ht.rest hd]; omega), List.foldl_cons]
      by_cases he : (respParser.feed d x).err = none
      · exact ih hfeed (by omega) he (by rw [hfeed.phase, he]; rfl)
      · have hclosed : (handleInput hash envs ((h.receive x).peer.inBuf.length + 1)
            (h.receive x)).peer.phase = .closed := by
          rw [hfeed.phase, if_pos (Option.isSome_iff_ne_none.mpr he)]
        rw [handleConn_not_reading hclosed, Parser.foldl_feed_of_err he]
        exact ⟨hfeed.dispatched, hfeed.written, hclosed⟩
  · have hp : h.peer.phase = .closed := by
      rw [ht.phase, if_pos (Option.isSome_iff_ne_none.mpr hd)]
    rw [handleConn_not_reading hp, Parser.foldl_feed_of_err hd]
    exact ⟨ht.dispatched, ht.written, hp⟩

-- the stream up to the end of each chunk, and whether that chunk was a short one
def chunkEnds : Bytes → List Bytes → List (Bytes × Bool)
  | _, [] => []
  | b, x :: xs => (b ++ x, decide (x.length < readChunk)) :: chunkEnds (b ++ x) xs

def shortEnds (chunks : List Bytes) : List Bytes :=
  ((chunkEnds [] chunks).filter Prod.snd).map Prod.fst

def lastShortEnd (chunks : List Bytes) : Bytes := (shortEnds chunks).getLast?.getD []

def ServersAgreeOn (chunks : List Bytes) : Prop :=
  match (chunkEnds [] chunks).find? (fun e => respParser.failsAt e.1) with
  | none =>
    (respParser.drain (lastShortEnd chunks)).cmds.length =
      (respParser.drain chunks.flatten).cmds.length
  | some (_, true) => True
  | some (p, false) =>
    ∃ q, (shortEnds chunks).find? respParser.failsAt = some q ∧
      (respParser.drain q).err = (respParser.drain p).err ∧
      (respParser.drain q).cmds.length = (respParser.drain p).cmds.length

theorem stops_eq_chunkEnds (b : Bytes) (chunks : List Bytes) :
    Parser.stops b chunks = (chunkEnds b chunks).map Prod.fst := by
  induction chunks generalizing b with
  | nil => rfl
  | cons x xs ih => rw [Parser.stops, chunkEnds, List.map_cons, ih]

theorem stops_epollFeeds (b acc : Bytes) (chunks : List Bytes) :
    Parser.stops b (epollFeeds acc chunks) =
      ((chunkEnds (b ++ acc) chunks).filter Prod.snd).map Prod.fst := by
  induction chunks generalizing b acc with
  | nil => rfl
  | cons x xs ih =>
    rw [epollFeeds, chunkEnds]
    by_cases hx : x.length < readChunk
    · rw [if_pos hx, Parser.stops, ih, List.append_nil, List.filter_cons_of_pos (by simpa using hx),
        List.map_cons, List.append_assoc]
    · rw [if_neg hx, ih, List.filter_cons_of_neg (by simpa using hx), List.append_assoc]

theorem stops_shortEnds (chunks : List Bytes) :
    Parser.stops [] (epollFeeds [] chunks) = shortEnds chunks := stops_epollFeeds [] [] chunks

theorem flatten_epollFeeds (chunks : List Bytes) :
    (epollFeeds [] chunks).flatten = lastShortEnd chunks := by
  rw [lastShortEnd, ← stops_shortEnds, Parser.getLast_stops, List.nil_append]

theorem mem_shortEnds {chunks : List Bytes} {q : Bytes} :
    q ∈ shortEnds chunks ↔ (q, true) ∈ chunkEnds [] chunks := by
  simp [shortEnds]

theorem chunkEnds_initial {b : Bytes} {chunks : List Bytes} {e : Bytes × Bool}
    (h : e ∈ chunkEnds b chunks) : b <+: e.1 := by
  induction chunks generalizing b with
  | nil => cases h
  | cons x xs ih =>
    rcases List.mem_cons.mp h with rfl | h
    · exact List.prefix_append b x
    · exact (List.prefix_append b x).trans (ih h)

theorem chunkEnds_pairwise (b : Bytes) (chunks : List Bytes) :
    (chunkEnds b chunks).Pairwise (fun e e' => e.1 <+: e'.1) := by
  induction chunks generalizing b with
  | nil => exact .nil
  | cons x xs ih => exact .cons (fun e he => chunkEnds_initial he) (ih (b ++ x))

theorem cmds_drain_initial {p q : Bytes} (h : p <+: q) :
    (respParser.drain p).cmds <+: (respParser.drain q).cmds := by
  obtain ⟨x, rfl⟩ := h
  exact Parser.drain_append_initial p x

def msgLength : ProtoError → Nat
  | .tooBigMbulkCount => 46
  | .invalidMultibulkLength => 44
  | .tooBigBulkCount => 45
  | .expectedDollar => 52
  | .invalidBulkLength => 39
  | .expectedCrlf => 56
  | .tooBigInline => 42

theorem length_msg (e : ProtoError) : e.msg.length = msgLength e := by
  cases e <;> decide +kernel

-- no two of the messages have the same length
theorem msg_injective {e e' : ProtoError} (h : e.msg = e'.msg) : e = e' := by
  have hl := congrArg List.length h
  rw [length_msg, length_msg] at hl
  cases e <;> cases e' <;> first | rfl | exact absurd hl (by decide)

theorem errorReply_injective {e e' : Option ProtoError} (h : errorReply e = errorReply e') :
    e = e' := by
  cases e with
  | none =>
    cases e' with
    | none => rfl
    | some e' => simp [errorReply, respReplyError] at h
  | some e =>
    cases e' with
    | none => simp [errorReply, respReplyError] at h
    | some e' =>
      simp only [errorReply, respReplyError, List.cons_append, List.cons.injEq, true_and,
        List.append_cancel_right_eq] at h
      rw [msg_injective h]

theorem find_shortEnds {chunks : List Bytes} {p : Bytes}
    (h : (chunkEnds [] chunks).find? (fun e => respParser.failsAt e.1) = some (p, true)) :
    (shortEnds chunks).find? respParser.failsAt = some p := by
  rw [shortEnds, List.find?_map, List.find?_filter]
  obtain ⟨hf, as, bs, hl, has⟩ := List.find?_eq_some_iff_append.mp h
  have hfind : (chunkEnds [] chunks).find? (fun e => e.2 && respParser.failsAt e.1) =
      some (p, true) :=
    List.find?_eq_some_iff_append.mpr
      ⟨by simpa using hf, as, bs, hl, fun a ha => by
        have hn := has a ha
        simp only [Bool.not_eq_true'] at hn ⊢
        rw [hn, Bool.and_false]⟩
  simp [hfind]

theorem first_initial {chunks : List Bytes} {p q : Bytes} {c : Bool}
    (hp : (chunkEnds [] chunks).find? (fun e => respParser.failsAt e.1) = some (p, c))
    (hq : (shortEnds chunks).find? respParser.failsAt = some q) : p <+: q := by
  obtain ⟨-, as, bs, hl, has⟩ := List.find?_eq_some_iff_append.mp hp
  have hmem := mem_shortEnds.mp (List.mem_of_find?_eq_some hq)
  have hfails : respParser.failsAt q = true := List.find?_some hq
  have hpw := chunkEnds_pairwise [] chunks
  rw [hl] at hmem hpw
  rcases List.mem_append.mp hmem with hm | hm
  · exact absurd hfails (by simpa using has _ hm)
  · rcases List.mem_cons.mp hm with he | hm
    · rw [(Prod.mk.inj he).1]
    · exact (List.pairwise_cons.mp (List.pairwise_append.mp hpw).2.1).1 _ hm

theorem flatten_epollFeeds_initial (acc : Bytes) (chunks : List Bytes) :
    (epollFeeds acc chunks).flatten <+: acc ++ chunks.flatten := by
  induction chunks generalizing acc with
  | nil => exact List.nil_prefix
  | cons x xs ih =>
    rw [epollFeeds, List.flatten_cons, ← List.append_assoc]
    split_ifs
    · rw [List.flatten_cons, List.prefix_append_right_inj]
      exact ih []
    · exact ih (acc ++ x)

theorem err_drain_nil : (respParser.drain []).err = none :=
  congrArg Drained.err (Parser.drain_of_incomplete respParser.parse_nil)

theorem find_stops (chunks : List Bytes) :
    (Parser.stops [] chunks).find? respParser.failsAt =
      ((chunkEnds [] chunks).find? (fun e => respParser.failsAt e.1)).map Prod.fst := by
  rw [stops_eq_chunkEnds, List.find?_map]
  rfl

theorem err_drain_lastShortEnd {chunks : List Bytes}
    (h : (shortEnds chunks).find? respParser.failsAt = none) :
    (respParser.drain (lastShortEnd chunks)).err = none := by
  rw [← stops_shortEnds] at h
  have he := Parser.err_drain_flatten err_drain_nil h
  rwa [List.nil_append, flatten_epollFeeds] at he

theorem cmds_drain_lastShortEnd (chunks : List Bytes) :
    (respParser.drain (lastShortEnd chunks)).cmds <+: (respParser.drain chunks.flatten).cmds := by
  have hi := flatten_epollFeeds_initial [] chunks
  rw [flatten_epollFeeds, List.nil_append] at hi
  exact cmds_drain_initial hi

section NoFailure

variable {chunks : List Bytes}
  (hf : (chunkEnds [] chunks).find? (fun e => respParser.failsAt e.1) = none)

include hf

theorem find_shortEnds_of_none : (shortEnds chunks).find? respParser.failsAt = none := by
  rw [List.find?_eq_none] at hf ⊢
  exact fun q hq => hf _ (mem_shortEnds.mp hq)

theorem err_drain_whole : (respParser.drain chunks.flatten).err = none := by
  have hn : (Parser.stops [] chunks).find? respParser.failsAt = none := by
    rw [find_stops, hf]
    rfl
  have he := Parser.err_drain_flatten err_drain_nil hn
  rwa [List.nil_append] at he

end NoFailure

theorem progress_agree_iff (chunks : List Bytes) :
    ((respParser.feedAll (epollFeeds [] chunks)).cmds = (respParser.feedAll chunks).cmds ∧
      (respParser.feedAll (epollFeeds [] chunks)).err = (respParser.feedAll chunks).err) ↔
    ServersAgreeOn chunks := by
  rw [Parser.feedAll_eq_find, Parser.feedAll_eq_find, stops_shortEnds, find_stops,
    flatten_epollFeeds, ServersAgreeOn]
  cases hf : (chunkEnds [] chunks).find? (fun e => respParser.failsAt e.1) with
  | none =>
    have hshort := find_shortEnds_of_none hf
    simp only [hshort, Option.map_none, Option.getD_none, err_drain_whole hf,
      err_drain_lastShortEnd hshort, and_true]
    exact ⟨congrArg List.length, (cmds_drain_lastShortEnd chunks).eq_of_length⟩
  | some e =>
    obtain ⟨p, c⟩ := e
    cases c with
    | true => simp only [find_shortEnds hf, Option.map_some, Option.getD_some, and_self]
    | false =>
      have hfails : (respParser.drain p).err ≠ none := by
        have hp := List.find?_some hf
        exact Option.isSome_iff_ne_none.mp hp
      cases hs : (shortEnds chunks).find? respParser.failsAt with
      | none =>
        simp only [Option.map_some, Option.getD_some, Option.getD_none, err_drain_lastShortEnd hs]
        constructor
        · rintro ⟨-, he⟩
          exact absurd he.symm hfails
        · rintro ⟨q, hq, -⟩
          cases hq
      | some q =>
        have hinit := cmds_drain_initial (first_initial hf hs)
        simp only [Option.map_some, Option.getD_some, Option.some.injEq]
        constructor
        · rintro ⟨hc, he⟩
          exact ⟨q, rfl, he, by rw [hc]⟩
        · rintro ⟨q', rfl, he, hl⟩
          exact ⟨(hinit.eq_of_length hl.symm).symm, he⟩

theorem epollServe_outcome (st : CmdState) {chunks : List Bytes} {fuel : Nat}
    (hfuel : chunks.length < fuel) (hcap : chunks.flatten.length ≤ maxConnInputBuf) :
    (epollServe hash envs [.all] fuel (readsOf chunks) (Session.start st)).Outcome hash envs st
      (respParser.feedAll (epollFeeds [] chunks)) := by
  obtain ⟨fuel, rfl⟩ := Nat.exists_eq_succ_of_ne_zero (show fuel ≠ 0 by omega)
  rw [epollServe_open rfl]
  exact epoll_outcome (d := ⟨[], [], none⟩) (Session.Tracks.start st) rfl rfl rfl (by omega)
    (by simpa using hcap)

theorem handleConn_start_outcome (st : CmdState) {chunks : List Bytes}
    (hcap : chunks.flatten.length ≤ maxConnInputBuf) :
    (handleConn hash envs (readsOf chunks) (Handled.start st)).dispatched =
        (respParser.feedAll chunks).cmds ∧
      (handleConn hash envs (readsOf chunks) (Handled.start st)).peer.written =
        served hash envs st (respParser.feedAll chunks) ∧
      (handleConn hash envs (readsOf chunks) (Handled.start st)).peer.phase = .closed :=
  handleConn_outcome (Handled.Tracks.start st) (by simpa [maxInputBuf, maxConnInputBuf] using hcap)

theorem outcomes_agree_iff {st : CmdState} {s : Session} {h : Handled} {d d' : Progress}
    (hs : s.Outcome hash envs st d) (hd : h.dispatched = d'.cmds)
    (hw : h.peer.written = served hash envs st d') :
    (s.dispatched = h.dispatched ∧ s.written = h.peer.written) ↔
      (d.cmds = d'.cmds ∧ d.err = d'.err) := by
  rw [hs.dispatched, hs.written, hd, hw]
  constructor
  · rintro ⟨hc, hr⟩
    rw [served, served, hc, List.append_cancel_left_eq] at hr
    exact ⟨hc, errorReply_injective hr⟩
  · rintro ⟨hc, he⟩
    exact ⟨hc, by rw [served, served, hc, he]⟩

theorem servers_agree_iff (hash : Bytes → UInt64) (envs : Nat → Env) (st : CmdState)
    (chunks : List Bytes) (fuel : Nat) (hfuel : chunks.length < fuel)
    (hcap : chunks.flatten.length < maxConnInputBuf) :
    let epoll := epollServe hash envs [.all] fuel (readsOf chunks) (Session.start st)
    let threaded := handleConn hash envs (readsOf chunks) (Handled.start st)
    epoll.closed = true ∧ threaded.peer.phase = .closed ∧
    ((epoll.dispatched = threaded.dispatched ∧ epoll.written = threaded.peer.written) ↔
      ServersAgreeOn chunks) := by
  intro epoll threaded
  have he : epoll.Outcome hash envs st (respParser.feedAll (epollFeeds [] chunks)) :=
    epollServe_outcome st hfuel hcap.le
  obtain ⟨hd, hw, hp⟩ := @handleConn_start_outcome hash envs st chunks hcap.le
  exact ⟨he.closed, hp, (outcomes_agree_iff he hd hw).trans (progress_agree_iff chunks)⟩

theorem servers_agree_iff_ping :
    (epollServe fnv1aHash quietEnv [.all] 2 (readsOf [str "PING\r\n"])
        (Session.start freshState)).written =
      (handleConn fnv1aHash quietEnv (readsOf [str "PING\r\n"])
        (Handled.start freshState)).peer.written := by
  have hagree : ServersAgreeOn [str "PING\r\n"] := by
    have hf : (chunkEnds [] [str "PING\r\n"]).find? (fun e => respParser.failsAt e.1) = none := by
      decide
    rw [ServersAgreeOn, hf]
    decide
  exact ((servers_agree_iff fnv1aHash quietEnv freshState _ 2 (by decide) (by decide)).2.2.mpr
    hagree).2

def fullChunk : Bytes := str "PING\n" ++ List.replicate 16379 lf

theorem length_fullChunk : fullChunk.length = readChunk := by
  rw [fullChunk, List.length_append, List.length_replicate]
  rfl

theorem drain_fullChunk : (respParser.drain fullChunk).cmds ≠ [] := by
  have hp : respParser.parse (str "PING\n") = .ok [str "PING"] 5 := by decide
  rw [fullChunk, Parser.drain_of_ok (respParser.ok_append hp _)]
  exact List.cons_ne_nil _ _

theorem epoll_server_drops_full_last_chunk :
    fullChunk.length = readChunk ∧ [fullChunk].flatten.length < maxConnInputBuf ∧
    ¬ ((epollServe fnv1aHash quietEnv [.all] 2 (readsOf [fullChunk])
          (Session.start freshState)).dispatched =
        (handleConn fnv1aHash quietEnv (readsOf [fullChunk]) (Handled.start freshState)).dispatched ∧
      (epollServe fnv1aHash quietEnv [.all] 2 (readsOf [fullChunk])
          (Session.start freshState)).written =
        (handleConn fnv1aHash quietEnv (readsOf [fullChunk])
          (Handled.start freshState)).peer.written) := by
  have hlen := length_fullChunk
  have hcap : [fullChunk].flatten.length < maxConnInputBuf := by
    rw [List.flatten_singleton, hlen]
    decide
  have hfeeds : epollFeeds [] [fullChunk] = [] := by
    rw [epollFeeds, if_neg (by omega), epollFeeds]
  have he := @epollServe_outcome fnv1aHash quietEnv freshState [fullChunk] 2 (by decide) hcap.le
  have ht := @handleConn_start_outcome fnv1aHash quietEnv freshState [fullChunk] hcap.le
  refine ⟨hlen, hcap, fun h => drain_fullChunk ?_⟩
  rw [he.dispatched, ht.1, hfeeds, Parser.feedAll_singleton] at h
  exact h.1.symm

end RedisServer

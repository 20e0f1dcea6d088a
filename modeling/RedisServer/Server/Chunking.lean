import RedisServer.Server.Epoll
import RedisServer.Resp.Stability
import RedisServer.Lib.Machine

namespace RedisServer

open Incremental

variable (hash : Bytes → UInt64) (envs : Nat → Env)

def timed : Nat → List Command → List (Env × Command)
  | _, [] => []
  | k, cmd :: cmds => (envs k, cmd) :: timed (k + 1) cmds

theorem timed_append (k : Nat) (cmds cmds' : List Command) :
    timed envs k (cmds ++ cmds') = timed envs k cmds ++ timed envs (k + cmds.length) cmds' := by
  induction cmds generalizing k with
  | nil => rfl
  | cons cmd cmds ih =>
    simp only [List.cons_append, timed, ih, List.length_cons, Nat.add_assoc, Nat.add_comm 1]

def execFrom (k : Nat) (st : CmdState) (cmds : List Command) : CmdState × List Bytes :=
  Machine.run (dispatchStep hash) st (timed envs k cmds)

def errorReply : Option ProtoError → Bytes
  | none => []
  | some e => respReplyError e.msg

def Session.advance (s : Session) (d : Drained UInt8 Command ProtoError) : Session :=
  { s with
    conn :=
      { s.conn with
        inBuf := d.rest
        out := s.conn.out ++ (execFrom hash envs s.dispatched.length s.state d.cmds).2.flatten ++
          errorReply d.err
        closing := d.err.isSome }
    state := (execFrom hash envs s.dispatched.length s.state d.cmds).1
    dispatched := s.dispatched ++ d.cmds
    parseError := d.err }

theorem execFrom_cons (k : Nat) (st : CmdState) (cmd : Command) (cmds : List Command) :
    execFrom hash envs k st (cmd :: cmds) =
      ((execFrom hash envs (k + 1) (cmdDispatch hash (envs k) st cmd).1 cmds).1,
        (cmdDispatch hash (envs k) st cmd).2 ::
          (execFrom hash envs (k + 1) (cmdDispatch hash (envs k) st cmd).1 cmds).2) := rfl

theorem execFrom_append (k : Nat) (st : CmdState) (cmds cmds' : List Command) :
    execFrom hash envs k st (cmds ++ cmds') =
      ((execFrom hash envs (k + cmds.length) (execFrom hash envs k st cmds).1 cmds').1,
        (execFrom hash envs k st cmds).2 ++
          (execFrom hash envs (k + cmds.length) (execFrom hash envs k st cmds).1 cmds').2) := by
  rw [execFrom, timed_append, Machine.run_append]
  rfl

theorem Session.advance_incomplete {s : Session} (hc : s.conn.closing = false)
    (he : s.parseError = none) : s.advance hash envs ⟨[], s.conn.inBuf, none⟩ = s := by
  obtain ⟨⟨inBuf, out, outSent, closing, wantWrite⟩, state, dispatched, parseError, written, closed⟩ := s
  simp only at hc he
  subst hc he
  simp [Session.advance, execFrom, timed, Machine.run, errorReply]

theorem Session.advance_ok (s : Session) (cmd : Command) (n : Nat)
    (d : Drained UInt8 Command ProtoError) :
    Session.advance hash envs
      { s with
        conn := connInConsume
          (connReply s.conn (cmdDispatch hash (envs s.dispatched.length) s.state cmd).2) n
        state := (cmdDispatch hash (envs s.dispatched.length) s.state cmd).1
        dispatched := s.dispatched ++ [cmd] } d =
      s.advance hash envs ⟨cmd :: d.cmds, d.rest, d.err⟩ := by
  simp [Session.advance, connInConsume, connReply, execFrom_cons]

theorem connProcessFuel_eq {fuel : Nat} {s : Session} (hf : s.conn.inBuf.length ≤ fuel)
    (hc : s.conn.closing = false) (he : s.parseError = none) :
    connProcessFuel hash envs fuel s = s.advance hash envs (respParser.drain s.conn.inBuf) := by
  induction fuel generalizing s with
  | zero =>
    have hb : s.conn.inBuf = [] := List.length_eq_zero_iff.mp (by omega)
    have hp : respParser.parse s.conn.inBuf = .incomplete := hb ▸ respParser.parse_nil
    rw [connProcessFuel, Parser.drain_of_incomplete hp, Session.advance_incomplete hash envs hc he]
  | succ fuel ih =>
    rw [connProcessFuel]
    by_cases hb : s.conn.inBuf = []
    · have hp : respParser.parse s.conn.inBuf = .incomplete := hb ▸ respParser.parse_nil
      rw [if_neg (by simp [hb]), Parser.drain_of_incomplete hp,
        Session.advance_incomplete hash envs hc he]
    · rw [if_pos ⟨List.length_pos_iff.mpr hb, hc⟩]
      cases hp : respParse s.conn.inBuf with
      | incomplete =>
        rw [Parser.drain_of_incomplete (P := respParser) hp,
          Session.advance_incomplete hash envs hc he]
      | error e =>
        rw [Parser.drain_of_error (P := respParser) hp]
        simp [Session.advance, connReply, execFrom, timed, Machine.run, errorReply]
      | ok cmd n =>
        have hl : (s.conn.inBuf.drop n).length < s.conn.inBuf.length :=
          Parser.drop_length_lt (P := respParser) hp
        rw [Parser.drain_of_ok (P := respParser) hp, ← Session.advance_ok hash envs s cmd n]
        exact ih (by simp only [connInConsume, connReply]; omega) hc he

theorem connProcessInput_eq {s : Session} (hc : s.conn.closing = false)
    (he : s.parseError = none) :
    connProcessInput hash envs s = s.advance hash envs (respParser.drain s.conn.inBuf) :=
  connProcessFuel_eq hash envs le_rfl hc he

def connFeed (s : Session) (chunk : Bytes) : Session :=
  let s := { s with conn := connInAppend s.conn chunk }
  if s.conn.closing then s else connProcessInput hash envs s

-- the session has executed exactly what the incremental parser has recognised, and what was
-- written together with what is queued are the replies to it
structure Session.Tracks (st : CmdState) (s : Session) (d : Drained UInt8 Command ProtoError) :
    Prop where
  dispatched : s.dispatched = d.cmds
  parseError : s.parseError = d.err
  closing : s.conn.closing = d.err.isSome
  state : s.state = (execFrom hash envs 0 st d.cmds).1
  rest : d.err = none → s.conn.inBuf = d.rest
  sent_le : s.conn.outSent ≤ s.conn.out.length
  replied : s.written ++ s.conn.out.drop s.conn.outSent =
    (execFrom hash envs 0 st d.cmds).2.flatten ++ errorReply d.err

variable {hash envs}

theorem Session.Tracks.start (st : CmdState) :
    (Session.start st).Tracks hash envs st ⟨[], [], none⟩ :=
  ⟨rfl, rfl, rfl, rfl, fun _ => rfl, le_rfl, rfl⟩

theorem Session.Tracks.advance {st : CmdState} {s : Session}
    {d : Drained UInt8 Command ProtoError} (h : s.Tracks hash envs st d) (hd : d.err = none)
    (d' : Drained UInt8 Command ProtoError) :
    (s.advance hash envs d').Tracks hash envs st ⟨d.cmds ++ d'.cmds, d'.rest, d'.err⟩ := by
  have hs : execFrom hash envs s.dispatched.length s.state d'.cmds =
      execFrom hash envs (0 + d.cmds.length) (execFrom hash envs 0 st d.cmds).1 d'.cmds := by
    rw [h.dispatched, h.state, Nat.zero_add]
  refine ⟨?_, rfl, rfl, ?_, fun _ => rfl, ?_, ?_⟩
  · simp [Session.advance, h.dispatched]
  · simp only [Session.advance, hs, execFrom_append]
  · have := h.sent_le
    simp only [Session.advance, List.length_append]
    omega
  · simp only [Session.advance, hs, execFrom_append, List.flatten_append, List.append_assoc]
    rw [List.drop_append_of_le_length h.sent_le, ← List.append_assoc, h.replied, hd]
    simp [errorReply]

theorem Session.Tracks.append {st : CmdState} {s : Session}
    {d : Drained UInt8 Command ProtoError} (h : s.Tracks hash envs st d) (x : Bytes) :
    Session.Tracks hash envs st { s with conn := connInAppend s.conn x }
      ⟨d.cmds, d.rest ++ x, d.err⟩ :=
  ⟨h.dispatched, h.parseError, h.closing, h.state,
    fun hn => by simp only [connInAppend, h.rest hn], h.sent_le, h.replied⟩

theorem Session.Tracks.process {st : CmdState} {s : Session}
    {d : Drained UInt8 Command ProtoError} {x : Bytes}
    (h : s.Tracks hash envs st ⟨d.cmds, d.rest ++ x, d.err⟩) (hd : d.err = none) :
    (connProcessInput hash envs s).Tracks hash envs st (respParser.feed d x) := by
  have hc : s.conn.closing = false := by rw [h.closing, hd]; rfl
  rw [connProcessInput_eq hash envs hc (h.parseError.trans hd), h.rest hd, Parser.feed,
    if_neg (by simp [hd])]
  exact h.advance hd _

theorem Session.Tracks.feed {st : CmdState} {s : Session} {d : Drained UInt8 Command ProtoError}
    (h : s.Tracks hash envs st d) (x : Bytes) :
    (connFeed hash envs s x).Tracks hash envs st (respParser.feed d x) := by
  have ha := h.append x
  by_cases hd : d.err = none
  · have hc : ¬ s.conn.closing = true := by simp [h.closing, hd]
    rw [connFeed, if_neg (show ¬ (connInAppend s.conn x).closing = true from hc)]
    exact ha.process hd
  · have hc : s.conn.closing = true := h.closing.trans (Option.isSome_iff_ne_none.mpr hd)
    rw [connFeed, if_pos (show (connInAppend s.conn x).closing = true from hc),
      Parser.feed_of_err hd]
    exact ⟨ha.dispatched, ha.parseError, ha.closing, ha.state, fun hn => absurd hn hd, ha.sent_le,
      ha.replied⟩

theorem Session.Tracks.feedAll {st : CmdState} (chunks : List Bytes) :
    (chunks.foldl (connFeed hash envs) (Session.start st)).Tracks hash envs st
      (respParser.feedAll chunks) := by
  induction chunks using List.reverseRecOn with
  | nil => exact Session.Tracks.start st
  | append_singleton chunks x ih =>
    rw [List.foldl_append, Parser.feedAll_append_singleton]
    exact ih.feed x

theorem connProcessInput_unwritten (s : Session) :
    (connProcessInput hash envs s).written = s.written ∧
      (connProcessInput hash envs s).conn.outSent = s.conn.outSent ∧
      (connProcessInput hash envs s).closed = s.closed := by
  unfold connProcessInput
  generalize s.conn.inBuf.length = fuel
  induction fuel generalizing s with
  | zero => exact ⟨rfl, rfl, rfl⟩
  | succ fuel ih =>
    rw [connProcessFuel]
    split_ifs
    · split
      · exact ⟨rfl, rfl, rfl⟩
      · exact ⟨rfl, rfl, rfl⟩
      · exact ih _
    · exact ⟨rfl, rfl, rfl⟩

theorem connFeed_unwritten (s : Session) (x : Bytes) (hw : s.written = []) (ho : s.conn.outSent = 0) :
    (connFeed hash envs s x).written = [] ∧ (connFeed hash envs s x).conn.outSent = 0 := by
  unfold connFeed
  simp only
  split_ifs
  · exact ⟨hw, ho⟩
  · obtain ⟨h1, h2, -⟩ := @connProcessInput_unwritten hash envs
      { s with conn := connInAppend s.conn x }
    exact ⟨h1.trans hw, h2.trans ho⟩

theorem foldl_connFeed_unwritten (st : CmdState) (chunks : List Bytes) :
    (chunks.foldl (connFeed hash envs) (Session.start st)).written = [] ∧
      (chunks.foldl (connFeed hash envs) (Session.start st)).conn.outSent = 0 := by
  induction chunks using List.reverseRecOn with
  | nil => exact ⟨rfl, rfl⟩
  | append_singleton chunks x ih =>
    rw [List.foldl_append]
    exact connFeed_unwritten _ x ih.1 ih.2

theorem Session.Tracks.out {st : CmdState} {s : Session} {d : Drained UInt8 Command ProtoError}
    (h : s.Tracks hash envs st d) (hu : s.written = [] ∧ s.conn.outSent = 0) :
    s.conn.out = (execFrom hash envs 0 st d.cmds).2.flatten ++ errorReply d.err := by
  have hr := h.replied
  rwa [hu.1, hu.2, List.nil_append, List.drop_zero] at hr

theorem conn_process_input_chunk_independent (hash : Bytes → UInt64) (envs : Nat → Env)
    (st : CmdState) (chunks : List Bytes) :
    let chunked := chunks.foldl (connFeed hash envs) (Session.start st)
    let whole := connFeed hash envs (Session.start st) chunks.flatten
    chunked.dispatched <+: whole.dispatched ∧
    ((∀ e, chunked.parseError = some e → e.isLimit = false) →
      chunked.dispatched = whole.dispatched ∧ chunked.conn.out = whole.conn.out ∧
      chunked.state = whole.state ∧ chunked.conn.closing = whole.conn.closing ∧
      (chunked.conn.closing = false →
        chunked.conn.inBuf = whole.conn.inBuf ∧ respParse chunked.conn.inBuf = .incomplete)) := by
  intro chunked whole
  have hc : chunked.Tracks hash envs st (respParser.feedAll chunks) := .feedAll chunks
  have hw : whole.Tracks hash envs st (respParser.drain chunks.flatten) := by
    have h := @Session.Tracks.feedAll hash envs st [chunks.flatten]
    rwa [Parser.feedAll_singleton] at h
  have hco := hc.out (foldl_connFeed_unwritten st chunks)
  have hwo := hw.out (connFeed_unwritten _ _ rfl rfl)
  refine ⟨?_, fun hlim => ?_⟩
  · rw [hc.dispatched, hw.dispatched]
    exact Parser.feedAll_initial chunks
  · have hcmds : (respParser.feedAll chunks).cmds = (respParser.drain chunks.flatten).cmds ∧
        (respParser.feedAll chunks).err = (respParser.drain chunks.flatten).err := by
      cases he : (respParser.feedAll chunks).err with
      | none => exact ⟨by rw [Parser.feedAll_of_none he], by rw [← Parser.feedAll_of_none he, he]⟩
      | some e =>
        have hl : ¬ respParser.limit e := by
          simpa [respParser] using hlim e (hc.parseError.trans he)
        exact (Parser.feedAll_of_hard he hl).imp_right Eq.symm
    refine ⟨by rw [hc.dispatched, hw.dispatched, hcmds.1], by rw [hco, hwo, hcmds.1, hcmds.2],
      by rw [hc.state, hw.state, hcmds.1], by rw [hc.closing, hw.closing, hcmds.2], fun hn => ?_⟩
    have hnone : (respParser.feedAll chunks).err = none := by
      simpa [hc.closing] using hn
    have hdrain := Parser.feedAll_of_none hnone
    rw [hc.rest hnone, hw.rest (hcmds.2.symm.trans hnone), hdrain]
    exact ⟨rfl, Parser.parse_rest_of_none (hcmds.2.symm.trans hnone)⟩

end RedisServer

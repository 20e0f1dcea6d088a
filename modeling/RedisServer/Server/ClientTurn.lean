import RedisServer.Server.Closing

namespace RedisServer

open Incremental

variable {hash : Bytes → UInt64} {envs : Nat → Env}

-- the bytes that end up in in_buf, of those the read calls hand over
def readTaken : List ReadResult → Nat → Bytes
  | [], _ => []
  | .data buf :: rs, n =>
    if maxConnInputBuf < n + buf.length then []
    else if buf.length < readChunk then buf
    else buf ++ readTaken rs (n + buf.length)
  | .eintr :: rs, n => readTaken rs n
  | .eof :: _, _ => []
  | .eagain :: _, _ => []
  | .fail :: _, _ => []

def ConnReady.taken (e : ConnReady) (s : Session) : Bytes :=
  if s.closed ∨ e.hup ∨ e.readable = false then [] else readTaken e.reads s.conn.inBuf.length

def IsErrorLine (line : Bytes) : Prop :=
  line = respReplyError inputLimitMsg ∨ ∃ e : ProtoError, line = respReplyError e.msg

structure SameWork (s s' : Session) : Prop where
  inBuf : s'.conn.inBuf = s.conn.inBuf
  state : s'.state = s.state
  parseError : s'.parseError = s.parseError
  dispatched : s'.dispatched = s.dispatched
  closing : s'.conn.closing = s.conn.closing

theorem SameWork.trans {s s' s'' : Session} (h : SameWork s s') (h' : SameWork s' s'') :
    SameWork s s'' :=
  ⟨h'.inBuf.trans h.inBuf, h'.state.trans h.state, h'.parseError.trans h.parseError,
    h'.dispatched.trans h.dispatched, h'.closing.trans h.closing⟩

theorem connFlushOutput_work (ws : List WriteResult) (s : Session) :
    SameWork s (connFlushOutput ws s).1 := by
  induction ws generalizing s with
  | nil =>
    rw [connFlushOutput]
    split_ifs <;> exact ⟨rfl, rfl, rfl, rfl, rfl⟩
  | cons w ws ih =>
    have next (n : Nat) : SameWork s (connFlushOutput ws (connSend s n)).1 := by
      have hsend : SameWork s (connSend s n) := ⟨rfl, rfl, rfl, rfl, rfl⟩
      exact hsend.trans (ih (connSend s n))
    cases w with
    | all =>
      rw [connFlushOutput]
      split_ifs
      · exact next _
      · exact ⟨rfl, rfl, rfl, rfl, rfl⟩
    | sent n =>
      rw [connFlushOutput]
      split_ifs
      · exact next _
      · exact ⟨rfl, rfl, rfl, rfl, rfl⟩
      · exact ⟨rfl, rfl, rfl, rfl, rfl⟩
    | eintr =>
      rw [connFlushOutput]
      split_ifs
      · exact ih s
      · exact ⟨rfl, rfl, rfl, rfl, rfl⟩
    | eagain =>
      rw [connFlushOutput]
      split_ifs <;> exact ⟨rfl, rfl, rfl, rfl, rfl⟩
    | fail =>
      rw [connFlushOutput]
      split_ifs <;> exact ⟨rfl, rfl, rfl, rfl, rfl⟩

theorem connServiceOutput_work (ws : List WriteResult) (s : Session) :
    SameWork s (connServiceOutput ws s) := by
  have hw := connFlushOutput_work ws s
  rw [connServiceOutput]
  generalize connFlushOutput ws s = r at hw
  obtain ⟨s', f⟩ := r
  cases f with
  | failed => exact hw.trans ⟨rfl, rfl, rfl, rfl, rfl⟩
  | pending => exact hw.trans ⟨rfl, rfl, rfl, rfl, rfl⟩
  | flushed =>
    simp only
    split_ifs
    · exact hw.trans ⟨rfl, rfl, rfl, rfl, rfl⟩
    · exact hw.trans ⟨rfl, rfl, rfl, rfl, rfl⟩

-- what is marked for close and still open waits for its output to drain
theorem connServiceOutput_waits (ws : List WriteResult) {s : Session}
    (hopen : (connServiceOutput ws s).closed = false)
    (hclosing : (connServiceOutput ws s).conn.closing = true) :
    (connServiceOutput ws s).conn.wantWrite = true := by
  revert hopen hclosing
  rw [connServiceOutput]
  generalize connFlushOutput ws s = r
  obtain ⟨s', f⟩ := r
  cases f with
  | failed => exact fun hopen => Bool.noConfusion hopen
  | pending => exact fun _ _ => rfl
  | flushed =>
    simp only
    split_ifs with hc
    · exact fun hopen => Bool.noConfusion hopen
    · exact fun _ hclosing => absurd hclosing hc

structure ReadWork (rs : List ReadResult) (s s' : Session) : Prop where
  inBuf : s'.conn.inBuf = s.conn.inBuf ++ readTaken rs s.conn.inBuf.length
  state : s'.state = s.state
  parseError : s'.parseError = s.parseError

theorem readLoop_work (rs : List ReadResult) (s : Session) : ReadWork rs s (readLoop rs s).1 := by
  induction rs generalizing s with
  | nil => exact ⟨(List.append_nil _).symm, rfl, rfl⟩
  | cons r rs ih =>
    cases r with
    | data buf =>
      simp only [readLoop]
      split_ifs with hcap hlast
      · exact ⟨by simp [readTaken, hcap, connReply], rfl, rfl⟩
      · exact ⟨by simp [readTaken, hcap, hlast, connInAppend], rfl, rfl⟩
      · have hnext := ih { s with conn := connInAppend s.conn buf }
        refine ⟨?_, hnext.state, hnext.parseError⟩
        rw [hnext.inBuf]
        simp [readTaken, hcap, hlast, connInAppend]
    | eof => exact ⟨(List.append_nil _).symm, rfl, rfl⟩
    | eintr => exact ⟨(ih s).inBuf, (ih s).state, (ih s).parseError⟩
    | eagain => exact ⟨(List.append_nil _).symm, rfl, rfl⟩
    | fail => exact ⟨(List.append_nil _).symm, rfl, rfl⟩

-- one turn of the event loop for a connection: cmds are the commands it executes, tail the lines
-- that are not replies to commands
structure TurnOk (hash : Bytes → UInt64) (envs : Nat → Env) (taken : Bytes) (s s' : Session)
    (cmds : List Command) (tail : List Bytes) : Prop where
  dispatched : s'.dispatched = s.dispatched ++ cmds
  state : s'.state = (execFrom hash envs s.dispatched.length s.state cmds).1
  consumed : respParser.Consumes (s.conn.inBuf ++ taken) cmds s'.conn.inBuf
  delivered : s'.delivered = s.delivered ++
    (execFrom hash envs s.dispatched.length s.state cmds).2.flatten ++ tail.flatten
  lines : ∀ line ∈ tail, IsErrorLine line
  closing : tail ≠ [] ∨ s.conn.closing = true → s'.conn.closing = true
  silent : s.conn.closing = true → cmds = []

theorem TurnOk.idle {s s' : Session} {taken : Bytes} {tail : List Bytes}
    (hdispatched : s'.dispatched = s.dispatched) (hstate : s'.state = s.state)
    (hin : s'.conn.inBuf = s.conn.inBuf ++ taken)
    (hdelivered : s'.delivered = s.delivered ++ tail.flatten)
    (hlines : ∀ line ∈ tail, IsErrorLine line)
    (hclosing : tail ≠ [] ∨ s.conn.closing = true → s'.conn.closing = true) :
    TurnOk hash envs taken s s' [] tail where
  dispatched := by rw [hdispatched, List.append_nil]
  state := hstate
  consumed := by
    rw [← hin]
    exact .nil _
  delivered := by
    rw [hdelivered]
    simp [execFrom, timed, Machine.run]
  lines := hlines
  closing := hclosing
  silent _ := rfl

theorem readLoop_turn (rs : List ReadResult) {s : Session}
    (h : s.conn.outSent ≤ s.conn.out.length) :
    TurnOk hash envs (readTaken rs s.conn.inBuf.length) s (readLoop rs s).1 [] (readReplies rs s) := by
  have hok := readLoop_ok rs s
  have hwork := readLoop_work rs s
  refine .idle hok.dispatched hwork.state hwork.inBuf (readLoop_queues rs h).delivered ?_ ?_
  · rw [hok.replies]
    intro line hline
    split at hline
    case isTrue => exact .inl (List.mem_singleton.mp hline)
    case isFalse => cases hline
  · rw [hok.replies, hok.closing, Bool.or_eq_true]
    rintro (hover | hclosing)
    · right
      by_contra hno
      exact hover (if_neg hno)
    · exact .inl hclosing

theorem processInput_turn {s : Session} (h : s.conn.outSent ≤ s.conn.out.length)
    (hc : s.conn.closing = false) (he : s.parseError = none) :
    ∃ cmds tail, TurnOk hash envs [] s (connProcessInput hash envs s) cmds tail := by
  rw [connProcessInput_eq hash envs hc he]
  have hd := Parser.drain_consumes (P := respParser) s.conn.inBuf
  refine ⟨(respParser.drain s.conn.inBuf).cmds,
    ((respParser.drain s.conn.inBuf).err.map (fun e => respReplyError e.msg)).toList, rfl, rfl,
    ?_, ?_, ?_, ?_, fun hcl => absurd (hc.symm.trans hcl) nofun⟩
  · rw [List.append_nil]
    exact hd
  · have herr : ((respParser.drain s.conn.inBuf).err.map
        (fun e => respReplyError e.msg)).toList.flatten =
        errorReply (respParser.drain s.conn.inBuf).err := by
      cases (respParser.drain s.conn.inBuf).err <;> simp [errorReply]
    rw [herr, Session.delivered, Session.delivered]
    simp only [Session.advance, List.append_assoc]
    rw [List.drop_append_of_le_length h]
  · intro line hline
    obtain ⟨e, -, rfl⟩ := Option.map_eq_some_iff.mp (Option.mem_toList.mp hline)
    exact .inr ⟨e, rfl⟩
  · rintro (htail | hcl)
    · cases herr : (respParser.drain s.conn.inBuf).err with
      | none => simp [herr] at htail
      | some e => simp [Session.advance, herr]
    · rw [hc] at hcl
      cases hcl

theorem TurnOk.trans {s s' s'' : Session} {x y : Bytes} {cmds cmds' : List Command}
    {tail tail' : List Bytes} (h : TurnOk hash envs x s s' cmds tail)
    (h' : TurnOk hash envs y s' s'' cmds' tail') (hmid : tail ≠ [] → cmds' = []) :
    TurnOk hash envs (x ++ y) s s'' (cmds ++ cmds') (tail ++ tail') where
  dispatched := by rw [h'.dispatched, h.dispatched, List.append_assoc]
  state := by
    rw [h'.state, h.state, execFrom_append, h.dispatched, List.length_append]
  consumed := by
    rw [← List.append_assoc]
    exact (h.consumed.append y).trans h'.consumed
  delivered := by
    have hsecond : execFrom hash envs s'.dispatched.length s'.state cmds' =
        execFrom hash envs (s.dispatched.length + cmds.length)
          (execFrom hash envs s.dispatched.length s.state cmds).1 cmds' := by
      rw [h.dispatched, h.state, List.length_append]
    rw [h'.delivered, h.delivered, hsecond, execFrom_append]
    by_cases ht : tail = []
    · simp [ht]
    · have hnil := hmid ht
      subst hnil
      simp [execFrom, timed, Machine.run]
  lines line hline := (List.mem_append.mp hline).elim (h.lines line) (h'.lines line)
  closing := by
    rintro (htail | hcl)
    · refine h'.closing ?_
      by_cases ht : tail' = []
      · refine .inr (h.closing (.inl ?_))
        rintro rfl
        exact htail (by simp [ht])
      · exact .inl ht
    · exact h'.closing (.inr (h.closing (.inr hcl)))
  silent hcl := by
    rw [h.silent hcl, h'.silent (h.closing (.inr hcl))]
    rfl

-- how every turn leaves a connection
structure Resting (s : Session) : Prop where
  sent_le : s.conn.outSent ≤ s.conn.out.length
  armed : s.closed = false → (s.conn.wantWrite = true ↔ s.conn.outSent < s.conn.out.length)
  waits : s.closed = false → s.conn.closing = true → s.conn.outSent < s.conn.out.length
  parsed : s.closed = false → s.conn.closing = false →
    respParse s.conn.inBuf = .incomplete ∧ s.parseError = none

theorem Resting.start (st : CmdState) : Resting (Session.start st) where
  sent_le := le_rfl
  armed _ := iff_of_false nofun (by simp [Session.start, connCreate])
  waits _ := nofun
  parsed _ _ := ⟨respParser.parse_nil, rfl⟩

theorem Resting.of_closed {s : Session} (hsent : s.conn.outSent ≤ s.conn.out.length)
    (hclosed : s.closed = true) : Resting s where
  sent_le := hsent
  armed hopen := absurd (hclosed.symm.trans hopen) nofun
  waits hopen := absurd (hclosed.symm.trans hopen) nofun
  parsed hopen := absurd (hclosed.symm.trans hopen) nofun

theorem connServiceOutput_turn {s : Session} (ws : List WriteResult)
    (h : s.conn.outSent ≤ s.conn.out.length) :
    TurnOk hash envs [] s (connServiceOutput ws s) [] [] := by
  have hwork := connServiceOutput_work ws s
  refine .idle hwork.dispatched hwork.state (by rw [hwork.inBuf, List.append_nil])
    (connServiceOutput_ok ws h).delivered nofun ?_
  rw [hwork.closing]
  exact fun hcl => hcl.resolve_left (fun hne => hne rfl)

theorem connServiceOutput_rests (ws : List WriteResult) {s : Session}
    (h : s.conn.outSent ≤ s.conn.out.length)
    (hp : s.conn.closing = false → respParse s.conn.inBuf = .incomplete ∧ s.parseError = none) :
    Resting (connServiceOutput ws s) := by
  have hok := connServiceOutput_ok ws h
  have hwork := connServiceOutput_work ws s
  refine ⟨hok.sent_le, hok.armed, ?_, ?_⟩
  · intro hopen hclosing
    exact (hok.armed hopen).mp (connServiceOutput_waits ws hopen hclosing)
  · intro _ hclosing
    rw [hwork.inBuf, hwork.parseError]
    exact hp (hwork.closing ▸ hclosing)

theorem connProcessInput_rests {s : Session} (hc : s.conn.closing = false)
    (he : s.parseError = none) (hclosing : (connProcessInput hash envs s).conn.closing = false) :
    respParse (connProcessInput hash envs s).conn.inBuf = .incomplete ∧
      (connProcessInput hash envs s).parseError = none := by
  rw [connProcessInput_eq hash envs hc he] at hclosing ⊢
  have herr : (respParser.drain s.conn.inBuf).err = none := by
    simpa [Session.advance] using hclosing
  exact ⟨Parser.parse_rest_of_none herr, herr⟩

theorem handleClientReadable_turn (ws : List WriteResult) (rs : List ReadResult) {s : Session}
    (h : Resting s) (hopen : s.closed = false) :
    ∃ cmds tail, TurnOk hash envs (readTaken rs s.conn.inBuf.length) s
        (handleClientReadable hash envs ws rs s).1 cmds tail ∧
      Resting (handleClientReadable hash envs ws rs s).1 := by
  have hread : TurnOk hash envs _ s _ _ _ := readLoop_turn rs h.sent_le
  have hsent := (readLoop_queues rs h.sent_le).sent_le
  have hwork := readLoop_work rs s
  have hclosing := (readLoop_ok rs s).closing
  rw [handleClientReadable]
  generalize readLoop rs s = p at hread hsent hwork hclosing
  obtain ⟨r, rest⟩ := p
  simp only at hread hsent hwork hclosing ⊢
  by_cases hclosed : r.closed = true
  · rw [if_pos hclosed]
    exact ⟨[], _, hread, .of_closed hsent hclosed⟩
  · rw [if_neg hclosed]
    by_cases hrc : r.conn.closing = true
    · rw [if_pos hrc]
      have hout := hread.trans (connServiceOutput_turn ws hsent) (fun _ => rfl)
      rw [List.append_nil] at hout
      exact ⟨_, _, hout, connServiceOutput_rests ws hsent
        (fun hno => Bool.noConfusion (hrc.symm.trans hno))⟩
    · have hrc' : r.conn.closing = false := by simpa using hrc
      rw [if_neg hrc]
      have hsc : s.conn.closing = false := by
        rw [hrc'] at hclosing
        exact (Bool.or_eq_false_iff.mp hclosing.symm).1
      have herr : r.parseError = none := hwork.parseError.trans (h.parsed hopen hsc).2
      have hquiet : readReplies rs s = [] := by
        by_contra hne
        have hcl := hread.closing (.inl hne)
        rw [hrc'] at hcl
        cases hcl
      obtain ⟨cmds, tail, hproc⟩ := processInput_turn hsent hrc' herr
      have hsent' : (connProcessInput hash envs r).conn.outSent ≤
          (connProcessInput hash envs r).conn.out.length :=
        (connProcessFuel_queues r.conn.inBuf.length hsent).sent_le
      have hin := hread.trans hproc (fun hne => absurd hquiet hne)
      have hout := hin.trans (connServiceOutput_turn ws hsent') (fun _ => rfl)
      rw [List.append_nil, List.append_nil] at hout
      exact ⟨_, _, hout,
        connServiceOutput_rests ws hsent' (connProcessInput_rests hrc' herr)⟩

theorem TurnOk.refl (s : Session) : TurnOk hash envs [] s s [] [] :=
  .idle rfl rfl (List.append_nil _).symm (List.append_nil _).symm (by simp)
    (fun hcl => hcl.resolve_left (fun hne => hne rfl))

theorem connReadable_turn (e : ConnReady) {s : Session} (h : Resting s) (hopen : s.closed = false)
    (hhup : ¬ e.hup = true) :
    ∃ cmds tail, TurnOk hash envs (e.taken s) s (connReadable hash envs e s) cmds tail ∧
      Resting (connReadable hash envs e s) := by
  rw [connReadable, ConnReady.taken]
  by_cases hr : e.readable = true
  · have hskip : ¬ (s.closed = true ∨ e.hup = true ∨ e.readable = false) := by
      simp [hopen, hhup, hr]
    rw [if_pos hr, if_neg hskip]
    exact handleClientReadable_turn e.replyWrites e.reads h hopen
  · have hskip : s.closed = true ∨ e.hup = true ∨ e.readable = false := .inr (.inr (by simpa using hr))
    rw [if_neg hr, if_pos hskip]
    exact ⟨[], [], .refl s, h⟩

theorem connWritable_turn (e : ConnReady) {s : Session} (h : Resting s) :
    TurnOk hash envs [] s (connWritable e s) [] [] ∧ Resting (connWritable e s) := by
  rw [connWritable]
  by_cases hc : s.closed = true
  · rw [if_pos hc]
    exact ⟨.refl s, h⟩
  · have hopen : s.closed = false := by simpa using hc
    rw [if_neg hc]
    split_ifs
    · exact ⟨connServiceOutput_turn e.writes h.sent_le,
        connServiceOutput_rests e.writes h.sent_le (h.parsed hopen)⟩
    · exact ⟨.refl s, h⟩

theorem connReady_turn (e : ConnReady) {s : Session} (h : Resting s) :
    ∃ cmds tail, TurnOk hash envs (e.taken s) s (connReady hash envs e s) cmds tail ∧
      Resting (connReady hash envs e s) := by
  rw [connReady]
  by_cases hc : s.closed = true
  · rw [if_pos hc, ConnReady.taken, if_pos (.inl hc)]
    exact ⟨[], [], .refl s, h⟩
  · have hopen : s.closed = false := by simpa using hc
    rw [if_neg hc]
    by_cases hhup : e.hup = true
    · rw [if_pos hhup, ConnReady.taken, if_pos (.inr (.inl hhup))]
      have hclose : TurnOk hash envs [] s (connClose s) [] [] :=
        .idle rfl rfl (List.append_nil _).symm (List.append_nil _).symm (by simp)
          (fun hcl => hcl.resolve_left (fun hne => hne rfl))
      exact ⟨[], [], hclose, .of_closed h.sent_le rfl⟩
    · rw [if_neg hhup]
      obtain ⟨cmds, tail, hread, hrests⟩ := connReadable_turn e h hopen hhup
      obtain ⟨hwrite, hrests'⟩ := @connWritable_turn hash envs e _ hrests
      have hout := hread.trans hwrite (fun _ => rfl)
      simp only [List.append_nil] at hout
      exact ⟨cmds, tail, hout, hrests'⟩

end RedisServer

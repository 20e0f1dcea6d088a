import RedisServer.Server.Chunking

namespace RedisServer

variable (hash : Bytes → UInt64) (envs : Nat → Env)

-- what epoll_wait reports for the connection, with the results of the calls its handlers make
structure ConnReady where
  hup : Bool
  readable : Bool
  writable : Bool
  reads : List ReadResult
  replyWrites : List WriteResult
  writes : List WriteResult

-- others stands for what the other connections do to the shared command state in between
inductive LoopEvent where
  | ready (e : ConnReady)
  | others (st : CmdState)

def connReadable (e : ConnReady) (s : Session) : Session :=
  if e.readable then (handleClientReadable hash envs e.replyWrites e.reads s).1 else s

-- the connection is looked up again behind handle_client_readable
def connWritable (e : ConnReady) (s : Session) : Session :=
  if s.closed then s
  else if e.writable then connServiceOutput e.writes s
  else s

-- the body of the event loop for one fd
def connReady (e : ConnReady) (s : Session) : Session :=
  if s.closed then s
  else if e.hup then connClose s
  else connWritable e (connReadable hash envs e s)

def Session.afterCommand (s : Session) (cmd : Command) (consumed : Nat) : Session :=
  { s with
    conn := connInConsume
      (connReply s.conn (cmdDispatch hash (envs s.dispatched.length) s.state cmd).2) consumed
    state := (cmdDispatch hash (envs s.dispatched.length) s.state cmd).1
    dispatched := s.dispatched ++ [cmd] }

-- the replies that conn_process_input, the read loop and one turn of the event loop append to out
def processReplies : Nat → Session → List Bytes
  | 0, _ => []
  | fuel + 1, s =>
    if 0 < s.conn.inBuf.length ∧ s.conn.closing = false then
      match respParse s.conn.inBuf with
      | .incomplete => []
      | .error e => [respReplyError e.msg]
      | .ok cmd consumed =>
        (cmdDispatch hash (envs s.dispatched.length) s.state cmd).2 ::
          processReplies fuel (s.afterCommand hash envs cmd consumed)
    else []

def readReplies : List ReadResult → Session → List Bytes
  | [], _ => []
  | .data buf :: rs, s =>
    if maxConnInputBuf < s.conn.inBuf.length + buf.length then [respReplyError inputLimitMsg]
    else if buf.length < readChunk then []
    else readReplies rs { s with conn := connInAppend s.conn buf }
  | .eintr :: rs, s => readReplies rs s
  | .eof :: _, _ => []
  | .eagain :: _, _ => []
  | .fail :: _, _ => []

def inputReplies (s : Session) : List Bytes :=
  if s.closed ∨ s.conn.closing then [] else processReplies hash envs s.conn.inBuf.length s

def readyReplies (e : ConnReady) (s : Session) : List Bytes :=
  if s.closed ∨ e.hup ∨ e.readable = false then []
  else readReplies e.reads s ++ inputReplies hash envs (readLoop e.reads s).1

def loopStep (s : Session) : LoopEvent → Session × List Bytes
  | .ready e => (connReady hash envs e s, readyReplies hash envs e s)
  | .others st => ({ s with state := st }, [])

variable {hash envs}

def Session.delivered (s : Session) : Bytes := s.written ++ s.conn.out.drop s.conn.outSent

structure Queues (s s' : Session) (rs : List Bytes) : Prop where
  sent_le : s'.conn.outSent ≤ s'.conn.out.length
  delivered : s'.delivered = s.delivered ++ rs.flatten

namespace Queues

variable {s s' s'' : Session} {rs rs' : List Bytes}

theorem refl (h : s.conn.outSent ≤ s.conn.out.length) : Queues s s [] := ⟨h, by simp⟩

theorem trans (h : Queues s s' rs) (h' : Queues s' s'' rs') : Queues s s'' (rs ++ rs') :=
  ⟨h'.sent_le, by rw [h'.delivered, h.delivered, List.flatten_append, List.append_assoc]⟩

theorem reply (h : s.conn.outSent ≤ s.conn.out.length) (r : Bytes) (ho : s'.conn.out = s.conn.out ++ r)
    (hs : s'.conn.outSent = s.conn.outSent) (hw : s'.written = s.written) : Queues s s' [r] := by
  refine ⟨?_, ?_⟩
  · rw [ho, hs, List.length_append]
    omega
  · rw [Session.delivered, Session.delivered, ho, hs, hw, List.drop_append_of_le_length h]
    simp

theorem same (h : s.conn.outSent ≤ s.conn.out.length) (ho : s'.conn.out = s.conn.out)
    (hs : s'.conn.outSent = s.conn.outSent) (hw : s'.written = s.written) : Queues s s' [] := by
  refine ⟨by rwa [ho, hs], ?_⟩
  rw [Session.delivered, Session.delivered, ho, hs, hw]
  simp

end Queues

theorem connProcessFuel_queues (fuel : Nat) {s : Session}
    (h : s.conn.outSent ≤ s.conn.out.length) :
    Queues s (connProcessFuel hash envs fuel s) (processReplies hash envs fuel s) := by
  induction fuel generalizing s with
  | zero => exact .refl h
  | succ fuel ih =>
    rw [connProcessFuel, processReplies]
    split_ifs
    · cases hp : respParse s.conn.inBuf with
      | incomplete => exact .refl h
      | error e => exact .reply h _ rfl rfl rfl
      | ok cmd consumed =>
        have hfirst : Queues s (s.afterCommand hash envs cmd consumed)
            [(cmdDispatch hash (envs s.dispatched.length) s.state cmd).2] :=
          .reply h _ rfl rfl rfl
        exact hfirst.trans (ih hfirst.sent_le)
    · exact .refl h

theorem readLoop_queues (rs : List ReadResult) {s : Session}
    (h : s.conn.outSent ≤ s.conn.out.length) : Queues s (readLoop rs s).1 (readReplies rs s) := by
  induction rs generalizing s with
  | nil => exact .refl h
  | cons r rs ih =>
    cases r with
    | data buf =>
      simp only [readLoop, readReplies]
      split_ifs
      · exact .reply h _ rfl rfl rfl
      · exact .same h rfl rfl rfl
      · have hfirst : Queues s { s with conn := connInAppend s.conn buf } [] := .same h rfl rfl rfl
        exact hfirst.trans (ih h)
    | eof => exact .same h rfl rfl rfl
    | eintr => exact ih h
    | eagain => exact .refl h
    | fail => exact .same h rfl rfl rfl

theorem connSend_queues {s : Session} {n : Nat} (h : s.conn.outSent + n ≤ s.conn.out.length) :
    Queues s (connSend s n) [] := by
  refine ⟨h, ?_⟩
  simp only [Session.delivered, connSend, slice, List.flatten_nil, List.append_nil, List.append_assoc]
  rw [← List.drop_drop, List.take_append_drop]

theorem connOutReset_queues {s : Session} (h : s.conn.outSent ≤ s.conn.out.length)
    (hall : ¬ s.conn.outSent < s.conn.out.length) : Queues s (connOutReset s) [] := by
  refine ⟨le_rfl, ?_⟩
  simp only [Session.delivered, connOutReset, List.drop_nil, List.flatten_nil, List.append_nil]
  rw [List.drop_of_length_le (by omega), List.append_nil]

def WriteError (ws : List WriteResult) : Prop := .fail ∈ ws ∨ .sent 0 ∈ ws

def PeerGone (rs : List ReadResult) : Prop := .eof ∈ rs ∨ .fail ∈ rs

structure FlushOk (ws : List WriteResult) (s s' : Session) (f : Flush) : Prop
    extends Queues s s' [] where
  flushed : f = .flushed → s'.conn.out = []
  pending : f = .pending → s'.conn.outSent < s'.conn.out.length
  failed : f = .failed → WriteError ws

theorem FlushOk.cons {ws : List WriteResult} {w : WriteResult} {s s' s'' : Session} {f : Flush}
    (hq : Queues s s' []) (h : FlushOk ws s' s'' f) : FlushOk (w :: ws) s s'' f where
  toQueues := hq.trans h.toQueues
  flushed := h.flushed
  pending := h.pending
  failed hf := (h.failed hf).imp (List.mem_cons_of_mem _) (List.mem_cons_of_mem _)

theorem connFlushOutput_ok (ws : List WriteResult) {s : Session}
    (h : s.conn.outSent ≤ s.conn.out.length) :
    FlushOk ws s (connFlushOutput ws s).1 (connFlushOutput ws s).2 := by
  induction ws generalizing s with
  | nil =>
    rw [connFlushOutput]
    split_ifs with hlt
    · exact ⟨.refl h, nofun, fun _ => hlt, nofun⟩
    · exact ⟨connOutReset_queues h hlt, fun _ => rfl, nofun, nofun⟩
  | cons w ws ih =>
    by_cases hlt : s.conn.outSent < s.conn.out.length
    · have next {n : Nat} (hn : s.conn.outSent + n ≤ s.conn.out.length) :
          FlushOk (w :: ws) s (connFlushOutput ws (connSend s n)).1
            (connFlushOutput ws (connSend s n)).2 :=
        .cons (connSend_queues hn) (ih hn)
      cases w with
      | all =>
        simp only [connFlushOutput, if_pos hlt]
        exact next (by omega)
      | sent n =>
        simp only [connFlushOutput, if_pos hlt]
        split_ifs with hn
        · exact next (by omega)
        · obtain rfl : n = 0 := by omega
          exact ⟨.refl h, nofun, nofun, fun _ => .inr (by simp)⟩
      | eintr =>
        simp only [connFlushOutput, if_pos hlt]
        exact .cons (.refl h) (ih h)
      | eagain =>
        simp only [connFlushOutput, if_pos hlt]
        exact ⟨.refl h, nofun, fun _ => hlt, nofun⟩
      | fail =>
        simp only [connFlushOutput, if_pos hlt]
        exact ⟨.refl h, nofun, nofun, fun _ => .inl (by simp)⟩
    · simp only [connFlushOutput, if_neg hlt]
      exact ⟨connOutReset_queues h hlt, fun _ => rfl, nofun, nofun⟩

structure SameInput (s s' : Session) : Prop where
  closing : s'.conn.closing = s.conn.closing
  dispatched : s'.dispatched = s.dispatched
  closed : s'.closed = s.closed

theorem connFlushOutput_input (ws : List WriteResult) (s : Session) :
    SameInput s (connFlushOutput ws s).1 := by
  induction ws generalizing s with
  | nil =>
    rw [connFlushOutput]
    split_ifs <;> exact ⟨rfl, rfl, rfl⟩
  | cons w ws ih =>
    have next (n : Nat) : SameInput s (connFlushOutput ws (connSend s n)).1 :=
      ⟨(ih _).closing, (ih _).dispatched, (ih _).closed⟩
    cases w with
    | all =>
      rw [connFlushOutput]
      split_ifs
      · exact next _
      · exact ⟨rfl, rfl, rfl⟩
    | sent n =>
      rw [connFlushOutput]
      split_ifs
      · exact next _
      · exact ⟨rfl, rfl, rfl⟩
      · exact ⟨rfl, rfl, rfl⟩
    | eintr =>
      rw [connFlushOutput]
      split_ifs
      · exact ih s
      · exact ⟨rfl, rfl, rfl⟩
    | eagain =>
      rw [connFlushOutput]
      split_ifs <;> exact ⟨rfl, rfl, rfl⟩
    | fail =>
      rw [connFlushOutput]
      split_ifs <;> exact ⟨rfl, rfl, rfl⟩

structure EventOk (broken : Prop) (s s' : Session) (rs : List Bytes) : Prop extends Queues s s' rs where
  armed : s'.closed = false → (s'.conn.wantWrite = true ↔ s'.conn.outSent < s'.conn.out.length)
  closed : s.closed = false → s'.closed = true →
    broken ∨ s'.conn.closing = true ∧ s'.conn.out = []

theorem EventOk.mono {b b' : Prop} {s s' : Session} {rs : List Bytes} (h : EventOk b s s' rs)
    (hb : b → b') : EventOk b' s s' rs :=
  ⟨h.toQueues, h.armed, fun hs hs' => (h.closed hs hs').imp_left hb⟩

theorem connServiceOutput_ok (ws : List WriteResult) {s : Session}
    (h : s.conn.outSent ≤ s.conn.out.length) :
    EventOk (WriteError ws) s (connServiceOutput ws s) [] := by
  have hok := connFlushOutput_ok ws h
  have hin := connFlushOutput_input ws s
  rw [connServiceOutput]
  generalize connFlushOutput ws s = r at hok hin
  obtain ⟨s', f⟩ := r
  have hq : Queues s s' [] := hok.toQueues
  have hclosed (hs : s.closed = false) : s'.closed = false := hin.closed.trans hs
  cases f with
  | failed =>
    refine ⟨hq.trans (.same hq.sent_le rfl rfl rfl), nofun, fun _ _ => ?_⟩
    exact .inl (hok.failed rfl)
  | pending =>
    refine ⟨hq.trans (.same hq.sent_le rfl rfl rfl), fun _ => ?_, fun hs hs' => ?_⟩
    · exact iff_of_true rfl (hok.pending rfl)
    · exact absurd ((hclosed hs).symm.trans hs') nofun
  | flushed =>
    have hout : s'.conn.out = [] := hok.flushed rfl
    simp only
    split_ifs with hclosing
    · refine ⟨hq.trans (.same hq.sent_le rfl rfl rfl), nofun, fun _ _ => ?_⟩
      exact .inr ⟨hclosing, hout⟩
    · refine ⟨hq.trans (.same hq.sent_le rfl rfl rfl), fun _ => ?_, fun hs hs' => ?_⟩
      · refine iff_of_false nofun ?_
        simp [connArmWriteInterest, hout]
      · exact absurd ((hclosed hs).symm.trans hs') nofun

theorem readLoop_closed {rs : List ReadResult} {s : Session} (h : s.closed = false)
    (hc : (readLoop rs s).1.closed = true) : PeerGone rs := by
  induction rs generalizing s with
  | nil => exact absurd (h.symm.trans hc) nofun
  | cons r rs ih =>
    cases r with
    | data buf =>
      simp only [readLoop] at hc
      split_ifs at hc
      · exact absurd (h.symm.trans hc) nofun
      · exact absurd (h.symm.trans hc) nofun
      · exact (ih (s := { s with conn := connInAppend s.conn buf }) h hc).imp
          (List.mem_cons_of_mem _) (List.mem_cons_of_mem _)
    | eof => exact .inl (by simp)
    | eintr => exact (ih h hc).imp (List.mem_cons_of_mem _) (List.mem_cons_of_mem _)
    | eagain => exact absurd (h.symm.trans hc) nofun
    | fail => exact .inr (by simp)

theorem EventOk.after {b : Prop} {s s' s'' : Session} {rs : List Bytes} (h : EventOk b s' s'' [])
    (hq : Queues s s' rs) (hc : s'.closed = false) : EventOk b s s'' rs where
  toQueues := by simpa using hq.trans h.toQueues
  armed := h.armed
  closed _ := h.closed hc

theorem inputReplies_queues {s : Session} (h : s.conn.outSent ≤ s.conn.out.length)
    (hs : s.closed = false) :
    Queues s (if s.conn.closing then s else connProcessInput hash envs s)
      (inputReplies hash envs s) := by
  rw [inputReplies]
  by_cases hc : s.conn.closing = true
  · rw [if_pos hc, if_pos (.inr hc)]
    exact .refl h
  · rw [if_neg hc, if_neg (by simp [hs, hc])]
    exact connProcessFuel_queues _ h

theorem handleClientReadable_ok (ws : List WriteResult) (rs : List ReadResult) {s : Session}
    (h : s.conn.outSent ≤ s.conn.out.length) (hs : s.closed = false) :
    EventOk (PeerGone rs ∨ WriteError ws) s (handleClientReadable hash envs ws rs s).1
      (readReplies rs s ++ inputReplies hash envs (readLoop rs s).1) := by
  have hread := readLoop_queues rs h
  rw [handleClientReadable]
  cases hclosed : (readLoop rs s).1.closed with
  | true =>
    rw [if_pos rfl, inputReplies, if_pos (.inl hclosed), List.append_nil]
    exact ⟨hread, fun ho => absurd (hclosed.symm.trans ho) nofun,
      fun _ _ => .inl (.inl (readLoop_closed hs hclosed))⟩
  | false =>
    have hinput := @inputReplies_queues hash envs _ hread.sent_le hclosed
    have hopen : (if (readLoop rs s).1.conn.closing then (readLoop rs s).1
        else connProcessInput hash envs (readLoop rs s).1).closed = false := by
      split_ifs
      · exact hclosed
      · exact (connProcessInput_unwritten _).2.2.trans hclosed
    have hout := (connServiceOutput_ok ws hinput.sent_le).after (hread.trans hinput) hopen
    exact hout.mono .inr

def ConnReady.Broken (e : ConnReady) : Prop :=
  e.hup = true ∨ PeerGone e.reads ∨ WriteError e.replyWrites ∨ WriteError e.writes

theorem connReadable_ok (e : ConnReady) {s : Session} (h : s.conn.outSent ≤ s.conn.out.length)
    (hs : s.closed = false) (hhup : e.hup = false)
    (ha : s.conn.wantWrite = true ↔ s.conn.outSent < s.conn.out.length) :
    EventOk e.Broken s (connReadable hash envs e s) (readyReplies hash envs e s) := by
  rw [connReadable, readyReplies]
  cases hr : e.readable with
  | true =>
    rw [if_pos rfl, if_neg (by simp [hs, hhup])]
    exact (handleClientReadable_ok _ _ h hs).mono (fun hb => .inr (hb.imp_right .inl))
  | false =>
    rw [if_neg nofun, if_pos (.inr (.inr rfl))]
    exact ⟨.refl h, fun _ => ha, fun _ ho => absurd (hs.symm.trans ho) nofun⟩

theorem EventOk.writable {e : ConnReady} {s s' : Session} {rs : List Bytes}
    (h : EventOk e.Broken s s' rs) : EventOk e.Broken s (connWritable e s') rs := by
  rw [connWritable]
  split_ifs with hclosed
  · exact h
  · have hout := connServiceOutput_ok e.writes h.sent_le
    exact (hout.after h.toQueues (by simpa using hclosed)).mono (fun hb => .inr (.inr (.inr hb)))
  · exact h

theorem connReady_ok (e : ConnReady) {s : Session} (h : s.conn.outSent ≤ s.conn.out.length)
    (ha : s.closed = false → (s.conn.wantWrite = true ↔ s.conn.outSent < s.conn.out.length)) :
    EventOk e.Broken s (connReady hash envs e s) (readyReplies hash envs e s) := by
  rw [connReady]
  split_ifs with hs hhup
  · rw [readyReplies, if_pos (.inl hs)]
    exact ⟨.refl h, ha, fun ho => absurd (hs.symm.trans ho) nofun⟩
  · rw [readyReplies, if_pos (.inr (.inl hhup))]
    exact ⟨.same h rfl rfl rfl, nofun, fun _ _ => .inl (.inl hhup)⟩
  · have hopen : s.closed = false := by simpa using hs
    exact (connReadable_ok e h hopen (by simpa using hhup) (ha hopen)).writable

structure OutputOk (s : Session) (queued : List (List Bytes)) : Prop where
  sent_le : s.conn.outSent ≤ s.conn.out.length
  delivered : s.delivered = queued.flatten.flatten
  armed : s.closed = false → (s.conn.wantWrite = true ↔ s.conn.outSent < s.conn.out.length)

theorem OutputOk.step {s : Session} {queued : List (List Bytes)} (h : OutputOk s queued)
    (ev : LoopEvent) :
    OutputOk (loopStep hash envs s ev).1 (queued ++ [(loopStep hash envs s ev).2]) := by
  have hflat (rs : List Bytes) : (queued ++ [rs]).flatten.flatten =
      queued.flatten.flatten ++ rs.flatten := by simp
  cases ev with
  | ready e =>
    have he := @connReady_ok hash envs e s h.sent_le h.armed
    refine ⟨he.sent_le, ?_, he.armed⟩
    rw [hflat, ← h.delivered]
    exact he.delivered
  | others st =>
    refine ⟨h.sent_le, ?_, h.armed⟩
    rw [hflat, ← h.delivered]
    exact (List.append_nil _).symm

theorem OutputOk.run (st : CmdState) (evs : List LoopEvent) :
    OutputOk (Machine.run (loopStep hash envs) (Session.start st) evs).1
      (Machine.run (loopStep hash envs) (Session.start st) evs).2 := by
  have hstart : OutputOk (Session.start st) [] :=
    ⟨le_rfl, rfl, fun _ => iff_of_false nofun (by simp [Session.start, connCreate])⟩
  exact Machine.run_history (fun _ _ ev h => h.step ev) hstart evs

theorem no_reply_byte_lost (hash : Bytes → UInt64) (envs : Nat → Env) (st : CmdState)
    (evs : List LoopEvent) :
    let r := Machine.run (loopStep hash envs) (Session.start st) evs
    r.1.conn.outSent ≤ r.1.conn.out.length ∧
    r.1.written ++ r.1.conn.out.drop r.1.conn.outSent = r.2.flatten.flatten ∧
    -- and in the middle of an event: reads, commands and writes made so far
    (∀ rs fuel ws,
      let s := (connFlushOutput ws (connProcessFuel hash envs fuel (readLoop rs r.1).1)).1
      s.conn.outSent ≤ s.conn.out.length ∧
      s.written ++ s.conn.out.drop s.conn.outSent = r.2.flatten.flatten ++
        (readReplies rs r.1 ++ processReplies hash envs fuel (readLoop rs r.1).1).flatten) ∧
    (r.1.closed = false → (r.1.conn.wantWrite = true ↔ r.1.conn.outSent < r.1.conn.out.length)) ∧
    ∀ e, ¬ e.Broken → r.1.closed = false → (connReady hash envs e r.1).closed = true →
      (connReady hash envs e r.1).conn.closing = true ∧
        (connReady hash envs e r.1).written =
          r.2.flatten.flatten ++ (readyReplies hash envs e r.1).flatten := by
  intro r
  have hrun : OutputOk r.1 r.2 := .run st evs
  refine ⟨hrun.sent_le, hrun.delivered, fun rs fuel ws => ?_, hrun.armed,
    fun e hb hopen hclosed => ?_⟩
  · have hread := readLoop_queues rs hrun.sent_le
    have hinput := @connProcessFuel_queues hash envs fuel _ hread.sent_le
    have hflush := (connFlushOutput_ok ws hinput.sent_le).toQueues
    have hall := (hread.trans hinput).trans hflush
    rw [List.append_nil] at hall
    exact ⟨hall.sent_le, hrun.delivered ▸ hall.delivered⟩
  · have he := @connReady_ok hash envs e r.1 hrun.sent_le hrun.armed
    rcases he.closed hopen hclosed with hbroken | ⟨hclosing, hout⟩
    · exact absurd hbroken hb
    · have hdel := he.delivered
      rw [hrun.delivered, Session.delivered, hout, List.drop_nil, List.append_nil] at hdel
      exact ⟨hclosing, hdel⟩

example : (Machine.run (loopStep fnv1aHash quietEnv) (Session.start freshState)
    [.ready ⟨false, true, false, [.data (str "PING\r\n")], [.sent 2, .eagain], []⟩,
      .ready ⟨false, false, true, [], [], [.eintr, .all]⟩]).1.written = str "+PONG\r\n" := by
  decide +kernel

end RedisServer

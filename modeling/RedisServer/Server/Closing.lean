import RedisServer.Server.EventLoop

namespace RedisServer

variable {hash : Bytes → UInt64} {envs : Nat → Env}

-- one readable event takes the unparsed input, n bytes so far, over the cap
def overflows : List ReadResult → Nat → Bool
  | [], _ => false
  | .data buf :: rs, n =>
    decide (maxConnInputBuf < n + buf.length) ||
      (decide (readChunk ≤ buf.length) && overflows rs (n + buf.length))
  | .eintr :: rs, n => overflows rs n
  | .eof :: _, _ => false
  | .eagain :: _, _ => false
  | .fail :: _, _ => false

structure ReadOk (rs : List ReadResult) (s : Session) : Prop where
  replies : readReplies rs s =
    if overflows rs s.conn.inBuf.length then [respReplyError inputLimitMsg] else []
  closing : (readLoop rs s).1.conn.closing =
    (s.conn.closing || overflows rs s.conn.inBuf.length)
  dispatched : (readLoop rs s).1.dispatched = s.dispatched

theorem readLoop_ok (rs : List ReadResult) (s : Session) : ReadOk rs s := by
  induction rs generalizing s with
  | nil => exact ⟨rfl, by simp [readLoop, overflows], rfl⟩
  | cons r rs ih =>
    cases r with
    | data buf =>
      have hlen : (connInAppend s.conn buf).inBuf.length = s.conn.inBuf.length + buf.length :=
        List.length_append
      by_cases hcap : maxConnInputBuf < s.conn.inBuf.length + buf.length
      · refine ⟨?_, ?_, ?_⟩ <;> simp [readReplies, readLoop, overflows, hcap]
      · by_cases hlast : buf.length < readChunk
        · refine ⟨?_, ?_, ?_⟩ <;>
            simp [readReplies, readLoop, overflows, hcap, hlast, connInAppend]
        · have hnext := ih { s with conn := connInAppend s.conn buf }
          have hfull : readChunk ≤ buf.length := by omega
          refine ⟨?_, ?_, ?_⟩
          · simp [readReplies, overflows, hcap, hlast, hfull, hnext.replies, hlen]
          · have hclosing := hnext.closing
            rw [hlen] at hclosing
            simpa [readLoop, overflows, hcap, hlast, hfull, connInAppend] using hclosing
          · simpa [readLoop, hcap, hlast] using hnext.dispatched
    | eof => exact ⟨rfl, by simp [readLoop, overflows, connClose], rfl⟩
    | eintr => exact ⟨(ih s).replies, (ih s).closing, (ih s).dispatched⟩
    | eagain => exact ⟨rfl, by simp [readLoop, overflows], rfl⟩
    | fail => exact ⟨rfl, by simp [readLoop, overflows, connClose], rfl⟩

theorem connServiceOutput_closing (ws : List WriteResult) (s : Session) :
    (connServiceOutput ws s).conn.closing = s.conn.closing ∧
      (connServiceOutput ws s).dispatched = s.dispatched := by
  have hin := connFlushOutput_input ws s
  rw [connServiceOutput]
  generalize connFlushOutput ws s = r at hin
  obtain ⟨s', f⟩ := r
  cases f with
  | failed => exact ⟨hin.closing, hin.dispatched⟩
  | pending => exact ⟨hin.closing, hin.dispatched⟩
  | flushed =>
    simp only
    split_ifs
    · exact ⟨hin.closing, hin.dispatched⟩
    · exact ⟨hin.closing, hin.dispatched⟩

def ConnReady.Overflows (e : ConnReady) (s : Session) : Prop :=
  s.closed = false ∧ e.hup = false ∧ e.readable = true ∧
    overflows e.reads s.conn.inBuf.length = true

def LoopEvent.Overflows (s : Session) : LoopEvent → Prop
  | .ready e => e.Overflows s
  | .others _ => False

theorem handleClientReadable_closing {ws : List WriteResult} {rs : List ReadResult} {s : Session}
    (h : s.conn.closing = true) :
    (handleClientReadable hash envs ws rs s).1.conn.closing = true := by
  have hread : (readLoop rs s).1.conn.closing = true := by rw [(readLoop_ok rs s).closing, h]; rfl
  rw [handleClientReadable]
  split_ifs
  · exact hread
  · exact (connServiceOutput_closing ws _).1.trans hread

theorem connReadable_closing (e : ConnReady) {s : Session} (h : s.conn.closing = true) :
    (connReadable hash envs e s).conn.closing = true := by
  rw [connReadable]
  split_ifs
  · exact handleClientReadable_closing h
  · exact h

theorem connWritable_closing (e : ConnReady) (s : Session) :
    (connWritable e s).conn.closing = s.conn.closing ∧
      (connWritable e s).dispatched = s.dispatched := by
  rw [connWritable]
  split_ifs
  · exact ⟨rfl, rfl⟩
  · exact connServiceOutput_closing e.writes s
  · exact ⟨rfl, rfl⟩

theorem loopStep_closing {s : Session} (h : s.conn.closing = true) (ev : LoopEvent) :
    (loopStep hash envs s ev).1.conn.closing = true := by
  cases ev with
  | others st => exact h
  | ready e =>
    rw [loopStep, connReady]
    split_ifs
    · exact h
    · exact h
    · exact (connWritable_closing e _).1.trans (connReadable_closing e h)

theorem loopStep_overflow {s : Session} (h : s.conn.closing = true) {ev : LoopEvent}
    (ho : ev.Overflows s) : (loopStep hash envs s ev).2 = [respReplyError inputLimitMsg] := by
  cases ev with
  | others st => exact absurd ho id
  | ready e =>
    obtain ⟨hopen, hhup, hreadable, hover⟩ := ho
    have hread := readLoop_ok e.reads s
    have hclosing : (readLoop e.reads s).1.conn.closing = true := by rw [hread.closing, h]; rfl
    rw [loopStep, readyReplies, if_neg (by simp [hopen, hhup, hreadable]), hread.replies,
      if_pos hover, inputReplies, if_pos (.inr hclosing), List.append_nil]

theorem loopStep_quiet {s : Session} (h : s.conn.closing = true) {ev : LoopEvent}
    (ho : ¬ ev.Overflows s) : (loopStep hash envs s ev).2 = [] := by
  cases ev with
  | others st => rfl
  | ready e =>
    have hread := readLoop_ok e.reads s
    have hclosing : (readLoop e.reads s).1.conn.closing = true := by rw [hread.closing, h]; rfl
    rw [loopStep, readyReplies]
    split_ifs with hskip
    · rfl
    · have hnot : ¬ overflows e.reads s.conn.inBuf.length = true := by
        intro hover
        simp only [not_or, Bool.not_eq_true, Bool.not_eq_false] at hskip
        exact ho ⟨hskip.1, hskip.2.1, hskip.2.2, hover⟩
      rw [hread.replies, if_neg hnot, inputReplies, if_pos (.inr hclosing), List.append_nil]

-- the reply that goes with the setting of closing, behind the replies to commands
structure LastReply (s s' : Session) (rs : List Bytes) : Prop where
  error : ∃ cmds msg, rs = cmds ++ [respReplyError msg] ∧
    cmds.length + s.dispatched.length = s'.dispatched.length ∧
    (msg = inputLimitMsg ∨ ∃ e : ProtoError, msg = e.msg)

theorem processReplies_closing (fuel : Nat) {s : Session} (h : s.conn.closing = false)
    (hc : (connProcessFuel hash envs fuel s).conn.closing = true) :
    LastReply s (connProcessFuel hash envs fuel s) (processReplies hash envs fuel s) := by
  induction fuel generalizing s with
  | zero => exact absurd (h.symm.trans hc) Bool.false_ne_true
  | succ fuel ih =>
    rw [connProcessFuel] at hc ⊢
    rw [processReplies]
    split_ifs at hc ⊢ with hin
    · cases hp : respParse s.conn.inBuf with
      | incomplete =>
        rw [hp] at hc
        exact absurd (h.symm.trans hc) Bool.false_ne_true
      | error e => exact ⟨[], e.msg, rfl, by simp, .inr ⟨e, rfl⟩⟩
      | ok cmd consumed =>
        rw [hp] at hc
        have hnext : (s.afterCommand hash envs cmd consumed).conn.closing = false := h
        obtain ⟨cmds, msg, hrs, hlen, hmsg⟩ := (ih hnext hc).error
        refine ⟨_ :: cmds, msg, congrArg (List.cons _) hrs, ?_, hmsg⟩
        have hone : (s.afterCommand hash envs cmd consumed).dispatched.length =
            s.dispatched.length + 1 := List.length_append
        rw [hone] at hlen
        rw [List.length_cons, Nat.add_assoc, Nat.add_comm 1]
        exact hlen
    · exact absurd (h.symm.trans hc) Bool.false_ne_true

theorem handleClientReadable_sets_closing {ws : List WriteResult} {rs : List ReadResult}
    {s : Session} (h : s.conn.closing = false)
    (hc : (handleClientReadable hash envs ws rs s).1.conn.closing = true) :
    LastReply s (handleClientReadable hash envs ws rs s).1
      (readReplies rs s ++ inputReplies hash envs (readLoop rs s).1) := by
  have hread := readLoop_ok rs s
  have hclosing := hread.closing
  rw [h, Bool.false_or] at hclosing
  rcases hover : overflows rs s.conn.inBuf.length with _ | _
  · rw [hover] at hclosing
    have hreplies : readReplies rs s = [] := by rw [hread.replies, hover]; rfl
    rw [handleClientReadable] at hc ⊢
    rw [hreplies, List.nil_append]
    by_cases hclosed : (readLoop rs s).1.closed = true
    · rw [if_pos hclosed] at hc
      exact absurd (hclosing.symm.trans hc) Bool.false_ne_true
    · rw [if_neg hclosed, if_neg (by simp [hclosing])] at hc ⊢
      rw [(connServiceOutput_closing ws _).1] at hc
      rw [inputReplies, if_neg (by simp [hclosed, hclosing])]
      obtain ⟨cmds, msg, hrs, hlen, hmsg⟩ := (processReplies_closing _ hclosing hc).error
      refine ⟨cmds, msg, hrs, ?_, hmsg⟩
      rw [(connServiceOutput_closing ws _).2, ← hread.dispatched]
      exact hlen
  · rw [hover] at hclosing
    have hreplies : readReplies rs s = [respReplyError inputLimitMsg] := by
      rw [hread.replies, if_pos hover]
    have hinput : inputReplies hash envs (readLoop rs s).1 = [] := if_pos (.inr hclosing)
    rw [hreplies, hinput]
    refine ⟨[], inputLimitMsg, rfl, ?_, .inl rfl⟩
    rw [List.length_nil, Nat.zero_add, handleClientReadable, if_pos hclosing]
    split_ifs
    · rw [hread.dispatched]
    · rw [(connServiceOutput_closing ws _).2, hread.dispatched]

theorem loopStep_sets_closing {s : Session} {ev : LoopEvent} (h : s.conn.closing = false)
    (hc : (loopStep hash envs s ev).1.conn.closing = true) :
    LastReply s (loopStep hash envs s ev).1 (loopStep hash envs s ev).2 := by
  cases ev with
  | others st => exact absurd (h.symm.trans hc) Bool.false_ne_true
  | ready e =>
    simp only [loopStep, connReady, readyReplies] at hc ⊢
    by_cases hs : s.closed = true
    · rw [if_pos hs] at hc
      exact absurd (h.symm.trans hc) Bool.false_ne_true
    by_cases hhup : e.hup = true
    · rw [if_neg hs, if_pos hhup] at hc
      exact absurd (h.symm.trans hc) Bool.false_ne_true
    rw [if_neg hs, if_neg hhup, (connWritable_closing e _).1, connReadable] at hc
    split_ifs at hc with hr
    · have hskip : ¬ (s.closed = true ∨ e.hup = true ∨ e.readable = false) := by
        simp [hs, hhup, hr]
      obtain ⟨cmds, msg, hrs, hlen, hmsg⟩ := (handleClientReadable_sets_closing h hc).error
      rw [if_neg hs, if_neg hhup, if_neg hskip]
      refine ⟨cmds, msg, hrs, ?_, hmsg⟩
      rw [(connWritable_closing e _).2, connReadable, if_pos hr]
      exact hlen
    · exact absurd (h.symm.trans hc) Bool.false_ne_true

def SaysNothingMore (hash : Bytes → UInt64) (envs : Nat → Env) (st : CmdState)
    (evs : List LoopEvent) : Prop :=
  ∀ pre ev post, evs = pre ++ ev :: post →
    let s := (Machine.run (loopStep hash envs) (Session.start st) pre).1
    let s' := (loopStep hash envs s ev).1
    s.conn.closing = false → s'.conn.closing = true →
      LastReply s s' (loopStep hash envs s ev).2 ∧
        (Machine.run (loopStep hash envs) s' post).2.flatten = []

def ClosingKeepsCap (hash : Bytes → UInt64) (envs : Nat → Env) (st : CmdState)
    (evs : List LoopEvent) : Prop :=
  ∀ pre ev post, evs = pre ++ ev :: post →
    let s := (Machine.run (loopStep hash envs) (Session.start st) pre).1
    s.conn.closing = true → ¬ ev.Overflows s

theorem run_quiet {s : Session} {evs : List LoopEvent} (h : s.conn.closing = true)
    (hcap : ∀ pre ev post, evs = pre ++ ev :: post →
      ¬ ev.Overflows (Machine.run (loopStep hash envs) s pre).1) :
    (Machine.run (loopStep hash envs) s evs).2.flatten = [] := by
  induction evs generalizing s with
  | nil => rfl
  | cons ev evs ih =>
    have hnow := @loopStep_quiet hash envs _ h _ (hcap [] ev evs rfl)
    have hlater := ih (loopStep_closing h ev)
      (fun pre ev' post he => hcap (ev :: pre) ev' post (congrArg _ he))
    rw [Machine.run, List.flatten_cons, hnow, hlater]
    rfl

theorem exists_sets_closing {st : CmdState} {evs : List LoopEvent}
    (h : (Machine.run (loopStep hash envs) (Session.start st) evs).1.conn.closing = true) :
    ∃ pre ev post, evs = pre ++ ev :: post ∧
      (Machine.run (loopStep hash envs) (Session.start st) pre).1.conn.closing = false ∧
      (loopStep hash envs (Machine.run (loopStep hash envs) (Session.start st) pre).1
        ev).1.conn.closing = true := by
  induction evs using List.reverseRecOn with
  | nil => exact absurd h nofun
  | append_singleton evs ev ih =>
    cases hc : (Machine.run (loopStep hash envs) (Session.start st) evs).1.conn.closing with
    | true =>
      obtain ⟨pre, ev', post, rfl, hfirst⟩ := ih hc
      exact ⟨pre, ev', post ++ [ev], by simp, hfirst⟩
    | false =>
      rw [Machine.run_append] at h
      exact ⟨evs, ev, [], rfl, hc, h⟩

theorem SaysNothingMore.keeps_cap {st : CmdState} {evs : List LoopEvent}
    (h : SaysNothingMore hash envs st evs) : ClosingKeepsCap hash envs st evs := by
  rintro pre ev post rfl s hclosing hover
  obtain ⟨pre₁, ev₁, post₁, rfl, hbefore, hafter⟩ := exists_sets_closing hclosing
  have hsilent := (h pre₁ ev₁ (post₁ ++ ev :: post) (by simp) hbefore hafter).2
  have hstate : s = (Machine.run (loopStep hash envs) (loopStep hash envs
      (Machine.run (loopStep hash envs) (Session.start st) pre₁).1 ev₁).1 post₁).1 := by
    simp only [s]
    rw [Machine.run_append]
    rfl
  rw [Machine.run_append, ← hstate, List.flatten_append, List.append_eq_nil_iff] at hsilent
  have hnow := hsilent.2
  rw [Machine.run, List.flatten_cons, loopStep_overflow hclosing hover] at hnow
  cases hnow

theorem ClosingKeepsCap.says_nothing {st : CmdState} {evs : List LoopEvent}
    (h : ClosingKeepsCap hash envs st evs) : SaysNothingMore hash envs st evs := by
  rintro pre ev post rfl s s' hbefore hafter
  refine ⟨loopStep_sets_closing hbefore hafter, run_quiet hafter ?_⟩
  rintro mid ev' rest rfl hover
  have hrun : (Machine.run (loopStep hash envs) (Session.start st) (pre ++ ev :: mid)).1 =
      (Machine.run (loopStep hash envs) s' mid).1 := by
    rw [Machine.run_append]
    rfl
  have hclosing : (Machine.run (loopStep hash envs) s' mid).1.conn.closing = true :=
    Machine.run_invariant (P := fun s : Session => s.conn.closing = true)
      (fun _ ev hs => loopStep_closing hs ev) hafter mid
  have hno := h (pre ++ ev :: mid) ev' rest (by simp)
  simp only [hrun] at hno
  exact hno hclosing hover

theorem closing_connection_silent_iff (hash : Bytes → UInt64) (envs : Nat → Env) (st : CmdState)
    (evs : List LoopEvent) :
    SaysNothingMore hash envs st evs ↔ ClosingKeepsCap hash envs st evs :=
  ⟨SaysNothingMore.keeps_cap, ClosingKeepsCap.says_nothing⟩

theorem overflows_full_chunks (k : Nat) {n : Nat} (hn : n ≤ maxConnInputBuf)
    (h : maxConnInputBuf < n + k * readChunk) :
    overflows (List.replicate k (.data (List.replicate readChunk 0))) n = true := by
  induction k generalizing n with
  | zero => omega
  | succ k ih =>
    rw [List.replicate_succ, overflows, List.length_replicate]
    by_cases hcap : maxConnInputBuf < n + readChunk
    · simp [hcap]
    · rw [ih (by omega) (by rw [Nat.succ_mul] at h; omega)]
      simp

-- the error reply finds the socket full, and the client goes on sending
def badRequest : ConnReady := ⟨false, true, false, [.data (str "*x\r\n")], [.eagain], []⟩

def flood : ConnReady :=
  ⟨false, true, false, List.replicate 1024 (.data (List.replicate readChunk 0)), [.eagain], []⟩

theorem closing_connection_speaks_again :
    ¬ SaysNothingMore fnv1aHash quietEnv freshState [.ready badRequest, .ready flood] := by
  intro h
  have hcap := h.keeps_cap [.ready badRequest] (.ready flood) [] rfl
  have hclosing : (Machine.run (loopStep fnv1aHash quietEnv) (Session.start freshState)
      [.ready badRequest]).1.conn.closing = true := by decide +kernel
  have hopen : (Machine.run (loopStep fnv1aHash quietEnv) (Session.start freshState)
      [.ready badRequest]).1.closed = false := by decide +kernel
  have hlen : (Machine.run (loopStep fnv1aHash quietEnv) (Session.start freshState)
      [.ready badRequest]).1.conn.inBuf.length = 4 := by decide +kernel
  refine hcap hclosing ⟨hopen, rfl, rfl, ?_⟩
  rw [hlen]
  exact overflows_full_chunks 1024 (by decide) (by decide)

end RedisServer

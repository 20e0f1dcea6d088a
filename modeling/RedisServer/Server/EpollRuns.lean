import RedisServer.Server.EpollServer

namespace RedisServer

open Incremental

theorem timed_map_snd (envs : Nat → Env) (k : Nat) (cmds : List Command) :
    (timed envs k cmds).map Prod.snd = cmds := by
  induction cmds generalizing k with
  | nil => rfl
  | cons cmd cmds ih => rw [timed, List.map_cons, ih]

namespace EpollServer

variable {hash : Bytes → UInt64} {envs : Nat → Nat → Env} {st : CmdState} {σ σ' : EpollServer}

-- what one connection got for its commands, and how the last handler left it
structure Answered (hash : Bytes → UInt64) (st : CmdState) (received : Bytes)
    (log : DispatchLog Nat) (c : Nat) (s : Session) : Prop where
  dispatched : s.dispatched = commandsOf c log
  consumed : respParser.Consumes received (commandsOf c log) s.conn.inBuf
  owed : ∃ tail : List Bytes, (∀ line ∈ tail, IsErrorLine line) ∧
    (tail ≠ [] → s.conn.closing = true) ∧
    s.delivered = (repliesOf hash st c log).flatten ++ tail.flatten
  rests : Resting s

theorem Answered.new {log : DispatchLog Nat} {c : Nat} (hlog : ∀ x ∈ log, x.1 ≠ c)
    (st st' : CmdState) : Answered hash st [] log c (Session.start st') := by
  have hnone : log.filter (fun x => decide (x.1 = c)) = [] := by
    simpa [List.filter_eq_nil_iff] using hlog
  have hcmds : commandsOf c log = [] := by rw [commandsOf, hnone, List.map_nil]
  have hreplies : repliesOf hash st c log = [] := by
    rw [repliesOf, List.map_eq_nil_iff, List.filter_eq_nil_iff]
    rintro ⟨x, r⟩ hx
    simpa using hlog x (List.of_mem_zip hx).1
  refine ⟨hcmds.symm, ?_, ⟨[], by simp, fun h => absurd rfl h, ?_⟩, .start st'⟩
  · rw [hcmds]
    exact .nil _
  · rw [hreplies]
    rfl

theorem Answered.close {received : Bytes} {log : DispatchLog Nat} {c : Nat} {s : Session}
    (h : Answered hash st received log c s) :
    Answered hash st received log c (RedisServer.connClose s) :=
  ⟨h.dispatched, h.consumed, h.owed, .of_closed h.rests.sent_le rfl⟩

theorem Answered.turn {received : Bytes} {log : DispatchLog Nat} {c : Nat} {s s' : Session}
    {envs : Nat → Env} {taken : Bytes} {cmds : List Command} {tail : List Bytes}
    (h : Answered hash st received log c s) (hs : s.state = (sequential hash st log).1)
    (ht : TurnOk hash envs taken s s' cmds tail) (hr : Resting s') :
    Answered hash st (received ++ taken)
      (log ++ (timed envs s.dispatched.length cmds).map (Prod.mk c)) c s' := by
  obtain ⟨tail', hlines, hclosing, howed⟩ := h.owed
  have hcmds := commandsOf_block_self log c (timed envs s.dispatched.length cmds)
  have hreplies := @repliesOf_block hash _ _ st log c c (timed envs s.dispatched.length cmds)
  rw [timed_map_snd] at hcmds
  rw [if_pos rfl, ← hs] at hreplies
  refine ⟨?_, ?_, ⟨tail' ++ tail, ?_, ?_, ?_⟩, hr⟩
  · rw [ht.dispatched, h.dispatched, ← hcmds, h.dispatched]
  · rw [hcmds]
    exact (h.consumed.append taken).trans ht.consumed
  · exact fun line hline => (List.mem_append.mp hline).elim (hlines line) (ht.lines line)
  · intro hne
    by_cases htail : tail = []
    · refine ht.closing (.inr (hclosing ?_))
      rintro rfl
      exact hne (by simp [htail])
    · exact ht.closing (.inl htail)
  · rw [ht.delivered, howed, hreplies]
    by_cases htail : tail' = []
    · simp [htail, execFrom]
    · have hsilent := ht.silent (hclosing htail)
      subst hsilent
      simp [execFrom, timed, Machine.run]

theorem Answered.others {received : Bytes} {log : DispatchLog Nat} {c c' : Nat} {s : Session}
    (h : Answered hash st received log c' s) (hne : c' ≠ c) (calls : List (Env × Command)) :
    Answered hash st received (log ++ calls.map (Prod.mk c)) c' s := by
  have hcmds := commandsOf_block_ne log hne calls
  have hreplies := @repliesOf_block hash _ _ st log c c' calls
  rw [if_neg hne.symm, List.append_nil] at hreplies
  refine ⟨hcmds ▸ h.dispatched, hcmds ▸ h.consumed, ?_, h.rests⟩
  rw [hreplies]
  exact h.owed

structure Attends (hash : Bytes → UInt64) (st : CmdState) (σ : EpollServer) : Prop where
  state : σ.state = (sequential hash st σ.log).1
  logged : ∀ x ∈ σ.log, x.1 < σ.accepted
  unheard : ∀ c, σ.accepted ≤ c → σ.received c = []
  answered : ∀ c, Answered hash st (σ.received c) σ.log c (σ.session c)

namespace Attends

theorem start (st : CmdState) : Attends hash st (start st) where
  state := rfl
  logged _ hx := absurd hx List.not_mem_nil
  unheard _ _ := rfl
  answered _ := .new (fun _ hx => absurd hx List.not_mem_nil) st st

theorem connCreate (h : Attends hash st σ) (fd : Nat) : Attends hash st (σ.connCreate fd) where
  state := h.state
  logged x hx := (h.logged x hx).trans (Nat.lt_succ_self _)
  unheard c hc := h.unheard c (Nat.le_of_succ_le hc)
  answered c := by
    simp only [EpollServer.connCreate]
    rcases eq_or_ne c σ.accepted with rfl | hne
    · rw [Function.update_self, h.unheard _ le_rfl]
      exact .new (fun x hx => (h.logged x hx).ne) st σ.state
    · rw [Function.update_of_ne hne]
      exact h.answered c

theorem connClose (h : Attends hash st σ) (c : Nat) : Attends hash st (σ.connClose c) where
  state := h.state
  logged := h.logged
  unheard := h.unheard
  answered c' := by
    simp only [EpollServer.connClose]
    rcases eq_or_ne c' c with rfl | hne
    · rw [Function.update_self]
      exact (h.answered c').close
    · rw [Function.update_of_ne hne]
      exact h.answered c'

theorem enroll (h : Attends hash st σ) (fd : Nat) (added : Bool) :
    Attends hash st (σ.enroll fd added) := by
  rw [EpollServer.enroll]
  split_ifs
  · exact h.connCreate fd
  · exact (h.connCreate fd).connClose _

theorem ready (h : Attends hash st σ) {c : Nat} (hc : c < σ.accepted) (e : ConnReady) :
    Attends hash st (σ.ready hash envs c e) := by
  have hthis := h.answered c
  have hrests : Resting { σ.session c with state := σ.state } :=
    ⟨hthis.rests.sent_le, hthis.rests.armed, hthis.rests.waits, hthis.rests.parsed⟩
  have hanswered : Answered hash st (σ.received c) σ.log c
      { σ.session c with state := σ.state } :=
    ⟨hthis.dispatched, hthis.consumed, hthis.owed, hrests⟩
  obtain ⟨cmds, tail, hturn, hrests'⟩ := @connReady_turn hash (envs c) e _ hrests
  have hcmds : (connReady hash (envs c) e { σ.session c with state := σ.state }).dispatched.drop
      (σ.session c).dispatched.length = cmds := by
    rw [hturn.dispatched, List.drop_left]
  have hblock := @sequential_block hash _ st σ.log c
    (timed (envs c) (σ.session c).dispatched.length cmds)
  refine ⟨?_, ?_, ?_, ?_⟩
  · simp only [EpollServer.ready, hcmds]
    rw [hblock, hturn.state, ← h.state]
    rfl
  · simp only [EpollServer.ready, hcmds]
    intro x hx
    rcases List.mem_append.mp hx with hold | hnew
    · exact h.logged x hold
    · obtain ⟨call, -, rfl⟩ := List.mem_map.mp hnew
      exact hc
  · intro c' hc'
    simp only [EpollServer.ready] at hc' ⊢
    rw [Function.update_of_ne (by omega)]
    exact h.unheard c' hc'
  · intro c'
    simp only [EpollServer.ready, hcmds]
    rcases eq_or_ne c' c with rfl | hne
    · rw [Function.update_self, Function.update_self]
      exact hanswered.turn h.state hturn hrests'
    · rw [Function.update_of_ne hne, Function.update_of_ne hne]
      exact (h.answered c').others hne _

theorem clientTurn (h : Attends hash st σ) {c : Nat} (hc : c < σ.accepted) (e : ConnReady) :
    Attends hash st (σ.clientTurn hash envs c e) := by
  rw [EpollServer.clientTurn]
  split_ifs
  · exact (h.ready hc e).connClose c
  · exact h.ready hc e

theorem with_batch (h : Attends hash st σ) (batch : List Reported) :
    Attends hash st { σ with batch := batch } :=
  ⟨h.state, h.logged, h.unheard, h.answered⟩

theorem shutdownCleanly (h : Attends hash st σ) : Attends hash st σ.shutdownCleanly := by
  have hfold : Attends hash st ((List.range σ.conns.length).foldl EpollServer.closeSlot σ) := by
    refine List.foldlRecOn _ _ h (fun τ hτ fd _ => ?_)
    rw [EpollServer.closeSlot]
    cases τ.lookup fd with
    | none => exact hτ
    | some c => exact hτ.connClose c
  exact ⟨hfold.state, hfold.logged, hfold.unheard, hfold.answered⟩

end Attends

theorem halt_fields (σ : EpollServer) :
    σ.shutdownCleanly.batch = σ.batch ∧ σ.shutdownCleanly.running = false := by
  refine ⟨?_, rfl⟩
  refine List.foldlRecOn (motive := fun τ : EpollServer => τ.batch = σ.batch) _ _ rfl
    (fun τ hτ fd _ => ?_)
  rw [EpollServer.closeSlot]
  cases τ.lookup fd <;> exact hτ

theorem listen_fields {accepts : List AcceptResult}
    (hs : handleListenReadable accepts σ = some σ') :
    σ'.batch = σ.batch ∧ σ'.running = σ.running :=
  handleListenReadable_keeps (P := fun τ => τ.batch = σ.batch ∧ τ.running = σ.running)
    (fun τ fd added hτ _ => by rw [EpollServer.enroll]; split_ifs <;> exact hτ) ⟨rfl, rfl⟩ hs

theorem turn_fields (σ : EpollServer) (c : Nat) (e : ConnReady) :
    (σ.clientTurn hash envs c e).batch = σ.batch ∧
      (σ.clientTurn hash envs c e).running = σ.running := by
  rw [EpollServer.clientTurn]
  split_ifs <;> exact ⟨rfl, rfl⟩

structure Inv (hash : Bytes → UInt64) (st : CmdState) (σ : EpollServer) : Prop where
  table : Table σ
  attends : Attends hash st σ
  reports : σ.Reports σ.batch
  halted : σ.running = false → σ.batch = [] ∧ ∀ fd, σ.files fd = none

theorem Inv.start (st : CmdState) : Inv hash st (start st) :=
  ⟨.start st, .start st, ⟨fun _ hev => absurd hev List.not_mem_nil, .nil⟩, nofun⟩

theorem Inv.running (h : Inv hash st σ) {ev : Reported} {rest : List Reported}
    (hb : σ.batch = ev :: rest) : σ.running = true := by
  by_contra hstopped
  have hnil := (h.halted (by simpa using hstopped)).1
  rw [hb] at hnil
  cases hnil

theorem Inv.listen (h : Inv hash st σ) {accepts : List AcceptResult} {rest : List Reported}
    (hb : σ.batch = .listen accepts :: rest)
    (hs : handleListenReadable accepts { σ with batch := rest } = some σ') : Inv hash st σ' := by
  have hr := h.reports
  rw [hb] at hr
  obtain ⟨htable, hkeeps⟩ := (h.table.with_batch rest).listen hs
  obtain ⟨hbatch, hrunning⟩ := listen_fields hs
  refine ⟨htable, ?_, ?_, fun hstopped => ?_⟩
  · exact handleListenReadable_keeps (fun τ fd added hτ _ => hτ.enroll fd added)
      (h.attends.with_batch rest) hs
  · rw [hbatch]
    exact hr.tail.of_files (fun fd c _ _ hc => hkeeps fd c hc)
  · rw [hrunning] at hstopped
    exact absurd ((h.running hb).symm.trans hstopped) nofun

theorem Inv.client (h : Inv hash st σ) {fd c : Nat} {e : ConnReady} {rest : List Reported}
    (hb : σ.batch = .client fd c e :: rest) :
    σ.step hash envs .turn = some (clientTurn hash envs { σ with batch := rest } c e) ∧
      Inv hash st (clientTurn hash envs { σ with batch := rest } c e) := by
  have hrest := h.table.with_batch rest
  have hr : Reports { σ with batch := rest } (.client fd c e :: rest) := by
    have hr := h.reports
    rw [hb] at hr
    exact ⟨hr.meant, hr.once⟩
  obtain ⟨hlookup, -, hlt, hopen⟩ := hrest.lookup_reported hr
  obtain ⟨hbatch, hrunning⟩ := @turn_fields hash envs { σ with batch := rest } c e
  refine ⟨?_, hrest.turn hlt hopen e, (h.attends.with_batch rest).clientTurn hlt e, ?_,
    fun hstopped => ?_⟩
  · simp only [EpollServer.step, hb, serveEvent, hlookup]
  · rw [hbatch]
    exact hr.turn hrest
  · rw [hrunning] at hstopped
    exact absurd ((h.running hb).symm.trans hstopped) nofun

theorem Inv.step (h : Inv hash st σ) {m : Move} (hs : σ.step hash envs m = some σ') :
    Inv hash st σ' := by
  cases m with
  | wait batch =>
    rw [EpollServer.step, Option.ite_none_right_eq_some] at hs
    obtain ⟨⟨hrunning, -, -, hreports⟩, hσ⟩ := hs
    cases hσ
    exact ⟨h.table.with_batch batch, h.attends.with_batch batch,
      ⟨hreports.meant, hreports.once⟩, fun hstopped => absurd (hrunning.symm.trans hstopped) nofun⟩
  | turn =>
    cases hb : σ.batch with
    | nil =>
      simp only [EpollServer.step, hb] at hs
      cases hs
    | cons ev rest =>
      cases ev with
      | listen accepts =>
        simp only [EpollServer.step, hb] at hs
        exact h.listen hb hs
      | client fd c e =>
        obtain ⟨hserve, hinv⟩ := @Inv.client hash envs st σ h fd c e rest hb
        rw [hserve] at hs
        cases hs
        exact hinv
  | halt =>
    rw [EpollServer.step, Option.ite_none_right_eq_some] at hs
    obtain ⟨⟨-, hb⟩, hσ⟩ := hs
    cases hσ
    obtain ⟨htable, hfiles⟩ := h.table.shutdown
    have hbatch : σ.shutdownCleanly.batch = [] := (halt_fields σ).1.trans hb
    refine ⟨htable, h.attends.shutdownCleanly, ?_, fun _ => ⟨hbatch, hfiles⟩⟩
    rw [hbatch]
    exact ⟨fun _ hev => absurd hev List.not_mem_nil, .nil⟩

theorem Reached.inv (h : Reached hash envs st σ) : Inv hash st σ :=
  Machine.ReachableVia.invariant h (.start st) (fun _ _ _ hinv _ hs => hinv.step hs)

-- one order of all commands explains everything that every client was sent
theorem epoll_server_serializable (h : Reached hash envs st σ) :
    σ.state = (sequential hash st σ.log).1 ∧
    ∀ c, commandsOf c σ.log <+: (respParser.drain (σ.received c)).cmds ∧
      ∃ tail : List Bytes, (∀ line ∈ tail, IsErrorLine line) ∧
        (tail ≠ [] → (σ.session c).conn.closing = true) ∧
        (σ.session c).delivered = (repliesOf hash st c σ.log).flatten ++ tail.flatten := by
  have hattends := h.inv.attends
  exact ⟨hattends.state, fun c => ⟨(hattends.answered c).consumed.initial,
    (hattends.answered c).owed⟩⟩

theorem open_connections_are_served (h : Reached hash envs st σ) {c : Nat}
    (hopen : (σ.session c).closed = false) :
    ((σ.session c).conn.closing = false →
      respParser.drain (σ.received c) = ⟨commandsOf c σ.log, (σ.session c).conn.inBuf, none⟩ ∧
        (σ.session c).delivered = (repliesOf hash st c σ.log).flatten) ∧
    ((σ.session c).conn.closing = true →
      (σ.session c).conn.outSent < (σ.session c).conn.out.length) ∧
    ((σ.session c).conn.wantWrite = true ↔
      (σ.session c).conn.outSent < (σ.session c).conn.out.length) := by
  obtain ⟨-, hconsumed, ⟨tail, -, hclosing, howed⟩, hrests⟩ := h.inv.attends.answered c
  refine ⟨fun hlively => ⟨?_, ?_⟩, hrests.waits hopen, hrests.armed hopen⟩
  · rw [hconsumed.drain_all, Parser.drain_of_incomplete (hrests.parsed hopen hlively).1,
      List.append_nil]
  · have htail : tail = [] := by
      by_contra hne
      exact absurd (hlively.symm.trans (hclosing hne)) nofun
    rw [howed, htail, List.flatten_nil, List.append_nil]

theorem events_reach_their_connection (h : Reached hash envs st σ) :
    (∀ fd c e, .client fd c e ∈ σ.batch →
      σ.descriptor c = fd ∧ (σ.session c).closed = false) ∧
    ∀ fd c e rest, σ.batch = .client fd c e :: rest →
      σ.step hash envs .turn = some (clientTurn hash envs { σ with batch := rest } c e) := by
  refine ⟨fun fd c e hev => ?_, fun fd c e rest hb => (h.inv.client hb).1⟩
  obtain ⟨hfd, -, hopen⟩ := h.inv.table.owner fd c (h.inv.reports.meant _ hev)
  exact ⟨hfd, hopen⟩

theorem connection_table_is_exact (h : Reached hash envs st σ) :
    σ.lookup = σ.files ∧
    (∀ fd c, σ.files fd = some c →
      σ.descriptor c = fd ∧ c < σ.accepted ∧ (σ.session c).closed = false) ∧
    (∀ c < σ.accepted, σ.descriptor c < σ.conns.length ∧
      σ.closes c = (σ.session c).closed.toNat ∧
      ((σ.session c).closed = false → σ.files (σ.descriptor c) = some c)) ∧
    (σ.conns.length = 0 ∨ ∃ k, σ.conns.length = connsTableFirst * 2 ^ k) ∧
    (∀ m, (∀ c < σ.accepted, σ.descriptor c ≤ m) →
      σ.conns.length ≤ max connsTableFirst (2 * (m + 1))) ∧
    (σ.running = false → (∀ fd, σ.files fd = none) ∧ ∀ c < σ.accepted, σ.closes c = 1) := by
  obtain ⟨htable, -, -, hhalted⟩ := h.inv
  refine ⟨htable.listed, htable.owner,
    fun c hc => ⟨htable.inside c hc, htable.closes c, htable.filed c hc⟩,
    htable.sized, htable.tight, fun hstopped => ⟨(hhalted hstopped).2, fun c hc => ?_⟩⟩
  rw [htable.closes]
  by_cases hopen : (σ.session c).closed = false
  · have hfile := htable.filed c hc hopen
    rw [(hhalted hstopped).2] at hfile
    cases hfile
  · rw [(Bool.not_eq_false _).mp hopen]
    rfl

section Reuse

-- the first client leaves and the next one gets its descriptor 5 within the same batch
def newcomer : ConnReady := ⟨false, true, false, [.data (str "INCR n\r\n")], [.all], []⟩

def reuseMoves : List Move :=
  [.wait [.listen [.conn 5 true, .eintr, .conn 6 true]], .turn,
    .wait [.client 5 0 newcomer], .turn,
    .wait [.client 5 0 ⟨false, true, false, [.eof], [], []⟩, .listen [.conn 5 true, .conn 7 false],
      .client 6 1 ⟨false, true, false, [.data (str "INCR n\r\n")], [.sent 2, .eagain], []⟩],
    .turn, .turn, .turn,
    .wait [.client 6 1 ⟨false, false, true, [], [], [.all]⟩, .client 5 2 newcomer], .turn]

def reuseServer (later : List Move) : Option EpollServer :=
  Machine.exec (step fnv1aHash (fun _ => quietEnv)) (start freshState) (reuseMoves ++ later)

theorem reached_reuseServer {later : List Move} (h : reuseServer later = some σ) :
    Reached fnv1aHash (fun _ => quietEnv) freshState σ :=
  Machine.ReachableVia.start.exec (fun _ _ => trivial) h

theorem reuseServer_view :
    (reuseServer []).map (fun σ => (σ.log.map Prod.fst, (σ.session 1).written)) =
    some ([0, 1], str ":2\r\n") := by
  decide +kernel

theorem epoll_server_serializable_reuse :
    ∃ σ, reuseServer [] = some σ ∧ (σ.session 1).written = str ":2\r\n" ∧
      σ.state = (sequential fnv1aHash freshState σ.log).1 := by
  obtain ⟨σ, hσ, hview⟩ := Option.map_eq_some_iff.mp reuseServer_view
  simp only [Prod.mk.injEq] at hview
  obtain ⟨-, hwritten⟩ := hview
  exact ⟨σ, hσ, hwritten, (epoll_server_serializable (reached_reuseServer hσ)).1⟩

-- the second client has two of its four reply bytes, the third sits where the first one was
def pendingServer : Option EpollServer :=
  Machine.exec (step fnv1aHash (fun _ => quietEnv)) (start freshState) (reuseMoves.take 9)

theorem pendingServer_output :
    pendingServer.map (fun σ => ((σ.session 1).closed, (σ.session 1).conn.outSent,
      (σ.session 1).conn.out)) = some (false, 2, str ":2\r\n") := by
  decide +kernel

theorem pendingServer_batch :
    pendingServer.map (fun σ => (σ.descriptor 0, (σ.session 0).closed, σ.batch)) =
    some (5, true, [.client 6 1 ⟨false, false, true, [], [], [.all]⟩, .client 5 2 newcomer]) := by
  decide +kernel

theorem reached_pendingServer (h : pendingServer = some σ) :
    Reached fnv1aHash (fun _ => quietEnv) freshState σ :=
  Machine.ReachableVia.start.exec (fun _ _ => trivial) h

theorem open_connections_are_served_reuse :
    ∃ σ, pendingServer = some σ ∧ (σ.session 1).conn.outSent = 2 ∧
      (σ.session 1).conn.wantWrite = true := by
  obtain ⟨σ, hσ, hview⟩ := Option.map_eq_some_iff.mp pendingServer_output
  simp only [Prod.mk.injEq] at hview
  obtain ⟨hopen, hsent, hout⟩ := hview
  have hpending : (σ.session 1).conn.outSent < (σ.session 1).conn.out.length := by
    rw [hsent, hout]
    decide
  exact ⟨σ, hσ, hsent,
    (open_connections_are_served (reached_pendingServer hσ) hopen).2.2.mpr hpending⟩

theorem events_reach_their_connection_reuse :
    ∃ σ, pendingServer = some σ ∧ σ.descriptor 0 = 5 ∧ (σ.session 0).closed = true ∧
      σ.descriptor 2 = 5 ∧ (σ.session 2).closed = false := by
  obtain ⟨σ, hσ, hview⟩ := Option.map_eq_some_iff.mp pendingServer_batch
  simp only [Prod.mk.injEq] at hview
  obtain ⟨hfd₀, hclosed, hbatch⟩ := hview
  obtain ⟨hfd, hopen⟩ := (events_reach_their_connection (reached_pendingServer hσ)).1 5 2 newcomer
    (by simp [hbatch])
  exact ⟨σ, hσ, hfd₀, hclosed, hfd, hopen⟩

theorem reuseServer_halts :
    (reuseServer [.turn, .halt]).map (fun σ => (σ.accepted, σ.running)) = some (4, false) := by
  decide +kernel

theorem connection_table_is_exact_reuse :
    ∃ σ, reuseServer [.turn, .halt] = some σ ∧ σ.accepted = 4 ∧
      ∀ c < σ.accepted, σ.closes c = 1 := by
  obtain ⟨σ, hσ, hview⟩ := Option.map_eq_some_iff.mp reuseServer_halts
  simp only [Prod.mk.injEq] at hview
  obtain ⟨haccepted, hstopped⟩ := hview
  exact ⟨σ, hσ, haccepted,
    ((connection_table_is_exact (reached_reuseServer hσ)).2.2.2.2.2 hstopped).2⟩

end Reuse

end EpollServer

end RedisServer

import RedisServer.Resp.Stability
import RedisServer.Server.Threaded
import RedisServer.Lib.Machine

namespace RedisServer

open Incremental

variable {hash : Bytes → UInt64} {κ ω : Type}

abbrev DispatchLog (κ : Type) := List (κ × Env × Command)

def sequential (hash : Bytes → UInt64) (st : CmdState) (log : DispatchLog κ) :
    CmdState × List Bytes :=
  Machine.run (dispatchStep hash) st (log.map Prod.snd)

theorem sequential_snoc (st : CmdState) (log : DispatchLog κ) (e : κ × Env × Command) :
    sequential hash st (log ++ [e]) =
      ((dispatchStep hash (sequential hash st log).1 e.2).1,
        (sequential hash st log).2 ++ [(dispatchStep hash (sequential hash st log).1 e.2).2]) := by
  rw [sequential, List.map_append, Machine.run_append]
  rfl

-- several commands of one client in a row
theorem sequential_block (st : CmdState) (log : DispatchLog κ) (c : κ)
    (calls : List (Env × Command)) :
    sequential hash st (log ++ calls.map (Prod.mk c)) =
      ((Machine.run (dispatchStep hash) (sequential hash st log).1 calls).1,
        (sequential hash st log).2 ++
          (Machine.run (dispatchStep hash) (sequential hash st log).1 calls).2) := by
  have hcalls : (calls.map (Prod.mk c)).map Prod.snd = calls := by
    rw [List.map_map]
    exact List.map_id calls
  rw [sequential, List.map_append, hcalls, Machine.run_append]
  rfl

theorem length_sequential (st : CmdState) (log : DispatchLog κ) :
    (sequential hash st log).2.length = log.length := by
  rw [sequential, Machine.length_run, List.length_map]

section Projections

variable [DecidableEq κ]

def commandsOf (c : κ) (log : DispatchLog κ) : List Command :=
  (log.filter (fun e => e.1 = c)).map (fun e => e.2.2)

def repliesOf (hash : Bytes → UInt64) (st : CmdState) (c : κ) (log : DispatchLog κ) : List Bytes :=
  ((log.zip (sequential hash st log).2).filter (fun x => x.1.1 = c)).map Prod.snd

theorem commandsOf_snoc_self (log : DispatchLog κ) (c : κ) (env : Env) (cmd : Command) :
    commandsOf c (log ++ [(c, env, cmd)]) = commandsOf c log ++ [cmd] := by
  simp [commandsOf]

theorem commandsOf_snoc_ne (log : DispatchLog κ) {c c' : κ} (h : c' ≠ c) (env : Env)
    (cmd : Command) : commandsOf c' (log ++ [(c, env, cmd)]) = commandsOf c' log := by
  simp [commandsOf, Ne.symm h]

theorem repliesOf_snoc_self (st : CmdState) (log : DispatchLog κ) (c : κ) (env : Env)
    (cmd : Command) :
    repliesOf hash st c (log ++ [(c, env, cmd)]) = repliesOf hash st c log ++
      [(cmdDispatch hash env (sequential hash st log).1 cmd).2] := by
  rw [repliesOf, sequential_snoc, List.zip_append (length_sequential st log).symm]
  simp [repliesOf, dispatchStep]

theorem repliesOf_snoc_ne (st : CmdState) (log : DispatchLog κ) {c c' : κ} (h : c' ≠ c)
    (env : Env) (cmd : Command) :
    repliesOf hash st c' (log ++ [(c, env, cmd)]) = repliesOf hash st c' log := by
  rw [repliesOf, sequential_snoc, List.zip_append (length_sequential st log).symm]
  simp [repliesOf, Ne.symm h]

theorem commandsOf_block_self (log : DispatchLog κ) (c : κ) (calls : List (Env × Command)) :
    commandsOf c (log ++ calls.map (Prod.mk c)) = commandsOf c log ++ calls.map Prod.snd := by
  simp [commandsOf, List.filter_map, Function.comp_def]

theorem commandsOf_block_ne (log : DispatchLog κ) {c c' : κ} (h : c' ≠ c)
    (calls : List (Env × Command)) :
    commandsOf c' (log ++ calls.map (Prod.mk c)) = commandsOf c' log := by
  simp [commandsOf, List.filter_map, Function.comp_def, Ne.symm h]

theorem repliesOf_block (st : CmdState) (log : DispatchLog κ) (c c' : κ)
    (calls : List (Env × Command)) :
    repliesOf hash st c' (log ++ calls.map (Prod.mk c)) = repliesOf hash st c' log ++
      if c = c' then (Machine.run (dispatchStep hash) (sequential hash st log).1 calls).2 else [] := by
  rw [repliesOf, sequential_block, List.zip_append (length_sequential st log).symm,
    List.filter_append, List.map_append]
  congr 1
  have hlen := Machine.length_run (dispatchStep hash) (sequential hash st log).1 calls
  generalize (Machine.run (dispatchStep hash) (sequential hash st log).1 calls).2 = replies at hlen
  rw [List.zip_map_left, List.filter_map, List.map_map]
  split_ifs with h
  · subst h
    simp [Function.comp_def, List.map_snd_zip, hlen]
  · simp [Function.comp_def, h]

end Projections

-- the one line that is not the reply to a command, sent before the connection is closed
def IsFarewell (inBuf tail : Bytes) : Prop :=
  (tail = respReplyError inputLimitMsg ∧ maxInputBuf < inBuf.length + readChunk) ∨
    ∃ e, respParse inBuf = .error e ∧ tail = respReplyError e.msg

def PeerPhase.alive : PeerPhase → Bool
  | .flushing fatal => !fatal
  | .closed => false
  | _ => true

def Peer.Owes (replies : Bytes) (p : Peer) : Prop :=
  ∃ tail, (tail = [] ∨ p.phase.alive = false ∧ IsFarewell p.inBuf tail) ∧
    if p.broken then p.written <+: replies ++ tail else p.written ++ p.out = replies ++ tail

structure PeerInv (stream unread : Bytes) (cmds : List Command) (replies : Bytes) (p : Peer) :
    Prop where
  parsed : ∃ rest, respParser.Consumes stream cmds rest ∧ p.inBuf <+: rest ∧
    (p.phase.alive = true → rest = p.inBuf ++ unread)
  locked : ∀ cmd n, p.phase = .locking cmd n → respParse p.inBuf = .ok cmd n
  owes : p.Owes replies
  broken : p.broken = true → p.phase = .closed
  settled : p.out = [] ∨ ∃ fatal, p.phase = .flushing fatal

namespace PeerInv

variable {stream unread : Bytes} {cmds : List Command} {replies : Bytes} {p : Peer}

theorem accepted (stream : Bytes) : PeerInv stream stream [] [] Peer.accepted where
  parsed := ⟨stream, .nil stream, List.nil_prefix, fun _ => rfl⟩
  locked := nofun
  owes := ⟨[], .inl rfl, rfl⟩
  broken := nofun
  settled := .inl rfl

theorem unbroken (h : PeerInv stream unread cmds replies p) (hp : p.phase ≠ .closed) :
    p.broken = false := by
  by_contra hb
  exact hp (h.broken (by simpa using hb))

theorem ne_closed (ha : p.phase.alive = true) : p.phase ≠ .closed := by
  intro hc
  simp [hc, PeerPhase.alive] at ha

theorem out_nil (h : PeerInv stream unread cmds replies p)
    (hp : ∀ fatal, p.phase ≠ .flushing fatal) : p.out = [] :=
  h.settled.resolve_right (fun ⟨fatal, hf⟩ => hp fatal hf)

theorem written_out (h : PeerInv stream unread cmds replies p) (ha : p.phase.alive = true) :
    p.written ++ p.out = replies := by
  have hb := h.unbroken (ne_closed ha)
  obtain ⟨tail, rfl | ⟨hdead, -⟩, hr⟩ := h.owes
  · simpa [hb] using hr
  · simp [ha] at hdead

theorem consumes (h : PeerInv stream unread cmds replies p) (ha : p.phase.alive = true) :
    respParser.Consumes stream cmds (p.inBuf ++ unread) := by
  obtain ⟨rest, hc, -, hrest⟩ := h.parsed
  exact hrest ha ▸ hc

theorem move (h : PeerInv stream unread cmds replies p) (ha : p.phase.alive = true)
    (ho : p.out = []) {b unread' : Bytes} (hb : b ++ unread' = p.inBuf ++ unread)
    {phase : PeerPhase} (hl : ∀ cmd n, phase = .locking cmd n → respParse b = .ok cmd n) :
    PeerInv stream unread' cmds replies { p with inBuf := b, phase := phase } where
  parsed := ⟨_, h.consumes ha, hb ▸ List.prefix_append _ _, fun _ => hb.symm⟩
  locked := hl
  owes := by
    have hbr := h.unbroken (ne_closed ha)
    exact ⟨[], .inl rfl, by simpa [hbr] using h.written_out ha⟩
  broken := fun hbr => absurd (h.broken hbr) (ne_closed ha)
  settled := .inl ho

-- the input limit or a protocol error: one line, and the connection is on its way out
theorem farewell (h : PeerInv stream unread cmds replies p) (ha : p.phase.alive = true)
    {line unread' : Bytes} (hf : IsFarewell p.inBuf line) :
    PeerInv stream unread' cmds replies
      { p with out := p.out ++ line, phase := .flushing true } where
  parsed := ⟨_, h.consumes ha, List.prefix_append _ _, nofun⟩
  locked := nofun
  owes := by
    have hbr := h.unbroken (ne_closed ha)
    refine ⟨line, .inr ⟨rfl, hf⟩, ?_⟩
    simp only [hbr, Bool.false_eq_true, if_false]
    rw [← List.append_assoc, h.written_out ha]
  broken := fun hbr => absurd (h.broken hbr) (ne_closed ha)
  settled := .inr ⟨true, rfl⟩

theorem read (h : PeerInv stream unread cmds replies p) (hp : p.phase = .reading) {n : Nat}
    (hn : n ≤ readChunk) :
    PeerInv stream (unread.drop n) cmds replies (peerRead p (.data (unread.take n))) := by
  have ha : p.phase.alive = true := by rw [hp]; rfl
  have ho : p.out = [] := h.out_nil (by rw [hp]; nofun)
  rw [peerRead]
  split
  case isTrue hcap =>
    have hlen : (unread.take n).length ≤ readChunk := (List.length_take_le _ _).trans hn
    exact h.farewell ha (.inl ⟨rfl, by omega⟩)
  case isFalse =>
    refine h.move ha ho ?_ nofun
    rw [List.append_assoc, List.take_append_drop]

theorem noRead (h : PeerInv stream unread cmds replies p) (hp : p.phase = .reading)
    {r : ReadResult} (hr : ∀ chunk, r ≠ .data chunk) :
    PeerInv stream unread cmds replies (peerRead p r) := by
  have ha : p.phase.alive = true := by rw [hp]; rfl
  have ho : p.out = [] := h.out_nil (by rw [hp]; nofun)
  cases r with
  | data chunk => exact absurd rfl (hr chunk)
  | eintr => exact h
  | eof => exact h.move ha ho rfl nofun
  | eagain => exact h.move ha ho rfl nofun
  | fail => exact h.move ha ho rfl nofun

theorem parse (h : PeerInv stream unread cmds replies p) (hp : p.phase = .parsing) :
    PeerInv stream unread cmds replies (peerParse p) := by
  have ha : p.phase.alive = true := by rw [hp]; rfl
  have ho : p.out = [] := h.out_nil (by rw [hp]; nofun)
  rw [peerParse]
  split
  case isTrue => exact h.move ha ho rfl nofun
  case isFalse =>
    cases hparse : respParse p.inBuf with
    | incomplete => exact h.move ha ho rfl nofun
    | error e => exact h.farewell ha (.inr ⟨e, hparse, rfl⟩)
    | ok cmd consumed =>
      refine h.move ha ho rfl ?_
      intro cmd' n' hl
      cases hl
      exact hparse

theorem dispatch (h : PeerInv stream unread cmds replies p) {cmd : Command} {consumed : Nat}
    (hp : p.phase = .locking cmd consumed) (hash : Bytes → UInt64) (env : Env) (st : CmdState) :
    PeerInv stream unread (cmds ++ [cmd]) (replies ++ (cmdDispatch hash env st cmd).2)
      (peerDispatch hash env st p cmd consumed).2 where
  parsed := by
    have ha : p.phase.alive = true := by rw [hp]; rfl
    have hparse := h.locked cmd consumed hp
    have hle : consumed ≤ p.inBuf.length := (respParser.ok_bounds hparse).2
    have hc := (h.consumes ha).snoc (respParser.ok_append hparse unread)
    rw [List.drop_append_of_le_length hle] at hc
    exact ⟨_, hc, List.prefix_append _ _, fun _ => rfl⟩
  locked := nofun
  owes := by
    have ha : p.phase.alive = true := by rw [hp]; rfl
    have hb := h.unbroken (ne_closed ha)
    refine ⟨[], .inl rfl, ?_⟩
    simp only [peerDispatch, hb, Bool.false_eq_true, if_false]
    rw [← List.append_assoc, h.written_out ha, List.append_nil]
  broken := fun hb => by
    rw [h.broken hb] at hp
    cases hp
  settled := .inr ⟨false, rfl⟩

theorem flush (h : PeerInv stream unread cmds replies p) {fatal : Bool}
    (hp : p.phase = .flushing fatal) (lost : Option Nat) :
    PeerInv stream unread cmds replies (peerFlush p fatal lost) := by
  have hb : p.broken = false := h.unbroken (by rw [hp]; nofun)
  have halive : p.phase.alive = !fatal := by rw [hp]; rfl
  obtain ⟨rest, hc, hin, hrest⟩ := h.parsed
  obtain ⟨tail, htail, hr⟩ := h.owes
  simp only [hb, Bool.false_eq_true, if_false] at hr
  rw [halive] at hrest htail
  rw [peerFlush]
  split
  case h_1 =>
    refine ⟨⟨rest, hc, hin, ?_⟩, ?_, ⟨tail, ?_, ?_⟩, ?_, .inl rfl⟩
    · cases fatal with
      | false => exact fun _ => hrest rfl
      | true => nofun
    · cases fatal <;> nofun
    · cases fatal with
      | false => exact .inl (htail.resolve_right (by simp))
      | true => exact htail
    · simpa [hb] using hr
    · simp [hb]
  case h_2 n _ =>
    refine ⟨⟨rest, hc, hin, nofun⟩, nofun, ⟨tail, ?_, ?_⟩, fun _ => rfl, .inl rfl⟩
    · exact htail.imp id (And.imp_left (fun _ => rfl))
    · rw [if_pos rfl, ← hr]
      exact (List.prefix_append_right_inj _).mpr (List.take_prefix _ _)

end PeerInv

section PoolRuns

variable [DecidableEq κ]

structure PoolInv (hash : Bytes → UInt64) (stream : κ → Bytes) (st : CmdState) (w : Pool κ ω) :
    Prop where
  state : w.state = (sequential hash st w.log).1
  peers : ∀ c, PeerInv (stream c) (w.unread c) (commandsOf c w.log)
    (repliesOf hash st c w.log).flatten (w.peer c)

namespace PoolInv

variable {stream : κ → Bytes} {st : CmdState} {w w' : Pool κ ω}

theorem start (stream : κ → Bytes) (arriving : List κ) (st : CmdState) :
    PoolInv hash stream st (Pool.start stream arriving st : Pool κ ω) where
  state := rfl
  peers c := .accepted (stream c)

theorem local_step (h : PoolInv hash stream st w) {c : κ} {p : Peer} {unread : Bytes}
    (hp : PeerInv (stream c) unread (commandsOf c w.log) (repliesOf hash st c w.log).flatten p) :
    PoolInv hash stream st
      { w.setPeer c p with unread := Function.update w.unread c unread } where
  state := h.state
  peers c' := by
    rcases eq_or_ne c' c with rfl | hne
    · simpa [Pool.setPeer] using hp
    · simpa [Pool.setPeer, hne] using h.peers c'

theorem set_peer (h : PoolInv hash stream st w) {c : κ} {p : Peer}
    (hp : PeerInv (stream c) (w.unread c) (commandsOf c w.log)
      (repliesOf hash st c w.log).flatten p) : PoolInv hash stream st (w.setPeer c p) := by
  have hl := h.local_step hp
  rwa [Function.update_eq_self] at hl

theorem read {c : κ} {n : Nat} (h : PoolInv hash stream st w) (hs : poolRead w c n = some w') :
    PoolInv hash stream st w' := by
  rw [poolRead, Option.ite_none_right_eq_some] at hs
  obtain ⟨⟨hp, -, hn, -⟩, hw⟩ := hs
  cases hw
  exact h.local_step ((h.peers c).read hp hn)

theorem noRead {c : κ} {r : ReadResult} (h : PoolInv hash stream st w)
    (hs : poolNoRead w c r = some w') : PoolInv hash stream st w' := by
  rw [poolNoRead.eq_def] at hs
  split at hs
  case h_1 => cases hs
  case h_2 hr =>
    rw [Option.ite_none_right_eq_some] at hs
    obtain ⟨⟨hp, -⟩, hw⟩ := hs
    cases hw
    exact h.set_peer ((h.peers c).noRead hp hr)

theorem parse {c : κ} (h : PoolInv hash stream st w) (hs : poolParse w c = some w') :
    PoolInv hash stream st w' := by
  rw [poolParse, Option.ite_none_right_eq_some] at hs
  obtain ⟨hp, hw⟩ := hs
  cases hw
  exact h.set_peer ((h.peers c).parse hp)

theorem flush {c : κ} {lost : Option Nat} (h : PoolInv hash stream st w)
    (hs : poolFlush w c lost = some w') : PoolInv hash stream st w' := by
  rw [poolFlush] at hs
  split at hs
  case h_1 fatal hp =>
    cases hs
    exact h.set_peer ((h.peers c).flush hp lost)
  case h_2 => cases hs

theorem dispatch {c : κ} {env : Env} (h : PoolInv hash stream st w)
    (hs : poolDispatch hash w c env = some w') : PoolInv hash stream st w' := by
  rw [poolDispatch] at hs
  split at hs
  case h_2 => cases hs
  case h_1 cmd consumed hp =>
    cases hs
    have hd := (h.peers c).dispatch hp hash env w.state
    refine ⟨?_, ?_⟩
    · simp only [sequential_snoc, ← h.state]
      rfl
    · intro c'
      rcases eq_or_ne c' c with rfl | hne
      · rw [h.state] at hd
        simpa [Pool.setPeer, commandsOf_snoc_self, repliesOf_snoc_self, h.state] using hd
      · simpa [Pool.setPeer, hne, commandsOf_snoc_ne w.log hne, repliesOf_snoc_ne st w.log hne]
          using h.peers c'

theorem step [DecidableEq ω] (h : PoolInv hash stream st w) {ev : PoolEvent ω}
    (hs : poolStep hash w ev = some w') : PoolInv hash stream st w' := by
  cases ev with
  | accept =>
    rw [poolStep] at hs
    split at hs
    case h_1 => cases hs
    case h_2 =>
      cases hs
      exact ⟨h.state, h.peers⟩
  | pop i =>
    rw [poolStep] at hs
    split at hs
    case h_1 =>
      cases hs
      exact ⟨h.state, h.peers⟩
    case h_2 => cases hs
  | read i n =>
    obtain ⟨c, -, hr⟩ := Option.bind_eq_some_iff.mp hs
    exact h.read hr
  | noRead i r =>
    obtain ⟨c, -, hr⟩ := Option.bind_eq_some_iff.mp hs
    exact h.noRead hr
  | parse i =>
    obtain ⟨c, -, hp⟩ := Option.bind_eq_some_iff.mp hs
    exact h.parse hp
  | dispatch i env =>
    obtain ⟨c, -, hd⟩ := Option.bind_eq_some_iff.mp hs
    exact h.dispatch hd
  | flush i lost =>
    obtain ⟨c, -, hf⟩ := Option.bind_eq_some_iff.mp hs
    exact h.flush hf
  | finish i =>
    obtain ⟨c, -, hf⟩ := Option.bind_eq_some_iff.mp hs
    rw [Option.ite_none_right_eq_some] at hf
    obtain ⟨-, hw⟩ := hf
    cases hw
    exact ⟨h.state, h.peers⟩

end PoolInv

variable [DecidableEq ω]

def Interleaved (hash : Bytes → UInt64) (stream : κ → Bytes) (arriving : List κ) (st : CmdState)
    (w : Pool κ ω) : Prop :=
  Machine.ReachableVia (poolStep hash) (fun _ _ => True) (Pool.start stream arriving st) w

theorem Interleaved.inv {stream : κ → Bytes} {arriving : List κ} {st : CmdState} {w : Pool κ ω}
    (h : Interleaved hash stream arriving st w) : PoolInv hash stream st w :=
  Machine.ReachableVia.invariant h (.start stream arriving st) (fun _ _ _ hw _ hs => hw.step hs)

structure Served (replies : List Bytes) (p : Peer) : Prop where
  owes : p.Owes replies.flatten
  flushed : p.out ≠ [] → ∃ fatal, p.phase = .flushing fatal
  broken : p.broken = true → p.phase = .closed

theorem threaded_server_serializable (hash : Bytes → UInt64) (stream : κ → Bytes)
    (arriving : List κ) (st : CmdState) {w : Pool κ ω}
    (h : Interleaved hash stream arriving st w) :
    w.state = (sequential hash st w.log).1 ∧
      ∀ c, commandsOf c w.log <+: (respParser.drain (stream c)).cmds ∧
        Served (repliesOf hash st c w.log) (w.peer c) := by
  refine ⟨h.inv.state, ?_⟩
  intro c
  obtain ⟨⟨rest, hc, -, -⟩, -, howes, hbroken, hsettled⟩ := h.inv.peers c
  exact ⟨hc.initial, howes, hsettled.resolve_left, hbroken⟩

end PoolRuns

section Counters

def quietMoment : Env := ⟨0, 0, .ok, false⟩

def twoCounters : List (PoolEvent Bool) :=
  [.accept, .pop false, .read false 3, .accept, .pop true, .read true 8, .parse false,
    .parse true, .read false 5, .parse false, .dispatch true quietMoment,
    .dispatch false quietMoment, .flush false none, .flush true none]

def countersStart : Pool Bool Bool :=
  Pool.start (fun _ => str "INCR n\r\n") [false, true] ⟨storeCreate, [], 0⟩

def countersEnd : Option (Pool Bool Bool) :=
  Machine.exec (poolStep fnv1aHash) countersStart twoCounters

theorem countersEnd_log :
    countersEnd.map (fun w =>
        (w.log.map Prod.fst, (w.peer true).written, (w.peer false).written)) =
      some ([true, false], str ":1\r\n", str ":2\r\n") := by
  decide +kernel

theorem threaded_server_serializable_counters :
    ∃ w, countersEnd = some w ∧ w.log.map Prod.fst = [true, false] ∧
      (w.peer true).written = str ":1\r\n" ∧ (w.peer false).written = str ":2\r\n" ∧
      w.state = (sequential fnv1aHash ⟨storeCreate, [], 0⟩ w.log).1 := by
  obtain ⟨w, hw, hlog⟩ := Option.map_eq_some_iff.mp countersEnd_log
  simp only [Prod.mk.injEq] at hlog
  obtain ⟨hlog, htrue, hfalse⟩ := hlog
  have hrun : Interleaved fnv1aHash (fun _ => str "INCR n\r\n") [false, true]
      ⟨storeCreate, [], 0⟩ w :=
    Machine.ReachableVia.start.exec (fun _ _ => trivial) hw
  exact ⟨w, hw, hlog, htrue, hfalse, (threaded_server_serializable _ _ _ _ hrun).1⟩

end Counters

end RedisServer

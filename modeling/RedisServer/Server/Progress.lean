import RedisServer.Resp.Checked
import RedisServer.Server.Agreement

namespace RedisServer

section Fuel

variable (hash : Bytes → UInt64) (envs : Nat → Env)

theorem drop_lt_of_ok {buf : Bytes} {cmd : Command} {n : Nat} (h : respParse buf = .ok cmd n) :
    (buf.drop n).length < buf.length :=
  Incremental.Parser.drop_length_lt (P := respParser) h

theorem connProcessFuel_succ {fuel : Nat} {s : Session} (h : s.conn.inBuf.length ≤ fuel) :
    connProcessFuel hash envs (fuel + 1) s = connProcessFuel hash envs fuel s := by
  induction fuel generalizing s with
  | zero =>
    simp only [connProcessFuel]
    rw [if_neg (by omega)]
  | succ fuel ih =>
    rw [connProcessFuel, connProcessFuel]
    split_ifs with hc
    · cases hp : respParse s.conn.inBuf with
      | incomplete => rfl
      | error e => rfl
      | ok cmd n =>
        have hlt := drop_lt_of_ok hp
        exact ih (by simp only [connInConsume, connReply]; omega)
    · rfl

theorem connProcessFuel_of_le {fuel : Nat} {s : Session} (h : s.conn.inBuf.length ≤ fuel) :
    connProcessFuel hash envs fuel s = connProcessInput hash envs s := by
  induction fuel, h using Nat.le_induction with
  | base => rfl
  | succ fuel h ih => rw [connProcessFuel_succ hash envs h, ih]

theorem peerFlush_inBuf (p : Peer) (fatal : Bool) (lost : Option Nat) :
    (peerFlush p fatal lost).inBuf = p.inBuf := by
  unfold peerFlush
  split <;> rfl

theorem handleInput_succ {fuel : Nat} {h : Handled} (hf : h.peer.inBuf.length < fuel) :
    handleInput hash envs (fuel + 1) h = handleInput hash envs fuel h := by
  induction fuel generalizing h with
  | zero => omega
  | succ fuel ih =>
    rw [handleInput, handleInput]
    dsimp only
    unfold peerParse
    split_ifs with hb
    · rfl
    · cases hp : respParse h.peer.inBuf with
      | incomplete => rfl
      | error e => rfl
      | ok cmd n =>
        have hlt := drop_lt_of_ok hp
        exact ih (by simp only [peerDispatch, peerFlush_inBuf]; omega)

theorem handleInput_of_lt {fuel : Nat} {h : Handled} (hf : h.peer.inBuf.length + 1 ≤ fuel) :
    handleInput hash envs fuel h = handleInput hash envs (h.peer.inBuf.length + 1) h := by
  induction fuel, hf using Nat.le_induction with
  | base => rfl
  | succ fuel hf ih => rw [handleInput_succ hash envs hf, ih]

end Fuel

namespace Checked

open Guarded

variable (hash : Bytes → UInt64)

-- memmove(buf, buf + n, len - n); len -= n
def slideDown (buf : Bytes) (n : Nat) : Except Fault Bytes := do
  let left ← sub buf.length n
  copy buf n left

def connInConsume (c : Conn) (n : Nat) : Except Fault Conn := do
  let rest ← slideDown c.inBuf n
  return { c with inBuf := rest }

def dynBufConsume (buf : Bytes) (n : Nat) : Except Fault Bytes := slideDown buf n

def connTurn (envs : Nat → Env) (s : Session) : Except Fault (Turn Session Session) :=
  if 0 < s.conn.inBuf.length ∧ s.conn.closing = false then do
    match ← respParse s.conn.inBuf with
    | (.incomplete, _) => return .leave s
    | (.error e, _) =>
      return .leave
        { s with
          conn := { connReply s.conn (respReplyError e.msg) with closing := true }
          parseError := some e }
    | (.ok cmd, consumed) =>
      let r := cmdDispatch hash (envs s.dispatched.length) s.state cmd
      let c ← connInConsume (connReply s.conn r.2) consumed
      return .again { s with conn := c, state := r.1, dispatched := s.dispatched ++ [cmd] }
  else .ok (.leave s)

def connProcessInput (envs : Nat → Env) (s : Session) : Except Fault Session :=
  loop (connTurn hash envs) (s.conn.inBuf.length + 1) s

-- what a worker does not decide: the clock and the disk, what the other workers do to the store
-- before it holds g_store_mu, and after how many bytes write_all loses the connection
structure World where
  envs : Nat → Env
  others : Nat → CmdState → CmdState
  lost : Nat → Option Nat

def World.alone (envs : Nat → Env) : World := ⟨envs, fun _ st => st, fun _ => none⟩

-- one turn of the inner loop of handle_conn
def handleTurn (w : World) (h : Handled) : Except Fault (Turn Handled Handled) :=
  if 0 < h.peer.inBuf.length then do
    let k := h.dispatched.length
    match ← respParse h.peer.inBuf with
    | (.incomplete, _) => return .leave { h with peer := { h.peer with phase := .reading } }
    | (.error e, _) =>
      let p := { h.peer with out := h.peer.out ++ respReplyError e.msg }
      return .leave { h with peer := peerFlush p true (w.lost k) }
    | (.ok cmd, consumed) =>
      let r := cmdDispatch hash (w.envs k) (w.others k h.state) cmd
      let rest ← dynBufConsume h.peer.inBuf consumed
      let p := peerFlush { h.peer with out := h.peer.out ++ r.2, inBuf := rest } false (w.lost k)
      let next : Handled := ⟨p, r.1, h.dispatched ++ [cmd]⟩
      return if p.phase = .closed then .leave next else .again next
  else .ok (.leave { h with peer := { h.peer with phase := .reading } })

def handleInput (w : World) (h : Handled) : Except Fault Handled :=
  loop (handleTurn hash w) (h.peer.inBuf.length + 1) h

variable {hash}

theorem slideDown_eq {buf : Bytes} {n : Nat} (h : n ≤ buf.length) :
    slideDown buf n = .ok (buf.drop n) := by
  rw [slideDown, sub_eq h, ok_bind, copy_eq (by omega), List.take_of_length_le (by simp)]

theorem connInConsume_eq {c : Conn} {n : Nat} (h : n ≤ c.inBuf.length) :
    connInConsume c n = .ok (RedisServer.connInConsume c n) := by
  rw [connInConsume, slideDown_eq h]
  rfl

theorem connTurn_spec (envs : Nat → Env) (s : Session) :
    connTurn hash envs s = .ok (.leave (RedisServer.connProcessInput hash envs s)) ∨
      ∃ s', connTurn hash envs s = .ok (.again s') ∧
        s'.conn.inBuf.length < s.conn.inBuf.length ∧
        RedisServer.connProcessInput hash envs s' = RedisServer.connProcessInput hash envs s := by
  -- one more turn of fuel than the buffer has bytes, so that the first turn can be unfolded
  have hturn := connProcessFuel_of_le hash envs (Nat.le_succ s.conn.inBuf.length)
  rw [connProcessFuel] at hturn
  unfold connTurn
  split_ifs at hturn ⊢ with hc
  · rw [respParse_eq, ok_bind]
    cases hp : RedisServer.respParse s.conn.inBuf with
    | incomplete =>
      rw [hp] at hturn
      rw [← hturn]
      exact .inl rfl
    | error e =>
      rw [hp] at hturn
      rw [← hturn]
      exact .inl rfl
    | ok cmd n =>
      rw [hp] at hturn
      right
      have hlt := drop_lt_of_ok hp
      have hconsume : ∀ r, connInConsume (connReply s.conn r) n =
          .ok (RedisServer.connInConsume (connReply s.conn r) n) :=
        fun r => connInConsume_eq (respParse_ok hp).2.1
      dsimp only [Status.of, bytesConsumed]
      rw [hconsume, ok_bind]
      refine ⟨_, rfl, hlt, ?_⟩
      rw [← hturn]
      exact (connProcessFuel_of_le hash envs hlt.le).symm
  · rw [← hturn]
    exact .inl rfl

theorem connProcessInput_eq (envs : Nat → Env) (s : Session) :
    connProcessInput hash envs s = .ok (RedisServer.connProcessInput hash envs s) := by
  refine loop_eq (fun _ => True) (fun t : Session => t.conn.inBuf.length)
    (RedisServer.connProcessInput hash envs) (fun t _ => ?_) trivial (Nat.lt_succ_self _)
  rcases connTurn_spec envs t with h | ⟨t', h, hlt, hF⟩
  · exact .inl h
  · exact .inr ⟨t', h, trivial, hlt, hF⟩

theorem handleTurn_spec (w : World) (h : Handled) :
    (∃ h', handleTurn hash w h = .ok (.leave h') ∧ h'.peer.inBuf <:+ h.peer.inBuf) ∨
      ∃ h', handleTurn hash w h = .ok (.again h') ∧ h'.peer.inBuf <:+ h.peer.inBuf ∧
        h'.peer.inBuf.length < h.peer.inBuf.length := by
  unfold handleTurn
  split_ifs with hb
  · rw [respParse_eq, ok_bind]
    cases hp : RedisServer.respParse h.peer.inBuf with
    | incomplete => exact .inl ⟨_, rfl, List.suffix_refl _⟩
    | error e =>
      refine .inl ⟨_, rfl, ?_⟩
      rw [peerFlush_inBuf]
    | ok cmd n =>
      have hlt := drop_lt_of_ok hp
      have hslide : dynBufConsume h.peer.inBuf n = .ok (h.peer.inBuf.drop n) :=
        slideDown_eq (respParse_ok hp).2.1
      dsimp only [Status.of, bytesConsumed]
      rw [hslide, ok_bind]
      dsimp only [pure_eq]
      split_ifs
      · refine .inl ⟨_, rfl, ?_⟩
        rw [peerFlush_inBuf]
        exact List.drop_suffix n _
      · refine .inr ⟨_, rfl, ?_, ?_⟩
        · rw [peerFlush_inBuf]
          exact List.drop_suffix n _
        · rw [peerFlush_inBuf]
          exact hlt
  · exact .inl ⟨_, rfl, List.suffix_refl _⟩

theorem handleInput_ends (w : World) (h : Handled) :
    ∃ h', handleInput hash w h = .ok h' ∧ h'.peer.inBuf <:+ h.peer.inBuf := by
  refine loop_ends (fun t : Handled => t.peer.inBuf <:+ h.peer.inBuf)
    (fun t => t.peer.inBuf.length) (fun t : Handled => t.peer.inBuf <:+ h.peer.inBuf)
    (fun t ht => ?_)
    (List.suffix_refl _) (Nat.lt_succ_self _)
  rcases handleTurn_spec w t with ⟨t', ht', hs⟩ | ⟨t', ht', hs, hlt⟩
  · exact .inl ⟨t', ht', hs.trans ht⟩
  · exact .inr ⟨t', ht', hs.trans ht, hlt⟩

theorem handleTurn_alone (envs : Nat → Env) (h : Handled) :
    handleTurn hash (.alone envs) h =
        .ok (.leave (RedisServer.handleInput hash envs (h.peer.inBuf.length + 1) h)) ∨
      ∃ h', handleTurn hash (.alone envs) h = .ok (.again h') ∧
        h'.peer.inBuf.length < h.peer.inBuf.length ∧
        RedisServer.handleInput hash envs (h'.peer.inBuf.length + 1) h' =
          RedisServer.handleInput hash envs (h.peer.inBuf.length + 1) h := by
  rw [RedisServer.handleInput, peerParse, handleTurn]
  by_cases hb : h.peer.inBuf.length = 0
  · rw [if_neg (by omega), if_pos hb]
    exact .inl rfl
  · rw [if_pos (by omega), if_neg hb, respParse_eq, ok_bind]
    cases hp : RedisServer.respParse h.peer.inBuf with
    | incomplete => exact .inl rfl
    | error e =>
      left
      dsimp only [Status.of, bytesConsumed, World.alone]
      rw [peerFlush_none, peerFlush_none]
      rfl
    | ok cmd n =>
      right
      have hlt := drop_lt_of_ok hp
      have hslide : dynBufConsume h.peer.inBuf n = .ok (h.peer.inBuf.drop n) :=
        slideDown_eq (respParse_ok hp).2.1
      dsimp only [Status.of, bytesConsumed, World.alone, peerDispatch]
      rw [hslide, ok_bind]
      dsimp only [pure_eq]
      simp only [peerFlush_none]
      refine ⟨_, rfl, hlt, ?_⟩
      exact (handleInput_of_lt hash envs hlt).symm

theorem handleInput_alone (envs : Nat → Env) (h : Handled) :
    handleInput hash (.alone envs) h =
      .ok (RedisServer.handleInput hash envs (h.peer.inBuf.length + 1) h) := by
  refine loop_eq (fun _ => True) (fun t : Handled => t.peer.inBuf.length)
    (fun t => RedisServer.handleInput hash envs (t.peer.inBuf.length + 1) t) (fun t _ => ?_)
    trivial (Nat.lt_succ_self _)
  rcases handleTurn_alone envs t with h | ⟨t', h, hlt, hF⟩
  · exact .inl h
  · exact .inr ⟨t', h, trivial, hlt, hF⟩

-- how *bytes_consumed and the returned status go together
def Status.Consumes (len n : Nat) : Status → Prop
  | .ok _ => 1 ≤ n ∧ n ≤ len
  | .incomplete => n = 0
  | .error _ => n = 0

theorem consumes_respParse (buf : Bytes) :
    (Status.of (RedisServer.respParse buf)).Consumes buf.length
      (bytesConsumed (RedisServer.respParse buf)) := by
  cases hp : RedisServer.respParse buf with
  | incomplete => rfl
  | error e => rfl
  | ok cmd n =>
    obtain ⟨hpos, hle, -⟩ := respParse_ok hp
    exact ⟨hpos, hle⟩

end Checked

theorem parser_in_bounds_and_loops_end (hash : Bytes → UInt64) :
    (∀ buf, ∃ st n, Checked.respParse buf = .ok (st, n) ∧ st.Consumes buf.length n ∧
      st = Checked.Status.of (respParse buf) ∧ n = bytesConsumed (respParse buf)) ∧
    (∀ envs s, Checked.connProcessInput hash envs s = .ok (connProcessInput hash envs s)) ∧
    (∀ w h, ∃ h', Checked.handleInput hash w h = .ok h' ∧ h'.peer.inBuf <:+ h.peer.inBuf) ∧
    ∀ envs h, Checked.handleInput hash (.alone envs) h =
      .ok (handleInput hash envs (h.peer.inBuf.length + 1) h) :=
  ⟨fun buf => ⟨_, _, Checked.respParse_eq buf, Checked.consumes_respParse buf, rfl, rfl⟩,
    Checked.connProcessInput_eq, Checked.handleInput_ends, Checked.handleInput_alone⟩

end RedisServer

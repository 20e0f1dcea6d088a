import RedisServer.Lib.Doubling
import RedisServer.Server.ClientTurn
import RedisServer.Server.Serializable

namespace RedisServer

variable (hash : Bytes → UInt64) (envs : Nat → Nat → Env)

def maxEvents : Nat := 64
def connsTableFirst : Nat := 64

-- the outcome of accept4(), and for a new descriptor that of registering it with epoll
inductive AcceptResult where
  | conn (fd : Nat) (added : Bool)
  | eintr
  | stop
  deriving DecidableEq, Repr

deriving instance DecidableEq for ConnReady

-- one element of events[]; c is the connection that the kernel means by fd
inductive Reported where
  | listen (accepts : List AcceptResult)
  | client (fd c : Nat) (e : ConnReady)
  deriving DecidableEq

def Reported.descriptor : Reported → Option Nat
  | .listen _ => none
  | .client fd _ _ => some fd

-- connections are numbered as they are accepted. conns is g_conns, as long as g_conns_cap, and
-- descriptor holds each conn_t's fd; files is the kernel's table, and received, log and closes
-- record the bytes read, the dispatches and the calls of close()
structure EpollServer where
  conns : List (Option Nat)
  descriptor : Nat → Nat
  session : Nat → Session
  accepted : Nat
  files : Nat → Option Nat
  received : Nat → Bytes
  state : CmdState
  log : DispatchLog Nat
  closes : Nat → Nat
  batch : List Reported
  running : Bool

def connsTableEnsure (conns : List (Option Nat)) (fd : Nat) : List (Option Nat) :=
  if fd < conns.length then conns
  else
    conns ++
      List.replicate (Doubling.grow connsTableFirst conns.length (fd + 1) - conns.length) none

namespace EpollServer

def start (st : CmdState) : EpollServer where
  conns := []
  descriptor := fun _ => 0
  session := fun _ => Session.start st
  accepted := 0
  files := fun _ => none
  received := fun _ => []
  state := st
  log := []
  closes := fun _ => 0
  batch := []
  running := true

def lookup (σ : EpollServer) (fd : Nat) : Option Nat :=
  if h : fd < σ.conns.length then σ.conns[fd] else none

-- accept4() and conn_create
def connCreate (σ : EpollServer) (fd : Nat) : EpollServer :=
  { σ with
    conns := (connsTableEnsure σ.conns fd).set fd (some σ.accepted)
    descriptor := Function.update σ.descriptor σ.accepted fd
    session := Function.update σ.session σ.accepted (Session.start σ.state)
    accepted := σ.accepted + 1
    files := Function.update σ.files fd (some σ.accepted) }

def connClose (σ : EpollServer) (c : Nat) : EpollServer :=
  { σ with
    conns := σ.conns.set (σ.descriptor c) none
    session := Function.update σ.session c (RedisServer.connClose (σ.session c))
    files := Function.update σ.files (σ.descriptor c) none
    closes := Function.update σ.closes c (σ.closes c + 1) }

def enroll (σ : EpollServer) (fd : Nat) (added : Bool) : EpollServer :=
  if added then σ.connCreate fd else (σ.connCreate fd).connClose σ.accepted

-- the results of the accept4() calls in order; where they run out no connection is pending
def handleListenReadable : List AcceptResult → EpollServer → Option EpollServer
  | [], σ => some σ
  | .eintr :: rs, σ => handleListenReadable rs σ
  | .stop :: _, σ => some σ
  | .conn fd added :: rs, σ =>
    if σ.files fd = none then handleListenReadable rs (σ.enroll fd added) else none

-- the handlers for one ready connection, before the descriptor of a closed one is given back
def ready (σ : EpollServer) (c : Nat) (e : ConnReady) : EpollServer :=
  let s := { σ.session c with state := σ.state }
  let s' := connReady hash (envs c) e s
  { σ with
    session := Function.update σ.session c s'
    received := Function.update σ.received c (σ.received c ++ e.taken s)
    state := s'.state
    log := σ.log ++ (timed (envs c) s.dispatched.length
      (s'.dispatched.drop s.dispatched.length)).map (Prod.mk c) }

def clientTurn (σ : EpollServer) (c : Nat) (e : ConnReady) : EpollServer :=
  let σ' := σ.ready hash envs c e
  if (σ'.session c).closed then σ'.connClose c else σ'

def serveEvent (σ : EpollServer) : Reported → Option EpollServer
  | .listen accepts => handleListenReadable accepts σ
  | .client fd _ e =>
    match σ.lookup fd with
    | none => some σ
    | some c => some (σ.clientTurn hash envs c e)

def closeSlot (σ : EpollServer) (fd : Nat) : EpollServer :=
  match σ.lookup fd with
  | none => σ
  | some c => σ.connClose c

def shutdownCleanly (σ : EpollServer) : EpollServer :=
  { (List.range σ.conns.length).foldl closeSlot σ with running := false }

def Meant (σ : EpollServer) : Reported → Prop
  | .listen _ => True
  | .client fd c _ => σ.files fd = some c

instance (σ : EpollServer) : DecidablePred σ.Meant
  | .listen _ => inferInstanceAs (Decidable True)
  | .client fd c _ => inferInstanceAs (Decidable (σ.files fd = some c))

-- epoll_wait reports a registered descriptor at most once
structure Reports (σ : EpollServer) (batch : List Reported) : Prop where
  meant : ∀ ev ∈ batch, σ.Meant ev
  once : (batch.map Reported.descriptor).Nodup

instance (σ : EpollServer) (batch : List Reported) : Decidable (σ.Reports batch) :=
  decidable_of_iff ((∀ ev ∈ batch, σ.Meant ev) ∧ (batch.map Reported.descriptor).Nodup)
    ⟨fun h => ⟨h.1, h.2⟩, fun h => ⟨h.meant, h.once⟩⟩

inductive Move where
  | wait (batch : List Reported)
  | turn
  | halt

def step (σ : EpollServer) : Move → Option EpollServer
  | .wait batch =>
    if σ.running ∧ σ.batch = [] ∧ batch.length ≤ maxEvents ∧ σ.Reports batch then
      some { σ with batch := batch }
    else none
  | .turn =>
    match σ.batch with
    | [] => none
    | ev :: rest => serveEvent hash envs { σ with batch := rest } ev
  | .halt => if σ.running ∧ σ.batch = [] then some σ.shutdownCleanly else none

def Reached (hash : Bytes → UInt64) (envs : Nat → Nat → Env) (st : CmdState)
    (σ : EpollServer) : Prop :=
  Machine.ReachableVia (step hash envs) (fun _ _ => True) (start st) σ

section Table

variable {hash envs} {σ σ' : EpollServer} {st : CmdState} {c fd : Nat}

theorem lookup_eq (σ : EpollServer) (fd : Nat) : σ.lookup fd = σ.conns[fd]?.getD none := by
  rw [lookup]
  split
  case isTrue h => rw [List.getElem?_eq_getElem h, Option.getD_some]
  case isFalse h => rw [List.getElem?_eq_none (by omega), Option.getD_none]

theorem length_ensure (conns : List (Option Nat)) (fd : Nat) :
    (connsTableEnsure conns fd).length = conns.length ∨ conns.length < fd + 1 ∧
      (connsTableEnsure conns fd).length =
        Doubling.grow connsTableFirst conns.length (fd + 1) := by
  rw [connsTableEnsure]
  split
  case isTrue => exact .inl rfl
  case isFalse h =>
    have hcap : conns.length ≤ Doubling.grow connsTableFirst conns.length (fd + 1) :=
      Doubling.cap_le_grow
    rw [List.length_append, List.length_replicate]
    exact .inr ⟨by omega, by omega⟩

theorem lt_length_ensure (conns : List (Option Nat)) (fd : Nat) :
    fd < (connsTableEnsure conns fd).length := by
  rw [connsTableEnsure]
  split
  case isTrue h => exact h
  case isFalse h =>
    have hneed : fd + 1 ≤ Doubling.grow connsTableFirst conns.length (fd + 1) :=
      Doubling.need_le_grow (by decide)
    rw [List.length_append, List.length_replicate]
    omega

theorem getD_ensure (conns : List (Option Nat)) (fd i : Nat) :
    (connsTableEnsure conns fd)[i]?.getD none = conns[i]?.getD none := by
  rw [connsTableEnsure]
  split
  case isTrue => rfl
  case isFalse =>
    by_cases hi : i < conns.length
    · rw [List.getElem?_append_left hi]
    · rw [List.getElem?_append_right (by omega), List.getElem?_eq_none (l := conns) (by omega)]
      cases hr : (List.replicate (Doubling.grow connsTableFirst conns.length (fd + 1) -
          conns.length) (none : Option Nat))[i - conns.length]? with
      | none => rfl
      | some x => rw [(List.mem_replicate.mp (List.mem_of_getElem? hr)).2]; rfl

theorem lookup_connCreate (σ : EpollServer) (fd : Nat) :
    (σ.connCreate fd).lookup = Function.update σ.lookup fd (some σ.accepted) := by
  funext i
  rw [lookup_eq]
  simp only [connCreate, List.getElem?_set]
  rcases eq_or_ne i fd with rfl | hne
  · rw [if_pos rfl, if_pos (lt_length_ensure _ _), Function.update_self, Option.getD_some]
  · rw [if_neg hne.symm, getD_ensure, Function.update_of_ne hne, lookup_eq]

theorem lookup_connClose (σ : EpollServer) (c : Nat) :
    (σ.connClose c).lookup = Function.update σ.lookup (σ.descriptor c) none := by
  funext i
  rw [lookup_eq]
  simp only [connClose, List.getElem?_set]
  rcases eq_or_ne i (σ.descriptor c) with rfl | hne
  · rw [if_pos rfl, Function.update_self]
    split <;> rfl
  · rw [if_neg hne.symm, Function.update_of_ne hne, lookup_eq]

-- g_conns and the kernel's table agree, and the open connections are the ones they list
structure Table (σ : EpollServer) : Prop where
  listed : σ.lookup = σ.files
  owner : ∀ fd c, σ.files fd = some c →
    σ.descriptor c = fd ∧ c < σ.accepted ∧ (σ.session c).closed = false
  filed : ∀ c < σ.accepted, (σ.session c).closed = false → σ.files (σ.descriptor c) = some c
  inside : ∀ c < σ.accepted, σ.descriptor c < σ.conns.length
  unborn : ∀ c, σ.accepted ≤ c → (σ.session c).closed = false
  closes : ∀ c, σ.closes c = (σ.session c).closed.toNat
  sized : σ.conns.length = 0 ∨ ∃ k, σ.conns.length = connsTableFirst * 2 ^ k
  tight : ∀ m, (∀ c < σ.accepted, σ.descriptor c ≤ m) →
    σ.conns.length ≤ max connsTableFirst (2 * (m + 1))

theorem Table.start (st : CmdState) : Table (start st) where
  listed := rfl
  owner := nofun
  filed _ hc := absurd hc (Nat.not_lt_zero _)
  inside _ hc := absurd hc (Nat.not_lt_zero _)
  unborn _ _ := rfl
  closes _ := rfl
  sized := .inl rfl
  tight _ _ := Nat.zero_le _

theorem Table.congr (h : Table σ) (hconns : σ'.conns = σ.conns)
    (hdescriptor : σ'.descriptor = σ.descriptor) (hfiles : σ'.files = σ.files)
    (haccepted : σ'.accepted = σ.accepted) (hcloses : σ'.closes = σ.closes)
    (hsession : ∀ c, (σ'.session c).closed = (σ.session c).closed) : Table σ' where
  listed := by
    funext fd
    rw [lookup_eq, hconns, ← lookup_eq, h.listed, hfiles]
  owner fd c hc := by
    rw [hdescriptor, haccepted, hsession]
    exact h.owner fd c (hfiles ▸ hc)
  filed c hc hopen := by
    rw [hfiles, hdescriptor]
    exact h.filed c (haccepted ▸ hc) (hsession c ▸ hopen)
  inside c hc := by
    rw [hdescriptor, hconns]
    exact h.inside c (haccepted ▸ hc)
  unborn c hc := by
    rw [hsession]
    exact h.unborn c (haccepted ▸ hc)
  closes c := by
    rw [hcloses, hsession]
    exact h.closes c
  sized := by
    rw [hconns]
    exact h.sized
  tight m hm := by
    rw [hdescriptor, haccepted] at hm
    rw [hconns]
    exact h.tight m hm

theorem Table.with_batch (h : Table σ) (batch : List Reported) :
    Table { σ with batch := batch } :=
  h.congr rfl rfl rfl rfl rfl (fun _ => rfl)

theorem Table.create (h : Table σ) (hfree : σ.files fd = none) : Table (σ.connCreate fd) where
  listed := by rw [lookup_connCreate, h.listed]; rfl
  owner fd' c hc := by
    simp only [connCreate] at hc ⊢
    rcases eq_or_ne fd' fd with rfl | hne
    · rw [Function.update_self, Option.some.injEq] at hc
      subst hc
      simp [Session.start]
    · rw [Function.update_of_ne hne] at hc
      obtain ⟨hd, hlt, hopen⟩ := h.owner fd' c hc
      have hc' : c ≠ σ.accepted := hlt.ne
      simp [hc', hd, hopen, hlt.trans (Nat.lt_succ_self _)]
  filed c hc hopen := by
    simp only [connCreate] at hc hopen ⊢
    rcases eq_or_ne c σ.accepted with rfl | hne
    · simp
    · simp only [Function.update_of_ne hne] at hopen ⊢
      have hfile := h.filed c (by omega) hopen
      have hfd : σ.descriptor c ≠ fd := by
        rintro rfl
        rw [hfree] at hfile
        cases hfile
      rw [Function.update_of_ne hfd, hfile]
  inside c hc := by
    simp only [connCreate, List.length_set] at hc ⊢
    rcases eq_or_ne c σ.accepted with rfl | hne
    · rw [Function.update_self]
      exact lt_length_ensure _ _
    · rw [Function.update_of_ne hne]
      have hin := h.inside c (by omega)
      refine hin.trans_le ?_
      rw [connsTableEnsure]
      split
      case isTrue => exact le_rfl
      case isFalse => rw [List.length_append]; exact Nat.le_add_right _ _
  unborn c hc := by
    simp only [connCreate] at hc ⊢
    rw [Function.update_of_ne (by omega)]
    exact h.unborn c (by omega)
  closes c := by
    simp only [connCreate]
    rcases eq_or_ne c σ.accepted with rfl | hne
    · rw [Function.update_self, h.closes, h.unborn _ le_rfl]
      rfl
    · rw [Function.update_of_ne hne, h.closes]
  sized := by
    simp only [connCreate, List.length_set]
    rcases length_ensure σ.conns fd with hsame | ⟨-, hgrown⟩
    · rw [hsame]
      exact h.sized
    · rw [hgrown]
      rcases h.sized with hzero | ⟨j, hj⟩
      · exact .inr (Doubling.exists_grow_eq (j := 0) (.inl hzero))
      · exact .inr (Doubling.exists_grow_eq (.inr hj))
  tight m hm := by
    simp only [connCreate, List.length_set] at hm ⊢
    have hfd : fd ≤ m := by simpa using hm σ.accepted (Nat.lt_succ_self _)
    rcases length_ensure σ.conns fd with hsame | ⟨hshort, hgrown⟩
    · rw [hsame]
      refine h.tight m (fun c hc => ?_)
      have hle := hm c (by omega)
      rwa [Function.update_of_ne hc.ne] at hle
    · have hle : Doubling.grow connsTableFirst σ.conns.length (fd + 1) ≤
          max connsTableFirst (2 * (fd + 1)) := Doubling.grow_le hshort
      rw [hgrown]
      omega

theorem Table.close (h : Table σ) (hc : c < σ.accepted) (hopen : (σ.session c).closed = false) :
    Table (σ.connClose c) where
  listed := by rw [lookup_connClose, h.listed]; rfl
  owner fd c' hc' := by
    simp only [EpollServer.connClose] at hc' ⊢
    rcases eq_or_ne fd (σ.descriptor c) with rfl | hne
    · rw [Function.update_self] at hc'
      cases hc'
    · rw [Function.update_of_ne hne] at hc'
      obtain ⟨hd, hlt, hopen'⟩ := h.owner fd c' hc'
      have hcc : c' ≠ c := by
        rintro rfl
        exact hne hd.symm
      exact ⟨hd, hlt, by rw [Function.update_of_ne hcc, hopen']⟩
  filed c' hc' hopen' := by
    simp only [EpollServer.connClose] at hc' hopen' ⊢
    rcases eq_or_ne c' c with rfl | hne
    · simp [RedisServer.connClose] at hopen'
    · rw [Function.update_of_ne hne] at hopen'
      have hfile := h.filed c' hc' hopen'
      have hfd : σ.descriptor c' ≠ σ.descriptor c := by
        intro hsame
        rw [hsame, h.filed c hc hopen] at hfile
        exact hne (Option.some.inj hfile).symm
      rw [Function.update_of_ne hfd, hfile]
  inside c' hc' := by
    simp only [EpollServer.connClose, List.length_set]
    exact h.inside c' hc'
  unborn c' hc' := by
    simp only [EpollServer.connClose] at hc' ⊢
    rw [Function.update_of_ne (by omega)]
    exact h.unborn c' hc'
  closes c' := by
    simp only [EpollServer.connClose]
    rcases eq_or_ne c' c with rfl | hne
    · simp [h.closes, hopen, RedisServer.connClose]
    · simp [hne, h.closes]
  sized := by
    simp only [EpollServer.connClose, List.length_set]
    exact h.sized
  tight m hm := by
    simp only [EpollServer.connClose, List.length_set]
    exact h.tight m hm

theorem Table.enroll (h : Table σ) (hfree : σ.files fd = none) (added : Bool) :
    Table (σ.enroll fd added) := by
  rw [EpollServer.enroll]
  split_ifs
  · exact h.create hfree
  · exact (h.create hfree).close (Nat.lt_succ_self _) (by simp [connCreate, Session.start])

theorem enroll_files {i : Nat} (hfree : σ.files fd = none) (hi : σ.files i = some c)
    (added : Bool) : (σ.enroll fd added).files i = some c := by
  have hne : i ≠ fd := by
    rintro rfl
    rw [hfree] at hi
    cases hi
  rw [EpollServer.enroll]
  split_ifs
  · simp [connCreate, hne, hi]
  · simp [connCreate, connClose, hne, hi]

theorem handleListenReadable_keeps {P : EpollServer → Prop}
    (hstep : ∀ σ fd added, P σ → σ.files fd = none → P (σ.enroll fd added))
    {rs : List AcceptResult} (h : P σ) (hs : handleListenReadable rs σ = some σ') : P σ' := by
  induction rs generalizing σ with
  | nil =>
    cases hs
    exact h
  | cons r rs ih =>
    cases r with
    | eintr => exact ih h hs
    | stop =>
      cases hs
      exact h
    | conn fd added =>
      rw [handleListenReadable, Option.ite_none_right_eq_some] at hs
      exact ih (hstep σ fd added h hs.1) hs.2

theorem Table.listen (h : Table σ) {rs : List AcceptResult}
    (hs : handleListenReadable rs σ = some σ') :
    Table σ' ∧ ∀ fd c, σ.files fd = some c → σ'.files fd = some c :=
  handleListenReadable_keeps (P := fun τ => Table τ ∧ ∀ fd c, σ.files fd = some c →
      τ.files fd = some c)
    (fun _ _ added hτ hfree =>
      ⟨hτ.1.enroll hfree added, fun fd c hc => enroll_files hfree (hτ.2 fd c hc) added⟩)
    ⟨h, fun _ _ hc => hc⟩ hs

theorem Table.turn (h : Table σ) (hc : c < σ.accepted) (hopen : (σ.session c).closed = false)
    (e : ConnReady) : Table (σ.clientTurn hash envs c e) := by
  rw [clientTurn]
  by_cases hclosed : ((σ.ready hash envs c e).session c).closed = true
  · rw [if_pos hclosed]
    refine (h.close hc hopen).congr rfl rfl rfl rfl rfl (fun c' => ?_)
    rcases eq_or_ne c' c with rfl | hne
    · simp [EpollServer.connClose, RedisServer.connClose]
    · simp [EpollServer.connClose, ready, hne]
  · rw [if_neg hclosed]
    refine h.congr rfl rfl rfl rfl rfl (fun c' => ?_)
    rcases eq_or_ne c' c with rfl | hne
    · rw [hopen]
      simpa using hclosed
    · simp [ready, hne]

theorem clientTurn_files (hne : fd ≠ σ.descriptor c) (e : ConnReady) :
    (σ.clientTurn hash envs c e).files fd = σ.files fd := by
  rw [clientTurn]
  split_ifs
  · simp [EpollServer.connClose, ready, hne]
  · rfl

theorem Reports.tail {ev : Reported} {rest : List Reported} (h : σ.Reports (ev :: rest)) :
    σ.Reports rest :=
  ⟨fun ev' hev => h.meant ev' (List.mem_cons_of_mem _ hev), (List.nodup_cons.mp h.once).2⟩

theorem Reports.of_files {batch : List Reported} (h : σ.Reports batch)
    (hfiles : ∀ fd c e, .client fd c e ∈ batch → σ.files fd = some c → σ'.files fd = some c) :
    σ'.Reports batch where
  once := h.once
  meant ev hev := by
    cases ev with
    | listen accepts => trivial
    | client fd c e => exact hfiles fd c e hev (h.meant _ hev)

-- the descriptors behind a handled event are not those that its handler gives back
theorem Reports.turn {e : ConnReady} {rest : List Reported} (h : Table σ)
    (hr : σ.Reports (.client fd c e :: rest)) :
    (σ.clientTurn hash envs c e).Reports rest := by
  have hfd : σ.descriptor c = fd := (h.owner fd c (hr.meant _ List.mem_cons_self)).1
  refine hr.tail.of_files (fun fd' c' e' hmem hc' => ?_)
  have hne : fd' ≠ σ.descriptor c := by
    rintro rfl
    rw [hfd] at hmem
    exact (List.nodup_cons.mp hr.once).1 (List.mem_map.mpr ⟨_, hmem, rfl⟩)
  rw [clientTurn_files hne, hc']

theorem Table.lookup_reported {e : ConnReady} {rest : List Reported} (h : Table σ)
    (hr : σ.Reports (.client fd c e :: rest)) :
    σ.lookup fd = some c ∧ σ.descriptor c = fd ∧ c < σ.accepted ∧
      (σ.session c).closed = false := by
  have hfile : σ.files fd = some c := hr.meant _ List.mem_cons_self
  exact ⟨h.listed ▸ hfile, h.owner fd c hfile⟩

theorem Table.closeSlot (h : Table σ) (fd : Nat) : Table (σ.closeSlot fd) := by
  rw [EpollServer.closeSlot]
  cases hl : σ.lookup fd with
  | none => exact h
  | some c =>
    rw [h.listed] at hl
    obtain ⟨-, hlt, hopen⟩ := h.owner fd c hl
    exact h.close hlt hopen

theorem closeSlots_spec (h : Table σ) (n : Nat) :
    Table ((List.range n).foldl EpollServer.closeSlot σ) ∧
      ((List.range n).foldl EpollServer.closeSlot σ).conns.length = σ.conns.length ∧
      ∀ i < n, ((List.range n).foldl EpollServer.closeSlot σ).files i = none := by
  induction n with
  | zero => exact ⟨h, rfl, fun _ hi => absurd hi (Nat.not_lt_zero _)⟩
  | succ n ih =>
    rw [List.range_succ, List.foldl_append, List.foldl_cons, List.foldl_nil]
    generalize (List.range n).foldl EpollServer.closeSlot σ = τ at ih
    obtain ⟨hτ, hlen, hnone⟩ := ih
    refine ⟨hτ.closeSlot n, ?_, ?_⟩
    · rw [EpollServer.closeSlot]
      cases τ.lookup n with
      | none => exact hlen
      | some c => simpa [EpollServer.connClose] using hlen
    · intro i hi
      rw [EpollServer.closeSlot]
      cases hl : τ.lookup n with
      | none =>
        rcases Nat.lt_succ_iff_lt_or_eq.mp hi with hlt | rfl
        · exact hnone i hlt
        · rw [← hτ.listed, hl]
      | some c =>
        rw [hτ.listed] at hl
        have hfd := (hτ.owner n c hl).1
        rcases Nat.lt_succ_iff_lt_or_eq.mp hi with hlt | rfl
        · simp [EpollServer.connClose, hfd, hlt.ne, hnone i hlt]
        · simp [EpollServer.connClose, hfd]

theorem Table.shutdown (h : Table σ) :
    Table σ.shutdownCleanly ∧ ∀ fd, σ.shutdownCleanly.files fd = none := by
  obtain ⟨htable, hlen, hnone⟩ := closeSlots_spec h σ.conns.length
  refine ⟨htable.congr rfl rfl rfl rfl rfl (fun _ => rfl), fun fd => ?_⟩
  rw [shutdownCleanly]
  generalize (List.range σ.conns.length).foldl EpollServer.closeSlot σ = τ at htable hlen hnone
  cases hfile : τ.files fd with
  | none => rfl
  | some c =>
    obtain ⟨rfl, hlt, -⟩ := htable.owner fd c hfile
    rw [hnone _ (hlen ▸ htable.inside c hlt)] at hfile
    cases hfile

end Table

end EpollServer

end RedisServer

import Mathlib.Data.Fintype.Basic
import RedisServer.Persist.Snapshot
import RedisServer.Lib.FileSystem
import RedisServer.Lib.Machine

namespace RedisServer

open FileSystem

variable {ι : Type}

def tmppath (path : Bytes) : Bytes := path ++ str ".tmp"

-- how far one persist_save has come; the image is built before fopen, and what is left of it while
-- the file is open stands in writing
inductive SaverPhase where
  | built
  | writing (inode : Nat) (todo : Bytes)
  | written
  | failing
  | returned (st : PersistStatus)
  | crashed
  deriving DecidableEq, Repr

inductive SaverAction where
  | fopen
  | fopenFails
  | write (n : Nat)
  | writeFails
  | fclose
  | rename
  | renameFails
  | remove
  | crash
  deriving DecidableEq, Repr

structure SaveWorld (ι : Type) where
  files : FS Bytes UInt8
  phase : ι → SaverPhase

def SaveWorld.moveTo [DecidableEq ι] (w : SaveWorld ι) (i : ι) (p : SaverPhase) : SaveWorld ι :=
  { w with phase := Function.update w.phase i p }

def SaveWorld.withFiles (w : SaveWorld ι) (fs : FS Bytes UInt8) : SaveWorld ι :=
  { w with files := fs }

def saverImage (jobs : ι → Store × Int64) (i : ι) : Bytes := persistImage (jobs i).1 (jobs i).2

def saveStep [DecidableEq ι] (path : Bytes) (jobs : ι → Store × Int64) (w : SaveWorld ι)
    (e : ι × SaverAction) : Option (SaveWorld ι) :=
  match w.phase e.1, e.2 with
  | .built, .fopen =>
    let r := w.files.openTrunc (tmppath path)
    some ((w.withFiles r.1).moveTo e.1 (.writing r.2 (saverImage jobs e.1)))
  | .built, .fopenFails => some (w.moveTo e.1 (.returned .errIo))
  | .writing inode todo, .write n =>
    if 0 < n ∧ todo ≠ [] then
      some ((w.withFiles (w.files.write inode (todo.take n))).moveTo e.1
        (.writing inode (todo.drop n)))
    else none
  | .writing _ _, .writeFails => some (w.moveTo e.1 .failing)
  | .writing _ [], .fclose => some (w.moveTo e.1 .written)
  | .written, .rename =>
    match w.files.rename (tmppath path) path with
    | some fs => some ((w.withFiles fs).moveTo e.1 (.returned .ok))
    | none => some (w.moveTo e.1 .failing)
  | .written, .renameFails => some (w.moveTo e.1 .failing)
  | .failing, .remove =>
    some ((w.withFiles (w.files.remove (tmppath path))).moveTo e.1 (.returned .errIo))
  | .returned _, _ => none
  | .crashed, _ => none
  | _, .crash => some (w.moveTo e.1 .crashed)
  | _, _ => none

-- between its fopen and its rename a run relies on what <path>.tmp holds
def SaverPhase.pending : SaverPhase → Bool
  | .writing _ _ => true
  | .written => true
  | _ => false

def ExclusiveOpen (w : SaveWorld ι) (e : ι × SaverAction) : Prop :=
  e.2 = .fopen → ∀ j, j ≠ e.1 → (w.phase j).pending = false

instance [Fintype ι] [DecidableEq ι] (w : SaveWorld ι) (e : ι × SaverAction) :
    Decidable (ExclusiveOpen w e) := inferInstanceAs (Decidable (_ → ∀ _ : ι, _))

def IntactPath (path : Bytes) (jobs : ι → Store × Int64) (w₀ w : SaveWorld ι) : Prop :=
  w.files.contents path = w₀.files.contents path ∨
    ∃ i, w.files.contents path = some (saverImage jobs i)

inductive SaverCase [DecidableEq ι] (path : Bytes) (jobs : ι → Store × Int64)
    (w : SaveWorld ι) (i : ι) : SaverAction → SaveWorld ι → Prop
  | opened (hp : w.phase i = .built) :
    SaverCase path jobs w i .fopen ((w.withFiles (w.files.openTrunc (tmppath path)).1).moveTo i
      (.writing (w.files.openTrunc (tmppath path)).2 (saverImage jobs i)))
  | wrote {inode : Nat} {todo : Bytes} (n : Nat) (hp : w.phase i = .writing inode todo) :
    SaverCase path jobs w i (.write n) ((w.withFiles (w.files.write inode (todo.take n))).moveTo i
      (.writing inode (todo.drop n)))
  | closed {inode : Nat} (hp : w.phase i = .writing inode []) :
    SaverCase path jobs w i .fclose (w.moveTo i .written)
  | renamed {fs : FS Bytes UInt8} (hp : w.phase i = .written)
    (hr : w.files.rename (tmppath path) path = some fs) :
    SaverCase path jobs w i .rename ((w.withFiles fs).moveTo i (.returned .ok))
  | removed (hp : w.phase i = .failing) :
    SaverCase path jobs w i .remove
      ((w.withFiles (w.files.remove (tmppath path))).moveTo i (.returned .errIo))
  | settled {p : SaverPhase} (a : SaverAction) (hp : p.pending = false) :
    SaverCase path jobs w i a (w.moveTo i p)

theorem saveStep_cases [DecidableEq ι] {path : Bytes} {jobs : ι → Store × Int64}
    {w w' : SaveWorld ι} {i : ι} {a : SaverAction} (h : saveStep path jobs w (i, a) = some w') :
    SaverCase path jobs w i a w' := by
  simp only [saveStep] at h
  split at h
  · cases h
    exact .opened ‹_›
  · cases h
    exact .settled _ rfl
  · split_ifs at h
    cases h
    exact .wrote _ ‹_›
  · cases h
    exact .settled _ rfl
  · cases h
    exact .closed ‹_›
  · split at h
    · cases h
      exact .renamed ‹_› ‹_›
    · cases h
      exact .settled _ rfl
  · cases h
    exact .settled _ rfl
  · cases h
    exact .removed ‹_›
  · cases h
  · cases h
  · cases h
    exact .settled _ rfl
  · cases h

theorem tmppath_ne (path : Bytes) : tmppath path ≠ path := by
  intro h
  have hl := congrArg List.length h
  simp [tmppath, str] at hl

structure SaversInv (path : Bytes) (jobs : ι → Store × Int64) (w₀ w : SaveWorld ι) : Prop where
  intact : IntactPath path jobs w₀ w
  one : ∀ i j, (w.phase i).pending = true → (w.phase j).pending = true → i = j
  writing : ∀ i inode todo, w.phase i = .writing inode todo →
    w.files.dir path ≠ some inode ∧ (∀ k, w.files.dir (tmppath path) = some k → k = inode) ∧
      w.files.data inode ++ todo = saverImage jobs i
  written : ∀ i bs, w.phase i = .written → w.files.contents (tmppath path) = some bs →
    bs = saverImage jobs i

namespace SaversInv

variable {path : Bytes} {jobs : ι → Store × Int64} {w₀ w : SaveWorld ι}

theorem of_sole {i : ι} {w' : SaveWorld ι} (hi : IntactPath path jobs w₀ w')
    (hsole : ∀ j, j ≠ i → (w'.phase j).pending = false)
    (hw : ∀ inode todo, w'.phase i = .writing inode todo →
      w'.files.dir path ≠ some inode ∧ (∀ k, w'.files.dir (tmppath path) = some k → k = inode) ∧
        w'.files.data inode ++ todo = saverImage jobs i)
    (hd : ∀ bs, w'.phase i = .written → w'.files.contents (tmppath path) = some bs →
      bs = saverImage jobs i) : SaversInv path jobs w₀ w' := by
  have eq_of_pending : ∀ j, (w'.phase j).pending = true → j = i := by
    intro j hj
    by_contra hne
    rw [hsole j hne] at hj
    cases hj
  refine ⟨hi, fun j k hj hk => (eq_of_pending j hj).trans (eq_of_pending k hk).symm, ?_, ?_⟩
  · intro j inode todo hj
    obtain rfl := eq_of_pending j (by rw [hj]; rfl)
    exact hw inode todo hj
  · intro j bs hj hc
    obtain rfl := eq_of_pending j (by rw [hj]; rfl)
    exact hd bs hj hc

theorem sole (h : SaversInv path jobs w₀ w) {i : ι} (hi : (w.phase i).pending = true) (j : ι)
    (hj : j ≠ i) : (w.phase j).pending = false := by
  by_contra hp
  exact hj (h.one j i (by simpa using hp) hi)

theorem removed (h : SaversInv path jobs w₀ w) :
    SaversInv path jobs w₀ (w.withFiles (w.files.remove (tmppath path))) := by
  have hpath : (w.files.remove (tmppath path)).contents path = w.files.contents path :=
    w.files.contents_remove_ne (tmppath_ne path).symm
  have htmp := w.files.dir_remove_self (tmppath path)
  refine ⟨?_, h.one, ?_, ?_⟩
  · simpa only [IntactPath, SaveWorld.withFiles, hpath] using h.intact
  · intro j inode todo hj
    obtain ⟨hp, -, himg⟩ := h.writing j inode todo hj
    refine ⟨?_, fun k hk => ?_, himg⟩
    · exact fun hk => hp ((w.files.dir_remove_ne (tmppath_ne path).symm).symm.trans hk)
    · exact absurd (htmp.symm.trans hk) (by simp)
  · intro j bs _ hc
    simp [SaveWorld.withFiles, FS.contents] at hc

theorem start (w₀ : SaveWorld ι) (h : ∀ i, w₀.phase i = .built) : SaversInv path jobs w₀ w₀ := by
  refine ⟨.inl rfl, fun i j hi => ?_, fun i inode todo hi => ?_, fun i bs hi => ?_⟩
  · rw [h i] at hi
    cases hi
  · rw [h i] at hi
    cases hi
  · rw [h i] at hi
    cases hi

variable [DecidableEq ι]

theorem moveTo_phase (w : SaveWorld ι) (i j : ι) (p : SaverPhase) :
    (w.moveTo i p).phase j = if j = i then p else w.phase j := by
  simp [SaveWorld.moveTo, Function.update_apply]

theorem settled (h : SaversInv path jobs w₀ w) (i : ι) {p : SaverPhase}
    (hp : p.pending = false) : SaversInv path jobs w₀ (w.moveTo i p) := by
  have keep : ∀ j, ((w.moveTo i p).phase j).pending = true → (w.moveTo i p).phase j = w.phase j := by
    intro j hj
    rw [moveTo_phase] at hj ⊢
    split_ifs at hj ⊢
    · rw [hp] at hj
      cases hj
    · rfl
  refine ⟨h.intact, fun j k hj hk => ?_, fun j inode todo hj => ?_, fun j bs hj hc => ?_⟩
  · exact h.one j k (keep j hj ▸ hj) (keep k hk ▸ hk)
  · exact h.writing j inode todo (keep j (by rw [hj]; rfl) ▸ hj)
  · exact h.written j bs (keep j (by rw [hj]; rfl) ▸ hj) hc

theorem opened (h : SaversInv path jobs w₀ w) {i : ι}
    (hex : ∀ j, j ≠ i → (w.phase j).pending = false) :
    SaversInv path jobs w₀ ((w.withFiles (w.files.openTrunc (tmppath path)).1).moveTo i
      (.writing (w.files.openTrunc (tmppath path)).2 (saverImage jobs i))) := by
  have hpath : (w.files.openTrunc (tmppath path)).1.contents path = w.files.contents path :=
    w.files.contents_openTrunc_ne (tmppath_ne path).symm
  have htmp := w.files.dir_openTrunc_self (tmppath path)
  refine of_sole (i := i) ?_ ?_ ?_ ?_
  · simpa only [IntactPath, SaveWorld.moveTo, SaveWorld.withFiles, hpath] using h.intact
  · intro j hj
    rw [moveTo_phase, if_neg hj]
    exact hex j hj
  · intro inode todo hw
    rw [moveTo_phase, if_pos rfl] at hw
    cases hw
    refine ⟨fun hp => tmppath_ne path (FS.unshared _ htmp hp), fun k hk => ?_, ?_⟩
    · exact Option.some.inj (hk.symm.trans htmp)
    · exact congrArg (· ++ saverImage jobs i) (w.files.data_openTrunc_self (tmppath path))
  · intro bs hw
    rw [moveTo_phase, if_pos rfl] at hw
    cases hw

theorem wrote (h : SaversInv path jobs w₀ w) {i : ι} {inode : Nat} {todo : Bytes} (n : Nat)
    (hp : w.phase i = .writing inode todo) :
    SaversInv path jobs w₀ ((w.withFiles (w.files.write inode (todo.take n))).moveTo i
      (.writing inode (todo.drop n))) := by
  obtain ⟨hpath, htmp, himg⟩ := h.writing i inode todo hp
  have hc := w.files.contents_write_of_ne hpath (todo.take n)
  refine of_sole (i := i) ?_ ?_ ?_ ?_
  · simpa only [IntactPath, SaveWorld.moveTo, SaveWorld.withFiles, hc] using h.intact
  · intro j hj
    rw [moveTo_phase, if_neg hj]
    exact h.sole (by rw [hp]; rfl) j hj
  · intro inode' todo' hw
    rw [moveTo_phase, if_pos rfl] at hw
    cases hw
    refine ⟨hpath, htmp, ?_⟩
    change (w.files.write inode (todo.take n)).data inode ++ todo.drop n = _
    rw [w.files.data_write_self, List.append_assoc, List.take_append_drop, himg]
  · intro bs hw
    rw [moveTo_phase, if_pos rfl] at hw
    cases hw

theorem closed (h : SaversInv path jobs w₀ w) {i : ι} {inode : Nat}
    (hp : w.phase i = .writing inode []) : SaversInv path jobs w₀ (w.moveTo i .written) := by
  obtain ⟨-, htmp, himg⟩ := h.writing i inode [] hp
  refine of_sole (i := i) h.intact ?_ ?_ ?_
  · intro j hj
    rw [moveTo_phase, if_neg hj]
    exact h.sole (by rw [hp]; rfl) j hj
  · intro inode' todo' hw
    rw [moveTo_phase, if_pos rfl] at hw
    cases hw
  · intro bs _ hc
    obtain ⟨k, hk, rfl⟩ := Option.map_eq_some_iff.mp hc
    rw [← himg, List.append_nil, htmp k hk]
    rfl

theorem renamed (h : SaversInv path jobs w₀ w) {i : ι} {fs : FS Bytes UInt8}
    (hp : w.phase i = .written) (hr : w.files.rename (tmppath path) path = some fs) :
    SaversInv path jobs w₀ ((w.withFiles fs).moveTo i (.returned .ok)) := by
  obtain ⟨bs, ht, hc⟩ := w.files.rename_spec hr
  refine of_sole (i := i) ?_ ?_ ?_ ?_
  · rw [h.written i bs hp ht] at hc
    exact .inr ⟨i, hc⟩
  · intro j hj
    rw [moveTo_phase, if_neg hj]
    exact h.sole (by rw [hp]; rfl) j hj
  · intro inode' todo' hw
    rw [moveTo_phase, if_pos rfl] at hw
    cases hw
  · intro bs hw
    rw [moveTo_phase, if_pos rfl] at hw
    cases hw

theorem step {w' : SaveWorld ι} {e : ι × SaverAction} (h : SaversInv path jobs w₀ w)
    (hex : ExclusiveOpen w e) (hs : saveStep path jobs w e = some w') :
    SaversInv path jobs w₀ w' := by
  obtain ⟨i, a⟩ := e
  cases saveStep_cases hs with
  | opened hp => exact h.opened (hex rfl)
  | wrote n hp => exact h.wrote n hp
  | closed hp => exact h.closed hp
  | renamed hp hr => exact h.renamed hp hr
  | removed hp => exact h.removed.settled i rfl
  | settled a hp => exact h.settled i hp

end SaversInv

theorem snapshot_path_intact_of_exclusive_opens [DecidableEq ι] {path : Bytes}
    {jobs : ι → Store × Int64} {w₀ w : SaveWorld ι} (h₀ : ∀ i, w₀.phase i = .built)
    (hrun : Machine.ReachableVia (saveStep path jobs) ExclusiveOpen w₀ w) :
    IntactPath path jobs w₀ w :=
  (hrun.invariant (SaversInv.start w₀ h₀) (fun _ _ _ h hex hs => h.step hex hs)).intact

def emptyJobs : Bool → Store × Int64 := fun _ => (storeCreate, 0)

def oldWorld : SaveWorld Bool where
  files := ((FS.empty.openTrunc (str "dump")).1).write 0 (str "old")
  phase := fun _ => .built

def pairJobs (i : Bool) : Store × Int64 :=
  ((storeSet fnv1aHash storeCreate (str "k") (if i then str "1" else str "2") 9).1, 5)

-- one saver renames its snapshot, then the other one opens the temporary file and dies
def turnsRun : List (Bool × SaverAction) :=
  [(false, .fopen), (false, .write 7), (false, .write 99), (false, .fclose), (false, .rename),
    (true, .fopen), (true, .write 9), (true, .crash)]

theorem turnsRun_leaves :
    (Machine.exec (Machine.permit ExclusiveOpen (saveStep (str "dump") pairJobs)) oldWorld
      turnsRun).map (fun w => (w.files.contents (str "dump"), w.phase false, w.phase true)) =
      some (some (saverImage pairJobs false), .returned .ok, .crashed) := by
  decide +kernel

theorem snapshot_path_intact_of_exclusive_opens_turns :
    ∃ w, w.files.contents (str "dump") = some (saverImage pairJobs false) ∧
      w.phase true = .crashed ∧ IntactPath (str "dump") pairJobs oldWorld w := by
  obtain ⟨w, hw, hview⟩ := Option.map_eq_some_iff.mp turnsRun_leaves
  simp only [Prod.mk.injEq] at hview
  obtain ⟨hcontents, -, hcrashed⟩ := hview
  exact ⟨w, hcontents, hcrashed,
    snapshot_path_intact_of_exclusive_opens (fun _ => rfl)
      (Machine.ReachableVia.start.exec_permit hw)⟩

-- the second saver truncates the file that the first has finished and not yet renamed
def tornRun : List (Bool × SaverAction) :=
  [(false, .fopen), (false, .write 20), (false, .fclose), (true, .fopen), (false, .rename)]

def tornWorld : SaveWorld Bool :=
  (Machine.exec (saveStep (str "dump") emptyJobs) oldWorld tornRun).getD oldWorld

theorem snapshot_path_torn_by_overlapping_saves :
    ¬ ∀ w, Machine.ReachableVia (saveStep (str "dump") emptyJobs) (fun _ _ => True) oldWorld w →
      IntactPath (str "dump") emptyJobs oldWorld w := by
  intro h
  have hexec : Machine.exec (saveStep (str "dump") emptyJobs) oldWorld tornRun =
      some tornWorld := rfl
  have hcontents : tornWorld.files.contents (str "dump") = some [] := by decide +kernel
  have hold : oldWorld.files.contents (str "dump") = some (str "old") := by decide
  rcases h tornWorld (Machine.ReachableVia.start.exec (fun _ _ => trivial) hexec) with hi | ⟨i, hi⟩
  · rw [hcontents, hold] at hi
    exact absurd hi (by decide)
  · rw [hcontents] at hi
    have himg : saverImage emptyJobs i ≠ [] := by cases i <;> decide +kernel
    exact himg (Option.some.inj hi).symm

end RedisServer

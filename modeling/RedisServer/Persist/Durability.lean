import RedisServer.Persist.RoundTrip
import RedisServer.Persist.Savers

namespace RedisServer

open FileSystem

variable {hash : Bytes → UInt64} {path img : Bytes} {old : Option Bytes}

-- what the files hold at each point of a persist_save that no other one disturbs
inductive SaveStage (path img : Bytes) (old : Option Bytes) (fs : FS Bytes UInt8) :
    SaverPhase → Prop
  | built (hold : fs.contents path = old) : SaveStage path img old fs .built
  | writing {inode : Nat} {todo : Bytes} (hold : fs.contents path = old)
    (hdir : fs.dir (tmppath path) = some inode) (himage : fs.data inode ++ todo = img) :
    SaveStage path img old fs (.writing inode todo)
  | written (hold : fs.contents path = old) (htmp : fs.contents (tmppath path) = some img) :
    SaveStage path img old fs .written
  | failing (hold : fs.contents path = old) : SaveStage path img old fs .failing
  | failed (hold : fs.contents path = old) : SaveStage path img old fs (.returned .errIo)
  | crashed (hold : fs.contents path = old) : SaveStage path img old fs .crashed
  | renamed (hnew : fs.contents path = some img) : SaveStage path img old fs (.returned .ok)

namespace SaveStage

variable {fs : FS Bytes UInt8}

theorem opened (hold : fs.contents path = old) :
    SaveStage path img old (fs.openTrunc (tmppath path)).1
      (.writing (fs.openTrunc (tmppath path)).2 img) := by
  refine .writing ?_ (fs.dir_openTrunc_self _) ?_
  · rw [fs.contents_openTrunc_ne (tmppath_ne path).symm, hold]
  · rw [fs.data_openTrunc_self, List.nil_append]

theorem wrote {inode : Nat} {todo : Bytes} (h : SaveStage path img old fs (.writing inode todo))
    (n : Nat) : SaveStage path img old (fs.write inode (todo.take n))
      (.writing inode (todo.drop n)) := by
  cases h with
  | writing hold hdir himage =>
    have hne : fs.dir path ≠ some inode := fun h => tmppath_ne path (fs.unshared hdir h)
    refine .writing ?_ hdir ?_
    · rw [fs.contents_write_of_ne hne, hold]
    · rw [fs.data_write_self, List.append_assoc, List.take_append_drop, himage]

theorem closed {inode : Nat} (h : SaveStage path img old fs (.writing inode [])) :
    SaveStage path img old fs .written := by
  cases h with
  | writing hold hdir himage =>
    rw [List.append_nil] at himage
    exact .written hold (by rw [FS.contents, hdir, ← himage]; rfl)

theorem rename_ok (h : SaveStage path img old fs .written) :
    ∃ fs', fs.rename (tmppath path) path = some fs' ∧
      SaveStage path img old fs' (.returned .ok) := by
  cases h with
  | written hold htmp =>
    obtain ⟨fs', hr⟩ := fs.exists_rename htmp path
    obtain ⟨bs, hbs, hnew⟩ := fs.rename_spec hr
    obtain rfl : img = bs := Option.some.inj (htmp.symm.trans hbs)
    exact ⟨fs', hr, .renamed hnew⟩

theorem contents_old {p : SaverPhase} (h : SaveStage path img old fs p)
    (hp : p ≠ .returned .ok) : fs.contents path = old := by
  cases h with
  | renamed => exact absurd rfl hp
  | _ => assumption

end SaveStage

theorem SaveStage.moved {fs : FS Bytes UInt8} {p : SaverPhase} {a : SaverAction}
    (h : SaveStage path img old fs p) (w : SaveWorld Unit)
    (ha : p = .returned .ok ↔ a = .rename) :
    SaveStage path img old fs (((w.withFiles fs).moveTo () p).phase ()) ∧
      (((w.withFiles fs).moveTo () p).phase () = .returned .ok ↔ a = .rename) := by
  have hp : ((w.withFiles fs).moveTo () p).phase () = p := by simp [SaveWorld.moveTo]
  rw [hp]
  exact ⟨h, ha⟩

theorem SaveStage.step {jobs : Unit → Store × Int64} {w w' : SaveWorld Unit} {a : SaverAction}
    (h : SaveStage path (saverImage jobs ()) old w.files (w.phase ()))
    (hs : saveStep path jobs w ((), a) = some w') :
    SaveStage path (saverImage jobs ()) old w'.files (w'.phase ()) ∧
      (w'.phase () = .returned .ok ↔ a = .rename) := by
  simp only [saveStep] at hs
  split at hs
  · rename_i hp
    rw [hp] at h
    cases hs
    exact (SaveStage.opened (h.contents_old (by simp))).moved w (by simp)
  · rename_i hp
    rw [hp] at h
    cases hs
    exact (SaveStage.failed (h.contents_old (by simp))).moved w (by simp)
  · rename_i hp
    rw [hp] at h
    split_ifs at hs
    cases hs
    exact (h.wrote _).moved w (by simp)
  · rename_i hp
    rw [hp] at h
    cases hs
    exact (SaveStage.failing (h.contents_old (by simp))).moved w (by simp)
  · rename_i hp
    rw [hp] at h
    cases hs
    exact h.closed.moved w (by simp)
  · rename_i hp
    rw [hp] at h
    obtain ⟨fs, hr, hstage⟩ := h.rename_ok
    rw [hr] at hs
    cases hs
    exact hstage.moved w (by simp)
  · rename_i hp
    rw [hp] at h
    cases hs
    exact (SaveStage.failing (h.contents_old (by simp))).moved w (by simp)
  · rename_i hp
    rw [hp] at h
    cases hs
    have hold := w.files.contents_remove_ne (tmppath_ne path).symm
    exact (SaveStage.failed (hold.trans (h.contents_old (by simp)))).moved w (by simp)
  · cases hs
  · cases hs
  · rename_i hp _
    cases hs
    exact (SaveStage.crashed (h.contents_old (hp _))).moved w (by simp)
  · cases hs

-- one call of persist_save; outcome is none when the process is gone before the call is back
structure SaveRun where
  store : Store
  time : Int64
  actions : List SaverAction
  outcome : Option PersistStatus

def SaveRun.image (r : SaveRun) : Bytes := persistImage r.store r.time

def SaveRun.job (r : SaveRun) : Unit → Store × Int64 := fun _ => (r.store, r.time)

def SaveRun.renamed (r : SaveRun) : Bool := r.actions.contains .rename

def SaveRun.exec (path : Bytes) (r : SaveRun) (fs : FS Bytes UInt8) : Option (SaveWorld Unit) :=
  Machine.exec (saveStep path r.job) ⟨fs, fun _ => .built⟩ (r.actions.map (fun a => ((), a)))

structure SaveRun.Ran (path : Bytes) (r : SaveRun) (fs fs' : FS Bytes UInt8) : Prop where
  leaves : ∃ w, r.exec path fs = some w ∧ w.files = fs' ∧
    ∀ st, r.outcome = some st → w.phase () = .returned st

-- runs one after the other; what the rest of the system does in between leaves path alone
inductive SaveHistory (path : Bytes) (fs₀ : FS Bytes UInt8) :
    List SaveRun → FS Bytes UInt8 → Prop
  | start : SaveHistory path fs₀ [] fs₀
  | elsewhere {rs : List SaveRun} {fs fs' : FS Bytes UInt8} (h : SaveHistory path fs₀ rs fs)
    (hkeep : fs'.contents path = fs.contents path) : SaveHistory path fs₀ rs fs'
  | save {rs : List SaveRun} {r : SaveRun} {fs fs' : FS Bytes UInt8}
    (h : SaveHistory path fs₀ rs fs) (hr : r.Ran path fs fs') :
    SaveHistory path fs₀ (rs ++ [r]) fs'

def lastRenamed (rs : List SaveRun) : Option SaveRun := (rs.filter SaveRun.renamed).getLast?

def snapshotAt (fs : FS Bytes UInt8) (path : Bytes) : SnapshotFile :=
  match fs.contents path with
  | some data => .contents data
  | none => .absent

theorem saveStep_returned {jobs : Unit → Store × Int64} {w : SaveWorld Unit} {st : PersistStatus}
    (h : w.phase () = .returned st) (a : SaverAction) : saveStep path jobs w ((), a) = none := by
  cases a <;> simp [saveStep, h]

theorem saverImage_job (r : SaveRun) : saverImage r.job () = r.image := rfl

theorem SaveRun.Ran.stage {r : SaveRun} {fs fs' : FS Bytes UInt8} (h : r.Ran path fs fs') :
    ∃ p, SaveStage path r.image (fs.contents path) fs' p ∧
      (p = .returned .ok ↔ r.renamed = true) ∧ ∀ st, r.outcome = some st → p = .returned st := by
  obtain ⟨w, hexec, rfl, hout⟩ := h.leaves
  let P (w : SaveWorld Unit) (done : List (Unit × SaverAction)) : Prop :=
    SaveStage path (saverImage r.job ()) (fs.contents path) w.files (w.phase ()) ∧
      (w.phase () = .returned .ok ↔ ((), .rename) ∈ done)
  have hstep : ∀ w done e w', P w done → saveStep path r.job w e = some w' → P w' (done ++ [e]) := by
    rintro w done ⟨_, a⟩ w' ⟨hstage, hdone⟩ hs
    obtain ⟨hstage', hren⟩ := hstage.step hs
    have hnot : ((), SaverAction.rename) ∉ done := by
      intro hmem
      rw [saveStep_returned (hdone.mpr hmem)] at hs
      cases hs
    refine ⟨hstage', hren.trans ?_⟩
    simp [hnot, eq_comm]
  have hstart : P ⟨fs, fun _ => .built⟩ [] := ⟨.built rfl, by simp⟩
  obtain ⟨hstage, hren⟩ := Machine.exec_invariant hstep hstart hexec
  rw [saverImage_job] at hstage
  refine ⟨w.phase (), hstage, hren.trans ?_, hout⟩
  simp [SaveRun.renamed]

theorem SaveRun.Ran.contents_eq {r : SaveRun} {fs fs' : FS Bytes UInt8} (h : r.Ran path fs fs') :
    fs'.contents path = if r.renamed = true then some r.image else fs.contents path := by
  obtain ⟨p, hstage, hren, -⟩ := h.stage
  split_ifs with hr
  · obtain rfl := hren.mpr hr
    cases hstage with
    | renamed hnew => exact hnew
  · exact hstage.contents_old (fun hp => hr (hren.mp hp))

theorem SaveRun.Ran.outcome_ok_iff {r : SaveRun} {fs fs' : FS Bytes UInt8} (h : r.Ran path fs fs') :
    r.outcome = some .ok ↔ r.outcome ≠ none ∧ r.renamed = true := by
  obtain ⟨p, -, hren, hout⟩ := h.stage
  constructor
  · intro hok
    exact ⟨by simp [hok], hren.mp (hout _ hok)⟩
  · rintro ⟨hne, hr⟩
    obtain ⟨st, hst⟩ := Option.ne_none_iff_exists'.mp hne
    have hp := hout st hst
    rw [hren.mpr hr] at hp
    cases hp
    exact hst

theorem lastRenamed_snoc (rs : List SaveRun) (r : SaveRun) :
    lastRenamed (rs ++ [r]) = if r.renamed = true then some r else lastRenamed rs := by
  rw [lastRenamed, List.filter_append]
  split_ifs with hr <;> simp [hr, lastRenamed]

theorem SaveHistory.contents_eq {fs₀ fs : FS Bytes UInt8} {rs : List SaveRun}
    (h : SaveHistory path fs₀ rs fs) :
    fs.contents path = match lastRenamed rs with
      | some r => some r.image
      | none => fs₀.contents path := by
  induction h with
  | start => rfl
  | elsewhere _ hkeep ih => rw [hkeep, ih]
  | save _ hr ih =>
    rw [hr.contents_eq, lastRenamed_snoc, ih]
    split_ifs <;> rfl

theorem SaveHistory.outcome_ok_iff {fs₀ fs : FS Bytes UInt8} {rs : List SaveRun}
    (h : SaveHistory path fs₀ rs fs) {r : SaveRun} (hr : r ∈ rs) :
    r.outcome = some .ok ↔ r.outcome ≠ none ∧ r.renamed = true := by
  induction h with
  | start => cases hr
  | elsewhere _ _ ih => exact ih hr
  | save _ hran ih =>
    rcases List.mem_append.mp hr with hr | hr
    · exact ih hr
    · obtain rfl := List.mem_singleton.mp hr
      exact hran.outcome_ok_iff

theorem mem_of_lastRenamed {rs : List SaveRun} {r : SaveRun} (h : lastRenamed rs = some r) :
    r ∈ rs := (List.mem_filter.mp (List.mem_of_getLast? h)).1

theorem last_rename_is_durable {fs₀ fs : FS Bytes UInt8} {rs : List SaveRun}
    (h : SaveHistory path fs₀ rs fs) (hreach : ∀ r ∈ rs, StoreReachable hash r.store) :
    (fs.contents path = match lastRenamed rs with
      | some r => some r.image
      | none => fs₀.contents path) ∧
    (∀ r ∈ rs, r.outcome = some .ok ↔ r.outcome ≠ none ∧ r.renamed = true) ∧
    ∀ r, lastRenamed rs = some r → r.image.length < 2 ^ 63 → ∀ t, r.time ≤ t →
      (persistLoad hash storeCreate (snapshotAt fs path) t).2 = .status .ok ∧
      ∀ k, (persistLoad hash storeCreate (snapshotAt fs path) t).1.toMap.lookup k =
        match r.store.toMap.lookup k with
        | some (v, x) => if x = 0 ∨ t < x then some (v, x) else none
        | none => none := by
  refine ⟨h.contents_eq, fun r hr => h.outcome_ok_iff hr, fun r hlast hfit t ht => ?_⟩
  have hsound := (hreach r (mem_of_lastRenamed hlast)).inv.toSound
  have hfile : snapshotAt fs path = .contents r.image := by
    rw [snapshotAt, h.contents_eq, hlast]
  rw [hfile, SaveRun.image, persistLoad_persistImage hsound storeCreate t hfit]
  have hempty : StoreReachable hash storeCreate := ⟨[], rfl⟩
  exact ⟨rfl, fun k => lookup_loaded hsound hempty ht k⟩

def SaveRun.after (path : Bytes) (r : SaveRun) (fs : FS Bytes UInt8) : FS Bytes UInt8 :=
  ((r.exec path fs).map SaveWorld.files).getD fs

theorem SaveRun.ran_after {r : SaveRun} {fs : FS Bytes UInt8} {p : SaverPhase}
    (h : (r.exec path fs).map (fun w => w.phase ()) = some p)
    (hout : ∀ st, r.outcome = some st → p = .returned st) : r.Ran path fs (r.after path fs) := by
  obtain ⟨w, hexec, rfl⟩ := Option.map_eq_some_iff.mp h
  exact ⟨w, hexec, by rw [SaveRun.after, hexec]; rfl, hout⟩

def crashedRun : SaveRun := ⟨storeCreate, 0, [.fopen, .write 3, .crash], none⟩

def goodRun : SaveRun := ⟨savedStore, 3, [.fopen, .write 999, .fclose, .rename], some .ok⟩

def goodFiles : FS Bytes UInt8 :=
  goodRun.after (str "dump") (crashedRun.after (str "dump") oldWorld.files)

theorem last_rename_is_durable_after_crash :
    goodFiles.contents (str "dump") = some goodRun.image ∧
      (persistLoad fnv1aHash storeCreate (snapshotAt goodFiles (str "dump")) 7).1.toMap.lookup
        (str "b") = some ([], 9) := by
  have hcrash : crashedRun.Ran (str "dump") oldWorld.files
      (crashedRun.after (str "dump") oldWorld.files) :=
    SaveRun.ran_after (p := .crashed) (by decide +kernel) nofun
  have hgood : goodRun.Ran (str "dump") (crashedRun.after (str "dump") oldWorld.files) goodFiles :=
    SaveRun.ran_after (p := .returned .ok) (by decide +kernel)
      (fun st hst => congrArg _ (Option.some.inj hst))
  have hhist : SaveHistory (str "dump") oldWorld.files [crashedRun, goodRun] goodFiles :=
    .save (.save .start hcrash) hgood
  have hsaved : StoreReachable fnv1aHash savedStore := ⟨_, rfl⟩
  have hreach : ∀ r ∈ [crashedRun, goodRun], StoreReachable fnv1aHash r.store := by
    intro r hr
    simp only [List.mem_cons, List.not_mem_nil, or_false] at hr
    rcases hr with rfl | rfl
    · exact ⟨[], rfl⟩
    · dsimp only [goodRun]
      exact hsaved
  have hlast : lastRenamed [crashedRun, goodRun] = some goodRun := rfl
  have hlk : goodRun.store.toMap.lookup (str "b") = some ([], 9) := by decide +kernel
  obtain ⟨hcontents, -, hload⟩ := last_rename_is_durable hhist hreach
  rw [hlast] at hcontents
  have h := (hload goodRun hlast (by decide +kernel) 7 (by decide)).2 (str "b")
  rw [hlk] at h
  exact ⟨hcontents, h.trans (by decide)⟩

end RedisServer

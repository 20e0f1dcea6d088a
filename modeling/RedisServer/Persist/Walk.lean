import RedisServer.Persist.RoundTrip

namespace RedisServer

variable {hash : Bytes → UInt64} {data : Bytes} {now : Int64}

def entryCount (data : Bytes) : Nat := (readU64 (data.drop magicLen)).toNat

def entryLimit (data : Bytes) : UInt64 := UInt64.ofNat (data.length - 4)

structure Checked (data : Bytes) : Prop where
  size : magicLen + 8 + 4 ≤ data.length
  long : data.length < 2 ^ 63
  magic_eq : data.take magicLen = magic
  sum_eq : readU32 (data.drop (data.length - 4)) = checksum (data.take (data.length - 4))

-- the heads of the entry loop: entries passed, position, and the entries handed to store_set
inductive Walk (data : Bytes) (now : Int64) : Nat → UInt64 → List Entry → Prop
  | start : Walk data now 0 (UInt64.ofNat (magicLen + 8)) []
  | skip {i : Nat} {pos pos' : UInt64} {es : List Entry} {r : RawEntry} (h : Walk data now i pos es)
    (hi : i < entryCount data) (hr : readEntry data (entryLimit data) pos = .ok (r, pos'))
    (hx : expired r.expireAtMs now = true) : Walk data now (i + 1) pos' es
  | take {i : Nat} {pos pos' : UInt64} {es : List Entry} {r : RawEntry} {key val : Bytes}
    (h : Walk data now i pos es) (hi : i < entryCount data)
    (hr : readEntry data (entryLimit data) pos = .ok (r, pos'))
    (hx : expired r.expireAtMs now = false) (hk : sliceAt data r.keyPos r.keyLen = .ok key)
    (hv : sliceAt data r.valPos r.valLen = .ok val) :
    Walk data now (i + 1) pos' (es ++ [⟨key, val, r.expireAtMs⟩])

def setAll (hash : Bytes → UInt64) (s : Store) (es : List Entry) : Store :=
  es.foldl (fun s e => (storeSet hash s e.key e.val e.expireAtMs).1) s

theorem setAll_snoc (s : Store) (es : List Entry) (e : Entry) :
    setAll hash s (es ++ [e]) =
      (storeSet hash (setAll hash s es) e.key e.val e.expireAtMs).1 := by
  simp [setAll]

-- a skipped entry and one that was set move the position alike
theorem Walk.pos_induction {P : Nat → UInt64 → Prop} (hstart : P 0 (UInt64.ofNat (magicLen + 8)))
    (hnext : ∀ {i : Nat} {pos pos' : UInt64} {es : List Entry} {r : RawEntry},
      Walk data now i pos es → i < entryCount data →
      readEntry data (entryLimit data) pos = .ok (r, pos') → P i pos → P (i + 1) pos')
    {i : Nat} {pos : UInt64} {es : List Entry} (h : Walk data now i pos es) : P i pos := by
  induction h with
  | start => exact hstart
  | skip h hi hr _ ih => exact hnext h hi hr ih
  | take h hi hr _ _ _ ih => exact hnext h hi hr ih

theorem Walk.le_count {i : Nat} {pos : UInt64} {es : List Entry} (h : Walk data now i pos es) :
    i ≤ entryCount data := by
  cases h with
  | start => exact Nat.zero_le _
  | skip _ hi => exact hi
  | take _ hi => exact hi

theorem Walk.loadLoop_eq {i : Nat} {pos : UInt64} {es : List Entry} (h : Walk data now i pos es)
    (s : Store) :
    loadLoop hash data (entryLimit data) now (entryCount data) (UInt64.ofNat (magicLen + 8)) s =
      loadLoop hash data (entryLimit data) now (entryCount data - i) pos (setAll hash s es) := by
  induction h with
  | start => rfl
  | @skip i pos pos' es r _ hi hr hx ih =>
    obtain ⟨n, hn⟩ := Nat.exists_eq_succ_of_ne_zero (Nat.sub_ne_zero_of_lt hi)
    have hn' : entryCount data - (i + 1) = n := by omega
    rw [ih, hn, hn', loadLoop, hr]
    simp only [hx, if_true]
  | @take i pos pos' es r key val _ hi hr hx hk hv ih =>
    obtain ⟨n, hn⟩ := Nat.exists_eq_succ_of_ne_zero (Nat.sub_ne_zero_of_lt hi)
    have hn' : entryCount data - (i + 1) = n := by omega
    rw [ih, hn, hn', loadLoop, hr, setAll_snoc]
    simp only [hx, Bool.false_eq_true, if_false, hk, hv]

inductive WalkEnd (data : Bytes) (now : Int64) (es : List Entry) : LoadOutcome → Prop
  | done {pos : UInt64} (h : Walk data now (entryCount data) pos es) :
    WalkEnd data now es (.status .ok)
  | stopped {i : Nat} {pos : UInt64} {e : LoadStop} (h : Walk data now i pos es)
    (hi : i < entryCount data) (hr : readEntry data (entryLimit data) pos = .error e) :
    WalkEnd data now es e.outcome
  | outside {i : Nat} {pos pos' : UInt64} {r : RawEntry} (h : Walk data now i pos es)
    (hi : i < entryCount data) (hr : readEntry data (entryLimit data) pos = .ok (r, pos'))
    (hx : expired r.expireAtMs now = false)
    (hs : ∀ key val, ¬ (sliceAt data r.keyPos r.keyLen = .ok key ∧
      sliceAt data r.valPos r.valLen = .ok val)) : WalkEnd data now es .fault

theorem Walk.ends {i : Nat} {pos : UInt64} {es : List Entry} (h : Walk data now i pos es) :
    ∃ es' out, WalkEnd data now es' out := by
  have hle := h.le_count
  induction hn : entryCount data - i generalizing i pos es with
  | zero =>
    obtain rfl : i = entryCount data := by omega
    exact ⟨es, _, .done h⟩
  | succ n ih =>
    have hi : i < entryCount data := by omega
    cases hr : readEntry data (entryLimit data) pos with
    | error e => exact ⟨es, _, .stopped h hi hr⟩
    | ok x =>
      obtain ⟨r, pos'⟩ := x
      cases hx : expired r.expireAtMs now with
      | true => exact ih (h.skip hi hr hx) hi (by omega)
      | false =>
        cases hk : sliceAt data r.keyPos r.keyLen with
        | error e => exact ⟨es, _, .outside h hi hr hx (by simp [hk])⟩
        | ok key =>
          cases hv : sliceAt data r.valPos r.valLen with
          | error e => exact ⟨es, _, .outside h hi hr hx (by simp [hv])⟩
          | ok val => exact ih (h.take hi hr hx hk hv) hi (by omega)

theorem WalkEnd.loadLoop_eq {es : List Entry} {out : LoadOutcome} (h : WalkEnd data now es out)
    (s : Store) :
    loadLoop hash data (entryLimit data) now (entryCount data) (UInt64.ofNat (magicLen + 8)) s =
      (setAll hash s es, out) := by
  cases h with
  | done h => rw [h.loadLoop_eq, Nat.sub_self, loadLoop]
  | @stopped i pos e h hi hr =>
    obtain ⟨n, hn⟩ := Nat.exists_eq_succ_of_ne_zero (Nat.sub_ne_zero_of_lt hi)
    rw [h.loadLoop_eq, hn, loadLoop, hr]
  | @outside i pos pos' r h hi hr hx hs =>
    obtain ⟨n, hn⟩ := Nat.exists_eq_succ_of_ne_zero (Nat.sub_ne_zero_of_lt hi)
    rw [h.loadLoop_eq, hn, loadLoop, hr]
    simp only [hx, Bool.false_eq_true, if_false]
    split
    · exact absurd ⟨‹_›, ‹_›⟩ (hs _ _)
    · rfl

theorem persistLoad_unchecked (h : ¬ Checked data) (s : Store) (now : Int64) :
    persistLoad hash s (.contents data) now = (s, .status .errFormat) ∨
      persistLoad hash s (.contents data) now = (s, .status .errCorrupt) := by
  simp only [persistLoad, loadData]
  split_ifs with hsize hmagic hsum
  · exact .inl rfl
  · exact .inl rfl
  · exact .inr rfl
  · refine absurd ?_ h
    rw [ftell] at hsize
    split_ifs at hsize with hlong
    · exact ⟨by omega, hlong, not_not.mp hmagic, not_not.mp hsum⟩
    · simp [magicLen] at hsize

theorem Checked.persistLoad_eq (h : Checked data) (s : Store) (now : Int64) :
    persistLoad hash s (.contents data) now =
      loadLoop hash data (entryLimit data) now (entryCount data) (UInt64.ofNat (magicLen + 8)) s := by
  have hsize : ¬ ftell data < (magicLen + 8 + 4 : Nat) := by
    have := h.size
    rw [ftell, if_pos h.long]
    omega
  simp only [persistLoad, loadData]
  rw [if_neg hsize, if_neg (not_not.mpr h.magic_eq), if_neg (not_not.mpr h.sum_eq)]
  rfl

theorem WalkEnd.persistLoad_eq {es : List Entry} {out : LoadOutcome} (h : WalkEnd data now es out)
    (hc : Checked data) (s : Store) :
    persistLoad hash s (.contents data) now = (setAll hash s es, out) := by
  rw [hc.persistLoad_eq, h.loadLoop_eq]

theorem checked_of_ok {s : Store}
    (h : (persistLoad hash s (.contents data) now).2 = .status .ok) : Checked data := by
  by_contra hc
  rcases @persistLoad_unchecked hash data hc s now with hr | hr <;> rw [hr] at h <;> cases h

def oneEntryFile : Bytes := imageOf [⟨str "k", str "v", 0⟩]

end RedisServer

import RedisServer.Persist.Walk

namespace RedisServer

variable {hash : Bytes → UInt64} {data : Bytes} {now : Int64}

theorem foldl_checksum (sum : UInt32) (buf : Bytes) :
    buf.foldl (fun sum b => sum + b.toUInt32) sum = sum + checksum buf := by
  induction buf generalizing sum with
  | nil => simp [checksum]
  | cons b buf ih =>
    rw [checksum, List.foldl_cons, List.foldl_cons, ih, ih, UInt32.zero_add, UInt32.add_assoc]

theorem checksum_append (a b : Bytes) : checksum (a ++ b) = checksum a + checksum b := by
  rw [checksum, List.foldl_append, foldl_checksum]
  rfl

theorem checksum_cons (b : UInt8) (buf : Bytes) : checksum (b :: buf) = b.toUInt32 + checksum buf := by
  rw [checksum, List.foldl_cons, foldl_checksum, UInt32.zero_add]

theorem checksum_set {buf : Bytes} {i : Nat} {b : UInt8} (hi : i < buf.length)
    (h : checksum (buf.set i b) = checksum buf) : b = buf[i] := by
  have hold : buf = buf.take i ++ buf[i] :: buf.drop (i + 1) := by simp
  rw [List.set_eq_take_append_cons_drop, if_pos hi] at h
  conv at h => rhs; rw [hold]
  rw [checksum_append, checksum_append, checksum_cons, checksum_cons] at h
  have hb : b.toUInt32 = (buf[i]).toUInt32 :=
    (UInt32.add_left_inj _).mp ((UInt32.add_right_inj _).mp h)
  have hn := congrArg UInt32.toNat hb
  rw [UInt8.toNat_toUInt32, UInt8.toNat_toUInt32] at hn
  exact UInt8.toNat_inj.mp hn

theorem readU32_injective {p q : Bytes} (hp : p.length = 4) (hq : q.length = 4)
    (h : readU32 p = readU32 q) : p = q := by
  rw [readU32, readU32, List.take_of_length_le hp.le, List.take_of_length_le hq.le] at h
  exact LittleEndian.read_injective (hp.trans hq.symm) (by omega) (congrArg UInt32.toBitVec h)

theorem Checked.set_unchecked {i : Nat} {b : UInt8} (h : Checked data) (hi : i < data.length)
    (hb : b ≠ data[i]) : ¬ Checked (data.set i b) := by
  intro h'
  have hsize : 20 ≤ data.length := h.size
  have hsum := h'.sum_eq
  rw [List.length_set] at hsum
  rcases Nat.lt_or_ge i (data.length - 4) with hlt | hge
  · -- the stored sum is the same, the computed one is not
    have hlen : (data.take (data.length - 4)).length = data.length - 4 := by simp
    rw [List.drop_set_of_lt hlt, h.sum_eq, List.take_set] at hsum
    have hsame := checksum_set (by omega) hsum.symm
    rw [List.getElem_take] at hsame
    exact hb hsame
  · have hlen : (data.drop (data.length - 4)).length = 4 := by
      rw [List.length_drop]
      omega
    rw [List.take_set_of_le hge, ← h.sum_eq] at hsum
    have hsame := readU32_injective (by rw [List.length_drop, List.length_set]; omega) hlen hsum
    have hat := congrArg (fun l => l[i - (data.length - 4)]?) hsame
    simp only [List.getElem?_drop] at hat
    rw [Nat.add_sub_cancel' hge, List.getElem?_set_self hi, List.getElem?_eq_getElem hi] at hat
    exact hb (Option.some.inj hat)

theorem single_byte_change_detected {s : Store}
    (h : (persistLoad hash s (.contents data) now).2 = .status .ok) {i : Nat}
    (hi : i < data.length) {b : UInt8} (hb : b ≠ data[i]) (s' : Store) (now' : Int64) :
    persistLoad hash s' (.contents (data.set i b)) now' = (s', .status .errFormat) ∨
      persistLoad hash s' (.contents (data.set i b)) now' = (s', .status .errCorrupt) :=
  persistLoad_unchecked ((checked_of_ok h).set_unchecked hi hb) s' now'

theorem single_byte_change_detected_count :
    (persistLoad fnv1aHash storeCreate (.contents oneEntryFile) 5).2 = .status .ok ∧
      (persistLoad fnv1aHash storeCreate (.contents (oneEntryFile.set 8 2)) 5 =
          (storeCreate, .status .errFormat) ∨
        persistLoad fnv1aHash storeCreate (.contents (oneEntryFile.set 8 2)) 5 =
          (storeCreate, .status .errCorrupt)) := by
  have hok : (persistLoad fnv1aHash storeCreate (.contents oneEntryFile) 5).2 = .status .ok := by
    decide +kernel
  have hcount : oneEntryFile[8]? = some 1 := by decide +kernel
  obtain ⟨hlen, hcount⟩ := List.getElem?_eq_some_iff.mp hcount
  have hne : (2 : UInt8) ≠ oneEntryFile[8] := by
    rw [hcount]
    decide
  exact ⟨hok, single_byte_change_detected hok hlen hne storeCreate 5⟩

def lastFor (k : Bytes) (es : List Entry) : Option Entry := es.reverse.find? (fun e => e.key = k)

theorem lastFor_snoc (k : Bytes) (es : List Entry) (e : Entry) :
    lastFor k (es ++ [e]) = if e.key = k then some e else lastFor k es := by
  rw [lastFor, List.reverse_append, List.reverse_singleton, List.singleton_append, List.find?_cons]
  by_cases h : e.key = k
  · simp [h]
  · simp [h, lastFor]

theorem setAll_reachable {s : Store} (hs : StoreReachable hash s) (es : List Entry) :
    StoreReachable hash (setAll hash s es) := by
  induction es using List.reverseRecOn with
  | nil => exact hs
  | append_singleton es e ih =>
    rw [setAll_snoc]
    exact ih.step (.set e.key e.val e.expireAtMs)

theorem lookup_setAll {s : Store} (hs : StoreReachable hash s) (es : List Entry) (k : Bytes) :
    (setAll hash s es).toMap.lookup k =
      match lastFor k es with
      | some e => some (e.val, e.expireAtMs)
      | none => s.toMap.lookup k := by
  induction es using List.reverseRecOn with
  | nil => rfl
  | append_singleton es e ih =>
    rw [setAll_snoc, (storeSet_spec (setAll_reachable hs es).inv e.key e.val e.expireAtMs).2.1,
      lastFor_snoc]
    change (Finmap.insert e.key (e.val, e.expireAtMs) (setAll hash s es).toMap).lookup k = _
    rcases eq_or_ne e.key k with rfl | hne
    · rw [if_pos rfl, Finmap.lookup_insert]
    · rw [if_neg hne, Finmap.lookup_insert_of_ne _ hne.symm, ih]

theorem setAll_toMap_eq_iff {s : Store} (hs : StoreReachable hash s) (es : List Entry) :
    (setAll hash s es).toMap = s.toMap ↔
      ∀ k e, lastFor k es = some e → s.toMap.lookup k = some (e.val, e.expireAtMs) := by
  constructor
  · intro h k e hk
    rw [← h, lookup_setAll hs, hk]
  · intro h
    apply Finmap.ext_lookup
    intro k
    rw [lookup_setAll hs]
    cases hk : lastFor k es with
    | none => rfl
    | some e => exact (h k e hk).symm

-- a malformed entry has only entries in front of it that are expired or that s holds anyway
def MalformedBehindKnown (s : Store) (file : SnapshotFile) (now : Int64) : Prop :=
  ∀ data, file = .contents data → Checked data → ∀ i pos es, Walk data now i pos es →
    i < entryCount data → readEntry data (entryLimit data) pos = .error .corrupt →
    ∀ k e, lastFor k es = some e → s.toMap.lookup k = some (e.val, e.expireAtMs)

theorem failed_load_keeps_contents_iff {s : Store} (hs : StoreReachable hash s)
    (file : SnapshotFile) (now : Int64) :
    (∀ st, (persistLoad hash s file now).2 = .status st → st ≠ .ok →
      (persistLoad hash s file now).1.toMap = s.toMap) ↔ MalformedBehindKnown s file now := by
  constructor
  · rintro h data rfl hc i pos es hw hi hr
    have hload := @WalkEnd.persistLoad_eq hash data now es _ (.stopped hw hi hr) hc s
    have hkeep := h .errCorrupt (by rw [hload]; rfl) (by decide)
    rw [hload] at hkeep
    exact (setAll_toMap_eq_iff hs es).mp hkeep
  · intro h st hst hne
    cases file with
    | absent => rfl
    | unreadable fsz => rfl
    | contents data =>
      by_cases hc : Checked data
      · obtain ⟨es, out, hend⟩ := (@Walk.start data now).ends
        rw [hend.persistLoad_eq hc] at hst ⊢
        cases hend with
        | done hw =>
          cases hst
          exact absurd rfl hne
        | @stopped i pos e hw hi hr =>
          cases e with
          | corrupt => exact (setAll_toMap_eq_iff hs es).mpr (h data rfl hc i pos es hw hi hr)
          | fault => cases hst
        | outside => cases hst
      · rcases @persistLoad_unchecked hash data hc s now with hload | hload <;> rw [hload]

def cutShort (count : UInt64) (es : List Entry) : Bytes :=
  let body := magic ++ writeU64 count ++ es.flatMap entryImage
  body ++ writeU32 (checksum body)

theorem failed_load_adds_entries :
    ¬ ∀ st, (persistLoad fnv1aHash storeCreate (.contents (cutShort 2 [⟨str "k", str "v", 0⟩])) 5).2 =
        .status st → st ≠ .ok →
      (persistLoad fnv1aHash storeCreate (.contents (cutShort 2 [⟨str "k", str "v", 0⟩])) 5).1.toMap =
        storeCreate.toMap := by
  intro h
  have hst : (persistLoad fnv1aHash storeCreate (.contents (cutShort 2 [⟨str "k", str "v", 0⟩])) 5).2 =
      .status .errCorrupt := by decide +kernel
  have hlk := congrArg (Finmap.lookup (str "k")) (h .errCorrupt hst (by decide))
  exact absurd hlk (by decide +kernel)

def knownStore : Store := (storeSet fnv1aHash storeCreate (str "k") (str "v") 0).1

def knownFile : SnapshotFile := .contents (cutShort 2 [⟨str "k", str "v", 0⟩])

theorem failed_load_keeps_contents_known :
    (persistLoad fnv1aHash knownStore knownFile 5).2 = .status .errCorrupt ∧
      (persistLoad fnv1aHash knownStore knownFile 5).1.toMap = knownStore.toMap ∧
      MalformedBehindKnown knownStore knownFile 5 := by
  have hs : StoreReachable fnv1aHash knownStore := ⟨[.set (str "k") (str "v") 0], rfl⟩
  have hsame : (persistLoad fnv1aHash knownStore knownFile 5).1 = knownStore := by decide +kernel
  have hkeep : (persistLoad fnv1aHash knownStore knownFile 5).1.toMap = knownStore.toMap :=
    congrArg Store.toMap hsame
  exact ⟨by decide +kernel, hkeep,
    (failed_load_keeps_contents_iff hs knownFile 5).mp (fun _ _ _ => hkeep)⟩

end RedisServer

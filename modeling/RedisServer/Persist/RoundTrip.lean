import RedisServer.Persist.Snapshot
import RedisServer.Store.Iterate

namespace RedisServer

variable {hash : Bytes → UInt64}

theorem foldl_saveCb (es : List Entry) (ctx : SaveCtx) :
    es.foldl saveCb ctx = ⟨ctx.buf ++ es.flatMap entryImage, ctx.count + es.length⟩ := by
  induction es generalizing ctx with
  | nil => simp
  | cons e es ih =>
    rw [List.foldl_cons, ih]
    simp only [saveCb, List.flatMap_cons, List.append_assoc, List.length_cons, Nat.add_assoc,
      Nat.add_comm 1]

def imageBody (es : List Entry) : Bytes :=
  magic ++ writeU64 (UInt64.ofNat es.length) ++ es.flatMap entryImage

def imageOf (es : List Entry) : Bytes := imageBody es ++ writeU32 (checksum (imageBody es))

theorem persistImage_eq {s : Store} (hs : s.Sound hash) (now : Int64) :
    persistImage s now = imageOf (s.visited now) := by
  have hm : magic.length = magicLen := rfl
  have ht : (magic ++ List.replicate 8 0 ++ (s.visited now).flatMap entryImage).take magicLen =
      magic := by
    rw [List.append_assoc, ← hm, List.take_left]
  have hd : (magic ++ List.replicate 8 0 ++ (s.visited now).flatMap entryImage).drop
      (magicLen + 8) = (s.visited now).flatMap entryImage :=
    List.drop_left' rfl
  simp only [persistImage, storeForeach_eq hs, foldl_saveCb, ht, hd, Nat.zero_add]
  rfl

theorem length_writeU64 (v : UInt64) : (writeU64 v).length = 8 := LittleEndian.length_write _ _

theorem length_writeU32 (v : UInt32) : (writeU32 v).length = 4 := LittleEndian.length_write _ _

theorem readU64_writeU64 (v : UInt64) (rest : Bytes) : readU64 (writeU64 v ++ rest) = v := by
  rw [readU64, List.take_left' (length_writeU64 v), writeU64,
    LittleEndian.read_write (by norm_num) 8 v.toBitVec v.toBitVec.isLt]

theorem readU32_writeU32 (v : UInt32) : readU32 (writeU32 v) = v := by
  rw [readU32, List.take_of_length_le (length_writeU32 v).le, writeU32,
    LittleEndian.read_write (by norm_num) 4 v.toBitVec v.toBitVec.isLt]

theorem toNat_ofNat64 {n : Nat} (h : n < 2 ^ 64) : (UInt64.ofNat n).toNat = n :=
  UInt64.toNat_ofNat_of_lt' h

theorem within_ofNat {a b : Nat} (h : a ≤ b) (hb : b < 2 ^ 64) :
    within (UInt64.ofNat a) (UInt64.ofNat b) = .ok () := by
  rw [within, if_neg]
  rw [gt_iff_lt, UInt64.lt_iff_toNat_lt, toNat_ofNat64 (by omega),
    toNat_ofNat64 (by omega)]
  omega

theorem readU64At_ofNat {data rest : Bytes} {p : Nat} {v : UInt64} (hp : p < 2 ^ 64)
    (h : data.drop p = writeU64 v ++ rest) : readU64At data (UInt64.ofNat p) = .ok v := by
  have hl := congrArg List.length h
  rw [List.length_drop, List.length_append, length_writeU64] at hl
  rw [readU64At, toNat_ofNat64 hp, if_pos (by omega), h, readU64_writeU64]

theorem sliceAt_ofNat {data a rest : Bytes} {p : Nat} (hp : data.length < 2 ^ 64)
    (h : data.drop p = a ++ rest) (hle : p ≤ data.length) :
    sliceAt data (UInt64.ofNat p) (UInt64.ofNat a.length) = .ok a := by
  have hl := congrArg List.length h
  rw [List.length_drop, List.length_append] at hl
  rw [sliceAt, toNat_ofNat64 (by omega), toNat_ofNat64 (by omega),
    if_pos (by omega), h, List.take_left]

theorem length_entryImage (e : Entry) :
    (entryImage e).length = e.key.length + e.val.length + 24 := by
  simp only [entryImage, List.length_append, length_writeU64]
  omega

structure EntryAt (data : Bytes) (limit p : Nat) (e : Entry) : Prop where
  drop : ∃ rest, data.drop p = entryImage e ++ rest
  fits : p + (entryImage e).length ≤ limit
  limit_le : limit ≤ data.length
  small : data.length < 2 ^ 63

def rawOf (p : Nat) (e : Entry) : RawEntry where
  keyPos := UInt64.ofNat (p + 8)
  keyLen := UInt64.ofNat e.key.length
  valPos := UInt64.ofNat (p + 8 + e.key.length + 8)
  valLen := UInt64.ofNat e.val.length
  expireAtMs := e.expireAtMs

theorem EntryAt.drops {data : Bytes} {limit p : Nat} {e : Entry} (h : EntryAt data limit p e) :
    ∃ r1 r2 r3 r4 r5, data.drop p = writeU64 (UInt64.ofNat e.key.length) ++ r1 ∧
      data.drop (p + 8) = e.key ++ r2 ∧
      data.drop (p + 8 + e.key.length) = writeU64 (UInt64.ofNat e.val.length) ++ r3 ∧
      data.drop (p + 8 + e.key.length + 8) = e.val ++ r4 ∧
      data.drop (p + 8 + e.key.length + 8 + e.val.length) =
        writeU64 e.expireAtMs.toUInt64 ++ r5 := by
  obtain ⟨rest, h⟩ := h.drop
  simp only [entryImage, List.append_assoc] at h
  have h2 := drop_add_of_drop h (length_writeU64 _)
  have h3 := drop_add_of_drop h2 rfl
  have h4 := drop_add_of_drop h3 (length_writeU64 _)
  have h5 := drop_add_of_drop h4 rfl
  exact ⟨_, _, _, _, _, h, h2, h3, h4, h5⟩

theorem ofNat_add_eight (n : Nat) : UInt64.ofNat n + 8 = UInt64.ofNat (n + 8) :=
  (UInt64.ofNat_add n 8).symm

theorem EntryAt.readEntry_eq {data : Bytes} {limit p : Nat} {e : Entry}
    (h : EntryAt data limit p e) :
    readEntry data (UInt64.ofNat limit) (UInt64.ofNat p) =
      .ok (rawOf p e, UInt64.ofNat (p + (entryImage e).length)) := by
  obtain ⟨r1, r2, r3, r4, r5, h1, h2, h3, h4, h5⟩ := h.drops
  have hf := h.fits
  have hl := h.limit_le
  have hs := h.small
  rw [length_entryImage] at hf
  have g1 := readU64At_ofNat (by omega) h1
  have g3 := readU64At_ofNat (by omega) h3
  have g5 := readU64At_ofNat (by omega) h5
  have w1 : within (UInt64.ofNat (p + 8)) (UInt64.ofNat limit) = .ok () :=
    within_ofNat (by omega) (by omega)
  have w2 : within (UInt64.ofNat (p + 8 + e.key.length)) (UInt64.ofNat limit) = .ok () :=
    within_ofNat (by omega) (by omega)
  have w3 : within (UInt64.ofNat (p + 8 + e.key.length + 8)) (UInt64.ofNat limit) = .ok () :=
    within_ofNat (by omega) (by omega)
  have w4 : within (UInt64.ofNat (p + 8 + e.key.length + 8 + e.val.length))
      (UInt64.ofNat limit) = .ok () := within_ofNat (by omega) (by omega)
  have w5 : within (UInt64.ofNat (p + 8 + e.key.length + 8 + e.val.length + 8))
      (UInt64.ofNat limit) = .ok () := within_ofNat (by omega) (by omega)
  have hn : p + (entryImage e).length = p + 8 + e.key.length + 8 + e.val.length + 8 := by
    rw [length_entryImage]
    omega
  simp only [readEntry, bind, Except.bind, pure, Except.pure, ofNat_add_eight, ← UInt64.ofNat_add,
    w1, w2, w3, w4, w5, g1, g3, g5, hn, rawOf, Int64.toInt64_toUInt64]

def loadEntry (hash : Bytes → UInt64) (now : Int64) (d : Store) (e : Entry) : Store :=
  if expired e.expireAtMs now then d else (storeSet hash d e.key e.val e.expireAtMs).1

theorem EntryAt.slices {data : Bytes} {limit p : Nat} {e : Entry} (h : EntryAt data limit p e) :
    sliceAt data (rawOf p e).keyPos (rawOf p e).keyLen = .ok e.key ∧
      sliceAt data (rawOf p e).valPos (rawOf p e).valLen = .ok e.val := by
  obtain ⟨r1, r2, r3, r4, r5, h1, h2, h3, h4, h5⟩ := h.drops
  have hf := h.fits
  have hl := h.limit_le
  have hs := h.small
  rw [length_entryImage] at hf
  exact ⟨sliceAt_ofNat (by omega) h2 (by omega), sliceAt_ofNat (by omega) h4 (by omega)⟩

theorem loadLoop_cons {data : Bytes} {limit p : Nat} {e : Entry} (h : EntryAt data limit p e)
    (now : Int64) (n : Nat) (d : Store) :
    loadLoop hash data (UInt64.ofNat limit) now (n + 1) (UInt64.ofNat p) d =
      loadLoop hash data (UInt64.ofNat limit) now n (UInt64.ofNat (p + (entryImage e).length))
        (loadEntry hash now d e) := by
  rw [loadLoop, h.readEntry_eq, loadEntry]
  simp only [h.slices.1, h.slices.2]
  by_cases hx : expired e.expireAtMs now = true
  · simp only [rawOf, hx, if_true]
  · simp only [rawOf, hx]
    rfl

theorem loadLoop_image {data rest : Bytes} {limit p : Nat} {es : List Entry}
    (hd : data.drop p = es.flatMap entryImage ++ rest)
    (hf : p + (es.flatMap entryImage).length ≤ limit) (hl : limit ≤ data.length)
    (hs : data.length < 2 ^ 63) (now : Int64) (d : Store) :
    loadLoop hash data (UInt64.ofNat limit) now es.length (UInt64.ofNat p) d =
      (es.foldl (loadEntry hash now) d, .status .ok) := by
  induction es generalizing p d with
  | nil => rfl
  | cons e es ih =>
    simp only [List.flatMap_cons, List.append_assoc, List.length_append] at hd hf
    have hat : EntryAt data limit p e := ⟨⟨_, hd⟩, by omega, hl, hs⟩
    rw [List.length_cons, loadLoop_cons hat, List.foldl_cons]
    exact ih (drop_add_of_drop hd rfl) (by omega) _

theorem length_imageBody (es : List Entry) :
    (imageBody es).length = 16 + (es.flatMap entryImage).length := by
  simp only [imageBody, List.length_append, length_writeU64]
  rfl

theorem length_imageOf (es : List Entry) :
    (imageOf es).length = 20 + (es.flatMap entryImage).length := by
  rw [imageOf, List.length_append, length_imageBody, length_writeU32]
  omega

theorem length_le_flatMap_entryImage (es : List Entry) :
    es.length ≤ (es.flatMap entryImage).length := by
  induction es with
  | nil => simp
  | cons e es ih =>
    rw [List.flatMap_cons, List.length_append, List.length_cons, length_entryImage]
    omega

theorem imageOf_drop_count (es : List Entry) : ∃ rest,
    (imageOf es).drop magicLen = writeU64 (UInt64.ofNat es.length) ++ rest := by
  refine ⟨es.flatMap entryImage ++ writeU32 (checksum (imageBody es)), ?_⟩
  simp only [imageOf]
  rw [imageBody, List.append_assoc, List.append_assoc]
  exact List.drop_left' rfl

theorem imageOf_drop_entries (es : List Entry) :
    (imageOf es).drop (magicLen + 8) =
      es.flatMap entryImage ++ writeU32 (checksum (imageBody es)) := by
  simp only [imageOf]
  rw [imageBody, List.append_assoc]
  exact List.drop_left' rfl

theorem loadData_imageOf {es : List Entry} (hs : (imageOf es).length < 2 ^ 63) (d : Store)
    (now : Int64) :
    loadData hash d (imageOf es) now = (es.foldl (loadEntry hash now) d, .status .ok) := by
  obtain ⟨rest, hc⟩ := imageOf_drop_count es
  have hlen := length_imageOf es
  have hcount := length_le_flatMap_entryImage es
  have hm : (imageOf es).take magicLen = magic := by
    rw [imageOf, imageBody, List.append_assoc, List.append_assoc]
    exact List.take_left' rfl
  have hb : (imageOf es).length - 4 = (imageBody es).length := by
    rw [length_imageBody]
    omega
  have hsum : readU32 ((imageOf es).drop ((imageOf es).length - 4)) =
      checksum ((imageOf es).take ((imageOf es).length - 4)) := by
    rw [hb, imageOf, List.drop_left, List.take_left, readU32_writeU32]
  rw [loadData, if_neg (not_not.mpr hm), if_neg (not_not.mpr hsum), hc, readU64_writeU64,
    toNat_ofNat64 (by omega)]
  exact loadLoop_image (imageOf_drop_entries es) (by simp only [magicLen]; omega) (by omega) hs now d

theorem persistLoad_imageOf {es : List Entry} (hs : (imageOf es).length < 2 ^ 63) (d : Store)
    (now : Int64) :
    persistLoad hash d (.contents (imageOf es)) now =
      (es.foldl (loadEntry hash now) d, .status .ok) := by
  have hlen := length_imageOf es
  have hsize : ¬ ftell (imageOf es) < (magicLen + 8 + 4 : Nat) := by
    rw [ftell, if_pos hs]
    simp only [magicLen]
    omega
  simp only [persistLoad]
  rw [if_neg hsize, loadData_imageOf hs]

theorem loadEntry_reachable {d : Store} (hd : StoreReachable hash d) (now : Int64) (e : Entry) :
    StoreReachable hash (loadEntry hash now d e) := by
  unfold loadEntry
  split_ifs
  · exact hd
  · exact hd.step (.set e.key e.val e.expireAtMs)

theorem foldl_loadEntry_reachable {d : Store} (hd : StoreReachable hash d) (now : Int64)
    (es : List Entry) : StoreReachable hash (es.foldl (loadEntry hash now) d) := by
  induction es generalizing d with
  | nil => exact hd
  | cons e es ih => exact ih (loadEntry_reachable hd now e)

theorem lookup_loadEntry {d : Store} (hd : StoreReachable hash d) (now : Int64) (e : Entry)
    (k : Bytes) :
    (loadEntry hash now d e).toMap.lookup k =
      if e.key = k ∧ liveEntry now e = true then some (e.val, e.expireAtMs)
      else d.toMap.lookup k := by
  unfold loadEntry
  by_cases hx : expired e.expireAtMs now = true
  · rw [if_pos hx, if_neg (fun h => (liveEntry_iff now e).mp h.2 hx)]
  · have hl := (liveEntry_iff now e).mpr hx
    rw [if_neg hx, (storeSet_spec hd.inv e.key e.val e.expireAtMs).2.1]
    change (d.toMap.insert e.key (e.val, e.expireAtMs)).lookup k = _
    by_cases hk : e.key = k
    · rw [if_pos ⟨hk, hl⟩, hk, Finmap.lookup_insert]
    · rw [if_neg (fun h => hk h.1), Finmap.lookup_insert_of_ne _ (Ne.symm hk)]

theorem lookup_foldl_loadEntry {d : Store} (hd : StoreReachable hash d) (now : Int64)
    {es : List Entry} (hn : (es.map Entry.key).Nodup) (k : Bytes) :
    (∀ e ∈ es, e.key = k → liveEntry now e = true →
      (es.foldl (loadEntry hash now) d).toMap.lookup k = some (e.val, e.expireAtMs)) ∧
    ((∀ e ∈ es, e.key = k → ¬ liveEntry now e = true) →
      (es.foldl (loadEntry hash now) d).toMap.lookup k = d.toMap.lookup k) := by
  induction es generalizing d with
  | nil => exact ⟨by simp, fun _ => rfl⟩
  | cons e es ih =>
    rw [List.map_cons, List.nodup_cons] at hn
    obtain ⟨hin, hout⟩ := ih (loadEntry_reachable hd now e) hn.2
    rw [List.foldl_cons]
    constructor
    · intro x hx hk hlive
      rcases List.mem_cons.mp hx with rfl | hx
      · -- no entry behind x has its key, so what x wrote stays
        have hne : ∀ y ∈ es, y.key ≠ k := by
          rintro y hy rfl
          exact hn.1 (hk ▸ List.mem_map_of_mem hy)
        rw [hout (fun y hy hyk => absurd hyk (hne y hy)), lookup_loadEntry hd,
          if_pos ⟨hk, hlive⟩]
      · exact hin x hx hk hlive
    · intro h
      rw [hout (fun y hy => h y (by simp [hy])), lookup_loadEntry hd,
        if_neg (fun hc => h e (by simp) hc.1 hc.2)]

theorem persistLoad_persistImage {s : Store} (hs : s.Sound hash) (d : Store) {t1 : Int64}
    (t2 : Int64) (hfit : (persistImage s t1).length < 2 ^ 63) :
    persistLoad hash d (.contents (persistImage s t1)) t2 =
      ((s.visited t1).foldl (loadEntry hash t2) d, .status .ok) := by
  rw [persistImage_eq hs] at hfit ⊢
  exact persistLoad_imageOf hfit d t2

theorem lookup_loaded {s d : Store} (hs : s.Sound hash) (hd : StoreReachable hash d)
    {t1 t2 : Int64} (ht : t1 ≤ t2) (k : Bytes) :
    ((s.visited t1).foldl (loadEntry hash t2) d).toMap.lookup k =
      match s.toMap.lookup k with
      | some (v, x) => if x = 0 ∨ t2 < x then some (v, x) else d.toMap.lookup k
      | none => d.toMap.lookup k := by
  obtain ⟨hin, hout⟩ := lookup_foldl_loadEntry hd t2 (hs.visited_nodup t1) k
  cases hk : s.toMap.lookup k with
  | none =>
    apply hout
    intro e he hek
    have hl := hs.lookup_of_mem (Store.mem_visited.mp he).1 hek
    rw [hk] at hl
    cases hl
  | some p =>
    obtain ⟨v, x⟩ := p
    have hmem : (⟨k, v, x⟩ : Entry) ∈ s.entries := (hs.lookup_iff ⟨k, v, x⟩).mp hk
    simp only
    by_cases hx : x = 0 ∨ t2 < x
    · have hlive : liveEntry t2 ⟨k, v, x⟩ = true := by simpa [liveEntry] using hx
      rw [if_pos hx]
      exact hin ⟨k, v, x⟩ (Store.mem_visited.mpr ⟨hmem, liveEntry_mono ht hlive⟩) rfl hlive
    · rw [if_neg hx]
      apply hout
      intro e he hek hlive
      have hl := hs.lookup_of_mem (Store.mem_visited.mp he).1 hek
      rw [hk] at hl
      simp only [Option.some.injEq, Prod.mk.injEq] at hl
      exact hx (by simpa [liveEntry, hl.2] using hlive)

theorem snapshot_round_trip {s d : Store} (hs : StoreReachable hash s)
    (hd : StoreReachable hash d) {t1 t2 : Int64} (ht : t1 ≤ t2)
    (hfit : (persistImage s t1).length < 2 ^ 63) :
    (persistLoad hash d (.contents (persistImage s t1)) t2).2 = .status .ok ∧
    StoreReachable hash (persistLoad hash d (.contents (persistImage s t1)) t2).1 ∧
    ∀ k, (persistLoad hash d (.contents (persistImage s t1)) t2).1.toMap.lookup k =
      match s.toMap.lookup k with
      | some (v, x) => if x = 0 ∨ t2 < x then some (v, x) else d.toMap.lookup k
      | none => d.toMap.lookup k := by
  have hsound := hs.inv.toSound
  rw [persistLoad_persistImage hsound d t2 hfit]
  exact ⟨rfl, foldl_loadEntry_reachable hd t2 _, fun k => lookup_loaded hsound hd ht k⟩

def savedStore : Store :=
  (Machine.run (storeStep fnv1aHash) storeCreate
    [.set (str "a") (str "1") 0, .set (str "b") [] 9, .set (str "c") (str "\r\n") 5,
      .set [] (str "4") 0, .get (str "a") 2]).1

theorem snapshot_round_trip_midway :
    isRehashing savedStore = true ∧ (savedStore.toMap.lookup (str "b") = some ([], 9)) ∧
      (persistLoad fnv1aHash storeCreate (.contents (persistImage savedStore 3)) 7).1.toMap.lookup
        (str "b") = some ([], 9) := by
  have hlk : savedStore.toMap.lookup (str "b") = some ([], 9) := by decide +kernel
  have h := (@snapshot_round_trip fnv1aHash savedStore storeCreate ⟨_, rfl⟩ ⟨[], rfl⟩ 3 7
    (by decide) (by decide +kernel)).2.2 (str "b")
  rw [hlk] at h
  exact ⟨by decide, hlk, h.trans (by decide)⟩

end RedisServer

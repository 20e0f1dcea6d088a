import RedisServer.Persist.Bounds
import RedisServer.Persist.Corruption

namespace RedisServer

variable {hash : Bytes → UInt64} {data full : Bytes} {now : Int64} {limit limit' pos pos' : UInt64}

section Cut

variable (hcut : data <+: full) (hlim : limit.toNat ≤ limit'.toNat)

include hlim in
theorem within_mono {a : UInt64} (h : within a limit = .ok ()) : within a limit' = .ok () :=
  within_iff.mpr ((within_iff.mp h).trans hlim)

include hcut

theorem readU64At_mono {q x : UInt64} (h : readU64At data q = .ok x) : readU64At full q = .ok x := by
  obtain ⟨rest, rfl⟩ := hcut
  rw [readU64At] at h ⊢
  split_ifs at h with hin
  rw [if_pos (by rw [List.length_append]; omega), ← Except.ok.inj h, readU64, readU64,
    List.drop_append_of_le_length (by omega),
    List.take_append_of_le_length (by rw [List.length_drop]; omega)]

include hlim

theorem KeyField.mono {k : UInt64} (h : KeyField data limit pos k) : KeyField full limit' pos k :=
  ⟨within_mono hlim h.key_guard, readU64At_mono hcut h.key_read⟩

theorem ValField.mono {k v : UInt64} (h : ValField data limit pos k v) :
    ValField full limit' pos k v :=
  ⟨h.toKeyField.mono hcut hlim, within_mono hlim h.key_fits, within_mono hlim h.val_guard,
    readU64At_mono hcut h.val_read⟩

theorem ExpiryField.mono {k v x : UInt64} (h : ExpiryField data limit pos k v x) :
    ExpiryField full limit' pos k v x :=
  ⟨h.toValField.mono hcut hlim, within_mono hlim h.val_fits, within_mono hlim h.expiry_guard,
    readU64At_mono hcut h.expiry_read⟩

theorem LengthWraps.mono (h : LengthWraps data limit pos) : LengthWraps full limit' pos := by
  rcases h with ⟨k, hk, hge⟩ | ⟨k, v, hv, hge⟩
  · exact .inl ⟨k, hk.mono hcut hlim, hge⟩
  · exact .inr ⟨k, v, hv.mono hcut hlim, hge⟩

end Cut

theorem readEntry_mono {r : RawEntry} (hcut : data <+: full) (hlim : limit.toNat ≤ limit'.toNat)
    (h : readEntry data limit pos = .ok (r, pos')) : readEntry full limit' pos = .ok (r, pos') := by
  obtain ⟨x, hx, hkp, hvp, hexp, rfl⟩ := readEntry_ok h
  rw [(hx.mono hcut hlim).readEntry_eq, ← hvp, ← hkp, ← hexp]

theorem EntryAt.not_wraps {limit p : Nat} {e : Entry} (h : EntryAt data limit p e) :
    ¬ LengthWraps data (UInt64.ofNat limit) (UInt64.ofNat p) := by
  intro hw
  have hfits := h.fits
  have hlimit := h.limit_le
  have hsmall := h.small
  rw [length_entryImage] at hfits
  have hge := readEntry_wraps h.readEntry_eq hw
  simp only [rawOf] at hge
  rw [toNat_ofNat64 (by omega), toNat_ofNat64 (by omega), toNat_ofNat64 (by omega),
    toNat_ofNat64 (by omega)] at hge
  omega

def fileWith (es : List Entry) (junk : Bytes) : Bytes :=
  imageBody es ++ junk ++ writeU32 (checksum (imageBody es ++ junk))

def entryPos (es : List Entry) (i : Nat) : Nat := 16 + ((es.take i).flatMap entryImage).length

theorem length_fileWith (es : List Entry) (junk : Bytes) :
    (fileWith es junk).length = 20 + (es.flatMap entryImage).length + junk.length := by
  rw [fileWith, List.length_append, List.length_append, length_imageBody, length_writeU32]
  omega

theorem fileWith_nil (es : List Entry) : fileWith es [] = imageOf es := by
  rw [fileWith, imageOf, List.append_nil]

theorem fileWith_split (es : List Entry) (junk : Bytes) : fileWith es junk =
    magic ++ (writeU64 (UInt64.ofNat es.length) ++ (es.flatMap entryImage ++
      (junk ++ writeU32 (checksum (imageBody es ++ junk))))) := by
  simp only [fileWith, imageBody, List.append_assoc]

theorem entryCount_fileWith {es : List Entry} {junk : Bytes}
    (hs : (fileWith es junk).length < 2 ^ 63) : entryCount (fileWith es junk) = es.length := by
  have hlen := length_fileWith es junk
  have hcount := length_le_flatMap_entryImage es
  have hm : magic.length = magicLen := rfl
  rw [entryCount, fileWith_split, List.drop_left' hm, readU64_writeU64, toNat_ofNat64 (by omega)]

theorem checked_fileWith {es : List Entry} {junk : Bytes}
    (hs : (fileWith es junk).length < 2 ^ 63) : Checked (fileWith es junk) := by
  have hlen := length_fileWith es junk
  have hbody : (fileWith es junk).length - 4 = (imageBody es ++ junk).length := by
    rw [List.length_append, length_imageBody]
    omega
  refine ⟨by simp only [magicLen]; omega, hs, ?_, ?_⟩
  · rw [fileWith_split]
    exact List.take_left' rfl
  · rw [hbody, fileWith, List.drop_left, List.take_left, readU32_writeU32]

theorem entryPos_succ {es : List Entry} {i : Nat} (hi : i < es.length) :
    entryPos es (i + 1) = entryPos es i + (entryImage es[i]).length := by
  rw [entryPos, entryPos, List.take_succ_eq_append_getElem hi, List.flatMap_append,
    List.length_append]
  simp only [List.flatMap_cons, List.flatMap_nil, List.append_nil]
  omega

theorem entryPos_length (es : List Entry) :
    entryPos es es.length = 16 + (es.flatMap entryImage).length := by
  rw [entryPos, List.take_length]

theorem entryPos_le (es : List Entry) (i : Nat) :
    entryPos es i ≤ 16 + (es.flatMap entryImage).length := by
  have hsplit := congrArg (fun l => (l.flatMap entryImage).length) (List.take_append_drop i es)
  simp only [List.flatMap_append, List.length_append] at hsplit
  rw [entryPos]
  omega

theorem fileWith_entryAt {es : List Entry} {junk : Bytes} (hs : (fileWith es junk).length < 2 ^ 63)
    {i : Nat} (hi : i < es.length) :
    EntryAt (fileWith es junk) ((fileWith es junk).length - 4) (entryPos es i) es[i] := by
  have hlen := length_fileWith es junk
  have hle := entryPos_le es (i + 1)
  rw [entryPos_succ hi] at hle
  refine ⟨?_, by omega, by omega, hs⟩
  have hes : es.flatMap entryImage = (es.take i).flatMap entryImage ++
      (entryImage es[i] ++ (es.drop (i + 1)).flatMap entryImage) := by
    rw [← List.flatMap_cons, List.cons_getElem_drop_succ, ← List.flatMap_append,
      List.take_append_drop]
  have hpre : (magic ++ (writeU64 (UInt64.ofNat es.length) ++
      (es.take i).flatMap entryImage)).length = entryPos es i := by
    rw [List.length_append, List.length_append, length_writeU64, entryPos, ← Nat.add_assoc]
    rfl
  have hfile : fileWith es junk =
      magic ++ (writeU64 (UInt64.ofNat es.length) ++ (es.take i).flatMap entryImage) ++
        (entryImage es[i] ++ ((es.drop (i + 1)).flatMap entryImage ++
          (junk ++ writeU32 (checksum (imageBody es ++ junk))))) := by
    rw [fileWith_split, hes]
    simp only [List.append_assoc]
  exact ⟨_, by rw [hfile, List.drop_left' hpre]⟩

structure CutOf (es : List Entry) (junk data : Bytes) : Prop where
  checked : Checked data
  cut : data <+: fileWith es junk
  small : (fileWith es junk).length < 2 ^ 63

theorem CutOf.whole {es : List Entry} {junk : Bytes} (hs : (fileWith es junk).length < 2 ^ 63) :
    CutOf es junk (fileWith es junk) := ⟨checked_fileWith hs, List.prefix_rfl, hs⟩

section CutOf

variable {es : List Entry} {junk : Bytes} (h : CutOf es junk data)
include h

theorem CutOf.limit_le :
    (entryLimit data).toNat ≤ (UInt64.ofNat ((fileWith es junk).length - 4)).toNat := by
  have hle := h.cut.length_le
  have hsmall := h.small
  rw [toNat_entryLimit h.checked, toNat_ofNat64 (by omega)]
  omega

theorem CutOf.count_eq : entryCount data = es.length := by
  have hsize : 20 ≤ data.length := h.checked.size
  have hread : readU64At data 8 = .ok (readU64 (data.drop 8)) :=
    if_pos (by change 8 + 8 ≤ data.length; omega)
  have hfull := readU64At_mono h.cut hread
  rw [readU64At] at hfull
  split_ifs at hfull
  rw [entryCount, ← entryCount_fileWith h.small]
  exact congrArg UInt64.toNat (Except.ok.inj hfull).symm

theorem CutOf.walk_pos {i : Nat} {ws : List Entry} (hwalk : Walk data now i pos ws) :
    pos = UInt64.ofNat (entryPos es i) := by
  refine Walk.pos_induction (P := fun i q => q = UInt64.ofNat (entryPos es i)) rfl ?_ hwalk
  rintro i _ q' ws r - hi hr rfl
  rw [h.count_eq] at hi
  have hfull := readEntry_mono h.cut h.limit_le hr
  rw [(fileWith_entryAt h.small hi).readEntry_eq] at hfull
  rw [entryPos_succ hi]
  exact (Prod.ext_iff.mp (Except.ok.inj hfull)).2.symm

theorem CutOf.not_wraps {i : Nat} {ws : List Entry} (hwalk : Walk data now i pos ws)
    (hi : i < entryCount data) : ¬ LengthWraps data (entryLimit data) pos := by
  intro hw
  rw [h.count_eq] at hi
  have hfull := hw.mono h.cut h.limit_le
  rw [h.walk_pos hwalk] at hfull
  exact (fileWith_entryAt h.small hi).not_wraps hfull

theorem CutOf.no_fault (s : Store) : (persistLoad hash s (.contents data) now).2 ≠ .fault := by
  have hc := h.checked
  have hharm : WrapsHarmless data now := by
    intro i hi hpassed hw hkey hval
    obtain ⟨pos, ws, hwalk⟩ := walk_of_fields hc hi.le hpassed
    rw [← hwalk.pos_eq hc] at hw hkey hval
    exact absurd (hw.length hc (hwalk.pos_le hc) hkey hval) (h.not_wraps hwalk hi)
  exact (hharm.confined hc).no_fault hc s

end CutOf

theorem fileWith_walk {es : List Entry} {junk : Bytes} (hs : (fileWith es junk).length < 2 ^ 63)
    (now : Int64) {i : Nat} (hi : i ≤ es.length) :
    ∃ ws, Walk (fileWith es junk) now i (UInt64.ofNat (entryPos es i)) ws := by
  induction i with
  | zero => exact ⟨[], .start⟩
  | succ i ih =>
    obtain ⟨ws, hwalk⟩ := ih (by omega)
    have hat := fileWith_entryAt hs hi
    have hcount : i < entryCount (fileWith es junk) := by
      rw [entryCount_fileWith hs]
      exact hi
    rw [entryPos_succ hi]
    cases hx : expired (rawOf (entryPos es i) es[i]).expireAtMs now with
    | true => exact ⟨ws, hwalk.skip hcount hat.readEntry_eq hx⟩
    | false => exact ⟨_, hwalk.take hcount hat.readEntry_eq hx hat.slices.1 hat.slices.2⟩

theorem fileWith_accepted {es : List Entry} {junk : Bytes}
    (hs : (fileWith es junk).length < 2 ^ 63) (s : Store) (now : Int64) :
    (persistLoad hash s (.contents (fileWith es junk)) now).2 = .status .ok := by
  obtain ⟨ws, hwalk⟩ := fileWith_walk hs now le_rfl
  rw [← entryCount_fileWith hs] at hwalk
  rw [(WalkEnd.done hwalk).persistLoad_eq (checked_fileWith hs)]

theorem accepted_iff {s : Store} : (persistLoad hash s (.contents data) now).2 = .status .ok ↔
    Checked data ∧ ∃ pos es, Walk data now (entryCount data) pos es := by
  constructor
  · intro h
    have hc := checked_of_ok h
    obtain ⟨es, out, hend⟩ := (@Walk.start data now).ends
    rw [hend.persistLoad_eq hc] at h
    cases hend with
    | done hwalk => exact ⟨hc, _, es, hwalk⟩
    | @stopped _ _ e => cases e <;> cases h
    | outside => cases h
  · rintro ⟨hc, pos, es, hwalk⟩
    rw [(WalkEnd.done hwalk).persistLoad_eq hc]

theorem readU64At_ok {q x : UInt64} (h : readU64At data q = .ok x) :
    (data.drop q.toNat).take 8 = writeU64 x := by
  rw [readU64At] at h
  split_ifs at h with hin
  have hlen : ((data.drop q.toNat).take 8).length = 8 := by
    rw [List.length_take, List.length_drop]
    omega
  have hw := LittleEndian.write_read (w := 64) ((data.drop q.toNat).take 8) (by omega)
  rw [hlen] at hw
  rw [← Except.ok.inj h, writeU64, readU64]
  exact hw.symm

theorem readEntry_image {r : RawEntry} (hc : Checked data) (hpos : pos.toNat ≤ data.length - 4)
    (hw : ¬ LengthWraps data (entryLimit data) pos)
    (hr : readEntry data (entryLimit data) pos = .ok (r, pos')) :
    ∃ e, data.take pos'.toNat = data.take pos.toNat ++ entryImage e := by
  obtain ⟨x, hx, -, -, -, rfl⟩ := readEntry_ok hr
  have hlimit := within_iff.mp hx.expiry_guard
  have hend := hx.toNat_end hc hpos hw
  rw [toNat_entryLimit hc, hend] at hlimit
  have hk := readU64At_ok hx.key_read
  have hv := readU64At_ok hx.val_read
  have he := readU64At_ok hx.expiry_read
  rw [hx.toKeyField.toNat_end hc hpos hw] at hv
  rw [hx.toValField.toNat_end hc hpos hw] at he
  have hkey : ((data.drop (pos.toNat + 8)).take r.keyLen.toNat).length = r.keyLen.toNat := by
    rw [List.length_take, List.length_drop]
    omega
  have hval : ((data.drop (pos.toNat + 8 + r.keyLen.toNat + 8)).take r.valLen.toNat).length =
      r.valLen.toNat := by
    rw [List.length_take, List.length_drop]
    omega
  refine ⟨⟨(data.drop (pos.toNat + 8)).take r.keyLen.toNat,
    (data.drop (pos.toNat + 8 + r.keyLen.toNat + 8)).take r.valLen.toNat, x.toInt64⟩, ?_⟩
  simp only [entryImage, hkey, hval, UInt64.ofNat_toNat, UInt64.toUInt64_toInt64]
  rw [hend, List.take_add, List.take_add, List.take_add, List.take_add, List.take_add, hk, hv, he]
  simp only [List.append_assoc]

theorem Walk.entries {i : Nat} {ws : List Entry} (hc : Checked data)
    (hno : ∀ i pos ws, Walk data now i pos ws → i < entryCount data →
      ¬ LengthWraps data (entryLimit data) pos) (hwalk : Walk data now i pos ws) :
    ∃ es : List Entry, es.length = i ∧
      data.take pos.toNat = data.take 16 ++ es.flatMap entryImage := by
  refine Walk.pos_induction (P := fun i q => ∃ es : List Entry, es.length = i ∧
    data.take q.toNat = data.take 16 ++ es.flatMap entryImage) ?_ ?_ hwalk
  · exact ⟨[], rfl, by simp [magicLen]⟩
  · rintro i q q' ws r hprev hi hr ⟨es, hlen, htake⟩
    obtain ⟨e, he⟩ := readEntry_image hc (hprev.pos_le hc) (hno i q ws hprev hi) hr
    refine ⟨es ++ [e], by simp [hlen], ?_⟩
    rw [he, htake, List.flatMap_append]
    simp

theorem Checked.take_header (h : Checked data) {es : List Entry}
    (hes : es.length = entryCount data) :
    data.take 16 = magic ++ writeU64 (UInt64.ofNat es.length) := by
  have hsize : 20 ≤ data.length := h.size
  have hread : readU64At data 8 = .ok (readU64 (data.drop 8)) :=
    if_pos (by change 8 + 8 ≤ data.length; omega)
  have hcount : (data.drop 8).take 8 = writeU64 (UInt64.ofNat (entryCount data)) := by
    rw [entryCount, UInt64.ofNat_toNat]
    exact readU64At_ok hread
  have hmagic : data.take 8 = magic := h.magic_eq
  rw [hes, ← hmagic, ← hcount]
  exact List.take_add (i := 8) (j := 8)

theorem Checked.drop_sum (h : Checked data) :
    data.drop (data.length - 4) = writeU32 (checksum (data.take (data.length - 4))) := by
  have hsize : 20 ≤ data.length := h.size
  apply readU32_injective (by rw [List.length_drop]; omega) (length_writeU32 _)
  rw [readU32_writeU32, h.sum_eq]

theorem Walk.file_eq {ws : List Entry} (hc : Checked data)
    (hno : ∀ i pos ws, Walk data now i pos ws → i < entryCount data →
      ¬ LengthWraps data (entryLimit data) pos) (hwalk : Walk data now (entryCount data) pos ws) :
    ∃ es junk, data = fileWith es junk := by
  obtain ⟨es, hlen, htake⟩ := hwalk.entries hc hno
  have hpos := hwalk.pos_le hc
  rw [hc.take_header hlen] at htake
  have hcut : (data.take (data.length - 4)).take pos.toNat = data.take pos.toNat := by
    rw [List.take_take, min_eq_left hpos]
  have hbody : data.take (data.length - 4) =
      imageBody es ++ (data.take (data.length - 4)).drop pos.toNat := by
    rw [imageBody, ← htake, ← hcut, List.take_append_drop]
  refine ⟨es, (data.take (data.length - 4)).drop pos.toNat, ?_⟩
  rw [fileWith, ← hbody, ← hc.drop_sum, List.take_append_drop]

def WellFormed (data : Bytes) : Prop := ∃ es, data = imageOf es

-- bytes behind the last entry that the checksum covers and the count does not
def Leftover (data : Bytes) : Prop := ∃ es junk, junk ≠ [] ∧ data = fileWith es junk

-- the fields of the file, followed from the header on: all are in bounds, the live entries are in
-- the buffer, and one of the lengths wraps around
structure WrapsThrough (data : Bytes) (now : Int64) : Prop where
  checked : Checked data
  passed : ∀ i < entryCount data, Passed data now (fieldPos data i)
  wraps : ∃ i < entryCount data, Wraps data (fieldPos data i)

theorem WrapsThrough.walk (h : WrapsThrough data now) :
    ∃ pos ws, Walk data now (entryCount data) pos ws := walk_of_fields h.checked le_rfl h.passed

theorem WellFormed.accepted (h : WellFormed data) (hread : data.length < 2 ^ 63) (s : Store)
    (now : Int64) : (persistLoad hash s (.contents data) now).2 = .status .ok := by
  obtain ⟨es, rfl⟩ := h
  rw [persistLoad_imageOf hread]

theorem Leftover.accepted (h : Leftover data) (hread : data.length < 2 ^ 63) (s : Store)
    (now : Int64) : (persistLoad hash s (.contents data) now).2 = .status .ok := by
  obtain ⟨es, junk, -, rfl⟩ := h
  exact fileWith_accepted hread s now

theorem WrapsThrough.accepted (h : WrapsThrough data now) (s : Store) :
    (persistLoad hash s (.contents data) now).2 = .status .ok :=
  accepted_iff.mpr ⟨h.checked, h.walk⟩

theorem Leftover.not_wellFormed (h : Leftover data) (hread : data.length < 2 ^ 63) :
    ¬ WellFormed data := by
  obtain ⟨es, junk, hne, rfl⟩ := h
  rintro ⟨es', himage⟩
  have hlen := length_fileWith es junk
  have hlen' := congrArg List.length himage
  rw [length_imageOf] at hlen'
  rw [← fileWith_nil] at himage
  have hcut' : CutOf es' [] (fileWith es junk) := by
    rw [himage] at hread ⊢
    exact .whole hread
  -- both readings of the file lead its one walk to the end of their entries
  obtain ⟨ws, hwalk⟩ := fileWith_walk hread 0 le_rfl
  have hcount : es.length = es'.length := (entryCount_fileWith hread).symm.trans hcut'.count_eq
  have hpos := hcut'.walk_pos hwalk
  have hle' := entryPos_length es'
  rw [entryPos_length, hcount, hle'] at hpos
  have hnat := congrArg UInt64.toNat hpos
  rw [toNat_ofNat64 (by omega), toNat_ofNat64 (by omega)] at hnat
  have hjunk := List.length_pos_iff.mpr hne
  omega

theorem WrapsThrough.not_wellFormed (h : WrapsThrough data now) : ¬ WellFormed data := by
  rintro ⟨es, rfl⟩
  have hc := h.checked
  have hcut : CutOf es [] (imageOf es) := by
    have hlong := hc.long
    rw [← fileWith_nil] at hlong ⊢
    exact .whole hlong
  obtain ⟨i, hi, hwraps⟩ := h.wraps
  obtain ⟨pos, ws, hwalk⟩ := walk_of_fields hc hi.le (fun j hj => h.passed j (hj.trans hi))
  have hin := (h.passed i hi).inBounds
  rw [← hwalk.pos_eq hc] at hin hwraps
  exact hcut.not_wraps hwalk hi (hwraps.length hc (hwalk.pos_le hc) hin.key hin.val)

theorem accepted_cases {s : Store} (h : (persistLoad hash s (.contents data) now).2 = .status .ok) :
    WellFormed data ∨ Leftover data ∨ WrapsThrough data now := by
  obtain ⟨hc, pos, ws, hwalk⟩ := accepted_iff.mp h
  have hpassed := hwalk.passed hc
  rcases em (∃ i < entryCount data, Wraps data (fieldPos data i)) with hw | hno
  · exact .inr (.inr ⟨hc, hpassed, hw⟩)
  · have hnone : ∀ i pos ws, Walk data now i pos ws → i < entryCount data →
        ¬ LengthWraps data (entryLimit data) pos := by
      intro i pos ws hwalk hi hw
      have hwraps := hw.wraps hc (hwalk.pos_le hc)
      rw [hwalk.pos_eq hc] at hwraps
      exact hno ⟨i, hi, hwraps⟩
    obtain ⟨es, junk, hfile⟩ := hwalk.file_eq hc hnone
    rcases eq_or_ne junk [] with rfl | hne
    · exact .inl ⟨es, hfile.trans (fileWith_nil es)⟩
    · exact .inr (.inl ⟨es, junk, hne, hfile⟩)

theorem load_accepts_format_iff (hread : data.length < 2 ^ 63) (s : Store) (now : Int64) :
    ((persistLoad hash s (.contents data) now).2 = .status .ok ↔ WellFormed data) ↔
      ¬ Leftover data ∧ ¬ WrapsThrough data now := by
  constructor
  · intro h
    exact ⟨fun hl => hl.not_wellFormed hread (h.mp (hl.accepted hread s now)),
      fun hw => hw.not_wellFormed (h.mp (hw.accepted s))⟩
  · rintro ⟨hl, hw⟩
    refine ⟨fun hok => ?_, fun hwf => hwf.accepted hread s now⟩
    rcases accepted_cases hok with hwf | h | h
    · exact hwf
    · exact absurd h hl
    · exact absurd h hw

theorem load_accepts_format_one_entry :
    oneEntryFile.length < 2 ^ 63 ∧ ¬ Leftover oneEntryFile ∧ ¬ WrapsThrough oneEntryFile 5 := by
  have hread : oneEntryFile.length < 2 ^ 63 := by decide +kernel
  have hok : (persistLoad fnv1aHash storeCreate (.contents oneEntryFile) 5).2 = .status .ok := by
    decide +kernel
  exact ⟨hread, (load_accepts_format_iff hread storeCreate 5).mp
    ⟨fun _ => ⟨_, rfl⟩, fun _ => hok⟩⟩

theorem load_accepts_leftover_byte :
    (fileWith [] [0]).length < 2 ^ 63 ∧
      ¬ ((persistLoad fnv1aHash storeCreate (.contents (fileWith [] [0])) 5).2 = .status .ok ↔
        WellFormed (fileWith [] [0])) := by
  refine ⟨by decide +kernel, fun h => ?_⟩
  have hok : (persistLoad fnv1aHash storeCreate (.contents (fileWith [] [0])) 5).2 =
      .status .ok := by
    decide +kernel
  have hwf := h.mp hok
  exact Leftover.not_wellFormed ⟨[], [0], by simp, rfl⟩ (by decide +kernel) hwf

theorem truncated_image_rejected {s : Store} (hs : StoreReachable hash s) {t1 : Int64}
    (hfit : (persistImage s t1).length < 2 ^ 63) {p : Bytes} (hp : p <+: persistImage s t1)
    (hne : p ≠ persistImage s t1) (d : Store) (t2 : Int64) :
    ∃ st, st ≠ .ok ∧ (persistLoad hash d (.contents p) t2).2 = .status st := by
  rw [persistImage_eq hs.inv.toSound, ← fileWith_nil] at hfit hp hne
  by_cases hc : Checked p
  · have hcut : CutOf (s.visited t1) [] p := ⟨hc, hp, hfit⟩
    have hnok : (persistLoad hash d (.contents p) t2).2 ≠ .status .ok := by
      intro hok
      obtain ⟨-, pos, ws, hwalk⟩ := accepted_iff.mp hok
      have hle := hwalk.pos_le hc
      have hlen := length_fileWith (s.visited t1) []
      have hlt : p.length < (fileWith (s.visited t1) []).length :=
        lt_of_le_of_ne hp.length_le (fun h => hne (hp.eq_of_length h))
      rw [hcut.walk_pos hwalk, hcut.count_eq, entryPos_length, toNat_ofNat64 (by omega)] at hle
      have hsize : 20 ≤ p.length := hc.size
      rw [List.length_nil] at hlen
      omega
    have hnf := @CutOf.no_fault hash p t2 _ _ hcut d
    cases hout : (persistLoad hash d (.contents p) t2).2 with
    | status st => exact ⟨st, fun h => hnok (h ▸ hout), rfl⟩
    | fault => exact absurd hout hnf
  · rcases @persistLoad_unchecked hash p hc d t2 with h | h <;> rw [h]
    · exact ⟨.errFormat, by decide, rfl⟩
    · exact ⟨.errCorrupt, by decide, rfl⟩

-- the value is the sum of the bytes in front of it
def summedStore : Store :=
  (Machine.run (storeStep fnv1aHash) storeCreate [.set (str "k") (writeU32 720) 0]).1

theorem truncated_image_rejected_at_sum :
    Checked ((persistImage summedStore 5).take 37) ∧
      ∃ st, st ≠ .ok ∧ (persistLoad fnv1aHash storeCreate
        (.contents ((persistImage summedStore 5).take 37)) 5).2 = .status st := by
  have hreach : StoreReachable fnv1aHash summedStore :=
    ⟨[.set (str "k") (writeU32 720) 0], rfl⟩
  have hne : (persistImage summedStore 5).take 37 ≠ persistImage summedStore 5 := by decide +kernel
  exact ⟨⟨by decide +kernel, by decide +kernel, by decide +kernel, by decide +kernel⟩,
    truncated_image_rejected hreach (by decide +kernel) ⟨_, List.take_append_drop 37 _⟩ hne
      storeCreate 5⟩

end RedisServer

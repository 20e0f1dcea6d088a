import RedisServer.Persist.Fields

namespace RedisServer

variable {hash : Bytes → UInt64} {data : Bytes} {now : Int64} {limit pos pos' : UInt64}

-- where one turn of the loop calls read_u64
inductive FieldRead (data : Bytes) (limit pos : UInt64) : UInt64 → Prop
  | key (hg : within (pos + 8) limit = .ok ()) : FieldRead data limit pos pos
  | val {k : UInt64} (h : KeyField data limit pos k) (hf : within (pos + 8 + k) limit = .ok ())
    (hg : within (pos + 8 + k + 8) limit = .ok ()) : FieldRead data limit pos (pos + 8 + k)
  | expiry {k v : UInt64} (h : ValField data limit pos k v)
    (hf : within (pos + 8 + k + 8 + v) limit = .ok ())
    (hg : within (pos + 8 + k + 8 + v + 8) limit = .ok ()) :
    FieldRead data limit pos (pos + 8 + k + 8 + v)

theorem bind_error {ε α β : Type} {x : Except ε α} {f : α → Except ε β} {e : ε}
    (h : x >>= f = .error e) : x = .error e ∨ ∃ a, x = .ok a ∧ f a = .error e := by
  cases x with
  | error e' => exact .inl (congrArg _ (Except.error.inj h))
  | ok a => exact .inr ⟨a, rfl, h⟩

theorem within_ne_fault {a b : UInt64} : within a b ≠ .error .fault := by
  rw [within]
  split_ifs <;> simp

theorem readU64At_error {q : UInt64} {e : LoadStop} (h : readU64At data q = .error e) :
    data.length < q.toNat + 8 := by
  rw [readU64At] at h
  split_ifs at h
  omega

theorem readEntry_fault (h : readEntry data limit pos = .error .fault) :
    ∃ q, FieldRead data limit pos q ∧ data.length < q.toNat + 8 := by
  rcases bind_error h with h | ⟨_, g1, h⟩
  · exact absurd h within_ne_fault
  rcases bind_error h with h | ⟨k, r1, h⟩
  · exact ⟨pos, .key g1, readU64At_error h⟩
  rcases bind_error h with h | ⟨_, f1, h⟩
  · exact absurd h within_ne_fault
  rcases bind_error h with h | ⟨_, g2, h⟩
  · exact absurd h within_ne_fault
  rcases bind_error h with h | ⟨v, r2, h⟩
  · exact ⟨_, .val ⟨g1, r1⟩ f1 g2, readU64At_error h⟩
  rcases bind_error h with h | ⟨_, f2, h⟩
  · exact absurd h within_ne_fault
  rcases bind_error h with h | ⟨_, g3, h⟩
  · exact absurd h within_ne_fault
  rcases bind_error h with h | ⟨x, r3, h⟩
  · exact ⟨_, .expiry ⟨⟨g1, r1⟩, f1, g2, r2⟩ f2 g3, readU64At_error h⟩
  cases h

def Inside (data : Bytes) (pos len : UInt64) : Prop :=
  16 ≤ pos.toNat ∧ pos.toNat + len.toNat ≤ data.length - 4

structure LoadConfined (data : Bytes) (now : Int64) : Prop where
  reads : ∀ i pos es, Walk data now i pos es → i < entryCount data →
    ∀ q, FieldRead data (entryLimit data) pos q → Inside data q 8
  slices : ∀ i pos es, Walk data now i pos es → i < entryCount data →
    ∀ r pos', readEntry data (entryLimit data) pos = .ok (r, pos') →
      expired r.expireAtMs now = false → Inside data r.keyPos r.keyLen ∧ Inside data r.valPos r.valLen
  advances : ∀ i pos es, Walk data now i pos es → i < entryCount data →
    ∀ r pos', readEntry data (entryLimit data) pos = .ok (r, pos') → pos.toNat + 24 ≤ pos'.toNat
  bounded : ∀ i pos es, Walk data now i pos es → i ≤ (data.length - 20) / 24

-- where the loop comes to an entry with a length that wraps around and reads its fields, they stand
-- behind the header, and an entry that is in bounds has expired and leads on
def WrapsHarmless (data : Bytes) (now : Int64) : Prop :=
  ∀ i < entryCount data, (∀ j < i, Passed data now (fieldPos data j)) →
    Wraps data (fieldPos data i) → fieldPos data i + 8 ≤ data.length - 4 →
    valFieldAt data (fieldPos data i) + 8 ≤ data.length - 4 →
    16 ≤ valFieldAt data (fieldPos data i) ∧
      (expiryFieldAt data (fieldPos data i) + 8 ≤ data.length - 4 →
        16 ≤ expiryFieldAt data (fieldPos data i) ∧
          expired (expiryAt data (fieldPos data i)) now = true ∧
          fieldPos data i + 24 + (u64At data (fieldPos data i) +
            u64At data (valFieldAt data (fieldPos data i))).toNat < 2 ^ 64)

theorem readEntry_advance_iff {r : RawEntry} (hr : readEntry data limit pos = .ok (r, pos')) :
    pos.toNat + 24 ≤ pos'.toNat ↔ pos.toNat + 24 + (r.keyLen + r.valLen).toNat < 2 ^ 64 := by
  obtain ⟨x, -, -, -, -, rfl⟩ := readEntry_ok hr
  have hk := r.keyLen.toBitVec.isLt
  have hv := r.valLen.toBitVec.isLt
  have h8 : UInt64.toNat 8 = 8 := rfl
  simp only [UInt64.toNat_add, h8]
  omega

section Entry

variable (hc : Checked data) (hpos : pos.toNat ≤ data.length - 4)
  (hw : ¬ LengthWraps data (entryLimit data) pos)
include hc hpos hw

theorem KeyField.toNat_end {k : UInt64} (h : KeyField data (entryLimit data) pos k) :
    (pos + 8 + k).toNat = pos.toNat + 8 + k.toNat := by
  have hlt : (pos + 8).toNat + k.toNat < 2 ^ 64 := by
    by_contra hge
    exact hw (.inl ⟨k, h, by omega⟩)
  rw [toNat_add_of_lt hlt, toNat_keyPos hc hpos]

theorem ValField.toNat_valPos {k v : UInt64} (h : ValField data (entryLimit data) pos k v) :
    (pos + 8 + k + 8).toNat = pos.toNat + 8 + k.toNat + 8 := by
  have hfits := within_iff.mp h.key_fits
  have hlong := hc.long
  rw [toNat_entryLimit hc] at hfits
  rw [toNat_add_eight (by omega), h.toNat_end hc hpos hw]

theorem ValField.toNat_end {k v : UInt64} (h : ValField data (entryLimit data) pos k v) :
    (pos + 8 + k + 8 + v).toNat = pos.toNat + 8 + k.toNat + 8 + v.toNat := by
  have hlt : (pos + 8 + k + 8).toNat + v.toNat < 2 ^ 64 := by
    by_contra hge
    exact hw (.inr ⟨k, v, h, by omega⟩)
  rw [toNat_add_of_lt hlt, h.toNat_valPos hc hpos hw]

theorem ExpiryField.toNat_end {k v x : UInt64} (h : ExpiryField data (entryLimit data) pos k v x) :
    (pos + 8 + k + 8 + v + 8).toNat = pos.toNat + 8 + k.toNat + 8 + v.toNat + 8 := by
  have hfits := within_iff.mp h.val_fits
  have hlong := hc.long
  rw [toNat_entryLimit hc] at hfits
  rw [toNat_add_eight (by omega), h.toValField.toNat_end hc hpos hw]

end Entry

theorem FieldRead.end_le {q : UInt64} (hc : Checked data) (hpos : pos.toNat ≤ data.length - 4)
    (h : FieldRead data (entryLimit data) pos q) : q.toNat + 8 ≤ data.length - 4 := by
  have hlong := hc.long
  have fits : ∀ {p : UInt64}, p.toNat ≤ data.length - 4 →
      within (p + 8) (entryLimit data) = .ok () → p.toNat + 8 ≤ data.length - 4 := by
    intro p hp hg
    rw [← toNat_entryLimit hc, ← toNat_add_eight (by omega)]
    exact within_iff.mp hg
  cases h with
  | key hg => exact fits hpos hg
  | val _ hf hg => exact fits (toNat_entryLimit hc ▸ within_iff.mp hf) hg
  | expiry _ hf hg => exact fits (toNat_entryLimit hc ▸ within_iff.mp hf) hg

theorem FieldRead.pos_le {q : UInt64} (hc : Checked data) (hpos : pos.toNat ≤ data.length - 4)
    (hw : ¬ LengthWraps data (entryLimit data) pos) (h : FieldRead data (entryLimit data) pos q) :
    pos.toNat ≤ q.toNat := by
  cases h with
  | key => exact le_rfl
  | val h =>
    rw [h.toNat_end hc hpos hw]
    omega
  | expiry h =>
    rw [h.toNat_end hc hpos hw]
    omega

theorem readEntry_wraps {r : RawEntry} (hr : readEntry data limit pos = .ok (r, pos'))
    (hw : LengthWraps data limit pos) :
    2 ^ 64 ≤ r.keyPos.toNat + r.keyLen.toNat ∨ 2 ^ 64 ≤ r.valPos.toNat + r.valLen.toNat := by
  obtain ⟨x, hx, hkp, hvp, -, -⟩ := readEntry_ok hr
  rcases hw with ⟨k, hk, hge⟩ | ⟨k, v, hv, hge⟩
  · obtain rfl : r.keyLen = k := Except.ok.inj (hx.key_read.symm.trans hk.key_read)
    exact .inl (by rw [hkp]; exact hge)
  · obtain rfl : r.keyLen = k := Except.ok.inj (hx.key_read.symm.trans hv.key_read)
    obtain rfl : r.valLen = v := Except.ok.inj (hx.val_read.symm.trans hv.val_read)
    exact .inr (by rw [hvp]; exact hge)

theorem LoadConfined.harmless (hc : Checked data) (h : LoadConfined data now) :
    WrapsHarmless data now := by
  intro i hi hpassed hw hkey hval
  obtain ⟨pos, ws, hwalk⟩ := walk_of_fields hc hi.le hpassed
  have hle := hwalk.pos_le hc
  rw [← hwalk.pos_eq hc] at hw hkey hval ⊢
  have hfields := valField_of_le hc hle hkey hval
  obtain ⟨-, -, hvpos⟩ := hfields.toKeyField.fields hc hle
  obtain ⟨-, -, -, hepos⟩ := hfields.fields hc hle
  have hread := h.reads i pos ws hwalk hi
  refine ⟨?_, fun hexpiry => ?_⟩
  · rw [← hvpos]
    exact (hread _ (.val hfields.toKeyField hfields.key_fits hfields.val_guard)).1
  · obtain ⟨k, v, x, hx⟩ := InBounds.expiryField hc hle ⟨hkey, hval, hexpiry⟩
    obtain ⟨-, hk, -⟩ := hx.toKeyField.fields hc hle
    obtain ⟨-, hv, -, -⟩ := hx.toValField.fields hc hle
    obtain ⟨-, hxeq, -⟩ := hx.fields hc hle
    have hr := hx.readEntry_eq
    subst hk hv hxeq
    refine ⟨?_, ?_, (readEntry_advance_iff hr).mp (h.advances i pos ws hwalk hi _ _ hr)⟩
    · rw [← hepos]
      exact (hread _ (.expiry hfields hx.val_fits hx.expiry_guard)).1
    · by_contra hlive
      have hlong := hc.long
      have hx : expired (expiryAt data pos.toNat) now = false := by simpa using hlive
      obtain ⟨⟨-, hkin⟩, -, hvin⟩ := h.slices i pos ws hwalk hi _ _ hr hx
      rcases readEntry_wraps hr (hw.length hc hle hkey hval) with hge | hge <;> omega

theorem WrapsHarmless.fields {i : Nat} {ws : List Entry} (hc : Checked data)
    (h : WrapsHarmless data now) (hwalk : Walk data now i pos ws) (hi : i < entryCount data)
    (hw : LengthWraps data (entryLimit data) pos) (hkey : pos.toNat + 8 ≤ data.length - 4)
    (hval : valFieldAt data pos.toNat + 8 ≤ data.length - 4) :
    16 ≤ valFieldAt data pos.toNat ∧ (expiryFieldAt data pos.toNat + 8 ≤ data.length - 4 →
      16 ≤ expiryFieldAt data pos.toNat ∧ expired (expiryAt data pos.toNat) now = true ∧
        pos.toNat + 24 + (u64At data pos.toNat +
          u64At data (valFieldAt data pos.toNat)).toNat < 2 ^ 64) := by
  have hwraps := hw.wraps hc (hwalk.pos_le hc)
  rw [hwalk.pos_eq hc] at hwraps hkey hval ⊢
  exact h i hi (hwalk.passed hc) hwraps hkey hval

theorem WrapsHarmless.advance {i : Nat} {es : List Entry} {r : RawEntry} (hc : Checked data)
    (h : WrapsHarmless data now) (hwalk : Walk data now i pos es) (hi : i < entryCount data)
    (hr : readEntry data (entryLimit data) pos = .ok (r, pos')) : pos.toNat + 24 ≤ pos'.toNat := by
  have hle := hwalk.pos_le hc
  obtain ⟨x, hx, -, -, -, hpos'⟩ := readEntry_ok hr
  by_cases hw : LengthWraps data (entryLimit data) pos
  · have hin := hx.inBounds hc hle
    obtain ⟨-, -, hlt⟩ := (h.fields hc hwalk hi hw hin.key hin.val).2 hin.expiry
    rw [readEntry_advance_iff hr, (hx.toKeyField.fields hc hle).2.1,
      (hx.toValField.fields hc hle).2.1]
    exact hlt
  · rw [hpos', hx.toNat_end hc hle hw]
    omega

theorem WrapsHarmless.pos_ge {i : Nat} {es : List Entry} (hc : Checked data)
    (h : WrapsHarmless data now) (hwalk : Walk data now i pos es) : 16 + 24 * i ≤ pos.toNat := by
  refine Walk.pos_induction (P := fun i q => 16 + 24 * i ≤ q.toNat) ?_ ?_ hwalk
  · exact (toNat_ofNat64 (by simp)).ge
  · intro i q q' es r hprev hi hr ih
    have := h.advance hc hprev hi hr
    omega

theorem WrapsHarmless.confined (hc : Checked data) (h : WrapsHarmless data now) :
    LoadConfined data now where
  reads i pos es hwalk hi q hq := by
    have hge := h.pos_ge hc hwalk
    refine ⟨?_, hq.end_le hc (hwalk.pos_le hc)⟩
    have hle := hwalk.pos_le hc
    by_cases hw : LengthWraps data (entryLimit data) pos
    · cases hq with
      | key => omega
      | val hk hf hg =>
        obtain ⟨hkey, -, hvpos⟩ := hk.fields hc hle
        have hend := FieldRead.end_le hc hle (.val hk hf hg)
        rw [hvpos] at hend ⊢
        exact (h.fields hc hwalk hi hw hkey hend).1
      | expiry hv hf hg =>
        obtain ⟨hval, -, -, hepos⟩ := hv.fields hc hle
        have hend := FieldRead.end_le hc hle (.expiry hv hf hg)
        rw [hepos] at hend ⊢
        exact ((h.fields hc hwalk hi hw (hv.toKeyField.fields hc hle).1 hval).2 hend).1
    · have := hq.pos_le hc hle hw
      omega
  slices i pos es hwalk hi r pos' hr hlive := by
    have hge := h.pos_ge hc hwalk
    have hpos := hwalk.pos_le hc
    obtain ⟨x, hx, hkp, hvp, hexp, -⟩ := readEntry_ok hr
    have hw : ¬ LengthWraps data (entryLimit data) pos := by
      intro hw
      have hin := hx.inBounds hc hpos
      have hdead := ((h.fields hc hwalk hi hw hin.key hin.val).2 hin.expiry).2.1
      rw [expiryAt, ← (hx.fields hc hpos).2.1, ← hexp, hlive] at hdead
      cases hdead
    have hkend := within_iff.mp hx.key_fits
    have hvend := within_iff.mp hx.val_fits
    rw [toNat_entryLimit hc, hx.toKeyField.toNat_end hc hpos hw] at hkend
    rw [toNat_entryLimit hc, hx.toValField.toNat_end hc hpos hw] at hvend
    rw [hkp, hvp, Inside, Inside, toNat_keyPos hc hpos, hx.toValField.toNat_valPos hc hpos hw]
    omega
  advances i pos es hwalk hi r pos' hr := h.advance hc hwalk hi hr
  bounded i pos es hwalk := by
    have hge := h.pos_ge hc hwalk
    have hle := hwalk.pos_le hc
    have hsize : 20 ≤ data.length := hc.size
    omega

theorem sliceAt_inside {q n : UInt64} (h : Inside data q n) : ∃ bs, sliceAt data q n = .ok bs := by
  have := h.2
  exact ⟨_, if_pos (by omega)⟩

theorem LoadConfined.no_fault (hc : Checked data) (h : LoadConfined data now) (s : Store) :
    (persistLoad hash s (.contents data) now).2 ≠ .fault := by
  obtain ⟨es, out, hend⟩ := (@Walk.start data now).ends
  rw [hend.persistLoad_eq hc]
  cases hend with
  | done => nofun
  | @stopped i pos e hwalk hi hr =>
    cases e with
    | corrupt => nofun
    | fault =>
      obtain ⟨q, hq, hout⟩ := readEntry_fault hr
      have hin : q.toNat + 8 ≤ data.length - 4 := (h.reads i pos es hwalk hi q hq).2
      omega
  | @outside i pos pos' r hwalk hi hr hx hs =>
    obtain ⟨hk, hv⟩ := h.slices i pos es hwalk hi r pos' hr hx
    obtain ⟨key, hkey⟩ := sliceAt_inside hk
    obtain ⟨val, hval⟩ := sliceAt_inside hv
    exact absurd ⟨hkey, hval⟩ (hs key val)

theorem load_confined_iff_wraps_harmless (hc : Checked data) (now : Int64) :
    (LoadConfined data now ↔ WrapsHarmless data now) ∧
      (LoadConfined data now →
        ∀ hash s, (persistLoad hash s (.contents data) now).2 ≠ .fault) :=
  ⟨⟨fun h => h.harmless hc, fun h => h.confined hc⟩, fun h _ s => h.no_fault hc s⟩

-- the key length leads one byte back, and the value length found there leads out of the file
def wrapBody : Bytes := magic ++ writeU64 1 ++ writeU64 (-1) ++ List.replicate 16 0

def wrapFile : Bytes := wrapBody ++ writeU32 (checksum wrapBody)

theorem load_confined_one_entry :
    (Checked oneEntryFile ∧ LoadConfined oneEntryFile 5 ∧
      (persistLoad fnv1aHash storeCreate (.contents oneEntryFile) 5).2 ≠ .fault) ∧
    Checked wrapFile ∧ Wraps wrapFile 16 ∧ LoadConfined wrapFile 5 ∧
      (persistLoad fnv1aHash storeCreate (.contents wrapFile) 5).2 ≠ .fault := by
  have hc : Checked oneEntryFile :=
    ⟨by decide +kernel, by decide +kernel, by decide +kernel, by decide +kernel⟩
  have hc' : Checked wrapFile :=
    ⟨by decide +kernel, by decide +kernel, by decide +kernel, by decide +kernel⟩
  have hcount : entryCount oneEntryFile = 1 := by decide +kernel
  have hcount' : entryCount wrapFile = 1 := by decide +kernel
  have hstraight : ¬ Wraps oneEntryFile 16 := by
    rw [Wraps]
    decide +kernel
  have hback : Wraps wrapFile 16 := by
    rw [Wraps]
    decide +kernel
  have hout : 16 ≤ valFieldAt wrapFile 16 ∧
      ¬ expiryFieldAt wrapFile 16 + 8 ≤ wrapFile.length - 4 := by decide +kernel
  have hharm : WrapsHarmless oneEntryFile 5 := by
    intro i hi _ hw
    obtain rfl : i = 0 := by omega
    exact absurd hw hstraight
  have hharm' : WrapsHarmless wrapFile 5 := by
    intro i hi _ _ _ _
    obtain rfl : i = 0 := by omega
    exact ⟨hout.1, fun hexpiry => absurd hexpiry hout.2⟩
  obtain ⟨hiff, hnf⟩ := load_confined_iff_wraps_harmless hc 5
  obtain ⟨hiff', hnf'⟩ := load_confined_iff_wraps_harmless hc' 5
  exact ⟨⟨hc, hiff.mpr hharm, hnf (hiff.mpr hharm) _ _⟩, hc', hback, hiff'.mpr hharm',
    hnf' (hiff'.mpr hharm') _ _⟩

-- one entry of length zero whose value length leads back to the count; what is read there as the
-- expiry is -1
def loopBody : Bytes := magic ++ writeU64 (-1) ++ writeU64 0 ++ writeU64 (-24)

def loopFile : Bytes := loopBody ++ writeU32 (checksum loopBody)

theorem load_turns_in_place :
    Checked loopFile ∧ (∀ i, i ≤ 2 ^ 64 - 1 → Walk loopFile 0 i 16 []) ∧
      ¬ LoadConfined loopFile 0 := by
  have hcount : entryCount loopFile = 2 ^ 64 - 1 := by decide +kernel
  have hr : readEntry loopFile (entryLimit loopFile) 16 = .ok (⟨24, 0, 32, -24, -1⟩, 16) := by
    decide +kernel
  refine ⟨⟨by decide +kernel, by decide +kernel, by decide +kernel, by decide +kernel⟩, ?_, ?_⟩
  · intro i hi
    induction i with
    | zero => exact .start
    | succ i ih => exact (ih (by omega)).skip (by omega) hr (by decide)
  · intro h
    have hadv := h.advances 0 16 [] .start (by omega) _ _ hr
    exact absurd hadv (by decide)

end RedisServer

import RedisServer.Persist.Walk

namespace RedisServer

variable {data : Bytes} {now : Int64} {limit pos pos' : UInt64}

theorem within_iff {a b : UInt64} : within a b = .ok () ↔ a.toNat ≤ b.toNat := by
  rw [within]
  split_ifs with h <;> rw [gt_iff_lt, UInt64.lt_iff_toNat_lt] at h
  · simp only [false_iff]
    omega
  · simp only [true_iff]
    omega

structure KeyField (data : Bytes) (limit pos k : UInt64) : Prop where
  key_guard : within (pos + 8) limit = .ok ()
  key_read : readU64At data pos = .ok k

structure ValField (data : Bytes) (limit pos k v : UInt64) : Prop
    extends KeyField data limit pos k where
  key_fits : within (pos + 8 + k) limit = .ok ()
  val_guard : within (pos + 8 + k + 8) limit = .ok ()
  val_read : readU64At data (pos + 8 + k) = .ok v

structure ExpiryField (data : Bytes) (limit pos k v x : UInt64) : Prop
    extends ValField data limit pos k v where
  val_fits : within (pos + 8 + k + 8 + v) limit = .ok ()
  expiry_guard : within (pos + 8 + k + 8 + v + 8) limit = .ok ()
  expiry_read : readU64At data (pos + 8 + k + 8 + v) = .ok x

theorem bind_ok {ε α β : Type} {x : Except ε α} {f : α → Except ε β} {b : β}
    (h : x >>= f = .ok b) : ∃ a, x = .ok a ∧ f a = .ok b := by
  cases x with
  | error e => cases h
  | ok a => exact ⟨a, rfl, h⟩

theorem readEntry_ok {r : RawEntry} (h : readEntry data limit pos = .ok (r, pos')) :
    ∃ x, ExpiryField data limit pos r.keyLen r.valLen x ∧ r.keyPos = pos + 8 ∧
      r.valPos = pos + 8 + r.keyLen + 8 ∧ r.expireAtMs = x.toInt64 ∧
      pos' = pos + 8 + r.keyLen + 8 + r.valLen + 8 := by
  obtain ⟨_, g1, h⟩ := bind_ok h
  obtain ⟨k, r1, h⟩ := bind_ok h
  obtain ⟨_, f1, h⟩ := bind_ok h
  obtain ⟨_, g2, h⟩ := bind_ok h
  obtain ⟨v, r2, h⟩ := bind_ok h
  obtain ⟨_, f2, h⟩ := bind_ok h
  obtain ⟨_, g3, h⟩ := bind_ok h
  obtain ⟨x, r3, h⟩ := bind_ok h
  cases h
  exact ⟨x, ⟨⟨⟨g1, r1⟩, f1, g2, r2⟩, f2, g3, r3⟩, rfl, rfl, rfl, rfl⟩

theorem ExpiryField.readEntry_eq {k v x : UInt64} (h : ExpiryField data limit pos k v x) :
    readEntry data limit pos =
      .ok (⟨pos + 8, k, pos + 8 + k + 8, v, x.toInt64⟩, pos + 8 + k + 8 + v + 8) := by
  simp only [readEntry, bind, Except.bind, pure, Except.pure, h.key_guard, h.key_read, h.key_fits,
    h.val_guard, h.val_read, h.val_fits, h.expiry_guard, h.expiry_read]

def LengthWraps (data : Bytes) (limit pos : UInt64) : Prop :=
  (∃ k, KeyField data limit pos k ∧ 2 ^ 64 ≤ (pos + 8).toNat + k.toNat) ∨
    ∃ k v, ValField data limit pos k v ∧ 2 ^ 64 ≤ (pos + 8 + k + 8).toNat + v.toNat

theorem toNat_entryLimit (h : Checked data) : (entryLimit data).toNat = data.length - 4 := by
  have := h.long
  exact toNat_ofNat64 (by omega)

theorem toNat_add_eight {q : UInt64} (h : q.toNat < 2 ^ 63) : (q + 8).toNat = q.toNat + 8 := by
  rw [UInt64.toNat_add]
  change (q.toNat + 8) % 2 ^ 64 = _
  omega

theorem toNat_add_of_lt {q n : UInt64} (h : q.toNat + n.toNat < 2 ^ 64) :
    (q + n).toNat = q.toNat + n.toNat := by
  rw [UInt64.toNat_add]
  omega

theorem Walk.pos_le {i : Nat} {es : List Entry} (hc : Checked data) (h : Walk data now i pos es) :
    pos.toNat ≤ data.length - 4 := by
  refine Walk.pos_induction (P := fun _ q => q.toNat ≤ data.length - 4) ?_ ?_ h
  · have hsize : 20 ≤ data.length := hc.size
    rw [toNat_ofNat64 (by simp [magicLen]), magicLen]
    omega
  · intro i q q' es r _ _ hr _
    obtain ⟨x, hx, -, -, -, rfl⟩ := readEntry_ok hr
    rw [← toNat_entryLimit hc]
    exact within_iff.mp hx.expiry_guard

theorem toNat_keyPos (hc : Checked data) (hpos : pos.toNat ≤ data.length - 4) :
    (pos + 8).toNat = pos.toNat + 8 := by
  have := hc.long
  exact toNat_add_eight (by omega)

section Fields

variable (data)

def u64At (p : Nat) : UInt64 := readU64 (data.drop p)

-- where the fields behind the key and behind the value begin, in the arithmetic of size_t
def valFieldAt (p : Nat) : Nat := (p + 8 + (u64At data p).toNat) % 2 ^ 64

def expiryFieldAt (p : Nat) : Nat :=
  (valFieldAt data p + 8 + (u64At data (valFieldAt data p)).toNat) % 2 ^ 64

def expiryAt (p : Nat) : Int64 := (u64At data (expiryFieldAt data p)).toInt64

def fieldPos : Nat → Nat
  | 0 => magicLen + 8
  | i + 1 => expiryFieldAt data (fieldPos i) + 8

structure InBounds (p : Nat) : Prop where
  key : p + 8 ≤ data.length - 4
  val : valFieldAt data p + 8 ≤ data.length - 4
  expiry : expiryFieldAt data p + 8 ≤ data.length - 4

structure SlicesFit (p : Nat) : Prop where
  key : p + 8 + (u64At data p).toNat ≤ data.length
  val : valFieldAt data p + 8 + (u64At data (valFieldAt data p)).toNat ≤ data.length

structure Passed (now : Int64) (p : Nat) : Prop where
  inBounds : InBounds data p
  slices : expired (expiryAt data p) now = false → SlicesFit data p

def Wraps (p : Nat) : Prop :=
  2 ^ 64 ≤ p + 8 + (u64At data p).toNat ∨
    2 ^ 64 ≤ valFieldAt data p + 8 + (u64At data (valFieldAt data p)).toNat

end Fields

theorem readU64At_eq {q x : UInt64} (h : readU64At data q = .ok x) : x = u64At data q.toNat := by
  rw [readU64At] at h
  split_ifs at h
  exact (Except.ok.inj h).symm

theorem readU64At_of_le {q : UInt64} (h : q.toNat + 8 ≤ data.length) :
    readU64At data q = .ok (u64At data q.toNat) := if_pos h

theorem toNat_skip {q n : UInt64} (h : q.toNat < 2 ^ 63) :
    (q + 8 + n).toNat = (q.toNat + 8 + n.toNat) % 2 ^ 64 := by
  rw [UInt64.toNat_add, toNat_add_eight h]

section Fields

variable (hc : Checked data) (hpos : pos.toNat ≤ data.length - 4)
include hc hpos

theorem KeyField.fields {k : UInt64} (h : KeyField data (entryLimit data) pos k) :
    pos.toNat + 8 ≤ data.length - 4 ∧ k = u64At data pos.toNat ∧
      (pos + 8 + k).toNat = valFieldAt data pos.toNat := by
  have hlong := hc.long
  have hguard := within_iff.mp h.key_guard
  rw [toNat_entryLimit hc, toNat_keyPos hc hpos] at hguard
  have hk := readU64At_eq h.key_read
  exact ⟨hguard, hk, by rw [toNat_skip (by omega), hk]; rfl⟩

theorem ValField.fields {k v : UInt64} (h : ValField data (entryLimit data) pos k v) :
    valFieldAt data pos.toNat + 8 ≤ data.length - 4 ∧
      v = u64At data (valFieldAt data pos.toNat) ∧
      (pos + 8 + k + 8).toNat = valFieldAt data pos.toNat + 8 ∧
      (pos + 8 + k + 8 + v).toNat = expiryFieldAt data pos.toNat := by
  have hlong := hc.long
  obtain ⟨-, -, hval⟩ := h.toKeyField.fields hc hpos
  have hfits := within_iff.mp h.key_fits
  have hguard := within_iff.mp h.val_guard
  have hv := readU64At_eq h.val_read
  rw [toNat_entryLimit hc] at hfits hguard
  rw [toNat_add_eight (by omega), hval] at hguard
  rw [hval] at hv
  refine ⟨hguard, hv, by rw [toNat_add_eight (by omega), hval], ?_⟩
  rw [toNat_skip (by omega), hval, hv]
  rfl

theorem ExpiryField.fields {k v x : UInt64} (h : ExpiryField data (entryLimit data) pos k v x) :
    expiryFieldAt data pos.toNat + 8 ≤ data.length - 4 ∧
      x = u64At data (expiryFieldAt data pos.toNat) ∧
      (pos + 8 + k + 8 + v + 8).toNat = expiryFieldAt data pos.toNat + 8 := by
  have hlong := hc.long
  obtain ⟨-, -, -, hexp⟩ := h.toValField.fields hc hpos
  have hfits := within_iff.mp h.val_fits
  have hguard := within_iff.mp h.expiry_guard
  have hx := readU64At_eq h.expiry_read
  rw [toNat_entryLimit hc] at hfits hguard
  rw [toNat_add_eight (by omega), hexp] at hguard
  rw [hexp] at hx
  exact ⟨hguard, hx, by rw [toNat_add_eight (by omega), hexp]⟩

theorem ExpiryField.inBounds {k v x : UInt64}
    (h : ExpiryField data (entryLimit data) pos k v x) : InBounds data pos.toNat :=
  ⟨(h.toKeyField.fields hc hpos).1, (h.toValField.fields hc hpos).1, (h.fields hc hpos).1⟩

theorem valField_of_le (hkey : pos.toNat + 8 ≤ data.length - 4)
    (hval : valFieldAt data pos.toNat + 8 ≤ data.length - 4) :
    ValField data (entryLimit data) pos (u64At data pos.toNat)
      (u64At data (valFieldAt data pos.toNat)) := by
  have hlong := hc.long
  have hguard : within (pos + 8) (entryLimit data) = .ok () := by
    rw [within_iff, toNat_entryLimit hc, toNat_keyPos hc hpos]
    exact hkey
  have hk : KeyField data (entryLimit data) pos (u64At data pos.toNat) :=
    ⟨hguard, readU64At_of_le (by omega)⟩
  obtain ⟨-, -, hvpos⟩ := hk.fields hc hpos
  refine ⟨hk, ?_, ?_, ?_⟩
  · rw [within_iff, toNat_entryLimit hc, hvpos]
    omega
  · rw [within_iff, toNat_entryLimit hc, toNat_add_eight (by omega), hvpos]
    exact hval
  · rw [← hvpos]
    exact readU64At_of_le (by omega)

theorem InBounds.expiryField (h : InBounds data pos.toNat) :
    ∃ k v x, ExpiryField data (entryLimit data) pos k v x := by
  have hlong := hc.long
  have hexpiry := h.expiry
  have hv := valField_of_le hc hpos h.key h.val
  obtain ⟨-, -, -, hepos⟩ := hv.fields hc hpos
  refine ⟨_, _, u64At data (expiryFieldAt data pos.toNat), hv, ?_, ?_, ?_⟩
  · rw [within_iff, toNat_entryLimit hc, hepos]
    omega
  · rw [within_iff, toNat_entryLimit hc, toNat_add_eight (by omega), hepos]
    exact hexpiry
  · rw [← hepos]
    exact readU64At_of_le (by omega)

theorem LengthWraps.wraps (h : LengthWraps data (entryLimit data) pos) :
    Wraps data pos.toNat := by
  rcases h with ⟨k, hk, hge⟩ | ⟨k, v, hv, hge⟩
  · rw [toNat_keyPos hc hpos, (hk.fields hc hpos).2.1] at hge
    exact .inl hge
  · obtain ⟨-, hval, hvpos, -⟩ := hv.fields hc hpos
    rw [hvpos, hval] at hge
    exact .inr hge

theorem Wraps.length (h : Wraps data pos.toNat) (hkey : pos.toNat + 8 ≤ data.length - 4)
    (hval : valFieldAt data pos.toNat + 8 ≤ data.length - 4) :
    LengthWraps data (entryLimit data) pos := by
  have hv := valField_of_le hc hpos hkey hval
  rcases h with hge | hge
  · exact .inl ⟨_, hv.toKeyField, by rw [toNat_keyPos hc hpos]; exact hge⟩
  · exact .inr ⟨_, _, hv, by rw [(hv.fields hc hpos).2.2.1]; exact hge⟩

end Fields

theorem sliceAt_ok {q n : UInt64} : (∃ bs, sliceAt data q n = .ok bs) ↔
    q.toNat + n.toNat ≤ data.length := by
  rw [sliceAt]
  split_ifs with h
  · exact iff_of_true ⟨_, rfl⟩ h
  · exact iff_of_false (by simp) h

-- the positions of the loop are those of the fields
theorem Walk.pos_eq {i : Nat} {ws : List Entry} (hc : Checked data) (h : Walk data now i pos ws) :
    pos.toNat = fieldPos data i := by
  refine Walk.pos_induction (P := fun i q => q.toNat = fieldPos data i) ?_ ?_ h
  · exact toNat_ofNat64 (by simp [magicLen])
  · rintro i q q' ws r hprev - hr ih
    obtain ⟨x, hx, -, -, -, rfl⟩ := readEntry_ok hr
    rw [(hx.fields hc (hprev.pos_le hc)).2.2, ih]
    rfl

theorem Walk.passed {i : Nat} {ws : List Entry} (hc : Checked data) (h : Walk data now i pos ws) :
    ∀ j < i, Passed data now (fieldPos data j) := by
  have hfields : ∀ {i : Nat} {q q' : UInt64} {ws : List Entry} {r : RawEntry},
      Walk data now i q ws → readEntry data (entryLimit data) q = .ok (r, q') →
      InBounds data (fieldPos data i) ∧ r.expireAtMs = expiryAt data (fieldPos data i) := by
    intro i q q' ws r hprev hr
    have hle := hprev.pos_le hc
    obtain ⟨x, hx, -, -, hexp, -⟩ := readEntry_ok hr
    rw [← hprev.pos_eq hc, hexp, (hx.fields hc hle).2.1]
    exact ⟨hx.inBounds hc hle, rfl⟩
  induction h with
  | start => exact fun j hj => absurd hj (Nat.not_lt_zero j)
  | skip hprev hi hr hx ih =>
    intro j hj
    rcases Nat.lt_succ_iff_lt_or_eq.mp hj with hj | rfl
    · exact ih j hj
    · obtain ⟨hin, hexp⟩ := hfields hprev hr
      rw [hexp] at hx
      exact ⟨hin, fun hlive => Bool.noConfusion (hlive.symm.trans hx)⟩
  | take hprev hi hr hx hk hv ih =>
    intro j hj
    rcases Nat.lt_succ_iff_lt_or_eq.mp hj with hj | rfl
    · exact ih j hj
    · refine ⟨(hfields hprev hr).1, fun _ => ?_⟩
      have hle := hprev.pos_le hc
      obtain ⟨x, hfield, hkp, hvp, -, -⟩ := readEntry_ok hr
      have hkey := sliceAt_ok.mp ⟨_, hk⟩
      have hval := sliceAt_ok.mp ⟨_, hv⟩
      rw [hkp, toNat_keyPos hc hle, (hfield.toKeyField.fields hc hle).2.1, hprev.pos_eq hc] at hkey
      rw [hvp, (hfield.toValField.fields hc hle).2.2.1, (hfield.toValField.fields hc hle).2.1,
        hprev.pos_eq hc] at hval
      exact ⟨hkey, hval⟩

theorem walk_of_fields (hc : Checked data) {n : Nat} (hn : n ≤ entryCount data)
    (hpassed : ∀ i < n, Passed data now (fieldPos data i)) : ∃ pos ws, Walk data now n pos ws := by
  induction n with
  | zero => exact ⟨_, _, .start⟩
  | succ n ih =>
    obtain ⟨pos, ws, hwalk⟩ := ih (by omega) (fun i hi => hpassed i (by omega))
    have hle := hwalk.pos_le hc
    have hpos := hwalk.pos_eq hc
    obtain ⟨hin, hfit⟩ := hpassed n (Nat.lt_succ_self n)
    obtain ⟨k, v, x, hx⟩ := InBounds.expiryField hc hle (hpos ▸ hin)
    have hexp : expiryAt data (fieldPos data n) = x.toInt64 := by
      rw [(hx.fields hc hle).2.1, hpos]
      rfl
    cases hd : expired x.toInt64 now with
    | true => exact ⟨_, _, hwalk.skip (by omega) hx.readEntry_eq hd⟩
    | false =>
      obtain ⟨hkey, hval⟩ := hfit (hexp ▸ hd)
      obtain ⟨-, hk, -⟩ := hx.toKeyField.fields hc hle
      obtain ⟨-, hv, hvpos, -⟩ := hx.toValField.fields hc hle
      obtain ⟨key, hkeyAt⟩ := sliceAt_ok.mpr
        (show (pos + 8).toNat + k.toNat ≤ data.length by rwa [toNat_keyPos hc hle, hk, hpos])
      obtain ⟨val, hvalAt⟩ := sliceAt_ok.mpr
        (show (pos + 8 + k + 8).toNat + v.toNat ≤ data.length by rwa [hvpos, hv, hpos])
      exact ⟨_, _, hwalk.take (by omega) hx.readEntry_eq hd hkeyAt hvalAt⟩

end RedisServer

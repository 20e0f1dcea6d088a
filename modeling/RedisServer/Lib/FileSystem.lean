import Mathlib.Logic.Function.Basic
import Mathlib.Data.List.Basic

namespace FileSystem

variable {P α : Type}

-- paths name inodes, no two paths the same one, and inodes from next on are unused
structure FS (P α : Type) where
  dir : P → Option Nat
  data : Nat → List α
  next : Nat
  fresh : ∀ {p i}, dir p = some i → i < next
  unshared : ∀ {p q i}, dir p = some i → dir q = some i → p = q

namespace FS

def empty : FS P α := ⟨fun _ => none, fun _ => [], 0, by simp, by simp⟩

variable (fs : FS P α)

def contents (p : P) : Option (List α) := (fs.dir p).map fs.data

def setData (i : Nat) (bs : List α) : FS P α := { fs with data := Function.update fs.data i bs }

def write (i : Nat) (bs : List α) : FS P α := fs.setData i (fs.data i ++ bs)

def alloc : FS P α :=
  { fs with next := fs.next + 1, fresh := fun h => Nat.lt_succ_of_lt (fs.fresh h) }

theorem contents_setData_of_ne {q : P} {i : Nat} (h : fs.dir q ≠ some i) (bs : List α) :
    (fs.setData i bs).contents q = fs.contents q := by
  unfold contents setData
  cases hq : fs.dir q with
  | none => rfl
  | some j =>
    have hj : j ≠ i := fun he => h (he ▸ hq)
    simp [Function.update_of_ne hj]

theorem data_write_self (i : Nat) (bs : List α) : (fs.write i bs).data i = fs.data i ++ bs :=
  Function.update_self _ _ _

theorem contents_write_of_ne {q : P} {i : Nat} (h : fs.dir q ≠ some i) (bs : List α) :
    (fs.write i bs).contents q = fs.contents q := fs.contents_setData_of_ne h _

variable [DecidableEq P]

def unlink (p : P) : FS P α where
  dir := Function.update fs.dir p none
  data := fs.data
  next := fs.next
  fresh {q i} h := by
    by_cases hq : q = p
    · simp [hq] at h
    · exact fs.fresh (by rwa [Function.update_of_ne hq] at h)
  unshared {q r i} hq hr := by
    by_cases h : q = p
    · simp [h] at hq
    · by_cases h' : r = p
      · simp [h'] at hr
      · rw [Function.update_of_ne h] at hq
        rw [Function.update_of_ne h'] at hr
        exact fs.unshared hq hr

def link (p : P) (i : Nat) (hi : i < fs.next) (hfree : ∀ q, fs.dir q ≠ some i) : FS P α where
  dir := Function.update fs.dir p (some i)
  data := fs.data
  next := fs.next
  fresh {q j} h := by
    by_cases hq : q = p
    · simp only [hq, Function.update_self, Option.some.injEq] at h
      omega
    · exact fs.fresh (by rwa [Function.update_of_ne hq] at h)
  unshared {q r j} hq hr := by
    by_cases h : q = p <;> by_cases h' : r = p
    · rw [h, h']
    · simp only [h, Function.update_self, Option.some.injEq] at hq
      rw [Function.update_of_ne h'] at hr
      exact absurd (hq ▸ hr) (hfree r)
    · simp only [h', Function.update_self, Option.some.injEq] at hr
      rw [Function.update_of_ne h] at hq
      exact absurd (hr ▸ hq) (hfree q)
    · rw [Function.update_of_ne h] at hq
      rw [Function.update_of_ne h'] at hr
      exact fs.unshared hq hr

-- fopen with mode "wb"
def openTrunc (p : P) : FS P α × Nat :=
  match fs.dir p with
  | some i => (fs.setData i [], i)
  | none =>
    ((fs.alloc.link p fs.next (Nat.lt_succ_self _)
      (fun _ h => absurd (fs.fresh h) (Nat.lt_irrefl _))).setData fs.next [], fs.next)

def rename (src dst : P) : Option (FS P α) :=
  match h : fs.dir src with
  | none => none
  | some i =>
    some ((fs.unlink src).link dst i (fs.fresh h) (fun q hq => by
      by_cases hs : q = src
      · simp [unlink, hs] at hq
      · simp only [unlink, Function.update_of_ne hs] at hq
        exact hs (fs.unshared hq h)))

def remove (p : P) : FS P α := fs.unlink p

theorem dir_openTrunc_self (p : P) : (fs.openTrunc p).1.dir p = some (fs.openTrunc p).2 := by
  unfold openTrunc
  cases h : fs.dir p with
  | none => exact Function.update_self _ _ _
  | some i => exact h

theorem data_openTrunc_self (p : P) : (fs.openTrunc p).1.data (fs.openTrunc p).2 = [] := by
  unfold openTrunc
  cases h : fs.dir p with
  | none => exact Function.update_self _ _ _
  | some i => exact Function.update_self _ _ _

theorem contents_openTrunc_ne {p q : P} (h : q ≠ p) :
    (fs.openTrunc p).1.contents q = fs.contents q := by
  unfold openTrunc
  cases hp : fs.dir p with
  | none =>
    have hq : (fs.alloc.link p fs.next (Nat.lt_succ_self _)
        (fun _ h => absurd (fs.fresh h) (Nat.lt_irrefl _))).dir q = fs.dir q :=
      Function.update_of_ne h _ _
    have hne : fs.dir q ≠ some fs.next := fun he => absurd (fs.fresh he) (Nat.lt_irrefl _)
    simp only
    rw [contents_setData_of_ne _ (hq ▸ hne), contents, hq]
    rfl
  | some i => exact fs.contents_setData_of_ne (fun hq => h (fs.unshared hq hp)) []

theorem rename_spec {src dst : P} {fs' : FS P α} (h : fs.rename src dst = some fs') :
    ∃ bs, fs.contents src = some bs ∧ fs'.contents dst = some bs := by
  unfold rename at h
  split at h
  · cases h
  · rename_i i hi
    cases h
    exact ⟨fs.data i, by rw [contents, hi]; rfl, by simp [contents, link, unlink]⟩

theorem exists_rename {src : P} {bs : List α} (h : fs.contents src = some bs) (dst : P) :
    ∃ fs', fs.rename src dst = some fs' := by
  obtain ⟨i, hi, -⟩ := Option.map_eq_some_iff.mp h
  unfold rename
  split
  · rename_i hn
    rw [hi] at hn
    cases hn
  · exact ⟨_, rfl⟩

@[simp] theorem dir_remove_self (p : P) : (fs.remove p).dir p = none := Function.update_self _ _ _

theorem dir_remove_ne {p q : P} (h : q ≠ p) : (fs.remove p).dir q = fs.dir q :=
  Function.update_of_ne h _ _

theorem contents_remove_ne {p q : P} (h : q ≠ p) : (fs.remove p).contents q = fs.contents q := by
  rw [contents, dir_remove_ne fs h]
  rfl

end FS
end FileSystem

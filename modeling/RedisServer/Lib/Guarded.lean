import Mathlib.Tactic

namespace Guarded

-- what a program over an array and fixed-width numbers must not do
inductive Fault where
  | outOfBounds
  | wraps
  | overflow
  | stuck
  deriving DecidableEq, Repr

variable {α σ ρ : Type}

def read (buf : List α) (i : Nat) : Except Fault α :=
  match buf[i]? with
  | some x => .ok x
  | none => .error .outOfBounds

-- element by element, as memcpy reads its source
def copy (buf : List α) : Nat → Nat → Except Fault (List α)
  | _, 0 => .ok []
  | pos, n + 1 => do
    let x ← read buf pos
    let l ← copy buf (pos + 1) n
    return x :: l

def sub (a b : Nat) : Except Fault Nat := if b ≤ a then .ok (a - b) else .error .wraps

def within (lo hi z : Int) : Except Fault Int :=
  if lo ≤ z ∧ z ≤ hi then .ok z else .error .overflow

inductive Turn (σ ρ : Type) where
  | leave (r : ρ)
  | again (s : σ)
  deriving DecidableEq, Repr

def loop (body : σ → Except Fault (Turn σ ρ)) : Nat → σ → Except Fault ρ
  | 0, _ => .error .stuck
  | n + 1, s => do
    match ← body s with
    | .leave r => return r
    | .again s => loop body n s

-- while (i < stop && p(buf[i])) i++
def scanTurn (buf : List α) (p : α → Bool) (stop i : Nat) : Except Fault (Turn Nat Nat) :=
  if i < stop then do
    let x ← read buf i
    return if p x then .again (i + 1) else .leave i
  else .ok (.leave i)

def scanWhile (buf : List α) (p : α → Bool) (stop i : Nat) : Except Fault Nat :=
  loop (scanTurn buf p stop) (stop - i + 1) i

@[simp] theorem ok_bind {β γ : Type} (x : β) (f : β → Except Fault γ) : (.ok x >>= f) = f x := rfl

@[simp] theorem pure_eq {β : Type} (x : β) : (pure x : Except Fault β) = .ok x := rfl

theorem read_eq {buf : List α} {i : Nat} {x : α} (h : buf[i]? = some x) :
    read buf i = .ok x := by
  simp [read, h]

theorem sub_eq {a b : Nat} (h : b ≤ a) : sub a b = .ok (a - b) := if_pos h

theorem within_eq {lo hi z : Int} (h : lo ≤ z ∧ z ≤ hi) : within lo hi z = .ok z := if_pos h

theorem copy_eq {buf : List α} {pos n : Nat} (h : pos + n ≤ buf.length) :
    copy buf pos n = .ok ((buf.drop pos).take n) := by
  induction n generalizing pos with
  | zero => rfl
  | succ n ih =>
    have hpos : pos < buf.length := by omega
    have hrest := @ih (pos + 1) (by omega)
    rw [copy, read_eq (List.getElem?_eq_getElem hpos), hrest, List.drop_eq_getElem_cons hpos]
    rfl

section Loop

variable {body : σ → Except Fault (Turn σ ρ)} (Inv : σ → Prop) (μ : σ → Nat)

-- a turn either leaves with the postcondition or goes on with the invariant and a smaller measure
theorem loop_ends (Post : ρ → Prop)
    (hbody : ∀ s, Inv s → (∃ r, body s = .ok (.leave r) ∧ Post r) ∨
      ∃ s', body s = .ok (.again s') ∧ Inv s' ∧ μ s' < μ s)
    {n : Nat} {s : σ} (hs : Inv s) (hn : μ s < n) :
    ∃ r, loop body n s = .ok r ∧ Post r := by
  induction n generalizing s with
  | zero => omega
  | succ n ih =>
    rw [loop]
    rcases hbody s hs with ⟨r, hr, hpost⟩ | ⟨s', hs', hinv, hlt⟩
    · rw [hr]
      exact ⟨r, rfl, hpost⟩
    · rw [hs']
      exact ih hinv (by omega)

theorem loop_eq (F : σ → ρ)
    (hbody : ∀ s, Inv s → body s = .ok (.leave (F s)) ∨
      ∃ s', body s = .ok (.again s') ∧ Inv s' ∧ μ s' < μ s ∧ F s' = F s)
    {n : Nat} {s : σ} (hs : Inv s) (hn : μ s < n) : loop body n s = .ok (F s) := by
  have hstep : ∀ t, Inv t ∧ F t = F s → (∃ r, body t = .ok (.leave r) ∧ r = F s) ∨
      ∃ t', body t = .ok (.again t') ∧ (Inv t' ∧ F t' = F s) ∧ μ t' < μ t := by
    rintro t ⟨ht, hF⟩
    rcases hbody t ht with hl | ⟨t', ha, hinv, hlt, hsame⟩
    · exact .inl ⟨F t, hl, hF⟩
    · exact .inr ⟨t', ha, ⟨hinv, hsame.trans hF⟩, hlt⟩
  obtain ⟨r, hr, rfl⟩ := loop_ends (fun t => Inv t ∧ F t = F s) μ (· = F s) hstep ⟨hs, rfl⟩ hn
  exact hr

end Loop

theorem scanWhile_eq {buf : List α} {stop : Nat} (p : α → Bool) (hstop : stop ≤ buf.length)
    {i : Nat} (hi : i ≤ stop) :
    scanWhile buf p stop i = .ok (i + (((buf.take stop).drop i).takeWhile p).length) := by
  refine loop_eq (· ≤ stop) (stop - ·) (fun i => i + (((buf.take stop).drop i).takeWhile p).length)
    (fun i hi => ?_) hi (by omega)
  rcases Nat.lt_or_eq_of_le hi with hlt | rfl
  · have hget : buf[i]? = some buf[i] := List.getElem?_eq_getElem (by omega)
    have hcut : (buf.take stop).drop i = buf[i] :: (buf.take stop).drop (i + 1) := by
      rw [List.drop_eq_getElem_cons (by rw [List.length_take]; omega), List.getElem_take]
    rw [scanTurn, if_pos hlt, read_eq hget, hcut]
    cases hp : p buf[i] with
    | true =>
      refine .inr ⟨i + 1, by simp [hp], hlt, by omega, ?_⟩
      rw [List.takeWhile_cons_of_pos hp, List.length_cons]
      omega
    | false =>
      left
      rw [List.takeWhile_cons_of_neg (by simp [hp])]
      simp [hp]
  · left
    rw [scanTurn, if_neg (by omega), List.drop_take]
    simp

end Guarded

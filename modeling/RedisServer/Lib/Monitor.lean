import RedisServer.Lib.Machine
import Mathlib

namespace Monitor

inductive Wake (C : Type) where
  | signal (c : C)
  | broadcast (c : C)
  deriving DecidableEq, Repr

-- enter is a critical section behind its wait loop, none while the loop condition holds
structure Spec (S A O C : Type) where
  enter : S → A → Option (S × O)
  waitsOn : A → Option C
  wakes : A → O → List (Wake C)

-- locking is the first lock of a call as well as the one a condition wait ends with
inductive Pc (A O C : Type) where
  | outside
  | locking (a : A)
  | testing (a : A)
  | asleep (a : A)
  | waking (o : O) (left : List (Wake C))
  deriving DecidableEq, Repr

structure State (T S A O C : Type) where
  shared : S
  owner : Option T
  pc : T → Pc A O C
  log : List (A × O)

inductive Event (T A : Type) where
  | call (t : T) (a : A)
  | lock (t : T)
  | test (t : T)
  | wake (t : T) (chosen : Option T)
  | unlock (t : T)
  | spurious (t : T)
  deriving DecidableEq, Repr

variable {T S A O C : Type}

def Pc.inside : Pc A O C → Bool
  | .testing _ => true
  | .waking _ _ => true
  | _ => false

def Pc.awake : Pc A O C → Bool
  | .outside => false
  | .asleep _ => false
  | _ => true

def State.start (s : S) : State T S A O C := ⟨s, none, fun _ => .outside, []⟩

namespace State

def Owned (σ : State T S A O C) : Prop := ∀ t, (σ.pc t).inside = true ↔ σ.owner = some t

theorem Owned.start (s : S) : (State.start s : State T S A O C).Owned := by
  intro t
  simp [State.start, Pc.inside]

variable [DecidableEq T] (σ : State T S A O C) {t u : T} (p : Pc A O C)

def set (t : T) (p : Pc A O C) : State T S A O C := { σ with pc := Function.update σ.pc t p }

@[simp] theorem set_pc_self : (σ.set t p).pc t = p := by simp [set]

theorem set_pc_ne (h : u ≠ t) : (σ.set t p).pc u = σ.pc u := by simp [set, h]

variable {σ p}

theorem Owned.set (h : σ.Owned) (hp : p.inside = (σ.pc t).inside) : (σ.set t p).Owned := by
  intro u
  rcases eq_or_ne u t with rfl | hne
  · rw [set_pc_self, hp]
    exact h u
  · rw [set_pc_ne σ p hne]
    exact h u

theorem Owned.take (h : σ.Owned) (hfree : σ.owner = none) (hp : p.inside = true) :
    Owned { σ.set t p with owner := some t } := by
  intro u
  change ((σ.set t p).pc u).inside = true ↔ some t = some u
  rcases eq_or_ne u t with rfl | hne
  · simp [hp]
  · rw [set_pc_ne σ p hne, h u, hfree]
    simp [hne.symm]

theorem Owned.free (h : σ.Owned) (ht : (σ.pc t).inside = true) (hp : p.inside = false) :
    Owned { σ.set t p with owner := none } := by
  intro u
  have howner := (h t).mp ht
  change ((σ.set t p).pc u).inside = true ↔ none = some u
  rcases eq_or_ne u t with rfl | hne
  · simp [hp]
  · rw [set_pc_ne σ p hne, h u, howner]
    simp [hne.symm]

end State

section Step

variable [DecidableEq C] (m : Spec S A O C)

def Spec.sleepsOn (c : C) : Pc A O C → Bool
  | .asleep a => m.waitsOn a = some c
  | _ => false

def Spec.rouse (c : C) : Pc A O C → Pc A O C
  | .asleep a => if m.waitsOn a = some c then .locking a else .asleep a
  | p => p

variable [DecidableEq T]

def wakeOne [Fintype T] (σ : State T S A O C) (t : T) (o : O) (c : C) (left : List (Wake C)) :
    Option T → Option (State T S A O C)
  | none =>
    if ∀ u, m.sleepsOn c (σ.pc u) = false then some (σ.set t (.waking o left)) else none
  | some u =>
    match σ.pc u with
    | .asleep a =>
      if m.waitsOn a = some c then some ((σ.set u (.locking a)).set t (.waking o left)) else none
    | _ => none

def wakeAll (σ : State T S A O C) (t : T) (o : O) (c : C) (left : List (Wake C)) :
    State T S A O C :=
  { σ with pc := Function.update (fun u => m.rouse c (σ.pc u)) t (.waking o left) }

def step [Fintype T] (σ : State T S A O C) : Event T A → Option (State T S A O C)
  | .call t a =>
    match σ.pc t with
    | .outside => some (σ.set t (.locking a))
    | _ => none
  | .lock t =>
    match σ.owner, σ.pc t with
    | none, .locking a => some { σ.set t (.testing a) with owner := some t }
    | _, _ => none
  | .test t =>
    match σ.pc t with
    | .testing a =>
      match m.enter σ.shared a with
      | none => some { σ.set t (.asleep a) with owner := none }
      | some (s, o) =>
        some { σ.set t (.waking o (m.wakes a o)) with shared := s, log := σ.log ++ [(a, o)] }
    | _ => none
  | .wake t chosen =>
    match σ.pc t with
    | .waking o (.signal c :: left) => wakeOne m σ t o c left chosen
    | .waking o (.broadcast c :: left) => some (wakeAll m σ t o c left)
    | _ => none
  | .unlock t =>
    match σ.pc t with
    | .waking _ [] => some { σ.set t .outside with owner := none }
    | _ => none
  | .spurious t =>
    match σ.pc t with
    | .asleep a => some (σ.set t (.locking a))
    | _ => none

inductive Case (σ : State T S A O C) : Event T A → State T S A O C → Prop
  | call {t : T} {a : A} (h : σ.pc t = .outside) : Case σ (.call t a) (σ.set t (.locking a))
  | lock {t : T} {a : A} (hfree : σ.owner = none) (h : σ.pc t = .locking a) :
    Case σ (.lock t) { σ.set t (.testing a) with owner := some t }
  | sleep {t : T} {a : A} (h : σ.pc t = .testing a) (hwait : m.enter σ.shared a = none) :
    Case σ (.test t) { σ.set t (.asleep a) with owner := none }
  | enter {t : T} {a : A} {s : S} {o : O} (h : σ.pc t = .testing a)
    (hgo : m.enter σ.shared a = some (s, o)) :
    Case σ (.test t)
      { σ.set t (.waking o (m.wakes a o)) with shared := s, log := σ.log ++ [(a, o)] }
  | idleSignal {t : T} {o : O} {c : C} {left : List (Wake C)}
    (h : σ.pc t = .waking o (.signal c :: left)) (hnone : ∀ u, m.sleepsOn c (σ.pc u) = false) :
    Case σ (.wake t none) (σ.set t (.waking o left))
  | signal {t u : T} {o : O} {c : C} {left : List (Wake C)} {a : A}
    (h : σ.pc t = .waking o (.signal c :: left)) (hu : σ.pc u = .asleep a)
    (hc : m.waitsOn a = some c) :
    Case σ (.wake t (some u)) ((σ.set u (.locking a)).set t (.waking o left))
  | broadcast {t : T} {chosen : Option T} {o : O} {c : C} {left : List (Wake C)}
    (h : σ.pc t = .waking o (.broadcast c :: left)) :
    Case σ (.wake t chosen) (wakeAll m σ t o c left)
  | unlock {t : T} {o : O} (h : σ.pc t = .waking o []) :
    Case σ (.unlock t) { σ.set t .outside with owner := none }
  | spurious {t : T} {a : A} (h : σ.pc t = .asleep a) :
    Case σ (.spurious t) (σ.set t (.locking a))

variable {m}

theorem inside_rouse (c : C) (p : Pc A O C) : (m.rouse c p).inside = p.inside := by
  cases p with
  | asleep a =>
    rw [Spec.rouse]
    split <;> rfl
  | _ => rfl

theorem Case.owned {σ σ' : State T S A O C} {e : Event T A} (hc : Case m σ e σ') (h : σ.Owned) :
    σ'.Owned := by
  cases hc with
  | call ht => exact h.set (by rw [ht]; rfl)
  | lock hfree ht => exact h.take hfree rfl
  | sleep ht => exact h.free (by rw [ht]; rfl) rfl
  | enter ht => exact h.set (by rw [ht]; rfl)
  | idleSignal ht => exact h.set (by rw [ht]; rfl)
  | @signal t u o c left a ht hu =>
    have hne : t ≠ u := by
      rintro rfl
      rw [ht] at hu
      cases hu
    refine (h.set (by rw [hu]; rfl)).set ?_
    rw [State.set_pc_ne σ _ hne, ht]
    rfl
  | @broadcast t chosen o c left ht =>
    have hroused : State.Owned { σ with pc := fun u => m.rouse c (σ.pc u) } := by
      intro u
      rw [inside_rouse]
      exact h u
    refine hroused.set ?_
    rw [inside_rouse, ht]
    rfl
  | unlock ht => exact h.free (by rw [ht]; rfl) rfl
  | spurious ht => exact h.set (by rw [ht]; rfl)

variable (m) in
-- a move that touches neither the shared state nor what the thread has asked or been answered
inductive Quiet (s : S) : Pc A O C → Pc A O C → Prop
  | same {p : Pc A O C} : Quiet s p p
  | lock {a : A} : Quiet s (.locking a) (.testing a)
  | sleep {a : A} (h : m.enter s a = none) : Quiet s (.testing a) (.asleep a)
  | wake {o : O} {w : Wake C} {left : List (Wake C)} :
    Quiet s (.waking o (w :: left)) (.waking o left)
  | rouse {a : A} : Quiet s (.asleep a) (.locking a)

variable (m) in
inductive Kind (σ : State T S A O C) : Event T A → State T S A O C → Prop
  | call {t : T} {a : A} (h : σ.pc t = .outside) : Kind σ (.call t a) (σ.set t (.locking a))
  | quiet {e : Event T A} {σ' : State T S A O C} (hshared : σ'.shared = σ.shared)
    (h : ∀ u, Quiet m σ.shared (σ.pc u) (σ'.pc u)) : Kind σ e σ'
  | enter {t : T} {a : A} {s : S} {o : O} (h : σ.pc t = .testing a)
    (hgo : m.enter σ.shared a = some (s, o)) :
    Kind σ (.test t)
      { σ.set t (.waking o (m.wakes a o)) with shared := s, log := σ.log ++ [(a, o)] }
  | unlock {t : T} {o : O} (h : σ.pc t = .waking o []) :
    Kind σ (.unlock t) { σ.set t .outside with owner := none }

omit [DecidableEq C] in
theorem State.set_quiet {σ : State T S A O C} {s : S} {t : T} {p : Pc A O C}
    (h : Quiet m s (σ.pc t) p) (u : T) : Quiet m s (σ.pc u) ((σ.set t p).pc u) := by
  rcases eq_or_ne u t with rfl | hne
  · rwa [set_pc_self]
  · rw [set_pc_ne σ p hne]
    exact .same

theorem rouse_quiet (s : S) (c : C) (p : Pc A O C) : Quiet m s p (m.rouse c p) := by
  cases p with
  | asleep a =>
    rw [Spec.rouse]
    split
    case isTrue => exact .rouse
    case isFalse => exact .same
  | _ => exact .same

theorem Case.kind {σ σ' : State T S A O C} {e : Event T A} (hc : Case m σ e σ') :
    Kind m σ e σ' := by
  cases hc with
  | call ht => exact .call ht
  | lock _ ht => exact .quiet rfl (State.set_quiet (ht ▸ .lock))
  | sleep ht hwait => exact .quiet rfl (State.set_quiet (ht ▸ .sleep hwait))
  | enter ht hgo => exact .enter ht hgo
  | idleSignal ht => exact .quiet rfl (State.set_quiet (ht ▸ .wake))
  | @signal t v o c left a ht hv =>
    refine .quiet rfl (fun u => ?_)
    have htv : t ≠ v := by
      rintro rfl
      rw [ht] at hv
      cases hv
    rcases eq_or_ne u t with rfl | hne
    · rw [State.set_pc_self, ht]
      exact .wake
    · rw [State.set_pc_ne _ _ hne]
      exact State.set_quiet (hv ▸ .rouse) u
  | @broadcast t chosen o c left ht =>
    refine .quiet rfl (fun u => ?_)
    rcases eq_or_ne u t with rfl | hne
    · have hself : (wakeAll m σ u o c left).pc u = .waking o left := by simp [wakeAll]
      rw [hself, ht]
      exact .wake
    · have hother : (wakeAll m σ t o c left).pc u = m.rouse c (σ.pc u) := by simp [wakeAll, hne]
      rw [hother]
      exact rouse_quiet σ.shared c (σ.pc u)
  | unlock ht => exact .unlock ht
  | spurious ht => exact .quiet rfl (State.set_quiet (ht ▸ .rouse))

-- nobody falls asleep but by finding its own condition not met
theorem Case.asleep {σ σ' : State T S A O C} {e : Event T A} (hc : Case m σ e σ') {u : T} {b : A}
    (hu : σ'.pc u = .asleep b) : σ.pc u = .asleep b ∨ m.enter σ.shared b = none := by
  have hset : ∀ {t : T} {p : Pc A O C}, (∀ a, p ≠ .asleep a) →
      (σ.set t p).pc u = .asleep b → σ.pc u = .asleep b := by
    intro t p hp hτ
    rcases eq_or_ne u t with rfl | hne
    · rw [State.set_pc_self] at hτ
      exact absurd hτ (hp b)
    · rwa [State.set_pc_ne σ p hne] at hτ
  cases hc.kind with
  | call => exact .inl (hset (by simp) hu)
  | quiet _ hq =>
    have hmove := hq u
    rw [hu] at hmove
    generalize hp : σ.pc u = p at hmove
    cases hmove with
    | same => exact .inl rfl
    | sleep hwait => exact .inr hwait
  | enter => exact .inl (hset (by simp) hu)
  | unlock => exact .inl (hset (by simp) hu)

variable [Fintype T]

theorem step_cases {σ σ' : State T S A O C} {e : Event T A} (h : step m σ e = some σ') :
    Case m σ e σ' := by
  cases e with
  | call t a =>
    rw [step] at h
    split at h
    case h_1 hp =>
      cases h
      exact .call hp
    case h_2 => cases h
  | lock t =>
    rw [step] at h
    split at h
    case h_1 hfree hp =>
      cases h
      exact .lock hfree hp
    case h_2 => cases h
  | test t =>
    rw [step] at h
    split at h
    case h_1 a hp =>
      split at h
      case h_1 hwait =>
        cases h
        exact .sleep hp hwait
      case h_2 hgo =>
        cases h
        exact .enter hp hgo
    case h_2 => cases h
  | wake t chosen =>
    rw [step] at h
    split at h
    case h_1 o c left hp =>
      cases chosen with
      | none =>
        rw [wakeOne, Option.ite_none_right_eq_some] at h
        obtain ⟨hnone, h⟩ := h
        cases h
        exact .idleSignal hp hnone
      | some u =>
        rw [wakeOne] at h
        split at h
        case h_1 a hu =>
          rw [Option.ite_none_right_eq_some] at h
          obtain ⟨hc, h⟩ := h
          cases h
          exact .signal hp hu hc
        case h_2 => cases h
    case h_2 hp =>
      cases h
      exact .broadcast hp
    case h_3 => cases h
  | unlock t =>
    rw [step] at h
    split at h
    case h_1 hp =>
      cases h
      exact .unlock hp
    case h_2 => cases h
  | spurious t =>
    rw [step] at h
    split at h
    case h_1 hp =>
      cases h
      exact .spurious hp
    case h_2 => cases h

theorem Case.step {σ σ' : State T S A O C} {e : Event T A} (h : Case m σ e σ') :
    Monitor.step m σ e = some σ' := by
  cases h with
  | call ht => simp [Monitor.step, ht]
  | lock hfree ht => simp [Monitor.step, hfree, ht]
  | sleep ht hwait => simp [Monitor.step, ht, hwait]
  | enter ht hgo => simp [Monitor.step, ht, hgo]
  | idleSignal ht hnone => simp [Monitor.step, ht, wakeOne, hnone]
  | signal ht hu hc => simp [Monitor.step, ht, wakeOne, hu, hc]
  | broadcast ht => simp [Monitor.step, ht]
  | unlock ht => simp [Monitor.step, ht]
  | spurious ht => simp [Monitor.step, ht]

variable (m) in
def Reached (s : S) (σ : State T S A O C) : Prop :=
  Machine.ReachableVia (step m) (fun _ _ => True) (State.start s) σ

theorem Reached.next {s : S} {σ σ' : State T S A O C} (h : Reached m s σ) {e : Event T A}
    (hc : Case m σ e σ') : Reached m s σ' := Machine.ReachableVia.next h trivial hc.step

theorem reached_invariant {P : State T S A O C → Prop} {s : S} {σ : State T S A O C}
    (h : Reached m s σ) (h₀ : P (State.start s))
    (hstep : ∀ σ e σ', P σ → Case m σ e σ' → P σ') : P σ :=
  h.invariant h₀ (fun _ _ _ hp _ hs => hstep _ _ _ hp (step_cases hs))

-- the completed sections, in the order of the log, are a run of the atomic operations
theorem Reached.trace {s : S} {σ : State T S A O C} (h : Reached m s σ) :
    Machine.Trace m.enter s σ.log σ.shared := by
  refine reached_invariant (P := fun σ => Machine.Trace m.enter s σ.log σ.shared) h .start ?_
  intro σ e σ' hp hc
  cases hc with
  | enter _ hgo => exact hp.next hgo
  | _ => exact hp

theorem Reached.owned {s : S} {σ : State T S A O C} (h : Reached m s σ) : σ.Owned :=
  reached_invariant h (.start s) (fun _ _ _ hp hc => hc.owned hp)

theorem mutual_exclusion {s : S} {σ : State T S A O C} (h : Reached m s σ) {t u : T}
    (ht : (σ.pc t).inside = true) (hu : (σ.pc u).inside = true) : t = u :=
  Option.some_injective T (((h.owned t).mp ht).symm.trans ((h.owned u).mp hu))

theorem Reached.waking_suffix {s : S} {σ : State T S A O C} (h : Reached m s σ) {t : T} {o : O}
    {left : List (Wake C)} (ht : σ.pc t = .waking o left) : ∃ a, left <:+ m.wakes a o := by
  have hall : ∀ t o left, σ.pc t = .waking o left → ∃ a, left <:+ m.wakes a o := by
    refine reached_invariant (P := fun σ => ∀ t o left, σ.pc t = .waking o left →
      ∃ a, left <:+ m.wakes a o) h nofun ?_
    intro σ e σ' hp hc u o left hu
    have hset : ∀ {t : T} {p : Pc A O C}, (∀ left, p = .waking o left → ∃ a, left <:+ m.wakes a o) →
        (σ.set t p).pc u = .waking o left → ∃ a, left <:+ m.wakes a o := by
      intro t p hq hτ
      rcases eq_or_ne u t with rfl | hne
      · rw [State.set_pc_self] at hτ
        exact hq left hτ
      · rw [State.set_pc_ne σ p hne] at hτ
        exact hp u o left hτ
    cases hc.kind with
    | call => exact hset (by simp) hu
    | quiet _ hq =>
      have hmove := hq u
      rw [hu] at hmove
      generalize hpc : σ.pc u = p at hmove
      cases hmove with
      | same => exact hp u o left hpc
      | @wake _ w _ =>
        obtain ⟨a, ha⟩ := hp u o (w :: left) hpc
        exact ⟨a, (List.suffix_cons w left).trans ha⟩
    | @enter t a s o' =>
      refine hset ?_ hu
      intro left' hl
      cases hl
      exact ⟨a, List.suffix_refl _⟩
    | unlock => exact hset (by simp) hu
  exact hall t o left ht

end Step

section Credit

variable [DecidableEq C] (m : Spec S A O C)

def Wake.supply (c : C) : Wake C → ℕ∞
  | .signal d => if d = c then 1 else 0
  | .broadcast d => if d = c then ⊤ else 0

def supply (c : C) (left : List (Wake C)) : ℕ∞ := (left.map (Wake.supply c)).sum

def Spec.demand (c : C) (a : A) : ℕ∞ := if m.waitsOn a = some c then 1 else 0

-- what a thread will still do for those asleep on c: claim one unit of the credit itself, or
-- wake somebody
def Spec.weight (c : C) : Pc A O C → ℕ∞
  | .locking a => m.demand c a
  | .testing a => m.demand c a
  | .waking _ left => supply c left
  | _ => 0

-- credit c s is how many of the operations that wait on c the state s lets through
structure Credit where
  good : S → Prop
  credit : C → S → ℕ∞
  keeps {s s' : S} {a : A} {o : O} (hs : good s) (h : m.enter s a = some (s', o)) : good s'
  blocked {s : S} {a : A} (hs : good s) (h : m.enter s a = none) :
    ∃ c, m.waitsOn a = some c ∧ credit c s = 0
  starved {s : S} {a : A} {c : C} (hs : good s) (hc : m.waitsOn a = some c)
    (h : credit c s = 0) : m.enter s a = none
  paid {s s' : S} {a : A} {o : O} (hs : good s) (h : m.enter s a = some (s', o)) (c : C) :
    credit c s' + m.demand c a ≤ credit c s + supply c (m.wakes a o)

variable {m}

theorem weight_asleep (c : C) (a : A) : m.weight c (.asleep a : Pc A O C) = 0 := rfl

variable (m) in
theorem demand_ne_top (c : C) (a : A) : m.demand c a ≠ ⊤ := by
  rw [Spec.demand]
  split <;> simp

theorem demand_of_ne {c d : C} {a : A} (h : m.waitsOn a = some d) (hne : d ≠ c) :
    m.demand c a = 0 := by
  simp [Spec.demand, h, hne]

theorem supply_cons (c : C) (w : Wake C) (left : List (Wake C)) :
    supply c (w :: left) = w.supply c + supply c left := by
  simp [supply]

theorem weight_rouse {c d : C} (hne : d ≠ c) (p : Pc A O C) :
    m.weight c (m.rouse d p) = m.weight c p := by
  cases p with
  | asleep a =>
    rw [Spec.rouse]
    split
    case isTrue hd => exact demand_of_ne hd hne
    case isFalse => rfl
  | _ => rfl

theorem sleepsOn_rouse_self (c : C) (p : Pc A O C) : m.sleepsOn c (m.rouse c p) = false := by
  cases p with
  | asleep a =>
    rw [Spec.rouse]
    split
    case isTrue => rfl
    case isFalse hc => simpa [Spec.sleepsOn] using hc
  | _ => rfl

theorem sleepsOn_of_rouse {c d : C} {p : Pc A O C} (h : m.sleepsOn c (m.rouse d p) = true) :
    m.sleepsOn c p = true := by
  cases p with
  | asleep a =>
    rw [Spec.rouse] at h
    split at h
    case isTrue => cases h
    case isFalse => exact h
  | _ => cases h

variable [Fintype T] [DecidableEq T]

variable (m) in
def total (c : C) (σ : State T S A O C) : ℕ∞ := ∑ t, m.weight c (σ.pc t)

variable (m) in
def others (c : C) (t : T) (σ : State T S A O C) : ℕ∞ :=
  ∑ u ∈ Finset.univ.erase t, m.weight c (σ.pc u)

theorem total_eq (c : C) (t : T) (σ : State T S A O C) :
    total m c σ = m.weight c (σ.pc t) + others m c t σ :=
  (Finset.add_sum_erase _ (fun u => m.weight c (σ.pc u)) (Finset.mem_univ t)).symm

theorem others_set (c : C) (t : T) (σ : State T S A O C) (p : Pc A O C) :
    others m c t (σ.set t p) = others m c t σ := by
  refine Finset.sum_congr rfl ?_
  intro u hu
  rw [State.set_pc_ne σ p (Finset.ne_of_mem_erase hu)]

theorem total_set (c : C) (t : T) (σ : State T S A O C) (p : Pc A O C) :
    total m c (σ.set t p) = m.weight c p + others m c t σ := by
  rw [total_eq c t, State.set_pc_self, others_set]

namespace Credit

variable (k : Credit m)

def Covered (σ : State T S A O C) : Prop :=
  ∀ c t, m.sleepsOn c (σ.pc t) = true → k.credit c σ.shared ≤ total m c σ

variable {k} {σ σ' : State T S A O C}

theorem Covered.set (h : k.Covered σ) {t : T} {p : Pc A O C}
    (hw : ∀ c, m.weight c (σ.pc t) ≤ m.weight c p) (hp : ∀ c, m.sleepsOn c p = false) :
    k.Covered (σ.set t p) := by
  intro c u hu
  have hne : u ≠ t := by
    rintro rfl
    rw [State.set_pc_self, hp c] at hu
    cases hu
  rw [State.set_pc_ne σ p hne] at hu
  calc k.credit c σ.shared ≤ total m c σ := h c u hu
    _ = m.weight c (σ.pc t) + others m c t σ := total_eq c t σ
    _ ≤ m.weight c p + others m c t σ := by gcongr; exact hw c
    _ = total m c (σ.set t p) := (total_set c t σ p).symm

theorem Covered.sleep (h : k.Covered σ) (hgood : k.good σ.shared) {t : T} {a : A}
    (ht : σ.pc t = .testing a) (hwait : m.enter σ.shared a = none) :
    k.Covered { σ.set t (.asleep a) with owner := none } := by
  intro c u hu
  obtain ⟨d, hd, hzero⟩ := k.blocked hgood hwait
  rcases eq_or_ne d c with rfl | hdc
  · exact hzero.le.trans zero_le
  · have hne : u ≠ t := by
      rintro rfl
      change m.sleepsOn c ((σ.set u (.asleep a)).pc u) = true at hu
      simp [Spec.sleepsOn, hd, hdc] at hu
    change m.sleepsOn c ((σ.set t (.asleep a)).pc u) = true at hu
    rw [State.set_pc_ne σ _ hne] at hu
    change k.credit c σ.shared ≤ total m c (σ.set t (.asleep a))
    have hweight : m.weight c (σ.pc t) = 0 := by
      rw [ht]
      exact demand_of_ne hd hdc
    rw [total_set, weight_asleep, ← hweight, ← total_eq]
    exact h c u hu

theorem Covered.enter (h : k.Covered σ) (hgood : k.good σ.shared) {t : T} {a : A} {s : S} {o : O}
    (ht : σ.pc t = .testing a) (hgo : m.enter σ.shared a = some (s, o)) {log : List (A × O)} :
    k.Covered { σ.set t (.waking o (m.wakes a o)) with shared := s, log := log } := by
  intro c u hu
  have hne : u ≠ t := by
    rintro rfl
    change m.sleepsOn c ((σ.set u (.waking o (m.wakes a o))).pc u) = true at hu
    simp [Spec.sleepsOn] at hu
  change m.sleepsOn c ((σ.set t (.waking o (m.wakes a o))).pc u) = true at hu
  rw [State.set_pc_ne σ _ hne] at hu
  change k.credit c s ≤ total m c (σ.set t (.waking o (m.wakes a o)))
  have hold := h c u hu
  rw [total_eq c t, ht] at hold
  rw [total_set]
  refine (ENat.add_le_add_iff_right (demand_ne_top m c a)).mp ?_
  calc k.credit c s + m.demand c a
      ≤ k.credit c σ.shared + supply c (m.wakes a o) := k.paid hgood hgo c
    _ ≤ m.demand c a + others m c t σ + supply c (m.wakes a o) := by gcongr; exact hold
    _ = supply c (m.wakes a o) + others m c t σ + m.demand c a := by
      rw [add_comm, ← add_assoc, add_right_comm]

theorem Covered.idleSignal (h : k.Covered σ) {t : T} {o : O} {d : C} {left : List (Wake C)}
    (ht : σ.pc t = .waking o (.signal d :: left))
    (hnone : ∀ u, m.sleepsOn d (σ.pc u) = false) : k.Covered (σ.set t (.waking o left)) := by
  intro c u hu
  have hne : u ≠ t := by
    rintro rfl
    simp [Spec.sleepsOn] at hu
  rw [State.set_pc_ne σ _ hne] at hu
  have hdc : d ≠ c := by
    rintro rfl
    rw [hnone u] at hu
    cases hu
  have hold := h c u hu
  rw [total_eq c t, ht, Spec.weight, supply_cons, Wake.supply, if_neg hdc, zero_add] at hold
  rwa [total_set]

theorem Covered.signal (h : k.Covered σ) {t u : T} {o : O} {d : C} {left : List (Wake C)} {a : A}
    (ht : σ.pc t = .waking o (.signal d :: left)) (hu : σ.pc u = .asleep a)
    (hd : m.waitsOn a = some d) :
    k.Covered ((σ.set u (.locking a)).set t (.waking o left)) := by
  have htu : t ≠ u := by
    rintro rfl
    rw [ht] at hu
    cases hu
  intro c v hv
  have hvt : v ≠ t := by
    rintro rfl
    simp [Spec.sleepsOn] at hv
  rw [State.set_pc_ne _ _ hvt] at hv
  have hvu : v ≠ u := by
    rintro rfl
    simp [Spec.sleepsOn] at hv
  rw [State.set_pc_ne _ _ hvu] at hv
  -- the woken thread takes over the unit the signal stood for
  have hsum : total m c (σ.set u (.locking a)) = m.demand c a + total m c σ := by
    rw [total_set, total_eq c u σ, hu]
    simp [Spec.weight]
  have hfirst : (Wake.signal d).supply c = m.demand c a := by
    simp [Wake.supply, Spec.demand, hd]
  have hmove : m.demand c a + total m c σ =
      m.demand c a + (supply c left + others m c t (σ.set u (.locking a))) := by
    rw [← hsum, total_eq c t, State.set_pc_ne σ _ htu, ht, Spec.weight, supply_cons, hfirst,
      add_assoc]
  rw [total_set]
  exact (h c v hv).trans ((ENat.add_le_add_iff_left (demand_ne_top m c a)).mp hmove.le)

theorem Covered.broadcast (h : k.Covered σ) {t : T} {o : O} {d : C} {left : List (Wake C)}
    (ht : σ.pc t = .waking o (.broadcast d :: left)) : k.Covered (wakeAll m σ t o d left) := by
  intro c u hu
  have hne : u ≠ t := by
    rintro rfl
    simp [wakeAll, Spec.sleepsOn] at hu
  have hroused : m.sleepsOn c (m.rouse d (σ.pc u)) = true := by
    simpa [wakeAll, hne] using hu
  have hdc : d ≠ c := by
    rintro rfl
    rw [sleepsOn_rouse_self] at hroused
    cases hroused
  have hold := h c u (sleepsOn_of_rouse hroused)
  have hothers : others m c t { σ with pc := fun v => m.rouse d (σ.pc v) } = others m c t σ :=
    Finset.sum_congr rfl (fun v _ => weight_rouse hdc (σ.pc v))
  rw [total_eq c t, ht, Spec.weight, supply_cons, Wake.supply, if_neg hdc, zero_add] at hold
  refine hold.trans (le_of_eq ?_)
  rw [← hothers]
  exact (total_set c t { σ with pc := fun v => m.rouse d (σ.pc v) } (.waking o left)).symm

theorem Covered.step {e : Event T A} (h : k.Covered σ) (hgood : k.good σ.shared)
    (hc : Case m σ e σ') : k.Covered σ' := by
  cases hc with
  | call ht => exact h.set (fun c => by rw [ht]; exact zero_le) (fun _ => rfl)
  | lock _ ht => exact h.set (fun c => by rw [ht]; rfl) (fun _ => rfl)
  | sleep ht hwait => exact h.sleep hgood ht hwait
  | enter ht hgo => exact h.enter hgood ht hgo
  | idleSignal ht hnone => exact h.idleSignal ht hnone
  | signal ht hu hd => exact h.signal ht hu hd
  | broadcast ht => exact h.broadcast ht
  | unlock ht => exact h.set (fun c => by rw [ht]; rfl) (fun _ => rfl)
  | spurious ht => exact h.set (fun c => by rw [ht]; exact zero_le) (fun _ => rfl)

omit [Fintype T] in
theorem good_step {e : Event T A} (hgood : k.good σ.shared) (hc : Case m σ e σ') :
    k.good σ'.shared := by
  cases hc with
  | enter _ hgo => exact k.keeps hgood hgo
  | _ => exact hgood

variable (k) in
theorem covered {s : S} (hs : k.good s) (h : Reached m s σ) : k.good σ.shared ∧ k.Covered σ := by
  refine reached_invariant (P := fun σ => k.good σ.shared ∧ k.Covered σ) h ⟨hs, nofun⟩ ?_
  rintro σ e σ' ⟨hgood, hcov⟩ hc
  exact ⟨good_step hgood hc, hcov.step hgood hc⟩

omit [DecidableEq T] in
theorem total_of_quiet (c : C) (hquiet : ∀ t, (σ.pc t).awake = false) : total m c σ = 0 := by
  refine Finset.sum_eq_zero ?_
  intro t _
  have ht := hquiet t
  cases hp : σ.pc t with
  | outside => rfl
  | asleep a => rfl
  | locking a => simp [hp, Pc.awake] at ht
  | testing a => simp [hp, Pc.awake] at ht
  | waking o left => simp [hp, Pc.awake] at ht

variable (k) in
theorem asleep_waits {s : S} (hs : k.good s) (h : Reached m s σ) {t : T} {a : A}
    (ht : σ.pc t = .asleep a) : ∃ c, m.waitsOn a = some c := by
  have hall : k.good σ.shared ∧ ∀ t a, σ.pc t = .asleep a → ∃ c, m.waitsOn a = some c := by
    refine reached_invariant (P := fun σ => k.good σ.shared ∧
      ∀ t a, σ.pc t = .asleep a → ∃ c, m.waitsOn a = some c) h ⟨hs, nofun⟩ ?_
    rintro σ e σ' ⟨hgood, hold⟩ hc
    refine ⟨good_step hgood hc, ?_⟩
    intro u b hu
    rcases hc.asleep hu with hu | hwait
    · exact hold u b hu
    · obtain ⟨c, hc, -⟩ := k.blocked hgood hwait
      exact ⟨c, hc⟩
  exact hall.2 t a ht

variable (k) in
theorem no_lost_wakeup {s : S} (hs : k.good s) (h : Reached m s σ)
    (hquiet : ∀ t, (σ.pc t).awake = false) {t : T} {a : A} (ht : σ.pc t = .asleep a) :
    m.enter σ.shared a = none := by
  obtain ⟨c, hc⟩ := k.asleep_waits hs h ht
  obtain ⟨hgood, hcov⟩ := k.covered hs h
  have hle := hcov c t (by simp [ht, Spec.sleepsOn, hc])
  rw [total_of_quiet c hquiet] at hle
  exact k.starved hgood hc (nonpos_iff_eq_zero.mp hle)

end Credit

end Credit

section Progress

variable [DecidableEq C] {m : Spec S A O C} [DecidableEq T] [Fintype T] {σ : State T S A O C}

def Event.actor : Event T A → T
  | .call t _ => t
  | .lock t => t
  | .test t => t
  | .wake t _ => t
  | .unlock t => t
  | .spurious t => t

theorem wakeOne_moves (σ : State T S A O C) (t : T) (o : O) (c : C) (left : List (Wake C)) :
    ∃ chosen σ', wakeOne m σ t o c left chosen = some σ' := by
  by_cases hnone : ∀ u, m.sleepsOn c (σ.pc u) = false
  · exact ⟨none, _, if_pos hnone⟩
  · obtain ⟨u, hu⟩ := not_forall.mp hnone
    cases hp : σ.pc u with
    | asleep a =>
      have hc : m.waitsOn a = some c := by simpa [hp, Spec.sleepsOn] using hu
      exact ⟨some u, (σ.set u (.locking a)).set t (.waking o left), by simp [wakeOne, hp, hc]⟩
    | _ => simp [hp, Spec.sleepsOn] at hu

theorem inside_moves {t : T} (ht : (σ.pc t).inside = true) :
    ∃ e σ', e.actor = t ∧ step m σ e = some σ' := by
  cases hp : σ.pc t with
  | testing a =>
    cases hgo : m.enter σ.shared a with
    | none => exact ⟨.test t, _, rfl, by simp only [step, hp, hgo]; rfl⟩
    | some r => exact ⟨.test t, _, rfl, by simp only [step, hp, hgo]; rfl⟩
  | waking o left =>
    cases left with
    | nil => exact ⟨.unlock t, _, rfl, by simp only [step, hp]; rfl⟩
    | cons w left =>
      cases w with
      | signal c =>
        obtain ⟨chosen, σ', hw⟩ := wakeOne_moves (m := m) σ t o c left
        exact ⟨.wake t chosen, σ', rfl, by simpa only [step, hp] using hw⟩
      | broadcast c => exact ⟨.wake t none, _, rfl, by simp only [step, hp]; rfl⟩
  | _ => simp [hp, Pc.inside] at ht

-- the thread that moves holds the mutex, or takes it because nobody does
theorem awake_moves (howned : σ.Owned) {t : T} (ht : (σ.pc t).awake = true) :
    ∃ e σ', (σ.pc (e.actor)).awake = true ∧ step m σ e = some σ' := by
  cases hown : σ.owner with
  | some u =>
    have hin := (howned u).mpr hown
    obtain ⟨e, σ', rfl, hs⟩ := inside_moves (m := m) hin
    refine ⟨e, σ', ?_, hs⟩
    cases hp : σ.pc e.actor with
    | testing => rfl
    | waking => rfl
    | _ => simp [hp, Pc.inside] at hin
  | none =>
    cases hp : σ.pc t with
    | locking a => exact ⟨.lock t, _, ht, by simp only [step, hown, hp]; rfl⟩
    | testing a =>
      have hin := (howned t).mp (by rw [hp]; rfl)
      rw [hown] at hin
      cases hin
    | waking o left =>
      have hin := (howned t).mp (by rw [hp]; rfl)
      rw [hown] at hin
      cases hin
    | _ => simp [hp, Pc.awake] at ht

end Progress

end Monitor

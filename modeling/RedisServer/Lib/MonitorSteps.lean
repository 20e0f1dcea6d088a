import RedisServer.Lib.Monitor
import RedisServer.Lib.Sections

namespace Monitor

open Sections

variable {T S A O C : Type}

-- the loop condition of each section and the accesses behind it, which amount to enter
structure Body (m : Spec S A O C) where
  waits : S → A → Bool
  code : A → Code S O
  enter_eq : ∀ s a, m.enter s a = if waits s a then none else some ((code a).run s)

-- a thread with a body is through its loop and has still that to do before its wakeups
structure Threads (T S A O C : Type) where
  base : State T S A O C
  body : T → Option (Code S O)

inductive Move (T A : Type) where
  | thread (e : Event T A)
  | access (t : T)
  deriving DecidableEq, Repr

namespace Threads

def start (s : S) : Threads T S A O C := ⟨State.start s, fun _ => none⟩

variable [DecidableEq C] [DecidableEq T] {m : Spec S A O C} (b : Body m)

def test (σ : Threads T S A O C) (t : T) : Option (Threads T S A O C) :=
  match σ.body t, σ.base.pc t with
  | none, .testing a =>
    if b.waits σ.base.shared a then
      some { σ with base := { σ.base.set t (.asleep a) with owner := none } }
    else some { σ with body := Function.update σ.body t (some (b.code a)) }
  | _, _ => none

def access (m : Spec S A O C) (σ : Threads T S A O C) (t : T) : Option (Threads T S A O C) :=
  match σ.body t, σ.base.pc t with
  | some (.step f next), _ =>
    some
      { base := { σ.base with shared := f σ.base.shared }
        body := Function.update σ.body t (some (next σ.base.shared)) }
  | some (.ret o), .testing a =>
    some
      { base := { σ.base.set t (.waking o (m.wakes a o)) with log := σ.base.log ++ [(a, o)] }
        body := Function.update σ.body t none }
  | _, _ => none

inductive StepCase (σ : Threads T S A O C) : Move T A → Threads T S A O C → Prop
  | outer {e : Event T A} {q : State T S A O C} (htest : ∀ t, e ≠ .test t)
    (hq : Case m σ.base e q) : StepCase σ (.thread e) { σ with base := q }
  | sleep {t : T} {a : A} (hbody : σ.body t = none) (hpc : σ.base.pc t = .testing a)
    (hwait : m.enter σ.base.shared a = none) :
    StepCase σ (.thread (.test t))
      { σ with base := { σ.base.set t (.asleep a) with owner := none } }
  | enter {t : T} {a : A} (hbody : σ.body t = none) (hpc : σ.base.pc t = .testing a)
    (hgo : m.enter σ.base.shared a = some ((b.code a).run σ.base.shared)) :
    StepCase σ (.thread (.test t)) { σ with body := Function.update σ.body t (some (b.code a)) }
  | access {t : T} {f : S → S} {next : S → Code S O} (hbody : σ.body t = some (.step f next)) :
    StepCase σ (.access t)
      { base := { σ.base with shared := f σ.base.shared }
        body := Function.update σ.body t (some (next σ.base.shared)) }
  | leave {t : T} {a : A} {o : O} (hbody : σ.body t = some (.ret o))
    (hpc : σ.base.pc t = .testing a) :
    StepCase σ (.access t)
      { base := { σ.base.set t (.waking o (m.wakes a o)) with log := σ.base.log ++ [(a, o)] }
        body := Function.update σ.body t none }

variable {b}

theorem test_cases {σ σ' : Threads T S A O C} {t : T} (h : σ.test b t = some σ') :
    StepCase b σ (.thread (.test t)) σ' := by
  rw [test] at h
  split at h
  case h_1 a hbody hpc =>
    have henter := b.enter_eq σ.base.shared a
    cases hwait : b.waits σ.base.shared a with
    | true =>
      rw [hwait, if_pos rfl] at h henter
      cases h
      exact .sleep hbody hpc henter
    | false =>
      rw [hwait, if_neg Bool.false_ne_true] at h henter
      cases h
      exact .enter hbody hpc henter
  case h_2 => cases h

theorem access_cases {σ σ' : Threads T S A O C} {t : T} (h : σ.access m t = some σ') :
    StepCase b σ (.access t) σ' := by
  rw [access] at h
  split at h
  case h_1 f next hbody =>
    cases h
    exact .access hbody
  case h_2 o a hbody hpc =>
    cases h
    exact .leave hbody hpc
  case h_3 => cases h

variable [Fintype T]

variable (b) in
def step (σ : Threads T S A O C) : Move T A → Option (Threads T S A O C)
  | .thread (.test t) => σ.test b t
  | .thread e => (Monitor.step m σ.base e).map (fun q => { σ with base := q })
  | .access t => σ.access m t

theorem step_cases {σ σ' : Threads T S A O C} {e : Move T A} (h : σ.step b e = some σ') :
    StepCase b σ e σ' := by
  cases e with
  | access t => exact access_cases h
  | thread e =>
    have outer (htest : ∀ t, e ≠ .test t)
        (hs : (Monitor.step m σ.base e).map (fun q => { σ with base := q }) = some σ') :
        StepCase b σ (.thread e) σ' := by
      obtain ⟨q, hq, rfl⟩ := Option.map_eq_some_iff.mp hs
      exact .outer htest (Monitor.step_cases hq)
    cases e with
    | test t => exact test_cases h
    | _ => exact outer (by simp) h

variable (b) in
def Reached (s : S) (σ : Threads T S A O C) : Prop :=
  Machine.ReachableVia (step b) (fun _ _ => True) (start s) σ

def Goal (m : Spec S A O C) (σ : Threads T S A O C) (s : S) (t : T) (r : S × O) : Prop :=
  ∃ a, σ.base.pc t = .testing a ∧ m.enter s a = some r

-- seen from outside the sections are atomic: s is what the finished ones have left
structure Atomic (m : Spec S A O C) (s₀ : S) (σ : Threads T S A O C) (s : S) : Prop where
  reached : Monitor.Reached m s₀ { σ.base with shared := s }
  underway : Underway (Goal m σ s) s σ.base.shared σ.body

end Threads

section Refinement

variable [DecidableEq C] [DecidableEq T] {m : Spec S A O C} {b : Body m}

-- outside the sections nobody looks at what the mutex guards
theorem Case.with_shared {σ σ' : State T S A O C} {e : Event T A} (hc : Case m σ e σ')
    (htest : ∀ t, e ≠ .test t) (s : S) :
    Case m { σ with shared := s } e { σ' with shared := s } := by
  cases hc with
  | call ht => exact .call ht
  | lock hfree ht => exact .lock hfree ht
  | sleep => exact absurd rfl (htest _)
  | enter => exact absurd rfl (htest _)
  | idleSignal ht hnone => exact .idleSignal ht hnone
  | signal ht hu hd => exact .signal ht hu hd
  | broadcast ht => exact .broadcast ht
  | unlock ht => exact .unlock ht
  | spurious ht => exact .spurious ht

theorem Case.testing_stays {σ σ' : State T S A O C} {e : Event T A} (hc : Case m σ e σ')
    (htest : ∀ t, e ≠ .test t) {t : T} {a : A} (ht : σ.pc t = .testing a) :
    σ'.pc t = .testing a ∧ σ'.shared = σ.shared := by
  have hset : ∀ {σ : State T S A O C} {u : T} {p q : Pc A O C}, σ.pc u = q → q ≠ .testing a →
      σ.pc t = .testing a → (σ.set u p).pc t = .testing a := by
    intro σ u p q hu hq ht
    have hne : t ≠ u := by
      rintro rfl
      exact hq (hu.symm.trans ht)
    rw [State.set_pc_ne σ p hne, ht]
  cases hc with
  | call hu => exact ⟨hset hu (by simp) ht, rfl⟩
  | lock _ hu => exact ⟨hset hu (by simp) ht, rfl⟩
  | sleep => exact absurd rfl (htest _)
  | enter => exact absurd rfl (htest _)
  | idleSignal hu => exact ⟨hset hu (by simp) ht, rfl⟩
  | @signal u v o c left a' hu hv =>
    have huv : u ≠ v := by
      rintro rfl
      rw [hu] at hv
      cases hv
    refine ⟨hset (q := .waking o (.signal c :: left)) ?_ (by simp) (hset hv (by simp) ht), rfl⟩
    rw [State.set_pc_ne σ _ huv, hu]
  | @broadcast u chosen o c left hu =>
    have hne : t ≠ u := by
      rintro rfl
      rw [hu] at ht
      cases ht
    exact ⟨by simp [wakeAll, hne, ht, Spec.rouse], rfl⟩
  | unlock hu => exact ⟨hset hu (by simp) ht, rfl⟩
  | spurious hu => exact ⟨hset hu (by simp) ht, rfl⟩

namespace Threads

variable [Fintype T] {σ σ' : Threads T S A O C} {s₀ s : S}

theorem Atomic.nobody (h : Atomic m s₀ σ s) {t : T} {a : A} (hbody : σ.body t = none)
    (hpc : σ.base.pc t = .testing a) (u : T) : σ.body u = none := by
  cases hu : σ.body u with
  | none => rfl
  | some code =>
    obtain ⟨a', hpc', -⟩ := h.underway.ends u code hu
    have hut : u = t :=
      mutual_exclusion h.reached (show (σ.base.pc u).inside = true by rw [hpc']; rfl)
        (show (σ.base.pc t).inside = true by rw [hpc]; rfl)
    rw [hut, hbody] at hu
    cases hu

theorem Atomic.step (h : Atomic m s₀ σ s) {e : Move T A} (hs : σ.step b e = some σ') :
    ∃ s', Atomic m s₀ σ' s' := by
  cases step_cases hs with
  | @outer e q htest hq =>
    refine ⟨s, h.reached.next (hq.with_shared htest s), ?_⟩
    have hshared : q.shared = σ.base.shared := by
      cases hq with
      | enter => exact absurd rfl (htest _)
      | _ => rfl
    change Underway _ s q.shared σ.body
    rw [hshared]
    refine h.underway.mono ?_
    rintro t r - ⟨a, ht, hgo⟩
    exact ⟨a, (hq.testing_stays htest ht).1, hgo⟩
  | @sleep t a hbody hpc hwait =>
    have hnone := h.nobody hbody hpc
    have hclean := h.underway.clean hnone
    refine ⟨s, h.reached.next (.sleep hpc (hclean ▸ hwait)), ?_⟩
    exact h.underway.mono (fun u _ hu => absurd (hnone u) hu)
  | @enter t a hbody hpc hgo =>
    have hnone := h.nobody hbody hpc
    have hclean := h.underway.clean hnone
    refine ⟨s, h.reached, h.underway.enter hnone ⟨a, hpc, ?_⟩⟩
    rw [← hclean]
    exact hgo
  | access hbody => exact ⟨s, h.reached, h.underway.access hbody⟩
  | @leave t a o hbody hpc =>
    obtain ⟨⟨a', hpc', hgo⟩, hunder⟩ := h.underway.leave hbody
    obtain rfl : a = a' := by
      rw [hpc] at hpc'
      cases hpc'
      rfl
    exact ⟨σ.base.shared, h.reached.next (.enter hpc hgo), hunder⟩

theorem Reached.atomic (h : Reached b s₀ σ) : ∃ s, Atomic m s₀ σ s := by
  refine Machine.ReachableVia.invariant (P := fun σ => ∃ s, Atomic m s₀ σ s) h
    ⟨s₀, .start, .start s₀⟩ ?_
  rintro σ e σ' ⟨s, hatomic⟩ - hs
  exact hatomic.step hs

end Threads

end Refinement

end Monitor

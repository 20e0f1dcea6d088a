import Mathlib.Data.List.Basic

namespace Machine

variable {S A I O : Type}

def run (step : S → I → S × O) : S → List I → S × List O
  | s, [] => (s, [])
  | s, i :: is => ((run step (step s i).1 is).1, (step s i).2 :: (run step (step s i).1 is).2)

def Reachable (step : S → I → S × O) (s₀ s : S) : Prop := ∃ is, (run step s₀ is).1 = s

theorem run_append (step : S → I → S × O) (s : S) (is js : List I) :
    run step s (is ++ js) = ((run step (run step s is).1 js).1,
      (run step s is).2 ++ (run step (run step s is).1 js).2) := by
  induction is generalizing s with
  | nil => rfl
  | cons i is ih => simp [run, ih]

theorem length_run (step : S → I → S × O) (s : S) (is : List I) :
    (run step s is).2.length = is.length := by
  induction is generalizing s with
  | nil => rfl
  | cons i is ih => simp [run, ih]

theorem run_invariant {step : S → I → S × O} {P : S → Prop}
    (hstep : ∀ s i, P s → P (step s i).1) {s : S} (hs : P s) (is : List I) :
    P (run step s is).1 := by
  induction is generalizing s with
  | nil => exact hs
  | cons i is ih => exact ih (hstep s i hs)

theorem run_history {step : S → I → S × O} {P : S → List O → Prop}
    (hstep : ∀ s os i, P s os → P (step s i).1 (os ++ [(step s i).2])) {s : S} {os : List O}
    (h : P s os) (is : List I) : P (run step s is).1 (os ++ (run step s is).2) := by
  induction is generalizing s os with
  | nil => rwa [run, List.append_nil]
  | cons i is ih =>
    have hnext := ih (hstep s os i h)
    rwa [List.append_assoc] at hnext

theorem run_simulation {step : S → I → S × O} {astep : A → I → A × O} {R : S → A → Prop}
    (hstep : ∀ s a i, R s a → R (step s i).1 (astep a i).1 ∧ (step s i).2 = (astep a i).2)
    {s : S} {a : A} (h : R s a) (is : List I) :
    R (run step s is).1 (run astep a is).1 ∧ (run step s is).2 = (run astep a is).2 := by
  induction is generalizing s a with
  | nil => exact ⟨h, rfl⟩
  | cons i is ih =>
    obtain ⟨hr, ho⟩ := hstep s a i h
    obtain ⟨hr', ho'⟩ := ih hr
    exact ⟨hr', by simp only [run, ho, ho']⟩

theorem Reachable.invariant {step : S → I → S × O} {P : S → Prop} {s₀ s : S}
    (h : Reachable step s₀ s) (h₀ : P s₀) (hstep : ∀ s i, P s → P (step s i).1) : P s := by
  obtain ⟨is, rfl⟩ := h
  exact run_invariant hstep h₀ is

theorem Reachable.step {step : S → I → S × O} {s₀ s : S} (h : Reachable step s₀ s) (i : I) :
    Reachable step s₀ (step s i).1 := by
  obtain ⟨is, rfl⟩ := h
  exact ⟨is ++ [i], by simp [run_append, run]⟩

theorem Reachable.run {step : S → I → S × O} {s₀ s : S} (h : Reachable step s₀ s)
    (is : List I) : Reachable step s₀ (run step s is).1 := by
  obtain ⟨js, rfl⟩ := h
  exact ⟨js ++ is, by rw [run_append]⟩

inductive ReachableVia (step : S → I → Option S) (allowed : S → I → Prop) (s₀ : S) : S → Prop
  | start : ReachableVia step allowed s₀ s₀
  | next {s s' : S} {i : I} (h : ReachableVia step allowed s₀ s) (ha : allowed s i)
    (hs : step s i = some s') : ReachableVia step allowed s₀ s'

theorem ReachableVia.invariant {step : S → I → Option S} {allowed : S → I → Prop} {P : S → Prop}
    {s₀ s : S} (h : ReachableVia step allowed s₀ s) (h₀ : P s₀)
    (hstep : ∀ s i s', P s → allowed s i → step s i = some s' → P s') : P s := by
  induction h with
  | start => exact h₀
  | next _ ha hs ih => exact hstep _ _ _ ih ha hs

-- a coarser machine that takes each step of a finer one, or none at all
theorem ReachableVia.simulation {J : Type} {step : S → I → Option S} {allowed : S → I → Prop}
    {astep : A → J → Option A} {view : S → A} {P : S → Prop} {s₀ s : S}
    (h : ReachableVia step allowed s₀ s) (h₀ : P s₀)
    (hstep : ∀ s i s', P s → allowed s i → step s i = some s' →
      P s' ∧ (view s' = view s ∨ ∃ j, astep (view s) j = some (view s'))) :
    P s ∧ ReachableVia astep (fun _ _ => True) (view s₀) (view s) := by
  induction h with
  | start => exact ⟨h₀, .start⟩
  | next _ ha hs ih =>
    obtain ⟨hp, hview⟩ := hstep _ _ _ ih.1 ha hs
    refine ⟨hp, ?_⟩
    rcases hview with hsame | ⟨j, hj⟩
    · rw [hsame]
      exact ih.2
    · exact ih.2.next trivial hj

def exec (step : S → I → Option S) : S → List I → Option S
  | s, [] => some s
  | s, i :: is => (step s i).bind (fun s' => exec step s' is)

theorem exec_invariant {step : S → I → Option S} {P : S → List I → Prop}
    (hstep : ∀ s done i s', P s done → step s i = some s' → P s' (done ++ [i])) {s s' : S}
    {done is : List I} (h : P s done) (he : exec step s is = some s') : P s' (done ++ is) := by
  induction is generalizing s done with
  | nil =>
    cases he
    rwa [List.append_nil]
  | cons i is ih =>
    obtain ⟨t, ht, he⟩ := Option.bind_eq_some_iff.mp he
    have hnext := ih (hstep s done i t h ht) he
    rwa [List.append_assoc] at hnext

theorem ReachableVia.exec {step : S → I → Option S} {allowed : S → I → Prop} {s₀ s : S}
    (h : ReachableVia step allowed s₀ s) {is : List I} {s' : S}
    (ha : ∀ s i, allowed s i) (he : Machine.exec step s is = some s') :
    ReachableVia step allowed s₀ s' := by
  induction is generalizing s with
  | nil =>
    cases he
    exact h
  | cons i is ih =>
    obtain ⟨t, ht, he⟩ := Option.bind_eq_some_iff.mp he
    exact ih (h.next (ha s i) ht) he

def permit (allowed : S → I → Prop) [∀ s i, Decidable (allowed s i)] (step : S → I → Option S)
    (s : S) (i : I) : Option S := if allowed s i then step s i else none

theorem ReachableVia.exec_permit {step : S → I → Option S} {allowed : S → I → Prop}
    [∀ s i, Decidable (allowed s i)] {s₀ s s' : S} (h : ReachableVia step allowed s₀ s)
    {is : List I} (he : Machine.exec (permit allowed step) s is = some s') :
    ReachableVia step allowed s₀ s' := by
  induction is generalizing s with
  | nil =>
    cases he
    exact h
  | cons i is ih =>
    obtain ⟨t, ht, he⟩ := Option.bind_eq_some_iff.mp he
    obtain ⟨ha, hs⟩ := Option.ite_none_right_eq_some.mp ht
    exact ih (h.next ha hs) he

-- runs of a step that may have to wait, with everything that was asked and answered
inductive Trace (step : S → I → Option (S × O)) (s₀ : S) : List (I × O) → S → Prop
  | start : Trace step s₀ [] s₀
  | next {log : List (I × O)} {s s' : S} {i : I} {o : O} (h : Trace step s₀ log s)
    (hs : step s i = some (s', o)) : Trace step s₀ (log ++ [(i, o)]) s'

theorem Trace.invariant {step : S → I → Option (S × O)} {P : List (I × O) → S → Prop} {s₀ s : S}
    {log : List (I × O)} (h : Trace step s₀ log s) (h₀ : P [] s₀)
    (hstep : ∀ log s i s' o, P log s → step s i = some (s', o) → P (log ++ [(i, o)]) s') :
    P log s := by
  induction h with
  | start => exact h₀
  | next _ hs ih => exact hstep _ _ _ _ _ ih hs

end Machine

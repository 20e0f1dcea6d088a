import Mathlib.Logic.Function.Basic

namespace Sections

-- the body of a critical section as single accesses to the state its mutex guards; next goes by
-- the state that the access met
inductive Code (S O : Type) where
  | ret (o : O)
  | step (f : S → S) (next : S → Code S O)

variable {T S O : Type}

namespace Code

def read (next : S → Code S O) : Code S O := .step id next

def write (f : S → S) (next : Code S O) : Code S O := .step f (fun _ => next)

def run : Code S O → S → S × O
  | .ret o, s => (s, o)
  | .step f next, s => (next s).run (f s)

@[simp] theorem run_ret (o : O) (s : S) : (ret o).run s = (s, o) := rfl

@[simp] theorem run_read (next : S → Code S O) (s : S) : (read next).run s = (next s).run s := rfl

@[simp] theorem run_write (f : S → S) (next : Code S O) (s : S) :
    (write f next).run s = next.run (f s) := rfl

end Code

-- before is what the finished sections have left; at most one more is on its way from there, and
-- what is left of it leads to its goal
structure Underway (goal : T → S × O → Prop) (before shared : S) (body : T → Option (Code S O)) :
    Prop where
  sole : ∀ t u, body t ≠ none → body u ≠ none → t = u
  clean : (∀ t, body t = none) → shared = before
  ends : ∀ t code, body t = some code → goal t (code.run shared)

namespace Underway

variable {goal goal' : T → S × O → Prop} {before shared : S} {body : T → Option (Code S O)}

theorem start (s : S) : Underway goal s s (fun _ => none) :=
  ⟨fun _ _ ht => absurd rfl ht, fun _ => rfl, nofun⟩

theorem mono (h : Underway goal before shared body)
    (hgoal : ∀ t r, body t ≠ none → goal t r → goal' t r) : Underway goal' before shared body where
  sole := h.sole
  clean := h.clean
  ends t code ht := hgoal t _ (by rw [ht]; nofun) (h.ends t code ht)

theorem others (h : Underway goal before shared body) {t : T} (ht : body t ≠ none) (u : T)
    (hne : u ≠ t) : body u = none := by
  by_contra hu
  exact hne (h.sole u t hu ht)

variable [DecidableEq T]

theorem sole_update {t : T} {code : Option (Code S O)}
    (h : ∀ u, u ≠ t → body u = none) (u v : T) (hu : Function.update body t code u ≠ none)
    (hv : Function.update body t code v ≠ none) : u = v := by
  have hall : ∀ w, Function.update body t code w ≠ none → w = t := by
    intro w hw
    by_contra hne
    rw [Function.update_of_ne hne] at hw
    exact hw (h w hne)
  rw [hall u hu, hall v hv]

theorem enter (h : Underway goal before shared body) (hnone : ∀ u, body u = none) {t : T}
    {code : Code S O} (hgoal : goal' t (code.run before)) :
    Underway goal' before shared (Function.update body t (some code)) where
  sole := sole_update (fun u _ => hnone u)
  clean hall := by
    have ht := hall t
    rw [Function.update_self] at ht
    cases ht
  ends u code' hu := by
    rcases eq_or_ne u t with rfl | hne
    · rw [Function.update_self] at hu
      cases hu
      rwa [h.clean hnone]
    · rw [Function.update_of_ne hne, hnone u] at hu
      cases hu

theorem access (h : Underway goal before shared body) {t : T} {f : S → S} {next : S → Code S O}
    (ht : body t = some (.step f next)) :
    Underway goal before (f shared) (Function.update body t (some (next shared))) where
  sole := sole_update (h.others (by rw [ht]; nofun))
  clean hall := by
    have hself := hall t
    rw [Function.update_self] at hself
    cases hself
  ends u code hu := by
    rcases eq_or_ne u t with rfl | hne
    · rw [Function.update_self] at hu
      cases hu
      exact h.ends u _ ht
    · rw [Function.update_of_ne hne, h.others (by rw [ht]; nofun) u hne] at hu
      cases hu

-- the section is over, and the next one starts from what it has left
theorem leave (h : Underway goal before shared body) {t : T} {o : O} (ht : body t = some (.ret o)) :
    goal t (shared, o) ∧ Underway goal' shared shared (Function.update body t none) := by
  have hnone : ∀ u, Function.update body t none u = none := by
    intro u
    rcases eq_or_ne u t with rfl | hne
    · rw [Function.update_self]
    · rw [Function.update_of_ne hne, h.others (by rw [ht]; nofun) u hne]
  refine ⟨h.ends t _ ht, fun u _ hu => absurd (hnone u) hu, fun _ => rfl, fun u code hu => ?_⟩
  rw [hnone u] at hu
  cases hu

end Underway

end Sections

import Mathlib.Data.List.Basic
import Mathlib.Data.List.Infix

namespace Incremental

inductive Verdict (C E : Type) where
  | ok (c : C) (n : Nat)
  | incomplete
  | error (e : E)
  deriving DecidableEq, Repr

-- a limit error is one that further input could have averted; all other verdicts but
-- incomplete are final
structure Parser (α C E : Type) where
  parse : List α → Verdict C E
  limit : E → Prop
  parse_nil : parse [] = .incomplete
  ok_bounds : ∀ {b c n}, parse b = .ok c n → 0 < n ∧ n ≤ b.length
  ok_append : ∀ {b c n}, parse b = .ok c n → ∀ x, parse (b ++ x) = .ok c n
  error_append : ∀ {b e}, parse b = .error e → ¬ limit e → ∀ x, parse (b ++ x) = .error e

structure Drained (α C E : Type) where
  cmds : List C
  rest : List α
  err : Option E
  deriving DecidableEq, Repr

namespace Parser

variable {α C E : Type} (P : Parser α C E)

def drainFuel : Nat → List α → Drained α C E
  | 0, b => ⟨[], b, none⟩
  | fuel + 1, b =>
    match P.parse b with
    | .incomplete => ⟨[], b, none⟩
    | .error e => ⟨[], b, some e⟩
    | .ok c n =>
      let d := drainFuel fuel (b.drop n)
      ⟨c :: d.cmds, d.rest, d.err⟩

def drain (b : List α) : Drained α C E := P.drainFuel b.length b

def feed (d : Drained α C E) (x : List α) : Drained α C E :=
  if d.err.isSome then d
  else ⟨d.cmds ++ (P.drain (d.rest ++ x)).cmds, (P.drain (d.rest ++ x)).rest,
    (P.drain (d.rest ++ x)).err⟩

def feedAll (xs : List (List α)) : Drained α C E := xs.foldl P.feed ⟨[], [], none⟩

variable {P}

theorem drop_length_lt {b : List α} {c : C} {n : Nat} (h : P.parse b = .ok c n) :
    (b.drop n).length < b.length := by
  have hb := P.ok_bounds h
  rw [List.length_drop]
  omega

theorem drainFuel_succ {fuel : Nat} {b : List α} (h : b.length ≤ fuel) :
    P.drainFuel (fuel + 1) b = P.drainFuel fuel b := by
  induction fuel generalizing b with
  | zero =>
    have hb : b = [] := List.length_eq_zero_iff.mp (by omega)
    simp [hb, drainFuel, P.parse_nil]
  | succ fuel ih =>
    rw [drainFuel, drainFuel]
    cases hp : P.parse b with
    | incomplete => rfl
    | error e => rfl
    | ok c n =>
      have hl := drop_length_lt hp
      simp only [ih (show (b.drop n).length ≤ fuel by omega)]

theorem drainFuel_eq {fuel : Nat} {b : List α} (h : b.length ≤ fuel) :
    P.drainFuel fuel b = P.drain b := by
  induction fuel, h using Nat.le_induction with
  | base => rfl
  | succ fuel h ih => rw [drainFuel_succ h, ih]

theorem drain_of_incomplete {b : List α} (h : P.parse b = .incomplete) :
    P.drain b = ⟨[], b, none⟩ := by
  rw [← drainFuel_eq (Nat.le_succ b.length), drainFuel, h]

theorem drain_of_error {b : List α} {e : E} (h : P.parse b = .error e) :
    P.drain b = ⟨[], b, some e⟩ := by
  rw [← drainFuel_eq (Nat.le_succ b.length), drainFuel, h]

theorem drain_of_ok {b : List α} {c : C} {n : Nat} (h : P.parse b = .ok c n) :
    P.drain b = ⟨c :: (P.drain (b.drop n)).cmds, (P.drain (b.drop n)).rest,
      (P.drain (b.drop n)).err⟩ := by
  have hl := drop_length_lt h
  rw [← drainFuel_eq (Nat.le_succ b.length), drainFuel, h]
  simp only [drainFuel_eq hl.le]

theorem drain_induction {motive : List α → Prop}
    (incomplete : ∀ b, P.parse b = .incomplete → motive b)
    (error : ∀ b e, P.parse b = .error e → motive b)
    (ok : ∀ b c n, P.parse b = .ok c n → motive (b.drop n) → motive b) (b : List α) :
    motive b := by
  induction hk : b.length using Nat.strong_induction_on generalizing b with
  | _ k ih =>
    cases hp : P.parse b with
    | incomplete => exact incomplete b hp
    | error e => exact error b e hp
    | ok c n => exact ok b c n hp (ih _ (hk ▸ drop_length_lt hp) _ rfl)

theorem parse_rest_of_none {b : List α} (h : (P.drain b).err = none) :
    P.parse (P.drain b).rest = .incomplete := by
  induction b using P.drain_induction with
  | incomplete b hp => rwa [drain_of_incomplete hp]
  | error b e hp => simp [drain_of_error hp] at h
  | ok b c n hp ih =>
    rw [drain_of_ok hp] at h ⊢
    exact ih h

theorem drain_append_of_none {b : List α} (h : (P.drain b).err = none) (x : List α) :
    P.drain (b ++ x) = ⟨(P.drain b).cmds ++ (P.drain ((P.drain b).rest ++ x)).cmds,
      (P.drain ((P.drain b).rest ++ x)).rest, (P.drain ((P.drain b).rest ++ x)).err⟩ := by
  induction b using P.drain_induction with
  | incomplete b hp => simp [drain_of_incomplete hp]
  | error b e hp => simp [drain_of_error hp] at h
  | ok b c n hp ih =>
    rw [drain_of_ok hp] at h ⊢
    rw [drain_of_ok (P.ok_append hp x), List.drop_append_of_le_length (P.ok_bounds hp).2, ih h]
    rfl

theorem drain_append_of_hard {b : List α} {e : E} (h : (P.drain b).err = some e)
    (he : ¬ P.limit e) (x : List α) :
    P.drain (b ++ x) = ⟨(P.drain b).cmds, (P.drain b).rest ++ x, some e⟩ := by
  induction b using P.drain_induction with
  | incomplete b hp => simp [drain_of_incomplete hp] at h
  | error b e' hp =>
    rw [drain_of_error hp] at h ⊢
    cases h
    rw [drain_of_error (P.error_append hp he x)]
  | ok b c n hp ih =>
    rw [drain_of_ok hp] at h ⊢
    rw [drain_of_ok (P.ok_append hp x), List.drop_append_of_le_length (P.ok_bounds hp).2, ih h]

theorem drain_append_initial (b x : List α) : (P.drain b).cmds <+: (P.drain (b ++ x)).cmds := by
  induction b using P.drain_induction with
  | incomplete b hp => simp [drain_of_incomplete hp]
  | error b e hp => simp [drain_of_error hp]
  | ok b c n hp ih =>
    rw [drain_of_ok hp, drain_of_ok (P.ok_append hp x),
      List.drop_append_of_le_length (P.ok_bounds hp).2]
    exact (List.prefix_cons_inj c).mpr ih

theorem feed_drain {b : List α} (h : (P.drain b).err = none) (x : List α) :
    P.feed (P.drain b) x = P.drain (b ++ x) := by
  rw [feed, if_neg (by simp [h]), drain_append_of_none h]

theorem feed_of_err {d : Drained α C E} (h : d.err ≠ none) (x : List α) : P.feed d x = d :=
  if_pos (Option.isSome_iff_ne_none.mpr h)

theorem feedAll_append_singleton (xs : List (List α)) (x : List α) :
    P.feedAll (xs ++ [x]) = P.feed (P.feedAll xs) x := by
  simp [feedAll]

theorem feedAll_of_none {xs : List (List α)} (h : (P.feedAll xs).err = none) :
    P.feedAll xs = P.drain xs.flatten := by
  induction xs using List.reverseRecOn with
  | nil => exact (drain_of_incomplete P.parse_nil).symm
  | append_singleton xs x ih =>
    rw [feedAll_append_singleton] at h ⊢
    by_cases hn : (P.feedAll xs).err = none
    · have hd := ih hn
      rw [hd] at hn
      rw [hd, feed_drain hn, List.flatten_append, List.flatten_singleton]
    · rw [feed_of_err hn] at h
      exact absurd h hn

theorem feedAll_snoc_of_none {xs : List (List α)} (h : (P.feedAll xs).err = none) (x : List α) :
    P.feedAll (xs ++ [x]) = P.drain (xs ++ [x]).flatten := by
  have hd := feedAll_of_none h
  rw [hd] at h
  rw [feedAll_append_singleton, hd, feed_drain h, List.flatten_append, List.flatten_singleton]

theorem feedAll_singleton (x : List α) : P.feedAll [x] = P.drain x := by
  have h := feedAll_snoc_of_none (P := P) (show (P.feedAll []).err = none from rfl) x
  rwa [List.nil_append, List.flatten_singleton] at h

theorem feedAll_of_hard {xs : List (List α)} {e : E} (h : (P.feedAll xs).err = some e)
    (hl : ¬ P.limit e) :
    (P.feedAll xs).cmds = (P.drain xs.flatten).cmds ∧ (P.drain xs.flatten).err = some e := by
  induction xs using List.reverseRecOn with
  | nil => simp [feedAll] at h
  | append_singleton xs x ih =>
    by_cases hn : (P.feedAll xs).err = none
    · rw [feedAll_snoc_of_none hn] at h ⊢
      exact ⟨rfl, h⟩
    · rw [feedAll_append_singleton, feed_of_err hn] at h ⊢
      obtain ⟨hc, hd⟩ := ih h
      rw [List.flatten_append, List.flatten_singleton, drain_append_of_hard hd hl]
      exact ⟨hc, rfl⟩

theorem feedAll_initial (xs : List (List α)) :
    (P.feedAll xs).cmds <+: (P.drain xs.flatten).cmds := by
  induction xs using List.reverseRecOn with
  | nil => simp [feedAll]
  | append_singleton xs x ih =>
    by_cases hn : (P.feedAll xs).err = none
    · rw [feedAll_snoc_of_none hn]
    · rw [feedAll_append_singleton, feed_of_err hn, List.flatten_append, List.flatten_singleton]
      exact ih.trans (drain_append_initial _ _)

variable (P) in
inductive Consumes : List α → List C → List α → Prop
  | nil (b : List α) : Consumes b [] b
  | snoc {b r : List α} {cs : List C} {c : C} {n : Nat} (h : Consumes b cs r)
    (hp : P.parse r = .ok c n) : Consumes b (cs ++ [c]) (r.drop n)

theorem Consumes.drain_eq {b r : List α} {cs : List C} (h : P.Consumes b cs r) :
    (P.drain b).cmds = cs ++ (P.drain r).cmds := by
  induction h with
  | nil => rfl
  | snoc _ hp ih => rw [ih, drain_of_ok hp, List.append_assoc, List.singleton_append]

theorem Consumes.drain_all {b r : List α} {cs : List C} (h : P.Consumes b cs r) :
    P.drain b = ⟨cs ++ (P.drain r).cmds, (P.drain r).rest, (P.drain r).err⟩ := by
  induction h with
  | nil => rfl
  | snoc _ hp ih => rw [ih, drain_of_ok hp, List.append_assoc, List.singleton_append]

theorem Consumes.initial {b r : List α} {cs : List C} (h : P.Consumes b cs r) :
    cs <+: (P.drain b).cmds := ⟨_, h.drain_eq.symm⟩

theorem Consumes.append {b r : List α} {cs : List C} (h : P.Consumes b cs r) (x : List α) :
    P.Consumes (b ++ x) cs (r ++ x) := by
  induction h with
  | nil => exact .nil _
  | @snoc r cs c n _ hp ih =>
    rw [← List.drop_append_of_le_length (P.ok_bounds hp).2]
    exact ih.snoc (P.ok_append hp x)

theorem Consumes.trans {b r r' : List α} {cs cs' : List C} (h : P.Consumes b cs r)
    (h' : P.Consumes r cs' r') : P.Consumes b (cs ++ cs') r' := by
  induction h' with
  | nil => rwa [List.append_nil]
  | snoc _ hp ih =>
    rw [← List.append_assoc]
    exact ih.snoc hp

theorem drain_consumes (b : List α) : P.Consumes b (P.drain b).cmds (P.drain b).rest := by
  induction b using P.drain_induction with
  | incomplete b hp =>
    rw [drain_of_incomplete hp]
    exact .nil b
  | error b e hp =>
    rw [drain_of_error hp]
    exact .nil b
  | ok b c n hp ih =>
    rw [drain_of_ok hp]
    exact (Consumes.snoc (.nil b) hp).trans ih

variable (P) in
def failsAt (b : List α) : Bool := (P.drain b).err.isSome

def stops : List α → List (List α) → List (List α)
  | _, [] => []
  | b, x :: xs => (b ++ x) :: stops (b ++ x) xs

theorem foldl_feed_of_err {d : Drained α C E} (h : d.err ≠ none) (xs : List (List α)) :
    xs.foldl P.feed d = d := by
  induction xs with
  | nil => rfl
  | cons x xs ih => rw [List.foldl_cons, feed_of_err h, ih]

theorem foldl_feed_eq {b : List α} (h : (P.drain b).err = none) (xs : List (List α)) :
    xs.foldl P.feed (P.drain b) =
      P.drain (((stops b xs).find? P.failsAt).getD (b ++ xs.flatten)) := by
  induction xs generalizing b with
  | nil => simp [stops]
  | cons x xs ih =>
    rw [List.foldl_cons, feed_drain h, stops, List.flatten_cons, ← List.append_assoc]
    cases hx : (P.drain (b ++ x)).err with
    | none => rw [List.find?_cons_of_neg (by simp [failsAt, hx]), ih hx]
    | some e =>
      rw [List.find?_cons_of_pos (by simp [failsAt, hx]), foldl_feed_of_err (by simp [hx])]
      rfl

theorem feedAll_eq_find (xs : List (List α)) :
    P.feedAll xs = P.drain (((stops [] xs).find? P.failsAt).getD xs.flatten) := by
  have hd := drain_of_incomplete P.parse_nil
  rw [feedAll, ← hd, foldl_feed_eq (by rw [hd]), List.nil_append]

theorem getLast_stops (b : List α) (xs : List (List α)) :
    (stops b xs).getLast?.getD b = b ++ xs.flatten := by
  induction xs generalizing b with
  | nil => simp [stops]
  | cons x xs ih =>
    have h := ih (b ++ x)
    rw [stops, List.flatten_cons, ← List.append_assoc, ← h]
    cases hs : stops (b ++ x) xs with
    | nil => rfl
    | cons y ys => rw [List.getLast?_cons_cons, List.getLast?_cons]; rfl

theorem err_drain_flatten {b : List α} (hb : (P.drain b).err = none) {xs : List (List α)}
    (h : (stops b xs).find? P.failsAt = none) : (P.drain (b ++ xs.flatten)).err = none := by
  rw [← getLast_stops]
  cases hl : (stops b xs).getLast? with
  | none => exact hb
  | some p =>
    have hp := List.find?_eq_none.mp h p (List.mem_of_getLast? hl)
    simpa [failsAt] using hp

theorem length_rest_le (b : List α) : (P.drain b).rest.length ≤ b.length := by
  induction b using P.drain_induction with
  | incomplete b hp => rw [drain_of_incomplete hp]
  | error b e hp => rw [drain_of_error hp]
  | ok b c n hp ih =>
    rw [drain_of_ok hp]
    exact ih.trans (drop_length_lt hp).le

end Parser
end Incremental

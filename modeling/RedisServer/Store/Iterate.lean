import RedisServer.Store.Refinement

namespace RedisServer

variable {hash : Bytes → UInt64}

theorem liveEntry_iff (now : Int64) (e : Entry) :
    liveEntry now e = true ↔ ¬ expired e.expireAtMs now = true := by
  simp only [liveEntry, expired, Bool.or_eq_true, Bool.and_eq_true, decide_eq_true_eq,
    gt_iff_lt, not_and]
  constructor
  · rintro (h | h) hne
    · exact absurd h hne
    · exact Int64.not_le.mpr h
  · intro h
    by_cases hz : e.expireAtMs = 0
    · exact .inl hz
    · exact .inr (Int64.not_le.mp (h hz))

theorem liveEntry_mono {t t' : Int64} (h : t ≤ t') {e : Entry} (he : liveEntry t' e = true) :
    liveEntry t e = true := by
  simp only [liveEntry, Bool.or_eq_true, decide_eq_true_eq, gt_iff_lt] at he ⊢
  exact he.imp_right (Int64.lt_of_le_of_lt h)

theorem Table.WF.walk_eq {t : Table} (h : t.WF hash) : t.walk = t.entries := by
  rw [Table.walk, ← h.length_buckets]
  exact Buckets.flatMap_range_getD t.buckets

theorem Store.Sound.walk_eq {s : Store} (hs : s.Sound hash) :
    s.ht0.walk ++ s.ht1.walk = s.entries := by
  rw [hs.wf0.walk_eq, hs.wf1.walk_eq, Store.entries]

def Store.visited (s : Store) (now : Int64) : List Entry := s.entries.filter (liveEntry now)

theorem storeForeach_eq {σ : Type} {s : Store} (hs : s.Sound hash) (now : Int64)
    (fn : σ → Entry → σ) (ud : σ) : storeForeach s now fn ud = (s.visited now).foldl fn ud := by
  rw [storeForeach, hs.walk_eq, Store.visited]

theorem Store.Sound.visited_nodup {s : Store} (hs : s.Sound hash) (now : Int64) :
    ((s.visited now).map Entry.key).Nodup :=
  hs.nodup.sublist (List.filter_sublist.map Entry.key)

theorem Store.mem_visited {s : Store} {now : Int64} {e : Entry} :
    e ∈ s.visited now ↔ e ∈ s.entries ∧ liveEntry now e = true := List.mem_filter

end RedisServer

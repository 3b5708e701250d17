/-!
Tables that keep their entries in the order in which their keys were first put. Looking up after
putting finds the new value under its key and the old one under any other (`get?_put`), and putting
changes the keys only by a new one at the end (`keys_put`). Entries with different keys are a table
as they stand (`ofEntries_of_nodup`).
-/

namespace PlanCache

/-- Entries of a table, each key once. -/
abbrev Table (κ α : Type _) := List (κ × α)

namespace Table

variable {κ α : Type _} [DecidableEq κ]

/-- Puts a value under a key: in the place of the key if there is one, otherwise at the end. -/
def put (k : κ) (a : α) : Table κ α → Table κ α
  | [] => [(k, a)]
  | (k', a') :: t => if k' = k then (k, a) :: t else (k', a') :: put k a t

def get? (k : κ) : Table κ α → Option α
  | [] => none
  | (k', a) :: t => if k' = k then some a else get? k t

def keys (t : Table κ α) : List κ := t.map (·.1)

/-- A table of entries given in order, where a later entry replaces an earlier one. -/
def ofEntries (entries : List (κ × α)) : Table κ α :=
  entries.foldl (fun t (k, a) ↦ t.put k a) []

@[simp]
theorem get?_put (t : Table κ α) (k k' : κ) (a : α) :
    (t.put k a).get? k' = if k = k' then some a else t.get? k' := by
  induction t with
  | nil => simp [put, get?]
  | cons e t ih =>
    obtain ⟨j, b⟩ := e
    by_cases hj : j = k
    · subst hj
      by_cases hk : j = k' <;> simp [put, get?, hk]
    · by_cases hk : j = k'
      · subst hk
        simp [put, get?, hj, Ne.symm hj]
      · simp [put, get?, hj, hk, ih]

/-- A new key comes last, and a key that is there keeps its place. -/
theorem keys_put (t : Table κ α) (k : κ) (a : α) :
    (t.put k a).keys = if k ∈ t.keys then t.keys else t.keys ++ [k] := by
  induction t with
  | nil => simp [put, keys]
  | cons e t ih =>
    obtain ⟨j, b⟩ := e
    by_cases hj : j = k
    · subst hj
      simp [put, keys]
    · simp only [keys] at ih
      by_cases hk : k ∈ t.map (·.1)
      · simp [put, keys, hj, ih, hk]
      · simp [put, keys, hj, ih, hk, Ne.symm hj]

theorem get?_eq_none_iff (t : Table κ α) (k : κ) : t.get? k = none ↔ k ∉ t.keys := by
  induction t with
  | nil => simp [get?, keys]
  | cons e t ih =>
    obtain ⟨j, b⟩ := e
    by_cases hj : j = k
    · simp [get?, keys, hj]
    · simpa [get?, keys, hj, Ne.symm hj] using ih

theorem put_of_notMem {t : Table κ α} {k : κ} {a : α} (h : k ∉ t.keys) :
    t.put k a = t ++ [(k, a)] := by
  induction t with
  | nil => rfl
  | cons e t ih =>
    simp only [keys, List.map_cons, List.mem_cons, not_or] at h
    rw [put, if_neg (Ne.symm h.1), ih h.2, List.cons_append]

/-- Entries with different keys are a table as they stand. -/
theorem ofEntries_of_nodup {es : List (κ × α)} (h : (keys es).Nodup) : ofEntries es = es := by
  have hfold : ∀ (es t : List (κ × α)), (keys (t ++ es)).Nodup →
      es.foldl (fun t e ↦ put e.1 e.2 t) t = t ++ es := by
    intro es
    induction es with
    | nil => simp
    | cons e es ih =>
      intro t ht
      have he : e.1 ∉ keys t := by
        intro hmem
        rw [keys, List.map_append, List.nodup_append] at ht
        exact ht.2.2 _ hmem _ List.mem_cons_self rfl
      rw [List.foldl_cons, put_of_notMem he, ih]
      · rw [List.append_assoc, List.singleton_append]
      · rwa [List.append_assoc, List.singleton_append]
  exact hfold es [] h

end Table

end PlanCache

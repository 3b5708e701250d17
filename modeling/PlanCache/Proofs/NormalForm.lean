import PlanCache.Query.Normal

/-!
What the normal form of a query is made of.
-/

namespace PlanCache

theorem bind_eq_ok_iff {ε α β : Type _} {x : Except ε α} {f : α → Except ε β} {b : β} :
    x >>= f = .ok b ↔ ∃ a, x = .ok a ∧ f a = .ok b := by
  cases x <;> simp [bind, Except.bind]

theorem eq_ok_of_toOption {ε α : Type} {e : Except ε α} {x : α} (h : e.toOption = some x) :
    e = .ok x := by
  cases e with
  | ok y => exact congrArg _ (Option.some.inj h)
  | error => cases h

theorem nodup_eraseDups {α : Type _} [BEq α] [LawfulBEq α] (l : List α) : l.eraseDups.Nodup := by
  induction h : l.length using Nat.strongRecOn generalizing l with
  | ind n ih =>
    cases l with
    | nil => simp
    | cons a l =>
      have hlt : (l.filter fun b ↦ !b == a).length < n := by
        have hle := List.length_filter_le (fun b ↦ !b == a) l
        simp only [List.length_cons] at h
        omega
      rw [List.eraseDups_cons]
      refine List.nodup_cons.2 ⟨fun hm ↦ ?_, ih _ hlt _ rfl⟩
      simpa using (List.mem_filter.1 (List.mem_eraseDups.1 hm)).2

namespace Normal

variable {sql : String} {n : Normal}

/-- The steps by which a normal form is found. -/
theorem ofString_eq_ok (h : Normal.ofString sql = .ok n) :
    ∃ replaced subqueries leaves masked,
      let (b, t) := Buffer.ofString sql
      Halt.result (b.replaceLiterals t) = .ok replaced ∧
      b.subqueries t = .ok subqueries ∧
      subqueries.mapM normalize = .ok leaves ∧
      Halt.result (replaced.buffer.maskNested t) = .ok masked ∧
      n = ⟨replaced.buffer.rebuild, leaves.eraseDups, masked.buffer.rebuild, b.literals t⟩ := by
  unfold Normal.ofString at h
  generalize Buffer.ofString sql = bt at h ⊢
  obtain ⟨b, t⟩ := bt
  obtain ⟨replaced, hr, h⟩ := bind_eq_ok_iff.1 h
  obtain ⟨subqueries, hs, h⟩ := bind_eq_ok_iff.1 h
  obtain ⟨leaves, hl, h⟩ := bind_eq_ok_iff.1 h
  obtain ⟨masked, hm, h⟩ := bind_eq_ok_iff.1 h
  refine ⟨replaced, subqueries, leaves, masked, hr, hs, hl, hm, ?_⟩
  exact (Except.ok.inj h).symm

theorem normalize_of_ofString (h : Normal.ofString sql = .ok n) : normalize sql = .ok n.full := by
  obtain ⟨replaced, subqueries, leaves, masked, h⟩ := ofString_eq_ok h
  unfold normalize
  generalize Buffer.ofString sql = bt at h ⊢
  obtain ⟨b, t⟩ := bt
  obtain ⟨hr, -, -, -, rfl⟩ := h
  exact bind_eq_ok_iff.2 ⟨replaced, hr, rfl⟩

theorem leaves_nodup (h : Normal.ofString sql = .ok n) : n.leaves.Nodup := by
  obtain ⟨replaced, subqueries, leaves, masked, -, -, -, -, rfl⟩ := ofString_eq_ok h
  exact nodup_eraseDups leaves

theorem full_eq_rebuild (h : Normal.ofString sql = .ok n) : ∃ b : Buffer, n.full = b.rebuild := by
  obtain ⟨replaced, subqueries, leaves, masked, -, -, -, -, rfl⟩ := ofString_eq_ok h
  exact ⟨replaced.buffer, rfl⟩

end Normal

end PlanCache

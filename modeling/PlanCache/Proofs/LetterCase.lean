import PlanCache.Text.Case

/-!
Lower case of Latin words. But for `i` and `k`, a small Latin letter is the lower case of itself and
its capital only.
-/

namespace PlanCache.Text

/-- Small Latin letters that no letter of another script has for its lower case. -/
def IsOwnLower (d : Char) : Prop :=
  0x61 ≤ d.toNat ∧ d.toNat ≤ 0x7a ∧ d.toNat ≠ 0x69 ∧ d.toNat ≠ 0x6b

instance (d : Char) : Decidable (IsOwnLower d) := inferInstanceAs (Decidable (_ ∧ _))

theorem forall_isOwnLower {w : List Char} (h : w.all (IsOwnLower ·) = true) :
    ∀ d ∈ w, IsOwnLower d := by
  simpa only [List.all_eq_true, decide_eq_true_eq] using h

theorem lowerRuns_tail : ∀ run ∈ lowerRuns.tail, 0x80 ≤ run.1 ∧
    (0x7a < run.1 + run.2.2.2 ∨ run.1 = run.2.1 ∧ run.1 + run.2.2.2 = 0x6b) := by
  decide +kernel

theorem mapRuns_lowerRuns {n m : Nat} (h : mapRuns lowerRuns n = some m) :
    (0x41 ≤ n ∧ n ≤ 0x5a ∧ m = n + 32) ∨ 0x80 ≤ n ∧ (m = 0x6b ∨ 0x7a < m) := by
  obtain ⟨⟨first, last, step, shift⟩, hf, rfl⟩ := Option.map_eq_some_iff.1 h
  have hm := List.mem_of_find?_eq_some hf
  have hp := List.find?_some hf
  simp only [Bool.and_eq_true, decide_eq_true_eq] at hp
  have hcons : lowerRuns = (0x41, 0x5a, 1, 32) :: lowerRuns.tail := rfl
  rw [hcons, List.mem_cons] at hm
  dsimp only
  rcases hm with he | ht
  · simp only [Prod.mk.injEq] at he
    omega
  · have hrun := lowerRuns_tail _ ht
    dsimp only at hrun
    omega

theorem mapRuns_lowerRuns_none {n : Nat} (h : mapRuns lowerRuns n = none) :
    ¬(0x41 ≤ n ∧ n ≤ 0x5a) := by
  intro hn
  have hf := List.find?_eq_none.1 (Option.map_eq_none_iff.1 h) (0x41, 0x5a, 1, 32) (by decide)
  simp only [Nat.mod_one, Bool.and_eq_true, decide_eq_true_eq, BEq.rfl, and_true] at hf
  exact hf hn

theorem toNat_toLower (c : Char) :
    c.toLower.toNat = if 0x41 ≤ c.toNat ∧ c.toNat ≤ 0x5a then c.toNat + 32 else c.toNat := by
  unfold Char.toLower
  split <;> rename_i h
  · have hc : 0x41 ≤ c.toNat ∧ c.toNat ≤ 0x5a := h
    have hlt : c.toNat + 32 < 2 ^ 32 := by omega
    rw [if_pos hc]
    exact (UInt32.toNat_add c.val 32).trans (Nat.mod_eq_of_lt hlt)
  · exact (if_neg h).symm

theorem toNat_ofNat (n : Nat) :
    (Char.ofNat n).toNat = n ∨ (Char.ofNat n).toNat = 0 ∧ 0xd800 ≤ n := by
  by_cases h : n.isValidChar
  · have hc : Char.ofNat n = Char.ofNatAux n h := dif_pos h
    exact .inl (congrArg Char.toNat hc)
  · have hc : Char.ofNat n = '\x00' := dif_neg h
    exact .inr ⟨congrArg Char.toNat hc, Nat.le_of_not_lt fun hn ↦ h (.inl hn)⟩

theorem ofNat_eq_iff {c d : Char} {n : Nat} (hd : IsOwnLower d)
    (hn : mapRuns lowerRuns c.toNat = some n) : Char.ofNat n = d ↔ c.toLower = d := by
  have hm := mapRuns_lowerRuns hn
  have hl := toNat_toLower c
  have ho := toNat_ofNat n
  obtain ⟨h₁, h₂, h₃, h₄⟩ := hd
  rw [← Char.toNat_inj, ← Char.toNat_inj]
  split at hl <;> omega

theorem self_eq_iff {c d : Char} (hn : mapRuns lowerRuns c.toNat = none) :
    c = d ↔ c.toLower = d := by
  have hl := toNat_toLower c
  rw [if_neg (mapRuns_lowerRuns_none hn)] at hl
  rw [← Char.toNat_inj, ← Char.toNat_inj, hl]

theorem lowerChar_append_eq_iff {before after rest w : List Char} {c d : Char}
    (hd : IsOwnLower d) :
    lowerChar before c after ++ rest = d :: w ↔ c.toLower = d ∧ rest = w := by
  have hne : ∀ x : Char, ¬IsOwnLower x → x ≠ d := by
    rintro x hx rfl
    exact hx hd
  unfold lowerChar
  split <;> rename_i hs
  · obtain rfl := eq_of_beq hs
    have hsigma : (if meetsCased before && !meetsCased after then 'ς' else 'σ') ≠ d := by
      split
      · exact hne 'ς' (by decide)
      · exact hne 'σ' (by decide)
    rw [List.singleton_append, List.cons.injEq]
    exact iff_of_false (fun h ↦ hsigma h.1) fun h ↦ hne 'Σ' (by decide) h.1
  · split <;> rename_i hi
    · obtain rfl := eq_of_beq hi
      rw [List.cons_append, List.cons.injEq]
      exact iff_of_false (fun h ↦ hne 'i' (by decide) h.1) fun h ↦ hne 'İ' (by decide) h.1
    · split <;> rename_i hn
      · rw [List.singleton_append, List.cons.injEq, ofNat_eq_iff hd hn]
      · rw [List.singleton_append, List.cons.injEq, self_eq_iff hn]

theorem lowerChar_ne_nil (before : List Char) (c : Char) (after : List Char) :
    lowerChar before c after ≠ [] := by
  unfold lowerChar
  split
  · simp
  · split
    · simp
    · split <;> simp

theorem lowerAfter_eq_iff {before cs w : List Char} (hw : ∀ d ∈ w, IsOwnLower d) :
    lowerAfter before cs = w ↔ cs.map Char.toLower = w := by
  induction cs generalizing before w with
  | nil => rfl
  | cons c cs ih =>
    rw [lowerAfter, List.map_cons]
    cases w with
    | nil => simp [lowerChar_ne_nil]
    | cons d w =>
      rw [lowerChar_append_eq_iff (hw d List.mem_cons_self), List.cons.injEq,
        ih fun x hx ↦ hw x (List.mem_cons_of_mem d hx)]

/-- A text has such a word for its lower case exactly if it is that word in Latin letters of either
case. -/
theorem lower_eq_iff {cs w : List Char} (hw : ∀ d ∈ w, IsOwnLower d) :
    lower cs = w ↔ cs.map Char.toLower = w := lowerAfter_eq_iff hw

end PlanCache.Text

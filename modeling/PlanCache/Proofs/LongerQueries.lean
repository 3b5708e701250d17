import PlanCache.Plan.Complexity

/-!
Queries with more text around them. What is counted from the left is the greatest number of
occurrences that do not overlap, and a space between two texts parts their words and the letters
whose case depends on their neighbours. So neither of two texts joined by a space is more complex
than both together.
-/

namespace PlanCache

namespace Text

/-- A text holds `n` occurrences of `p`, no two of which overlap. -/
inductive Packs (p : List Char) : Nat → List Char → Prop where
  | zero (s : List Char) : Packs p 0 s
  | next (before : List Char) {n : Nat} {rest : List Char} :
      Packs p n rest → Packs p (n + 1) (before ++ (p ++ rest))

namespace Packs

variable {p s t : List Char} {m n : Nat}

theorem prepend (h : Packs p n s) (t : List Char) : Packs p n (t ++ s) := by
  cases h with
  | zero => exact .zero _
  | next before h =>
    rw [← List.append_assoc]
    exact .next (t ++ before) h

/-- The occurrences in two texts are occurrences in both together. -/
theorem append (hs : Packs p m s) (ht : Packs p n t) : Packs p (n + m) (s ++ t) := by
  induction hs with
  | zero s => exact ht.prepend s
  | next before _ ih =>
    rw [List.append_assoc, List.append_assoc]
    exact .next before ih

/-- A piece cut off in front, no longer than `p`, takes away one occurrence at most. -/
theorem drop (h : Packs p (n + 1) s) {k : Nat} (hk : k ≤ p.length) : Packs p n (s.drop k) := by
  cases h with
  | next before h =>
    have hle : k ≤ (before ++ p).length := by
      rw [List.length_append]
      omega
    rw [← List.append_assoc, List.drop_append_of_le_length hle]
    exact h.prepend _

theorem tail_of_not_prefix {c : Char} (h : Packs p n (c :: s)) (hp : ¬ p <+: c :: s) :
    Packs p n s := by
  generalize hcs : c :: s = cs at h
  cases h with
  | zero => exact .zero s
  | next before h =>
    cases before with
    | nil => exact absurd (hcs ▸ List.prefix_append p _) hp
    | cons b before =>
      obtain ⟨-, rfl⟩ := List.cons.inj hcs
      exact .next before h

theorem eq_zero (h : Packs p n []) (hp : p ≠ []) : n = 0 := by
  generalize hs : [] = s at h
  cases h with
  | zero => rfl
  | next before h => simp [hp] at hs

end Packs

section Count

variable {p : List Char}

theorem isSome_after?_iff {s : List Char} : (after? p s).isSome = true ↔ p <+: s := by
  rw [Option.isSome_iff_exists]
  exact exists_congr fun r ↦ after?_eq_some_iff.trans eq_comm

/-- What is left of a text behind `p`, counted from its second character. -/
theorem drop_of_cons_eq {c : Char} {cs rest : List Char} (hp : p ≠ []) (h : p ++ rest = c :: cs) :
    cs.drop (p.length - 1) = rest := by
  cases p with
  | nil => exact absurd rfl hp
  | cons a p =>
    obtain ⟨-, rfl⟩ := List.cons.inj h
    exact List.drop_left

theorem packs_countAfter (hp : p ≠ []) (skip : Nat) (s : List Char) :
    Packs p (countAfter p skip s) (s.drop skip) := by
  induction s generalizing skip with
  | nil => exact .zero _
  | cons c cs ih =>
    cases skip with
    | succ skip => exact ih skip
    | zero =>
      rw [countAfter]
      split
      · rename_i hocc
        obtain ⟨rest, hrest⟩ := isSome_after?_iff.1 hocc
        have hcs := ih (p.length - 1)
        rw [drop_of_cons_eq hp hrest] at hcs
        rw [List.drop_zero, ← hrest]
        exact .next [] hcs
      · exact (ih 0).prepend [c]

/-- Occurrences taken from the left are as many as there can be. -/
theorem Packs.le_countAfter (hp : p ≠ []) {skip n : Nat} {s : List Char}
    (h : Packs p n (s.drop skip)) : n ≤ countAfter p skip s := by
  induction s generalizing skip n with
  | nil =>
    rw [List.drop_nil] at h
    exact Nat.le_of_eq (h.eq_zero hp)
  | cons c cs ih =>
    cases skip with
    | succ skip => exact ih h
    | zero =>
      rw [List.drop_zero] at h
      rw [countAfter]
      split
      · rename_i hocc
        obtain ⟨rest, hrest⟩ := isSome_after?_iff.1 hocc
        cases n with
        | zero => exact Nat.zero_le _
        | succ n =>
          have hcut := h.drop (Nat.le_refl p.length)
          rw [← hrest, List.drop_left, ← drop_of_cons_eq hp hrest] at hcut
          exact Nat.succ_le_succ (ih hcut)
      · rename_i hocc
        exact ih (h.tail_of_not_prefix fun hpre ↦ hocc (isSome_after?_iff.2 hpre))

theorem count_add_le {word : String} (hw : word.toList ≠ []) (s t : List Char) :
    count word s + count word t ≤ count word (s ++ t) := by
  have hs : Packs word.toList (count word s) s := packs_countAfter hw 0 s
  have ht : Packs word.toList (count word t) t := packs_countAfter hw 0 t
  rw [Nat.add_comm]
  exact (hs.append ht).le_countAfter hw

end Count

section Space

theorem meetsCased_cons (c : Char) (cs : List Char) :
    meetsCased (c :: cs) =
      if within ignorableBounds c.toNat then meetsCased cs else within casedBounds c.toNat := by
  by_cases hc : within ignorableBounds c.toNat = true <;> simp [meetsCased, hc]

/-- A space hides what stands behind it from the letters before it. -/
theorem meetsCased_space (cs rest : List Char) : meetsCased (cs ++ ' ' :: rest) = meetsCased cs := by
  induction cs with
  | nil =>
    have hspace : within ignorableBounds ' '.toNat = false := rfl
    rw [List.nil_append, meetsCased_cons, hspace]
    rfl
  | cons c cs ih => rw [List.cons_append, meetsCased_cons, meetsCased_cons, ih]

theorem lowerChar_space_after (before cs rest : List Char) (c : Char) :
    lowerChar before c (cs ++ ' ' :: rest) = lowerChar before c cs := by
  unfold lowerChar
  rw [meetsCased_space]

theorem lowerChar_space_before (before rest cs : List Char) (c : Char) :
    lowerChar (before ++ ' ' :: rest) c cs = lowerChar before c cs := by
  unfold lowerChar
  rw [meetsCased_space]

theorem lowerAfter_space_before (before rest cs : List Char) :
    lowerAfter (before ++ ' ' :: rest) cs = lowerAfter before cs := by
  induction cs generalizing before with
  | nil => rfl
  | cons c cs ih =>
    rw [lowerAfter, lowerAfter, lowerChar_space_before]
    exact congrArg _ (ih (c :: before))

theorem lowerAfter_space (before cs rest : List Char) :
    lowerAfter before (cs ++ ' ' :: rest) = lowerAfter before cs ++ ' ' :: lower rest := by
  induction cs generalizing before with
  | nil =>
    have hspace : lowerChar before ' ' rest = [' '] := rfl
    have hrest : lowerAfter (' ' :: before) rest = lower rest := lowerAfter_space_before [] before rest
    change lowerChar before ' ' rest ++ lowerAfter (' ' :: before) rest = ' ' :: lower rest
    rw [hspace, hrest]
    rfl
  | cons c cs ih =>
    rw [List.cons_append, lowerAfter, lowerAfter, lowerChar_space_after, ih, List.append_assoc]

/-- Texts joined by a space have their lower case each for itself. -/
theorem lower_space (cs rest : List Char) : lower (cs ++ ' ' :: rest) = lower cs ++ ' ' :: lower rest :=
  lowerAfter_space [] cs rest

theorem wordsAfter_space (run cs rest : List Char) :
    wordsAfter run (cs ++ ' ' :: rest) = wordsAfter run cs ++ words rest := by
  induction cs generalizing run with
  | nil =>
    have hspace : isWord ' ' = false := rfl
    rw [List.nil_append, wordsAfter, wordsAfter, hspace]
    cases run <;> rfl
  | cons c cs ih =>
    rw [List.cons_append, wordsAfter, wordsAfter]
    split
    · exact ih _
    · split
      · exact ih _
      · rw [ih, List.cons_append]

theorem words_space (cs rest : List Char) : words (cs ++ ' ' :: rest) = words cs ++ words rest :=
  wordsAfter_space [] cs rest

end Space

end Text

namespace Complexity

theorem weigh_add_le (s t : List Char) : weigh s + weigh t ≤ weigh (s ++ t) := by
  have hwords : (weights.all fun w ↦ !w.1.toList.isEmpty) = true := by decide
  unfold weigh
  generalize weights = ws at hwords
  induction ws with
  | nil => exact Nat.le_refl _
  | cons w ws ih =>
    obtain ⟨word, weight⟩ := w
    rw [List.all_cons, Bool.and_eq_true] at hwords
    have hword : word.toList ≠ [] := by simpa using hwords.1
    have hcount := Nat.mul_le_mul_right weight (Text.count_add_le hword s t)
    rw [Nat.add_mul] at hcount
    have hrest := ih hwords.2
    rw [List.foldr_cons, List.foldr_cons, List.foldr_cons]
    dsimp only at hrest ⊢
    omega

theorem weigh_space (s t : List Char) : weigh s + weigh t ≤ weigh (s ++ ' ' :: t) := by
  have hs := weigh_add_le s (' ' :: t)
  have ht : weigh [' '] + weigh t ≤ weigh (' ' :: t) := weigh_add_le [' '] t
  omega

theorem usesAggregate_space (s t : List Char) :
    usesAggregate (s ++ ' ' :: t) = (usesAggregate s || usesAggregate t) := by
  rw [usesAggregate, Text.words_space, List.any_append]
  rfl

end Complexity

open Complexity

/-- What weighs no more and uses functions on groups only where the other does is no more complex. -/
theorem complexity_le {q r : String}
    (hweigh : weigh (Text.lower q.toList) ≤ weigh (Text.lower r.toList))
    (huses : usesAggregate (Text.lower q.toList) = true →
      usesAggregate (Text.lower r.toList) = true) : complexity q ≤ complexity r := by
  unfold complexity
  dsimp only
  cases hq : usesAggregate (Text.lower q.toList) with
  | false =>
    rw [if_neg Bool.false_ne_true]
    omega
  | true =>
    rw [huses hq]
    omega

/-- No query is less complex for more text around it, and none is less complex than 1. -/
theorem complexity_le_join (q r : String) :
    1 ≤ complexity q ∧ complexity q ≤ complexity (q ++ " " ++ r) ∧
      complexity r ≤ complexity (q ++ " " ++ r) := by
  have hlower : Text.lower (q ++ " " ++ r).toList =
      Text.lower q.toList ++ ' ' :: Text.lower r.toList := by
    rw [← Text.lower_space]
    simp
  have hweigh := weigh_space (Text.lower q.toList) (Text.lower r.toList)
  have huses := usesAggregate_space (Text.lower q.toList) (Text.lower r.toList)
  rw [← hlower] at hweigh huses
  refine ⟨Nat.le_max_left _ _, complexity_le (by omega) fun hq ↦ ?_,
    complexity_le (by omega) fun hr ↦ ?_⟩
  · rw [huses, hq, Bool.true_or]
  · rw [huses, hr, Bool.or_true]

end PlanCache

import PlanCache.Proofs.Lexing

/-!
Which token stands at the head of a text: the longest text that some rule accepts, as the kind of
the first rule that accepts it. The rules that are still in the race after some characters are those
that can accept a text that begins with them.
-/

namespace PlanCache

namespace LexRule

open Regex

/-- A rule takes a text that is followed by `rest`. -/
def Accepts (r : LexRule) (text rest : List Char) : Prop :=
  Matches r.text text ∨ rest = [] ∧ Matches r.atEnd text

/-- No rule takes a text. -/
def Refused (text rest : List Char) : Prop := ∀ r ∈ all, ¬r.Accepts text rest

/-- The first rule of a list that takes a text is of the kind `k`. -/
def FirstOf (rules : List LexRule) (text rest : List Char) (k : Kind) : Prop :=
  ∃ before r after, rules = before ++ r :: after ∧ r.kind = k ∧ r.Accepts text rest ∧
    ∀ r' ∈ before, ¬r'.Accepts text rest

/-- What is left of rules after a text, without those that cannot take more than this text. -/
inductive Left (before : List Char) : List LexRule → List LexRule → Prop where
  | nil : Left before [] []
  | keep {r left : LexRule} {rs ls : List LexRule} :
      Remains before r left → Left before rs ls → Left before (r :: rs) (left :: ls)
  | drop {r : LexRule} {rs ls : List LexRule} :
      (∀ s, ¬Matches r.text (before ++ s) ∧ ¬Matches r.atEnd (before ++ s)) →
        Left before rs ls → Left before (r :: rs) ls

variable {before rest cs : List Char} {c : Char} {r left : LexRule} {rs ls : List LexRule}
  {k k' : Kind} {n : Nat} {best : Option (Kind × Nat)}

theorem Remains.accepts_iff (h : Remains before r left) :
    r.Accepts before rest ↔ left.done rest = true := by
  unfold Accepts done
  rw [Bool.or_eq_true, Bool.and_eq_true, ← matches_nil, ← matches_nil, h.text, h.atEnd,
    List.append_nil, List.isEmpty_iff]

theorem not_matches_of_after (h : left.after c = none) (s : List Char) :
    ¬Matches left.text (c :: s) ∧ ¬Matches left.atEnd (c :: s) := by
  have never : ∀ {a : Regex}, a.isNever = true → ¬Matches a s := by
    intro a ha
    cases a with
    | never => exact not_matches_never
    | _ => cases ha
  unfold LexRule.after at h
  dsimp only at h
  split at h
  case isTrue hn =>
    rw [Bool.and_eq_true] at hn
    rw [← matches_deriv, ← matches_deriv]
    exact ⟨never hn.1, never hn.2⟩
  case isFalse => cases h

theorem Left.after (h : Left before rs ls) (c : Char) :
    Left (before ++ [c]) rs (ls.filterMap (LexRule.after c)) := by
  induction h with
  | nil => exact .nil
  | @keep r left rs ls hr _ ih =>
    cases ha : left.after c with
    | some next =>
      rw [List.filterMap_cons_some ha]
      exact .keep (hr.after ha) ih
    | none =>
      rw [List.filterMap_cons_none ha]
      refine .drop (fun s ↦ ?_) ih
      rw [List.append_assoc, List.singleton_append, ← hr.text, ← hr.atEnd]
      exact not_matches_of_after ha s
  | drop hr _ ih =>
    refine .drop (fun s ↦ ?_) ih
    rw [List.append_assoc]
    exact hr _

theorem Left.not_accepts (h : Left before rs ls) (hf : ls.find? (done rest) = none) :
    ∀ r ∈ rs, ¬r.Accepts before rest := by
  induction h with
  | nil => simp
  | @keep r left rs ls hr _ ih =>
    rw [List.find?_cons] at hf
    split at hf
    · cases hf
    · rename_i hd
      rw [List.forall_mem_cons, hr.accepts_iff, hd]
      exact ⟨by decide, ih hf⟩
  | @drop r rs ls hr _ ih =>
    rw [List.forall_mem_cons]
    refine ⟨?_, ih hf⟩
    have hr := hr []
    rw [List.append_nil] at hr
    rintro (hm | ⟨-, hm⟩)
    · exact hr.1 hm
    · exact hr.2 hm

theorem Left.firstOf (h : Left before rs ls) (hf : ls.find? (done rest) = some left) :
    FirstOf rs before rest left.kind := by
  induction h with
  | nil => cases hf
  | @keep r left' rs ls hr _ ih =>
    rw [List.find?_cons] at hf
    split at hf
    · rename_i hd
      cases hf
      exact ⟨[], r, rs, rfl, hr.kind.symm, hr.accepts_iff.2 hd, nofun⟩
    · rename_i hd
      obtain ⟨pre, r', post, rfl, hk, ha, hn⟩ := ih hf
      refine ⟨r :: pre, r', post, rfl, hk, ha, List.forall_mem_cons.2 ⟨?_, hn⟩⟩
      rw [hr.accepts_iff, hd]
      decide
  | @drop r rs ls hr _ ih =>
    obtain ⟨pre, r', post, rfl, hk, ha, hn⟩ := ih hf
    refine ⟨r :: pre, r', post, rfl, hk, ha, List.forall_mem_cons.2 ⟨?_, hn⟩⟩
    have hr := hr []
    rw [List.append_nil] at hr
    rintro (hm | ⟨-, hm⟩)
    · exact hr.1 hm
    · exact hr.2 hm

theorem Left.refused (h : Left before rs []) (s rest : List Char) :
    ∀ r ∈ rs, ¬r.Accepts (before ++ s) rest := by
  generalize hl : ([] : List LexRule) = ls at h
  induction h with
  | nil => simp
  | keep => cases hl
  | @drop r rs ls hr _ ih =>
    rw [List.forall_mem_cons]
    refine ⟨?_, ih hl⟩
    rintro (hm | ⟨-, hm⟩)
    · exact (hr s).1 hm
    · exact (hr s).2 hm

/-- What comes of a race that has got as far as `before`: the longest text that is taken wins, or
else the best so far stays the best. -/
def Outcome (before rest : List Char) (n : Nat) (best result : Option (Kind × Nat)) : Prop :=
  (∃ k m, result = some (k, n + m) ∧ m ≤ rest.length ∧
    FirstOf all (before ++ rest.take m) (rest.drop m) k ∧
    ∀ m', m < m' → m' ≤ rest.length → Refused (before ++ rest.take m') (rest.drop m')) ∨
  (result = best ∧ ∀ m, m ≤ rest.length → Refused (before ++ rest.take m) (rest.drop m))

/-- The best so far, with the text that has just been read. -/
def bestWith (ls : List LexRule) (rest : List Char) (n : Nat) (best : Option (Kind × Nat)) :
    Option (Kind × Nat) :=
  match ls.find? (done rest) with
  | some r => some (r.kind, n)
  | none => best

theorem bestWith_of_some (hf : ls.find? (done rest) = some left) :
    bestWith ls rest n best = some (left.kind, n) := by
  rw [bestWith, hf]

theorem bestWith_of_none (hf : ls.find? (done rest) = none) :
    bestWith ls rest n best = best := by
  rw [bestWith, hf]

theorem race_nil : race ls [] n best = bestWith ls [] n best := by
  rw [race]
  rfl

theorem race_cons_of_nil (hl : ls.filterMap (LexRule.after c) = []) :
    race ls (c :: cs) n best = bestWith ls (c :: cs) n best := by
  rw [race, hl]
  rfl

theorem race_cons_of_ne_nil (hl : ls.filterMap (LexRule.after c) ≠ []) :
    race ls (c :: cs) n best =
      race (ls.filterMap (LexRule.after c)) cs (n + 1) (bestWith ls (c :: cs) n best) := by
  rw [race]
  split
  · exact absurd ‹_› hl
  · rfl

/-- No longer text than `before` is taken. -/
theorem Outcome.of_refused (h : Left before all ls)
    (hr : ∀ m, 0 < m → m ≤ rest.length → Refused (before ++ rest.take m) (rest.drop m)) :
    Outcome before rest n best (bestWith ls rest n best) := by
  cases hf : ls.find? (done rest) with
  | some left =>
    rw [bestWith_of_some hf]
    exact .inl ⟨left.kind, 0, rfl, Nat.zero_le _, by simpa using h.firstOf hf, hr⟩
  | none =>
    rw [bestWith_of_none hf]
    refine .inr ⟨rfl, fun m hm ↦ ?_⟩
    cases m with
    | zero => simpa [Refused] using h.not_accepts hf
    | succ m => exact hr (m + 1) (Nat.succ_pos m) hm

theorem Outcome.of_tail (h : Left before all ls) {result : Option (Kind × Nat)}
    (hr : Outcome (before ++ [c]) cs (n + 1) (bestWith ls (c :: cs) n best) result) :
    Outcome before (c :: cs) n best result := by
  unfold Outcome at hr
  simp only [List.append_assoc, List.singleton_append] at hr
  rcases hr with ⟨k, m, rfl, hm, hfirst, hnone⟩ | ⟨rfl, hnone⟩
  · refine .inl ⟨k, m + 1, by rw [Nat.add_assoc, Nat.add_comm 1], Nat.succ_le_succ hm, hfirst, ?_⟩
    intro m' hlt hle
    cases m' with
    | zero => exact absurd hlt (Nat.not_lt_zero _)
    | succ m' => exact hnone m' (Nat.lt_of_succ_lt_succ hlt) (Nat.le_of_succ_le_succ hle)
  · refine .of_refused h fun m hpos hle ↦ ?_
    cases m with
    | zero => exact absurd hpos (Nat.lt_irrefl 0)
    | succ m => exact hnone m (Nat.le_of_succ_le_succ hle)

theorem race_outcome (h : Left before all ls) :
    Outcome before rest n best (race ls rest n best) := by
  induction rest generalizing before ls n best with
  | nil =>
    rw [race_nil]
    exact .of_refused h fun m hpos hle ↦ absurd hle (Nat.not_le_of_lt hpos)
  | cons c cs ih =>
    by_cases hl : ls.filterMap (LexRule.after c) = []
    · rw [race_cons_of_nil hl]
      refine .of_tail h (.inr ⟨rfl, fun m _ ↦ ?_⟩)
      have hleft := h.after c
      rw [hl] at hleft
      exact hleft.refused _ _
    · rw [race_cons_of_ne_nil hl]
      exact .of_tail h (ih (h.after c))

/-- The token at the head of a text has the kind `k` and the length `n`. -/
structure IsLongest (cs : List Char) (k : Kind) (n : Nat) : Prop where
  pos : 0 < n
  le : n ≤ cs.length
  first : FirstOf all (cs.take n) (cs.drop n) k
  none_longer : ∀ m, n < m → m ≤ cs.length → Refused (cs.take m) (cs.drop m)

theorem left_all : Left [] all all := by
  have hr : ∀ rs : List LexRule, Left [] rs rs := by
    intro rs
    induction rs with
    | nil => exact .nil
    | cons r rs ih => exact .keep ⟨rfl, fun _ ↦ .rfl, fun _ ↦ .rfl⟩ ih
  exact hr all

theorem stray_mem_all : { kind := .stray, text := any : LexRule } ∈ all :=
  List.mem_append_right _ (by simp)

theorem isLongest_longest (c : Char) (cs : List Char) :
    IsLongest (c :: cs) (longest (c :: cs)).1 (longest (c :: cs)).2 := by
  have hone : ¬Refused ((c :: cs).take 1) ((c :: cs).drop 1) := fun hr ↦
    hr _ stray_mem_all (.inl (.char rfl))
  have houtcome : Outcome [] (c :: cs) 0 none (race all (c :: cs) 0 none) := race_outcome left_all
  rcases houtcome with ⟨k, m, hrace, hm, hfirst, hnone⟩ | ⟨-, hnone⟩
  · rw [Nat.zero_add] at hrace
    cases m with
    | zero => exact absurd (hnone 1 Nat.one_pos (by simp)) hone
    | succ m =>
      have hl : longest (c :: cs) = (k, m + 1) := by
        unfold longest
        rw [hrace]
      rw [hl]
      exact ⟨Nat.succ_pos m, hm, hfirst, hnone⟩
  · exact absurd (hnone 1 (by simp)) hone

theorem FirstOf.accepted {text : List Char} (h : FirstOf all text rest k) : ¬Refused text rest := by
  obtain ⟨pre, r, post, hall, -, ha, -⟩ := h
  intro hr
  exact hr r (by rw [hall]; simp) ha

theorem FirstOf.unique {text : List Char} (h : FirstOf rs text rest k)
    (h' : FirstOf rs text rest k') : k = k' := by
  obtain ⟨pre, r, post, rfl, rfl, ha, hn⟩ := h
  obtain ⟨pre', r', post', he, rfl, ha', hn'⟩ := h'
  rcases List.append_eq_append_iff.1 he with ⟨as, rfl, has⟩ | ⟨as, rfl, has⟩
  · cases as with
    | nil => rw [(List.cons.inj has).1]
    | cons a as =>
      obtain ⟨rfl, -⟩ := List.cons.inj has
      exact absurd ha (hn' r (by simp))
  · cases as with
    | nil => rw [(List.cons.inj has).1]
    | cons a as =>
      obtain ⟨rfl, -⟩ := List.cons.inj has
      exact absurd ha' (hn r' (by simp))

theorem FirstOf.exists_rule {text : List Char} (h : FirstOf all text rest k) :
    ∃ r ∈ all, r.kind = k ∧ r.Accepts text rest := by
  obtain ⟨before, r, after, hall, hk, ha, -⟩ := h
  exact ⟨r, by simp [hall], hk, ha⟩

theorem IsLongest.firstOf {text : List Char} (h : IsLongest (text ++ rest) k text.length) :
    FirstOf all text rest k := by
  have hfirst := h.first
  rwa [List.take_left, List.drop_left] at hfirst

theorem IsLongest.ne_eof (h : IsLongest cs k n) : k ≠ .eof := by
  have hkinds : all.all (·.kind != .eof) = true := by decide +kernel
  obtain ⟨r, hr, rfl, -⟩ := h.first.exists_rule
  simpa using List.all_eq_true.1 hkinds r hr

theorem IsLongest.longest_eq (h : IsLongest cs k n) : longest cs = (k, n) := by
  cases cs with
  | nil =>
    have hle := h.le
    have hpos := h.pos
    simp only [List.length_nil] at hle
    omega
  | cons c cs =>
    have h' := isLongest_longest c cs
    generalize longest (c :: cs) = found at h' ⊢
    obtain ⟨k', n'⟩ := found
    dsimp only at h'
    rcases Nat.lt_trichotomy n n' with hlt | rfl | hlt
    · exact absurd (h.none_longer n' hlt h'.le) h'.first.accepted
    · rw [h'.first.unique h.first]
    · exact absurd (h'.none_longer n hlt h.le) h.first.accepted

end LexRule

end PlanCache

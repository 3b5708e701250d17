import PlanCache.Proofs.Stretches

/-!
Runs of placeholders in brackets. However many placeholders stand in one pair of brackets, the text
that is left when lists and runs are shortened is the same, whatever stands before and behind.
-/

namespace PlanCache

namespace Text

variable {read : Option Char → List Char → Option (Nat × List Char)} {T : List Char → Prop}

/-- What is recognised before a text of the form `T` ends before it, whichever text it is. -/
def Stops (read : Option Char → List Char → Option (Nat × List Char)) (T : List Char → Prop) :
    Prop :=
  ∀ before c cs, ∃ r : Option (Nat × List Char), (∀ n new, r = some (n, new) → n ≤ cs.length + 1) ∧
    ∀ t, T t → read before (c :: cs ++ t) = r

theorem getLast?_cons_or (c : Char) (cs : List Char) (before : Option Char) :
    (c :: cs).getLast?.or before = cs.getLast?.or (some c) := by
  rw [List.getLast?_cons]
  cases cs.getLast? <;> rfl

/-- What has been replaced is passed over. -/
theorem substituteAfter_skip (us vs : List Char) (before : Option Char) :
    substituteAfter read us.length before (us ++ vs) =
      substituteAfter read 0 (us.getLast?.or before) vs := by
  induction us generalizing before with
  | nil => rfl
  | cons c us ih =>
    rw [getLast?_cons_or]
    exact ih (some c)

theorem substituteAfter_of_none {c : Char} {cs : List Char} {before : Option Char}
    (h : read before (c :: cs) = none) :
    substituteAfter read 0 before (c :: cs) = c :: substituteAfter read 0 (some c) cs := by
  rw [substituteAfter, h]

/-- What begins nothing that is recognised is copied. -/
theorem substituteAfter_copy {us : List Char}
    (h : ∀ c ∈ us, ∀ before cs, read before (c :: cs) = none) (vs : List Char)
    (before : Option Char) : substituteAfter read 0 before (us ++ vs) =
      us ++ substituteAfter read 0 (us.getLast?.or before) vs := by
  induction us generalizing before with
  | nil => rfl
  | cons c us ih =>
    obtain ⟨hc, hus⟩ := List.forall_mem_cons.1 h
    rw [List.cons_append, substituteAfter_of_none (hc before _), ih hus, getLast?_cons_or,
      List.cons_append]

theorem substituteAfter_of_read {us vs new : List Char} {before : Option Char}
    (h : read before (us ++ vs) = some (us.length, new)) (hne : us ≠ []) :
    substituteAfter read 0 before (us ++ vs) = new ++ substituteAfter read 0 us.getLast? vs := by
  obtain ⟨c, us, rfl⟩ := List.exists_cons_of_ne_nil hne
  rw [List.cons_append, List.length_cons] at h
  have hlast : (c :: us).getLast? = us.getLast?.or (some c) := by
    rw [← getLast?_cons_or c us none, Option.or_none]
  simp only [List.cons_append, substituteAfter, h, substituteAfter_skip, hlast]

/-- What stands before a text of the form `T` is replaced in the same way, whichever text it is. -/
theorem Stops.substituteAfter_append (h : Stops read T) (cs : List Char) :
    ∀ skip ≤ cs.length, ∀ before, ∃ done, ∀ t, T t →
      substituteAfter read skip before (cs ++ t) =
        done ++ substituteAfter read 0 (cs.getLast?.or before) t := by
  induction cs with
  | nil =>
    intro skip hskip before
    obtain rfl : skip = 0 := Nat.le_zero.1 hskip
    exact ⟨[], fun t _ ↦ rfl⟩
  | cons c cs ih =>
    intro skip hskip before
    rw [getLast?_cons_or]
    cases skip with
    | succ n => exact ih n (Nat.le_of_succ_le_succ hskip) (some c)
    | zero =>
      obtain ⟨r, hend, hread⟩ := h before c cs
      simp only [List.cons_append] at hread ⊢
      by_cases hr : ∃ n new, r = some (n + 1, new)
      · obtain ⟨n, new, rfl⟩ := hr
        obtain ⟨done, hdone⟩ := ih n (Nat.le_of_succ_le_succ (hend _ _ rfl)) (some c)
        refine ⟨new ++ done, fun t ht ↦ ?_⟩
        simp only [substituteAfter, hread t ht, hdone t ht, List.append_assoc]
      · obtain ⟨done, hdone⟩ := ih 0 (Nat.zero_le _) (some c)
        refine ⟨c :: done, fun t ht ↦ ?_⟩
        simp only [substituteAfter, hread t ht, hdone t ht]
        split
        · exact absurd ⟨_, _, rfl⟩ hr
        · rfl

/-- What stands before a text of the form `T` is replaced as it is by itself. -/
theorem Stops.substituteAfter_append_of_nil (h : Stops read T) (hnil : T []) {t : List Char}
    (ht : T t) (cs : List Char) (before : Option Char) :
    substituteAfter read 0 before (cs ++ t) =
      substituteAfter read 0 before cs ++ substituteAfter read 0 (cs.getLast?.or before) t := by
  obtain ⟨done, hdone⟩ := h.substituteAfter_append cs 0 (Nat.zero_le _) before
  have hcs := hdone [] hnil
  rw [List.append_nil, substituteAfter, List.append_nil] at hcs
  rw [hdone t ht, hcs]

theorem trimStart_append (cs t : List Char) :
    trimStart (cs ++ t) = if (trimStart cs).isEmpty then trimStart t else trimStart cs ++ t :=
  List.dropWhile_append

theorem length_trimStart_le (cs : List Char) : (trimStart cs).length ≤ cs.length :=
  (List.dropWhile_suffix _).length_le

end Text

namespace Rebuild

open Text

/-- What follows a list of at least two placeholders in brackets. -/
def afterListed? (fuel : Nat) (opened : List Char) : Option (List Char) :=
  ((afterChar? '(' opened).bind (afterList? fuel)).bind fun x ↦ if 2 ≤ x.1 then some x.2 else none

/-- A text that neither goes on with a list or a run nor begins with a list of its own. -/
structure Bars (t : List Char) : Prop where
  letter : ∀ c ∈ t.head?, c ≠ 'N' ∧ c ≠ 'n'
  part : ∀ c ∈ (trimStart t).head?, c ≠ '?' ∧ c ≠ ',' ∧ c ≠ ')'
  list : ∀ fuel, afterListed? fuel (trimStart t) = none

section Readers

variable {cs ds t : List Char} {fuel : Nat}

theorem afterList?_of_comma (h : afterChar? '?' cs = some (',' :: ds)) :
    afterList? (fuel + 1) cs = (afterList? fuel (trimStart ds)).map fun x ↦ (x.1 + 1, x.2) := by
  rw [afterList?, h]
  simp only [Option.bind_eq_bind, Option.bind_some]
  cases afterList? fuel (trimStart ds) <;> rfl

theorem afterList?_of_close (h : afterChar? '?' cs = some (')' :: ds)) :
    afterList? (fuel + 1) cs = some (1, ds) := by
  rw [afterList?, h]
  rfl

theorem afterList?_of_other (h : ∀ es, afterChar? '?' cs ≠ some (',' :: es))
    (h' : ∀ es, afterChar? '?' cs ≠ some (')' :: es)) : afterList? fuel cs = none := by
  cases fuel with
  | zero => rfl
  | succ fuel =>
    rw [afterList?]
    cases hread : afterChar? '?' cs with
    | none => rfl
    | some ds =>
      simp only [Option.bind_eq_bind, Option.bind_some]
      split
      · exact absurd hread (h _)
      · exact absurd hread (h' _)
      · rfl

theorem afterRun?_of_close (h : afterChar? '?' cs = some (')' :: ds)) :
    afterRun? (fuel + 1) cs = some ds := by
  rw [afterRun?, h]
  rfl

theorem afterRun?_of_other (h : afterChar? '?' cs = some ds) (hne : ∀ es, ds ≠ ')' :: es) :
    afterRun? (fuel + 1) cs = afterRun? fuel ds := by
  rw [afterRun?, h]
  simp only [Option.bind_eq_bind, Option.bind_some]

theorem afterRun?_of_none (h : afterChar? '?' cs = none) : afterRun? fuel cs = none := by
  cases fuel with
  | zero => rfl
  | succ fuel =>
    rw [afterRun?, h]
    rfl

theorem afterChar?_eq_some {c : Char} (h : afterChar? c cs = some ds) :
    ∃ es, cs = c :: es ∧ ds = trimStart es := by
  cases cs with
  | nil => cases h
  | cons d es =>
    rw [afterChar?] at h
    split at h
    · rename_i hd
      exact ⟨es, by rw [beq_iff_eq.1 hd], (Option.some.inj h).symm⟩
    · cases h

/-- What bars a text does not begin with a part of a list. -/
theorem Bars.ne_cons (ht : Bars t) {c : Char} (hc : c = '?' ∨ c = ',' ∨ c = ')') (es : List Char) :
    trimStart t ≠ c :: es := by
  intro he
  obtain ⟨h₁, h₂, h₃⟩ := ht.part c (by rw [he]; rfl)
  rcases hc with rfl | rfl | rfl
  · exact h₁ rfl
  · exact h₂ rfl
  · exact h₃ rfl

/-- Reading a list ends before what bars it. -/
theorem afterList?_append (cs : List Char) : ∃ r : Option (Nat × List Char),
    (∀ n more, r = some (n, more) → more.length ≤ cs.length) ∧
      ∀ t, Bars t → ∀ fuel, cs.length < fuel → afterList? fuel (trimStart (cs ++ t)) =
        r.map fun x ↦ (x.1, x.2 ++ t) := by
  induction hlen : cs.length using Nat.strongRecOn generalizing cs with
  | ind len ih =>
    subst hlen
    have hle := length_trimStart_le cs
    simp only [trimStart_append]
    generalize trimStart cs = ds at hle ⊢
    rcases ds with - | ⟨d, ds⟩
    · refine ⟨none, nofun, fun t ht fuel _ ↦ ?_⟩
      have hnone : ∀ es, afterChar? '?' (trimStart t) ≠ some es := by
        intro es he
        obtain ⟨fs, hfs, -⟩ := afterChar?_eq_some he
        exact ht.ne_cons (.inl rfl) fs hfs
      exact afterList?_of_other (fun es ↦ hnone _) fun es ↦ hnone _
    simp only [List.isEmpty_cons, Bool.false_eq_true, if_false, List.cons_append]
    by_cases hd : d = '?'
    · subst hd
      have hread : ∀ t, afterChar? '?' ('?' :: (ds ++ t)) = some (trimStart (ds ++ t)) := fun t ↦ rfl
      have hshort := length_trimStart_le ds
      simp only [trimStart_append] at hread
      generalize trimStart ds = es at hshort hread
      rcases es with - | ⟨e, es⟩
      · refine ⟨none, nofun, fun t ht fuel _ ↦ ?_⟩
        have hread := hread t
        rw [List.isEmpty_nil, if_pos rfl] at hread
        apply afterList?_of_other
        · intro es he
          exact ht.ne_cons (.inr (.inl rfl)) es (Option.some.inj (hread.symm.trans he))
        · intro es he
          exact ht.ne_cons (.inr (.inr rfl)) es (Option.some.inj (hread.symm.trans he))
      simp only [List.isEmpty_cons, Bool.false_eq_true, if_false, List.cons_append] at hread
      simp only [List.length_cons] at hle hshort
      by_cases hcomma : e = ','
      · subst hcomma
        obtain ⟨r, hr, hlist⟩ := ih es.length (by omega) es rfl
        refine ⟨r.map fun x ↦ (x.1 + 1, x.2), fun n more hmore ↦ ?_, fun t ht fuel hfuel ↦ ?_⟩
        · obtain ⟨x, hx, he⟩ := Option.map_eq_some_iff.1 hmore
          obtain ⟨-, rfl⟩ := Prod.mk.inj he
          have := hr x.1 x.2 hx
          omega
        · obtain ⟨fuel, rfl⟩ : ∃ k, fuel = k + 1 := ⟨fuel - 1, by omega⟩
          rw [afterList?_of_comma (hread t), hlist t ht fuel (by omega), Option.map_map,
            Option.map_map]
          rfl
      by_cases hclose : e = ')'
      · subst hclose
        refine ⟨some (1, es), fun n more hmore ↦ ?_, fun t _ fuel hfuel ↦ ?_⟩
        · cases hmore
          omega
        · obtain ⟨fuel, rfl⟩ : ∃ k, fuel = k + 1 := ⟨fuel - 1, by omega⟩
          rw [afterList?_of_close (hread t)]
          rfl
      · refine ⟨none, nofun, fun t _ fuel _ ↦ ?_⟩
        apply afterList?_of_other
        · intro fs he
          exact hcomma (List.cons.inj (Option.some.inj ((hread t).symm.trans he))).1
        · intro fs he
          exact hclose (List.cons.inj (Option.some.inj ((hread t).symm.trans he))).1
    · refine ⟨none, nofun, fun t _ fuel _ ↦ ?_⟩
      have hnone : ∀ es, afterChar? '?' (d :: (ds ++ t)) ≠ some es := by
        intro es he
        obtain ⟨fs, hfs, -⟩ := afterChar?_eq_some he
        exact hd (List.cons.inj hfs).1
      exact afterList?_of_other (fun es ↦ hnone _) fun es ↦ hnone _

/-- Reading a run ends before what bars it. -/
theorem afterRun?_append (cs : List Char) : ∃ r : Option (List Char),
    (∀ more, r = some more → more.length ≤ cs.length) ∧
      ∀ t, Bars t → ∀ fuel, cs.length < fuel → afterRun? fuel (trimStart (cs ++ t)) =
        r.map (· ++ t) := by
  induction hlen : cs.length using Nat.strongRecOn generalizing cs with
  | ind len ih =>
    subst hlen
    have hle := length_trimStart_le cs
    simp only [trimStart_append]
    generalize trimStart cs = ds at hle ⊢
    rcases ds with - | ⟨d, ds⟩
    · refine ⟨none, nofun, fun t ht fuel _ ↦ afterRun?_of_none ?_⟩
      cases he : afterChar? '?' (trimStart t) with
      | none => rw [List.isEmpty_nil, if_pos rfl, he]
      | some es =>
        obtain ⟨fs, hfs, -⟩ := afterChar?_eq_some he
        exact absurd hfs (ht.ne_cons (.inl rfl) fs)
    simp only [List.isEmpty_cons, Bool.false_eq_true, if_false, List.cons_append]
    by_cases hd : d = '?'
    · subst hd
      have hread : ∀ t, afterChar? '?' ('?' :: (ds ++ t)) = some (trimStart (ds ++ t)) := fun t ↦ rfl
      simp only [List.length_cons] at hle
      by_cases hclose : ∃ es, trimStart ds = ')' :: es
      · obtain ⟨es, hes⟩ := hclose
        have hshort := length_trimStart_le ds
        rw [hes, List.length_cons] at hshort
        refine ⟨some es, fun more hmore ↦ ?_, fun t _ fuel hfuel ↦ ?_⟩
        · cases hmore
          omega
        · obtain ⟨fuel, rfl⟩ : ∃ k, fuel = k + 1 := ⟨fuel - 1, by omega⟩
          have hread := hread t
          rw [trimStart_append, hes] at hread
          rw [afterRun?_of_close hread]
          rfl
      · obtain ⟨r, hr, hrun⟩ := ih ds.length (by omega) ds rfl
        refine ⟨r, fun more hmore ↦ ?_, fun t ht fuel hfuel ↦ ?_⟩
        · have := hr more hmore
          omega
        · obtain ⟨fuel, rfl⟩ : ∃ k, fuel = k + 1 := ⟨fuel - 1, by omega⟩
          rw [← hrun t ht fuel (by omega)]
          refine afterRun?_of_other (hread t) fun es he ↦ ?_
          rw [trimStart_append] at he
          split at he
          · exact ht.ne_cons (.inr (.inr rfl)) es he
          · rename_i hne
            obtain ⟨f, fs, hfs⟩ := List.exists_cons_of_ne_nil (mt List.isEmpty_iff.2 hne)
            rw [hfs] at he
            exact hclose ⟨fs, by rw [hfs, (List.cons.inj he).1]⟩
    · refine ⟨none, nofun, fun t _ fuel _ ↦ afterRun?_of_none ?_⟩
      rw [afterChar?, if_neg (by simpa using hd)]

theorem inList?_eq (before : Option Char) (cs : List Char) : inList? before cs =
    if before.any isWord then none else
      ((afterIn? cs).bind (afterListed? cs.length)).map fun more ↦
        (cs.length - more.length, "IN ( ?? )".toList) := by
  unfold inList?
  split
  · rfl
  cases afterIn? cs with
  | none => rfl
  | some opened =>
    unfold afterListed?
    simp only [Option.bind_eq_bind, Option.bind_some]
    cases afterChar? '(' opened with
    | none => rfl
    | some x =>
      simp only [Option.bind_some]
      cases afterList? cs.length x with
      | none => rfl
      | some y =>
        simp only [Option.bind_some]
        split <;> rfl

theorem afterListed?_append (cs : List Char) : ∃ r : Option (List Char),
    ∀ t, Bars t → ∀ fuel, cs.length < fuel → afterListed? fuel (trimStart (cs ++ t)) =
      r.map (· ++ t) := by
  have hle := length_trimStart_le cs
  simp only [trimStart_append]
  generalize trimStart cs = ds at hle ⊢
  rcases ds with - | ⟨d, ds⟩
  · exact ⟨none, fun t ht fuel _ ↦ ht.list fuel⟩
  simp only [List.isEmpty_cons, Bool.false_eq_true, if_false, List.cons_append]
  simp only [List.length_cons] at hle
  by_cases hd : d = '('
  · subst hd
    obtain ⟨r, -, hlist⟩ := afterList?_append ds
    refine ⟨r.bind fun x ↦ if 2 ≤ x.1 then some x.2 else none, fun t ht fuel hfuel ↦ ?_⟩
    simp only [afterListed?, afterChar?, beq_self_eq_true, if_true, Option.bind_some,
      hlist t ht fuel (by omega)]
    cases r with
    | none => rfl
    | some x =>
      simp only [Option.map_some, Option.bind_some]
      split <;> rfl
  · refine ⟨none, fun t _ fuel _ ↦ ?_⟩
    simp only [afterListed?, afterChar?, beq_iff_eq, hd, if_false]
    rfl

/-- `IN` is read before what bars it, and what is left is the rest with white space left out. -/
theorem afterIn?_append (c : Char) (cs : List Char) : ∃ r : Option (List Char),
    (∀ more, r = some more → more.length ≤ cs.length) ∧
      ∀ t, Bars t → afterIn? (c :: cs ++ t) = r.map fun x ↦ trimStart (x ++ t) := by
  rcases cs with - | ⟨d, cs⟩
  · refine ⟨none, nofun, fun t ht ↦ ?_⟩
    cases t with
    | nil => rfl
    | cons e t =>
      obtain ⟨hN, hn⟩ := ht.letter e rfl
      simp [afterIn?, hN, hn]
  · by_cases hin : ((c == 'I' || c == 'i' || c == 'ı' || c == 'İ') && (d == 'N' || d == 'n')) = true
    · refine ⟨some cs, fun more hmore ↦ ?_, fun t _ ↦ ?_⟩
      · obtain rfl := Option.some.inj hmore
        exact Nat.le_succ _
      · rw [List.cons_append, List.cons_append, afterIn?, if_pos hin]
        rfl
    · refine ⟨none, nofun, fun t _ ↦ ?_⟩
      rw [List.cons_append, List.cons_append, afterIn?, if_neg hin]
      rfl

/-- A list is not recognised across what bars it. -/
theorem stops_inList? : Stops inList? Bars := by
  intro before c cs
  by_cases hword : before.any isWord = true
  · refine ⟨none, nofun, fun t _ ↦ ?_⟩
    rw [inList?_eq, if_pos hword]
  obtain ⟨r, hr, hin⟩ := afterIn?_append c cs
  cases r with
  | none =>
    refine ⟨none, nofun, fun t ht ↦ ?_⟩
    rw [inList?_eq, if_neg hword, hin t ht]
    rfl
  | some opened =>
    have hopened := hr opened rfl
    obtain ⟨q, hlist⟩ := afterListed?_append opened
    refine ⟨q.map fun x ↦ (cs.length + 1 - x.length, "IN ( ?? )".toList), fun k new hk ↦ ?_,
      fun t ht ↦ ?_⟩
    · obtain ⟨x, -, he⟩ := Option.map_eq_some_iff.1 hk
      have := (Prod.mk.inj he).1
      omega
    · have hfuel : opened.length < (c :: cs ++ t).length := by
        simp only [List.length_append, List.length_cons]
        omega
      rw [inList?_eq, if_neg hword, hin t ht, Option.map_some, Option.bind_some, hlist t ht _ hfuel]
      cases q with
      | none => rfl
      | some x =>
        simp only [Option.map_some, List.length_append, List.length_cons]
        rw [Nat.add_sub_add_right]

theorem stops_run? : Stops run? Bars := by
  intro before c cs
  by_cases hc : c = '('
  · subst hc
    obtain ⟨r, hr, hrun⟩ := afterRun?_append cs
    refine ⟨r.map fun x ↦ (cs.length + 1 - x.length, "( ? )".toList), fun k new hk ↦ ?_,
      fun t ht ↦ ?_⟩
    · obtain ⟨x, -, he⟩ := Option.map_eq_some_iff.1 hk
      have := (Prod.mk.inj he).1
      omega
    · have hfuel : cs.length < ('(' :: (cs ++ t)).length := by
        simp only [List.length_append, List.length_cons]
        omega
      simp only [run?, List.cons_append, afterChar?, beq_self_eq_true, if_true,
        Option.bind_eq_bind, Option.bind_some, hrun t ht _ hfuel]
      cases r with
      | none => rfl
      | some x => simp; omega
  · refine ⟨none, fun k new hk ↦ absurd hk.symm (Option.some_ne_none _), fun t _ ↦ ?_⟩
    simp only [run?, List.cons_append, afterChar?, beq_iff_eq, hc, if_false]
    rfl

end Readers

/-- `n + 1` placeholders with single spaces, and a closing bracket. -/
def marks : Nat → List Char
  | 0 => ['?', ' ', ')']
  | n + 1 => '?' :: ' ' :: marks n

/-- `n + 1` placeholders in brackets. -/
def bracketed (n : Nat) : List Char := '(' :: ' ' :: marks n

section Bracketed

variable (n : Nat) (before : Option Char) (rest : List Char)

/-- Brackets that hold nothing but placeholders hold no list. -/
theorem bars_bracketed : Bars (bracketed n ++ rest) where
  letter c hc := by
    obtain rfl := Option.some.inj hc
    decide
  part c hc := by
    obtain rfl := Option.some.inj hc
    decide
  list fuel := by
    have hread : afterChar? '(' (bracketed n ++ rest) = some (marks n ++ rest) := by
      cases n <;> rfl
    have htrim : trimStart (bracketed n ++ rest) = bracketed n ++ rest := rfl
    unfold afterListed?
    rw [htrim, hread, Option.bind_some]
    cases fuel with
    | zero => rfl
    | succ fuel => rcases n with - | - | n <;> rfl

theorem inList?_eq_none {c : Char} (hc : c ∈ ['(', ' ', '?', ')']) (before : Option Char)
    (cs : List Char) : inList? before (c :: cs) = none := by
  have hin : afterIn? (c :: cs) = none := by
    simp only [List.mem_cons, List.not_mem_nil, or_false] at hc
    cases cs <;> rcases hc with rfl | rfl | rfl | rfl <;> rfl
  rw [inList?_eq, hin]
  split <;> rfl

theorem mem_bracketed {c : Char} (h : c ∈ bracketed n) : c ∈ ['(', ' ', '?', ')'] := by
  have hmarks : ∀ k, c ∈ marks k → c ∈ ['(', ' ', '?', ')'] := by
    intro k hk
    induction k with
    | zero =>
      simp only [marks, List.mem_cons, List.not_mem_nil, or_false] at hk
      rcases hk with rfl | rfl | rfl <;> decide
    | succ k ih =>
      simp only [marks, List.mem_cons] at hk
      rcases hk with rfl | rfl | hk
      · decide
      · decide
      · exact ih hk
  simp only [bracketed, List.mem_cons] at h
  rcases h with rfl | rfl | h
  · decide
  · decide
  · exact hmarks n h

theorem getLast?_bracketed : (bracketed n).getLast? = some ')' := by
  have hmarks : ∀ k, (marks k).getLast? = some ')' := by
    intro k
    induction k with
    | zero => rfl
    | succ k ih => simp [marks, List.getLast?_cons, ih]
  simp [bracketed, List.getLast?_cons, hmarks]

theorem substituteAfter_inList?_bracketed :
    substituteAfter inList? 0 before (bracketed n ++ rest) =
      bracketed n ++ substituteAfter inList? 0 (some ')') rest := by
  rw [substituteAfter_copy fun c hc ↦ inList?_eq_none (mem_bracketed n hc), getLast?_bracketed]
  rfl

theorem afterRun?_marks {fuel : Nat} (h : n < fuel) : afterRun? fuel (marks n ++ rest) = some rest := by
  induction n generalizing fuel with
  | zero =>
    obtain ⟨fuel, rfl⟩ : ∃ k, fuel = k + 1 := ⟨fuel - 1, by omega⟩
    rfl
  | succ n ih =>
    obtain ⟨fuel, rfl⟩ : ∃ k, fuel = k + 1 := ⟨fuel - 1, by omega⟩
    have hread : afterChar? '?' (marks (n + 1) ++ rest) = some (marks n ++ rest) := by
      cases n <;> rfl
    rw [afterRun?, hread, ← ih (by omega : n < fuel)]
    cases n <;> rfl

theorem lt_length_marks : n < (marks n).length := by
  induction n with
  | zero => decide
  | succ n ih => simp only [marks, List.length_cons]; omega

theorem run?_bracketed :
    run? before (bracketed n ++ rest) = some ((bracketed n).length, "( ? )".toList) := by
  have hread : afterChar? '(' (bracketed n ++ rest) = some (marks n ++ rest) := by cases n <;> rfl
  have hlen := lt_length_marks n
  have hfuel : n < (bracketed n ++ rest).length := by
    simp only [bracketed, List.length_append, List.length_cons]
    omega
  simp only [run?, hread, Option.bind_eq_bind, Option.bind_some, afterRun?_marks n rest hfuel]
  simp

theorem substituteAfter_run?_bracketed :
    substituteAfter run? 0 before (bracketed n ++ rest) =
      "( ? )".toList ++ substituteAfter run? 0 (some ')') rest := by
  rw [substituteAfter_of_read (run?_bracketed n before rest) (List.cons_ne_nil _ _),
    getLast?_bracketed]

end Bracketed

/-- The number of placeholders in brackets does not count. -/
theorem shorten_bracketed (cs rest : List Char) (m n : Nat) :
    shorten (cs ++ (bracketed m ++ rest)) = shorten (cs ++ (bracketed n ++ rest)) := by
  obtain ⟨done, hdone⟩ := stops_inList?.substituteAfter_append cs 0 (Nat.zero_le _) none
  obtain ⟨done', hdone'⟩ := stops_run?.substituteAfter_append done 0 (Nat.zero_le _) none
  unfold shorten substitute
  rw [hdone _ (bars_bracketed m rest), hdone _ (bars_bracketed n rest),
    substituteAfter_inList?_bracketed, substituteAfter_inList?_bracketed,
    hdone' _ (bars_bracketed m _), hdone' _ (bars_bracketed n _),
    substituteAfter_run?_bracketed, substituteAfter_run?_bracketed]

/-- Words with placeholders in brackets among them. -/
theorem exists_unwords_bracketed (ws vs : List (List Char)) : ∃ cs rest, ∀ n,
    unwords (ws ++ (['('] :: List.replicate (n + 1) ['?'] ++ [')'] :: vs)) =
      cs ++ (bracketed n ++ rest) := by
  have hmarks : ∀ n, unwords (List.replicate (n + 1) ['?'] ++ [[')']]) = marks n := by
    intro n
    induction n with
    | zero => rfl
    | succ n ih =>
      rw [List.replicate_succ, List.cons_append]
      rw [List.replicate_succ, List.cons_append] at ih ⊢
      rw [unwords_cons_cons, ih]
      rfl
  have hbracketed : ∀ n, unwords (['('] :: List.replicate (n + 1) ['?'] ++ [[')']]) = bracketed n := by
    intro n
    rw [List.replicate_succ, List.cons_append, List.cons_append, unwords_cons_cons,
      ← List.cons_append, ← List.replicate_succ, hmarks]
    rfl
  have hbehind : ∃ rest, ∀ n, unwords (['('] :: List.replicate (n + 1) ['?'] ++ [')'] :: vs) =
      bracketed n ++ rest := by
    rcases vs with - | ⟨v, vs⟩
    · exact ⟨[], fun n ↦ by rw [hbracketed, List.append_nil]⟩
    · refine ⟨' ' :: unwords (v :: vs), fun n ↦ ?_⟩
      have hsplit : ['('] :: List.replicate (n + 1) ['?'] ++ [')'] :: v :: vs =
          (['('] :: List.replicate (n + 1) ['?'] ++ [[')']]) ++ v :: vs := by simp
      rw [hsplit, unwords_append (by simp) (by simp), hbracketed]
  obtain ⟨rest, hrest⟩ := hbehind
  rcases ws with - | ⟨w, ws⟩
  · exact ⟨[], rest, hrest⟩
  · refine ⟨unwords (w :: ws) ++ [' '], rest, fun n ↦ ?_⟩
    rw [unwords_append (by simp) (by simp), hrest]
    simp

end Rebuild

theorem inked_of_shown? {c : Cell} {w : String} (h : shown? c = some w)
    (hw : Text.allBlank w = false) : inked [c] = [Text.squeeze w.toList] := by
  simp [inked, h, hw]

/-- Cells with nothing but placeholders. -/
theorem exists_inked_eq_replicate {cells : List Cell}
    (honly : ∀ c ∈ cells, ∀ w, shown? c = some w → w = placeholder ∨ Text.allBlank w = true)
    (hmark : ∃ c ∈ cells, shown? c = some placeholder) :
    ∃ n, inked cells = List.replicate (n + 1) ['?'] := by
  have hplain : Text.allBlank placeholder = false := by decide +kernel
  have hword : Text.squeeze placeholder.toList = ['?'] := by decide +kernel
  have hall : ∀ w ∈ inked cells, w = ['?'] := by
    intro w hw
    obtain ⟨x, hx, rfl⟩ := List.mem_map.1 hw
    obtain ⟨hx, hinked⟩ := List.mem_filter.1 hx
    obtain ⟨c, hc, hshown⟩ := List.mem_filterMap.1 hx
    rcases honly c hc x hshown with rfl | hblank
    · exact hword
    · rw [hblank] at hinked
      cases hinked
  have hmem : ['?'] ∈ inked cells := by
    obtain ⟨c, hc, hshown⟩ := hmark
    refine List.mem_map.2 ⟨placeholder, List.mem_filter.2 ⟨?_, by rw [hplain]; rfl⟩, hword⟩
    exact List.mem_filterMap.2 ⟨c, hc, hshown⟩
  have hpos := List.length_pos_of_mem hmem
  refine ⟨(inked cells).length - 1, List.eq_replicate_iff.2 ⟨?_, hall⟩⟩
  omega

namespace Buffer

variable {b c : Buffer} {l r i : Nat}

/-- The text of a token that is put back into a query. -/
def word? (b : Buffer) (i : Nat) : Option String := (b.cells[i]?).bind shown?

theorem word?_eq_some {w : String} (h : b.word? i = some w) : i < b.texts.size ∧ b.text i = w := by
  obtain ⟨x, hx, hw⟩ := Option.bind_eq_some_iff.1 h
  obtain ⟨-, htext⟩ := List.getElem?_zip_eq_some.1 hx
  rw [Array.getElem?_toList] at htext
  obtain ⟨hlt, -⟩ := Array.getElem?_eq_some_iff.1 htext
  refine ⟨hlt, ?_⟩
  rw [text, Array.getD_eq_getD_getElem?, htext, Option.getD_some]
  unfold shown? at hw
  split at hw
  · cases hw
  · exact Option.some.inj hw

/-- A token before the last one is put back. -/
theorem word?_of_lt (hend : EndLast b.cells) {j : Nat} {w : String} (h : b.word? j = some w)
    (hij : i < j) : b.word? i = some (b.text i) := by
  obtain ⟨y, hy, -⟩ := Option.bind_eq_some_iff.1 h
  obtain ⟨hj, -⟩ := List.getElem?_eq_some_iff.1 hy
  have hi : i < b.cells.length := Nat.lt_trans hij hj
  have hkind : b.cells[i].1.kind ≠ .eof := List.pairwise_iff_getElem.1 hend i j hi hj hij
  have hshown : shown? b.cells[i] = some b.cells[i].2 := by simp [shown?, hkind]
  have hword : b.word? i = some b.cells[i].2 := by
    rw [word?, List.getElem?_eq_getElem hi]
    exact hshown
  rw [hword, (word?_eq_some hword).2]

/-- Placeholders in brackets, at least one of them, and nothing else between the brackets. -/
structure Bracketed (b : Buffer) (l r : Nat) : Prop where
  opening : b.word? l = some "("
  closing : b.word? r = some ")"
  mark : ∃ i < r, l < i ∧ b.word? i = some placeholder
  only : ∀ i < r, l < i → ∀ w ∈ b.word? i, w = placeholder ∨ Text.allBlank w = true

instance (b : Buffer) (l r : Nat) : Decidable (b.Bracketed l r) :=
  decidable_of_iff (b.word? l = some "(" ∧ b.word? r = some ")" ∧
      (∃ i < r, l < i ∧ b.word? i = some placeholder) ∧
      ∀ i < r, l < i → ∀ w ∈ b.word? i, w = placeholder ∨ Text.allBlank w = true)
    ⟨fun h ↦ ⟨h.1, h.2.1, h.2.2.1, h.2.2.2⟩, fun h ↦ ⟨h.opening, h.closing, h.mark, h.only⟩⟩

/-- The words before the brackets, between them and behind them. -/
theorem Bracketed.exists_inked (h : b.Bracketed l r) : ∃ n, inked b.cells =
    inked (b.cells.take l) ++ (['('] :: List.replicate (n + 1) ['?'] ++
      [')'] :: inked (b.cells.drop (r + 1))) := by
  obtain ⟨x, hx, hopen⟩ := Option.bind_eq_some_iff.1 h.opening
  obtain ⟨y, hy, hclose⟩ := Option.bind_eq_some_iff.1 h.closing
  obtain ⟨m, hmr, hlm, hm⟩ := h.mark
  obtain ⟨z, hz, hmark⟩ := Option.bind_eq_some_iff.1 hm
  let between := (b.cells.drop (l + 1)).take (r - (l + 1))
  have hget : ∀ j, j < r - (l + 1) → between[j]? = b.cells[l + 1 + j]? := by
    intro j hj
    rw [List.getElem?_take_of_lt hj, List.getElem?_drop]
  have hsplit : b.cells = b.cells.take l ++ ([x] ++ (between ++ ([y] ++ b.cells.drop (r + 1)))) := by
    have hclosing : (b.cells.drop (l + 1)).drop (r - (l + 1)) = [y] ++ b.cells.drop (r + 1) := by
      rw [List.drop_drop, Nat.add_sub_cancel' (by omega), List.drop_eq_getElem?_toList_append, hy]
      rfl
    have hopening : b.cells.drop l = [x] ++ b.cells.drop (l + 1) := by
      rw [List.drop_eq_getElem?_toList_append, hx]
      rfl
    rw [← hclosing, List.take_append_drop, ← hopening, List.take_append_drop]
  have hbetween : ∃ n, inked between = List.replicate (n + 1) ['?'] := by
    refine exists_inked_eq_replicate (fun c hc w hw ↦ ?_) ⟨z, ?_, hmark⟩
    · obtain ⟨j, hj, rfl⟩ := List.mem_iff_getElem.1 hc
      have hlt : j < r - (l + 1) := Nat.lt_of_lt_of_le hj (List.length_take_le _ _)
      have hcell := hget j hlt
      rw [List.getElem?_eq_getElem hj] at hcell
      refine h.only (l + 1 + j) (by omega) (by omega) w ?_
      rw [word?, ← hcell]
      exact hw
    · have hcell := hget (m - (l + 1)) (by omega)
      rw [Nat.add_sub_cancel' (by omega), hz] at hcell
      exact List.mem_of_getElem? hcell
  obtain ⟨n, hn⟩ := hbetween
  have hopening : inked [x] = [['(']] := inked_of_shown? hopen (by decide +kernel)
  have hclosing : inked [y] = [[')']] := inked_of_shown? hclose (by decide +kernel)
  refine ⟨n, ?_⟩
  calc inked b.cells
    _ = inked (b.cells.take l) ++ (inked [x] ++ (inked between ++ (inked [y] ++
          inked (b.cells.drop (r + 1))))) := by
      rw [← inked_append, ← inked_append, ← inked_append, ← inked_append, ← hsplit]
    _ = _ := by
      rw [hopening, hn, hclosing]
      rfl

/-- Buffers that differ only in the number of placeholders in brackets. -/
theorem Bracketed.rebuild_eq (hb : b.Bracketed l r) (hc : c.Bracketed l r)
    (hsame : ∀ i, i ≤ l ∨ r ≤ i → b.cells[i]? = c.cells[i]?) : b.rebuild = c.rebuild := by
  have htake : b.cells.take l = c.cells.take l := by
    apply List.ext_getElem?
    intro i
    rw [List.getElem?_take, List.getElem?_take]
    split
    · exact hsame i (by omega)
    · rfl
  have hdrop : b.cells.drop (r + 1) = c.cells.drop (r + 1) := by
    apply List.ext_getElem?
    intro i
    rw [List.getElem?_drop, List.getElem?_drop]
    exact hsame _ (by omega)
  obtain ⟨m, hm⟩ := hb.exists_inked
  obtain ⟨n, hn⟩ := hc.exists_inked
  rw [← htake, ← hdrop] at hn
  obtain ⟨cs, rest, hwords⟩ :=
    Rebuild.exists_unwords_bracketed (inked (b.cells.take l)) (inked (b.cells.drop (r + 1)))
  rw [Buffer.rebuild_eq, Buffer.rebuild_eq, hm, hn, hwords, hwords, Rebuild.shorten_bracketed]

/-- Leaves the text of a token out. -/
def clear (b : Buffer) (i : Nat) : Buffer := { b with texts := b.texts.modify i fun _ ↦ "" }

theorem getElem?_cells_clear (b : Buffer) (i j : Nat) : (b.clear i).cells[j]? =
    if i = j then (b.cells[j]?).map fun c ↦ (c.1, "") else b.cells[j]? := by
  have htext : (b.clear i).texts.toList[j]? =
      if i = j then (b.texts.toList[j]?).map fun _ ↦ "" else b.texts.toList[j]? := by
    rw [Array.getElem?_toList, Array.getElem?_toList, clear, Array.getElem?_modify]
  have hsource : (b.clear i).source = b.source := rfl
  simp only [cells, List.zip, List.getElem?_zipWith, htext, hsource]
  by_cases h : i = j
  · simp only [if_pos h]
    cases b.source.tokens.toList[j]? <;> cases b.texts.toList[j]? <;> rfl
  · simp only [if_neg h]

theorem word?_clear_self {w : String} (h : (b.clear i).word? i = some w) : w = "" := by
  rw [word?, getElem?_cells_clear, if_pos rfl] at h
  obtain ⟨c, hc, hw⟩ := Option.bind_eq_some_iff.1 h
  obtain ⟨x, -, rfl⟩ := Option.map_eq_some_iff.1 hc
  unfold shown? at hw
  split at hw
  · cases hw
  · exact (Option.some.inj hw).symm

theorem word?_clear (b : Buffer) {i j : Nat} (h : i ≠ j) : (b.clear i).word? j = b.word? j := by
  rw [word?, getElem?_cells_clear, if_neg h, word?]

theorem Bracketed.clear (h : b.Bracketed l r) (hl : i ≠ l) (hr : i ≠ r)
    (hmark : ∃ m, l < m ∧ m < r ∧ i ≠ m ∧ b.word? m = some placeholder) :
    (b.clear i).Bracketed l r where
  opening := by rw [word?_clear b hl, h.opening]
  closing := by rw [word?_clear b hr, h.closing]
  mark := by
    obtain ⟨m, hlm, hmr, hne, hm⟩ := hmark
    exact ⟨m, hmr, hlm, by rw [word?_clear b hne, hm]⟩
  only j hjr hlj w hw := by
    by_cases hij : i = j
    · subst hij
      rw [word?_clear_self hw]
      exact .inr rfl
    · rw [word?_clear b hij] at hw
      exact h.only j hjr hlj w hw

/-- Placeholders can be left out of brackets, as long as one is left in each pair. -/
theorem rebuild_foldl_clear {places : List Nat} (h : ∀ i ∈ places, ∃ l r, (l < i ∧ i < r ∧ b.Bracketed l r) ∧
      (l ∉ places ∧ r ∉ places) ∧ ∃ m, l < m ∧ m < r ∧ m ∉ places ∧ b.word? m = some placeholder) :
    (places.foldl clear b).rebuild = b.rebuild := by
  induction places generalizing b with
  | nil => rfl
  | cons i places ih =>
    obtain ⟨l, r, ⟨hl, hr, hb⟩, -, m, hlm, hmr, hm, hmark⟩ := h i List.mem_cons_self
    have hcleared : (b.clear i).rebuild = b.rebuild := by
      have hne : i ≠ m := fun he ↦ hm (he ▸ List.mem_cons_self)
      have hb' := hb.clear (by omega : i ≠ l) (by omega) ⟨m, hlm, hmr, hne, hmark⟩
      refine hb'.rebuild_eq hb fun j hj ↦ ?_
      rw [getElem?_cells_clear, if_neg (by omega)]
    rw [List.foldl_cons, ← hcleared]
    apply ih
    intro j hj
    obtain ⟨l, r, ⟨hl, hr, hb⟩, ⟨hl', hr'⟩, m, hlm, hmr, hm, hmark⟩ := h j (List.mem_cons_of_mem i hj)
    rw [List.mem_cons, not_or] at hl' hr' hm
    have hkeep : (b.clear i).word? m = some placeholder := by
      rw [word?_clear b (Ne.symm hm.1), hmark]
    have hb' := hb.clear (Ne.symm hl'.1) (Ne.symm hr'.1) ⟨m, hlm, hmr, Ne.symm hm.1, hmark⟩
    exact ⟨l, r, ⟨hl, hr, hb'⟩, ⟨hl'.2, hr'.2⟩, m, hlm, hmr, hm.2, hkeep⟩

theorem text_clear (b : Buffer) (i j : Nat) :
    (b.clear i).text j = if i = j then "" else b.text j := by
  rw [text, text, Array.getD_eq_getD_getElem?, Array.getD_eq_getD_getElem?, clear,
    Array.getElem?_modify]
  split
  · cases b.texts[j]? <;> rfl
  · rfl

theorem source_foldl_clear (places : List Nat) (b : Buffer) :
    (places.foldl clear b).source = b.source := by
  induction places generalizing b with
  | nil => rfl
  | cons i places ih => rw [List.foldl_cons, ih, clear]

theorem size_foldl_clear (places : List Nat) (b : Buffer) :
    (places.foldl clear b).texts.size = b.texts.size := by
  induction places generalizing b with
  | nil => rfl
  | cons i places ih => rw [List.foldl_cons, ih, clear, Array.size_modify]

theorem text_foldl_clear (places : List Nat) (b : Buffer) (j : Nat) :
    (places.foldl clear b).text j = if j ∈ places then "" else b.text j := by
  induction places generalizing b with
  | nil => rfl
  | cons i places ih =>
    rw [List.foldl_cons, ih, text_clear]
    by_cases hmem : j ∈ places
    · rw [if_pos hmem, if_pos (List.mem_cons_of_mem i hmem)]
    · by_cases hij : i = j
      · rw [if_neg hmem, if_pos hij, if_pos (hij ▸ List.mem_cons_self)]
      · have hne : j ∉ i :: places := by
          rw [List.mem_cons, not_or]
          exact ⟨Ne.symm hij, hmem⟩
        rw [if_neg hmem, if_neg hij, if_neg hne]

theorem eq_of_text_eq (hsource : b.source = c.source) (hsize : b.texts.size = c.texts.size)
    (htext : ∀ i < b.texts.size, b.text i = c.text i) : b = c := by
  have htexts : b.texts = c.texts := by
    refine Array.ext hsize fun i hb hc ↦ ?_
    have h := htext i hb
    rwa [text, text, Array.getD_eq_getD_getElem?, Array.getD_eq_getD_getElem?,
      Array.getElem?_eq_getElem hb, Array.getElem?_eq_getElem hc] at h
  cases b
  cases c
  cases hsource
  cases htexts
  rfl

end Buffer

end PlanCache

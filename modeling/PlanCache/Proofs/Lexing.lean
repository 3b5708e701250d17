import PlanCache.Lexis.Scan

/-!
Derivatives match what is left of a text, and the text of every token is matched by a rule of its
kind.
-/

namespace PlanCache

namespace Regex

variable {r a b : Regex} {c : Char} {s t : List Char} {test : Char → Bool}

theorem not_matches_never : ¬Matches .never s := nofun

theorem matches_empty : Matches .empty s ↔ s = [] := by
  constructor
  · intro h
    cases h
    rfl
  · rintro rfl
    exact .empty

theorem matches_char : Matches (.char test) s ↔ ∃ c, test c = true ∧ s = [c] := by
  constructor
  · intro h
    cases h with
    | char hc => exact ⟨_, hc, rfl⟩
  · rintro ⟨c, hc, rfl⟩
    exact .char hc

theorem matches_char_cons : Matches (.char test) (c :: s) ↔ test c = true ∧ s = [] := by
  rw [matches_char]
  constructor
  · rintro ⟨d, hd, he⟩
    obtain ⟨rfl, rfl⟩ := List.cons.inj he
    exact ⟨hd, rfl⟩
  · rintro ⟨hc, rfl⟩
    exact ⟨c, hc, rfl⟩

theorem matches_seq : Matches (.seq a b) s ↔ ∃ u v, Matches a u ∧ Matches b v ∧ s = u ++ v := by
  constructor
  · intro h
    cases h with
    | seq ha hb => exact ⟨_, _, ha, hb, rfl⟩
  · rintro ⟨u, v, ha, hb, rfl⟩
    exact .seq ha hb

theorem matches_alt : Matches (.alt a b) s ↔ Matches a s ∨ Matches b s := by
  constructor
  · intro h
    cases h with
    | left h => exact .inl h
    | right h => exact .inr h
  · rintro (h | h)
    · exact .left h
    · exact .right h

theorem matches_nil : Matches r [] ↔ r.nullable = true := by
  induction r with
  | never => simp [nullable, not_matches_never]
  | empty => simp [nullable, matches_empty]
  | char => simp [nullable, matches_char]
  | seq a b iha ihb =>
    rw [nullable, Bool.and_eq_true, ← iha, ← ihb, matches_seq]
    constructor
    · rintro ⟨u, v, ha, hb, h⟩
      obtain ⟨rfl, rfl⟩ := List.append_eq_nil_iff.1 h.symm
      exact ⟨ha, hb⟩
    · rintro ⟨ha, hb⟩
      exact ⟨[], [], ha, hb, rfl⟩
  | alt a b iha ihb => rw [nullable, Bool.or_eq_true, ← iha, ← ihb, matches_alt]
  | star a => simp [nullable, Matches.stop]

theorem matches_seq_cons : Matches (.seq a b) (c :: s) ↔
    (∃ u v, Matches a (c :: u) ∧ Matches b v ∧ s = u ++ v) ∨
      a.nullable = true ∧ Matches b (c :: s) := by
  rw [matches_seq, ← matches_nil]
  constructor
  · rintro ⟨u, v, ha, hb, h⟩
    cases u with
    | nil =>
      rw [List.nil_append] at h
      exact .inr ⟨ha, h ▸ hb⟩
    | cons d u =>
      rw [List.cons_append, List.cons.injEq] at h
      obtain ⟨rfl, rfl⟩ := h
      exact .inl ⟨u, v, ha, hb, rfl⟩
  · rintro (⟨u, v, ha, hb, rfl⟩ | ⟨ha, hb⟩)
    · exact ⟨c :: u, v, ha, hb, rfl⟩
    · exact ⟨[], c :: s, ha, hb, rfl⟩

/-- A repetition that begins with a character begins with a round that does. -/
theorem matches_star_cons : Matches (.star a) (c :: s) ↔
    ∃ u v, Matches a (c :: u) ∧ Matches (.star a) v ∧ s = u ++ v := by
  constructor
  · generalize hr : Regex.star a = r
    generalize ht : c :: s = t
    intro h
    induction h with
    | stop => cases ht
    | @more a' u v hu hv _ ih =>
      obtain rfl := Regex.star.inj hr
      cases u with
      | nil => exact ih rfl ht
      | cons d u =>
        rw [List.cons_append, List.cons.injEq] at ht
        obtain ⟨rfl, rfl⟩ := ht
        exact ⟨u, v, hu, hv, rfl⟩
    | _ => cases hr
  · rintro ⟨u, v, hu, hv, rfl⟩
    exact .more hu hv

theorem matches_join : Matches (a.join b) s ↔ Matches (.seq a b) s := by
  have never_left : ∀ b, ¬Matches (.seq .never b) s := by
    intro b h
    obtain ⟨u, v, hu, -⟩ := matches_seq.1 h
    exact not_matches_never hu
  have never_right : ∀ a, ¬Matches (.seq a .never) s := by
    intro a h
    obtain ⟨u, v, -, hv, -⟩ := matches_seq.1 h
    exact not_matches_never hv
  have empty_left : ∀ b, Matches (.seq .empty b) s ↔ Matches b s := by
    intro b
    simp [matches_seq, matches_empty]
  have empty_right : ∀ a, Matches (.seq a .empty) s ↔ Matches a s := by
    intro a
    simp [matches_seq, matches_empty]
  unfold join
  split
  · simp [never_left, not_matches_never]
  · simp [never_right, not_matches_never]
  · rw [empty_left]
  · rw [empty_right]
  · rfl

theorem matches_either : Matches (a.either b) s ↔ Matches (.alt a b) s := by
  unfold either
  split <;> simp [matches_alt, not_matches_never]

theorem matches_deriv : Matches (r.deriv c) s ↔ Matches r (c :: s) := by
  induction r generalizing s with
  | never => simp [deriv, not_matches_never]
  | empty => simp [deriv, not_matches_never, matches_empty]
  | char test =>
    rw [deriv, matches_char_cons]
    split <;> rename_i h
    · simp [matches_empty, h]
    · simp [not_matches_never, h]
  | seq a b iha ihb =>
    rw [matches_seq_cons, deriv]
    have hd : Matches ((a.deriv c).join b) s ↔
        ∃ u v, Matches a (c :: u) ∧ Matches b v ∧ s = u ++ v := by
      simp only [matches_join, matches_seq, iha]
    cases hn : a.nullable with
    | true => simp only [if_true, matches_either, matches_alt, hd, ihb, true_and]
    | false => simp only [Bool.false_eq_true, if_false, hd, false_and, or_false]
  | alt a b iha ihb => rw [deriv, matches_either, matches_alt, matches_alt, iha, ihb]
  | star a iha =>
    rw [deriv, matches_join, matches_seq, matches_star_cons]
    simp only [iha]

end Regex

namespace LexRule

open Regex

/-- What is left of a rule after a text. -/
structure Remains (before : List Char) (r left : LexRule) : Prop where
  kind : left.kind = r.kind
  text : ∀ s, Matches left.text s ↔ Matches r.text (before ++ s)
  atEnd : ∀ s, Matches left.atEnd s ↔ Matches r.atEnd (before ++ s)

/-- A rule of a kind matches a text. -/
def Fits (k : Kind) (s : List Char) : Prop :=
  ∃ r ∈ all, r.kind = k ∧ (Matches r.text s ∨ Matches r.atEnd s)

variable {before rest : List Char} {c : Char} {r left next : LexRule} {rules : List LexRule}

theorem Remains.after (h : Remains before r left) (hn : left.after c = some next) :
    Remains (before ++ [c]) r next := by
  unfold LexRule.after at hn
  dsimp only at hn
  split at hn
  · cases hn
  · cases hn
    refine ⟨h.kind, fun s ↦ ?_, fun s ↦ ?_⟩
    · rw [matches_deriv, h.text, List.append_assoc, List.singleton_append]
    · rw [matches_deriv, h.atEnd, List.append_assoc, List.singleton_append]

theorem Remains.fits (h : Remains before r left) (hr : r ∈ all) (hd : left.done rest = true) :
    Fits left.kind before := by
  unfold done at hd
  rw [Bool.or_eq_true, Bool.and_eq_true, ← matches_nil, ← matches_nil, h.text, h.atEnd,
    List.append_nil] at hd
  exact ⟨r, hr, h.kind.symm, hd.imp_right And.right⟩

theorem best_fits {n : Nat} {best : Option (Kind × Nat)}
    (hrules : ∀ left ∈ rules, ∃ r ∈ all, Remains before r left) (hn : n = before.length)
    (hbest : ∀ k m, best = some (k, m) → Fits k ((before ++ rest).take m)) (k : Kind) (m : Nat)
    (h : (match rules.find? (done rest) with
      | some r => some (r.kind, n)
      | none => best) = some (k, m)) : Fits k ((before ++ rest).take m) := by
  split at h
  · rename_i left hf
    cases h
    obtain ⟨r, hr, hl⟩ := hrules left (List.mem_of_find?_eq_some hf)
    rw [hn, List.take_left]
    exact hl.fits hr (List.find?_some hf)
  · exact hbest k m h

theorem race_fits {n : Nat} {best : Option (Kind × Nat)}
    (hrules : ∀ left ∈ rules, ∃ r ∈ all, Remains before r left) (hn : n = before.length)
    (hbest : ∀ k m, best = some (k, m) → Fits k ((before ++ rest).take m)) {k : Kind} {m : Nat}
    (h : race rules rest n best = some (k, m)) : Fits k ((before ++ rest).take m) := by
  induction rest generalizing before rules n best with
  | nil =>
    unfold race at h
    exact best_fits hrules hn hbest k m h
  | cons c cs ih =>
    unfold race at h
    dsimp only at h
    have hbest' := best_fits hrules hn hbest
    split at h
    · exact hbest' k m h
    · rw [← List.singleton_append, ← List.append_assoc] at hbest' ⊢
      refine ih (fun left hm ↦ ?_) (by simp [hn]) hbest' h
      obtain ⟨left', hm', ha⟩ := List.mem_filterMap.1 hm
      obtain ⟨r, hr, hl⟩ := hrules left' hm'
      exact ⟨r, hr, hl.after ha⟩

theorem longest_fits (cs : List Char) :
    (longest cs).1 = .stray ∨ Fits (longest cs).1 (cs.take (longest cs).2) := by
  have hall : ∀ left ∈ all, ∃ r ∈ all, Remains [] r left :=
    fun r hr ↦ ⟨r, hr, rfl, fun _ ↦ .rfl, fun _ ↦ .rfl⟩
  unfold longest
  split
  · rename_i h
    exact .inr (race_fits hall rfl (fun k m hk ↦ by cases hk) h)
  · exact .inl rfl

end LexRule

/-- The text of a token other than the mark of the end and strays is matched by a rule of its
kind. -/
theorem Token.fits_of_mem_scanFrom (p : Cursor) (cs : List Char) {t : Token}
    (ht : t ∈ scanFrom p cs) :
    t.kind = .eof ∨ t.kind = .stray ∨ LexRule.Fits t.kind t.text.toList := by
  fun_induction scanFrom p cs with
  | case1 p =>
    rw [List.mem_singleton.1 ht]
    exact .inl rfl
  | case2 p c cs found text ih =>
    obtain rfl | ht := List.mem_cons.1 ht
    · rw [String.toList_ofList]
      exact .inr (LexRule.longest_fits (c :: cs))
    · exact ih ht

end PlanCache

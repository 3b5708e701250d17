import PlanCache.Plan.Cache

/-!
How texts end: neither the text of a query nor what is left of it when selects are cut out ends in
white space.
-/

namespace PlanCache

namespace Text

/-- The last character, if there is one, is no white space. -/
def EndsBare (cs : List Char) : Prop := ∀ c, cs.getLast? = some c → isBlank c = false

theorem EndsBare.nil : EndsBare [] := by
  intro c h
  cases h

theorem EndsBare.of_getLast? {cs : List Char} {d : Char} (h : cs.getLast? = some d)
    (hd : isBlank d = false) : EndsBare cs := by
  intro c hc
  obtain rfl := Option.some.inj (h.symm.trans hc)
  exact hd

theorem EndsBare.append {cs ds : List Char} (hc : EndsBare cs) (hd : EndsBare ds) :
    EndsBare (cs ++ ds) := by
  intro c h
  rw [List.getLast?_append] at h
  cases hl : ds.getLast? with
  | none => rw [hl] at h; exact hc c h
  | some d => rw [hl] at h; exact hd c (hl.trans h)

theorem EndsBare.tail {c : Char} {cs : List Char} (h : EndsBare (c :: cs)) : EndsBare cs := by
  intro d hd
  have hne : cs ≠ [] := by rintro rfl; cases hd
  exact h d ((List.getLast?_cons_of_ne_nil hne).trans hd)

theorem endsBare_trim (cs : List Char) : EndsBare (trim cs) := by
  intro c h
  rw [trim, List.getLast?_reverse, trimStart] at h
  have hd := List.head?_dropWhile_not isBlank (trimStart cs).reverse
  rw [h] at hd
  exact hd

/-- Recognises `p` anywhere, to be replaced by `new`. -/
def exactly? (p new : List Char) (_before : Option Char) (cs : List Char) :
    Option (Nat × List Char) :=
  if (after? p cs).isSome then some (p.length, new) else none

theorem replaceAfter_eq_substituteAfter {p : List Char} (hp : p ≠ []) (new : List Char)
    (skip : Nat) (before : Option Char) (cs : List Char) :
    replaceAfter p new skip cs = substituteAfter (exactly? p new) skip before cs := by
  obtain ⟨a, p, rfl⟩ := List.exists_cons_of_ne_nil hp
  induction cs generalizing skip before with
  | nil => rfl
  | cons c cs ih =>
    cases skip with
    | succ skip => exact ih skip (some c)
    | zero =>
      cases h : (after? (a :: p) (c :: cs)).isSome with
      | true =>
        simp only [replaceAfter, substituteAfter, exactly?, h, if_true, List.length_cons,
          Nat.add_sub_cancel]
        rw [ih]
      | false =>
        simp only [replaceAfter, substituteAfter, exactly?, h, Bool.false_eq_true, if_false]
        rw [ih]

section Substitute

variable {read : Option Char → List Char → Option (Nat × List Char)}

theorem substituteAfter_ne_nil
    (hread : ∀ before cs n new, read before cs = some (n, new) → new ≠ [])
    (before : Option Char) (c : Char) (cs : List Char) :
    substituteAfter read 0 before (c :: cs) ≠ [] := by
  simp only [substituteAfter]
  split
  case h_1 n new h => exact fun e ↦ hread _ _ _ _ h (List.append_eq_nil_iff.1 e).1
  case h_2 => exact List.cons_ne_nil _ _

/-- What is put in the place of parts of a text does not make it end in white space. -/
theorem EndsBare.substituteAfter
    (hread : ∀ before cs n new, read before cs = some (n, new) → new ≠ [] ∧ EndsBare new)
    (skip : Nat) (before : Option Char) {cs : List Char} (h : EndsBare cs) :
    EndsBare (substituteAfter read skip before cs) := by
  induction cs generalizing skip before with
  | nil => exact .nil
  | cons c cs ih =>
    cases skip with
    | succ skip => exact ih skip (some c) h.tail
    | zero =>
      simp only [Text.substituteAfter]
      split
      case h_1 n new hr => exact (hread _ _ _ _ hr).2.append (ih _ _ h.tail)
      case h_2 =>
        cases cs with
        | nil => exact h
        | cons d cs =>
          have hne := substituteAfter_ne_nil (fun b cs n new hr ↦ (hread b cs n new hr).1)
            (some c) d cs
          intro e he
          exact ih 0 (some c) h.tail e ((List.getLast?_cons_of_ne_nil hne).symm.trans he)

end Substitute

theorem EndsBare.replaceAll {cs new : List Char} (h : EndsBare cs) (hn : new ≠ [])
    (hb : EndsBare new) (p : List Char) : EndsBare (replaceAll p new cs) := by
  unfold Text.replaceAll
  split
  case isTrue =>
    -- the empty text is found at the end too, so `new` comes last
    clear h
    induction cs with
    | nil => exact hb
    | cons c cs ih =>
      rw [List.foldr_cons]
      refine hb.append fun d hd ↦ ih d ?_
      rwa [List.getLast?_cons_of_ne_nil] at hd
      cases cs <;> simp [hn]
  case isFalse hp =>
    have hp' : p ≠ [] := by simpa using hp
    rw [replaceAfter_eq_substituteAfter hp' new 0 none]
    refine h.substituteAfter (fun before cs n new' hr ↦ ?_) 0 none
    unfold exactly? at hr
    split at hr
    · cases hr; exact ⟨hn, hb⟩
    · cases hr

end Text

namespace Rebuild

open Text

theorem endsBare_inList? {before : Option Char} {cs : List Char} {n : Nat} {new : List Char}
    (h : inList? before cs = some (n, new)) : new ≠ [] ∧ EndsBare new := by
  have hnew : new = "IN ( ?? )".toList := by
    unfold inList? at h
    split at h
    · cases h
    · simp only [Option.bind_eq_bind, Option.bind_eq_some_iff] at h
      obtain ⟨_, _, _, _, _, _, h⟩ := h
      split at h
      · cases h; rfl
      · cases h
  subst hnew
  exact ⟨by decide, .of_getLast? (d := ')') (by decide) (by decide)⟩

theorem endsBare_run? {before : Option Char} {cs : List Char} {n : Nat} {new : List Char}
    (h : run? before cs = some (n, new)) : new ≠ [] ∧ EndsBare new := by
  have hnew : new = "( ? )".toList := by
    simp only [run?, Option.bind_eq_bind, Option.bind_eq_some_iff] at h
    obtain ⟨_, _, _, _, h⟩ := h
    cases h; rfl
  subst hnew
  exact ⟨by decide, .of_getLast? (d := ')') (by decide) (by decide)⟩

theorem endsBare_tidy (s : String) : EndsBare (tidy s).toList := by
  rw [tidy, String.toList_ofList]
  exact ((endsBare_trim _).substituteAfter (fun _ _ _ _ h ↦ endsBare_inList? h) 0
    none).substituteAfter (fun _ _ _ _ h ↦ endsBare_run? h) 0 none

end Rebuild

theorem Buffer.endsBare_rebuild (b : Buffer) : Text.EndsBare b.rebuild.toList :=
  Rebuild.endsBare_tidy _

theorem Cache.endsBare_cutOut (select : String) {text : String} (h : Text.EndsBare text.toList) :
    Text.EndsBare (cutOut select text).toList := by
  rw [cutOut, String.toList_ofList]
  exact h.replaceAll (by decide) (.of_getLast? (d := '?') (by decide) (by decide)) _

theorem Cache.endsBare_fold_cutOut (selects : List String) {text : String}
    (h : Text.EndsBare text.toList) :
    Text.EndsBare (selects.foldl (fun text select ↦ cutOut select text) text).toList := by
  induction selects generalizing text with
  | nil => exact h
  | cons select selects ih => exact ih (endsBare_cutOut select h)

/-- The key of inner plans ends in a space, so it is never the text of a query. -/
theorem ne_innerKey {text : String} (h : Text.EndsBare text.toList) : text ≠ innerKey := by
  rintro rfl
  exact absurd (h ' ' (by decide)) (by decide)

end PlanCache

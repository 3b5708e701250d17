import PlanCache.Proofs.TokenEnds
import PlanCache.Query.Literals

/-!
Texts that differ in the width of the white space inside them. With no white space at their ends,
they can be put together piece by piece, and they begin and end alike.
-/

namespace PlanCache.Text

/-- Neither the first nor the last character is white space. -/
structure Trimmed (cs : List Char) : Prop where
  head : ∀ c, cs.head? = some c → isBlank c = false
  last : ∀ c, cs.getLast? = some c → isBlank c = false

section

variable {us vs us' vs' cs : List Char} {c : Char}

theorem Trimmed.nil : Trimmed [] := ⟨nofun, nofun⟩

theorem Trimmed.of_no_blank (h : ∀ c ∈ cs, isBlank c = false) : Trimmed cs :=
  ⟨fun c hc ↦ h c (List.mem_of_head? hc), fun c hc ↦ h c (List.mem_of_getLast? hc)⟩

theorem Trimmed.append (hu : Trimmed us) (hv : Trimmed vs) : Trimmed (us ++ vs) := by
  constructor
  · intro c hc
    rw [List.head?_append, Option.or_eq_some_iff] at hc
    rcases hc with hc | ⟨-, hc⟩
    · exact hu.head c hc
    · exact hv.head c hc
  · intro c hc
    rw [List.getLast?_append, Option.or_eq_some_iff] at hc
    rcases hc with hc | ⟨-, hc⟩
    · exact hv.last c hc
    · exact hu.last c hc

theorem Trimmed.all_isBlank (h : Trimmed cs) (hcs : cs ≠ []) : cs.all isBlank = false := by
  obtain ⟨c, cs, rfl⟩ := List.exists_cons_of_ne_nil hcs
  rw [List.all_cons, h.head c rfl, Bool.false_and]

/-- White space at the end of a piece would reach into the next one. -/
theorem pack_append {gap : Bool} (hu : us ≠ [])
    (hlast : ∀ c, us.getLast? = some c → isBlank c = false) :
    pack gap (us ++ vs) = pack gap us ++ pack false vs := by
  induction us generalizing gap with
  | nil => exact absurd rfl hu
  | cons c us ih =>
    by_cases hus : us = []
    · subst hus
      have hc := hlast c rfl
      cases gap <;> simp [pack, hc]
    · have hrest : ∀ d, us.getLast? = some d → isBlank d = false := by
        intro d hd
        apply hlast
        rw [List.getLast?_cons, hd]
        rfl
      cases hc : isBlank c with
      | true => simp [pack, hc, ih hus hrest]
      | false => cases gap <;> simp [pack, hc, ih hus hrest]

theorem squeeze_eq_pack (h : ∀ c, cs.head? = some c → isBlank c = false) :
    squeeze cs = pack false cs := by
  cases cs with
  | nil => rfl
  | cons c cs => simp [squeeze, pack, h c rfl]

theorem squeeze_append (hu : Trimmed us) (hv : Trimmed vs) :
    squeeze (us ++ vs) = squeeze us ++ squeeze vs := by
  by_cases hus : us = []
  · rw [hus]
    rfl
  · rw [squeeze_eq_pack (hu.append hv).head, squeeze_eq_pack hu.head, squeeze_eq_pack hv.head,
      pack_append hus hu.last]

theorem pack_pack (gap : Bool) (cs : List Char) : pack false (pack gap cs) = pack gap cs := by
  have hspace : isBlank ' ' = true := rfl
  induction cs generalizing gap with
  | nil => rfl
  | cons c cs ih =>
    cases hc : isBlank c with
    | true => simp [pack, hc, ih]
    | false => cases gap <;> simp [pack, hc, hspace, ih]

theorem squeeze_squeeze (cs : List Char) : squeeze (squeeze cs) = squeeze cs := by
  induction cs with
  | nil => rfl
  | cons c cs ih =>
    cases hc : isBlank c with
    | true => simpa [squeeze, hc] using ih
    | false => simp [squeeze, hc, pack_pack]

/-- A last character that is no white space stays the last. -/
theorem getLast?_pack_concat (gap : Bool) (us : List Char) (hc : isBlank c = false) :
    (pack gap (us ++ [c])).getLast? = some c := by
  induction us generalizing gap with
  | nil => cases gap <;> simp [pack, hc]
  | cons d us ih =>
    cases hd : isBlank d with
    | true => simpa [pack, hd] using ih true
    | false => cases gap <;> simp [pack, hd, List.getLast?_cons, ih false]

theorem isBlank_of_head?_trimStart (h : (trimStart cs).head? = some c) : isBlank c = false := by
  have hnot := List.head?_dropWhile_not isBlank cs
  rw [trimStart] at h
  rw [h] at hnot
  simpa using hnot

theorem trimmed_squeeze (cs : List Char) : Trimmed (squeeze cs) := by
  constructor
  · intro c hc
    induction cs with
    | nil => cases hc
    | cons d cs ih =>
      rw [squeeze] at hc
      cases hd : isBlank d with
      | true =>
        rw [hd] at hc
        exact ih hc
      | false =>
        rw [hd] at hc
        cases hc
        exact hd
  · intro c hc
    rw [← trim_collapse, trim, List.getLast?_reverse] at hc
    exact isBlank_of_head?_trimStart hc

theorem head?_squeeze (h : Trimmed cs) : (squeeze cs).head? = cs.head? := by
  cases cs with
  | nil => rfl
  | cons c cs => simp [squeeze, h.head c rfl]

theorem getLast?_squeeze (h : Trimmed cs) : (squeeze cs).getLast? = cs.getLast? := by
  rw [squeeze_eq_pack h.head]
  cases hlast : cs.getLast? with
  | none =>
    rw [List.getLast?_eq_none_iff.1 hlast]
    rfl
  | some c =>
    obtain ⟨us, rfl⟩ := List.getLast?_eq_some_iff.1 hlast
    exact getLast?_pack_concat false us (h.last c hlast)

theorem squeeze_eq_nil_iff : squeeze cs = [] ↔ cs.all isBlank = true := by
  induction cs with
  | nil => simp [squeeze]
  | cons c cs ih => cases hc : isBlank c <;> simp [squeeze, hc, ih]

/-- White space within a text leaves a space. -/
theorem space_mem_pack {gap : Bool} (hcs : cs ≠ [])
    (hlast : ∀ c, cs.getLast? = some c → isBlank c = false)
    (h : gap = true ∨ ∃ c ∈ cs, isBlank c = true) : ' ' ∈ pack gap cs := by
  induction cs generalizing gap with
  | nil => exact absurd rfl hcs
  | cons c cs ih =>
    have hrest : ∀ d, cs.getLast? = some d → isBlank d = false := by
      intro d hd
      apply hlast
      rw [List.getLast?_cons, hd]
      rfl
    cases hc : isBlank c with
    | true =>
      have hne : cs ≠ [] := by
        rintro rfl
        rw [hlast c rfl] at hc
        cases hc
      rw [pack, hc]
      exact ih hne hrest (.inl rfl)
    | false =>
      cases gap with
      | true => simp [pack, hc]
      | false =>
        obtain ⟨d, hd, hblank⟩ := h.resolve_left (by decide)
        have hmem : d ∈ cs := by
          rcases List.mem_cons.1 hd with rfl | hd
          · rw [hc] at hblank
            cases hblank
          · exact hd
        have hspace := @ih false (List.ne_nil_of_mem hmem) hrest (.inr ⟨d, hmem, hblank⟩)
        simp [pack, hc, hspace]

theorem space_mem_squeeze (h : Trimmed cs) (hc : c ∈ cs) (hblank : isBlank c = true) :
    ' ' ∈ squeeze cs := by
  rw [squeeze_eq_pack h.head]
  exact space_mem_pack (List.ne_nil_of_mem hc) h.last (.inr ⟨c, hc, hblank⟩)

end

theorem IsOwnLower.isBlank {d : Char} (h : IsOwnLower d) : isBlank d = false := by
  obtain ⟨h₁, h₂, -⟩ := h
  unfold Text.isBlank
  rw [Bool.eq_false_iff]
  simp only [ne_eq, Bool.or_eq_true, Bool.and_eq_true, decide_eq_true_eq, beq_iff_eq]
  omega

/-- Two texts without white space at their ends are the same up to the width of white space. -/
structure Respaced (us vs : List Char) : Prop where
  left : Trimmed us
  right : Trimmed vs
  squeeze_eq : squeeze us = squeeze vs

namespace Respaced

variable {us vs us' vs' : List Char}

theorem refl (h : Trimmed us) : Respaced us us := ⟨h, h, rfl⟩

theorem symm (h : Respaced us vs) : Respaced vs us := ⟨h.right, h.left, h.squeeze_eq.symm⟩

theorem squeeze (h : Trimmed us) : Respaced us (squeeze us) :=
  ⟨h, trimmed_squeeze us, (squeeze_squeeze us).symm⟩

theorem append (h : Respaced us vs) (h' : Respaced us' vs') :
    Respaced (us ++ us') (vs ++ vs') := by
  refine ⟨h.left.append h'.left, h.right.append h'.right, ?_⟩
  rw [squeeze_append h.left h'.left, squeeze_append h.right h'.right, h.squeeze_eq, h'.squeeze_eq]

theorem join {α : Type} {l : List α} {f g : α → String}
    (h : ∀ a ∈ l, Respaced (f a).toList (g a).toList) :
    Respaced (String.join (l.map f)).toList (String.join (l.map g)).toList := by
  rw [String.toList_join, String.toList_join, List.flatMap_map, List.flatMap_map]
  induction l with
  | nil => exact .refl .nil
  | cons a l ih =>
    rw [List.forall_mem_cons] at h
    rw [List.flatMap_cons, List.flatMap_cons]
    exact h.1.append (ih h.2)

theorem eq_of_no_blank (h : Respaced us vs) (hu : ∀ c ∈ us, isBlank c = false) : us = vs := by
  have hs := h.squeeze_eq
  rw [squeeze_of_no_blank hu] at hs
  have hv : ∀ c ∈ vs, isBlank c = false := by
    intro c hc
    rw [Bool.eq_false_iff]
    intro hblank
    have hspace := space_mem_squeeze h.right hc hblank
    rw [← hs] at hspace
    have := hu ' ' hspace
    cases this
  rwa [squeeze_of_no_blank hv] at hs

theorem lower_eq_of_lower_eq (h : Respaced us vs) {w : List Char} (hw : ∀ d ∈ w, IsOwnLower d)
    (he : lower us = w) : lower vs = w := by
  have hu : ∀ c ∈ us, isBlank c = false := by
    intro c hc
    have hlower : c.toLower ∈ w := by
      rw [← (lower_eq_iff hw).1 he]
      exact List.mem_map_of_mem hc
    rw [← isBlank_toLower]
    exact (hw _ hlower).isBlank
  rw [← h.eq_of_no_blank hu, he]

theorem lower_eq_iff_lower_eq (h : Respaced us vs) {w : List Char} (hw : ∀ d ∈ w, IsOwnLower d) :
    lower us = w ↔ lower vs = w :=
  ⟨h.lower_eq_of_lower_eq hw, h.symm.lower_eq_of_lower_eq hw⟩

theorem isDoubleQuoted_eq {s t : String} (h : Respaced s.toList t.toList) :
    isDoubleQuoted s = isDoubleQuoted t := by
  unfold isDoubleQuoted
  rw [← head?_squeeze h.left, ← head?_squeeze h.right, ← getLast?_squeeze h.left,
    ← getLast?_squeeze h.right, h.squeeze_eq]

theorem all_isBlank_eq (h : Respaced us vs) : us.all isBlank = vs.all isBlank := by
  rw [Bool.eq_iff_iff, ← squeeze_eq_nil_iff, ← squeeze_eq_nil_iff, h.squeeze_eq]

end Respaced

end PlanCache.Text

import Mathlib.Data.List.Chain
import PlanCache.Proofs.Brackets
import PlanCache.Proofs.TextEnds

/-!
Replacing the texts of one form by another text, from the left and without overlaps. What is found
in the result was there before or begins where a text has been put, so a form whose texts cannot
begin inside the new text, or go on into it, is not made by replacing.
-/

namespace PlanCache.Text

variable {read : Option Char → List Char → Option (Nat × List Char)}
  {allowed : Option Char → Bool} {L : List Char → Prop} {new : List Char}

/-- `new` is put for each text of the form `L` that is found from the left. Such a text may begin
only behind a character that is `allowed`. -/
inductive Rewritten (allowed : Option Char → Bool) (L : List Char → Prop) (new : List Char) :
    Option Char → List Char → List Char → Prop
  | nil {before : Option Char} : Rewritten allowed L new before [] []
  | copy {before : Option Char} {c : Char} {cs out : List Char} :
      (allowed before = true → ∀ u s, c :: cs = u ++ s → ¬L u) →
      Rewritten allowed L new (some c) cs out → Rewritten allowed L new before (c :: cs) (c :: out)
  | put {before : Option Char} {u cs out : List Char} : allowed before = true → L u →
      Rewritten allowed L new u.getLast? cs out →
      Rewritten allowed L new before (u ++ cs) (new ++ out)

/-- `read` recognises the texts of the form `L` where they are allowed, whatever follows. -/
structure Recognises (read : Option Char → List Char → Option (Nat × List Char))
    (allowed : Option Char → Bool) (L : List Char → Prop) (new : List Char) : Prop where
  sound : ∀ {before cs n out}, read before cs = some (n, out) →
    allowed before = true ∧ ∃ u s, cs = u ++ s ∧ L u
  complete : ∀ {before u}, allowed before = true → L u → ∀ s,
    read before (u ++ s) = some (u.length, new)
  ne_nil : ∀ {u}, L u → u ≠ []

theorem Recognises.rewritten (h : Recognises read allowed L new) (before : Option Char)
    (cs : List Char) : Rewritten allowed L new before cs (substituteAfter read 0 before cs) := by
  induction hlen : cs.length using Nat.strongRecOn generalizing before cs with
  | ind len ih =>
    subst hlen
    by_cases hfound : allowed before = true ∧ ∃ u s, cs = u ++ s ∧ L u
    · obtain ⟨hallowed, u, s, rfl, hu⟩ := hfound
      have hshort : s.length < (u ++ s).length := by
        have := List.length_pos_iff.2 (h.ne_nil hu)
        rw [List.length_append]
        omega
      rw [substituteAfter_of_read (h.complete hallowed hu s) (h.ne_nil hu)]
      exact .put hallowed hu (ih _ hshort u.getLast? s rfl)
    · have hnone : read before cs = none :=
        Option.eq_none_iff_forall_ne_some.2 fun x hx ↦ hfound (h.sound hx)
      cases cs with
      | nil => exact .nil
      | cons c cs =>
        rw [substituteAfter_of_none hnone]
        exact .copy (fun hallowed u s he hu ↦ hfound ⟨hallowed, u, s, he, hu⟩)
          (ih _ (Nat.lt_succ_self _) (some c) cs rfl)

/-- The texts of the form `L` do not go on into `new` or begin inside it, and they end as it
does. -/
structure Apart (L : List Char → Prop) (new : List Char) : Prop where
  ne_nil : new ≠ []
  first : ∀ {u}, L u → ∃ c v, u = c :: v ∧ c ∉ new.tail ∧ ∀ a ∈ new.head?, a ∉ v
  last : ∀ u, L u → u.getLast? = new.getLast?
  whole : ∀ {u s m}, L u → u ++ s = new ++ m → u = new

namespace Rewritten

variable {before : Option Char} {cs out p q u s : List Char}

theorem cases_cons {c : Char} (h : Rewritten allowed L new before cs (c :: out)) :
    (∃ ds, cs = c :: ds ∧ (allowed before = true → ∀ u s, cs = u ++ s → ¬L u) ∧
      Rewritten allowed L new (some c) ds out) ∨ ∃ m, c :: out = new ++ m := by
  generalize hout : c :: out = all at h
  cases h with
  | nil => cases hout
  | @copy _ d ds out hno h =>
    obtain ⟨rfl, rfl⟩ := List.cons.inj hout
    exact .inl ⟨ds, rfl, hno, h⟩
  | put hallowed hL h => exact .inr ⟨_, rfl⟩

/-- What does not hold the first character of `new` was there before. -/
theorem copied (hnew : new ≠ []) (h : Rewritten allowed L new before cs (u ++ s))
    (hu : ∀ a ∈ new.head?, a ∉ u) : ∃ t, cs = u ++ t ∧
      Rewritten allowed L new (u.getLast?.or before) t s := by
  induction u generalizing before cs with
  | nil => exact ⟨cs, rfl, h⟩
  | cons d u ih =>
    obtain ⟨ds, rfl, -, hrest⟩ | ⟨m, hm⟩ := h.cases_cons
    · obtain ⟨t, rfl, ht⟩ := ih hrest fun a ha hmem ↦ hu a ha (List.mem_cons_of_mem _ hmem)
      exact ⟨t, rfl, by rwa [getLast?_cons_or]⟩
    · obtain ⟨a, new, rfl⟩ := List.exists_cons_of_ne_nil hnew
      exact absurd (List.cons.inj hm).1.symm fun he ↦ hu a rfl (he ▸ List.mem_cons_self)

/-- A cut of the result is a cut of the text, or it is inside of what has been put. -/
theorem split (hlast : ∀ u, L u → u.getLast? = new.getLast?) (hnew : new ≠ [])
    (h : Rewritten allowed L new before cs out) (he : out = p ++ q) :
    (∃ cs₁ cs₂, cs = cs₁ ++ cs₂ ∧ cs₁.getLast? = p.getLast? ∧
      Rewritten allowed L new (p.getLast?.or before) cs₂ q) ∨
    ∃ n₁ n₂ m, new = n₁ ++ n₂ ∧ n₁ ≠ [] ∧ n₂ ≠ [] ∧ q = n₂ ++ m := by
  by_cases hp : p = []
  · subst hp
    rw [he] at h
    exact .inl ⟨[], cs, rfl, rfl, h⟩
  induction h generalizing p with
  | nil => exact absurd (List.append_eq_nil_iff.1 he.symm).1 hp
  | @copy before c cs out hno h ih =>
    obtain ⟨d, p, rfl⟩ := List.exists_cons_of_ne_nil hp
    obtain ⟨rfl, rfl⟩ := List.cons.inj he
    rw [getLast?_cons_or]
    by_cases hp : p = []
    · subst hp
      exact .inl ⟨[c], cs, rfl, rfl, h⟩
    · obtain ⟨cs₁, cs₂, rfl, hcs, hrest⟩ | hinside := ih rfl hp
      · refine .inl ⟨c :: cs₁, cs₂, rfl, ?_, hrest⟩
        rw [List.getLast?_cons, List.getLast?_cons, hcs]
      · exact .inr hinside
  | @put before u cs out hallowed hL h ih =>
    obtain ⟨d, hd⟩ : ∃ d, new.getLast? = some d := ⟨_, List.getLast?_eq_some_getLast hnew⟩
    have hu : u.getLast? = some d := (hlast u hL).trans hd
    obtain ⟨v, rfl, rfl⟩ | ⟨v, rfl, rfl⟩ := List.append_eq_append_iff.1 he
    · -- The cut is behind what has been put.
      by_cases hv : v = []
      · subst hv
        refine .inl ⟨u, cs, rfl, ?_, ?_⟩
        · rw [List.append_nil, hlast u hL]
        · rw [List.append_nil, hd, ← hu]
          simpa [hu] using h
      · obtain ⟨cs₁, cs₂, rfl, hcs, hrest⟩ | hinside := ih rfl hv
        · refine .inl ⟨u ++ cs₁, cs₂, (List.append_assoc _ _ _).symm, ?_, ?_⟩
          · rw [List.getLast?_append, List.getLast?_append, hcs, hlast u hL]
          · rw [List.getLast?_append, hd]
            simpa [hu, Option.or_assoc] using hrest
        · exact .inr hinside
    · by_cases hv : v = []
      · subst hv
        rw [List.append_nil] at hlast hd
        refine .inl ⟨u, cs, rfl, hlast u hL, ?_⟩
        simpa [hu, hd] using h
      · exact .inr ⟨p, v, out, rfl, hp, hv, rfl⟩

/-- No text of the form is left, and none is made, but for those that have been put. -/
theorem eq_new_of_factor (hapart : Apart L new)
    (h : Rewritten allowed L new before cs (p ++ (u ++ s)))
    (hp : allowed (p.getLast?.or before) = true) (hu : L u) : u = new := by
  obtain ⟨c, v, rfl, hinside, hfree⟩ := hapart.first hu
  obtain ⟨cs₁, cs₂, -, -, h⟩ | ⟨n₁, n₂, m, rfl, hn₁, hn₂, he⟩ :=
    split hapart.last hapart.ne_nil h rfl
  · obtain ⟨ds, rfl, hno, hrest⟩ | ⟨m, hm⟩ := h.cases_cons
    · obtain ⟨t, rfl, -⟩ := hrest.copied hapart.ne_nil hfree
      exact absurd hu (hno hp _ t rfl)
    · exact hapart.whole hu hm
  · obtain ⟨a, n₁, rfl⟩ := List.exists_cons_of_ne_nil hn₁
    obtain ⟨d, n₂, rfl⟩ := List.exists_cons_of_ne_nil hn₂
    obtain ⟨rfl, -⟩ := List.cons.inj he
    exact absurd (List.mem_append_right n₁ List.mem_cons_self) hinside

/-- Nothing changes if `new` is put for itself. -/
theorem eq_self (hnew : new ≠ []) (h : Rewritten allowed L new before cs out)
    (hsame : ∀ p u s, cs = p ++ (u ++ s) → allowed (p.getLast?.or before) = true → L u → u = new) :
    out = cs := by
  induction h with
  | nil => rfl
  | @copy before c cs out hno h ih =>
    apply congrArg
    apply ih
    intro p u s he hp hu
    exact hsame (c :: p) u s (by rw [he, List.cons_append]) (by rwa [getLast?_cons_or]) hu
  | @put before v cs out hallowed hL h ih =>
    obtain rfl := hsame [] v cs rfl hallowed hL
    apply congrArg
    apply ih
    intro p u s he hp hu
    refine hsame (v ++ p) u s (by rw [he, List.append_assoc]) ?_ hu
    rwa [List.getLast?_append, Option.or_assoc, List.getLast?_eq_some_getLast hnew, Option.some_or,
      ← List.getLast?_eq_some_getLast hnew]

end Rewritten

/-- A text with single spaces only, and none at its ends. -/
structure Spaced (cs : List Char) : Prop where
  first : ∀ c ∈ cs.head?, isBlank c = false
  last : ∀ c ∈ cs.getLast?, isBlank c = false
  blank : ∀ c ∈ cs, isBlank c = true → c = ' '
  apart : cs.IsChain fun c d ↦ isBlank c = true → isBlank d = false

theorem pack_isChain (gap : Bool) (cs : List Char) {x : Char} (hx : isBlank x = false) :
    (x :: pack gap cs).IsChain fun c d ↦ isBlank c = true → isBlank d = false := by
  induction cs generalizing gap x with
  | nil => simp [pack]
  | cons c cs ih =>
    rw [pack]
    by_cases hc : isBlank c = true
    · rw [if_pos hc]
      exact ih true hx
    · rw [Bool.not_eq_true] at hc
      cases gap <;> simp [hc, hx, ih false hc]

theorem spaced_squeeze (cs : List Char) : Spaced (squeeze cs) := by
  have hends := endsBare_trim (collapse cs)
  rw [trim_collapse] at hends
  have hcases : squeeze cs = [] ∨ ∃ x ds, isBlank x = false ∧ squeeze cs = x :: pack false ds := by
    clear hends
    induction cs with
    | nil => exact .inl rfl
    | cons c cs ih =>
      rw [squeeze]
      split
      · exact ih
      · exact .inr ⟨c, cs, by simp_all, rfl⟩
  refine ⟨?_, hends, ?_, ?_⟩
  · obtain he | ⟨x, ds, hx, he⟩ := hcases <;> simp [he]
    exact hx
  · intro c hc hblank
    obtain rfl | ⟨-, hno⟩ := mem_squeeze hc
    · rfl
    · simp [hblank] at hno
  · obtain he | ⟨x, ds, hx, he⟩ := hcases
    · simp [he]
    · rw [he]
      exact pack_isChain false ds hx

/-- A text with single spaces is packed as it is. -/
theorem pack_eq {cs : List Char} (hlast : EndsBare cs)
    (hblank : ∀ c ∈ cs, isBlank c = true → c = ' ')
    (hapart : cs.IsChain fun c d ↦ isBlank c = true → isBlank d = false) :
    pack false cs = cs ∧
      (cs ≠ [] → (∀ c ∈ cs.head?, isBlank c = false) → pack true cs = ' ' :: cs) := by
  induction cs with
  | nil => simp [pack]
  | cons c cs ih =>
    rw [List.isChain_cons] at hapart
    obtain ⟨hc, hcs⟩ := List.forall_mem_cons.1 hblank
    obtain ⟨hpacked, hgap⟩ := ih hlast.tail hcs hapart.2
    by_cases hsp : isBlank c = true
    · have hne : cs ≠ [] := by
        rintro rfl
        simp [hlast c rfl] at hsp
      have hrest := hgap hne fun d hd ↦ hapart.1 d hd hsp
      obtain rfl := hc hsp
      simp [pack, hsp, hrest]
    · simp [pack, hsp, hpacked]

/-- To squeeze a text with single spaces changes nothing. -/
theorem Spaced.squeeze_eq {cs : List Char} (h : Spaced cs) : squeeze cs = cs := by
  cases cs with
  | nil => rfl
  | cons c cs =>
    have hc : isBlank c = false := h.first c rfl
    have hpacked := (pack_eq (EndsBare.tail h.last) (List.forall_mem_cons.1 h.blank).2
      (List.isChain_cons.1 h.apart).2).1
    simp [squeeze, hc, hpacked]

namespace Rewritten

variable {before : Option Char} {cs out : List Char}

theorem mem (h : Rewritten allowed L new before cs out) : ∀ c ∈ out, c ∈ cs ∨ c ∈ new := by
  induction h with
  | nil => simp
  | copy hno h ih => grind
  | put hallowed hL h ih => grind

/-- If `new` begins and ends with no white space, none comes together around it. -/
theorem apart (hne : new ≠ []) (hnew : Spaced new) (h : Rewritten allowed L new before cs out)
    (hcs : cs.IsChain fun c d ↦ isBlank c = true → isBlank d = false) :
    (out.IsChain fun c d ↦ isBlank c = true → isBlank d = false) ∧
      ∀ c ∈ out.head?, isBlank c = true → c ∈ cs.head? := by
  induction h with
  | nil => exact ⟨.nil, by simp⟩
  | @copy before c cs out hno h ih =>
    rw [List.isChain_cons] at hcs
    obtain ⟨hout, hfirst⟩ := ih hcs.2
    refine ⟨List.isChain_cons.2 ⟨?_, hout⟩, by simp⟩
    intro d hd hc
    by_cases hsp : isBlank d = true
    · exact hcs.1 d (hfirst d hd hsp) hc
    · simpa using hsp
  | @put before u cs out hallowed hL h ih =>
    obtain ⟨hout, -⟩ := ih hcs.right_of_append
    constructor
    · refine hnew.apart.append hout ?_
      intro c hc d hd hsp
      simp [hnew.last c hc] at hsp
    · intro c hc hsp
      rw [List.head?_append_of_ne_nil _ hne] at hc
      simp [hnew.first c hc] at hsp

theorem spaced (hne : new ≠ []) (hnew : Spaced new) (h : Rewritten allowed L new before cs out)
    (hcs : Spaced cs) (hlast : EndsBare out) : Spaced out := by
  obtain ⟨hout, hfirst⟩ := h.apart hne hnew hcs.apart
  refine ⟨?_, hlast, ?_, hout⟩
  · intro c hc
    by_cases hsp : isBlank c = true
    · exact hcs.first c (hfirst c hc hsp)
    · simpa using hsp
  · intro c hc
    rcases h.mem c hc with hc | hc
    · exact hcs.blank c hc
    · exact hnew.blank c hc

end Rewritten

end PlanCache.Text

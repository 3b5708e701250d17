import PlanCache.Proofs.InLists
import PlanCache.Proofs.Replacements

/-!
The text that tokens make together is in a normal form: no list of placeholders after `IN` is left
in it, placeholders in brackets stand alone, and to make it again from itself changes nothing.
-/

namespace PlanCache

namespace Text

/-- A word begins or ends between two characters, or at an end of the text. -/
def atBoundary (before behind : Option Char) : Bool := before.any isWord != behind.any isWord

end Text

namespace Rebuild

open Text Regex

def Blank (b : List Char) : Prop := ∀ c ∈ b, isBlank c = true

/-- A comma with white space around it. -/
def Comma (b : List Char) : Prop := ∃ b₁ b₂, Blank b₁ ∧ Blank b₂ ∧ b = b₁ ++ ',' :: b₂

/-- `n + 1` placeholders with texts of the form `sep` between them, and a closing bracket. -/
inductive Marked (sep : List Char → Prop) : Nat → List Char → Prop
  | last {b : List Char} : Blank b → Marked sep 0 ('?' :: (b ++ [')']))
  | more {b u : List Char} {n : Nat} : sep b → Marked sep n u → Marked sep (n + 1) ('?' :: (b ++ u))

/-- Placeholders in brackets. -/
def InBrackets (sep : List Char → Prop) (n : Nat) (u : List Char) : Prop :=
  ∃ b v, Blank b ∧ Marked sep n v ∧ u = '(' :: (b ++ v)

/-- `IN`, in capitals or not, and at least two placeholders in brackets. -/
def AfterIn (u : List Char) : Prop :=
  ∃ i n b k v, i ∈ ['I', 'i', 'ı', 'İ'] ∧ n ∈ ['N', 'n'] ∧ Blank b ∧ InBrackets Comma (k + 1) v ∧
    u = i :: n :: (b ++ v)

/-- Placeholders in brackets with nothing but white space between them. -/
def Run (u : List Char) : Prop := ∃ n, InBrackets Blank n u

section Forms

variable {sep : List Char → Prop} {b u v s cs ds : List Char} {c : Char} {n fuel : Nat}

theorem Blank.trimStart_append (hb : Blank b) (cs : List Char) :
    trimStart (b ++ cs) = trimStart cs := List.dropWhile_append_of_pos hb

theorem exists_blank (cs : List Char) : ∃ b, Blank b ∧ cs = b ++ trimStart cs :=
  ⟨cs.takeWhile isBlank, List.all_eq_true.1 List.all_takeWhile,
    List.takeWhile_append_dropWhile.symm⟩

theorem afterChar?_blank (hb : Blank b) : afterChar? c (c :: (b ++ cs)) = some (trimStart cs) := by
  simp [afterChar?, hb.trimStart_append]

theorem exists_blank_of_afterChar? (h : afterChar? c cs = some ds) :
    ∃ b, Blank b ∧ cs = c :: (b ++ ds) := by
  obtain ⟨es, rfl, rfl⟩ := afterChar?_eq_some h
  obtain ⟨b, hb, he⟩ := exists_blank es
  exact ⟨b, hb, congrArg _ he⟩

namespace Marked

theorem exists_cons (h : Marked sep n u) : ∃ v, u = '?' :: v := by
  cases h with
  | last hb => exact ⟨_, rfl⟩
  | more hb h => exact ⟨_, rfl⟩

theorem trimStart_append (h : Marked sep n u) (s : List Char) : trimStart (u ++ s) = u ++ s := by
  obtain ⟨v, rfl⟩ := h.exists_cons
  rfl

theorem getLast?_eq (h : Marked sep n u) : u.getLast? = some ')' := by
  induction h with
  | last hb => simp [List.getLast?_cons]
  | more hb h ih => simp [List.getLast?_cons, List.getLast?_append, ih]

theorem lt_length (h : Marked sep n u) : n < u.length := by
  induction h with
  | last hb => simp
  | more hb h ih =>
    simp only [List.length_cons, List.length_append]
    omega

theorem mem (hsep : ∀ {b}, sep b → ∀ c ∈ b, c = ',' ∨ isBlank c = true) (h : Marked sep n u) :
    ∀ c ∈ u, c = '?' ∨ c = ',' ∨ c = ')' ∨ isBlank c = true := by
  induction h with
  | last hb =>
    intro c hc
    simp only [List.mem_cons, List.mem_append, List.not_mem_nil, or_false] at hc
    rcases hc with rfl | hc | rfl
    · exact .inl rfl
    · exact .inr (.inr (.inr (hb c hc)))
    · exact .inr (.inr (.inl rfl))
  | more hb h ih =>
    intro c hc
    simp only [List.mem_cons, List.mem_append] at hc
    rcases hc with rfl | hc | hc
    · exact .inl rfl
    · rcases hsep hb c hc with rfl | hc
      · exact .inr (.inl rfl)
      · exact .inr (.inr (.inr hc))
    · exact ih c hc

theorem afterChar?_close (hb : Blank b) (s : List Char) :
    afterChar? '?' ('?' :: (b ++ [')']) ++ s) = some (')' :: s) := by
  rw [List.cons_append, List.append_assoc, afterChar?_blank hb]
  rfl

/-- A list is read up to its closing bracket, whatever follows. -/
theorem afterList?_append (h : Marked Comma n u) (hfuel : n < fuel) (s : List Char) :
    afterList? fuel (u ++ s) = some (n + 1, s) := by
  induction h generalizing fuel with
  | last hb =>
    obtain ⟨fuel, rfl⟩ : ∃ k, fuel = k + 1 := ⟨fuel - 1, by omega⟩
    exact afterList?_of_close (afterChar?_close hb s)
  | @more b u n hb h ih =>
    obtain ⟨fuel, rfl⟩ : ∃ k, fuel = k + 1 := ⟨fuel - 1, by omega⟩
    obtain ⟨b₁, b₂, hb₁, hb₂, rfl⟩ := hb
    have hread : afterChar? '?' ('?' :: (b₁ ++ ',' :: b₂ ++ u) ++ s) =
        some (',' :: (b₂ ++ (u ++ s))) := by
      rw [List.cons_append, List.append_assoc, List.append_assoc, afterChar?_blank hb₁]
      rfl
    rw [afterList?_of_comma hread, hb₂.trimStart_append, h.trimStart_append, ih (by omega)]
    rfl

theorem afterRun?_append (h : Marked Blank n u) (hfuel : n < fuel) (s : List Char) :
    afterRun? fuel (u ++ s) = some s := by
  induction h generalizing fuel with
  | last hb =>
    obtain ⟨fuel, rfl⟩ : ∃ k, fuel = k + 1 := ⟨fuel - 1, by omega⟩
    exact afterRun?_of_close (afterChar?_close hb s)
  | @more b u n hb h ih =>
    obtain ⟨fuel, rfl⟩ : ∃ k, fuel = k + 1 := ⟨fuel - 1, by omega⟩
    have hread : afterChar? '?' ('?' :: (b ++ u) ++ s) = some (u ++ s) := by
      rw [List.cons_append, List.append_assoc, afterChar?_blank hb, h.trimStart_append]
    rw [afterRun?_of_other hread, ih (by omega)]
    obtain ⟨v, rfl⟩ := h.exists_cons
    simp

end Marked

theorem exists_marked_of_afterList? {m : Nat} (h : afterList? fuel cs = some (m, s)) :
    ∃ n u, m = n + 1 ∧ Marked Comma n u ∧ cs = u ++ s := by
  induction fuel generalizing cs m with
  | zero => cases h
  | succ fuel ih =>
    by_cases hcomma : ∃ es, afterChar? '?' cs = some (',' :: es)
    · obtain ⟨es, hes⟩ := hcomma
      rw [afterList?_of_comma hes, Option.map_eq_some_iff] at h
      obtain ⟨⟨k, r⟩, hx, he⟩ := h
      obtain ⟨rfl, rfl⟩ := Prod.mk.inj he
      obtain ⟨n, u, rfl, hu, hus⟩ := ih hx
      obtain ⟨b, hb, rfl⟩ := exists_blank_of_afterChar? hes
      obtain ⟨b', hb', he⟩ := exists_blank es
      refine ⟨n + 1, _, rfl, .more ⟨b, b', hb, hb', rfl⟩ hu, ?_⟩
      rw [he, hus]
      simp
    by_cases hclose : ∃ es, afterChar? '?' cs = some (')' :: es)
    · obtain ⟨es, hes⟩ := hclose
      rw [afterList?_of_close hes] at h
      obtain ⟨rfl, rfl⟩ := Prod.mk.inj (Option.some.inj h)
      obtain ⟨b, hb, rfl⟩ := exists_blank_of_afterChar? hes
      exact ⟨0, _, rfl, .last hb, by simp⟩
    · rw [afterList?_of_other (fun es he ↦ hcomma ⟨es, he⟩) fun es he ↦ hclose ⟨es, he⟩] at h
      cases h

theorem exists_marked_of_afterRun? (h : afterRun? fuel cs = some s) :
    ∃ n u, Marked Blank n u ∧ cs = u ++ s := by
  induction fuel generalizing cs with
  | zero => cases h
  | succ fuel ih =>
    cases hread : afterChar? '?' cs with
    | none => rw [afterRun?_of_none hread] at h; cases h
    | some ds =>
      obtain ⟨b, hb, rfl⟩ := exists_blank_of_afterChar? hread
      by_cases hclose : ∃ es, ds = ')' :: es
      · obtain ⟨es, rfl⟩ := hclose
        rw [afterRun?_of_close hread] at h
        obtain rfl := Option.some.inj h
        exact ⟨0, _, .last hb, by simp⟩
      · rw [afterRun?_of_other hread fun es he ↦ hclose ⟨es, he⟩] at h
        obtain ⟨n, u, hu, rfl⟩ := ih h
        exact ⟨n + 1, _, .more hb hu, by simp⟩

theorem Comma.mem (hb : Comma b) : ∀ c ∈ b, c = ',' ∨ isBlank c = true := by
  obtain ⟨b₁, b₂, hb₁, hb₂, rfl⟩ := hb
  intro c hc
  rcases List.mem_append.1 hc with hc | hc
  · exact .inr (hb₁ c hc)
  · rcases List.mem_cons.1 hc with rfl | hc
    · exact .inl rfl
    · exact .inr (hb₂ c hc)

/-- Behind the opening bracket there is nothing but placeholders, commas and white space. -/
theorem InBrackets.not_mem (hsep : ∀ {b}, sep b → ∀ c ∈ b, c = ',' ∨ isBlank c = true)
    (h : InBrackets sep n u) (hc : isBlank c = false) (hne : c ∉ ['?', ',', ')']) :
    ∃ v, u = '(' :: v ∧ c ∉ v := by
  obtain ⟨b, v, hb, hv, rfl⟩ := h
  refine ⟨b ++ v, rfl, fun hmem ↦ ?_⟩
  rcases List.mem_append.1 hmem with hmem | hmem
  · simp [hb c hmem] at hc
  · simp only [List.mem_cons, List.not_mem_nil, or_false, not_or] at hne
    rcases hv.mem hsep c hmem with he | he | he | he
    · exact hne.1 he
    · exact hne.2.1 he
    · exact hne.2.2 he
    · simp [he] at hc

theorem InBrackets.getLast?_eq (h : InBrackets sep n u) : u.getLast? = some ')' := by
  obtain ⟨b, v, hb, hv, rfl⟩ := h
  simp [List.getLast?_cons, List.getLast?_append, hv.getLast?_eq]

theorem InBrackets.lt_length (h : InBrackets sep n u) : n < u.length := by
  obtain ⟨b, v, hb, hv, rfl⟩ := h
  have := hv.lt_length
  simp only [List.length_cons, List.length_append]
  omega

theorem InBrackets.afterChar?_append (h : InBrackets sep n u) (s : List Char) :
    ∃ v, Marked sep n v ∧ afterChar? '(' (u ++ s) = some (v ++ s) := by
  obtain ⟨b, v, hb, hv, rfl⟩ := h
  refine ⟨v, hv, ?_⟩
  rw [List.cons_append, List.append_assoc, afterChar?_blank hb, hv.trimStart_append]

theorem afterIn?_eq_some : afterIn? cs = some ds ↔ ∃ i n es, i ∈ ['I', 'i', 'ı', 'İ'] ∧
    n ∈ ['N', 'n'] ∧ cs = i :: n :: es ∧ ds = trimStart es := by
  rcases cs with - | ⟨c, - | ⟨d, es⟩⟩
  · simp [afterIn?]
  · simp [afterIn?]
  · simp only [afterIn?, List.cons.injEq]
    constructor
    · intro h
      split at h
      · rename_i hin
        have hletters : c ∈ ['I', 'i', 'ı', 'İ'] ∧ d ∈ ['N', 'n'] := by
          simpa [or_assoc] using hin
        exact ⟨c, d, es, hletters.1, hletters.2, ⟨rfl, rfl, rfl⟩, (Option.some.inj h).symm⟩
      · cases h
    · rintro ⟨i, n, es, hi, hn, ⟨rfl, rfl, rfl⟩, rfl⟩
      rw [if_pos (by simpa [or_assoc] using And.intro hi hn)]

theorem InBrackets.afterListed?_append (h : InBrackets Comma (n + 1) u) (hfuel : n + 1 < fuel)
    (s : List Char) : afterListed? fuel (u ++ s) = some s := by
  obtain ⟨v, hv, hread⟩ := h.afterChar?_append s
  simp [afterListed?, hread, hv.afterList?_append hfuel]

theorem exists_inBrackets_of_afterListed? (h : afterListed? fuel cs = some s) :
    ∃ n u, InBrackets Comma (n + 1) u ∧ cs = u ++ s := by
  obtain ⟨⟨m, r⟩, hlist, hlong⟩ := Option.bind_eq_some_iff.1 h
  obtain ⟨ds, hopen, hmarks⟩ := Option.bind_eq_some_iff.1 hlist
  obtain ⟨b, hb, rfl⟩ := exists_blank_of_afterChar? hopen
  obtain ⟨k, v, rfl, hv, rfl⟩ := exists_marked_of_afterList? hmarks
  split at hlong
  · rename_i hk
    obtain ⟨k, rfl⟩ : ∃ j, k = j + 1 := ⟨k - 1, by omega⟩
    obtain rfl := Option.some.inj hlong
    exact ⟨k, _, ⟨b, v, hb, hv, rfl⟩, by simp⟩
  · cases hlong

end Forms

theorem recognises_inList? :
    Recognises inList? (fun before ↦ !before.any isWord) AfterIn "IN ( ?? )".toList where
  sound := by
    intro before cs n out h
    rw [inList?_eq] at h
    split at h
    · cases h
    rename_i hword
    obtain ⟨s, hs, -⟩ := Option.map_eq_some_iff.1 h
    obtain ⟨opened, hopened, hlist⟩ := Option.bind_eq_some_iff.1 hs
    obtain ⟨i, d, es, hi, hd, rfl, rfl⟩ := afterIn?_eq_some.1 hopened
    obtain ⟨k, v, hv, hes⟩ := exists_inBrackets_of_afterListed? hlist
    obtain ⟨b, hb, he⟩ := exists_blank es
    refine ⟨by simpa using hword, _, s, ?_, i, d, b, k, v, hi, hd, hb, hv, rfl⟩
    rw [he, hes]
    simp
  complete := by
    rintro before u hb ⟨i, d, b, k, v, hi, hd, hblank, hv, rfl⟩ s
    have hword : before.any isWord = false := by simpa using hb
    have hopened : afterIn? (i :: d :: (b ++ v) ++ s) = some (v ++ s) := by
      refine afterIn?_eq_some.2 ⟨i, d, b ++ (v ++ s), hi, hd, by simp, ?_⟩
      obtain ⟨w, rfl, -⟩ := hv.not_mem Comma.mem (c := '(') (by decide) (by decide)
      rw [hblank.trimStart_append]
      rfl
    have hfuel : k + 1 < (i :: d :: (b ++ v) ++ s).length := by
      have := hv.lt_length
      simp only [List.length_cons, List.length_append]
      omega
    rw [inList?_eq, hword, if_neg Bool.false_ne_true, hopened, Option.bind_some,
      hv.afterListed?_append hfuel, Option.map_some, List.length_append, Nat.add_sub_cancel]
  ne_nil := by
    rintro u ⟨i, n, b, k, v, -, -, -, -, rfl⟩
    exact List.cons_ne_nil _ _

theorem recognises_run? : Recognises run? (fun _ ↦ true) Run "( ? )".toList where
  sound := by
    intro before cs n out h
    simp only [run?, Option.bind_eq_bind, Option.bind_eq_some_iff] at h
    obtain ⟨ds, hds, s, hs, -⟩ := h
    obtain ⟨b, hb, rfl⟩ := exists_blank_of_afterChar? hds
    obtain ⟨k, v, hv, rfl⟩ := exists_marked_of_afterRun? hs
    exact ⟨rfl, _, s, by simp, k, b, v, hb, hv, rfl⟩
  complete := by
    rintro before u - ⟨n, hu⟩ s
    obtain ⟨v, hv, hread⟩ := hu.afterChar?_append s
    have hfuel : n < (u ++ s).length := by
      have := hu.lt_length
      rw [List.length_append]
      omega
    simp only [run?, hread, Option.bind_eq_bind, Option.bind_some, hv.afterRun?_append hfuel]
    simp
  ne_nil := by
    rintro u ⟨n, b, v, -, -, rfl⟩
    exact List.cons_ne_nil _ _

theorem inList?_doubled (m : List Char) : inList? none ("IN ( ?? )".toList ++ m) = none := by
  have hopened : afterIn? ("IN ( ?? )".toList ++ m) = some ("( ?? )".toList ++ m) := rfl
  have hread : afterChar? '(' ("( ?? )".toList ++ m) = some ("?? )".toList ++ m) := rfl
  have hnext : afterChar? '?' ("?? )".toList ++ m) = some ("? )".toList ++ m) := rfl
  have hmarks : ∀ fuel, afterList? fuel ("?? )".toList ++ m) = none := by
    intro fuel
    apply afterList?_of_other
    · intro es he
      rw [hnext] at he
      exact absurd (List.cons.inj (Option.some.inj he)).1 (by decide)
    · intro es he
      rw [hnext] at he
      exact absurd (List.cons.inj (Option.some.inj he)).1 (by decide)
  rw [inList?_eq, hopened, Option.bind_some, afterListed?, hread, Option.bind_some, hmarks]
  rfl

theorem not_afterIn_append {u s m : List Char} (hu : AfterIn u) :
    u ++ s ≠ "IN ( ?? )".toList ++ m := by
  intro he
  have hread : inList? none (u ++ s) = some (u.length, "IN ( ?? )".toList) :=
    recognises_inList?.complete rfl hu s
  rw [he, inList?_doubled] at hread
  cases hread

/-- A list does not begin inside of `IN ( ?? )`, nor go on into it. -/
theorem apart_afterIn : Apart AfterIn "IN ( ?? )".toList where
  ne_nil := by decide
  first := by
    rintro u ⟨i, d, b, k, v, hi, hd, hb, hv, rfl⟩
    refine ⟨i, _, rfl, ?_, ?_⟩
    · simp only [List.mem_cons, List.not_mem_nil, or_false] at hi
      rcases hi with rfl | rfl | rfl | rfl <;> decide
    · obtain ⟨w, rfl, hw⟩ := hv.not_mem Comma.mem (c := 'I') (by decide) (by decide)
      intro a ha hmem
      obtain rfl := Option.some.inj ha
      simp only [List.mem_cons, List.not_mem_nil, or_false, List.mem_append] at hd hmem
      rcases hmem with rfl | hmem | hmem | hmem
      · revert hd
        decide
      · exact absurd (hb _ hmem) (by decide)
      · exact absurd hmem (by decide)
      · exact hw hmem
  last := by
    rintro u ⟨i, d, b, k, v, -, -, -, hv, rfl⟩
    simp [List.getLast?_cons, List.getLast?_append, hv.getLast?_eq]
  whole := by
    intro u s m hu he
    exact absurd he (not_afterIn_append hu)

theorem apart_run : Apart Run "( ? )".toList where
  ne_nil := by decide
  first := by
    rintro u ⟨n, hu⟩
    obtain ⟨v, rfl, hv⟩ := hu.not_mem (c := '(') (fun hb c hc ↦ .inr (hb c hc)) (by decide)
      (by decide)
    refine ⟨'(', v, rfl, by decide, fun a ha ↦ ?_⟩
    rwa [← Option.some.inj ha]
  last := by
    rintro u ⟨n, hu⟩
    exact hu.getLast?_eq
  whole := by
    intro u s m hu he
    have hread : run? none (u ++ s) = some (u.length, "( ? )".toList) :=
      recognises_run?.complete rfl hu s
    rw [he] at hread
    have hshort : run? none ("( ? )".toList ++ m) = some (5, "( ? )".toList) :=
      run?_bracketed 0 none m
    have hlen : u.length = 5 := by
      rw [hshort] at hread
      exact (Prod.mk.inj (Option.some.inj hread)).1.symm
    exact (List.append_inj he hlen).1

/-- A single placeholder in brackets is no list. -/
theorem not_inBrackets_append {k : Nat} {u s m : List Char} (hu : InBrackets Comma (k + 1) u) :
    u ++ s ≠ "( ? )".toList ++ m := by
  intro he
  have hlist := hu.afterListed?_append (Nat.lt_succ_self _) s
  have hread : afterChar? '(' ("( ? )".toList ++ m) = some ("? )".toList ++ m) := rfl
  have hclose : afterChar? '?' ("? )".toList ++ m) = some (')' :: m) := rfl
  rw [he, afterListed?, hread, Option.bind_some, afterList?_of_close hclose] at hlist
  cases hlist

/-- A list in a text whose runs have been shortened was there before. -/
theorem afterIn_of_rewritten {cs out p u s : List Char}
    (h : Rewritten (fun _ ↦ true) Run "( ? )".toList none cs out) (he : out = p ++ (u ++ s))
    (hu : AfterIn u) : ∃ cs₁ t, cs = cs₁ ++ (u ++ t) ∧ cs₁.getLast? = p.getLast? := by
  obtain ⟨i, d, b, k, v, hi, hd, hb, hv, rfl⟩ := hu
  have hletters : i ∉ "( ? )".toList ∧ d ≠ '(' := by
    simp only [List.mem_cons, List.not_mem_nil, or_false] at hi hd
    rcases hi with rfl | rfl | rfl | rfl <;> rcases hd with rfl | rfl <;> decide
  obtain ⟨cs₁, cs₂, rfl, hlast, h⟩ | ⟨n₁, n₂, m, hnew, -, hne, he⟩ :=
    h.split apart_run.last apart_run.ne_nil he
  · refine ⟨cs₁, ?_⟩
    -- Up to the bracket all has been copied, and behind it too unless a run has been put there.
    have hword : ∀ a ∈ "( ? )".toList.head?, a ∉ i :: d :: b := by
      intro a ha hmem
      obtain rfl := Option.some.inj ha
      simp only [List.mem_cons] at hmem
      rcases hmem with rfl | rfl | hmem
      · exact hletters.1 (by decide)
      · exact hletters.2 rfl
      · exact absurd (hb _ hmem) (by decide)
    have hout : i :: d :: (b ++ v) ++ s = (i :: d :: b) ++ (v ++ s) := by simp
    rw [hout] at h
    obtain ⟨t, rfl, hopen⟩ := h.copied apart_run.ne_nil hword
    obtain ⟨w, rfl, hw⟩ := hv.not_mem Comma.mem (c := '(') (by decide) (by decide)
    obtain ⟨ds, rfl, -, hrest⟩ | ⟨m, hm⟩ := hopen.cases_cons
    · obtain ⟨t, rfl, -⟩ := hrest.copied apart_run.ne_nil fun a ha ↦ by rwa [← Option.some.inj ha]
      exact ⟨t, by simp, hlast⟩
    · exact absurd hm (not_inBrackets_append hv)
  · obtain ⟨a, n₂, rfl⟩ := List.exists_cons_of_ne_nil hne
    obtain ⟨rfl, -⟩ := List.cons.inj he
    exact absurd (hnew ▸ List.mem_append_right n₁ List.mem_cons_self) hletters.1

/-- No list of placeholders after `IN` is left when a text has been shortened. -/
theorem not_afterIn_shorten {cs p u s : List Char} (he : shorten cs = p ++ (u ++ s))
    (hp : p.getLast?.any isWord = false) : ¬AfterIn u := by
  intro hu
  obtain ⟨q, t, hq, hlast⟩ := afterIn_of_rewritten (recognises_run?.rewritten none _) he hu
  have hlist := recognises_inList?.rewritten none cs
  rw [← substitute, hq] at hlist
  have hallowed : (!(q.getLast?.or none).any isWord) = true := by simp [hlast, hp]
  obtain rfl := hlist.eq_new_of_factor apart_afterIn hallowed hu
  exact not_afterIn_append (s := []) (m := []) hu rfl

/-- Placeholders in brackets stand alone when a text has been shortened. -/
theorem eq_of_run_shorten {cs p u s : List Char} (he : shorten cs = p ++ (u ++ s)) (hu : Run u) :
    u = "( ? )".toList := by
  have hrun := recognises_run?.rewritten none (substitute inList? cs)
  rw [← substitute, ← shorten, he] at hrun
  exact hrun.eq_new_of_factor apart_run rfl hu

theorem shorten_shorten (cs : List Char) : shorten (shorten cs) = shorten cs := by
  have hlist : substitute inList? (shorten cs) = shorten cs := by
    apply (recognises_inList?.rewritten none _).eq_self (by decide)
    intro p u s he hp hu
    exact absurd hu (not_afterIn_shorten he (by simpa using hp))
  have hrun : substitute run? (shorten cs) = shorten cs := by
    apply (recognises_run?.rewritten none _).eq_self (by decide)
    intro p u s he _ hu
    exact eq_of_run_shorten he hu
  rw [shorten, hlist, hrun]

theorem spaced_shorten {cs : List Char} (h : Spaced cs) : Spaced (shorten cs) := by
  have hlist : squeeze "IN ( ?? )".toList = "IN ( ?? )".toList := by decide
  have hrun : squeeze "( ? )".toList = "( ? )".toList := by decide
  have hmid : Spaced (substitute inList? cs) := by
    apply (recognises_inList?.rewritten none cs).spaced (by decide) _ h
    · exact EndsBare.substituteAfter (fun _ _ _ _ hread ↦ endsBare_inList? hread) 0 none h.last
    · exact hlist ▸ spaced_squeeze _
  apply (recognises_run?.rewritten none _).spaced (by decide) _ hmid
  · exact EndsBare.substituteAfter (fun _ _ _ _ hread ↦ endsBare_run? hread) 0 none hmid.last
  · exact hrun ▸ spaced_squeeze _

section Patterns

def blanks : Regex := .star (.char isBlank)

/-- A placeholder and a comma. -/
def item : Regex := all [just '?', blanks, just ',', blanks]

/-- `IN`, in capitals or not, and at least two placeholders, separated by commas, in brackets. -/
def listPattern : Regex :=
  all [anyOf ['I', 'i', 'ı', 'İ'], anyOf ['N', 'n'], blanks, just '(', blanks,
    plus item, just '?', blanks, just ')']

/-- Placeholders in brackets. -/
def runPattern : Regex :=
  all [just '(', blanks, just '?', blanks, .star (.seq (just '?') blanks), just ')']

variable {r : Regex} {u w b : List Char}

theorem matches_blanks : Matches blanks b ↔ Blank b := matches_star_iff_forall

theorem exists_comma_of_item (h : Matches item u) : ∃ b, Comma b ∧ u = '?' :: b := by
  simp only [item, all, matches_seq, matches_just, matches_blanks] at h
  obtain ⟨_, _, rfl, ⟨b₁, _, hb₁, ⟨_, b₂, rfl, hb₂, rfl⟩, rfl⟩, rfl⟩ := h
  exact ⟨_, ⟨b₁, b₂, hb₁, hb₂, rfl⟩, rfl⟩

theorem marked_of_items (h : Matches r w) (hr : r = .star item) (hb : Blank b) : ∃ k,
    Marked Comma k (w ++ '?' :: (b ++ [')'])) := by
  induction h with
  | stop => exact ⟨0, .last hb⟩
  | more hu _ _ ih =>
    cases hr
    obtain ⟨c, hc, rfl⟩ := exists_comma_of_item hu
    obtain ⟨k, hk⟩ := ih rfl
    exact ⟨k + 1, by simpa using Marked.more hc hk⟩
  | _ => cases hr

theorem marked_of_marks (h : Matches r w) (hr : r = .star (.seq (just '?') blanks))
    (hb : Blank b) : ∃ k, Marked Blank k ('?' :: (b ++ (w ++ [')']))) := by
  induction h generalizing b with
  | stop => exact ⟨0, .last hb⟩
  | more hu _ _ ih =>
    cases hr
    simp only [matches_seq, matches_just, matches_blanks] at hu
    obtain ⟨_, c, rfl, hc, rfl⟩ := hu
    obtain ⟨k, hk⟩ := ih rfl hc
    exact ⟨k + 1, by simpa using Marked.more hb hk⟩
  | _ => cases hr

theorem afterIn_of_matches (h : Matches listPattern u) : AfterIn u := by
  simp only [listPattern, all, anyOf, matches_seq, matches_plus, matches_char, matches_just,
    matches_blanks, List.contains_iff_mem] at h
  obtain ⟨_, _, ⟨i, hi, rfl⟩, ⟨_, _, ⟨n, hn, rfl⟩, ⟨b, _, hb, ⟨_, _, rfl, ⟨c, _, hc, ⟨_, _, hitems,
    ⟨_, _, rfl, ⟨d, _, hd, rfl, rfl⟩, rfl⟩, rfl⟩, rfl⟩, rfl⟩, rfl⟩, rfl⟩, rfl⟩ := h
  obtain ⟨_, w, hfirst, hrest, rfl⟩ := hitems
  obtain ⟨e, he, rfl⟩ := exists_comma_of_item hfirst
  obtain ⟨k, hk⟩ := marked_of_items hrest rfl hd
  exact ⟨i, n, b, k, _, hi, hn, hb, ⟨c, _, hc, .more he hk, rfl⟩, by simp⟩

theorem run_of_matches (h : Matches runPattern u) : Run u := by
  simp only [runPattern, all, matches_seq, matches_just, matches_blanks] at h
  obtain ⟨_, _, rfl, ⟨b, _, hb, ⟨_, _, rfl, ⟨c, _, hc, ⟨w, _, hw, rfl, rfl⟩, rfl⟩, rfl⟩, rfl⟩,
    rfl⟩ := h
  obtain ⟨k, hk⟩ := marked_of_marks hw rfl hc
  exact ⟨k, b, _, hb, hk, by simp⟩

end Patterns

end Rebuild

open Rebuild in
/-- A text in normal form is put together to itself. -/
theorem rebuild_singleton {r : String} (hspaced : Text.Spaced r.toList)
    (hshort : shorten r.toList = r.toList) : rebuild [⟨some r, false⟩] = r := by
  rw [rebuild_eq_shorten]
  by_cases hblank : Text.allBlank r = true
  · have hnil : r.toList = [] := by
      cases hr : r.toList with
      | nil => rfl
      | cons c cs =>
        have hc := hspaced.first c (by rw [hr]; rfl)
        simp [Text.allBlank, hr, hc] at hblank
    have hwords : Piece.words [⟨some r, false⟩] = [] := by simp [Piece.words, hblank]
    rw [hwords, ← String.ofList_toList (s := r), hnil]
    rfl
  · have hwords : Piece.words [⟨some r, false⟩] = [r] := by simp [Piece.words, hblank]
    rw [hwords, List.map_singleton, Text.unwords_singleton, hspaced.squeeze_eq, hshort,
      String.ofList_toList]

open Rebuild in
/-- The text of any tokens has single spaces only and none at its ends. No list of placeholders
after `IN` is left in it, placeholders in brackets are written in one way, and to make the text
again from itself changes nothing. -/
theorem rebuild_normal (ps : List Piece) :
    Text.Spaced (rebuild ps).toList ∧
    (∀ p u s, (rebuild ps).toList = p ++ u ++ s →
      Text.atBoundary p.getLast? (u ++ s).head? = true → ¬Regex.Matches listPattern u) ∧
    (∀ p u s, (rebuild ps).toList = p ++ u ++ s → Regex.Matches runPattern u →
      u = "( ? )".toList) ∧
    rebuild [⟨some (rebuild ps), false⟩] = rebuild ps := by
  obtain ⟨cs, hcs⟩ : ∃ cs, (rebuild ps).toList = shorten (Text.squeeze cs) :=
    ⟨_, by rw [rebuild, tidy_eq, String.toList_ofList]⟩
  have hspaced : Text.Spaced (rebuild ps).toList := by
    rw [hcs]
    exact spaced_shorten (Text.spaced_squeeze cs)
  refine ⟨hspaced, ?_, ?_, ?_⟩
  · intro p u s he hbound hu
    have hlist := afterIn_of_matches hu
    rw [hcs, List.append_assoc] at he
    apply not_afterIn_shorten he _ hlist
    -- The list begins with a letter, so a boundary before it means that no word goes on.
    obtain ⟨i, n, b, k, v, hi, -, -, -, rfl⟩ := hlist
    have hletter : Text.isWord i = true := by
      simp only [List.mem_cons, List.not_mem_nil, or_false] at hi
      rcases hi with rfl | rfl | rfl | rfl <;> decide +kernel
    simpa [Text.atBoundary, hletter] using hbound
  · intro p u s he hu
    rw [hcs, List.append_assoc] at he
    exact eq_of_run_shorten he (run_of_matches hu)
  · apply rebuild_singleton hspaced
    rw [hcs, shorten_shorten]

end PlanCache

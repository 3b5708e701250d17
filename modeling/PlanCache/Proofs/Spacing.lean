import PlanCache.Text.Blank

/-!
Texts with single spaces and none at their ends. Such a text of words is the words with single
spaces themselves, joined by single spaces.
-/

namespace PlanCache.Text

/-- The codes of white space. -/
def blanks : List Nat :=
  [0x09, 0x0a, 0x0b, 0x0c, 0x0d, 0x1c, 0x1d, 0x1e, 0x1f, 0x20, 0x85, 0xa0, 0x1680, 0x2000, 0x2001,
    0x2002, 0x2003, 0x2004, 0x2005, 0x2006, 0x2007, 0x2008, 0x2009, 0x200a, 0x2028, 0x2029, 0x202f,
    0x205f, 0x3000]

theorem mem_blanks {c : Char} (h : isBlank c = true) : c.toNat ∈ blanks := by
  have hranges : blanks = List.range' 0x09 5 ++ List.range' 0x1c 5 ++ [0x85, 0xa0, 0x1680] ++
      List.range' 0x2000 11 ++ [0x2028, 0x2029, 0x202f, 0x205f, 0x3000] := rfl
  unfold isBlank at h
  simp only [Bool.or_eq_true, Bool.and_eq_true, decide_eq_true_eq, beq_iff_eq] at h
  simp only [hranges, List.mem_append, List.mem_range'_1, List.mem_cons, List.not_mem_nil, or_false]
  omega

/-- What follows a character that is no white space; `gap` says whether white space has been passed
since. -/
def pack (gap : Bool) : List Char → List Char
  | [] => []
  | c :: cs =>
    if isBlank c then pack true cs
    else if gap then ' ' :: c :: pack false cs else c :: pack false cs

/-- A text with single spaces and none at its ends. -/
def squeeze : List Char → List Char
  | [] => []
  | c :: cs => if isBlank c then squeeze cs else c :: pack false cs

theorem trimStart_cons (c : Char) (cs : List Char) :
    trimStart (c :: cs) = if isBlank c then trimStart cs else c :: cs := by
  cases h : isBlank c <;> simp [trimStart, h]

theorem trimStart_collapseAfter (after : Bool) (cs : List Char) :
    trimStart (collapseAfter after cs) = collapseAfter false (trimStart cs) := by
  induction cs generalizing after with
  | nil => rfl
  | cons c cs ih =>
    rw [trimStart_cons]
    cases h : isBlank c with
    | true =>
      have hspace : isBlank ' ' = true := rfl
      cases after <;> simp [collapseAfter, h, trimStart_cons, hspace, ih]
    | false => simp [collapseAfter, h, trimStart_cons]

/-- White space at the end is left out. -/
def trimEnd (cs : List Char) : List Char := (trimStart cs.reverse).reverse

theorem trimEnd_concat (cs : List Char) (c : Char) :
    trimEnd (cs ++ [c]) = if isBlank c then trimEnd cs else cs ++ [c] := by
  rw [trimEnd, List.reverse_append, List.reverse_singleton, List.singleton_append, trimStart_cons]
  split
  · rfl
  · simp

/-- A space that collapsing has written stays exactly if something follows it. -/
theorem trimEnd_collapseAfter (cs ys : List Char) (y : Char) (hy : isBlank y = false) :
    trimEnd (ys ++ y :: collapseAfter false cs) = ys ++ y :: pack false cs ∧
      trimEnd (ys ++ y :: ' ' :: collapseAfter true cs) = ys ++ y :: pack true cs := by
  induction cs generalizing ys y with
  | nil =>
    have hspace : isBlank ' ' = true := rfl
    constructor
    · rw [collapseAfter, trimEnd_concat, hy]
      rfl
    · have hsplit : ys ++ [y, ' '] = ys ++ [y] ++ [' '] := by simp
      rw [collapseAfter, hsplit, trimEnd_concat, hspace, if_pos rfl, trimEnd_concat, hy]
      rfl
  | cons c cs ih =>
    cases h : isBlank c with
    | true => simpa [collapseAfter, pack, h] using (ih ys y hy).2
    | false =>
      have hone := (ih (ys ++ [y]) c h).1
      have htwo := (ih (ys ++ [y, ' ']) c h).1
      simp only [List.append_assoc, List.cons_append, List.nil_append] at hone htwo
      simp only [collapseAfter, pack, h, Bool.false_eq_true, if_false, if_true]
      exact ⟨hone, htwo⟩

theorem trim_collapse (cs : List Char) : trim (collapse cs) = squeeze cs := by
  change trimEnd (trimStart (collapseAfter false cs)) = squeeze cs
  rw [trimStart_collapseAfter]
  induction cs with
  | nil => rfl
  | cons c cs ih =>
    rw [trimStart_cons, squeeze]
    cases hc : isBlank c with
    | true => exact ih
    | false => simpa [collapseAfter, hc] using (trimEnd_collapseAfter cs [] c hc).1

theorem pack_append_space (gap : Bool) (us vs : List Char) :
    pack gap (us ++ ' ' :: vs) = pack gap us ++ pack true vs := by
  induction us generalizing gap with
  | nil => rfl
  | cons c us ih =>
    cases h : isBlank c with
    | true => simp [pack, h, ih]
    | false => cases gap <;> simp [pack, h, ih]

theorem pack_true {cs : List Char} (h : cs.all isBlank = false) :
    pack true cs = ' ' :: squeeze cs := by
  induction cs with
  | nil => cases h
  | cons c cs ih =>
    rw [pack, squeeze]
    cases hc : isBlank c with
    | true =>
      rw [List.all_cons, hc, Bool.true_and] at h
      exact ih h
    | false => rfl

/-- Squeezing goes word by word. -/
theorem squeeze_append_space {us vs : List Char} (hu : us.all isBlank = false)
    (hv : vs.all isBlank = false) :
    squeeze (us ++ ' ' :: vs) = squeeze us ++ ' ' :: squeeze vs := by
  induction us with
  | nil => cases hu
  | cons c us ih =>
    rw [List.cons_append, squeeze, squeeze]
    cases hc : isBlank c with
    | true =>
      rw [List.all_cons, hc, Bool.true_and] at hu
      exact ih hu
    | false =>
      rw [if_neg (by decide), if_neg (by decide), pack_append_space, pack_true hv,
        List.cons_append]

theorem pack_of_no_blank {cs : List Char} (h : ∀ c ∈ cs, isBlank c = false) :
    pack false cs = cs := by
  induction cs with
  | nil => rfl
  | cons c cs ih =>
    rw [List.forall_mem_cons] at h
    rw [pack, h.1, ih h.2]
    rfl

theorem squeeze_of_no_blank {cs : List Char} (h : ∀ c ∈ cs, isBlank c = false) :
    squeeze cs = cs := by
  cases cs with
  | nil => rfl
  | cons c cs =>
    rw [List.forall_mem_cons] at h
    rw [squeeze, h.1, pack_of_no_blank h.2]
    rfl

theorem mem_pack {gap : Bool} {cs : List Char} {c : Char} (h : c ∈ pack gap cs) :
    c = ' ' ∨ c ∈ cs ∧ isBlank c = false := by
  induction cs generalizing gap with
  | nil => cases h
  | cons d cs ih =>
    have hcs : ∀ {gap : Bool}, c ∈ pack gap cs → c = ' ' ∨ c ∈ d :: cs ∧ isBlank c = false :=
      fun hm ↦ (ih hm).imp_right (And.imp_left (List.mem_cons_of_mem d))
    rw [pack] at h
    cases hd : isBlank d with
    | true =>
      rw [hd] at h
      exact hcs h
    | false =>
      rw [hd] at h
      cases gap with
      | true =>
        simp only [Bool.false_eq_true, if_false, if_true, List.mem_cons] at h
        rcases h with h | rfl | h
        · exact .inl h
        · exact .inr ⟨List.mem_cons_self, hd⟩
        · exact hcs h
      | false =>
        simp only [Bool.false_eq_true, if_false, List.mem_cons] at h
        rcases h with rfl | h
        · exact .inr ⟨List.mem_cons_self, hd⟩
        · exact hcs h

theorem mem_squeeze {cs : List Char} {c : Char} (h : c ∈ squeeze cs) :
    c = ' ' ∨ c ∈ cs ∧ isBlank c = false := by
  induction cs with
  | nil => cases h
  | cons d cs ih =>
    rw [squeeze] at h
    cases hd : isBlank d with
    | true =>
      rw [hd] at h
      exact (ih h).imp_right (And.imp_left (List.mem_cons_of_mem d))
    | false =>
      rw [hd] at h
      simp only [Bool.false_eq_true, if_false, List.mem_cons] at h
      rcases h with rfl | h
      · exact .inr ⟨List.mem_cons_self, hd⟩
      · exact (mem_pack h).imp_right (And.imp_left (List.mem_cons_of_mem d))

/-- Words joined by single spaces. -/
def unwords (words : List (List Char)) : List Char := [' '].intercalate words

theorem unwords_cons_cons (w v : List Char) (ws : List (List Char)) :
    unwords (w :: v :: ws) = w ++ ' ' :: unwords (v :: ws) := by
  simp [unwords, List.intercalate_cons_cons]

theorem unwords_singleton (w : List Char) : unwords [w] = w := by
  simp [unwords, List.intercalate]

theorem unwords_append {ws vs : List (List Char)} (hw : ws ≠ []) (hv : vs ≠ []) :
    unwords (ws ++ vs) = unwords ws ++ ' ' :: unwords vs := by
  obtain ⟨v, vs, rfl⟩ := List.exists_cons_of_ne_nil hv
  induction ws with
  | nil => exact absurd rfl hw
  | cons w ws ih =>
    cases ws with
    | nil => rw [List.singleton_append, unwords_cons_cons, unwords_singleton]
    | cons u ws =>
      have hrest := ih (List.cons_ne_nil u ws)
      rw [List.cons_append, List.cons_append, unwords_cons_cons, ← List.cons_append, hrest,
        unwords_cons_cons, List.append_assoc, List.cons_append]

/-- Words that come in groups are joined group by group. -/
theorem unwords_flatten (groups : List (List (List Char))) :
    unwords groups.flatten = unwords ((groups.filter (!·.isEmpty)).map unwords) := by
  induction groups with
  | nil => rfl
  | cons ws groups ih =>
    cases hws : ws with
    | nil => simpa using ih
    | cons w ws' =>
      rw [← hws]
      have hne : ws ≠ [] := by simp [hws]
      have hcons : (ws :: groups).filter (!·.isEmpty) = ws :: groups.filter (!·.isEmpty) := by
        simp [hws]
      rw [hcons, List.flatten_cons, List.map_cons]
      by_cases hg : groups.filter (!·.isEmpty) = []
      · have hflat : groups.flatten = [] := by
          rw [List.flatten_eq_nil_iff]
          intro x hx
          simpa using List.filter_eq_nil_iff.1 hg x hx
        rw [hg, hflat, List.append_nil, List.map_nil, unwords_singleton]
      · have hflat : groups.flatten ≠ [] := by
          intro hflat
          rw [List.flatten_eq_nil_iff] at hflat
          refine hg (List.filter_eq_nil_iff.2 fun x hx ↦ ?_)
          simp [hflat x hx]
        obtain ⟨v, vs, hv⟩ := List.exists_cons_of_ne_nil hg
        rw [unwords_append hne hflat, ih, hv, List.map_cons, unwords_cons_cons]

theorem mem_unwords {ws : List (List Char)} {c : Char} (h : c ∈ unwords ws) :
    c = ' ' ∨ ∃ w ∈ ws, c ∈ w := by
  induction ws with
  | nil => cases h
  | cons w ws ih =>
    cases ws with
    | nil =>
      rw [unwords_singleton] at h
      exact .inr ⟨w, List.mem_cons_self, h⟩
    | cons v ws =>
      rw [unwords_cons_cons, List.mem_append, List.mem_cons] at h
      rcases h with h | h | h
      · exact .inr ⟨w, List.mem_cons_self, h⟩
      · exact .inl h
      · exact (ih h).imp_right fun ⟨x, hx, hc⟩ ↦ ⟨x, List.mem_cons_of_mem _ hx, hc⟩

theorem all_isBlank_unwords {w : List Char} {ws : List (List Char)}
    (hw : w.all isBlank = false) : (unwords (w :: ws)).all isBlank = false := by
  cases ws with
  | nil => rwa [unwords_singleton]
  | cons v ws => rw [unwords_cons_cons, List.all_append, hw, Bool.false_and]

theorem squeeze_unwords {ws : List (List Char)} (h : ∀ w ∈ ws, w.all isBlank = false) :
    squeeze (unwords ws) = unwords (ws.map squeeze) := by
  induction ws with
  | nil => rfl
  | cons w ws ih =>
    rw [List.forall_mem_cons] at h
    cases ws with
    | nil => simp [unwords_singleton]
    | cons v ws =>
      rw [unwords_cons_cons, squeeze_append_space h.1
        (all_isBlank_unwords (h.2 v List.mem_cons_self)), ih h.2]
      exact (unwords_cons_cons _ _ _).symm

/-- Texts that are joined and then squeezed are squeezed one by one. -/
theorem squeeze_joinWords (texts : List String) :
    squeeze (joinWords texts).toList =
      unwords ((texts.filter (!allBlank ·)).map fun s ↦ squeeze s.toList) := by
  have hj : (joinWords texts).toList =
      unwords ((texts.filter (!allBlank ·)).map String.toList) := String.toList_intercalate
  rw [hj, squeeze_unwords, List.map_map]
  · rfl
  · intro w hw
    obtain ⟨s, hs, rfl⟩ := List.mem_map.1 hw
    have hb := (List.mem_filter.1 hs).2
    rwa [Bool.not_eq_true', allBlank] at hb

end PlanCache.Text

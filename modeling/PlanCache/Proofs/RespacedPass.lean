import PlanCache.Proofs.OneLine

/-!
Replacing the literals of a text and of the same text in one line, node by node in step. The texts
of the tokens differ in the width of white space only, which is lost in the end.
-/

namespace PlanCache

namespace Buffer

variable {b c : Buffer} {s t : String} {first last first' last' : Nat}

/-- Two buffers over texts with the same kinds of tokens. The texts in them differ in the width of
white space. -/
structure Spread (s t : String) (b c : Buffer) : Prop where
  left : b.Over s
  right : c.Over t
  size : ∀ {i j}, Paired s t i j → (i < b.texts.size ↔ j < c.texts.size)
  texts : ∀ {i j}, Paired s t i j → Text.Respaced (b.text i).toList (c.text j).toList

theorem exists_toList_missing (source : Source) (k : Kind) :
    ∃ cs, (source.leafText (.missing k)).toList = '<' :: (cs ++ ['>']) := by
  unfold Source.leafText
  split
  · rename_i he
    cases he
  · exact ⟨"missing EOF".toList, rfl⟩
  · exact ⟨"missing ".toList ++ _, by simp [String.toList_append]; rfl⟩

theorem trimmed_missing (source : Source) (k : Kind) :
    Text.Trimmed (source.leafText (.missing k)).toList := by
  obtain ⟨cs, hcs⟩ := exists_toList_missing source k
  rw [hcs]
  constructor
  · intro c hc
    obtain rfl := Option.some.inj hc
    rfl
  · intro c hc
    rw [← List.cons_append, List.getLast?_concat] at hc
    obtain rfl := Option.some.inj hc
    rfl

namespace Spread

theorem cut (h : Spread s t b c) (hf : Paired s t first first') (hl : Paired s t last last') :
    Spread s t (b.cut first last) (c.cut first' last') := by
  have hmark : Text.Trimmed placeholder.toList :=
    .of_no_blank (isBlank_eq_false_of_any (by decide))
  refine ⟨h.left.cut hf.solid.1 last, h.right.cut hf.solid.2 last', fun hp ↦ ?_, fun hp ↦ ?_⟩
  · rw [size_cut, size_cut]
    exact h.size hp
  · exact text_cut_paired (R := fun u v ↦ Text.Respaced u.toList v.toList) (.refl hmark)
      (.refl .nil) hf hl h.size h.texts hp

theorem leafText (h : Spread s t b c) (hk : SameKinds s t) {l : Leaf}
    (hl : ∀ i, l = .read i → i < (Source.ofString s).input.size) :
    Text.Respaced (b.leafText l).toList (c.leafText l).toList := by
  cases l with
  | read i =>
    rw [Buffer.leafText, Buffer.leafText, h.left.source, h.right.source]
    exact h.texts (hk.paired (hl i rfl))
  | missing k =>
    have hm : b.leafText (.missing k) = c.leafText (.missing k) := by
      cases k <;> rfl
    rw [hm]
    exact .refl (trimmed_missing c.source k)

theorem nodeText (h : Spread s t b c) (hk : SameKinds s t) {ts : List Tree}
    (hl : ∀ i e, (.read i, e) ∈ Tree.leavesAll ts → i < (Source.ofString s).input.size) :
    Text.Respaced (b.nodeText ts).toList (c.nodeText ts).toList := by
  apply Text.Respaced.join
  intro l hm
  apply h.leafText hk
  intro i hi
  exact hl i l.2 (hi ▸ hm)

/-- The word of a token that is put back into the query, unless it is blank. -/
def inked? (b : Buffer) (x : Token × Nat) : Option (List Char) :=
  ((b.present? x).filter (!Text.allBlank ·)).map fun w ↦ Text.squeeze w.toList

theorem inked_filterMap (b : Buffer) (xs : List (Token × Nat)) :
    ((xs.filterMap b.present?).filter (!Text.allBlank ·)).map (fun w ↦ Text.squeeze w.toList) =
      xs.filterMap (inked? b) := by
  rw [List.filter_filterMap, List.map_filterMap]
  rfl

theorem inked?_eq (hk : SameKinds s t) (h : Spread s t b c) {r : Nat} {x y : Token × Nat}
    (hx : (Token.solid s)[r]? = some x) (hy : (Token.solid t)[r]? = some y) :
    inked? b x = inked? c y := by
  have hp : Paired s t x.2 y.2 := ⟨r, x.1, y.1, hx, hy⟩
  have htexts := h.texts hp
  have hsize := h.size hp
  unfold inked? present?
  rw [Paired.kind_eq hk hx hy]
  unfold text at htexts
  rw [Array.getD_eq_getD_getElem?, Array.getD_eq_getD_getElem?] at htexts
  split
  · rfl
  · by_cases hlt : x.2 < b.texts.size
    · have hlt' := hsize.1 hlt
      rw [Array.getElem?_eq_getElem hlt, Array.getElem?_eq_getElem hlt', Option.getD_some,
        Option.getD_some] at htexts
      rw [Array.getElem?_eq_getElem hlt, Array.getElem?_eq_getElem hlt', Option.filter_some,
        Option.filter_some, Text.allBlank, Text.allBlank, htexts.all_isBlank_eq]
      split
      · rw [Option.map_some, Option.map_some, htexts.squeeze_eq]
      · rfl
    · have hge := Nat.le_of_not_lt hlt
      have hge' := Nat.le_of_not_lt (mt hsize.2 hlt)
      rw [Array.getElem?_eq_none hge, Array.getElem?_eq_none hge']

theorem rebuild_eq (hk : SameKinds s t) (h : Spread s t b c) : b.rebuild = c.rebuild := by
  have hinked : (Token.solid s).filterMap (inked? b) = (Token.solid t).filterMap (inked? c) :=
    hk.filterMap_eq (h.inked?_eq hk)
  rw [rebuild_of_over h.left, rebuild_of_over h.right, Rebuild.tidy, Rebuild.tidy,
    Text.trim_collapse, Text.trim_collapse, Text.squeeze_joinWords, Text.squeeze_joinWords,
    inked_filterMap, inked_filterMap, hinked]

end Spread

end Buffer

namespace Replaced

open Buffer

variable {s t : String} {x : Head × List Tree} {p q : Replaced}

def Spread (s t : String) (p q : Replaced) : Prop := p.buffer.Spread s t q.buffer

theorem Spread.cut (hk : SameKinds s t) (hx : x.1.Placed (Source.ofString s).input)
    (h : Spread s t p q) (noted noted' : List String) :
    Halt.Both (Spread s t) (p.cut noted x.1) (q.cut noted' x.1) := by
  have hsource : p.buffer.source = .ofString s ∧ q.buffer.source = .ofString t :=
    ⟨h.left.source, h.right.source⟩
  unfold Replaced.cut cutNode range
  rw [hsource.1, hsource.2]
  cases hs : x.1.stop with
  | none => exact .error _ p q
  | some j => exact .ok (Buffer.Spread.cut h (hk.paired hx.start_lt) (hk.paired (hx.stop_lt j hs)))

theorem Spread.step (hk : SameKinds s t) (hx : x.1.Placed (Source.ofString s).input)
    (hl : ∀ i e, (.read i, e) ∈ Tree.leavesAll x.2 → i < (Source.ofString s).input.size)
    (h : Spread s t p q) : Halt.Both (Spread s t) (p.step x.1 x.2) (q.step x.1 x.2) := by
  have ht := Buffer.Spread.nodeText h hk hl
  refine step_both (h.cut hk hx) (fun _ ↦ h) (fun w hw ↦ ?_) ht.isDoubleQuoted_eq
  rw [lowerText, lowerText, ← String.toList_inj, ← String.toList_inj, String.toList_ofList,
    String.toList_ofList]
  exact ht.lower_eq_iff_lower_eq hw

end Replaced

section OneLine

variable {sql q : String} {i j : Nat}

theorem Unbroken.sameKinds (h : Unbroken sql)
    (hq : q.toList = Text.unwords ((Token.written sql).map Token.word)) : SameKinds sql q := by
  have hkinds := congrArg (List.map Prod.fst) (h.solid_eq hq)
  rw [List.map_map, List.map_map] at hkinds
  exact hkinds.symm

theorem Unbroken.word_eq (h : Unbroken sql)
    (hq : q.toList = Text.unwords ((Token.written sql).map Token.word)) {r : Nat} {x y : Token}
    (hx : (Token.solid sql)[r]? = some (x, i)) (hy : (Token.solid q)[r]? = some (y, j)) :
    y.text.toList = x.word := by
  have hr := congrArg (·[r]?) (h.solid_eq hq)
  simp only [List.getElem?_map, hx, hy, Option.map_some] at hr
  exact (Prod.mk.inj (Option.some.inj hr)).2

theorem Unbroken.spread (h : Unbroken sql)
    (hq : q.toList = Text.unwords ((Token.written sql).map Token.word)) :
    (Buffer.ofString sql).1.Spread sql q (Buffer.ofString q).1 := by
  have hk := h.sameKinds hq
  refine ⟨over_ofString sql, over_ofString q, fun hp ↦ ?_, fun hp ↦ ?_⟩
  · have hlast := hk.le_lastRead_iff hp
    obtain ⟨r, x, y, hx, hy⟩ := hp
    have hsx := (Token.mem_solid.1 (List.mem_of_getElem? hx)).1
    have hsy := (Token.mem_solid.1 (List.mem_of_getElem? hy)).1
    rw [lt_size_ofString hsx, lt_size_ofString hsy, hlast]
  · have hlast := hk.le_lastRead_iff hp
    obtain ⟨r, x, y, hx, hy⟩ := hp
    obtain ⟨hsx, hblank⟩ := Token.mem_solid.1 (List.mem_of_getElem? hx)
    have hsy := (Token.mem_solid.1 (List.mem_of_getElem? hy)).1
    rw [text_ofString hsx, text_ofString hsy]
    simp only [hlast]
    split
    · rw [h.word_eq hq hx hy]
      exact .squeeze (h.trimmed (List.mem_of_getElem? hsx) hblank)
    · exact .refl .nil

/-- A text has the same normal text in one line. -/
theorem Unbroken.normalize_eq (h : Unbroken sql)
    (hq : q.toList = Text.unwords ((Token.written sql).map Token.word)) :
    normalize sql = normalize q := by
  have hk := h.sameKinds hq
  have hboth : Halt.Both (Replaced.Spread sql q)
      ((Buffer.ofString sql).1.replaceLiterals (Buffer.ofString sql).2)
      ((Buffer.ofString q).1.replaceLiterals (Buffer.ofString q).2) := by
    rw [← hk.tree_eq]
    refine passNodes_both (R := fun _ ↦ Replaced.Spread sql q) (fun x hx _ a b hab ↦ ?_)
      (h.spread hq)
    obtain ⟨hp, hl⟩ := (placed_ofString sql).nodes x hx
    exact hab.step hk hp hl
  exact normalize_eq_of_both hboth (fun hab ↦ Buffer.Spread.rebuild_eq hk hab)

end OneLine

end PlanCache

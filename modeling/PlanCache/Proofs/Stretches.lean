import PlanCache.Proofs.NormalForm
import PlanCache.Proofs.Rescanning
import PlanCache.Proofs.Spans
import PlanCache.Proofs.TokenPairs

/-!
The text of a query in stretches of tokens: selects, and what stands before, between and behind
them. Cutting the selects out of the tokens leaves the other stretches as they are.
-/

namespace PlanCache

/-- A token and the text that it has at present. -/
abbrev Cell := Token × String

section Ranges

/-- Ranges one after another from `i` on, none of them empty. -/
def Ascending : Nat → List (Nat × Nat) → Prop
  | _, [] => True
  | i, (first, last) :: ranges => i ≤ first ∧ first ≤ last ∧ Ascending (last + 1) ranges

/-- A list that begins with the `i`-th member of another, split at ranges of that one. The pieces
that are ranges are marked. -/
def splitRanges {α : Type} : Nat → List (Nat × Nat) → List α → List (Bool × List α)
  | _, [], xs => [(false, xs)]
  | i, (first, last) :: ranges, xs =>
    (false, xs.take (first - i)) :: (true, (xs.drop (first - i)).take (last + 1 - first)) ::
      splitRanges (last + 1) ranges (xs.drop (last + 1 - i))

theorem flatMap_splitRanges {α : Type} {i : Nat} {ranges : List (Nat × Nat)}
    (h : Ascending i ranges) (xs : List α) :
    (splitRanges i ranges xs).flatMap Prod.snd = xs := by
  induction ranges generalizing i xs with
  | nil => simp [splitRanges]
  | cons r ranges ih =>
    obtain ⟨first, last⟩ := r
    obtain ⟨hi, hle, hrest⟩ := h
    have hdrop : xs.drop (last + 1 - i) = (xs.drop (first - i)).drop (last + 1 - first) := by
      rw [List.drop_drop]
      congr 1
      omega
    rw [splitRanges, List.flatMap_cons, List.flatMap_cons, ih hrest, hdrop,
      List.take_append_drop, List.take_append_drop]

theorem length_filter_splitRanges {α : Type} (i : Nat) (ranges : List (Nat × Nat)) (xs : List α) :
    ((splitRanges i ranges xs).filter Prod.fst).length = ranges.length := by
  induction ranges generalizing i xs with
  | nil => rfl
  | cons r ranges ih => simp [splitRanges, ih]

theorem sublist_of_mem_splitRanges {α : Type} {i : Nat} {ranges : List (Nat × Nat)} {xs : List α}
    {p : Bool × List α} (h : p ∈ splitRanges i ranges xs) : p.2.Sublist xs := by
  induction ranges generalizing i xs with
  | nil =>
    obtain rfl := List.mem_singleton.1 h
    exact List.Sublist.refl xs
  | cons r ranges ih =>
    rcases List.mem_cons.1 h with rfl | h
    · exact List.take_sublist _ _
    · rcases List.mem_cons.1 h with rfl | h
      · exact (List.take_sublist _ _).trans (List.drop_sublist _ _)
      · exact (ih h).trans (List.drop_sublist _ _)

theorem le_of_mem_ranges {α : Type} {i : Nat} {ranges : List (Nat × Nat)} {xs : List α}
    (h : ∀ p ∈ splitRanges i ranges xs, p.1 = true → p.2 ≠ []) : ∀ r ∈ ranges, r.1 ≤ r.2 := by
  induction ranges generalizing i xs with
  | nil => exact nofun
  | cons r ranges ih =>
    obtain ⟨first, last⟩ := r
    rw [splitRanges, List.forall_mem_cons, List.forall_mem_cons] at h
    refine List.forall_mem_cons.2 ⟨?_, ih h.2.2⟩
    apply Nat.le_of_not_lt
    intro hlt
    have hnone : last + 1 - first = 0 := Nat.sub_eq_zero_of_le hlt
    refine h.2.1 rfl ?_
    rw [hnone, List.take_zero]

/-- The placeholder on the first of some cells, the others cleared. -/
def marked : List Cell → List Cell
  | [] => []
  | c :: cs => (c.1, placeholder) :: cs.map fun c ↦ (c.1, "")

/-- The placeholder on the cell `first`, the others up to `last` cleared. -/
def markRange (first last : Nat) (cells : List Cell) : List Cell :=
  cells.mapIdx fun i c ↦
    (c.1, if i = first then placeholder else if first ≤ i ∧ i ≤ last then "" else c.2)

theorem mapIdx_lt (cells : List Cell) (n : Nat) :
    (cells.mapIdx fun i c ↦ (c.1, if i < n then "" else c.2)) =
      (cells.take n).map (fun c ↦ (c.1, "")) ++ cells.drop n := by
  induction cells generalizing n with
  | nil => simp
  | cons c cells ih =>
    cases n with
    | zero =>
      rw [List.mapIdx_eq_iff]
      intro i
      simp
    | succ n =>
      have h := ih n
      simp only [List.mapIdx_cons, Nat.add_lt_add_iff_right, h]
      simp

theorem markRange_eq {first last : Nat} (h : first ≤ last) (cells : List Cell) :
    markRange first last cells = cells.take first ++
      (marked ((cells.drop first).take (last + 1 - first)) ++ cells.drop (last + 1)) := by
  induction cells generalizing first last with
  | nil => simp [markRange, marked]
  | cons c cells ih =>
    cases first with
    | zero =>
      have hrest := mapIdx_lt cells last
      simp only [markRange, List.mapIdx_cons, Nat.zero_le, true_and, Nat.add_one_ne_zero, if_false,
        if_true, Nat.add_one_le_iff, hrest]
      rfl
    | succ first =>
      obtain ⟨last, rfl⟩ : ∃ k, last = k + 1 := ⟨last - 1, by omega⟩
      have hrest := ih (Nat.le_of_succ_le_succ h)
      simp only [markRange] at hrest
      simp only [markRange, List.mapIdx_cons, Nat.add_right_cancel_iff, Nat.add_le_add_iff_right,
        hrest]
      simp

theorem length_marked (cells : List Cell) : (marked cells).length = cells.length := by
  cases cells <;> simp [marked]

/-- Marking ranges one after another marks the pieces that are ranges. -/
theorem foldl_markRange {i : Nat} {ranges : List (Nat × Nat)} (h : Ascending i ranges)
    (done cells : List Cell) (hle : done.length ≤ i) (hi : cells ≠ [] → done.length = i) :
    ranges.foldl (fun cs r ↦ markRange r.1 r.2 cs) (done ++ cells) =
      done ++ (splitRanges i ranges cells).flatMap fun p ↦ if p.1 then marked p.2 else p.2 := by
  induction ranges generalizing i done cells with
  | nil => simp [splitRanges]
  | cons r ranges ih =>
    obtain ⟨first, last⟩ := r
    obtain ⟨hfirst, hlast, hrest⟩ := h
    let piece := (cells.drop (first - i)).take (last + 1 - first)
    have hmark : markRange first last (done ++ cells) =
        (done ++ cells.take (first - i) ++ marked piece) ++ cells.drop (last + 1 - i) := by
      have hdone : done.drop first = [] := List.drop_eq_nil_of_le (by omega)
      have hdone' : done.drop (last + 1) = [] := List.drop_eq_nil_of_le (by omega)
      rw [markRange_eq hlast, List.take_append, List.drop_append, List.drop_append,
        List.take_of_length_le (by omega : done.length ≤ first), hdone, hdone']
      by_cases hcells : cells = []
      · simp [piece, hcells, marked]
      · simp [piece, hi hcells]
    have hlen : (done ++ cells.take (first - i) ++ marked piece).length ≤ last + 1 := by
      simp only [List.length_append, length_marked, piece, List.length_take]
      omega
    rw [List.foldl_cons, hmark, ih hrest _ _ hlen, splitRanges]
    · simp [piece]
    · intro hne
      have hlong := mt List.drop_eq_nil_iff.2 hne
      have hi := hi (by rintro rfl; simp at hne)
      simp only [List.length_append, length_marked, piece, List.length_take, List.length_drop]
      omega

end Ranges

namespace Rebuild

/-- A text with its lists and its runs of placeholders shortened. -/
def shorten (cs : List Char) : List Char := Text.substitute run? (Text.substitute inList? cs)

theorem tidy_eq (s : String) : tidy s = String.ofList (shorten (Text.squeeze s.toList)) := by
  rw [tidy, Text.trim_collapse, shorten]

end Rebuild

/-- The text of a cell that is put back into a query. -/
def shown? (c : Cell) : Option String := if c.1.kind == .eof then none else some c.2

/-- The words of cells, each with single spaces. -/
def inked (cells : List Cell) : List (List Char) :=
  ((cells.filterMap shown?).filter (!Text.allBlank ·)).map fun s ↦ Text.squeeze s.toList

theorem inked_append (cs ds : List Cell) : inked (cs ++ ds) = inked cs ++ inked ds := by
  simp [inked]

theorem inked_flatMap {α : Type} (f : α → List Cell) (l : List α) :
    inked (l.flatMap f) = (l.map fun x ↦ inked (f x)).flatten := by
  induction l with
  | nil => rfl
  | cons x l ih => rw [List.flatMap_cons, inked_append, ih, List.map_cons, List.flatten_cons]

namespace Buffer

def cells (b : Buffer) : List Cell := b.source.tokens.toList.zip b.texts.toList

theorem rebuild_eq (b : Buffer) :
    b.rebuild = String.ofList (Rebuild.shorten (Text.unwords (inked b.cells))) := by
  rw [rebuild, PlanCache.rebuild, Rebuild.tidy_eq, Text.squeeze_joinWords, pieces,
    List.filterMap_map]
  rfl

theorem cells_cut (b : Buffer) (first last : Nat) :
    (b.cut first last).cells = markRange first last b.cells := by
  apply List.ext_getElem?
  intro i
  simp only [cells, cut, markRange, List.getElem?_mapIdx, List.zip,
    List.getElem?_zipWith, Array.toList_mapIdx]
  cases b.source.tokens.toList[i]? <;> cases b.texts.toList[i]? <;> rfl

theorem cells_foldl_cut (ranges : List (Nat × Nat)) (b : Buffer) :
    (ranges.foldl (fun b r ↦ b.cut r.1 r.2) b).cells =
      ranges.foldl (fun cs r ↦ markRange r.1 r.2 cs) b.cells := by
  induction ranges generalizing b with
  | nil => rfl
  | cons r ranges ih => rw [List.foldl_cons, List.foldl_cons, ih, cells_cut]

/-- Cuts nodes out one after another. -/
def cutNodes (b : Buffer) (nodes : List Head) : Except RangeError Buffer :=
  nodes.foldlM cutNode b

theorem cutNodes_eq_ok {b : Buffer} {nodes : List Head} {ranges : List (Nat × Nat)}
    (h : nodes.mapM b.range = .ok ranges) :
    b.cutNodes nodes = .ok (ranges.foldl (fun b r ↦ b.cut r.1 r.2) b) := by
  induction nodes generalizing b ranges with
  | nil =>
    obtain rfl := Except.ok.inj h
    rfl
  | cons x nodes ih =>
    rw [List.mapM_cons] at h
    obtain ⟨r, hr, h⟩ := bind_eq_ok_iff.1 h
    obtain ⟨rest, hrest, h⟩ := bind_eq_ok_iff.1 h
    obtain rfl := Except.ok.inj h
    have hcut : b.cutNode x = .ok (b.cut r.1 r.2) := by rw [cutNode, hr, Except.map]
    have hsame : (b.cut r.1 r.2).range = b.range := rfl
    rw [cutNodes, List.foldlM_cons, hcut]
    exact ih (by rwa [hsame])

end Buffer

/-- A stretch of a query: its text with single spaces, and whether it is a select. -/
structure Stretch where
  isSelect : Bool
  text : List Char
deriving DecidableEq, Repr

namespace Stretch

/-- The text of stretches that follow each other. -/
def join (ps : List Stretch) : List Char := Text.unwords (ps.map text)

/-- The placeholder in the place of a select. -/
def cut (p : Stretch) : Stretch := if p.isSelect then ⟨false, placeholder.toList⟩ else p

end Stretch

/-- The stretches into which ranges divide cells, those without words left out. -/
def stretches (ranges : List (Nat × Nat)) (cells : List Cell) : List Stretch :=
  ((splitRanges 0 ranges cells).filter fun p ↦ !(inked p.2).isEmpty).map fun p ↦
    ⟨p.1, Text.unwords (inked p.2)⟩

section Stretches

variable {ranges : List (Nat × Nat)} {cells : List Cell}

theorem unwords_inked (h : Ascending 0 ranges) (cells : List Cell) :
    Text.unwords (inked cells) = Stretch.join (stretches ranges cells) := by
  have hcells : inked cells = ((splitRanges 0 ranges cells).map fun p ↦ inked p.2).flatten := by
    rw [← inked_flatMap, flatMap_splitRanges h]
  rw [hcells, Text.unwords_flatten, Stretch.join, stretches, List.filter_map, List.map_map,
    List.map_map]
  rfl

/-- The end of the input is the last cell. -/
def EndLast (cells : List Cell) : Prop := cells.Pairwise fun c _ ↦ c.1.kind ≠ .eof

theorem inked_marked (h : EndLast cells) (hink : inked cells ≠ []) :
    inked (marked cells) = [placeholder.toList] := by
  cases cells with
  | nil => exact absurd rfl hink
  | cons c cs =>
    have hc : c.1.kind ≠ .eof := by
      cases cs with
      | nil =>
        intro hc
        refine hink ?_
        simp [inked, shown?, hc]
      | cons d ds => exact List.rel_of_pairwise_cons h List.mem_cons_self
    have hfirst : shown? (c.1, placeholder) = some placeholder := by simp [shown?, hc]
    have hrest : ((cs.map fun c ↦ (c.1, "")).filterMap shown?).filter (!Text.allBlank ·) = [] := by
      rw [List.filter_eq_nil_iff]
      intro s hs
      obtain ⟨d, hd, hs⟩ := List.mem_filterMap.1 hs
      obtain ⟨e, he, rfl⟩ := List.mem_map.1 hd
      rw [shown?] at hs
      split at hs
      · cases hs
      · cases hs
        simp [Text.allBlank]
    rw [inked, marked, List.filterMap_cons_some hfirst,
      List.filter_cons_of_pos (by decide +kernel), hrest]
    decide +kernel

/-- Where each range holds words, marking the ranges cuts the selects out. -/
theorem unwords_inked_marked (h : Ascending 0 ranges) (hend : EndLast cells)
    (hink : ∀ p ∈ splitRanges 0 ranges cells, p.1 = true → inked p.2 ≠ []) :
    Text.unwords (inked (ranges.foldl (fun cs r ↦ markRange r.1 r.2 cs) cells)) =
      Stretch.join ((stretches ranges cells).map Stretch.cut) := by
  have hfold := foldl_markRange h [] cells (Nat.le_refl 0) fun _ ↦ rfl
  rw [List.nil_append, List.nil_append] at hfold
  have hgroup : ∀ p ∈ splitRanges 0 ranges cells,
      inked (if p.1 then marked p.2 else p.2) =
        if p.1 then [placeholder.toList] else inked p.2 := by
    intro p hp
    split
    · rename_i hsel
      have hsub := sublist_of_mem_splitRanges hp
      exact inked_marked (hend.sublist hsub) (hink p hp hsel)
    · rfl
  rw [hfold, inked_flatMap, Text.unwords_flatten, List.map_congr_left hgroup, List.filter_map,
    List.map_map, Stretch.join, stretches, List.map_map, List.map_map]
  have hfilter : (splitRanges 0 ranges cells).filter
        ((!·.isEmpty) ∘ fun p ↦ if p.1 then [placeholder.toList] else inked p.2) =
      (splitRanges 0 ranges cells).filter fun p ↦ !(inked p.2).isEmpty := by
    refine List.filter_congr fun p hp ↦ ?_
    cases hsel : p.1 with
    | true => simpa [hsel] using hink p hp hsel
    | false => simp [hsel]
  rw [hfilter]
  congr 1
  refine List.map_congr_left fun p _ ↦ ?_
  cases hsel : p.1 with
  | true => simp [hsel, Stretch.cut, Text.unwords_singleton]
  | false => simp [hsel, Stretch.cut]

/-- If there are as many selects with words as ranges, then each range holds words. -/
theorem inked_ne_nil_of_length
    (h : ((stretches ranges cells).filter Stretch.isSelect).length = ranges.length) :
    ∀ p ∈ splitRanges 0 ranges cells, p.1 = true → inked p.2 ≠ [] := by
  rw [stretches, List.filter_map, List.length_map, List.filter_filter,
    ← length_filter_splitRanges 0 ranges cells] at h
  have hcomm : (splitRanges 0 ranges cells).filter
        (fun p ↦ (Stretch.isSelect ∘ fun p ↦ ⟨p.1, Text.unwords (inked p.2)⟩) p &&
          !(inked p.2).isEmpty) =
      ((splitRanges 0 ranges cells).filter Prod.fst).filter fun p ↦ !(inked p.2).isEmpty := by
    rw [List.filter_filter]
    refine List.filter_congr fun p _ ↦ ?_
    exact Bool.and_comm _ _
  rw [hcomm, List.length_filter_eq_length_iff] at h
  intro p hp hsel
  simpa using h p (List.mem_filter.2 ⟨hp, hsel⟩)

end Stretches

namespace Buffer

variable {b : Buffer} {sql : String} {nodes : List Head} {ranges : List (Nat × Nat)}

theorem endLast_cells (hb : b.source = .ofString sql) : EndLast b.cells := by
  have hscan := (Token.inOrder_scanFrom {} sql.toList).pairwise_ne_eof
  have htokens : b.source.tokens.toList = Token.scan sql := by rw [hb]; rfl
  have hsub : (b.cells.map Prod.fst).Sublist (Token.scan sql) := by
    rw [cells, htokens, List.zip_eq_zip_take_min, List.map_fst_zip (by simp)]
    exact List.take_sublist _ _
  exact List.pairwise_map.1 (hscan.sublist hsub)

theorem ascending_ranges (hb : b.source = .ofString sql)
    (hplaced : ∀ x ∈ nodes, x.Placed (Source.ofString sql).input)
    (hbefore : nodes.Pairwise Tree.Before) (hranges : nodes.mapM b.range = .ok ranges)
    (hle : ∀ r ∈ ranges, r.1 ≤ r.2) {i : Nat}
    (hi : ∀ x ∈ nodes, i ≤ (Source.ofString sql).index x.start) : Ascending i ranges := by
  induction nodes generalizing ranges i with
  | nil =>
    obtain rfl := Except.ok.inj hranges
    trivial
  | cons x nodes ih =>
    rw [List.mapM_cons] at hranges
    obtain ⟨r, hr, hranges⟩ := bind_eq_ok_iff.1 hranges
    obtain ⟨rest, hrest, hranges⟩ := bind_eq_ok_iff.1 hranges
    obtain rfl := Except.ok.inj hranges
    rw [List.forall_mem_cons] at hplaced hle hi
    rw [List.pairwise_cons] at hbefore
    unfold range at hr
    split at hr
    · cases hr
    · rename_i j hj
      obtain rfl := Except.ok.inj hr
      rw [hb] at hle ⊢
      refine ⟨hi.1, hle.1, ih hplaced.2 hbefore.2 hrest hle.2 fun y hy ↦ ?_⟩
      exact index_lt_index (hbefore.1 y hy j hj) (hplaced.2 y hy).start_lt

/-- The text of a query by its stretches, and its text when the selects have been cut out. -/
theorem rebuild_stretches (hb : b.source = .ofString sql)
    (hplaced : ∀ x ∈ nodes, x.Placed (Source.ofString sql).input)
    (hbefore : nodes.Pairwise Tree.Before) (hranges : nodes.mapM b.range = .ok ranges)
    (hlen : ((stretches ranges b.cells).filter Stretch.isSelect).length = ranges.length) :
    b.rebuild = String.ofList (Rebuild.shorten (Stretch.join (stretches ranges b.cells))) ∧
      (b.cutNodes nodes).map rebuild = .ok (String.ofList (Rebuild.shorten
        (Stretch.join ((stretches ranges b.cells).map Stretch.cut)))) := by
  have hink := inked_ne_nil_of_length hlen
  have hpieces : ∀ p ∈ splitRanges 0 ranges b.cells, p.1 = true → p.2 ≠ [] := by
    intro p hp hsel hnil
    apply hink p hp hsel
    rw [hnil]
    rfl
  have hle := le_of_mem_ranges hpieces
  have hasc : Ascending 0 ranges :=
    ascending_ranges hb hplaced hbefore hranges hle fun _ _ ↦ Nat.zero_le _
  constructor
  · rw [rebuild_eq, unwords_inked hasc]
  · rw [cutNodes_eq_ok hranges, Except.map, rebuild_eq, cells_foldl_cut,
      unwords_inked_marked hasc (endLast_cells hb) hink]

end Buffer

end PlanCache

import PlanCache.Parse.Source
import PlanCache.Proofs.Placement

/-!
The tokens of two texts side by side. Blanks do not count: the grammar reads past them, so texts
with the same kinds of tokens between their blanks have the same tree.
-/

namespace PlanCache

/-- The tokens of a text that are not blanks, each with its number among all tokens. -/
def Token.solid (sql : String) : List (Token × Nat) :=
  (scan sql).zipIdx.filter fun x ↦ x.1.kind != .blank

/-- Those of them that the grammar reads. -/
def Token.visible (sql : String) : List (Token × Nat) :=
  (solid sql).filter fun x ↦ !x.1.kind.isHidden

def SameKinds (s t : String) : Prop :=
  (Token.solid s).map (·.1.kind) = (Token.solid t).map (·.1.kind)

/-- Numbers of tokens that have the same place among those that are not blanks. -/
def Paired (s t : String) (i j : Nat) : Prop :=
  ∃ (r : Nat) (x y : Token),
    (Token.solid s)[r]? = some (x, i) ∧ (Token.solid t)[r]? = some (y, j)

section Solid

variable {s t : String} {x : Token} {i j : Nat}

theorem Token.mem_solid : (x, i) ∈ solid s ↔ (scan s)[i]? = some x ∧ x.kind ≠ .blank := by
  unfold solid
  rw [List.mem_filter, List.mk_mem_zipIdx_iff_getElem?, bne_iff_ne]

theorem Token.solid_sorted (s : String) : (solid s).Pairwise fun x y ↦ x.2 < y.2 := by
  have hz : ((scan s).zipIdx.map Prod.snd).Pairwise (· < ·) := by
    rw [List.zipIdx_map_snd]
    exact List.pairwise_lt_range'
  exact (List.pairwise_map.1 hz).sublist List.filter_sublist

theorem Token.solid_le_iff {r r' : Nat} {x' : Token} {i' : Nat}
    (h : (solid s)[r]? = some (x, i)) (h' : (solid s)[r']? = some (x', i')) : i ≤ i' ↔ r ≤ r' := by
  obtain ⟨hr, he⟩ := List.getElem?_eq_some_iff.1 h
  obtain ⟨hr', he'⟩ := List.getElem?_eq_some_iff.1 h'
  have hlt := List.pairwise_iff_getElem.1 (solid_sorted s)
  rcases Nat.lt_trichotomy r r' with hc | rfl | hc
  · have := hlt r r' hr hr' hc
    rw [he, he'] at this
    dsimp only at this
    omega
  · rw [h] at h'
    cases h'
    simp
  · have := hlt r' r hr' hr hc
    rw [he, he'] at this
    dsimp only at this
    omega

theorem Paired.solid (h : Paired s t i j) :
    (∃ x, (x, i) ∈ Token.solid s) ∧ ∃ y, (y, j) ∈ Token.solid t := by
  obtain ⟨r, x, y, hx, hy⟩ := h
  exact ⟨⟨x, List.mem_of_getElem? hx⟩, ⟨y, List.mem_of_getElem? hy⟩⟩

theorem Paired.le_iff {i' j' : Nat} (h : Paired s t i j) (h' : Paired s t i' j') :
    i ≤ i' ↔ j ≤ j' := by
  obtain ⟨r, x, y, hx, hy⟩ := h
  obtain ⟨r', x', y', hx', hy'⟩ := h'
  rw [Token.solid_le_iff hx hx', Token.solid_le_iff hy hy']

theorem Paired.eq_iff {i' j' : Nat} (h : Paired s t i j) (h' : Paired s t i' j') :
    i = i' ↔ j = j' := by
  rw [Nat.le_antisymm_iff, Nat.le_antisymm_iff, h.le_iff h', h'.le_iff h]

/-- What is read off paired tokens is the same list if it is the same for each pair. -/
theorem SameKinds.filterMap_eq {α : Type} (hk : SameKinds s t) {f g : Token × Nat → Option α}
    (h : ∀ {r : Nat} {x y}, (Token.solid s)[r]? = some x → (Token.solid t)[r]? = some y →
      f x = g y) :
    (Token.solid s).filterMap f = (Token.solid t).filterMap g := by
  have hlen : (Token.solid s).length = (Token.solid t).length := by
    simpa using congrArg List.length hk
  have hmap : (Token.solid s).map f = (Token.solid t).map g := by
    refine List.ext_getElem (by simpa using hlen) fun r hr hr' ↦ ?_
    rw [List.length_map] at hr hr'
    rw [List.getElem_map, List.getElem_map]
    exact h (List.getElem?_eq_getElem hr) (List.getElem?_eq_getElem hr')
  have hid := congrArg (List.filterMap id) hmap
  rwa [List.filterMap_map, List.filterMap_map, Function.id_comp, Function.id_comp] at hid

theorem Paired.kind_eq {y : Token} (hk : SameKinds s t) {r : Nat}
    (hx : (Token.solid s)[r]? = some (x, i)) (hy : (Token.solid t)[r]? = some (y, j)) :
    x.kind = y.kind := by
  have h := congrArg (·[r]?) hk
  simp only [List.getElem?_map, hx, hy, Option.map_some] at h
  exact Option.some.inj h

end Solid

section Visible

variable {s t : String}

theorem visible_ofString (s : String) :
    (Source.ofString s).visible = ((Token.visible s).map (·.2)).toArray := by
  have hf : ((Token.scan s).zipIdx.filter fun x ↦ !x.1.kind.isHidden) = Token.visible s := by
    unfold Token.visible Token.solid
    rw [List.filter_filter]
    refine List.filter_congr fun x _ ↦ ?_
    cases x.1.kind <;> rfl
  rw [← hf]
  rfl

theorem input_ofString (s : String) :
    (Source.ofString s).input = ((Token.visible s).map (·.1.kind)).toArray := by
  unfold Source.input
  rw [visible_ofString, List.map_toArray, List.map_map]
  congr 1
  refine List.map_congr_left fun x hx ↦ ?_
  have hm := (Token.mem_solid.1 (List.mem_filter.1 hx).1).1
  have ht : (Source.ofString s).tokens[x.2]? = some x.1 := by
    rw [← hm]
    exact List.getElem?_toArray
  simp only [Function.comp_apply, Array.getD_eq_getD_getElem?, ht, Option.getD_some]

theorem SameKinds.input_eq (h : SameKinds s t) :
    (Source.ofString s).input = (Source.ofString t).input := by
  have hfilter := congrArg (List.filter fun k ↦ !k.isHidden) h
  rw [List.filter_map, List.filter_map] at hfilter
  rw [input_ofString, input_ofString]
  exact congrArg List.toArray hfilter

/-- Elements that pass one test at the same place of two lists have the same place there. -/
theorem exists_place_of_filter {α β : Type} {as bs : List α} {f : α → β} (p : β → Bool)
    (h : as.map f = bs.map f) {m : Nat} {a : α} (ha : (as.filter fun x ↦ p (f x))[m]? = some a) :
    ∃ (b : α) (r : Nat),
      (bs.filter fun x ↦ p (f x))[m]? = some b ∧ as[r]? = some a ∧ bs[r]? = some b := by
  induction as generalizing bs m with
  | nil => cases ha
  | cons c as ih =>
    cases bs with
    | nil => cases h
    | cons d bs =>
      obtain ⟨hcd, h⟩ := List.cons.inj h
      rw [List.filter_cons] at ha
      rw [List.filter_cons, ← hcd]
      cases hp : p (f c) with
      | false =>
        rw [hp, if_neg (by decide)] at ha
        obtain ⟨b, r, hb, hr, hr'⟩ := ih h ha
        exact ⟨b, r + 1, hb, hr, hr'⟩
      | true =>
        rw [hp, if_pos rfl] at ha
        cases m with
        | zero =>
          cases ha
          exact ⟨d, 0, rfl, rfl, rfl⟩
        | succ m =>
          obtain ⟨b, r, hb, hr, hr'⟩ := ih h ha
          exact ⟨b, r + 1, hb, hr, hr'⟩

theorem index_of_visible {m : Nat} {x : Token × Nat}
    (h : (Token.visible s)[m]? = some x) :
    (Source.ofString s).index m = x.2 := by
  rw [Source.index, visible_ofString, Array.getD_eq_getD_getElem?, List.getElem?_toArray,
    List.getElem?_map, h]
  rfl

theorem exists_visible_of_lt {m : Nat} (hm : m < (Source.ofString s).input.size) :
    ∃ x, (Token.visible s)[m]? = some x := by
  rw [input_ofString, List.size_toArray, List.length_map] at hm
  exact ⟨_, List.getElem?_eq_getElem hm⟩

theorem index_lt_index {m m' : Nat} (h : m < m') (hm' : m' < (Source.ofString s).input.size) :
    (Source.ofString s).index m < (Source.ofString s).index m' := by
  obtain ⟨x, hx⟩ := exists_visible_of_lt (Nat.lt_trans h hm')
  obtain ⟨x', hx'⟩ := exists_visible_of_lt hm'
  rw [index_of_visible hx, index_of_visible hx']
  obtain ⟨hr, rfl⟩ := List.getElem?_eq_some_iff.1 hx
  obtain ⟨hr', rfl⟩ := List.getElem?_eq_some_iff.1 hx'
  have hsorted : (Token.visible s).Pairwise fun x y ↦ x.2 < y.2 :=
    (Token.solid_sorted s).sublist List.filter_sublist
  exact List.pairwise_iff_getElem.1 hsorted m m' hr hr' h

theorem index_le_index {m m' : Nat} (h : m ≤ m') (hm' : m' < (Source.ofString s).input.size) :
    (Source.ofString s).index m ≤ (Source.ofString s).index m' := by
  rcases Nat.lt_or_eq_of_le h with h | rfl
  · exact Nat.le_of_lt (index_lt_index h hm')
  · apply Nat.le_refl

theorem index_le_iff {m m' : Nat} (hm : m < (Source.ofString s).input.size)
    (hm' : m' < (Source.ofString s).input.size) :
    (Source.ofString s).index m ≤ (Source.ofString s).index m' ↔ m ≤ m' := by
  constructor
  · intro h
    apply Nat.le_of_not_lt
    intro hlt
    have := index_lt_index hlt hm
    omega
  · intro h
    exact index_le_index h hm'

theorem kind_eq_of_index {m : Nat} (hm : m < (Source.ofString s).input.size) {x : Token}
    (hx : (Token.scan s)[(Source.ofString s).index m]? = some x) :
    (Source.ofString s).input.kind m = x.kind := by
  obtain ⟨⟨y, i⟩, hy⟩ := exists_visible_of_lt hm
  rw [index_of_visible hy] at hx
  have hmem := (List.mem_filter.1 (List.mem_of_getElem? hy)).1
  obtain rfl := Option.some.inj ((Token.mem_solid.1 hmem).1.symm.trans hx)
  rw [Input.kind, input_ofString, Array.getD_eq_getD_getElem?, List.getElem?_toArray,
    List.getElem?_map, hy]
  rfl

theorem SameKinds.paired (h : SameKinds s t) {m : Nat} (hm : m < (Source.ofString s).input.size) :
    Paired s t ((Source.ofString s).index m) ((Source.ofString t).index m) := by
  obtain ⟨⟨x, i⟩, hx⟩ := exists_visible_of_lt hm
  obtain ⟨⟨y, j⟩, r, hy, hr, hr'⟩ :=
    exists_place_of_filter (f := fun x : Token × Nat ↦ x.1.kind) (fun k ↦ !k.isHidden) h hx
  rw [index_of_visible hx, index_of_visible hy]
  exact ⟨r, x, y, hr, hr'⟩

theorem Token.scanFrom_eof (p : Cursor) (cs : List Char) :
    ∃ ts x, scanFrom p cs = ts ++ [x] ∧ x.kind = .eof := by
  fun_induction scanFrom p cs with
  | case1 p => exact ⟨[], _, rfl, rfl⟩
  | case2 p c cs found text ih =>
    obtain ⟨ts, x, he, hx⟩ := ih
    exact ⟨_ :: ts, x, by rw [he]; rfl, hx⟩

theorem closed_ofString (s : String) : (Source.ofString s).input.Closed := by
  obtain ⟨ts, x, hs, hx⟩ := Token.scanFrom_eof {} s.toList
  have hvisible : ∃ ks, (Token.visible s).map (·.1.kind) = ks ++ [.eof] := by
    unfold Token.visible Token.solid Token.scan
    rw [hs, List.zipIdx_append, List.filter_append, List.filter_append, List.map_append]
    simp [hx, Kind.isHidden]
  obtain ⟨ks, hks⟩ := hvisible
  rw [input_ofString, hks]
  exact ⟨by simp, by simp [Input.kind]⟩

end Visible

end PlanCache

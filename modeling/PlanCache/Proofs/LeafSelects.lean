import PlanCache.Proofs.Masks

/-!
The nodes of a tree by their places. A place is given by the number of the child to go to at each
node on the way down, so a node stands before what is below it and before what is to the right of it
in the lexicographic order of places. The collected selects are those at the places below which
there is no other.
-/

namespace PlanCache

namespace Tree

/-- The node at a place. -/
def node? : Tree → List Nat → Option (Head × List Tree)
  | .leaf _ _, _ => none
  | .node h ts, [] => some (h, ts)
  | .node _ ts, k :: p => ts[k]?.bind (·.node? p)

/-- There is a select at the place `p`. -/
def SelectAt (t : Tree) (p : List Nat) : Prop :=
  ∃ x, t.node? p = some x ∧ x.1.rule = .selectCore

/-- There is a select at the place `p`, and none at a place below it. -/
def LeafSelectAt (t : Tree) (p : List Nat) : Prop :=
  t.SelectAt p ∧ ∀ q, q ≠ [] → ¬t.SelectAt (p ++ q)

mutual

/-- The nodes with their places, a node before those below it. -/
def placed : Tree → List (List Nat × (Head × List Tree))
  | .leaf _ _ => []
  | .node h ts => ([], (h, ts)) :: placedAll 0 ts

/-- The nodes of the children from the child `k` on. -/
def placedAll : Nat → List Tree → List (List Nat × (Head × List Tree))
  | _, [] => []
  | k, t :: ts => t.placed.map (fun y ↦ (k :: y.1, y.2)) ++ placedAll (k + 1) ts

end

variable {t : Tree} {ts : List Tree} {h : Head} {x : Head × List Tree} {p q : List Nat} {k : Nat}

theorem placedAll_leaf (l : Leaf) (error : Bool) (us : List Tree) :
    placedAll k (.leaf l error :: us) = placedAll (k + 1) us := by
  rw [placedAll, placed, List.map_nil, List.nil_append]

theorem placedAll_node (h : Head) (ts us : List Tree) :
    placedAll k (.node h ts :: us) =
      ([k], (h, ts)) :: (placedAll 0 ts).map (fun y ↦ (k :: y.1, y.2)) ++ placedAll (k + 1) us := by
  rw [placedAll, placed, List.map_cons]

theorem map_snd_placedAll : (placedAll k ts).map Prod.snd = nodesAll ts := by
  induction ts using forest_induction generalizing k with
  | nil => rw [placedAll, nodesAll, List.map_nil]
  | leaf l error us ih => rw [placedAll_leaf, nodesAll_leaf, ih]
  | node h ts us iht ihu =>
    rw [placedAll_node, nodesAll_node, List.map_append, List.map_cons, List.map_map, ihu,
      ← iht (k := 0)]
    rfl

theorem map_snd_placed (t : Tree) : t.placed.map Prod.snd = t.nodes := by
  cases t with
  | leaf l error => rw [placed, nodes, List.map_nil]
  | node h ts => rw [placed, nodes, List.map_cons, map_snd_placedAll]

theorem mem_placedAll : (p, x) ∈ placedAll k ts ↔
    ∃ i q, p = (k + i) :: q ∧ ts[i]?.bind (·.node? q) = some x := by
  induction ts using forest_induction generalizing k p with
  | nil => simp [placedAll]
  | leaf l error us ih =>
    rw [placedAll_leaf, ih]
    constructor
    · rintro ⟨i, q, rfl, hx⟩
      exact ⟨i + 1, q, by rw [Nat.add_right_comm, Nat.add_assoc], by simpa using hx⟩
    · rintro ⟨i, q, rfl, hx⟩
      cases i with
      | zero => simp [node?] at hx
      | succ i => exact ⟨i, q, by rw [Nat.add_right_comm, Nat.add_assoc], by simpa using hx⟩
  | node h ts us iht ihu =>
    rw [placedAll_node, List.cons_append, List.mem_cons, List.mem_append, ihu]
    constructor
    · rintro (hx | hx | ⟨i, q, rfl, hx⟩)
      · obtain ⟨rfl, rfl⟩ := Prod.mk.inj hx
        exact ⟨0, [], rfl, by simp [node?]⟩
      · obtain ⟨y, hy, he⟩ := List.mem_map.1 hx
        obtain ⟨rfl, rfl⟩ := Prod.mk.inj he
        obtain ⟨i, q, hq, hy⟩ := iht.1 hy
        exact ⟨0, i :: q, by simp [hq], by simpa [node?] using hy⟩
      · exact ⟨i + 1, q, by rw [Nat.add_right_comm, Nat.add_assoc], by simpa using hx⟩
    · rintro ⟨i, q, rfl, hx⟩
      cases i with
      | zero =>
        cases q with
        | nil => exact .inl (by simpa [node?, eq_comm] using hx)
        | cons i q =>
          refine .inr (.inl (List.mem_map.2 ⟨(i :: q, x), iht.2 ⟨i, q, by simp, ?_⟩, rfl⟩))
          simpa [node?] using hx
      | succ i =>
        exact .inr (.inr ⟨i, q, by rw [Nat.add_right_comm, Nat.add_assoc], by simpa using hx⟩)

theorem mem_placed : (p, x) ∈ t.placed ↔ t.node? p = some x := by
  cases t with
  | leaf l error => simp [placed, node?]
  | node h ts =>
    rw [placed, List.mem_cons, mem_placedAll]
    cases p with
    | nil => simp [node?, eq_comm]
    | cons i p => simp [node?, and_assoc]

theorem placedAll_pairwise : (placedAll k ts).Pairwise fun y z ↦ List.Lex (· < ·) y.1 z.1 := by
  induction ts using forest_induction generalizing k with
  | nil => simp [placedAll]
  | leaf l error us ih => rw [placedAll_leaf]; exact ih
  | node h ts us iht ihu =>
    rw [placedAll_node, List.pairwise_append, List.pairwise_cons, List.pairwise_map]
    -- What is to the right has a greater first number.
    have hright : ∀ y : List Nat × (Head × List Tree), ∀ z ∈ placedAll (k + 1) us,
        List.Lex (· < ·) (k :: y.1) z.1 := by
      intro y z hz
      obtain ⟨i, q, hq, -⟩ := mem_placedAll.1 hz
      rw [hq]
      exact .rel (by omega)
    refine ⟨⟨?_, iht.imp fun hyz ↦ .cons hyz⟩, ihu, ?_⟩
    · intro y hy
      obtain ⟨z, hz, rfl⟩ := List.mem_map.1 hy
      obtain ⟨i, q, hq, -⟩ := mem_placedAll.1 hz
      rw [hq]
      exact .cons .nil
    · intro y hy z hz
      rcases List.mem_cons.1 hy with rfl | hy
      · exact hright ([], (h, ts)) z hz
      · obtain ⟨w, -, rfl⟩ := List.mem_map.1 hy
        exact hright w z hz

theorem placed_pairwise (t : Tree) :
    t.placed.Pairwise fun y z ↦ List.Lex (· < ·) y.1 z.1 := by
  cases t with
  | leaf l error => simp [placed]
  | node h ts =>
    rw [placed, List.pairwise_cons]
    refine ⟨?_, placedAll_pairwise⟩
    intro y hy
    obtain ⟨i, q, hq, -⟩ := mem_placedAll.1 hy
    rw [hq]
    exact .nil

theorem node?_append (hx : t.node? p = some (h, ts)) : t.node? (p ++ q) = (node h ts).node? q := by
  induction p generalizing t with
  | nil =>
    cases t with
    | leaf l error => simp [node?] at hx
    | node k us =>
      simp only [node?, Option.some.injEq, Prod.mk.injEq] at hx
      rw [hx.1, hx.2, List.nil_append]
  | cons i p ih =>
    cases t with
    | leaf l error => simp [node?] at hx
    | node k us =>
      simp only [node?, Option.bind_eq_some_iff] at hx
      obtain ⟨u, hu, hx⟩ := hx
      simp only [List.cons_append, node?, hu, Option.bind_some]
      exact ih hx

/-- The test for selects below a node finds those at the places below it. -/
theorem hasSelect_iff (hx : t.node? p = some x) :
    hasSelect x.2 = true ↔ ∃ q, q ≠ [] ∧ t.SelectAt (p ++ q) := by
  rw [hasSelect, ← map_snd_placedAll (k := 0), List.any_map, List.any_eq_true]
  simp only [SelectAt, node?_append hx, Function.comp_apply, beq_iff_eq]
  constructor
  · rintro ⟨y, hy, hrule⟩
    obtain ⟨i, q, hq, hy⟩ := mem_placedAll.1 hy
    exact ⟨i :: q, List.cons_ne_nil _ _, y.2, hy, hrule⟩
  · rintro ⟨q, hq, y, hy, hrule⟩
    cases q with
    | nil => exact absurd rfl hq
    | cons i q => exact ⟨(i :: q, y), mem_placedAll.2 ⟨i, q, by simp, hy⟩, hrule⟩

theorem leafSelectAt_iff (hx : t.node? p = some x) :
    t.LeafSelectAt p ↔ x.1.rule = .selectCore ∧ hasSelect x.2 = false := by
  rw [LeafSelectAt, ← Bool.not_eq_true, hasSelect_iff hx]
  simp [SelectAt, hx]

instance (t : Tree) (p : List Nat) : Decidable (t.LeafSelectAt p) :=
  match hx : t.node? p with
  | some _ => decidable_of_iff _ (leafSelectAt_iff hx).symm
  | none => isFalse fun h ↦ by simp [LeafSelectAt, SelectAt, hx] at h

/-- Among the selects of a forest there is one that holds no other. -/
theorem exists_leafSelect (hts : hasSelect ts = true) :
    ∃ x ∈ nodesAll ts, x.1.rule = .selectCore ∧ hasSelect x.2 = false := by
  induction ts using forest_induction with
  | nil => simp [hasSelect, nodesAll] at hts
  | leaf l error us ih =>
    simp only [hasSelect, nodesAll_leaf] at hts ⊢
    exact ih hts
  | node h ts us iht ihu =>
    rw [nodesAll_node]
    by_cases hbelow : hasSelect ts = true
    · obtain ⟨x, hx, hleaf⟩ := iht hbelow
      exact ⟨x, by simp [hx], hleaf⟩
    · rw [Bool.not_eq_true] at hbelow
      by_cases hrule : h.rule = .selectCore
      · exact ⟨(h, ts), by simp, hrule, hbelow⟩
      · have hright : hasSelect us = true := by
          rw [hasSelect, List.any_eq_false] at hbelow
          simp only [hasSelect, nodesAll_node, List.any_cons, List.any_append, Bool.or_eq_true,
            beq_iff_eq, hrule, false_or] at hts
          exact hts.resolve_left (by simpa using hbelow)
        obtain ⟨x, hx, hleaf⟩ := ihu hright
        exact ⟨x, by simp [hx], hleaf⟩

/-- The places of the selects. -/
def selectPlaces (t : Tree) : List (List Nat) :=
  (t.placed.filter (·.2.1.rule == .selectCore)).map Prod.fst

theorem mem_selectPlaces : p ∈ t.selectPlaces ↔ t.SelectAt p := by
  simp [selectPlaces, SelectAt, mem_placed]

theorem selectPlaces_pairwise (t : Tree) : t.selectPlaces.Pairwise (List.Lex (· < ·)) :=
  List.pairwise_map.2 (t.placed_pairwise.filter _)

theorem exists_leafSelectAt (hp : t.SelectAt p) : ∃ q, t.LeafSelectAt (p ++ q) := by
  obtain ⟨x, hx, hrule⟩ := hp
  by_cases hbelow : hasSelect x.2 = true
  · obtain ⟨y, hy, hleaf⟩ := exists_leafSelect hbelow
    rw [← map_snd_placedAll (k := 0), List.mem_map] at hy
    obtain ⟨⟨q, z⟩, hz, rfl⟩ := hy
    obtain ⟨i, q, hq, hz⟩ := mem_placedAll.1 hz
    refine ⟨i :: q, (leafSelectAt_iff ?_).2 hleaf⟩
    rw [node?_append hx]
    exact hz
  · rw [Bool.not_eq_true] at hbelow
    exact ⟨[], by rwa [List.append_nil, leafSelectAt_iff hx, hrule, eq_self, true_and]⟩

/-- The heads that are collected, by their places. -/
theorem leafSelects_eq (t : Tree) : t.leafSelects =
    ((t.placed.filter (·.2.1.rule == .selectCore)).filter fun y ↦ t.LeafSelectAt y.1).map
      (·.2.1) := by
  rw [leafSelects, ← map_snd_placed, List.filter_map, List.map_map, List.filter_filter]
  apply congrArg
  apply List.filter_congr
  intro y hy
  rw [Bool.eq_iff_iff]
  simp +contextual [leafSelectAt_iff (mem_placed.1 hy)]

end Tree

theorem mapM_eq_ok {ε α β : Type} {f : α → Except ε β} {g : α → β} {l : List α}
    (h : ∀ x ∈ l, f x = .ok (g x)) : l.mapM f = .ok (l.map g) := by
  induction l with
  | nil => rfl
  | cons x l ih =>
    rw [List.forall_mem_cons] at h
    rw [List.mapM_cons, h.1, ih h.2]
    rfl

/-- A pass that has seen a select goes past those that are collected, and only past those. -/
theorem Masked.step_eq_self_iff {s : Masked} {h : Head} {ts : List Tree}
    (hrule : h.rule = .selectCore) (hseen : s.outerSeen = true) :
    step hasSelect s h ts = .ok s ↔ hasSelect ts = false := by
  simp only [step, hrule, hseen, beq_self_eq_true, if_true, Bool.not_true, Bool.false_eq_true,
    if_false]
  by_cases hts : hasSelect ts = true
  · simp only [hts, if_true, Bool.true_eq_false, iff_false]
    intro he
    split at he
    · have hcount := congrArg Masked.count (Except.ok.inj he)
      exact absurd hcount (Nat.succ_ne_self _)
    · cases he
  · simp [Bool.not_eq_true _ ▸ hts]

namespace Buffer

variable {b : Buffer} {t : Tree}

/-- The selects that have a last token have texts. -/
theorem exists_selectTexts (hstop : ∀ x ∈ t.nodes, x.1.rule = .selectCore → x.1.stop ≠ none) :
    ∃ text : List Nat → String,
      ∀ p x, t.node? p = some x → x.1.rule = .selectCore → b.rangeText x.1 = .ok (text p) := by
  have htexts : ∀ p, ∃ s, ∀ x, t.node? p = some x → x.1.rule = .selectCore →
      b.rangeText x.1 = .ok s := by
    intro p
    by_cases hp : t.SelectAt p
    · obtain ⟨x, hx, hrule⟩ := hp
      have hmem : x ∈ t.nodes := by
        rw [← t.map_snd_placed]
        exact List.mem_map.2 ⟨(p, x), Tree.mem_placed.2 hx, rfl⟩
      obtain ⟨j, hj⟩ := Option.ne_none_iff_exists'.1 (hstop x hmem hrule)
      have htext : ∃ s, b.rangeText x.1 = .ok s := by
        rw [rangeText, range, hj]
        exact ⟨_, rfl⟩
      obtain ⟨s, hs⟩ := htext
      refine ⟨s, fun y hy _ ↦ ?_⟩
      rwa [← Option.some.inj (hx.symm.trans hy)]
    · exact ⟨"", fun x hx hrule ↦ absurd ⟨x, hx, hrule⟩ hp⟩
  exact ⟨fun p ↦ (htexts p).choose, fun p ↦ (htexts p).choose_spec⟩

theorem texts_of_selects {text : List Nat → String}
    (htext : ∀ p x, t.node? p = some x → x.1.rule = .selectCore → b.rangeText x.1 = .ok (text p)) :
    b.selects t = .ok (t.selectPlaces.map text) ∧
    b.subqueries t = .ok ((t.selectPlaces.filter fun p ↦ t.LeafSelectAt p).map fun p ↦
      String.ofList (Text.trim (Text.collapse (text p).toList))) := by
  have hall : ∀ y ∈ t.placed.filter (·.2.1.rule == .selectCore),
      b.rangeText y.2.1 = .ok (text y.1) := by
    intro y hy
    obtain ⟨hy, hrule⟩ := List.mem_filter.1 hy
    exact htext y.1 y.2 (Tree.mem_placed.1 hy) (beq_iff_eq.1 hrule)
  constructor
  · rw [selects, Tree.selects, ← t.map_snd_placed, List.filter_map, List.map_map, List.mapM_map,
      Tree.selectPlaces, List.map_map]
    exact mapM_eq_ok hall
  · rw [subqueries, t.leafSelects_eq, List.mapM_map, Tree.selectPlaces, List.filter_map,
      List.map_map]
    apply mapM_eq_ok
    intro y hy
    simp only [Function.comp_apply, spacedText, hall y (List.mem_filter.1 hy).1]
    rfl

/-- The collected selects are those at the places below which there is no other, in the order of
places, and their texts are those of all the selects there, with single spaces. The pass that cuts
out selects leaves exactly these. Each select is one of them or has one of them below it. -/
theorem subqueries_exact (b : Buffer) (t : Tree)
    (hstop : ∀ x ∈ t.nodes, x.1.rule = .selectCore → x.1.stop ≠ none) :
    (∃ (places : List (List Nat)) (text : List Nat → String),
      places.Pairwise (List.Lex (· < ·)) ∧ (∀ p, p ∈ places ↔ t.SelectAt p) ∧
      (∀ p x, p ∈ places → t.node? p = some x → b.rangeText x.1 = .ok (text p)) ∧
      b.selects t = .ok (places.map text) ∧
      b.subqueries t = .ok ((places.filter fun p ↦ t.LeafSelectAt p).map fun p ↦
        String.ofList (Text.trim (Text.collapse (text p).toList)))) ∧
    (∀ p x, t.node? p = some x →
      (hasSelect x.2 = true ↔ ∃ q, q ≠ [] ∧ t.SelectAt (p ++ q)) ∧
      ∀ s : Masked, x.1.rule = .selectCore → s.outerSeen = true →
        (Masked.step hasSelect s x.1 x.2 = .ok s ↔ t.LeafSelectAt p)) ∧
    (∀ p, t.SelectAt p → ∃ q, t.LeafSelectAt (p ++ q)) ∧
    (b.subqueries t = .ok [] → ∀ p, ¬t.SelectAt p) := by
  obtain ⟨text, htext⟩ := exists_selectTexts (b := b) hstop
  obtain ⟨hselects, hsubqueries⟩ := texts_of_selects htext
  refine ⟨⟨t.selectPlaces, text, t.selectPlaces_pairwise, fun p ↦ Tree.mem_selectPlaces, ?_,
    hselects, hsubqueries⟩, ?_, fun p ↦ Tree.exists_leafSelectAt, ?_⟩
  · intro p x hp hx
    obtain ⟨y, hy, hrule⟩ := Tree.mem_selectPlaces.1 hp
    obtain rfl := Option.some.inj (hx.symm.trans hy)
    exact htext p x hx hrule
  · intro p x hx
    refine ⟨Tree.hasSelect_iff hx, fun s hrule hseen ↦ ?_⟩
    simp [Masked.step_eq_self_iff hrule hseen, Tree.leafSelectAt_iff hx, hrule]
  · intro hnone p hp
    obtain ⟨q, hq⟩ := Tree.exists_leafSelectAt hp
    have hmem : p ++ q ∈ t.selectPlaces.filter fun p ↦ t.LeafSelectAt p := by
      simp [Tree.mem_selectPlaces, hq, hq.1]
    rw [hsubqueries, Except.ok.injEq, List.map_eq_nil_iff] at hnone
    simp [hnone] at hmem

/-- Of three selects inside each other only the innermost is collected. -/
theorem subqueries_exact_brackets :
    (∀ x ∈ Tree.selectsInBrackets.nodes, x.1.rule = .selectCore → x.1.stop ≠ none) ∧
    Tree.selectsInBrackets.SelectAt [2] ∧ ¬Tree.selectsInBrackets.LeafSelectAt [2] ∧
    (∃ q, Tree.selectsInBrackets.LeafSelectAt ([2] ++ q)) ∧
    selectsInBrackets.subqueries .selectsInBrackets ≠ .ok [] := by
  have hstop : ∀ x ∈ Tree.selectsInBrackets.nodes, x.1.rule = .selectCore → x.1.stop ≠ none := by
    decide
  have hselect : Tree.selectsInBrackets.SelectAt [2] := ⟨_, rfl, rfl⟩
  obtain ⟨-, -, hleaf, hnone⟩ := subqueries_exact selectsInBrackets _ hstop
  exact ⟨hstop, hselect, by decide, hleaf _ hselect, fun h ↦ hnone h _ hselect⟩

end Buffer

end PlanCache

import PlanCache.Proofs.LiteralMarks
import PlanCache.Query.Outline

/-!
What an outline cuts out of a query: the literals and the selects, other than the first, that stand
in no node that is cut out before them.
-/

namespace PlanCache

/-- A select has tokens, a node that is replaced is one token, and if it is an expression it has a
literal below it, if not it has nothing below it. -/
structure Regular (b : Buffer) (x : Head × List Tree) : Prop where
  select : x.1.rule = .selectCore → ∃ j ∈ x.1.stop, x.1.start ≤ j
  single : b.replaces x = true → Single x
  plain : b.replaces x = true → x.1.rule ≠ .expr → Tree.nodesAll x.2 = []
  truth : b.replaces x = true → x.1.rule = .expr →
    ∃ y ∈ Tree.nodesAll x.2, y.1.rule = .literalValue

instance (b : Buffer) (x : Head × List Tree) : Decidable (Regular b x) :=
  decidable_of_iff
    ((x.1.rule = .selectCore → ∃ j ∈ x.1.stop, x.1.start ≤ j) ∧ (b.replaces x = true → Single x) ∧
      (b.replaces x = true → x.1.rule ≠ .expr → Tree.nodesAll x.2 = []) ∧
      (b.replaces x = true → x.1.rule = .expr → ∃ y ∈ Tree.nodesAll x.2, y.1.rule = .literalValue))
    ⟨fun ⟨hs, h₁, hp, ht⟩ ↦ ⟨hs, h₁, hp, ht⟩, fun h ↦ ⟨h.select, h.single, h.plain, h.truth⟩⟩

theorem hasSelect_nil : hasSelect [] = false := by rw [hasSelect, Tree.nodesAll, List.any_nil]

theorem hasSelect_leaf (l : Leaf) (error : Bool) (us : List Tree) :
    hasSelect (.leaf l error :: us) = hasSelect us := by
  rw [hasSelect, Tree.nodesAll_leaf, hasSelect]

theorem hasSelect_node (h : Head) (ts us : List Tree) : hasSelect (.node h ts :: us) =
    (h.rule == .selectCore || hasSelect ts || hasSelect us) := by
  simp only [hasSelect, Tree.nodesAll_node, List.any_cons, List.any_append, Bool.or_assoc]

namespace Tree

/-- Whether an outline cuts a node out as a literal. -/
def isToken (b : Buffer) (x : Head × List Tree) : Bool := x.1.rule != .expr && b.replaces x

/-- The selects among trees and below them, without the first if none has been seen before. -/
def innerAll (seen : Bool) (ts : List Tree) : List Head :=
  Masked.cuts (fun _ ↦ true) seen (nodesAll ts)

/-- How an outline goes through trees, by whether it has come upon a select before, and the nodes
that it cuts out. -/
inductive Outlined (b : Buffer) : Bool → List Tree → List Head → Prop where
  | nil (seen : Bool) : Outlined b seen [] []
  | leaf {seen : Bool} {us : List Tree} {cs : List Head} (l : Leaf) (error : Bool) :
      Outlined b seen us cs → Outlined b seen (.leaf l error :: us) cs
  | later {h : Head} {ts us : List Tree} {cs : List Head} (hr : h.rule = .selectCore) :
      Outlined b true us cs → Outlined b true (.node h ts :: us) (h :: cs)
  | token {h : Head} {ts us : List Tree} {cs : List Head} {seen : Bool}
      (hr : h.rule ≠ .selectCore) (ht : isToken b (h, ts) = true) (hts : nodesAll ts = []) :
      Outlined b seen us cs → Outlined b seen (.node h ts :: us) (h :: cs)
  | enter {h : Head} {ts us : List Tree} {cs ds : List Head} {seen : Bool}
      (hr : h.rule = .selectCore → seen = false) (ht : isToken b (h, ts) = false) :
      Outlined b (seen || h.rule == .selectCore) ts cs →
      Outlined b (seen || h.rule == .selectCore || hasSelect ts) us ds →
      Outlined b seen (.node h ts :: us) (cs ++ ds)

variable {b : Buffer} {h : Head} {ts us : List Tree} {seen : Bool}

theorem innerAll_leaf (l : Leaf) (error : Bool) :
    innerAll seen (.leaf l error :: us) = innerAll seen us := by
  rw [innerAll, nodesAll_leaf, innerAll]

theorem innerAll_later (hr : h.rule = .selectCore) :
    innerAll true (.node h ts :: us) = h :: (innerAll true ts ++ innerAll true us) := by
  have hrule : (h, ts).1.rule = .selectCore := hr
  rw [innerAll, nodesAll_node, Masked.cuts_later hrule, if_pos rfl, Masked.cuts_append,
    Bool.true_or]
  rfl

theorem innerAll_enter (hr : h.rule = .selectCore → seen = false) :
    innerAll seen (.node h ts :: us) = innerAll (seen || h.rule == .selectCore) ts ++
      innerAll (seen || h.rule == .selectCore || hasSelect ts) us := by
  have hcuts : Masked.cuts (fun _ ↦ true) seen ((h, ts) :: (nodesAll ts ++ nodesAll us)) =
      Masked.cuts (fun _ ↦ true) (seen || h.rule == .selectCore) (nodesAll ts ++ nodesAll us) := by
    by_cases hsel : h.rule = .selectCore
    · have hrule : (h, ts).1.rule = .selectCore := hsel
      rw [hr hsel, Masked.cuts_first hrule, hsel]
      rfl
    · have hrule : (h, ts).1.rule ≠ .selectCore := hsel
      rw [Masked.cuts_of_ne hrule, beq_false_of_ne hsel, Bool.or_false]
  rw [innerAll, nodesAll_node, hcuts, Masked.cuts_append]
  rfl

theorem innerAll_token (hr : h.rule ≠ .selectCore) (hts : nodesAll ts = []) :
    innerAll seen (.node h ts :: us) = innerAll seen us := by
  have hrule : (h, ts).1.rule ≠ .selectCore := hr
  rw [innerAll, nodesAll_node, hts, Masked.cuts_of_ne hrule, List.nil_append]
  rfl

theorem isToken_of_select (hr : h.rule = .selectCore) : isToken b (h, ts) = false := by
  simp [isToken, Buffer.replaces, hr]

theorem exists_outlined (hreg : ∀ x ∈ nodesAll ts, Regular b x) (seen : Bool) :
    ∃ cs, Outlined b seen ts cs := by
  induction ts using forest_induction generalizing seen with
  | nil => exact ⟨[], .nil seen⟩
  | leaf l error us ih =>
    rw [nodesAll_leaf] at hreg
    obtain ⟨cs, hcs⟩ := ih hreg seen
    exact ⟨cs, .leaf l error hcs⟩
  | node h ts us iht ihu =>
    rw [nodesAll_node, List.forall_mem_cons, List.forall_mem_append] at hreg
    obtain ⟨hx, hts, hus⟩ := hreg
    by_cases hlater : h.rule = .selectCore ∧ seen = true
    · obtain ⟨hr, rfl⟩ := hlater
      obtain ⟨cs, hcs⟩ := ihu hus true
      exact ⟨h :: cs, .later hr hcs⟩
    · have hr : h.rule = .selectCore → seen = false := by
        intro hr
        simpa [hr] using hlater
      cases ht : isToken b (h, ts) with
      | false =>
        obtain ⟨cs, hcs⟩ := iht hts (seen || h.rule == .selectCore)
        obtain ⟨ds, hds⟩ := ihu hus (seen || h.rule == .selectCore || hasSelect ts)
        exact ⟨cs ++ ds, .enter hr ht hcs hds⟩
      | true =>
        have hother : h.rule ≠ .selectCore := by
          intro hsel
          rw [isToken_of_select hsel] at ht
          cases ht
        obtain ⟨hexpr, hreplaces⟩ := Bool.and_eq_true_iff.1 ht
        obtain ⟨cs, hcs⟩ := ihu hus seen
        exact ⟨h :: cs, .token hother ht (hx.plain hreplaces (by simpa using hexpr)) hcs⟩

end Tree

namespace Buffer

variable {sql : String} {b c : Buffer} {a m j : Nat} {h : Head} {ts : List Tree}

theorem text_cut_behind {first last i : Nat} (hle : first ≤ last) (hi : last < i) :
    (b.cut first last).text i = b.text i := by
  rw [text_cut]
  split
  · rw [if_neg (by omega), if_neg (by omega)]
  · rename_i hsize
    rw [text_of_size_le (Nat.le_of_not_lt hsize)]

/-- The tokens from `a` on have their texts. -/
structure Fresh (b : Buffer) (a : Nat) (c : Buffer) : Prop where
  source : c.source = b.source
  text : ∀ j, a ≤ j → j < b.source.input.size → c.text (b.source.index j) = b.text (b.source.index j)

theorem Fresh.mono (hc : b.Fresh a c) (hle : a ≤ m) : b.Fresh m c :=
  ⟨hc.source, fun j hj ↦ hc.text j (Nat.le_trans hle hj)⟩

theorem Fresh.nodeText (hc : b.Fresh a c) (hts : ∀ i e, (.read i, e) ∈ Tree.leavesAll ts →
    a ≤ i ∧ i < b.source.input.size) : c.nodeText ts = b.nodeText ts := by
  unfold Buffer.nodeText
  congr 1
  refine List.map_congr_left fun x hx ↦ ?_
  obtain ⟨l, e⟩ := x
  cases l with
  | read i =>
    obtain ⟨hle, hlt⟩ := hts i e hx
    change c.text (c.source.index i) = _
    rw [hc.source]
    exact hc.text i hle hlt
  | missing k =>
    change c.source.leafText _ = _
    rw [hc.source]
    rfl

theorem Fresh.cut (hb : b.source = .ofString sql) (hc : b.Fresh a c) (hle : h.start ≤ j)
    (ha : a ≤ j + 1) (hj : j < b.source.input.size) :
    b.Fresh (j + 1) (c.cut (c.source.index h.start) (c.source.index j)) := by
  refine ⟨hc.source, fun k hk hlt ↦ ?_⟩
  rw [hb] at hj hlt
  have hstart := index_le_index hle hj
  have hbehind : (Source.ofString sql).index j < (Source.ofString sql).index k :=
    index_lt_index (by omega) hlt
  rw [hc.source, hb, text_cut_behind hstart hbehind, ← hb]
  exact hc.text k (by omega) (by rwa [hb])

end Buffer

/-- A node that is regular and stands over tokens of the input. -/
structure Located (b : Buffer) (x : Head × List Tree) : Prop where
  regular : Regular b x
  placed : x.1.Placed b.source.input
  leaves : ∀ i e, (.read i, e) ∈ Tree.leavesAll x.2 → i < b.source.input.size

/-- Whether a node is a literal is asked of texts that are still there. -/
theorem Buffer.Fresh.isToken_eq {b c : Buffer} {h : Head} {ts : List Tree} {m : Nat}
    (hc : b.Fresh h.start c) (htiles : Tree.TilesAll ts h.start m) (hx : Located b (h, ts)) :
    Tree.isToken c (h, ts) = Tree.isToken b (h, ts) := by
  have htext : c.nodeText ts = b.nodeText ts :=
    hc.nodeText fun i e hi ↦ ⟨htiles.le_of_leaf hi, hx.leaves i e hi⟩
  simp only [Tree.isToken, replaces, lowerText, htext]

namespace Outline

variable {s t u : Outline} {h : Head} {ts us : List Tree}

theorem exists_cut {j : Nat} (hj : h.stop = some j) (noted : List String) (s : Outline) :
    ∃ s', s.cut noted h = .ok s' ∧ s'.outerSeen = s.outerSeen ∧
      s'.buffer = s.buffer.cut (s.buffer.source.index h.start) (s.buffer.source.index j) := by
  let cut := s.buffer.cut (s.buffer.source.index h.start) (s.buffer.source.index j)
  refine ⟨{ s with buffer := cut, literals := s.literals ++ noted }, ?_, rfl, rfl⟩
  simp only [Outline.cut, Buffer.cutNode_of_stop hj, cut]

theorem enter_later (hr : h.rule = .selectCore) (hs : s.outerSeen = true) :
    s.enter h ts = (s.cut [] h).map fun s ↦ (s, false) := by
  simp [enter, hr, hs]

theorem exists_enter_token (ht : Tree.isToken s.buffer (h, ts) = true) :
    ∃ noted, s.enter h ts = (s.cut noted h).map fun s ↦ (s, false) := by
  refine ⟨[s.buffer.nodeText ts], ?_⟩
  obtain ⟨hexpr, hr⟩ := Bool.and_eq_true_iff.1 ht
  by_cases h₁ : h.rule = .literalValue
  · simp [enter, h₁]
  by_cases h₂ : h.rule = .anyName
  · simp only [Buffer.replaces, h₂] at hr
    simp [enter, h₂, hr]
  · rw [Buffer.replaces_of_other h₁ (by simpa using hexpr) h₂] at hr
    cases hr

theorem enter_open (hr : h.rule = .selectCore → s.outerSeen = false)
    (ht : Tree.isToken s.buffer (h, ts) = false) :
    s.enter h ts = .ok ({ s with outerSeen := s.outerSeen || h.rule == .selectCore }, true) := by
  unfold Tree.isToken Buffer.replaces at ht
  unfold enter
  split
  · rename_i h₁
    simp [h₁] at ht
  · rename_i h₂
    have hplain : isDoubleQuoted (s.buffer.nodeText ts) = false := by simpa [h₂] using ht
    have hother : (h.rule == .selectCore) = false := by
      rw [h₂]
      rfl
    simp only [hplain, hother, Bool.or_false]
    rfl
  · rename_i h₃
    simp [hr h₃, h₃]
  · rename_i h₃
    rw [beq_false_of_ne h₃, Bool.or_false]

theorem descendAll_of_cut (he : s.enter h ts = .ok (t, false)) :
    s.descendAll (.node h ts :: us) = t.descendAll us := by
  rw [descendAll, descend, he]

theorem descendAll_of_enter (he : s.enter h ts = .ok (t, true)) (ht : t.descendAll ts = .ok u) :
    s.descendAll (.node h ts :: us) = u.descendAll us := by
  rw [descendAll, descend, he]
  simp only [ht]

theorem descendAll_singleton (t : Tree) : s.descendAll [t] = s.descend t := by
  rw [descendAll]
  cases s.descend t with
  | ok u => simp only [descendAll]
  | error e => rfl

theorem descendAll_leaf (l : Leaf) (error : Bool) :
    s.descendAll (.leaf l error :: us) = s.descendAll us := by
  rw [descendAll, descend]

/-- What a descent has done: the nodes `cs` are cut out, and the tokens from `e` on have their
texts. -/
structure Descended (b : Buffer) (ts : List Tree) (cs : List Head) (e : Nat) (s t : Outline) :
    Prop where
  cut : s.buffer.cutNodes cs = .ok t.buffer
  seen : t.outerSeen = (s.outerSeen || hasSelect ts)
  fresh : b.Fresh e t.buffer

/-- A node is cut out, and the descent goes on behind it. -/
theorem exists_descendAll_of_cut {b : Buffer} {sql : String} (hb : b.source = .ofString sql)
    (hx : Located b (h, ts)) {j e : Nat} (hj : h.stop = some j) (hle : h.start ≤ j)
    (hs : b.Fresh h.start s.buffer) {noted : List String} {cs : List Head}
    (henter : s.enter h ts = (s.cut noted h).map fun s ↦ (s, false))
    (ih : ∀ {t : Outline}, t.outerSeen = s.outerSeen → b.Fresh (j + 1) t.buffer →
      ∃ u, t.descendAll us = .ok u ∧ Descended b us cs e t u)
    (hseen : (s.outerSeen || hasSelect (.node h ts :: us)) = (s.outerSeen || hasSelect us)) :
    ∃ u, s.descendAll (.node h ts :: us) = .ok u ∧
      Descended b (.node h ts :: us) (h :: cs) e s u := by
  obtain ⟨t, ht, houter, hbuffer⟩ := exists_cut hj noted s
  have hfresh : b.Fresh (j + 1) t.buffer := by
    rw [hbuffer]
    exact hs.cut hb hle (by omega) (hx.placed.stop_lt j hj)
  obtain ⟨u, hu, hcut, hu', hbehind⟩ := ih houter hfresh
  refine ⟨u, ?_, ⟨?_, ?_, hbehind⟩⟩
  · rw [ht] at henter
    rw [descendAll_of_cut henter, hu]
  · exact Buffer.cutNodes_cons_eq_ok.2 ⟨_, Buffer.cutNode_of_stop hj, by rwa [← hbuffer]⟩
  · rw [hu', houter, hseen]

/-- A node is entered, and the descent goes on below it and then behind it. -/
theorem Descended.append {b : Buffer} {m e : Nat} {r : Outline} {cs ds : List Head}
    (hr : r.buffer = s.buffer) (ht : Descended b ts cs m r t) (hu : Descended b us ds e t u)
    (hseen : (s.outerSeen || hasSelect (.node h ts :: us)) =
      (r.outerSeen || hasSelect ts || hasSelect us)) :
    Descended b (.node h ts :: us) (cs ++ ds) e s u := by
  refine ⟨?_, by rw [hu.seen, ht.seen, hseen], hu.fresh⟩
  rw [Buffer.cutNodes_append, ← hr, ht.cut]
  exact hu.cut

/-- A descent cuts out what it should, if the tokens that it comes to have their texts. -/
theorem exists_descendAll {sql : String} {b : Buffer} (hb : b.source = .ofString sql)
    {seen : Bool} {cs : List Head} (hout : Tree.Outlined b seen ts cs) {a e : Nat}
    (htiles : Tree.TilesAll ts a e) (hnodes : ∀ x ∈ Tree.nodesAll ts, Located b x)
    (hseen : s.outerSeen = seen) (hs : b.Fresh a s.buffer) :
    ∃ t, s.descendAll ts = .ok t ∧ Descended b ts cs e s t := by
  induction hout generalizing a e s with
  | nil seen =>
    refine ⟨s, by rw [descendAll], ⟨rfl, by simp [hasSelect_nil], ?_⟩⟩
    exact hs.mono (Nat.le_of_eq (Tree.tilesAll_nil.1 htiles))
  | leaf l error _ ih =>
    obtain ⟨m, hleaf, hrest⟩ := Tree.tilesAll_cons.1 htiles
    rw [Tree.nodesAll_leaf] at hnodes
    obtain ⟨t, ht, hcut, ht', hfresh⟩ := ih hrest hnodes hseen (hs.mono hleaf.le_of_leaf)
    exact ⟨t, by rw [descendAll_leaf, ht], ⟨hcut, by rw [ht', hasSelect_leaf], hfresh⟩⟩
  | @later h ts us cs hr _ ih =>
    obtain ⟨m, hnode, hrest⟩ := Tree.tilesAll_cons.1 htiles
    obtain ⟨rfl, hstop, -⟩ := Tree.tiles_node.1 hnode
    rw [Tree.nodesAll_node, List.forall_mem_cons, List.forall_mem_append] at hnodes
    obtain ⟨j, hj, hle⟩ := hnodes.1.regular.select hr
    obtain rfl := Tree.lastBefore_eq_some (hstop.symm.trans hj)
    refine exists_descendAll_of_cut hb hnodes.1 hj hle hs (enter_later hr hseen) ?_ ?_
    · intro t ht hfresh
      exact ih hrest hnodes.2.2 (ht.trans hseen) hfresh
    · rw [hseen, Bool.true_or, Bool.true_or]
  | @token h ts us cs seen hr htoken hnone _ ih =>
    obtain ⟨m, hnode, hrest⟩ := Tree.tilesAll_cons.1 htiles
    obtain ⟨rfl, hstop, hbelow⟩ := Tree.tiles_node.1 hnode
    rw [Tree.nodesAll_node, List.forall_mem_cons, List.forall_mem_append] at hnodes
    have hj := (hnodes.1.regular.single (Bool.and_eq_true_iff.1 htoken).2).stop
    obtain rfl := Tree.lastBefore_eq_some (hstop.symm.trans hj)
    obtain ⟨noted, henter⟩ := exists_enter_token ((hs.isToken_eq hbelow hnodes.1).trans htoken)
    refine exists_descendAll_of_cut hb hnodes.1 hj (Nat.le_refl _) hs henter ?_ ?_
    · intro t ht hfresh
      exact ih hrest hnodes.2.2 (ht.trans hseen) hfresh
    · have hother : (h.rule == .selectCore) = false := beq_false_of_ne hr
      have hnone' : hasSelect ts = false := by rw [hasSelect, hnone, List.any_nil]
      rw [hasSelect_node, hother, hnone', Bool.false_or, Bool.false_or]
  | @enter h ts us cs ds seen hr htoken _ _ iht ihu =>
    obtain ⟨m, hnode, hrest⟩ := Tree.tilesAll_cons.1 htiles
    obtain ⟨rfl, -, hbelow⟩ := Tree.tiles_node.1 hnode
    rw [Tree.nodesAll_node, List.forall_mem_cons, List.forall_mem_append] at hnodes
    subst hseen
    let r : Outline := { s with outerSeen := s.outerSeen || h.rule == .selectCore }
    have henter : s.enter h ts = .ok (r, true) :=
      enter_open hr ((hs.isToken_eq hbelow hnodes.1).trans htoken)
    obtain ⟨t, ht, hdt⟩ := iht hbelow hnodes.2.1 (s := r) rfl hs
    obtain ⟨u, hu, hdu⟩ := ihu hrest hnodes.2.2 hdt.seen hdt.fresh
    refine ⟨u, ?_, .append (r := r) rfl hdt hdu ?_⟩
    · rw [descendAll_of_enter henter ht, hu]
    · rw [hasSelect_node]
      simp only [r, Bool.or_assoc]

end Outline

/-- A node stands over no token that another does not stand over. -/
def Head.Within (k h : Head) : Prop :=
  h.start ≤ k.start ∧ ∀ j ∈ k.stop, ∃ j' ∈ h.stop, j ≤ j'

namespace Tree

variable {b : Buffer} {h c k : Head} {ts : List Tree} {x : Head × List Tree} {cs : List Head}
  {seen : Bool} {a e m : Nat}

theorem TilesAll.within (htiles : TilesAll ts h.start m) (hstop : h.stop = lastBefore m)
    (hx : x ∈ nodesAll ts) : x.1.Within h := by
  obtain ⟨hstart, k, hk, hk', -⟩ := htiles.node hx
  refine ⟨hstart, fun j hj ↦ ⟨m - 1, ?_, ?_⟩⟩
  · have := lastBefore_eq_some (hk'.symm.trans hj)
    rw [hstop, lastBefore, if_neg (by omega)]
    rfl
  · have := lastBefore_eq_some (hk'.symm.trans hj)
    omega

theorem exists_node_of_mem_innerAll (hk : k ∈ innerAll seen ts) :
    ∃ us, (k, us) ∈ nodesAll ts ∧ k.rule = .selectCore := by
  obtain ⟨x, hx, rfl⟩ := List.mem_map.1 hk
  have hx' := List.mem_of_mem_drop (List.mem_filter.1 hx).1
  obtain ⟨hx', hr⟩ := List.mem_filter.1 hx'
  exact ⟨x.2, hx', by simpa using hr⟩

namespace Outlined

/-- What is cut out is an inner select or a literal. -/
theorem cases_of_mem (ho : Outlined b seen ts cs) (hc : c ∈ cs) :
    c ∈ innerAll seen ts ∨ ∃ us, (c, us) ∈ nodesAll ts ∧ isToken b (c, us) = true := by
  induction ho with
  | nil seen => cases hc
  | leaf l error _ ih =>
    rw [innerAll_leaf, nodesAll_leaf]
    exact ih hc
  | @later h ts us cs hr _ ih =>
    simp only [innerAll_later hr, nodesAll_node, List.mem_cons, List.mem_append] at hc ⊢
    rcases hc with rfl | hc
    · exact .inl (.inl rfl)
    · exact (ih hc).imp (fun h ↦ .inr (.inr h)) fun ⟨vs, h⟩ ↦ ⟨vs, .inr (.inr h.1), h.2⟩
  | @token h ts us cs seen hr ht hts _ ih =>
    simp only [innerAll_token hr hts, nodesAll_node, List.mem_cons, List.mem_append] at hc ⊢
    rcases hc with rfl | hc
    · exact .inr ⟨ts, .inl rfl, ht⟩
    · exact (ih hc).imp_right fun ⟨vs, h⟩ ↦ ⟨vs, .inr (.inr h.1), h.2⟩
  | @enter h ts us cs ds seen hr ht _ _ iht ihu =>
    simp only [innerAll_enter hr, nodesAll_node, List.mem_cons, List.mem_append] at hc ⊢
    rcases hc with hc | hc
    · exact (iht hc).imp .inl fun ⟨vs, h⟩ ↦ ⟨vs, .inr (.inl h.1), h.2⟩
    · exact (ihu hc).imp .inr fun ⟨vs, h⟩ ↦ ⟨vs, .inr (.inr h.1), h.2⟩

theorem exists_node (ho : Outlined b seen ts cs) (hc : c ∈ cs) : ∃ us, (c, us) ∈ nodesAll ts := by
  rcases ho.cases_of_mem hc with hc | ⟨us, hus, -⟩
  · obtain ⟨us, hus, -⟩ := exists_node_of_mem_innerAll hc
    exact ⟨us, hus⟩
  · exact ⟨us, hus⟩

theorem before_of_tiles {us : List Tree} (ho : Outlined b seen us cs) (hnode : (node h ts).Tiles a m)
    (hrest : TilesAll us m e) (hc : c ∈ cs) : Before h c := by
  obtain ⟨vs, hvs⟩ := ho.exists_node hc
  have hfirst : TilesAll [node h ts] a m := tilesAll_cons.2 ⟨m, hnode, tilesAll_nil.2 rfl⟩
  have hmem : (h, ts) ∈ nodesAll [node h ts] := by
    rw [nodesAll_node]
    exact List.mem_cons_self
  exact hfirst.before hrest hmem hvs

/-- What is cut out stands one after another. -/
theorem pairwise_before (ho : Outlined b seen ts cs) (htiles : TilesAll ts a e) :
    cs.Pairwise Before := by
  induction ho generalizing a e with
  | nil seen => exact .nil
  | leaf l error _ ih =>
    obtain ⟨m, -, hrest⟩ := tilesAll_cons.1 htiles
    exact ih hrest
  | @later h ts us cs hr ho ih =>
    obtain ⟨m, hnode, hrest⟩ := tilesAll_cons.1 htiles
    exact List.pairwise_cons.2 ⟨fun c hc ↦ ho.before_of_tiles hnode hrest hc, ih hrest⟩
  | @token h ts us cs seen hr ht hts ho ih =>
    obtain ⟨m, hnode, hrest⟩ := tilesAll_cons.1 htiles
    exact List.pairwise_cons.2 ⟨fun c hc ↦ ho.before_of_tiles hnode hrest hc, ih hrest⟩
  | @enter h ts us cs ds seen hr ht hot hou iht ihu =>
    obtain ⟨m, hnode, hrest⟩ := tilesAll_cons.1 htiles
    obtain ⟨-, -, hbelow⟩ := tiles_node.1 hnode
    refine List.pairwise_append.2 ⟨iht hbelow, ihu hrest, fun c hc d hd ↦ ?_⟩
    obtain ⟨vs, hvs⟩ := hot.exists_node hc
    obtain ⟨ws, hws⟩ := hou.exists_node hd
    exact hbelow.before hrest hvs hws

/-- An inner select stands within one that is cut out. -/
theorem exists_within (ho : Outlined b seen ts cs) (htiles : TilesAll ts a e)
    (hk : k ∈ innerAll seen ts) : ∃ c ∈ cs, c.rule = .selectCore ∧ k.Within c := by
  induction ho generalizing a e with
  | nil seen =>
    rw [innerAll, nodesAll, Masked.cuts_nil] at hk
    cases hk
  | leaf l error _ ih =>
    obtain ⟨m, -, hrest⟩ := tilesAll_cons.1 htiles
    rw [innerAll_leaf] at hk
    exact ih hrest hk
  | @later h ts us cs hr _ ih =>
    obtain ⟨m, hnode, hrest⟩ := tilesAll_cons.1 htiles
    obtain ⟨rfl, hstop, hbelow⟩ := tiles_node.1 hnode
    rw [innerAll_later hr, List.mem_cons, List.mem_append] at hk
    rcases hk with rfl | hk | hk
    · exact ⟨k, List.mem_cons_self, hr, Nat.le_refl _, fun j hj ↦ ⟨j, hj, Nat.le_refl j⟩⟩
    · obtain ⟨vs, hvs, -⟩ := exists_node_of_mem_innerAll hk
      exact ⟨h, List.mem_cons_self, hr, hbelow.within hstop hvs⟩
    · obtain ⟨c, hc, hwithin⟩ := ih hrest hk
      exact ⟨c, List.mem_cons_of_mem h hc, hwithin⟩
  | @token h ts us cs seen hr ht hts _ ih =>
    obtain ⟨m, -, hrest⟩ := tilesAll_cons.1 htiles
    rw [innerAll_token hr hts] at hk
    obtain ⟨c, hc, hwithin⟩ := ih hrest hk
    exact ⟨c, List.mem_cons_of_mem h hc, hwithin⟩
  | @enter h ts us cs ds seen hr ht _ _ iht ihu =>
    obtain ⟨m, hnode, hrest⟩ := tilesAll_cons.1 htiles
    obtain ⟨-, -, hbelow⟩ := tiles_node.1 hnode
    rw [innerAll_enter hr, List.mem_append] at hk
    rcases hk with hk | hk
    · obtain ⟨c, hc, hwithin⟩ := iht hbelow hk
      exact ⟨c, List.mem_append_left ds hc, hwithin⟩
    · obtain ⟨c, hc, hwithin⟩ := ihu hrest hk
      exact ⟨c, List.mem_append_right cs hc, hwithin⟩

/-- A literal is cut out, or it stands within a select that is. -/
theorem mem_or_exists_within (ho : Outlined b seen ts cs) (htiles : TilesAll ts a e)
    (hx : x ∈ nodesAll ts) (ht : isToken b x = true) :
    x.1 ∈ cs ∨ ∃ c ∈ cs, c.rule = .selectCore ∧ x.1.Within c := by
  induction ho generalizing a e with
  | nil seen => cases hx
  | leaf l error _ ih =>
    obtain ⟨m, -, hrest⟩ := tilesAll_cons.1 htiles
    rw [nodesAll_leaf] at hx
    exact ih hrest hx
  | @later h ts us cs hr _ ih =>
    obtain ⟨m, hnode, hrest⟩ := tilesAll_cons.1 htiles
    obtain ⟨rfl, hstop, hbelow⟩ := tiles_node.1 hnode
    rw [nodesAll_node, List.mem_cons, List.mem_append] at hx
    rcases hx with rfl | hx | hx
    · rw [isToken_of_select hr] at ht
      cases ht
    · exact .inr ⟨h, List.mem_cons_self, hr, hbelow.within hstop hx⟩
    · exact (ih hrest hx).imp (List.mem_cons_of_mem h) fun ⟨c, hc, h'⟩ ↦
        ⟨c, List.mem_cons_of_mem h hc, h'⟩
  | @token h ts us cs seen hr _ hts _ ih =>
    obtain ⟨m, -, hrest⟩ := tilesAll_cons.1 htiles
    rw [nodesAll_node, hts, List.nil_append, List.mem_cons] at hx
    rcases hx with rfl | hx
    · exact .inl List.mem_cons_self
    · exact (ih hrest hx).imp (List.mem_cons_of_mem h) fun ⟨c, hc, h'⟩ ↦
        ⟨c, List.mem_cons_of_mem h hc, h'⟩
  | @enter h ts us cs ds seen hr ht' _ _ iht ihu =>
    obtain ⟨m, hnode, hrest⟩ := tilesAll_cons.1 htiles
    obtain ⟨-, -, hbelow⟩ := tiles_node.1 hnode
    rw [nodesAll_node, List.mem_cons, List.mem_append] at hx
    rcases hx with rfl | hx | hx
    · rw [ht'] at ht
      cases ht
    · exact (iht hbelow hx).imp (List.mem_append_left ds) fun ⟨c, hc, h'⟩ ↦
        ⟨c, List.mem_append_left ds hc, h'⟩
    · exact (ihu hrest hx).imp (List.mem_append_right cs) fun ⟨c, hc, h'⟩ ↦
        ⟨c, List.mem_append_right cs hc, h'⟩

end Outlined

end Tree

end PlanCache

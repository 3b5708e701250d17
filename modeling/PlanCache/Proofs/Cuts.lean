import PlanCache.Proofs.Lookahead
import PlanCache.Proofs.Tiling

/-!
What is left of the texts of tokens when nodes have been cut out of them: the placeholder where one
begins, nothing at the other tokens of one, and all the rest as it was.
-/

namespace PlanCache

/-- Whether a node stands over a token, hidden ones included. -/
def Head.holds (src : Source) (i : Nat) (h : Head) : Bool :=
  decide (src.index h.start ≤ i) && h.stop.any fun j ↦ decide (i ≤ src.index j)

theorem Head.holds_iff {src : Source} {i j : Nat} {h : Head} (hj : h.stop = some j) :
    h.holds src i = true ↔ src.index h.start ≤ i ∧ i ≤ src.index j := by
  simp [holds, hj]

theorem Head.exists_stop_of_holds {src : Source} {i : Nat} {h : Head}
    (hi : h.holds src i = true) :
    src.index h.start ≤ i ∧ ∃ j, h.stop = some j ∧ i ≤ src.index j := by
  simpa [holds, Option.any_eq_true] using hi

namespace Buffer

variable {b c : Buffer} {h : Head} {hs ks : List Head} {i : Nat}

theorem cutNode_of_stop {j : Nat} (hj : h.stop = some j) :
    b.cutNode h = .ok (b.cut (b.source.index h.start) (b.source.index j)) := by
  rw [cutNode, range, hj]
  rfl

theorem cutNodes_cons_eq_ok :
    b.cutNodes (h :: hs) = .ok c ↔ ∃ d, b.cutNode h = .ok d ∧ d.cutNodes hs = .ok c := by
  rw [cutNodes, List.foldlM_cons, bind_eq_ok_iff]
  rfl

theorem cutNodes_append : b.cutNodes (hs ++ ks) = (b.cutNodes hs).bind (cutNodes · ks) := by
  rw [cutNodes, List.foldlM_append]
  rfl

theorem exists_cutNodes (b : Buffer) (h : ∀ x ∈ hs, ∃ j, x.stop = some j) :
    ∃ c, b.cutNodes hs = .ok c := by
  induction hs generalizing b with
  | nil => exact ⟨b, rfl⟩
  | cons x hs ih =>
    obtain ⟨j, hj⟩ := h x List.mem_cons_self
    obtain ⟨c, hc⟩ := ih (b.cut (b.source.index x.start) (b.source.index j)) fun y hy ↦
      h y (List.mem_cons_of_mem x hy)
    exact ⟨c, cutNodes_cons_eq_ok.2 ⟨_, cutNode_of_stop hj, hc⟩⟩

theorem source_of_cutNodes (hc : b.cutNodes hs = .ok c) : c.source = b.source := by
  induction hs generalizing b with
  | nil => rw [Except.ok.inj hc]
  | cons x hs ih =>
    obtain ⟨d, hd, hrest⟩ := cutNodes_cons_eq_ok.1 hc
    exact (ih hrest).trans (source_of_cutNode hd)

theorem size_of_cutNodes (hc : b.cutNodes hs = .ok c) : c.texts.size = b.texts.size := by
  induction hs generalizing b with
  | nil => rw [Except.ok.inj hc]
  | cons x hs ih =>
    obtain ⟨d, hd, hrest⟩ := cutNodes_cons_eq_ok.1 hc
    obtain ⟨j, -, rfl⟩ := cutNode_eq_ok hd
    exact (ih hrest).trans size_cut

/-- If nodes are cut out in the order in which they begin, no placeholder is lost. -/
theorem text_cutNodes (hc : b.cutNodes hs = .ok c)
    (hord : hs.Pairwise fun x y ↦ b.source.index x.start ≤ b.source.index y.start)
    (hi : i < b.texts.size) :
    c.text i = if hs.any (b.source.index ·.start == i) then placeholder
      else if hs.any (·.holds b.source i) then "" else b.text i := by
  induction hs generalizing b with
  | nil => rw [← Except.ok.inj hc]; rfl
  | cons x hs ih =>
    obtain ⟨d, hd, hrest⟩ := cutNodes_cons_eq_ok.1 hc
    obtain ⟨j, hj, rfl⟩ := cutNode_eq_ok hd
    obtain ⟨hx, hord⟩ := List.pairwise_cons.1 hord
    have htext := ih hrest hord (by rwa [size_cut])
    rw [text_cut, if_pos hi] at htext
    have hsource : (b.cut (b.source.index x.start) (b.source.index j)).source = b.source := rfl
    rw [hsource] at htext
    simp only [List.any_cons, Bool.or_eq_true, Head.holds_iff hj, beq_iff_eq]
    rw [htext]
    by_cases hlater : hs.any (b.source.index ·.start == i) = true
    · rw [if_pos hlater, if_pos (.inr hlater)]
    · rw [if_neg hlater]
      by_cases hfirst : b.source.index x.start = i
      · -- A later node that stood over this token would begin here too.
        have hnone : hs.any (·.holds b.source i) = false := by
          rw [List.any_eq_false]
          intro y hy hholds
          have hle := hx y hy
          have hge : b.source.index y.start ≤ i := by
            unfold Head.holds at hholds
            rw [Bool.and_eq_true, decide_eq_true_eq] at hholds
            exact hholds.1
          refine hlater (List.any_eq_true.2 ⟨y, hy, beq_iff_eq.2 ?_⟩)
          omega
        rw [hnone, if_neg Bool.false_ne_true, if_pos hfirst.symm, if_pos (.inl hfirst)]
      · rw [if_neg (not_or.2 ⟨hfirst, hlater⟩)]
        by_cases hcover : hs.any (·.holds b.source i) = true
        · rw [if_pos hcover, if_pos (.inr hcover)]
        · rw [if_neg hcover, if_neg (Ne.symm hfirst)]
          simp only [hcover, Bool.false_eq_true, or_false]

end Buffer

namespace Masked

variable {s : Masked} {wanted : List Tree → Bool} {x : Head × List Tree}
  {nodes : List (Head × List Tree)} {c : Buffer}

/-- The selects among nodes that a pass cuts out, by whether it has passed one before. -/
def cuts (wanted : List Tree → Bool) (seen : Bool) (nodes : List (Head × List Tree)) : List Head :=
  (((nodes.filter (·.1.rule == .selectCore)).drop (if seen then 0 else 1)).filter
    (wanted ·.2)).map Prod.fst

theorem cuts_nil (seen : Bool) : cuts wanted seen [] = [] := by simp [cuts]

theorem cuts_of_ne (hx : x.1.rule ≠ .selectCore) (seen : Bool) :
    cuts wanted seen (x :: nodes) = cuts wanted seen nodes := by
  simp [cuts, hx]

theorem cuts_first (hx : x.1.rule = .selectCore) :
    cuts wanted false (x :: nodes) = cuts wanted true nodes := by
  simp [cuts, hx]

theorem cuts_later (hx : x.1.rule = .selectCore) : cuts wanted true (x :: nodes) =
    if wanted x.2 then x.1 :: cuts wanted true nodes else cuts wanted true nodes := by
  cases hw : wanted x.2 <;> simp [cuts, hx, hw]

theorem cuts_append (xs ys : List (Head × List Tree)) (seen : Bool) :
    cuts wanted seen (xs ++ ys) =
      cuts wanted seen xs ++ cuts wanted (seen || xs.any (·.1.rule == .selectCore)) ys := by
  induction xs generalizing seen with
  | nil => rw [List.nil_append, cuts_nil, List.nil_append, List.any_nil, Bool.or_false]
  | cons x xs ih =>
    rw [List.cons_append, List.any_cons]
    by_cases hx : x.1.rule = .selectCore
    · have hselect : (x.1.rule == .selectCore) = true := by simp [hx]
      rw [hselect, Bool.true_or, Bool.or_true]
      cases seen with
      | false => rw [cuts_first hx, cuts_first hx, ih, Bool.true_or]
      | true =>
        rw [cuts_later hx, cuts_later hx, ih, Bool.true_or]
        split <;> rfl
    · have hother : (x.1.rule == .selectCore) = false := beq_false_of_ne hx
      rw [cuts_of_ne hx, cuts_of_ne hx, ih, hother, Bool.false_or]

theorem step_of_ne (hx : x.1.rule ≠ .selectCore) : step wanted s x.1 x.2 = .ok s := by
  simp [step, hx]

theorem step_first (hx : x.1.rule = .selectCore) (hs : s.outerSeen = false) :
    step wanted s x.1 x.2 = .ok { s with outerSeen := true } := by
  simp [step, hx, hs]

theorem step_unwanted (hx : x.1.rule = .selectCore) (hs : s.outerSeen = true)
    (hw : wanted x.2 = false) : step wanted s x.1 x.2 = .ok s := by
  simp [step, hx, hs, hw]

theorem step_cut (hx : x.1.rule = .selectCore) (hs : s.outerSeen = true)
    (hw : wanted x.2 = true) {b : Buffer} (hb : s.buffer.cutNode x.1 = .ok b) :
    step wanted s x.1 x.2 = .ok { s with buffer := b, count := s.count + 1 } := by
  simp [step, hx, hs, hw, hb]

/-- A pass cuts selects out as long as they have tokens, and counts them. -/
theorem passNodes_eq (h : s.buffer.cutNodes (cuts wanted s.outerSeen nodes) = .ok c) :
    passNodes (step wanted) s nodes = .ok ⟨c, s.outerSeen || nodes.any (·.1.rule == .selectCore),
      s.count + (cuts wanted s.outerSeen nodes).length⟩ := by
  induction nodes generalizing s with
  | nil =>
    rw [cuts_nil] at h ⊢
    rw [passNodes, ← Except.ok.inj h, List.any_nil, Bool.or_false]
    rfl
  | cons x nodes ih =>
    rw [passNodes, List.any_cons]
    by_cases hx : x.1.rule = .selectCore
    · rw [beq_iff_eq.2 hx, Bool.true_or, Bool.or_true]
      cases hseen : s.outerSeen with
      | false =>
        rw [hseen, cuts_first hx] at h
        rw [step_first hx hseen, cuts_first hx]
        exact ih (s := { s with outerSeen := true }) h
      | true =>
        rw [hseen, cuts_later hx] at h
        rw [cuts_later hx]
        cases hw : wanted x.2 with
        | false =>
          rw [hw] at h
          have hrest := ih (s := s) (by rwa [hseen])
          rw [hseen, Bool.true_or] at hrest
          rw [step_unwanted hx hseen hw]
          exact hrest
        | true =>
          rw [hw, if_pos rfl] at h
          obtain ⟨b, hb, hrest⟩ := Buffer.cutNodes_cons_eq_ok.1 h
          have hrest := ih (s := { s with buffer := b, count := s.count + 1 }) (by rwa [hseen])
          rw [hseen, Bool.true_or] at hrest
          have hcount : s.count + 1 + (cuts wanted true nodes).length =
              s.count + ((cuts wanted true nodes).length + 1) := by omega
          rw [step_cut hx hseen hw hb, hseen, if_pos rfl, List.length_cons, ← hcount]
          exact hrest
    · rw [cuts_of_ne hx] at h ⊢
      rw [step_of_ne hx, beq_false_of_ne hx, Bool.false_or]
      exact ih h

theorem exists_passNodes (h : s.buffer.cutNodes (cuts wanted s.outerSeen nodes) = .ok c) :
    ∃ m, passNodes (step wanted) s nodes = .ok m ∧ m.buffer = c := ⟨_, passNodes_eq h, rfl⟩

theorem cuts_nodes (t : Tree) : cuts (fun _ ↦ true) false t.nodes = t.selects.tail := by
  rw [cuts, List.filter_eq_self.2 fun _ _ ↦ rfl, List.map_drop, ← List.drop_one]
  rfl

end Masked

/-- All selects but the first are cut out. -/
theorem Buffer.exists_maskInner {b c : Buffer} {t : Tree}
    (h : b.cutNodes t.selects.tail = .ok c) : ∃ m, b.maskInner t = .ok m ∧ m.buffer = c := by
  rw [← Masked.cuts_nodes] at h
  exact Masked.exists_passNodes h

end PlanCache

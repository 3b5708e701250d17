import PlanCache.Proofs.Spans

/-!
A node of a parse stands over exactly the tokens of its children, and these follow each other
without a gap. So of two nodes one holds the tokens of the other, or all of them come first.
-/

namespace PlanCache

namespace Tree

/-- What holds of all lists of trees, by the trees of the list and those below them. -/
theorem forest_induction {P : List Tree → Prop} (nil : P [])
    (leaf : ∀ l error us, P us → P (.leaf l error :: us))
    (node : ∀ h ts us, P ts → P us → P (.node h ts :: us)) : ∀ ts, P ts
  | [] => nil
  | .leaf l error :: us => leaf l error us (forest_induction nil leaf node us)
  | .node h ts :: us =>
    node h ts us (forest_induction nil leaf node ts) (forest_induction nil leaf node us)

theorem nodesAll_leaf (l : Leaf) (error : Bool) (us : List Tree) :
    nodesAll (.leaf l error :: us) = nodesAll us := rfl

theorem nodesAll_node (h : Head) (ts us : List Tree) :
    nodesAll (.node h ts :: us) = (h, ts) :: (nodesAll ts ++ nodesAll us) := rfl

theorem nodesAll_singleton (t : Tree) : nodesAll [t] = t.nodes := List.append_nil _

theorem mem_nodesAll_of_below {ts : List Tree} {x y : Head × List Tree} (hx : x ∈ nodesAll ts)
    (hy : y ∈ nodesAll x.2) : y ∈ nodesAll ts := by
  induction ts using forest_induction with
  | nil => cases hx
  | leaf l error us ih =>
    rw [nodesAll_leaf] at hx ⊢
    exact ih hx
  | node h ts us iht ihu =>
    rw [nodesAll_node, List.mem_cons, List.mem_append] at hx ⊢
    rcases hx with rfl | hx | hx
    · exact .inr (.inl hy)
    · exact .inr (.inl (iht hx))
    · exact .inr (.inr (ihu hx))

theorem leavesAll_leaf (l : Leaf) (error : Bool) (us : List Tree) :
    leavesAll (.leaf l error :: us) = (l, error) :: leavesAll us := rfl

theorem leavesAll_node (h : Head) (ts us : List Tree) :
    leavesAll (.node h ts :: us) = leavesAll ts ++ leavesAll us := rfl

theorem leavesAll_singleton (t : Tree) : leavesAll [t] = t.leaves := List.append_nil _

/-- The last token before the token `b`. -/
def lastBefore (b : Nat) : Option Nat := if b = 0 then none else some (b - 1)

theorem lastBefore_eq_some {b j : Nat} (h : lastBefore b = some j) : b = j + 1 := by
  unfold lastBefore at h
  split at h
  · cases h
  · cases h
    omega

theorem lastBefore_inj {a b : Nat} (h : lastBefore a = lastBefore b) : a = b := by
  unfold lastBefore at h
  split at h <;> split at h
  · omega
  · cases h
  · cases h
  · have := Option.some.inj h
    omega

mutual

/-- A tree stands over the tokens from `a` up to `b`. The mark of the end is never passed. -/
def Tiles : Tree → Nat → Nat → Prop
  | .leaf (.read i) _, a, b => a = i ∧ i ≤ b ∧ b ≤ i + 1
  | .leaf (.missing _) _, a, b => a = b
  | .node h ts, a, b => h.start = a ∧ h.stop = lastBefore b ∧ TilesAll ts a b

/-- Trees stand over the tokens from `a` up to `b`, one after another. -/
def TilesAll : List Tree → Nat → Nat → Prop
  | [], a, b => a = b
  | t :: ts, a, b => ∃ m, t.Tiles a m ∧ TilesAll ts m b

end

section

variable {ts us : List Tree} {a b m : Nat}

theorem tilesAll_nil : TilesAll [] a b ↔ a = b := .rfl

theorem tilesAll_cons {t : Tree} : TilesAll (t :: ts) a b ↔ ∃ m, t.Tiles a m ∧ TilesAll ts m b :=
  .rfl

theorem tiles_read {i : Nat} {error : Bool} :
    (leaf (.read i) error).Tiles a b ↔ a = i ∧ i ≤ b ∧ b ≤ i + 1 := .rfl

theorem tiles_missing {k : Kind} {error : Bool} :
    (leaf (.missing k) error).Tiles a b ↔ a = b := .rfl

theorem tiles_node {h : Head} :
    (node h ts).Tiles a b ↔ h.start = a ∧ h.stop = lastBefore b ∧ TilesAll ts a b := .rfl

theorem Tiles.le_of_leaf {l : Leaf} {error : Bool} (h : (leaf l error).Tiles a b) : a ≤ b := by
  cases l with
  | read i =>
    have := tiles_read.1 h
    omega
  | missing k => exact Nat.le_of_eq (tiles_missing.1 h)

theorem TilesAll.le (h : TilesAll ts a b) : a ≤ b := by
  induction ts using forest_induction generalizing a b with
  | nil => exact Nat.le_of_eq (tilesAll_nil.1 h)
  | leaf l error us ih =>
    obtain ⟨m, hleaf, hrest⟩ := tilesAll_cons.1 h
    exact Nat.le_trans hleaf.le_of_leaf (ih hrest)
  | node h ts us iht ihu =>
    obtain ⟨m, hnode, hrest⟩ := tilesAll_cons.1 h
    exact Nat.le_trans (iht (tiles_node.1 hnode).2.2) (ihu hrest)

theorem TilesAll.concat {t : Tree} (h : TilesAll ts a m) (ht : t.Tiles m b) :
    TilesAll (ts ++ [t]) a b := by
  induction ts generalizing a with
  | nil =>
    obtain rfl := tilesAll_nil.1 h
    exact tilesAll_cons.2 ⟨b, ht, tilesAll_nil.2 rfl⟩
  | cons u ts ih =>
    obtain ⟨k, hu, hts⟩ := tilesAll_cons.1 h
    exact tilesAll_cons.2 ⟨k, hu, ih hts⟩

theorem TilesAll.le_of_leaf (h : TilesAll ts a b) {i : Nat} {error : Bool}
    (hm : (.read i, error) ∈ leavesAll ts) : a ≤ i := by
  induction ts using forest_induction generalizing a b with
  | nil => cases hm
  | leaf l e us ih =>
    obtain ⟨m, hleaf, hrest⟩ := tilesAll_cons.1 h
    rw [leavesAll_leaf] at hm
    rcases List.mem_cons.1 hm with he | hm
    · cases he
      exact Nat.le_of_eq (tiles_read.1 hleaf).1
    · exact Nat.le_trans hleaf.le_of_leaf (ih hrest hm)
  | node h ts us iht ihu =>
    obtain ⟨m, hnode, hrest⟩ := tilesAll_cons.1 h
    obtain ⟨-, -, hts⟩ := tiles_node.1 hnode
    rw [leavesAll_node] at hm
    rcases List.mem_append.1 hm with hm | hm
    · exact iht hts hm
    · exact Nat.le_trans hts.le (ihu hrest hm)

/-- Where a node among trees stands. -/
theorem TilesAll.node (h : TilesAll ts a b) {x : Head × List Tree} (hx : x ∈ nodesAll ts) :
    a ≤ x.1.start ∧ ∃ m ≤ b, x.1.stop = lastBefore m ∧ TilesAll x.2 x.1.start m := by
  induction ts using forest_induction generalizing a b with
  | nil => cases hx
  | leaf l e us ih =>
    obtain ⟨m, hleaf, hrest⟩ := tilesAll_cons.1 h
    rw [nodesAll_leaf] at hx
    have hx' := ih hrest hx
    exact ⟨Nat.le_trans hleaf.le_of_leaf hx'.1, hx'.2⟩
  | node h ts us iht ihu =>
    obtain ⟨m, hnode, hrest⟩ := tilesAll_cons.1 h
    obtain ⟨rfl, hstop, hts⟩ := tiles_node.1 hnode
    have hle := hrest.le
    rw [nodesAll_node, List.mem_cons, List.mem_append] at hx
    rcases hx with rfl | hx | hx
    · exact ⟨Nat.le_refl _, m, hle, hstop, hts⟩
    · obtain ⟨hstart, k, hk, hx⟩ := iht hts hx
      exact ⟨hstart, k, Nat.le_trans hk hle, hx⟩
    · obtain ⟨hstart, hx⟩ := ihu hrest hx
      exact ⟨Nat.le_trans hts.le hstart, hx⟩

theorem TilesAll.before {e : Nat} (ht : TilesAll ts a m) (hu : TilesAll us m e)
    {x y : Head × List Tree} (hx : x ∈ nodesAll ts) (hy : y ∈ nodesAll us) : Before x.1 y.1 := by
  intro j hj
  obtain ⟨-, k, hk, hstop, -⟩ := ht.node hx
  have hend := lastBefore_eq_some (hstop.symm.trans hj)
  have hstart := (hu.node hy).1
  omega

/-- Nodes begin in the order in which they are gone through. -/
theorem TilesAll.pairwise_start (h : TilesAll ts a b) :
    (nodesAll ts).Pairwise fun x y ↦ x.1.start ≤ y.1.start := by
  induction ts using forest_induction generalizing a b with
  | nil => exact .nil
  | leaf l e us ih =>
    obtain ⟨m, -, hrest⟩ := tilesAll_cons.1 h
    rw [nodesAll_leaf]
    exact ih hrest
  | node h ts us iht ihu =>
    obtain ⟨m, hnode, hrest⟩ := tilesAll_cons.1 h
    obtain ⟨rfl, -, hts⟩ := tiles_node.1 hnode
    rw [nodesAll_node, List.pairwise_cons, List.pairwise_append]
    refine ⟨fun y hy ↦ ?_, iht hts, ihu hrest, fun x hx y hy ↦ ?_⟩
    · rcases List.mem_append.1 hy with hy | hy
      · exact (hts.node hy).1
      · exact Nat.le_trans hts.le (hrest.node hy).1
    · obtain ⟨-, k, hk, -, hbelow⟩ := hts.node hx
      have hy' := (hrest.node hy).1
      have hle := hbelow.le
      omega

end

end Tree

namespace Session

variable {input : Input} {s t : Session}

/-- The children of the open node stand over the tokens up to the next one. -/
def Tiled (s : Session) : Prop := Tree.TilesAll s.draft.children.reverse s.draft.start s.pos

theorem Tiled.push (h : s.Tiled) {tree : Tree} {pos : Nat} (ht : tree.Tiles s.pos pos) :
    Tree.TilesAll (s.draft.push tree).children.reverse s.draft.start pos := by
  have hrow := Tree.TilesAll.concat h ht
  rwa [← List.reverse_cons] at hrow

theorem Tiled.close (h : s.Tiled) : (s.draft.close s.previous).Tiles s.draft.start s.pos :=
  Tree.tiles_node.2 ⟨rfl, rfl, h⟩

theorem Reads.tiled (h : Reads input s t) (hs : s.Tiled) : t.Tiled := by
  induction h with
  | trans _ _ ih₁ ih₂ => exact ih₂ (ih₁ hs)
  | quiet hpos _ hstart hchildren =>
    rw [Tiled, hpos, hstart, hchildren]
    exact hs
  | consume s =>
    have hleaf : (Tree.leaf (.read s.pos) s.recovering).Tiles s.pos (s.consume input).pos := by
      have hpos : (s.consume input).pos = if input.kind s.pos = .eof then s.pos else s.pos + 1 := rfl
      rw [hpos, Tree.tiles_read]
      split <;> omega
    exact hs.push hleaf
  | supply s k => exact hs.push (Tree.tiles_missing.2 rfl)
  | @call s t r site label h _ ih =>
    have hstart : t.draft.start = s.pos := h.start
    have ht : t.Tiled := by
      apply ih
      exact Tree.tilesAll_nil.2 rfl
    have hclosed := ht.close
    rw [hstart] at hclosed
    have hrow := hs.push hclosed
    cases label <;> exact hrow
  | wrap s _ => exact Tree.tilesAll_cons.2 ⟨s.pos, hs.close, Tree.tilesAll_nil.2 rfl⟩

end Session

theorem parseKinds_tiles {a : Atlas} (hg : a.grammar.Tame) {rule : Rule}
    (hrule : rule ≠ .literalValue) (input : Input) :
    ∃ b, (parseKinds a rule input).tree.Tiles 0 b := by
  obtain ⟨t, ht, htree⟩ := parseKinds_reads hg hrule input
  have htiled : t.Tiled := by
    apply ht.tiled
    exact Tree.tilesAll_nil.2 rfl
  have hclosed := htiled.close
  rw [ht.start] at hclosed
  rw [htree]
  exact ⟨t.pos, hclosed⟩

end PlanCache

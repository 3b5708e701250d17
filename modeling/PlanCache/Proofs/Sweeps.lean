import PlanCache.Proofs.Brackets
import PlanCache.Proofs.Nesting

/-!
Replacing the literals of any tree whose nodes are nested. Each node is looked at with the texts
that earlier replacements have left, and what is replaced below a node may show in its text. Still,
nothing is changed but tokens of nodes that were literals to begin with, and a second pass over the
same tree changes nothing.
-/

namespace PlanCache

namespace Buffer

variable {b c : Buffer} {x y : Head × List Tree} {xs : List (Head × List Tree)} {i : Nat}

/-- Replaces a node if it is a literal by the present texts. -/
def strike (b : Buffer) (x : Head × List Tree) : Buffer :=
  match x.1.stop with
  | some j => if b.replaces x then b.cut (b.source.index x.1.start) (b.source.index j) else b
  | none => b

/-- Replaces the nodes that are literals, one after another. -/
def sweep (b : Buffer) (xs : List (Head × List Tree)) : Buffer := xs.foldl strike b

theorem sweep_cons : b.sweep (x :: xs) = (b.strike x).sweep xs := rfl

end Buffer

open Buffer in
theorem Replaced.exists_sweep (s : Replaced) {xs : List (Head × List Tree)}
    (h : ∀ x ∈ xs, ∃ j, x.1.stop = some j) :
    ∃ r, passNodes step s xs = .ok r ∧ r.buffer = s.buffer.sweep xs := by
  induction xs generalizing s with
  | nil => exact ⟨s, rfl, rfl⟩
  | cons x xs ih =>
    obtain ⟨⟨j, hj⟩, hxs⟩ := List.forall_mem_cons.1 h
    obtain ⟨noted, hstep⟩ := exists_step_eq s x
    have hstruck : ∃ s', s.step x.1 x.2 = .ok s' ∧ s'.buffer = s.buffer.strike x := by
      rw [hstep, strike, hj]
      cases s.buffer.replaces x with
      | false => exact ⟨s, rfl, rfl⟩
      | true =>
        rw [if_pos rfl, Replaced.cut, cutNode_of_stop hj]
        exact ⟨_, rfl, rfl⟩
    obtain ⟨s', hs', hbuffer⟩ := hstruck
    obtain ⟨r, hr, hrbuffer⟩ := ih s' hxs
    refine ⟨r, ?_, by rw [hrbuffer, hbuffer, sweep_cons]⟩
    rw [passNodes, hs']
    exact hr

namespace Buffer

variable {src : Source} {size : Nat} {Far : Nat → Prop}
variable {b c : Buffer} {x y : Head × List Tree} {xs : List (Head × List Tree)} {i : Nat}

/-- A buffer for the tokens of `src`. -/
structure For (src : Source) (size : Nat) (b : Buffer) : Prop where
  source : b.source = src
  size : b.texts.size = size

/-- A node that stands over its first token, and over no more than there are. -/
structure Stands (src : Source) (size : Nat) (h : Head) : Prop where
  stop : ∃ j, h.stop = some j
  start : h.holds src (src.index h.start) = true
  lt_size : ∀ i, h.holds src i = true → i < size

/-- Nodes in an order in which they can be gone through. The tokens of a node are among those that
it stands over or are `Far` from all nodes. -/
structure Layout (src : Source) (size : Nat) (Far : Nat → Prop) (xs : List (Head × List Tree)) :
    Prop where
  stands : ∀ x ∈ xs, Stands src size x.1
  follows : xs.Pairwise (Tree.Follows src)
  ordered : ∀ x ∈ xs, (Tree.tokensAll x.2).Pairwise fun i j ↦ src.index i ≤ src.index j
  first : ∀ x ∈ xs, ∃ i ∈ Tree.tokensAll x.2, src.index i = src.index x.1.start
  within : ∀ x ∈ xs, ∀ i ∈ Tree.tokensAll x.2,
    x.1.holds src (src.index i) = true ∨ Far (src.index i)
  far : ∀ x ∈ xs, ∀ i, Far i → x.1.holds src i = false

theorem Layout.tail (h : Layout src size Far (x :: xs)) : Layout src size Far xs where
  stands := (List.forall_mem_cons.1 h.stands).2
  follows := (List.pairwise_cons.1 h.follows).2
  ordered := (List.forall_mem_cons.1 h.ordered).2
  first := (List.forall_mem_cons.1 h.first).2
  within := (List.forall_mem_cons.1 h.within).2
  far := (List.forall_mem_cons.1 h.far).2

theorem For.strike (h : For src size b) (x : Head × List Tree) : For src size (b.strike x) := by
  unfold Buffer.strike
  split
  · split
    · exact ⟨h.source, size_cut.trans h.size⟩
    · exact h
  · exact h

theorem For.sweep (h : For src size b) (xs : List (Head × List Tree)) :
    For src size (b.sweep xs) := by
  induction xs generalizing b with
  | nil => exact h
  | cons x xs ih => exact ih (h.strike x)

/-- What a token has become that was replaced. -/
def Struck (s : String) : Prop := s = "" ∨ s = placeholder

theorem text_strike (hb : For src size b) (hx : Stands src size x.1) (i : Nat) :
    (b.strike x).text i =
      if b.replaces x = true ∧ x.1.holds src i = true then
        if i = src.index x.1.start then placeholder else ""
      else b.text i := by
  obtain ⟨j, hj⟩ := hx.stop
  have hiff : x.1.holds src i = true ↔ src.index x.1.start ≤ i ∧ i ≤ src.index j :=
    Head.holds_iff hj
  rw [strike, hj]
  dsimp only
  cases hr : b.replaces x with
  | false => rw [if_neg Bool.false_ne_true, if_neg (fun h ↦ Bool.false_ne_true h.1)]
  | true =>
    simp only [if_true, text_cut, hb.source, hb.size, true_and, hiff]
    by_cases hheld : src.index x.1.start ≤ i ∧ i ≤ src.index j
    · rw [if_pos (hx.lt_size i (hiff.2 hheld)), if_pos hheld, if_pos hheld]
    · rw [if_neg hheld, if_neg hheld]
      by_cases hi : i < size
      · have hne : i ≠ src.index x.1.start := by
          rintro rfl
          exact hheld (hiff.1 hx.start)
        rw [if_pos hi, if_neg hne]
      · rw [if_neg hi, text_of_size_le (hb.size ▸ Nat.le_of_not_lt hi)]

section Frame

theorem text_strike_of_held (hb : For src size b) (hx : Stands src size x.1)
    (hr : b.replaces x = true) (h : x.1.holds src i = true) :
    (b.strike x).text i = if i = src.index x.1.start then placeholder else "" := by
  rw [text_strike hb hx]
  exact if_pos ⟨hr, h⟩

/-- What a node does not stand over is left as it is. -/
theorem text_strike_of_not_held (hb : For src size b) (hx : Stands src size x.1)
    (h : x.1.holds src i = false) : (b.strike x).text i = b.text i := by
  rw [text_strike hb hx, if_neg]
  rintro ⟨-, hheld⟩
  rw [h] at hheld
  cases hheld

theorem text_strike_or (hb : For src size b) (hx : Stands src size x.1) (i : Nat) :
    (b.strike x).text i = b.text i ∨ Struck ((b.strike x).text i) := by
  rw [text_strike hb hx]
  split
  · split
    · exact .inr (.inr rfl)
    · exact .inr (.inl rfl)
  · exact .inl rfl

theorem text_sweep_or (hb : For src size b) (hxs : ∀ x ∈ xs, Stands src size x.1) (i : Nat) :
    (b.sweep xs).text i = b.text i ∨ Struck ((b.sweep xs).text i) := by
  induction xs generalizing b with
  | nil => exact .inl rfl
  | cons x xs ih =>
    obtain ⟨hx, hxs⟩ := List.forall_mem_cons.1 hxs
    rw [sweep_cons]
    rcases ih (hb.strike x) hxs with hsame | hstruck
    · rw [hsame]
      exact text_strike_or hb hx i
    · exact .inr hstruck

theorem text_sweep_of_not_held (hb : For src size b) (hxs : ∀ x ∈ xs, Stands src size x.1)
    (h : ∀ x ∈ xs, x.1.holds src i = false) : (b.sweep xs).text i = b.text i := by
  induction xs generalizing b with
  | nil => rfl
  | cons x xs ih =>
    obtain ⟨hx, hxs⟩ := List.forall_mem_cons.1 hxs
    obtain ⟨hi, his⟩ := List.forall_mem_cons.1 h
    rw [sweep_cons, ih (hb.strike x) hxs his, text_strike_of_not_held hb hx hi]

/-- A placeholder is kept by the nodes that begin there. -/
theorem text_sweep_of_mark (hb : For src size b) (hxs : ∀ x ∈ xs, Stands src size x.1)
    (h : ∀ x ∈ xs, x.1.holds src i = true → i = src.index x.1.start)
    (hi : b.text i = placeholder) : (b.sweep xs).text i = placeholder := by
  induction xs generalizing b with
  | nil => exact hi
  | cons x xs ih =>
    obtain ⟨hx, hxs⟩ := List.forall_mem_cons.1 hxs
    obtain ⟨hstart, hstarts⟩ := List.forall_mem_cons.1 h
    refine ih (hb.strike x) hxs hstarts ?_
    rw [text_strike hb hx]
    split
    · rename_i hheld
      rw [if_pos (hstart hheld.2)]
    · exact hi

end Frame

/-- The first token of a node is held by later nodes only if they begin with it. -/
theorem eq_start_of_follows (hx : Stands src size x.1) (hy : Stands src size y.1)
    (h : Tree.Follows src x y) (hheld : y.1.holds src (src.index x.1.start) = true) :
    src.index x.1.start = src.index y.1.start := by
  rcases h with ⟨-, hin⟩ | hout
  · obtain ⟨j, hj⟩ := hx.stop
    obtain ⟨k, hk⟩ := hy.stop
    have hstart := hin _ hy.start
    rw [Head.holds_iff hj] at hstart
    rw [Head.holds_iff hk] at hheld
    omega
  · have hnot := hout _ hheld
    rw [hx.start] at hnot
    cases hnot

/-- The first token of a node that was replaced keeps the placeholder. -/
theorem Layout.text_sweep_start (h : Layout src size Far (x :: xs)) (hb : For src size b)
    (hr : b.replaces x = true) : (b.sweep (x :: xs)).text (src.index x.1.start) = placeholder := by
  obtain ⟨hx, hxs⟩ := List.forall_mem_cons.1 h.stands
  rw [sweep_cons]
  refine text_sweep_of_mark (hb.strike x) hxs (fun y hy hheld ↦ ?_) ?_
  · exact eq_start_of_follows hx (hxs y hy) ((List.pairwise_cons.1 h.follows).1 y hy) hheld
  · rw [text_strike_of_held hb hx hr hx.start, if_pos rfl]

theorem Layout.text_sweep_literal (h : Layout src size Far xs) (hb : For src size b) (hx : x ∈ xs)
    (hr : x.1.rule = .literalValue) : (b.sweep xs).text (src.index x.1.start) = placeholder := by
  induction xs generalizing b with
  | nil => cases hx
  | cons y xs ih =>
    rcases List.mem_cons.1 hx with rfl | hx
    · exact h.text_sweep_start hb (by rw [replaces, hr])
    · exact ih h.tail (hb.strike y) hx

section Agreement

variable {A : Nat → Prop}

/-- Two buffers have the same texts at the tokens `A`. -/
def Same (A : Nat → Prop) (b c : Buffer) : Prop := ∀ i, A i → b.text i = c.text i

theorem Same.replaces_eq (h : Same A b c) (hb : For src size b) (hc : For src size c)
    (hx : ∀ i ∈ Tree.tokensAll x.2, A (src.index i)) : b.replaces x = c.replaces x := by
  have htext : b.nodeText x.2 = c.nodeText x.2 := by
    unfold nodeText
    refine congrArg String.join (List.map_congr_left fun l hl ↦ ?_)
    rcases l with ⟨i | k, error⟩
    · simp only [leafText, hb.source, hc.source]
      exact h _ (hx i (List.mem_filterMap.2 ⟨_, hl, rfl⟩))
    · simp only [leafText, hb.source, hc.source]
  rw [replaces, replaces, lowerText, lowerText, htext]

/-- A node that stands over tokens of `A` only, or over none of them, does the same to both. -/
theorem Same.strike (h : Same A b c) (hb : For src size b) (hc : For src size c)
    (hx : Stands src size x.1)
    (hA : (∀ i ∈ Tree.tokensAll x.2, A (src.index i)) ∨ ∀ i, x.1.holds src i = true → ¬A i) :
    Same A (b.strike x) (c.strike x) := by
  intro i hi
  rcases hA with hA | hA
  · rw [text_strike hb hx, text_strike hc hx, h.replaces_eq hb hc hA, h i hi]
  · have hnot : x.1.holds src i = false := Bool.eq_false_iff.2 fun hheld ↦ hA i hheld hi
    rw [text_strike_of_not_held hb hx hnot, text_strike_of_not_held hc hx hnot, h i hi]

theorem Same.sweep (h : Same A b c) (hb : For src size b) (hc : For src size c)
    (hxs : ∀ x ∈ xs, Stands src size x.1)
    (hA : ∀ x ∈ xs, (∀ i ∈ Tree.tokensAll x.2, A (src.index i)) ∨
      ∀ i, x.1.holds src i = true → ¬A i) :
    Same A (b.sweep xs) (c.sweep xs) := by
  induction xs generalizing b c with
  | nil => exact h
  | cons x xs ih =>
    obtain ⟨hx, hxs⟩ := List.forall_mem_cons.1 hxs
    obtain ⟨hAx, hA⟩ := List.forall_mem_cons.1 hA
    exact ih (h.strike hb hc hx hAx) (hb.strike x) (hc.strike x) hxs hA

end Agreement

/-- Where a text has changed, a node stands that was a literal to begin with. Its first token has
the placeholder, and nothing is left of its other ones. -/
theorem Layout.exists_of_changed (h : Layout src size Far xs) (hb : For src size b)
    (hi : (b.sweep xs).text i ≠ b.text i) :
    ∃ y ∈ xs, b.replaces y = true ∧ y.1.holds src i = true ∧
      (b.sweep xs).text (src.index y.1.start) = placeholder ∧
      ∀ k, y.1.holds src k = true → Struck ((b.sweep xs).text k) := by
  induction xs generalizing b with
  | nil => exact absurd rfl hi
  | cons x xs ih =>
    obtain ⟨hx, hxs⟩ := List.forall_mem_cons.1 h.stands
    by_cases hheld : b.replaces x = true ∧ x.1.holds src i = true
    · refine ⟨x, List.mem_cons_self, hheld.1, hheld.2, h.text_sweep_start hb hheld.1, ?_⟩
      intro k hk
      rcases text_sweep_or (hb.strike x) hxs k with hsame | hstruck
      · rw [sweep_cons, hsame, text_strike_of_held hb hx hheld.1 hk]
        split
        · exact .inr rfl
        · exact .inl rfl
      · exact hstruck
    · have hsame : (b.strike x).text i = b.text i := by rw [text_strike hb hx, if_neg hheld]
      rw [sweep_cons, ← hsame] at hi
      obtain ⟨y, hy, hr, hyi, hmark, hstruck⟩ := ih h.tail (hb.strike x) hi
      refine ⟨y, List.mem_cons_of_mem x hy, ?_, hyi, hmark, hstruck⟩
      -- If the node before was replaced, the other one has no token in common with it.
      cases hrx : b.replaces x with
      | false =>
        obtain ⟨j, hj⟩ := hx.stop
        have hskip : b.strike x = b := by
          rw [strike, hj, hrx]
          rfl
        rwa [hskip] at hr
      | true =>
        have hout : ∀ k, y.1.holds src k = true → x.1.holds src k = false := by
          rcases (List.pairwise_cons.1 h.follows).1 y hy with ⟨-, hin⟩ | hout
          · exact absurd ⟨hrx, hin i hyi⟩ hheld
          · exact hout
        have hagree : Same (fun k ↦ x.1.holds src k = false) (b.strike x) b := fun k hk ↦
          text_strike_of_not_held hb hx hk
        rw [← hr]
        refine (hagree.replaces_eq (hb.strike x) hb fun k hk ↦ ?_).symm
        rcases h.within y (List.mem_cons_of_mem x hy) k hk with hk | hk
        · exact hout _ hk
        · exact h.far x List.mem_cons_self _ hk

theorem getLast?_missing_ne (b : Buffer) (k : Kind) :
    (b.leafText (.missing k)).toList.getLast? ≠ some '"' := by
  rw [leafText, Source.leafText.eq_def]
  split
  · rename_i h
    cases h
  · decide
  · rw [String.toList_append, List.getLast?_append]
    exact fun h ↦ absurd (Option.some.inj h) (by decide)

/-- What is replaced behind a node and shows in its text has left a placeholder there, before what
is gone. -/
theorem Layout.flagged (h : Layout src size Far (x :: xs)) (hb : For src size b) :
    Flagged (fun l ↦ ((b.sweep xs).leafText l.1).toList) (fun l ↦ (b.leafText l.1).toList) '"'
      (Tree.leavesAll x.2) := by
  have hc := hb.sweep xs
  have hordered := List.pairwise_filterMap.1 (h.ordered x List.mem_cons_self)
  rintro p ⟨i | k, error⟩ s hl hne
  case missing => exact absurd (by simp [leafText, hb.source, hc.source]) hne
  have hchanged : (b.sweep xs).text (src.index i) ≠ b.text (src.index i) := by
    intro he
    refine hne ?_
    simp only [leafText, hb.source, hc.source, he]
  obtain ⟨y, hy, -, hyi, hmark, hstruck⟩ := h.tail.exists_of_changed hb hchanged
  -- The node that was replaced is below this one, so its first token is a leaf of it.
  have hi : i ∈ Tree.tokensAll x.2 := by
    refine List.mem_filterMap.2 ⟨(.read i, error), ?_, rfl⟩
    rw [hl]
    exact List.mem_append_right p List.mem_cons_self
  have hbelow : y ∈ Tree.nodesAll x.2 := by
    rcases (List.pairwise_cons.1 h.follows).1 y hy with ⟨hbelow, -⟩ | hout
    · exact hbelow
    · rcases h.within x List.mem_cons_self i hi with hheld | hfar
      · rw [hout _ hyi] at hheld
        cases hheld
      · rw [h.far y (List.mem_cons_of_mem x hy) _ hfar] at hyi
        cases hyi
  obtain ⟨k, hk, hstart⟩ := h.first y (List.mem_cons_of_mem x hy)
  obtain ⟨⟨l, error'⟩, hz, hlk⟩ := List.mem_filterMap.1 (Tree.mem_tokensAll_of_below hbelow hk)
  obtain rfl : l = .read k := by
    cases l with
    | read k' => exact congrArg Leaf.read (Option.some.inj hlk)
    | missing => cases hlk
  have hz' : ((b.sweep xs).leafText (.read k)).toList = ['?'] := by
    simp only [leafText, hc.source, hstart, hmark]
    decide
  by_cases hsame : src.index k = src.index i
  · refine ⟨p, (.read i, error), [], rfl, ?_, fun w hw ↦ by cases hw⟩
    simp only [leafText, hc.source] at hz' ⊢
    rw [← hsame, hz']
  obtain ⟨j, hj⟩ := (h.stands y (List.mem_cons_of_mem x hy)).stop
  have hheld := (Head.holds_iff hj).1 hyi
  rw [hl, List.pairwise_append, List.pairwise_cons] at hordered
  obtain ⟨hp, ⟨hs, -⟩, hps⟩ := hordered
  have hzp : (.read k, error') ∈ p := by
    rw [hl, List.mem_append, List.mem_cons] at hz
    rcases hz with hz | hz | hz
    · exact hz
    · cases hz
      exact absurd rfl hsame
    · have hge := hs _ hz i rfl k rfl
      omega
  obtain ⟨q, r, rfl⟩ := List.append_of_mem hzp
  refine ⟨q, (.read k, error'), r ++ [(.read i, error)], by simp, hz', fun w hw ↦ ?_⟩
  rcases w with ⟨i' | k', error''⟩
  case missing => exact getLast?_missing_ne _ k'
  have hbetween : src.index k ≤ src.index i' ∧ src.index i' ≤ src.index i := by
    rcases List.mem_append.1 hw with hw | hw
    · have hkw := (List.pairwise_cons.1 (List.pairwise_append.1 hp).2.1).1 _ hw k rfl i' rfl
      have hwi := hps _ (List.mem_append_right q (List.mem_cons_of_mem _ hw)) _ List.mem_cons_self
        i' rfl i rfl
      exact ⟨hkw, hwi⟩
    · cases List.mem_singleton.1 hw
      omega
  have hgone := hstruck (src.index i') ((Head.holds_iff hj).2 (by omega))
  simp only [leafText, hc.source]
  rcases hgone with hgone | hgone
  · rw [hgone]
    decide
  · rw [hgone]
    decide

/-- A node that is replaced with the texts that a pass has left was replaced in that pass. -/
theorem Layout.replaces_of_sweep (h : Layout src size Far (x :: xs)) (hb : For src size b)
    (hr : (b.sweep (x :: xs)).replaces x = true) : b.replaces x = true := by
  cases hbx : b.replaces x with
  | true => rfl
  | false =>
    obtain ⟨j, hj⟩ := (h.stands x List.mem_cons_self).stop
    have hskip : b.strike x = b := by
      rw [strike, hj, hbx]
      rfl
    rw [sweep_cons, hskip] at hr
    rw [← hbx]
    exact replaces_of_flagged (h.flagged hb) hr

/-- A second pass changes nothing. -/
theorem Layout.sweep_sweep (h : Layout src size Far xs) (hb : For src size b) :
    (b.sweep xs).sweep xs = b.sweep xs := by
  induction xs generalizing b with
  | nil => rfl
  | cons x xs ih =>
    obtain ⟨hx, hxs⟩ := List.forall_mem_cons.1 h.stands
    have hb₁ := hb.strike x
    have hc := hb.sweep (x :: xs)
    have hrest : (b.sweep (x :: xs)).sweep xs = b.sweep (x :: xs) := ih h.tail hb₁
    cases hr : (b.sweep (x :: xs)).replaces x with
    | false =>
      obtain ⟨j, hj⟩ := hx.stop
      have hskip : (b.sweep (x :: xs)).strike x = b.sweep (x :: xs) := by
        rw [strike, hj, hr]
        rfl
      rw [sweep_cons, hskip, hrest]
    | true =>
      have hbr := h.replaces_of_sweep hb hr
      -- At the tokens of the node the second pass goes on as the first did, at all others from
      -- what the first has left.
      have hin : Same (fun i ↦ x.1.holds src i = true ∨ Far i) ((b.sweep (x :: xs)).strike x)
          (b.strike x) := by
        rintro i (hi | hi)
        · rw [text_strike_of_held hc hx hr hi, text_strike_of_held hb hx hbr hi]
        · have hxi := h.far x List.mem_cons_self i hi
          rw [text_strike_of_not_held hc hx hxi, text_strike_of_not_held hb hx hxi]
          exact text_sweep_of_not_held hb h.stands fun y hy ↦ h.far y hy i hi
      have hout : Same (fun i ↦ x.1.holds src i = false) ((b.sweep (x :: xs)).strike x)
          (b.sweep (x :: xs)) := fun i hi ↦ text_strike_of_not_held hc hx hi
      have hin' := hin.sweep (hc.strike x) hb₁ hxs fun y hy ↦ by
        rcases (List.pairwise_cons.1 h.follows).1 y hy with ⟨-, hbelow⟩ | hapart
        · exact .inl fun i hi ↦ (h.tail.within y hy i hi).imp_left (hbelow _)
        · refine .inr fun i hi hA ↦ ?_
          rcases hA with hA | hA
          · rw [hapart i hi] at hA
            cases hA
          · rw [h.tail.far y hy i hA] at hi
            cases hi
      have hout' := hout.sweep (hc.strike x) hc hxs fun y hy ↦ by
        rcases (List.pairwise_cons.1 h.follows).1 y hy with ⟨-, hbelow⟩ | hapart
        · refine .inr fun i hi hA ↦ ?_
          rw [hbelow i hi] at hA
          cases hA
        · refine .inl fun i hi ↦ ?_
          rcases h.tail.within y hy i hi with hheld | hfar
          · exact hapart _ hheld
          · exact h.far x List.mem_cons_self _ hfar
      have hd := (hc.strike x).sweep xs
      refine eq_of_text_eq (hd.source.trans hc.source.symm) (hd.size.trans hc.size.symm) ?_
      intro i _
      cases hi : x.1.holds src i with
      | true => exact hin' i (.inl hi)
      | false => exact (hout' i hi).trans (by rw [hrest])

/-- The nodes of a nested tree in the order in which they are gone through. -/
theorem layout_nodes {t : Tree} (hb : b.Carries t) (ht : t.Nested b.source) :
    Layout b.source b.texts.size (fun i ↦ ∀ y ∈ t.nodes, y.1.holds b.source i = false) t.nodes := by
  have hstands : ∀ x ∈ t.nodes, Stands b.source b.texts.size x.1 := by
    intro x hx
    obtain ⟨j, hj, hle⟩ := ht.span x hx
    refine ⟨⟨j, hj⟩, (Head.holds_iff hj).2 ⟨Nat.le_refl _, hle⟩, fun i hi ↦ ?_⟩
    exact Nat.lt_of_le_of_lt ((Head.holds_iff hj).1 hi).2 (hb.held x hx j hj hle)
  exact ⟨hstands, ht.follows, hb.ordered, fun x hx ↦ hb.first x hx (hstands x hx).start, hb.within,
    fun x hx i hi ↦ hi x hx⟩

end Buffer

/-- The leaves of every parse are tokens of its text. Over any tree with such leaves and nested
nodes the literals can be replaced: then every literal value has the placeholder on its first token,
what was in no literal is as before, and replacing the literals again changes nothing. -/
theorem Buffer.replaceLiterals_settles :
    (∀ (rule : Rule) (sql : String) (texts : Array String),
      texts.size = (Buffer.ofParsed (Parsed.ofString rule sql)).texts.size →
      Buffer.Carries ⟨(Parsed.ofString rule sql).source, texts⟩ (Parsed.ofString rule sql).tree) ∧
    ∀ (b : Buffer) (t : Tree), b.Carries t → t.Nested b.source →
      ∃ r, b.replaceLiterals t = .ok r ∧
        (∀ x ∈ t.nodes, x.1.rule = .literalValue →
          r.buffer.text (b.source.index x.1.start) = placeholder) ∧
        (∀ i, (∀ x ∈ t.nodes, x.1.holds b.source i = true → b.replaces x = false) →
          r.buffer.text i = b.text i) ∧
        ∃ s, r.buffer.replaceLiterals t = .ok s ∧ s.buffer = r.buffer := by
  refine ⟨fun rule sql texts hsize ↦ ?_, fun b t hb ht ↦ ?_⟩
  · exact carries_ofString rule sql rfl (hsize ▸ fetched_le_size rule sql)
  · have hlayout := layout_nodes hb ht
    have hfor : For b.source b.texts.size b := ⟨rfl, rfl⟩
    have hstop : ∀ x ∈ t.nodes, ∃ j, x.1.stop = some j := fun x hx ↦ (hlayout.stands x hx).stop
    obtain ⟨r, hr, hbuffer⟩ := Replaced.exists_sweep ⟨b, []⟩ hstop
    obtain ⟨s, hs, hagain⟩ := Replaced.exists_sweep ⟨r.buffer, []⟩ hstop
    refine ⟨r, hr, fun x hx hrule ↦ ?_, fun i hi ↦ ?_, s, hs, ?_⟩
    · rw [hbuffer]
      exact hlayout.text_sweep_literal hfor hx hrule
    · rw [hbuffer]
      refine Decidable.byContradiction fun hne ↦ ?_
      obtain ⟨x, hx, hreplaces, hheld, -⟩ := hlayout.exists_of_changed hfor hne
      rw [hi x hx hheld] at hreplaces
      cases hreplaces
    · rw [hagain, hbuffer]
      exact hlayout.sweep_sweep hfor

/-- The tokens of a select of a truth value. -/
def Token.selectTrue : List Token :=
  [⟨.SELECT, "SELECT", 1, 0, 0, 6⟩, ⟨.blank, " ", 1, 6, 6, 1⟩, ⟨.TRUE, "TRUE", 1, 7, 7, 4⟩,
    ⟨.eof, "<EOF>", 1, 11, 11, 0⟩]

/-- A truth value is replaced as an expression and again as the literal below it. -/
theorem Buffer.replaceLiterals_settles_truth :
    (Buffer.ofTokens Token.selectTrue 2).Carries (.select 1 [.literalColumn 1]) ∧
      Tree.Nested (.ofTokens Token.selectTrue) (.select 1 [.literalColumn 1]) ∧
      ∃ r, (Buffer.ofTokens Token.selectTrue 2).replaceLiterals (.select 1 [.literalColumn 1]) =
          .ok r ∧ r.buffer.text 0 = "SELECT" ∧ r.buffer.text 2 = placeholder := by
  have hcarries : (Buffer.ofTokens Token.selectTrue 2).Carries (.select 1 [.literalColumn 1]) := by
    decide +kernel
  have hnested : Tree.Nested (.ofTokens Token.selectTrue) (.select 1 [.literalColumn 1]) := by
    decide +kernel
  obtain ⟨r, hr, hliteral, hframe, -⟩ := Buffer.replaceLiterals_settles.2 _ _ hcarries hnested
  refine ⟨hcarries, hnested, r, hr, ?_, ?_⟩
  · exact (hframe 0 (by decide +kernel)).trans (by decide +kernel)
  · exact hliteral (⟨.literalValue, 1, some 1, []⟩, [.leaf (.read 1) false]) (by decide +kernel) rfl

end PlanCache

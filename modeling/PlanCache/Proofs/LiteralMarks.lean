import PlanCache.Proofs.Cuts

/-!
Where the literals of a query have been replaced. Whether a node is replaced is asked of the texts
that earlier replacements have left; if the nodes that count are single tokens, it comes to the same
as asking it of the texts as they were written.
-/

namespace PlanCache

section Join

variable {α : Type} {f g : α → List Char} {c : Char} {l : List α}

/-- Every piece of a text that was changed has the placeholder, or has it before it with nothing
between that ends in `c`. -/
def Flagged (f g : α → List Char) (c : Char) (l : List α) : Prop :=
  ∀ p y s, l = p ++ y :: s → f y ≠ g y →
    ∃ q z r, p ++ [y] = q ++ z :: r ∧ f z = ['?'] ∧ ∀ w ∈ r, (f w).getLast? ≠ some c

namespace Flagged

/-- The first character of a text is kept, unless it was in a piece that was changed. -/
theorem head?_eq (h : Flagged f g c l) (hc : c ≠ '?') (hf : (l.flatMap f).head? = some c) :
    (l.flatMap g).head? = some c := by
  -- The pieces before the one with the first character are empty, so none of them is a mark.
  have hsome : ∀ (p s : List α), l = p ++ s → (∀ x ∈ p, f x = []) →
      (s.flatMap f).head? = some c → (s.flatMap g).head? = some c := by
    intro p s
    induction s generalizing p with
    | nil => exact fun _ _ hs ↦ hs
    | cons y s ih =>
      intro hl hp hs
      have hsame : f y = g y := by
        refine Decidable.byContradiction fun hne ↦ ?_
        obtain ⟨q, z, r, hz, hmark, -⟩ := h p y s hl hne
        have hmem : z ∈ p ++ [y] := hz ▸ List.mem_append_right q List.mem_cons_self
        rcases List.mem_append.1 hmem with hmem | hmem
        · rw [hp z hmem] at hmark
          cases hmark
        · rw [List.mem_singleton.1 hmem] at hmark
          rw [List.flatMap_cons, hmark] at hs
          exact hc (Option.some.inj hs).symm
      rw [List.flatMap_cons] at hs ⊢
      rw [← hsame]
      cases hy : f y with
      | nil =>
        rw [hy] at hs
        refine ih (p ++ [y]) (by simp [hl]) (fun x hx ↦ ?_) hs
        rcases List.mem_append.1 hx with hx | hx
        · exact hp x hx
        · rw [List.mem_singleton.1 hx, hy]
      | cons d ds =>
        rw [hy] at hs
        exact hs
  exact hsome [] l rfl (fun x hx ↦ by cases hx) hf

theorem exists_getLast?_of_flatMap {r : List α} (h : (r.flatMap f).getLast? = some c) :
    ∃ w ∈ r, (f w).getLast? = some c := by
  induction r with
  | nil => cases h
  | cons w r ih =>
    rw [List.flatMap_cons, List.getLast?_append, Option.or_eq_some_iff] at h
    rcases h with h | ⟨-, h⟩
    · obtain ⟨v, hv, hlast⟩ := ih h
      exact ⟨v, List.mem_cons_of_mem w hv, hlast⟩
    · exact ⟨w, List.mem_cons_self, h⟩

/-- The last character of a text is kept, unless it was in a piece that was changed. -/
theorem getLast?_eq (h : Flagged f g c l) (hc : c ≠ '?') (hf : (l.flatMap f).getLast? = some c) :
    (l.flatMap g).getLast? = some c := by
  -- From the last piece on towards the first.
  induction hm : l.reverse generalizing l with
  | nil =>
    rw [List.reverse_eq_nil_iff.1 hm] at hf
    cases hf
  | cons y m ih =>
    obtain rfl : l = m.reverse ++ [y] := by
      rw [← List.reverse_cons, ← hm, List.reverse_reverse]
    have hsame : f y = g y := by
      refine Decidable.byContradiction fun hne ↦ ?_
      obtain ⟨q, z, r, hz, hmark, hr⟩ := h m.reverse y [] rfl hne
      rw [hz, List.flatMap_append, List.flatMap_cons, hmark, List.getLast?_append,
        List.getLast?_append, Option.or_eq_some_iff, Option.or_eq_some_iff] at hf
      rcases hf with (hf | ⟨-, hf⟩) | ⟨hf, -⟩
      · obtain ⟨w, hw, hlast⟩ := exists_getLast?_of_flatMap hf
        exact hr w hw hlast
      · exact hc (Option.some.inj hf).symm
      · simp at hf
    rw [List.flatMap_append, List.flatMap_singleton, List.getLast?_append] at hf ⊢
    rw [← hsame]
    cases hlast : (f y).getLast? with
    | none =>
      rw [hlast] at hf
      refine ih (fun p x s hl hne ↦ ?_) hf (List.reverse_reverse m)
      exact h p x (s ++ [y]) (by rw [hl]; simp) hne
    | some d =>
      rw [hlast] at hf
      exact hf

/-- If anything was changed, a placeholder shows. -/
theorem eq_or_mem (h : Flagged f g c l) : l.flatMap f = l.flatMap g ∨ '?' ∈ l.flatMap f := by
  by_cases hall : ∀ y ∈ l, f y = g y
  · exact .inl (congrArg List.flatten (List.map_congr_left hall))
  · obtain ⟨y, hy, hne⟩ : ∃ y ∈ l, f y ≠ g y := by simpa using hall
    obtain ⟨p, s, hl⟩ := List.append_of_mem hy
    obtain ⟨q, z, r, hz, hmark, -⟩ := h p y s hl hne
    have hmem : z ∈ p ++ [y] := hz ▸ List.mem_append_right q List.mem_cons_self
    refine .inr (List.mem_flatMap.2 ⟨z, ?_, by rw [hmark]; exact List.mem_singleton.2 rfl⟩)
    rw [hl, List.append_cons]
    exact List.mem_append_left s hmem

end Flagged

end Join

namespace Buffer

variable {b c : Buffer} {x : Head × List Tree} {ts : List Tree}

/-- Whether a node is replaced, by the texts of its tokens. -/
def replaces (b : Buffer) (x : Head × List Tree) : Bool :=
  match x.1.rule with
  | .literalValue => true
  | .expr => b.lowerText x.2 == "true" || b.lowerText x.2 == "false"
  | .anyName => isDoubleQuoted (b.nodeText x.2)
  | _ => false

theorem replaces_of_other (h₁ : x.1.rule ≠ .literalValue) (h₂ : x.1.rule ≠ .expr)
    (h₃ : x.1.rule ≠ .anyName) : b.replaces x = false := by
  unfold replaces
  split
  · exact absurd ‹_› h₁
  · exact absurd ‹_› h₂
  · exact absurd ‹_› h₃
  · rfl

theorem toList_nodeText (b : Buffer) (ts : List Tree) : (b.nodeText ts).toList =
    (Tree.leavesAll ts).flatMap fun x ↦ (b.leafText x.1).toList := by
  rw [nodeText, String.toList_join, List.flatMap_map]

/-- A word in which no placeholder occurs has not been touched. -/
theorem lowerText_of_mark (h : (c.nodeText ts).toList = (b.nodeText ts).toList ∨
      '?' ∈ (c.nodeText ts).toList) {w : String} (hw : ∀ d ∈ w.toList, Text.IsOwnLower d)
    (hmark : '?' ∉ w.toList) (hc : c.lowerText ts = w) : b.lowerText ts = w := by
  have hlower : Text.lower (c.nodeText ts).toList = w.toList := by
    rw [← hc, Buffer.lowerText, String.toList_ofList]
  have hsame : (c.nodeText ts).toList = (b.nodeText ts).toList := by
    refine h.resolve_right fun hmem ↦ hmark ?_
    rw [← (Text.lower_eq_iff hw).1 hlower]
    exact List.mem_map.2 ⟨'?', hmem, rfl⟩
  rw [← hc, Buffer.lowerText, Buffer.lowerText, hsame]

/-- A node that is replaced after its text was changed would have been replaced before. -/
theorem replaces_of_flagged (h : Flagged (fun l ↦ (c.leafText l.1).toList)
      (fun l ↦ (b.leafText l.1).toList) '"' (Tree.leavesAll x.2))
    (hc : c.replaces x = true) : b.replaces x = true := by
  have hmark := h.eq_or_mem
  rw [← toList_nodeText, ← toList_nodeText] at hmark
  unfold Buffer.replaces at hc ⊢
  split at hc
  · rfl
  · rw [Bool.or_eq_true, beq_iff_eq, beq_iff_eq] at hc ⊢
    exact hc.imp (lowerText_of_mark hmark (Text.forall_isOwnLower (by decide)) (by decide))
      (lowerText_of_mark hmark (Text.forall_isOwnLower (by decide)) (by decide))
  · unfold PlanCache.isDoubleQuoted at hc ⊢
    rw [Bool.and_eq_true, beq_iff_eq, beq_iff_eq, toList_nodeText] at hc ⊢
    exact ⟨h.head?_eq (by decide) hc.1, h.getLast?_eq (by decide) hc.2⟩
  · cases hc

/-- Tokens have their texts or the placeholder. -/
structure Spotted (b c : Buffer) : Prop where
  source : c.source = b.source
  text : ∀ i, c.text i = b.text i ∨ c.text i = placeholder

theorem Spotted.leafText (h : Spotted b c) (l : Leaf) :
    (c.leafText l).toList = (b.leafText l).toList ∨ (c.leafText l).toList = ['?'] := by
  cases l with
  | read i =>
    rw [Buffer.leafText, Buffer.leafText, h.source]
    rcases h.text (b.source.index i) with he | he
    · exact .inl (congrArg String.toList he)
    · exact .inr (congrArg String.toList he)
  | missing k =>
    rw [Buffer.leafText, Buffer.leafText, h.source]
    exact .inl rfl

theorem Spotted.replaces (h : Spotted b c) (hc : c.replaces x = true) : b.replaces x = true := by
  refine replaces_of_flagged (fun p y s _ hne ↦ ?_) hc
  exact ⟨p, y, [], rfl, (h.leafText y.1).resolve_left hne, fun w hw ↦ by cases hw⟩

end Buffer

/-- A node over one token and nothing else. -/
structure Single (x : Head × List Tree) : Prop where
  stop : x.1.stop = some x.1.start
  leaf : ∃ error, Tree.leavesAll x.2 = [(.read x.1.start, error)]

instance (x : Head × List Tree) : Decidable (Single x) :=
  decidable_of_iff
    (x.1.stop = some x.1.start ∧ (Tree.leavesAll x.2).map Prod.fst = [.read x.1.start]) <| by
    rw [List.map_eq_singleton_iff]
    constructor
    · rintro ⟨hstop, ⟨l, error⟩, hleaf, rfl⟩
      exact ⟨hstop, error, hleaf⟩
    · rintro ⟨hstop, error, hleaf⟩
      exact ⟨hstop, _, hleaf, rfl⟩

namespace Single

variable {b c : Buffer} {x : Head × List Tree}

theorem nodeText (h : Single x) (b : Buffer) :
    b.nodeText x.2 = b.text (b.source.index x.1.start) := by
  obtain ⟨error, hleaf⟩ := h.leaf
  rw [Buffer.nodeText, hleaf]
  simp [Buffer.leafText, String.join]

/-- A single token is replaced as long as it has its text. -/
theorem replaces_eq (h : Single x) (hsource : c.source = b.source)
    (htext : c.text (b.source.index x.1.start) = b.text (b.source.index x.1.start)) :
    c.replaces x = b.replaces x := by
  have hnode : c.nodeText x.2 = b.nodeText x.2 := by
    rw [h.nodeText, h.nodeText, hsource, htext]
  rw [Buffer.replaces, Buffer.replaces, Buffer.lowerText, Buffer.lowerText, hnode]

end Single

namespace Buffer

/-- The texts after the nodes `done` have been looked at. -/
structure Replacing (b : Buffer) (done : List (Head × List Tree)) (c : Buffer) : Prop where
  source : c.source = b.source
  size : c.texts.size = b.texts.size
  text : ∀ i < b.texts.size, c.text i =
    if done.any fun x ↦ b.replaces x && b.source.index x.1.start == i then placeholder else b.text i

theorem text_of_size_le {b : Buffer} {i : Nat} (h : b.texts.size ≤ i) : b.text i = "" := by
  rw [text, Array.getD_eq_getD_getElem?, Array.getElem?_eq_none h, Option.getD_none]

namespace Replacing

variable {b c : Buffer} {done : List (Head × List Tree)} {x : Head × List Tree}

theorem spotted (h : Replacing b done c) : Spotted b c := by
  refine ⟨h.source, fun i ↦ ?_⟩
  rcases Nat.lt_or_ge i b.texts.size with hlt | hge
  · rw [h.text i hlt]
    split
    · exact .inr rfl
    · exact .inl rfl
  · rw [text_of_size_le hge, text_of_size_le (by rw [h.size]; exact hge)]
    exact .inl rfl

theorem cut (h : Replacing b done c) (hr : b.replaces x = true) :
    Replacing b (done ++ [x])
      (c.cut (b.source.index x.1.start) (b.source.index x.1.start)) := by
  refine ⟨h.source, size_cut.trans h.size, fun i hi ↦ ?_⟩
  rw [text_cut, h.size, if_pos hi, h.text i hi, List.any_append]
  by_cases he : i = b.source.index x.1.start
  · simp [he, hr]
  · have hrange : ¬(b.source.index x.1.start ≤ i ∧ i ≤ b.source.index x.1.start) := by omega
    have hne : (b.source.index x.1.start == i) = false := beq_false_of_ne (Ne.symm he)
    rw [if_neg he, if_neg hrange, List.any_cons, List.any_nil, hne, Bool.and_false, Bool.or_false,
      Bool.or_false]

theorem skip (h : Replacing b done c) (hx : b.replaces x = true → Single x)
    (hr : c.replaces x = false) : Replacing b (done ++ [x]) c := by
  refine ⟨h.source, h.size, fun i hi ↦ ?_⟩
  rw [List.any_append, List.any_cons, List.any_nil, Bool.or_false]
  by_cases hi' : b.replaces x = true ∧ b.source.index x.1.start = i
  · -- It would be replaced if it still had its text, so it has the placeholder already.
    obtain ⟨hb, rfl⟩ := hi'
    have hne : c.text (b.source.index x.1.start) ≠ b.text (b.source.index x.1.start) := by
      intro htext
      rw [(hx hb).replaces_eq h.source htext, hb] at hr
      cases hr
    rw [(h.spotted.text _).resolve_left hne]
    simp [hb]
  · rw [h.text i hi]
    have hnone : (b.replaces x && b.source.index x.1.start == i) = false := by
      rw [Bool.eq_false_iff]
      intro hboth
      rw [Bool.and_eq_true, beq_iff_eq] at hboth
      exact hi' hboth
    rw [hnone, Bool.or_false]

end Replacing

end Buffer

namespace Replaced

open Buffer

variable {b : Buffer} {done nodes : List (Head × List Tree)} {x : Head × List Tree} {s : Replaced}

theorem exists_step_eq (s : Replaced) (x : Head × List Tree) : ∃ noted, s.step x.1 x.2 =
    if s.buffer.replaces x then s.cut noted x.1 else .ok s := by
  by_cases h₁ : x.1.rule = .literalValue
  · refine ⟨[s.buffer.nodeText x.2], ?_⟩
    rw [step_of_literalValue h₁]
    simp [replaces, h₁]
  by_cases h₂ : x.1.rule = .expr
  · refine ⟨[s.buffer.lowerText x.2], ?_⟩
    rw [step_of_expr h₂]
    simp [replaces, h₂]
  by_cases h₃ : x.1.rule = .anyName
  · refine ⟨[], ?_⟩
    rw [step_of_anyName h₃]
    simp [replaces, h₃]
  · refine ⟨[], ?_⟩
    rw [step_of_other h₁ h₂ h₃, replaces_of_other h₁ h₂ h₃, if_neg Bool.false_ne_true]

theorem exists_step (h : Replacing b done s.buffer) (hx : b.replaces x = true → Single x) :
    ∃ s', s.step x.1 x.2 = .ok s' ∧ Replacing b (done ++ [x]) s'.buffer := by
  obtain ⟨noted, hstep⟩ := exists_step_eq s x
  rw [hstep]
  cases hr : s.buffer.replaces x with
  | false => exact ⟨s, if_neg Bool.false_ne_true, h.skip hx hr⟩
  | true =>
    have hb := h.spotted.replaces hr
    have hcut := cutNode_of_stop (b := s.buffer) (hx hb).stop
    rw [if_pos rfl, Replaced.cut, hcut]
    rw [h.source]
    exact ⟨_, rfl, h.cut hb⟩

/-- Every node that counts is replaced. -/
theorem exists_passNodes (h : Replacing b done s.buffer)
    (hnodes : ∀ x ∈ nodes, b.replaces x = true → Single x) :
    ∃ s', passNodes step s nodes = .ok s' ∧ Replacing b (done ++ nodes) s'.buffer := by
  induction nodes generalizing s done with
  | nil => exact ⟨s, rfl, by rwa [List.append_nil]⟩
  | cons x nodes ih =>
    obtain ⟨hx, hnodes⟩ := List.forall_mem_cons.1 hnodes
    obtain ⟨s', hstep, hs'⟩ := exists_step h hx
    obtain ⟨u, hpass, hu⟩ := ih hs' hnodes
    refine ⟨u, ?_, by simpa using hu⟩
    rw [passNodes, hstep]
    exact hpass

end Replaced

end PlanCache

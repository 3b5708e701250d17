import PlanCache.Proofs.SimilarTexts
import PlanCache.Proofs.TokenPairs
import PlanCache.Query.Rebuild

/-!
Replacing the literals of two texts with the same kinds of tokens, node by node in step. At each
node the texts differ in literals that are still to come.
-/

namespace PlanCache

/-- Two pieces of work both go on, in states that are related, or break off for the same cause. -/
inductive Halt.Both {ε σ τ : Type} (R : σ → τ → Prop) :
    Except (Halt ε σ) σ → Except (Halt ε τ) τ → Prop where
  | ok {a : σ} {b : τ} : R a b → Both R (.ok a) (.ok b)
  | error (e : ε) (a : σ) (b : τ) : Both R (.error ⟨e, a⟩) (.error ⟨e, b⟩)

theorem passNodes_both {ε σ τ : Type} {f : σ → Head → List Tree → Except (Halt ε σ) σ}
    {g : τ → Head → List Tree → Except (Halt ε τ) τ}
    {R : List (Head × List Tree) → σ → τ → Prop} {nodes : List (Head × List Tree)}
    (hstep : ∀ x ∈ nodes, ∀ todo a b, R (x :: todo) a b →
      Halt.Both (R todo) (f a x.1 x.2) (g b x.1 x.2))
    {a : σ} {b : τ} (h : R nodes a b) :
    Halt.Both (R []) (passNodes f a nodes) (passNodes g b nodes) := by
  induction nodes generalizing a b with
  | nil => exact .ok h
  | cons x nodes ih =>
    have hx := hstep x List.mem_cons_self nodes a b h
    rw [passNodes, passNodes]
    generalize f a x.1 x.2 = fa at hx ⊢
    generalize g b x.1 x.2 = gb at hx ⊢
    cases hx with
    | ok hr => exact ih (fun y hy ↦ hstep y (List.mem_cons_of_mem _ hy)) hr
    | error e a b => exact .error e a b

namespace Buffer

variable {b c : Buffer} {sql s t : String} {i j first last : Nat}

theorem text_cut : (b.cut first last).text i =
    if i < b.texts.size then
      if i = first then placeholder else if first ≤ i ∧ i ≤ last then "" else b.text i
    else "" := by
  unfold cut text
  rw [Array.getD_eq_getD_getElem?, Array.getElem?_mapIdx, Array.getD_eq_getD_getElem?]
  by_cases hi : i < b.texts.size
  · rw [if_pos hi, Array.getElem?_eq_getElem hi]
    rfl
  · rw [if_neg hi, Array.getElem?_eq_none (Nat.le_of_not_lt hi)]
    rfl

theorem size_cut : (b.cut first last).texts.size = b.texts.size := Array.size_mapIdx

/-- A buffer over the tokens of a text; its blanks are blank. -/
structure Over (sql : String) (b : Buffer) : Prop where
  source : b.source = .ofString sql
  blank : ∀ i x, (Token.scan sql)[i]? = some x → x.kind = .blank → Text.allBlank (b.text i) = true

theorem Over.cut (h : b.Over sql) (hf : ∃ x, (x, first) ∈ Token.solid sql) (last : Nat) :
    (b.cut first last).Over sql := by
  refine ⟨h.source, fun i x hi hx ↦ ?_⟩
  have hne : i ≠ first := by
    rintro rfl
    obtain ⟨y, hy⟩ := hf
    obtain ⟨hy, hk⟩ := Token.mem_solid.1 hy
    obtain rfl := Option.some.inj (hi.symm.trans hy)
    exact hk hx
  rw [text_cut, if_neg hne]
  split
  · split
    · rfl
    · exact h.blank i x hi hx
  · rfl

/-- What holds of paired texts holds when the same stretch has been cut out of both. -/
theorem text_cut_paired {R : String → String → Prop} {first' last' : Nat}
    (hplace : R placeholder placeholder) (hempty : R "" "") (hf : Paired s t first first')
    (hl : Paired s t last last')
    (hsize : ∀ {i j}, Paired s t i j → (i < b.texts.size ↔ j < c.texts.size))
    (h : ∀ {i j}, Paired s t i j → R (b.text i) (c.text j)) {i j : Nat} (hp : Paired s t i j) :
    R ((b.cut first last).text i) ((c.cut first' last').text j) := by
  rw [text_cut, text_cut]
  simp only [hsize hp, hp.eq_iff hf, hf.le_iff hp, hp.le_iff hl]
  split
  · split
    · exact hplace
    · split
      · exact hempty
      · exact h hp
  · exact hempty

/-- Two buffers with similar texts. They differ in literals at which nodes of `todo` begin. -/
structure Abreast (s t : String) (todo : List (Head × List Tree)) (b c : Buffer) : Prop where
  left : b.Over s
  right : c.Over t
  size : ∀ {i j}, Paired s t i j → (i < b.texts.size ↔ j < c.texts.size)
  similar : ∀ {i j}, Paired s t i j → Similar (b.text i).toList (c.text j).toList
  differ : ∀ {i j}, Paired s t i j → b.text i ≠ c.text j →
    ∃ x ∈ todo, x.1.rule = .literalValue ∧ i = (Source.ofString s).index x.1.start

namespace Abreast

variable {todo todo' : List (Head × List Tree)} {first' last' : Nat}

theorem cut (h : Abreast s t todo b c) (hf : Paired s t first first')
    (hl : Paired s t last last') (htodo : ∀ x ∈ todo, x.1.rule = .literalValue →
      (Source.ofString s).index x.1.start = first ∨ x ∈ todo') :
    Abreast s t todo' (b.cut first last) (c.cut first' last') := by
  refine ⟨h.left.cut hf.solid.1 last, h.right.cut hf.solid.2 last', fun hp ↦ ?_, fun hp ↦ ?_,
    fun hp hne ↦ ?_⟩
  · rw [size_cut, size_cut]
    exact h.size hp
  · exact text_cut_paired (R := fun u v ↦ Similar u.toList v.toList) (.refl _) (.refl _) hf hl
      h.size h.similar hp
  · rw [text_cut, text_cut] at hne
    simp only [h.size hp, ← hp.eq_iff hf, hf.le_iff hp, hp.le_iff hl] at hne
    split at hne
    · split at hne
      · exact absurd rfl hne
      · rename_i hi
        split at hne
        · exact absurd rfl hne
        · obtain ⟨x, hx, hr, rfl⟩ := h.differ hp hne
          exact ⟨x, (htodo x hx hr).resolve_left hi, hr, rfl⟩
    · exact absurd rfl hne

theorem skip {x : Head × List Tree} (h : Abreast s t (x :: todo) b c)
    (hx : x.1.rule ≠ .literalValue) : Abreast s t todo b c := by
  refine ⟨h.left, h.right, h.size, h.similar, fun hp hne ↦ ?_⟩
  obtain ⟨y, hy, hr, hi⟩ := h.differ hp hne
  rcases List.mem_cons.1 hy with rfl | hy
  · exact absurd hr hx
  · exact ⟨y, hy, hr, hi⟩

theorem leafText (h : Abreast s t todo b c) (hk : SameKinds s t) {l : Leaf}
    (hl : ∀ i, l = .read i → i < (Source.ofString s).input.size) :
    Similar (b.leafText l).toList (c.leafText l).toList := by
  cases l with
  | read i =>
    rw [Buffer.leafText, Buffer.leafText, h.left.source, h.right.source]
    exact h.similar (hk.paired (hl i rfl))
  | missing k =>
    have hm : b.leafText (.missing k) = c.leafText (.missing k) := by
      cases k <;> rfl
    rw [hm]
    exact .refl _

theorem nodeText (h : Abreast s t todo b c) (hk : SameKinds s t) {ts : List Tree}
    (hl : ∀ i e, (.read i, e) ∈ Tree.leavesAll ts → i < (Source.ofString s).input.size) :
    Similar (b.nodeText ts).toList (c.nodeText ts).toList := by
  refine .join fun ⟨l, e⟩ hm ↦ h.leafText hk fun i hi ↦ ?_
  exact hl i e (hi ▸ hm)

end Abreast

end Buffer

namespace Replaced

open Buffer

variable {s t : String} {x : Head × List Tree} {todo : List (Head × List Tree)} {p q : Replaced}

def Abreast (s t : String) (todo : List (Head × List Tree)) (p q : Replaced) : Prop :=
  p.buffer.Abreast s t todo q.buffer

theorem Abreast.cut (hk : SameKinds s t) (hx : x.1.Placed (Source.ofString s).input)
    (h : Abreast s t (x :: todo) p q) (noted noted' : List String) :
    Halt.Both (Abreast s t todo) (p.cut noted x.1) (q.cut noted' x.1) := by
  have hsource : p.buffer.source = .ofString s ∧ q.buffer.source = .ofString t :=
    ⟨h.left.source, h.right.source⟩
  unfold Replaced.cut cutNode range
  rw [hsource.1, hsource.2]
  cases hs : x.1.stop with
  | none => exact .error _ p q
  | some j =>
    refine .ok (Buffer.Abreast.cut h (hk.paired hx.start_lt) (hk.paired (hx.stop_lt j hs)) ?_)
    intro y hy _
    rcases List.mem_cons.1 hy with rfl | hy
    · exact .inl rfl
    · exact .inr hy

theorem step_of_literalValue {h : Head} (hr : h.rule = .literalValue) (ts : List Tree) :
    p.step h ts = p.cut [p.buffer.nodeText ts] h := by
  simp only [step, hr]

theorem step_of_expr {h : Head} (hr : h.rule = .expr) (ts : List Tree) :
    p.step h ts = if p.buffer.lowerText ts == "true" || p.buffer.lowerText ts == "false" then
      p.cut [p.buffer.lowerText ts] h else .ok p := by
  simp only [step, hr]

theorem step_of_anyName {h : Head} (hr : h.rule = .anyName) (ts : List Tree) :
    p.step h ts = if isDoubleQuoted (p.buffer.nodeText ts) then p.cut [] h else .ok p := by
  simp only [step, hr]

theorem step_of_other {h : Head} (h₁ : h.rule ≠ .literalValue) (h₂ : h.rule ≠ .expr)
    (h₃ : h.rule ≠ .anyName) (ts : List Tree) : p.step h ts = .ok p := by
  unfold step
  split
  · exact absurd ‹_› h₁
  · exact absurd ‹_› h₂
  · exact absurd ‹_› h₃
  · rfl

theorem lowerText_eq_iff {b c : Buffer} {ts : List Tree}
    (h : Similar (b.nodeText ts).toList (c.nodeText ts).toList) {w : String}
    (hw : ∀ d ∈ w.toList, Text.IsOwnLower d) : b.lowerText ts = w ↔ c.lowerText ts = w := by
  have hlist : ∀ cs : List Char, String.ofList cs = w ↔ cs = w.toList := by
    intro cs
    rw [← String.toList_inj, String.toList_ofList]
  unfold lowerText
  rw [hlist, hlist, h.lower_eq_iff hw]

/-- A step goes in pairs if cutting does and both sides find the same to cut out. -/
theorem step_both {R : Replaced → Replaced → Prop}
    (hcut : ∀ noted noted', Halt.Both R (p.cut noted x.1) (q.cut noted' x.1))
    (hpass : x.1.rule ≠ .literalValue → R p q)
    (hlower : ∀ w : String, (∀ d ∈ w.toList, Text.IsOwnLower d) →
      (p.buffer.lowerText x.2 = w ↔ q.buffer.lowerText x.2 = w))
    (hquoted : isDoubleQuoted (p.buffer.nodeText x.2) = isDoubleQuoted (q.buffer.nodeText x.2)) :
    Halt.Both R (p.step x.1 x.2) (q.step x.1 x.2) := by
  by_cases h₁ : x.1.rule = .literalValue
  · rw [step_of_literalValue h₁, step_of_literalValue h₁]
    exact hcut _ _
  by_cases h₂ : x.1.rule = .expr
  · have htrue := hlower "true" (Text.forall_isOwnLower (by decide))
    have hfalse := hlower "false" (Text.forall_isOwnLower (by decide))
    rw [step_of_expr h₂, step_of_expr h₂]
    simp only [Bool.or_eq_true, beq_iff_eq, htrue, hfalse]
    split
    · exact hcut _ _
    · exact .ok (hpass h₁)
  by_cases h₃ : x.1.rule = .anyName
  · rw [step_of_anyName h₃, step_of_anyName h₃, hquoted]
    split
    · exact hcut _ _
    · exact .ok (hpass h₁)
  · rw [step_of_other h₁ h₂ h₃, step_of_other h₁ h₂ h₃]
    exact .ok (hpass h₁)

theorem Abreast.step (hk : SameKinds s t) (hx : x.1.Placed (Source.ofString s).input)
    (hl : ∀ i e, (.read i, e) ∈ Tree.leavesAll x.2 → i < (Source.ofString s).input.size)
    (h : Abreast s t (x :: todo) p q) :
    Halt.Both (Abreast s t todo) (p.step x.1 x.2) (q.step x.1 x.2) := by
  have ht := Buffer.Abreast.nodeText h hk hl
  exact step_both (h.cut hk hx) (Buffer.Abreast.skip h) (fun w hw ↦ lowerText_eq_iff ht hw)
    ht.isDoubleQuoted_eq

end Replaced

namespace Buffer

variable {b c : Buffer} {sql s t : String}

/-- The text that a token has at present, unless it is the mark of the end. -/
def present? (b : Buffer) (x : Token × Nat) : Option String :=
  if x.1.kind == .eof then none else b.texts[x.2]?

theorem zip_filterMap (tokens : List Token) (before texts : List String) :
    ((tokens.zip texts).filterMap fun x ↦ if x.1.kind == .eof then none else some x.2) =
      (tokens.zipIdx before.length).filterMap fun x ↦
        if x.1.kind == .eof then none else (before ++ texts)[x.2]? := by
  induction tokens generalizing before texts with
  | nil => rfl
  | cons x tokens ih =>
    cases texts with
    | nil =>
      symm
      rw [List.zip_nil_right, List.filterMap_nil, List.filterMap_eq_nil_iff]
      intro y hy
      have hle := List.le_snd_of_mem_zipIdx hy
      rw [List.append_nil, List.getElem?_eq_none hle, ite_self]
    | cons w texts =>
      have hi := ih (before ++ [w]) texts
      rw [List.length_append, List.length_singleton, List.append_assoc, List.singleton_append] at hi
      rw [List.zip_cons_cons, List.zipIdx_cons, List.filterMap_cons, List.filterMap_cons, hi]
      simp

theorem filter_filterMap {α β : Type} {l : List α} {p : α → Bool} {q : β → Bool}
    {f : α → Option β} (h : ∀ x ∈ l, p x = false → ∀ y, f x = some y → q y = false) :
    (l.filterMap f).filter q = ((l.filter p).filterMap f).filter q := by
  induction l with
  | nil => rfl
  | cons x l ih =>
    have ih := ih fun y hy ↦ h y (List.mem_cons_of_mem _ hy)
    have hx := h x List.mem_cons_self
    cases hp : p x with
    | true =>
      rw [List.filter_cons_of_pos hp, List.filterMap_cons, List.filterMap_cons]
      split
      · exact ih
      · rw [List.filter_cons, List.filter_cons, ih]
    | false =>
      rw [List.filter_cons_of_neg (by rw [hp]; decide), List.filterMap_cons]
      split
      · exact ih
      · rename_i y hy
        rw [List.filter_cons_of_neg (by rw [hx hp y hy]; decide), ih]

theorem rebuild_of_over (h : b.Over sql) :
    b.rebuild = Rebuild.tidy (Text.joinWords ((Token.solid sql).filterMap b.present?)) := by
  have hpieces : (b.pieces.filterMap fun p ↦ if p.atEnd then none else p.text) =
      (Token.scan sql).zipIdx.filterMap b.present? := by
    have hz := zip_filterMap (Token.scan sql) [] b.texts.toList
    unfold pieces
    rw [h.source, List.filterMap_map]
    change _ = (Token.scan sql).zipIdx.filterMap fun x ↦
      if x.1.kind == .eof then none else b.texts[x.2]?
    simpa [Function.comp_def, Source.ofString] using hz
  have hwords : (((Token.scan sql).zipIdx.filterMap b.present?).filter (!Text.allBlank ·)) =
      ((Token.solid sql).filterMap b.present?).filter (!Text.allBlank ·) := by
    refine filter_filterMap fun x hx hp w hw ↦ ?_
    have hb := h.blank x.2 x.1 (List.mk_mem_zipIdx_iff_getElem?.1 hx) (by simpa using hp)
    unfold present? at hw
    split at hw
    · cases hw
    · rw [text, Array.getD_eq_getD_getElem?, hw, Option.getD_some] at hb
      rw [hb]
      rfl
  unfold rebuild PlanCache.rebuild Text.joinWords
  rw [hpieces, hwords]

theorem Abreast.present?_eq (hk : SameKinds s t) (h : Abreast s t [] b c) {r : Nat}
    {x y : Token × Nat} (hx : (Token.solid s)[r]? = some x) (hy : (Token.solid t)[r]? = some y) :
    b.present? x = c.present? y := by
  have hp : Paired s t x.2 y.2 := ⟨r, x.1, y.1, hx, hy⟩
  have htext : b.text x.2 = c.text y.2 := by
    refine Decidable.byContradiction fun hne ↦ ?_
    obtain ⟨z, hz, -⟩ := h.differ hp hne
    cases hz
  have hsize := h.size hp
  unfold present?
  rw [Paired.kind_eq hk hx hy]
  unfold text at htext
  rw [Array.getD_eq_getD_getElem?, Array.getD_eq_getD_getElem?] at htext
  by_cases hlt : x.2 < b.texts.size
  · have hlt' := hsize.1 hlt
    rw [Array.getElem?_eq_getElem hlt, Array.getElem?_eq_getElem hlt', Option.getD_some,
      Option.getD_some] at htext
    rw [Array.getElem?_eq_getElem hlt, Array.getElem?_eq_getElem hlt', htext]
  · have hge := Nat.le_of_not_lt hlt
    have hge' := Nat.le_of_not_lt (mt hsize.2 hlt)
    rw [Array.getElem?_eq_none hge, Array.getElem?_eq_none hge']

theorem Abreast.rebuild_eq (hk : SameKinds s t) (h : Abreast s t [] b c) :
    b.rebuild = c.rebuild := by
  have hfilter : (Token.solid s).filterMap b.present? = (Token.solid t).filterMap c.present? :=
    hk.filterMap_eq (h.present?_eq hk)
  rw [rebuild_of_over h.left, rebuild_of_over h.right, hfilter]

end Buffer

end PlanCache

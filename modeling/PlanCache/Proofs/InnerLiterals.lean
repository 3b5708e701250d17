import PlanCache.Proofs.Rescanning
import PlanCache.Proofs.SharedKeys

/-!
The selects in a query that hold no other are read a second time, each by itself and in one line.
For queries that differ in literals only, the second reading gives the same kinds of tokens. The
selects get the same keys if it finds literals where the query has them.
-/

namespace PlanCache

section Places

/-- A stretch of a list is what stands at the numbers from `a` up to `b`. -/
theorem take_drop_eq_filter {α : Type} (l : List α) (a b k : Nat) :
    (l.drop (a - k)).take (b - max a k) =
      ((l.zipIdx k).filter fun x ↦ a ≤ x.2 && x.2 < b).map Prod.fst := by
  induction l generalizing k with
  | nil => simp
  | cons x l ih =>
    have ih := ih (k + 1)
    rw [List.zipIdx_cons, List.filter_cons]
    by_cases ha : a ≤ k
    · have hmax : max a k = k ∧ max a (k + 1) = k + 1 := by omega
      have hsub : a - k = 0 ∧ a - (k + 1) = 0 := by omega
      rw [hmax.1, hsub.1, List.drop_zero]
      rw [hmax.2, hsub.2, List.drop_zero] at ih
      by_cases hb : k < b
      · obtain ⟨m, hm⟩ : ∃ m, b - k = m + 1 := ⟨b - k - 1, by omega⟩
        have hm' : b - (k + 1) = m := by omega
        rw [hm, List.take_succ_cons, ← hm', ih]
        simp [ha, hb]
      · have hm : b - k = 0 ∧ b - (k + 1) = 0 := by omega
        rw [hm.1, List.take_zero]
        rw [hm.2, List.take_zero] at ih
        simp [hb, ← ih]
    · obtain ⟨m, hm⟩ : ∃ m, a - k = m + 1 := ⟨a - k - 1, by omega⟩
      have hm' : a - (k + 1) = m := by omega
      have hmax : max a k = max a (k + 1) := by omega
      rw [hm, List.drop_succ_cons, ← hm', hmax, ih]
      simp [ha]

end Places

/-- Tokens of a text from `first` to `last` that have been read and are no blanks. -/
def Token.stretch (sql : String) (first last : Nat) : List (Token × Nat) :=
  (solid sql).filter fun x ↦ first ≤ x.2 && x.2 ≤ last && x.2 ≤ lastRead sql

/-- Whether a text is not blank. -/
def hasInk (x : Token × Nat) : Bool := !Text.allBlank x.1.text

theorem between_ofString (sql : String) (first last : Nat) :
    ((Buffer.ofString sql).1.between first last).filter (!Text.allBlank ·) =
      ((Token.stretch sql first last).filter hasInk).map (·.1.text) := by
  have hstretch : (Buffer.ofString sql).1.between first last =
      (((Token.scan sql).zipIdx.filter fun x ↦
        first ≤ x.2 && x.2 < min (last + 1) (lastRead sql + 1)).map Prod.fst).map Token.text := by
    have hplaces := take_drop_eq_filter (Token.scan sql) first (min (last + 1) (lastRead sql + 1)) 0
    rw [Nat.sub_zero, Nat.max_zero] at hplaces
    have hmin : min (last + 1 - first) (lastRead sql + 1 - first) =
        min (last + 1) (lastRead sql + 1) - first := by omega
    rw [Buffer.between, texts_ofString, ← List.map_drop, ← List.map_take, List.drop_take,
      List.take_take, hmin, hplaces]
  have hsolid : ∀ x ∈ (Token.scan sql).zipIdx, hasInk x = true → (x.1.kind != .blank) = true := by
    intro x hx hi
    rw [bne_iff_ne]
    intro hk
    have hm := List.mem_of_getElem? (List.mk_mem_zipIdx_iff_getElem?.1 hx)
    rw [hasInk, Token.allBlank_of_mem_scan hm hk] at hi
    cases hi
  rw [hstretch, List.map_map, List.filter_map, Token.stretch, Token.solid, List.filter_filter,
    List.filter_filter, List.filter_filter]
  congr 1
  refine List.filter_congr fun x hx ↦ ?_
  have hs := hsolid x hx
  rw [Bool.eq_iff_iff]
  simp only [Function.comp_apply, Bool.and_eq_true, decide_eq_true_eq] at hs ⊢
  change (hasInk x = true ∧ _) ↔ _
  constructor
  · rintro ⟨hi, h₁, h₂⟩
    exact ⟨⟨hi, ⟨h₁, by omega⟩, by omega⟩, hs hi⟩
  · rintro ⟨⟨hi, ⟨h₁, h₂⟩, h₃⟩, -⟩
    exact ⟨hi, h₁, by omega⟩

/-- The text of a select as it is read by itself: the words of its tokens. -/
def Token.words (sql : String) (first last : Nat) : List Token :=
  ((stretch sql first last).filter hasInk).map Prod.fst

theorem toList_spacedText {sql q : String} {h : Head}
    (hq : (Buffer.ofString sql).1.spacedText h = .ok q) :
    ∃ j, h.stop = some j ∧ q.toList = Text.unwords ((Token.words sql
      ((Source.ofString sql).index h.start) ((Source.ofString sql).index j)).map Token.word) := by
  unfold Buffer.spacedText Buffer.rangeText Buffer.range at hq
  cases hs : h.stop with
  | none =>
    rw [hs] at hq
    cases hq
  | some j =>
    rw [hs] at hq
    obtain rfl := Except.ok.inj hq
    refine ⟨j, rfl, ?_⟩
    rw [String.toList_ofList, Text.trim_collapse, Text.squeeze_joinWords]
    change Text.unwords ((((Buffer.ofString sql).1.between ((Source.ofString sql).index h.start)
      ((Source.ofString sql).index j)).filter (!Text.allBlank ·)).map _) = _
    rw [between_ofString, Token.words, List.map_map, List.map_map]
    rfl

section Pairs

variable {s t : String}

theorem solid_kinds (sql : String) :
    (Token.solid sql).map (·.1.kind) = (tokenKinds sql.toList).filter (· != .blank) := by
  have hz : tokenKinds sql.toList = (Token.scan sql).zipIdx.map fun x ↦ x.1.kind := by
    have hfst := congrArg (List.map Token.kind) (List.zipIdx_map_fst 0 (Token.scan sql))
    rw [List.map_map] at hfst
    exact hfst.symm
  rw [hz, List.filter_map]
  rfl

theorem inOrder_words (sql : String) (first last : Nat) : InOrder (Token.words sql first last) := by
  have hsub : ((Token.stretch sql first last).filter hasInk).Sublist (Token.scan sql).zipIdx :=
    (List.filter_sublist.trans List.filter_sublist).trans List.filter_sublist
  have hfst := hsub.map Prod.fst
  rw [List.zipIdx_map_fst] at hfst
  exact (Token.inOrder_scanFrom _ _).sublist hfst

theorem not_allBlank_of_literal {sql : String} {x : Token} (hx : x ∈ Token.scan sql)
    (hk : x.kind ∈ literals) : Text.allBlank x.text = false := by
  have heof : x.kind ≠ .eof := by
    intro he
    rw [he] at hk
    exact absurd hk (by decide)
  obtain ⟨rest, hlong⟩ := (Token.inOrder_scanFrom _ _).isLongest hx heof
  exact LexRule.all_isBlank_of_literal hlong hk

/-- Tokens at the same place of two alike texts. -/
structure Matched (s t : String) (x y : Token × Nat) : Prop where
  paired : Paired s t x.2 y.2
  kind : x.1.kind = y.1.kind
  text : x.1.text = y.1.text ∨ x.1.kind ∈ literals
  ink : hasInk x = hasInk y

theorem Alike.matched (h : Alike s t) {z : (Token × Nat) × (Token × Nat)}
    (hz : z ∈ (Token.solid s).zip (Token.solid t)) : Matched s t z.1 z.2 := by
  obtain ⟨r, hr⟩ := List.mem_iff_getElem?.1 hz
  obtain ⟨hx, hy⟩ := List.getElem?_zip_eq_some.1 hr
  obtain ⟨⟨x, i⟩, ⟨y, j⟩⟩ := z
  have hsx := (Token.mem_solid.1 (List.mem_of_getElem? hx)).1
  have hsy := (Token.mem_solid.1 (List.mem_of_getElem? hy)).1
  have hk := Paired.kind_eq h.kinds hx hy
  have htext : x.text = y.text ∨ x.kind ∈ literals :=
    (h.cases hx hy).imp_right fun hl ↦ (hl.start hsx).1
  refine ⟨⟨r, x, y, hx, hy⟩, hk, htext, ?_⟩
  unfold hasInk
  rcases htext with he | hl
  · rw [he]
  · rw [not_allBlank_of_literal (List.mem_of_getElem? hsx) hl,
      not_allBlank_of_literal (List.mem_of_getElem? hsy) (hk ▸ hl)]

/-- The words between paired tokens of alike texts have the same kinds when they are read again. -/
theorem Alike.tokenKinds_words (h : Alike s t) {first last first' last' : Nat}
    (hf : Paired s t first first') (hl : Paired s t last last') :
    tokenKinds (Text.unwords ((Token.words s first last).map Token.word)) =
      tokenKinds (Text.unwords ((Token.words t first' last').map Token.word)) := by
  have hlen : (Token.solid s).length = (Token.solid t).length := by
    simpa using congrArg List.length h.kinds
  let zs := ((Token.solid s).zip (Token.solid t)).filter fun z ↦
    first ≤ z.1.2 && z.1.2 ≤ last && z.1.2 ≤ lastRead s && hasInk z.1
  have hmatched : ∀ z ∈ zs, Matched s t z.1 z.2 := fun z hz ↦ h.matched (List.mem_filter.1 hz).1
  have hleft : Token.words s first last = (zs.map fun z ↦ (z.1.1, z.2.1)).map Prod.fst := by
    have hs : Token.solid s = ((Token.solid s).zip (Token.solid t)).map Prod.fst :=
      (List.map_fst_zip (Nat.le_of_eq hlen)).symm
    rw [Token.words, Token.stretch, hs, List.filter_map, List.filter_map, List.filter_filter,
      List.map_map, List.map_map]
    refine congrArg (List.map _) (List.filter_congr fun z _ ↦ ?_)
    exact Bool.and_comm _ _
  have hright : Token.words t first' last' = (zs.map fun z ↦ (z.1.1, z.2.1)).map Prod.snd := by
    have ht : Token.solid t = ((Token.solid s).zip (Token.solid t)).map Prod.snd :=
      (List.map_snd_zip (Nat.le_of_eq hlen.symm)).symm
    rw [Token.words, Token.stretch, ht, List.filter_map, List.filter_map, List.filter_filter,
      List.map_map, List.map_map]
    refine congrArg (List.map _) (List.filter_congr fun z hz ↦ ?_)
    have hm := h.matched hz
    have hread := h.kinds.le_lastRead_iff hm.paired
    simp only [Function.comp_apply, ← hm.ink, ← hf.le_iff hm.paired, ← hm.paired.le_iff hl,
      ← hread]
    exact Bool.and_comm _ _
  rw [hleft, hright]
  apply tokenKinds_unwords_eq
  · rw [← hleft]
    exact inOrder_words s first last
  · rw [← hright]
    exact inOrder_words t first' last'
  · intro z hz
    obtain ⟨z, hm, rfl⟩ := List.mem_map.1 hz
    exact (hmatched z hm).kind
  · intro z hz
    obtain ⟨z, hm, rfl⟩ := List.mem_map.1 hz
    exact (hmatched z hm).text
  · intro z hz
    obtain ⟨z, hm, rfl⟩ := List.mem_map.1 hz
    have hink := (Bool.and_eq_true_iff.1 (List.mem_filter.1 hm).2).2
    have hink' := hink
    rw [(hmatched z hm).ink] at hink'
    rw [hasInk, Bool.not_eq_true'] at hink hink'
    exact ⟨hink, hink'⟩

/-- A select of alike texts that is read by itself has the same kinds of tokens. -/
theorem Alike.sameKinds_spacedText (h : Alike s t) {x : Head}
    (hx : x.Placed (Source.ofString s).input) {q q' : String}
    (hq : (Buffer.ofString s).1.spacedText x = .ok q)
    (hq' : (Buffer.ofString t).1.spacedText x = .ok q') : SameKinds q q' := by
  obtain ⟨j, hj, hq⟩ := toList_spacedText hq
  obtain ⟨j', hj', hq'⟩ := toList_spacedText hq'
  obtain rfl := Option.some.inj (hj.symm.trans hj')
  have hstart := h.kinds.paired hx.start_lt
  have hstop := h.kinds.paired (hx.stop_lt j hj)
  rw [SameKinds, solid_kinds, solid_kinds, hq, hq', h.tokenKinds_words hstart hstop]

end Pairs

namespace Masked

variable {s t : String} {x : Head × List Tree} {a b : Masked} {wanted : List Tree → Bool}

def Abreast (s t : String) (a b : Masked) : Prop :=
  a.buffer.Abreast s t [] b.buffer ∧ a.outerSeen = b.outerSeen

theorem Abreast.step (hk : SameKinds s t) (hx : x.1.Placed (Source.ofString s).input)
    (h : Abreast s t a b) :
    Halt.Both (Abreast s t) (a.step wanted x.1 x.2) (b.step wanted x.1 x.2) := by
  obtain ⟨hbuffer, hseen⟩ := h
  have hsource : a.buffer.source = .ofString s ∧ b.buffer.source = .ofString t :=
    ⟨hbuffer.left.source, hbuffer.right.source⟩
  unfold Masked.step Buffer.cutNode Buffer.range
  rw [hsource.1, hsource.2, hseen]
  split
  · split
    · exact .ok ⟨hbuffer, rfl⟩
    · split
      · cases hs : x.1.stop with
        | none => exact .error _ a b
        | some j =>
          refine .ok ⟨?_, rfl⟩
          exact hbuffer.cut (hk.paired hx.start_lt) (hk.paired (hx.stop_lt j hs)) nofun
      · exact .ok ⟨hbuffer, hseen⟩
  · exact .ok ⟨hbuffer, hseen⟩

theorem Abreast.maskNested (hk : SameKinds s t) {b c : Buffer} (hb : b.Abreast s t [] c)
    (tree : Tree) (ht : ∀ x ∈ tree.nodes, x.1.Placed (Source.ofString s).input) :
    Halt.Both (Abreast s t) (b.maskNested tree) (c.maskNested tree) := by
  unfold Buffer.maskNested
  refine passNodes_both (R := fun _ ↦ Abreast s t) (fun x hx _ p q hpq ↦ ?_) ⟨hb, rfl⟩
  exact hpq.step hk (ht x hx)

end Masked

theorem Halt.Both.imp {ε σ τ : Type} {R R' : σ → τ → Prop} {x : Except (Halt ε σ) σ}
    {y : Except (Halt ε τ) τ} (h : Halt.Both R x y) (hr : ∀ {a b}, R a b → R' a b) :
    Halt.Both R' x y := by
  cases h with
  | ok h => exact .ok (hr h)
  | error e a b => exact .error e a b

theorem Halt.Both.of_ok {ε σ τ : Type} {R : σ → τ → Prop} {x : Except (Halt ε σ) σ}
    {y : Except (Halt ε τ) τ} {a : σ} {b : τ} (h : Halt.Both R x y) (hx : Halt.result x = .ok a)
    (hy : Halt.result y = .ok b) : R a b := by
  cases h with
  | ok hr =>
    obtain rfl := Except.ok.inj hx
    obtain rfl := Except.ok.inj hy
    exact hr
  | error => cases hx

/-- Two lists of texts that fail for the same cause or are the same under `g`. -/
theorem mapM_both {ε α β γ : Type} {f f' : α → Except ε β} {g : β → Except ε γ} {l : List α}
    (h : ∀ x ∈ l, (∃ e, f x = .error e ∧ f' x = .error e) ∨
      ∃ q q', f x = .ok q ∧ f' x = .ok q' ∧ g q = g q') :
    (∃ e, l.mapM f = .error e ∧ l.mapM f' = .error e) ∨
      ∃ qs qs', l.mapM f = .ok qs ∧ l.mapM f' = .ok qs' ∧ qs.mapM g = qs'.mapM g := by
  induction l with
  | nil => exact .inr ⟨[], [], rfl, rfl, rfl⟩
  | cons x l ih =>
    rw [List.forall_mem_cons] at h
    rw [List.mapM_cons, List.mapM_cons]
    rcases h.1 with ⟨e, hf, hf'⟩ | ⟨q, q', hf, hf', hg⟩
    · rw [hf, hf']
      exact .inl ⟨e, rfl, rfl⟩
    · rw [hf, hf']
      rcases ih h.2 with ⟨e, hl, hl'⟩ | ⟨qs, qs', hl, hl', hgs⟩
      · rw [hl, hl']
        exact .inl ⟨e, rfl, rfl⟩
      · rw [hl, hl']
        refine .inr ⟨q :: qs, q' :: qs', rfl, rfl, ?_⟩
        rw [List.mapM_cons, List.mapM_cons, hg, hgs]

namespace Normal

/-- The normal form of a query from its tokens and its tree. -/
def ofParts (b : Buffer) (t : Tree) : Except RangeError Normal := do
  let replaced ← Halt.result (b.replaceLiterals t)
  let subqueries ← b.subqueries t
  let leaves ← subqueries.mapM normalize
  let masked ← Halt.result (replaced.buffer.maskNested t)
  return ⟨replaced.buffer.rebuild, leaves.eraseDups, masked.buffer.rebuild, b.literals t⟩

theorem ofString_eq_ofParts (sql : String) :
    ofString sql = ofParts (Buffer.ofString sql).1 (Buffer.ofString sql).2 := by
  unfold ofString
  generalize Buffer.ofString sql = p
  obtain ⟨b, t⟩ := p
  rfl

/-- Two queries whose steps go in pairs have the same inner texts. -/
theorem ofParts_inner_eq {b c : Buffer} {t u : Tree} {R : Replaced → Replaced → Prop}
    (hreplaced : Halt.Both R (b.replaceLiterals t) (c.replaceLiterals u))
    (hselects : (∃ e, b.subqueries t = .error e ∧ c.subqueries u = .error e) ∨
      ∃ qs qs', b.subqueries t = .ok qs ∧ c.subqueries u = .ok qs' ∧
        qs.mapM normalize = qs'.mapM normalize)
    (hmasked : ∀ {p q}, R p q → Halt.Both (fun m m' ↦ m.buffer.rebuild = m'.buffer.rebuild)
      (p.buffer.maskNested t) (q.buffer.maskNested u)) :
    (ofParts b t).map (fun n ↦ (n.leaves, n.outer)) =
      (ofParts c u).map fun n ↦ (n.leaves, n.outer) := by
  unfold ofParts
  generalize b.replaceLiterals t = left at hreplaced ⊢
  generalize c.replaceLiterals u = right at hreplaced ⊢
  cases hreplaced with
  | error e p q => simp only [Halt.result, bind, Except.bind, Except.map]
  | @ok p q hpq =>
    rcases hselects with ⟨e, he, he'⟩ | ⟨qs, qs', hq, hq', hleaves⟩
    · simp only [Halt.result, bind, Except.bind, Except.map, he, he']
    · simp only [Halt.result, bind, Except.bind, hq, hq', hleaves]
      cases qs'.mapM normalize with
      | error e => simp only [Except.map]
      | ok leaves =>
        have hm := hmasked hpq
        generalize p.buffer.maskNested t = left at hm ⊢
        generalize q.buffer.maskNested u = right at hm ⊢
        cases hm with
        | error e m m' => simp only [Except.map]
        | ok hr => simp only [Except.map, pure, Except.pure, hr]

end Normal

/-- The selects of two queries that hold no other, each as it is read by itself. -/
def selectPairs (s t : String) : List (String × String) :=
  (Buffer.ofString s).2.leafSelects.filterMap fun x ↦
    ((Buffer.ofString s).1.spacedText x).toOption.bind fun q ↦
      ((Buffer.ofString t).1.spacedText x).toOption.map (q, ·)

/-- The literals in inner selects are literals when the selects are read by themselves: where a
select of the one query differs from that of the other, it has a literal. -/
def KeepsLiterals (s t : String) : Prop :=
  ∀ p ∈ selectPairs s t, ∀ z ∈ (Token.solid p.1).zip (Token.solid p.2),
    z.1.1.text = z.2.1.text ∨ InLiteral p.1 z.1.2

instance (s t : String) : Decidable (KeepsLiterals s t) :=
  inferInstanceAs (Decidable (∀ p ∈ _, ∀ z ∈ _, _ ∨ _))

section Keys

variable {s t : String}

theorem placed_nodes : ∀ x ∈ (Buffer.ofString s).2.nodes, x.1.Placed (Source.ofString s).input :=
  fun x hx ↦ ((placed_ofString s).nodes x hx).1

theorem placed_of_mem_leafSelects {x : Head} (hx : x ∈ (Buffer.ofString s).2.leafSelects) :
    x.Placed (Source.ofString s).input := by
  obtain ⟨y, hy, rfl⟩ := List.mem_map.1 hx
  exact placed_nodes y (List.mem_filter.1 hy).1

theorem mem_selectPairs {p : String × String} : p ∈ selectPairs s t ↔
    ∃ x ∈ (Buffer.ofString s).2.leafSelects, (Buffer.ofString s).1.spacedText x = .ok p.1 ∧
      (Buffer.ofString t).1.spacedText x = .ok p.2 := by
  have htoOption : ∀ {x : Except RangeError String} {q : String},
      x.toOption = some q ↔ x = .ok q := by
    intro x q
    cases x <;> simp [Except.toOption]
  unfold selectPairs
  simp only [List.mem_filterMap, Option.bind_eq_some_iff, Option.map_eq_some_iff, htoOption]
  constructor
  · rintro ⟨x, hx, q, hq, q', hq', rfl⟩
    exact ⟨x, hx, hq, hq'⟩
  · rintro ⟨x, hx, hq, hq'⟩
    exact ⟨x, hx, p.1, hq, p.2, hq', rfl⟩

theorem Alike.sameKinds_of_mem_selectPairs (h : Alike s t) {p : String × String}
    (hp : p ∈ selectPairs s t) : SameKinds p.1 p.2 := by
  obtain ⟨x, hx, hq, hq'⟩ := mem_selectPairs.1 hp
  exact h.sameKinds_spacedText (placed_of_mem_leafSelects hx) hq hq'

theorem Alike.of_mem_selectPairs (h : Alike s t) (hk : KeepsLiterals s t) {p : String × String}
    (hp : p ∈ selectPairs s t) : Alike p.1 p.2 :=
  ⟨h.sameKinds_of_mem_selectPairs hp, hk p hp⟩

theorem spacedText_both (s t : String) (x : Head) :
    (∃ e, (Buffer.ofString s).1.spacedText x = .error e ∧
      (Buffer.ofString t).1.spacedText x = .error e) ∨
    ∃ q q', (Buffer.ofString s).1.spacedText x = .ok q ∧
      (Buffer.ofString t).1.spacedText x = .ok q' := by
  unfold Buffer.spacedText Buffer.rangeText Buffer.range
  cases x.stop with
  | none => exact .inl ⟨_, rfl, rfl⟩
  | some j => exact .inr ⟨_, _, rfl, rfl⟩

theorem Alike.subqueries (h : Alike s t) (hk : KeepsLiterals s t) :
    (∃ e, (Buffer.ofString s).1.subqueries (Buffer.ofString s).2 = .error e ∧
      (Buffer.ofString t).1.subqueries (Buffer.ofString t).2 = .error e) ∨
    ∃ qs qs', (Buffer.ofString s).1.subqueries (Buffer.ofString s).2 = .ok qs ∧
      (Buffer.ofString t).1.subqueries (Buffer.ofString t).2 = .ok qs' ∧
      qs.mapM normalize = qs'.mapM normalize := by
  have hboth : ∀ x ∈ (Buffer.ofString s).2.leafSelects,
      (∃ e, (Buffer.ofString s).1.spacedText x = .error e ∧
        (Buffer.ofString t).1.spacedText x = .error e) ∨
      ∃ q q', (Buffer.ofString s).1.spacedText x = .ok q ∧
        (Buffer.ofString t).1.spacedText x = .ok q' ∧ normalize q = normalize q' := by
    intro x hx
    rcases spacedText_both s t x with he | ⟨q, q', hq, hq'⟩
    · exact .inl he
    · have hp : (q, q') ∈ selectPairs s t := mem_selectPairs.2 ⟨x, hx, hq, hq'⟩
      exact .inr ⟨q, q', hq, hq', (h.of_mem_selectPairs hk hp).normalize_eq⟩
  rw [← h.kinds.tree_eq]
  exact mapM_both hboth

theorem Alike.outer_eq (h : Alike s t) {n n' : Normal} (hn : Normal.ofString s = .ok n)
    (hn' : Normal.ofString t = .ok n') : n.outer = n'.outer := by
  obtain ⟨replaced, _, _, masked, hr, -, -, hm, rfl⟩ := Normal.ofString_eq_ok hn
  obtain ⟨replaced', _, _, masked', hr', -, -, hm', rfl⟩ := Normal.ofString_eq_ok hn'
  have hreplaced := h.replaceLiterals.of_ok hr hr'
  change Halt.result (replaced'.buffer.maskNested (Buffer.ofString t).2) = _ at hm'
  rw [← h.kinds.tree_eq] at hm'
  have hmasked := (Masked.Abreast.maskNested h.kinds hreplaced _ placed_nodes).of_ok hm hm'
  exact hmasked.1.rebuild_eq h.kinds

theorem Alike.inner_eq (h : Alike s t) (hk : KeepsLiterals s t) :
    (Normal.ofString s).map (fun n ↦ (n.leaves, n.outer)) =
      (Normal.ofString t).map fun n ↦ (n.leaves, n.outer) := by
  rw [Normal.ofString_eq_ofParts, Normal.ofString_eq_ofParts]
  refine Normal.ofParts_inner_eq h.replaceLiterals (h.subqueries hk) (fun hab ↦ ?_)
  rw [← h.kinds.tree_eq]
  exact (Masked.Abreast.maskNested h.kinds hab _ placed_nodes).imp fun hr ↦
    hr.1.rebuild_eq h.kinds

end Keys

namespace Normal

/-- Let `s` and `t` be alike. Then they have the same text with the inner selects cut out, and each
select that holds no other, read by itself, has the same kinds of tokens in both. If moreover the
literals of these selects are literals in the second reading, then the selects have the same texts
without literals, so both queries have the same keys. -/
theorem inner_keys_alike (s t : String) (h : Alike s t) :
    (∀ n n', ofString s = .ok n → ofString t = .ok n' → n.outer = n'.outer) ∧
    (∀ p ∈ selectPairs s t, SameKinds p.1 p.2) ∧
    (KeepsLiterals s t → (ofString s).map (fun n ↦ (n.leaves, n.outer)) =
      (ofString t).map fun n ↦ (n.leaves, n.outer)) := by
  refine ⟨fun n n' hn hn' ↦ ?_, fun p hp ↦ ?_, fun hk ↦ ?_⟩
  · exact h.outer_eq hn hn'
  · exact h.sameKinds_of_mem_selectPairs hp
  · exact h.inner_eq hk

theorem parsed_starNumber : parsed #[.SELECT, .star, .comma, .number, .eof] =
    (.select 3 [.starColumn 1, .leaf (.read 2) false, .literalColumn 3], 4) :=
  Cache.parsed_literalColumns.2

theorem scan_literals :
    (Token.scan "SELECT *--\n,1" = [⟨.SELECT, "SELECT", 1, 0, 0, 6⟩, ⟨.blank, " ", 1, 6, 6, 1⟩,
        ⟨.star, "*", 1, 7, 7, 1⟩, ⟨.lineComment, "--\n", 1, 8, 8, 3⟩, ⟨.comma, ",", 2, 0, 11, 1⟩,
        ⟨.number, "1", 2, 1, 12, 1⟩, ⟨.eof, "<EOF>", 2, 2, 13, 0⟩] ∧
      Token.scan "SELECT *--\n,2" = [⟨.SELECT, "SELECT", 1, 0, 0, 6⟩, ⟨.blank, " ", 1, 6, 6, 1⟩,
        ⟨.star, "*", 1, 7, 7, 1⟩, ⟨.lineComment, "--\n", 1, 8, 8, 3⟩, ⟨.comma, ",", 2, 0, 11, 1⟩,
        ⟨.number, "2", 2, 1, 12, 1⟩, ⟨.eof, "<EOF>", 2, 2, 13, 0⟩]) ∧
    Token.scan "SELECT * -- , 1" = [⟨.SELECT, "SELECT", 1, 0, 0, 6⟩, ⟨.blank, " ", 1, 6, 6, 1⟩,
        ⟨.star, "*", 1, 7, 7, 1⟩, ⟨.blank, " ", 1, 8, 8, 1⟩, ⟨.lineComment, "-- , 1", 1, 9, 9, 6⟩,
        ⟨.eof, "<EOF>", 1, 15, 15, 0⟩] ∧
      Token.scan "SELECT * -- , 2" = [⟨.SELECT, "SELECT", 1, 0, 0, 6⟩, ⟨.blank, " ", 1, 6, 6, 1⟩,
        ⟨.star, "*", 1, 7, 7, 1⟩, ⟨.blank, " ", 1, 8, 8, 1⟩, ⟨.lineComment, "-- , 2", 1, 9, 9, 6⟩,
        ⟨.eof, "<EOF>", 1, 15, 15, 0⟩] := by
  decide +kernel

theorem keepsLiterals_numbers : KeepsLiterals "SELECT 1" "SELECT\n 2" := by
  obtain ⟨h₁, h₂, h₃⟩ := Cache.scan_numbers
  have hb₁ := Buffer.ofString_of_scan h₁ rfl Cache.parsed_number
  have hb₃ := Buffer.ofString_of_scan h₃ rfl Cache.parsed_number
  have hpairs : selectPairs "SELECT 1" "SELECT\n 2" = [("SELECT 1", "SELECT 2")] := by
    unfold selectPairs
    rw [hb₁, hb₃]
    decide +kernel
  intro p hp
  rw [hpairs, List.mem_singleton] at hp
  subst hp
  unfold InLiteral Token.solid
  dsimp only
  rw [h₁, h₂, hb₁]
  decide +kernel

theorem ofString_literals :
    Alike "SELECT *--\n,1" "SELECT *--\n,2" ∧
      ((ofString "SELECT *--\n,1").map leaves).toOption = some ["SELECT * -- , 1"] ∧
      ((ofString "SELECT *--\n,2").map leaves).toOption = some ["SELECT * -- , 2"] := by
  obtain ⟨⟨h₁, h₂⟩, h₃, h₄⟩ := scan_literals
  have hb₁ := Buffer.ofString_of_scan h₁ rfl parsed_starNumber
  have hb₂ := Buffer.ofString_of_scan h₂ rfl parsed_starNumber
  have hb₃ := Buffer.ofString_of_scan h₃ rfl parsed_star
  have hb₄ := Buffer.ofString_of_scan h₄ rfl parsed_star
  have hleaves : ∀ {n : Normal} {e : Except RangeError Normal}, e.toOption = some n →
      (e.map leaves).toOption = some n.leaves := by
    intro n e he
    rw [eq_ok_of_toOption he]
    rfl
  refine ⟨⟨?_, ?_⟩, ?_, ?_⟩
  · unfold SameKinds Token.solid
    rw [h₁, h₂]
    decide +kernel
  · unfold InLiteral Token.solid
    rw [h₁, h₂, hb₁]
    decide +kernel
  · exact hleaves (n := ⟨"SELECT * -- , ?", ["SELECT * -- , 1"], "SELECT * -- , ?", ["1"]⟩)
      (ofString_of_query "SELECT * -- , 1" hb₁ hb₃ (by decide +kernel) (by decide +kernel)
        (by decide +kernel))
  · exact hleaves (n := ⟨"SELECT * -- , ?", ["SELECT * -- , 2"], "SELECT * -- , ?", ["2"]⟩)
      (ofString_of_query "SELECT * -- , 2" hb₂ hb₄ (by decide +kernel) (by decide +kernel)
        (by decide +kernel))

theorem inner_keys_alike_numbers :
    KeepsLiterals "SELECT 1" "SELECT\n 2" ∧
      (ofString "SELECT 1").map (fun n ↦ (n.leaves, n.outer)) =
        (ofString "SELECT\n 2").map fun n ↦ (n.leaves, n.outer) := by
  obtain ⟨-, -, halike⟩ := Cache.ofString_numbers
  have hkeeps := keepsLiterals_numbers
  obtain ⟨-, -, hinner⟩ := inner_keys_alike _ _ halike
  exact ⟨hkeeps, hinner hkeeps⟩

/-- Written in one line, a select loses what stands behind a comment to the end of the line, and a
literal there is part of its key. -/
theorem leaves_ne_of_comment :
    ∃ s t, Alike s t ∧ (ofString s).map leaves ≠ (ofString t).map leaves := by
  obtain ⟨halike, hs, ht⟩ := ofString_literals
  refine ⟨_, _, halike, fun he ↦ ?_⟩
  rw [he, ht] at hs
  exact absurd hs (by decide)

end Normal

end PlanCache

import PlanCache.Proofs.InnerLiterals
import PlanCache.Proofs.Savings
import PlanCache.Proofs.Stretches

/-!
The outer query under which a query with inner selects is planned. The selects are cut out of its
text wherever their texts occur; where these texts occur nowhere else, this is the text of the
tokens with just the selects cut out.
-/

namespace PlanCache

namespace Text

variable {p new : List Char}

theorem isSome_after? {s : List Char} : (after? p s).isSome = true ↔ p <+: s := by
  rw [Option.isSome_iff_exists]
  constructor
  · rintro ⟨r, hr⟩
    exact ⟨r, (after?_eq_some_iff.1 hr).symm⟩
  · rintro ⟨r, hr⟩
    exact ⟨r, after?_eq_some_iff.2 hr.symm⟩

theorem replaceAfter_skip (u v : List Char) :
    replaceAfter p new u.length (u ++ v) = replaceAfter p new 0 v := by
  induction u with
  | nil => rfl
  | cons c u ih => exact ih

/-- A text in which no occurrence begins stays as it is. -/
theorem replaceAfter_copy {u v : List Char} (h : ∀ i < u.length, ¬p <+: (u ++ v).drop i) :
    replaceAfter p new 0 (u ++ v) = u ++ replaceAfter p new 0 v := by
  induction u with
  | nil => rfl
  | cons c u ih =>
    have hfirst : (after? p (c :: (u ++ v))).isSome = false := by
      rw [Bool.eq_false_iff]
      intro hsome
      exact h 0 (Nat.zero_lt_succ _) (isSome_after?.1 hsome)
    have hrest : ∀ i < u.length, ¬p <+: (u ++ v).drop i := by
      intro i hi
      exact h (i + 1) (Nat.succ_lt_succ hi)
    rw [List.cons_append, replaceAfter, hfirst, if_neg (by decide), ih hrest, List.cons_append]

theorem replaceAfter_self (hp : p ≠ []) (v : List Char) :
    replaceAfter p new 0 (p ++ v) = new ++ replaceAfter p new 0 v := by
  obtain ⟨c, u, rfl⟩ := List.exists_cons_of_ne_nil hp
  have hsome : (after? (c :: u) (c :: (u ++ v))).isSome = true := isSome_after?.2 ⟨v, rfl⟩
  rw [List.cons_append, replaceAfter, hsome, if_pos rfl, List.length_cons, Nat.add_sub_cancel,
    replaceAfter_skip]

end Text

namespace Stretch

/-- A stretch with its lists and runs of placeholders shortened. -/
def shortened (p : Stretch) : Stretch := { p with text := Rebuild.shorten p.text }

/-- The placeholder in the place of a select with the text `key`. -/
def cutKey (key : List Char) (p : Stretch) : Stretch :=
  if p.isSelect = true ∧ p.text = key then ⟨false, placeholder.toList⟩ else p

/-- The text `key` occurs nowhere but as the whole of a select. -/
def Alone (key : List Char) : List Stretch → Prop
  | [] => True
  | p :: ps =>
    (∀ i ≤ p.text.length, key <+: (join (p :: ps)).drop i →
      i = 0 ∧ p.isSelect = true ∧ p.text = key) ∧ Alone key ps

/-- Each text occurs nowhere but as the whole of a select, once those before it have been cut
out. -/
def AloneInTurn : List (List Char) → List Stretch → Prop
  | [], _ => True
  | key :: keys, ps => key ≠ [] ∧ Alone key ps ∧ AloneInTurn keys (ps.map (cutKey key))

instance Alone.decidable (key : List Char) : (ps : List Stretch) → Decidable (Alone key ps)
  | [] => isTrue trivial
  | p :: ps =>
    have := Alone.decidable key ps
    inferInstanceAs (Decidable ((∀ i ≤ p.text.length, key <+: (join (p :: ps)).drop i →
      i = 0 ∧ p.isSelect = true ∧ p.text = key) ∧ Alone key ps))

instance AloneInTurn.decidable :
    (keys : List (List Char)) → (ps : List Stretch) → Decidable (AloneInTurn keys ps)
  | [], _ => isTrue trivial
  | key :: keys, ps =>
    have := AloneInTurn.decidable keys (ps.map (cutKey key))
    inferInstanceAs (Decidable
      (key ≠ [] ∧ Alone key ps ∧ AloneInTurn keys (ps.map (cutKey key))))

theorem join_cons (p : Stretch) (ps : List Stretch) :
    join (p :: ps) = p.text ++ behind (ps.map text) := unwords_cons _ _

/-- Replacing a text that stands alone cuts the selects with this text out. -/
theorem replaceAfter_join {key : List Char} (hkey : key ≠ []) {ps : List Stretch}
    (h : Alone key ps) :
    Text.replaceAfter key placeholder.toList 0 (join ps) = join (ps.map (cutKey key)) := by
  induction ps with
  | nil => rfl
  | cons p ps ih =>
    have hrest := ih h.2
    -- No occurrence begins at the space behind `p` either, so the rest is replaced by itself.
    have hbehind : Text.replaceAfter key placeholder.toList 0 (behind (ps.map text)) =
        behind ((ps.map (cutKey key)).map text) := by
      cases ps with
      | nil => rfl
      | cons q ps =>
        have hspace : ∀ i < [' '].length, ¬key <+: ([' '] ++ join (q :: ps)).drop i := by
          intro i hi hpre
          obtain rfl : i = 0 := by simpa using hi
          have hlast := h.1 p.text.length (Nat.le_refl _)
          rw [join_cons, List.drop_left] at hlast
          obtain ⟨hzero, -, htext⟩ := hlast hpre
          rw [htext, List.length_eq_zero_iff] at hzero
          exact hkey hzero
        change Text.replaceAfter key placeholder.toList 0 ([' '] ++ join (q :: ps)) = _
        rw [Text.replaceAfter_copy hspace, hrest]
        rfl
    rw [List.map_cons, join_cons, join_cons]
    by_cases hp : p.isSelect = true ∧ p.text = key
    · rw [cutKey, if_pos hp, hp.2, Text.replaceAfter_self hkey, hbehind]
    · have hnone : ∀ i < p.text.length, ¬key <+: (p.text ++ behind (ps.map text)).drop i := by
        intro i hi hpre
        exact hp (h.1 i (Nat.le_of_lt hi) (by rwa [join_cons])).2
      rw [cutKey, if_neg hp, Text.replaceAfter_copy hnone, hbehind]

theorem replaceAll_join {keys : List (List Char)} {ps : List Stretch} (h : AloneInTurn keys ps) :
    keys.foldl (fun text key ↦ Text.replaceAll key placeholder.toList text) (join ps) =
      join (keys.foldl (fun ps key ↦ ps.map (cutKey key)) ps) := by
  induction keys generalizing ps with
  | nil => rfl
  | cons key keys ih =>
    obtain ⟨hkey, halone, hrest⟩ := h
    have hfirst : Text.replaceAll key placeholder.toList (join ps) =
        join (ps.map (cutKey key)) := by
      rw [Text.replaceAll, if_neg (by simpa using hkey), replaceAfter_join hkey halone]
    rw [List.foldl_cons, List.foldl_cons, hfirst, ih hrest]

theorem foldl_cutKey (keys : List (List Char)) (p : Stretch) :
    keys.foldl (fun p key ↦ cutKey key p) p =
      if p.isSelect = true ∧ p.text ∈ keys then p.cut else p := by
  induction keys generalizing p with
  | nil => simp
  | cons key keys ih =>
    rw [List.foldl_cons, ih, cutKey]
    by_cases hp : p.isSelect = true ∧ p.text = key
    · simp [hp, cut]
    · rw [if_neg hp]
      congr 1
      simp only [List.mem_cons, eq_iff_iff]
      grind

/-- When the selects with each of the texts have been cut out, none is left. -/
theorem foldl_map_cutKey {keys : List (List Char)} {ps : List Stretch}
    (h : ∀ p ∈ ps, p.isSelect = true → p.text ∈ keys) :
    keys.foldl (fun ps key ↦ ps.map (cutKey key)) ps = ps.map cut := by
  have hmap : keys.foldl (fun ps key ↦ ps.map (cutKey key)) ps =
      ps.map fun p ↦ keys.foldl (fun p key ↦ cutKey key p) p := by
    clear h
    induction keys generalizing ps with
    | nil => simp
    | cons key keys ih =>
      rw [List.foldl_cons, ih, List.map_map]
      rfl
  rw [hmap]
  refine List.map_congr_left fun p hp ↦ ?_
  rw [foldl_cutKey]
  by_cases hsel : p.isSelect = true
  · rw [if_pos ⟨hsel, h p hp hsel⟩]
  · rw [if_neg (fun hs ↦ hsel hs.1), cut, if_neg hsel]

theorem shortened_cut (p : Stretch) : p.cut.shortened = p.shortened.cut := by
  unfold cut
  cases hsel : p.isSelect with
  | true =>
    have hmark : Rebuild.shorten placeholder.toList = placeholder.toList := by decide +kernel
    simp [shortened, hsel, hmark]
  | false => simp [shortened, hsel]

/-- Placeholders are shortened within stretches only, not across their ends. -/
def ShortenApart (ps : List Stretch) : Prop :=
  Rebuild.shorten (join ps) = join (ps.map shortened)

/-- The selects among stretches have the texts `keys` and can be found by them. -/
structure Separate (ps : List Stretch) (keys : List String) : Prop where
  /-- By itself a select has the text that it has in the query. -/
  own : ((ps.filter isSelect).map fun p ↦ String.ofList p.shortened.text) = keys
  whole : ShortenApart ps
  rest : ShortenApart (ps.map cut)
  alone : AloneInTurn (keys.eraseDups.map String.toList) (ps.map shortened)

instance (ps : List Stretch) (keys : List String) : Decidable (Separate ps keys) :=
  decidable_of_iff
    (((ps.filter isSelect).map fun p ↦ String.ofList p.shortened.text) = keys ∧
      Rebuild.shorten (join ps) = join (ps.map shortened) ∧
      Rebuild.shorten (join (ps.map cut)) = join ((ps.map cut).map shortened) ∧
      AloneInTurn (keys.eraseDups.map String.toList) (ps.map shortened))
    ⟨fun ⟨h₁, h₂, h₃, h₄⟩ ↦ ⟨h₁, h₂, h₃, h₄⟩, fun ⟨h₁, h₂, h₃, h₄⟩ ↦ ⟨h₁, h₂, h₃, h₄⟩⟩

/-- Cutting texts out of the whole text and cutting selects out of the stretches come to the
same. -/
theorem Separate.foldl_cutOut {ps : List Stretch} {keys : List String} (h : Separate ps keys) :
    keys.eraseDups.foldl (fun text select ↦ Cache.cutOut select text)
        (String.ofList (Rebuild.shorten (join ps))) =
      String.ofList (Rebuild.shorten (join (ps.map cut))) := by
  have hchars : ∀ (ks : List String) (cs : List Char),
      ks.foldl (fun text select ↦ Cache.cutOut select text) (String.ofList cs) =
        String.ofList ((ks.map String.toList).foldl
          (fun text key ↦ Text.replaceAll key placeholder.toList text) cs) := by
    intro ks
    induction ks with
    | nil => exact fun _ ↦ rfl
    | cons k ks ih =>
      intro cs
      rw [List.foldl_cons, Cache.cutOut, String.toList_ofList, ih]
      rfl
  have hkeys : ∀ p ∈ ps.map shortened, p.isSelect = true →
      p.text ∈ keys.eraseDups.map String.toList := by
    intro p hp hsel
    obtain ⟨q, hq, rfl⟩ := List.mem_map.1 hp
    refine List.mem_map.2 ⟨String.ofList q.shortened.text, ?_, String.toList_ofList⟩
    rw [List.mem_eraseDups, ← h.own]
    exact List.mem_map.2 ⟨q, List.mem_filter.2 ⟨hq, hsel⟩, rfl⟩
  have hcut : (ps.map shortened).map cut = (ps.map cut).map shortened := by
    simp [shortened_cut]
  rw [hchars, h.whole, replaceAll_join h.alone, foldl_map_cutKey hkeys, hcut, ← h.rest]

end Stretch

section Passes

theorem length_of_mapM {ε α β : Type} {f : α → Except ε β} {l : List α} {ys : List β}
    (h : l.mapM f = .ok ys) : ys.length = l.length := by
  induction l generalizing ys with
  | nil =>
    obtain rfl := Except.ok.inj h
    rfl
  | cons x l ih =>
    rw [List.mapM_cons] at h
    obtain ⟨y, -, h⟩ := bind_eq_ok_iff.1 h
    obtain ⟨rest, hrest, h⟩ := bind_eq_ok_iff.1 h
    obtain rfl := Except.ok.inj h
    rw [List.length_cons, List.length_cons, ih hrest]

theorem exists_mapM_of_map {ε α β γ : Type} {f : α → Except ε β} {g : β → γ} {l : List α}
    {zs : List γ} (h : l.mapM (fun x ↦ (f x).map g) = .ok zs) : ∃ ys, l.mapM f = .ok ys := by
  induction l generalizing zs with
  | nil => exact ⟨[], rfl⟩
  | cons x l ih =>
    rw [List.mapM_cons] at h
    obtain ⟨z, hz, h⟩ := bind_eq_ok_iff.1 h
    obtain ⟨rest, hrest, -⟩ := bind_eq_ok_iff.1 h
    obtain ⟨ys, hys⟩ := ih hrest
    cases hx : f x with
    | error e => rw [hx] at hz; cases hz
    | ok y => exact ⟨y :: ys, by rw [List.mapM_cons, hx, hys]; rfl⟩

theorem passNodes_invariant {ε σ : Type} {step : σ → Head → List Tree → Except (Halt ε σ) σ}
    {P : σ → Prop} (hstep : ∀ {s s' h ts}, P s → step s h ts = .ok s' → P s')
    {nodes : List (Head × List Tree)} {s s' : σ} (hs : P s)
    (h : Halt.result (passNodes step s nodes) = .ok s') : P s' := by
  induction nodes generalizing s with
  | nil =>
    obtain rfl := Except.ok.inj h
    exact hs
  | cons x nodes ih =>
    rw [passNodes] at h
    cases hx : step s x.1 x.2 with
    | ok a =>
      rw [hx] at h
      exact ih (hstep hs hx) h
    | error e =>
      rw [hx] at h
      cases h

namespace Buffer

theorem source_of_cutNode {b c : Buffer} {x : Head} (h : b.cutNode x = .ok c) :
    c.source = b.source := by
  unfold cutNode at h
  cases hr : b.range x with
  | error e => rw [hr] at h; cases h
  | ok r =>
    rw [hr] at h
    obtain rfl := Except.ok.inj h
    rfl

end Buffer

theorem Replaced.source_of_cut {s s' : Replaced} {noted : List String} {x : Head}
    (h : s.cut noted x = .ok s') : s'.buffer.source = s.buffer.source := by
  unfold cut at h
  split at h
  · rename_i c hc
    obtain rfl := Except.ok.inj h
    exact Buffer.source_of_cutNode hc
  · cases h

theorem Replaced.source_of_step {s s' : Replaced} {x : Head} {ts : List Tree}
    (h : s.step x ts = .ok s') : s'.buffer.source = s.buffer.source := by
  unfold step at h
  split at h
  · exact source_of_cut h
  · dsimp only at h
    split at h
    · exact source_of_cut h
    · rw [Except.ok.inj h]
  · split at h
    · exact source_of_cut h
    · rw [Except.ok.inj h]
  · rw [Except.ok.inj h]

theorem source_of_replaceLiterals {b : Buffer} {t : Tree} {replaced : Replaced}
    (h : Halt.result (b.replaceLiterals t) = .ok replaced) :
    replaced.buffer.source = b.source := by
  have hstep : ∀ {s s' : Replaced} {x : Head} {ts : List Tree},
      s.buffer.source = b.source → s.step x ts = .ok s' → s'.buffer.source = b.source :=
    fun hs hx ↦ (Replaced.source_of_step hx).trans hs
  exact passNodes_invariant (P := fun s ↦ s.buffer.source = b.source) hstep rfl h

theorem range_of_replaceLiterals {b : Buffer} {t : Tree} {replaced : Replaced}
    (h : Halt.result (b.replaceLiterals t) = .ok replaced) : replaced.buffer.range = b.range := by
  funext x
  rw [Buffer.range, Buffer.range, source_of_replaceLiterals h]

end Passes

/-- Text of a query without its literals, each select that holds no other cut out of its tokens. -/
def cutText (sql : String) : Except RangeError String := do
  let (b, t) := Buffer.ofString sql
  let replaced ← Halt.result (b.replaceLiterals t)
  let cut ← replaced.buffer.cutNodes t.leafSelects
  return cut.rebuild

/-- The stretches of a query, and the texts that its selects have by themselves. -/
def selectParts (sql : String) : Except RangeError (List Stretch × List String) := do
  let (b, t) := Buffer.ofString sql
  let replaced ← Halt.result (b.replaceLiterals t)
  let ranges ← t.leafSelects.mapM b.range
  let subqueries ← b.subqueries t
  let keys ← subqueries.mapM normalize
  return (stretches ranges replaced.buffer.cells, keys)

/-- The selects of a query that hold no other can be told by their texts. -/
def Separable (sql : String) : Prop :=
  ∃ ps keys, selectParts sql = .ok (ps, keys) ∧ Stretch.Separate ps keys

theorem Buffer.exists_ranges {b : Buffer} {t : Tree} {subqueries : List String}
    (h : b.subqueries t = .ok subqueries) : ∃ ranges, t.leafSelects.mapM b.range = .ok ranges := by
  obtain ⟨texts, htexts⟩ := exists_mapM_of_map (f := b.rangeText) h
  exact exists_mapM_of_map (f := b.range) htexts

/-- The selects cut out of the tokens, and, if they can be told by their texts, out of the text. -/
theorem Buffer.cutNodes_leafSelects {b : Buffer} {t : Tree} {sql : String} {replaced : Replaced}
    {ranges : List (Nat × Nat)} {subqueries keys : List String} (hb : b.source = .ofString sql)
    (hplaced : ∀ x ∈ t.leafSelects, x.Placed (Source.ofString sql).input)
    (hbefore : t.leafSelects.Pairwise Tree.Before)
    (hreplaced : Halt.result (b.replaceLiterals t) = .ok replaced)
    (hranges : t.leafSelects.mapM b.range = .ok ranges)
    (hsub : b.subqueries t = .ok subqueries) (hkeys : subqueries.mapM normalize = .ok keys)
    (hsep : Stretch.Separate (stretches ranges replaced.buffer.cells) keys) :
    (replaced.buffer.cutNodes t.leafSelects).map rebuild =
      .ok (keys.eraseDups.foldl (fun text select ↦ Cache.cutOut select text)
        replaced.buffer.rebuild) := by
  have hsource := source_of_replaceLiterals hreplaced
  have hlen : ((stretches ranges replaced.buffer.cells).filter Stretch.isSelect).length =
      ranges.length := by
    have hown := congrArg List.length hsep.own
    rw [List.length_map] at hown
    rw [hown, length_of_mapM hkeys, length_of_mapM hsub, length_of_mapM hranges]
  obtain ⟨hfull, hcut⟩ := rebuild_stretches (hsource.trans hb) hplaced hbefore
    (range_of_replaceLiterals hreplaced ▸ hranges) hlen
  rw [hcut, hfull, hsep.foldl_cutOut]

/-- The text of an accepted query with its selects cut out of the tokens. -/
theorem Normal.exists_cutText {sql : String} {n : Normal} (h : ofString sql = .ok n) :
    ∃ text, cutText sql = .ok text ∧ (Separable sql → n.rest = text) := by
  have hb := (over_ofString sql).source
  have hbefore := leafSelects_pairwise sql
  have hplaced : ∀ x ∈ (Buffer.ofString sql).2.leafSelects, x.Placed (Source.ofString sql).input :=
    fun _ ↦ placed_of_mem_leafSelects
  obtain ⟨replaced, subqueries, keys, masked, hparts⟩ := ofString_eq_ok h
  unfold Separable selectParts cutText
  generalize Buffer.ofString sql = bt at hb hbefore hplaced hparts ⊢
  obtain ⟨b, t⟩ := bt
  obtain ⟨hreplaced, hsub, hkeys, -, rfl⟩ := hparts
  obtain ⟨ranges, hranges⟩ := Buffer.exists_ranges hsub
  -- The cut never fails on an accepted query: each of its selects has a last token.
  have hcut := Buffer.cutNodes_eq_ok (range_of_replaceLiterals hreplaced ▸ hranges)
  refine ⟨_, bind_eq_ok_iff.2 ⟨replaced, hreplaced, bind_eq_ok_iff.2 ⟨_, hcut, rfl⟩⟩, ?_⟩
  rintro ⟨ps, keys', hps, hsep⟩
  have hown : (stretches ranges replaced.buffer.cells, keys) = (ps, keys') := by
    simp only [hreplaced, hranges, hsub, hkeys, bind, Except.bind] at hps
    exact Except.ok.inj hps
  obtain ⟨rfl, rfl⟩ := Prod.mk.inj hown
  have htext :=
    Buffer.cutNodes_leafSelects hb hplaced hbefore hreplaced hranges hsub hkeys hsep
  rw [hcut] at htext
  exact (Except.ok.inj htext).symm

/-- The first key of a table of plans. -/
def Plan.firstKey? : Plan → Option String
  | .table ((key, _) :: _) => some key
  | _ => none

namespace Cache

theorem exists_firstKey {c : Cache} {sql : String} {n : Normal} (hc : c.enabled = false)
    (h : Normal.ofString sql = .ok n) (hn : ¬n.Plain) :
    ∃ a c', c.fetch sql = .ok (a, c') ∧ a.plan.firstKey? = some n.rest := by
  refine ⟨(c.answer n).1, (c.answer n).2, fetch_of_ok h, ?_⟩
  rw [(answer_of_disabled hc h).1, Normal.ownPlan_of_not_plain hn]
  rfl

/-- Where stored plans are not used, an accepted query with inner selects is answered with a table,
and its selects can be cut out of its tokens. If they can be told by their texts, then what is left
is the first key of the table. -/
theorem firstKey_eq_cutText (c : Cache) (sql : String) (n : Normal) (hc : c.enabled = false)
    (h : Normal.ofString sql = .ok n) (hn : ¬n.Plain) :
    ∃ a c' key text, c.fetch sql = .ok (a, c') ∧ a.plan.firstKey? = some key ∧
      cutText sql = .ok text ∧ (Separable sql → key = text) := by
  obtain ⟨a, c', hfetch, hkey⟩ := exists_firstKey hc h hn
  obtain ⟨text, htext, hsep⟩ := Normal.exists_cutText h
  exact ⟨a, c', n.rest, text, hfetch, hkey, htext, hsep⟩

theorem ofString_union :
    ((Normal.ofString "SELECT *,* UNION SELECT *").toOption =
        some ⟨"SELECT * , * UNION SELECT *", ["SELECT * , *", "SELECT *"],
          "SELECT * , * UNION SELECT *", []⟩ ∧
      (selectParts "SELECT *,* UNION SELECT *").toOption =
        some ([⟨true, "SELECT * , *".toList⟩, ⟨false, "UNION".toList⟩,
          ⟨true, "SELECT *".toList⟩], ["SELECT * , *", "SELECT *"])) ∧
    (Normal.ofString "SELECT * UNION SELECT *,*").toOption =
        some ⟨"SELECT * UNION SELECT * , *", ["SELECT *", "SELECT * , *"],
          "SELECT * UNION SELECT * , *", []⟩ ∧
      (cutText "SELECT * UNION SELECT *,*").toOption = some "? UNION ?" := by
  decide +kernel

theorem firstKey_eq_cutText_union :
    Separable "SELECT *,* UNION SELECT *" ∧
      ∃ a c text, unused.fetch "SELECT *,* UNION SELECT *" = .ok (a, c) ∧
        a.plan.firstKey? = some text ∧ cutText "SELECT *,* UNION SELECT *" = .ok text := by
  obtain ⟨⟨hn, hparts⟩, -⟩ := ofString_union
  have hsep : Separable "SELECT *,* UNION SELECT *" :=
    ⟨_, _, eq_ok_of_toOption hparts, by decide +kernel⟩
  obtain ⟨a, c, key, text, hfetch, hkey, htext, heq⟩ :=
    firstKey_eq_cutText unused _ _ rfl (eq_ok_of_toOption hn) (by decide)
  rw [heq hsep] at hkey
  exact ⟨hsep, a, c, text, hfetch, hkey, htext⟩

/-- A select whose text is the beginning of another leaves the end of the other behind. -/
theorem firstKey_ne_cutText :
    ∃ a c text, unused.fetch "SELECT * UNION SELECT *,*" = .ok (a, c) ∧
      cutText "SELECT * UNION SELECT *,*" = .ok text ∧ a.plan.firstKey? ≠ some text := by
  obtain ⟨-, hn, htext⟩ := ofString_union
  have hunused : unused.enabled = false := rfl
  obtain ⟨a, c, hfetch, hkey⟩ :=
    exists_firstKey hunused (eq_ok_of_toOption hn) (by decide)
  refine ⟨a, c, _, hfetch, eq_ok_of_toOption htext, ?_⟩
  rw [hkey]
  decide +kernel

end Cache

end PlanCache

import PlanCache.Proofs.TokenEnds
import PlanCache.Proofs.TokenPairs

/-!
Reading the tokens of a text again when they have been written with single spaces between them. But
for a comment to the end of its line, each word gives the kinds that it gives alone. So the kinds do
not depend on what the literals among the words are.
-/

namespace PlanCache

/-- The kinds of the tokens of a text, with the mark of its end. -/
def tokenKinds (cs : List Char) : List Kind := (Token.scanFrom {} cs).map Token.kind

/-- What may stand behind a token when it is read again: nothing, or a space. -/
def Ends (tail : List Char) : Prop := tail = [] ∨ ∃ v, tail = ' ' :: v

section Kinds

variable {cs : List Char}

theorem map_kind_scanFrom (p q : Cursor) (cs : List Char) :
    (Token.scanFrom p cs).map Token.kind = (Token.scanFrom q cs).map Token.kind := by
  fun_induction Token.scanFrom p cs generalizing q with
  | case1 p =>
    rw [Token.scanFrom]
    rfl
  | case2 p c cs found text ih =>
    rw [Token.scanFrom, List.map_cons, List.map_cons, ih]

theorem tokenKinds_nil : tokenKinds [] = [.eof] := by
  rw [tokenKinds, Token.scanFrom]
  rfl

theorem tokenKinds_of_ne_nil (hcs : cs ≠ []) :
    tokenKinds cs = (LexRule.longest cs).1 :: tokenKinds (cs.drop (LexRule.longest cs).2) := by
  obtain ⟨c, cs, rfl⟩ := List.exists_cons_of_ne_nil hcs
  rw [tokenKinds, Token.scanFrom, List.map_cons, map_kind_scanFrom _ {}]
  rfl

theorem tokenKinds_ne_nil (cs : List Char) : tokenKinds cs ≠ [] := by
  cases cs with
  | nil =>
    rw [tokenKinds_nil]
    exact List.cons_ne_nil _ _
  | cons c cs =>
    rw [tokenKinds_of_ne_nil (List.cons_ne_nil c cs)]
    exact List.cons_ne_nil _ _

end Kinds

namespace Fence

variable {f : Fence} {d : Char} {x : List Char}

theorem step_outside_space (hf : f.Sober) : f.step .outside ' ' = .broken := by
  cases f with
  | quote q =>
    have hq : ' ' ≠ q := by
      rintro rfl
      cases hf ' ' rfl
    exact if_neg hq
  | _ => rfl

theorem ne_line_of_read (h : f.read .inside x = .outside) : f ≠ .line := by
  rintro rfl
  obtain ⟨d, -, hd⟩ := closer_mem h (by decide)
  cases hd

/-- Quotes and brackets end at the first mark that can end them. -/
theorem read_until (hf : f.closer = some d) (hb : f ≠ .block) (hx : d ∉ x) :
    f.read .inside (x ++ [d]) = .outside := by
  have hstep : ∀ c, f.step .inside c = if c = d then .outside else .inside := by
    intro c
    cases f with
    | quote q =>
      obtain rfl := Option.some.inj hf
      rfl
    | bracket =>
      obtain rfl := Option.some.inj hf
      rfl
    | block => exact absurd rfl hb
    | line => cases hf
  induction x with
  | nil =>
    change f.step .inside d = .outside
    rw [hstep, if_pos rfl]
  | cons c x ih =>
    rw [List.mem_cons, not_or] at hx
    rw [List.cons_append, read_cons, hstep, if_neg (Ne.symm hx.1)]
    exact ih hx.2

end Fence

namespace LexRule

open Regex Opening

variable {r : LexRule} {rs : List LexRule} {text z u rest rest' tail b : List Char} {o : Opening}
  {k : Kind} {c d : Char} {n : Nat}

theorem FirstOf.congr (h : FirstOf rs text rest k)
    (hr : ∀ r ∈ rs, r.Accepts text rest ↔ r.Accepts text rest') : FirstOf rs text rest' k := by
  obtain ⟨pre, r, post, rfl, hk, ha, hn⟩ := h
  refine ⟨pre, r, post, rfl, hk, (hr r (by simp)).1 ha, fun r' hr' ↦ ?_⟩
  rw [← hr r' (List.mem_append_left _ hr')]
  exact hn r' hr'

/-- Without an opening that has two characters, what follows a text does not matter. -/
theorem accepts_iff_of_not_line (h : ∀ b, ¬Opens text ⟨.line, .lineComment⟩ b) (hr : r ∈ all)
    (rest rest' : List Char) : r.Accepts text rest ↔ r.Accepts text rest' := by
  have hk : ∀ {rest}, r.Accepts text rest → r.kind ≠ .lineComment := by
    intro rest ha hk
    obtain ⟨b, ho⟩ := ha.opens_of_lineComment hr hk
    exact h b ho
  exact ⟨fun ha ↦ ha.rest_irrel hr (hk ha) rest', fun ha ↦ ha.rest_irrel hr (hk ha) rest⟩

theorem longest_append (hz : z ≠ []) (ht : Ends tail) (hf : FirstOf all z tail k)
    (hn : ∀ v v', tail = ' ' :: (v ++ v') → Refused (z ++ ' ' :: v) v') :
    longest (z ++ tail) = (k, z.length) := by
  apply IsLongest.longest_eq
  refine ⟨List.length_pos_iff.2 hz, by simp, by simpa using hf, fun m hlt hle ↦ ?_⟩
  rcases ht with rfl | ⟨v, rfl⟩
  · rw [List.append_nil] at hle
    exact absurd hle (Nat.not_le_of_lt hlt)
  · obtain ⟨m, rfl⟩ : ∃ m', m = z.length + (m' + 1) := ⟨m - z.length - 1, by omega⟩
    rw [List.take_length_add_append, List.drop_length_add_append]
    exact hn (v.take m) (v.drop m) (by rw [List.take_append_drop])

/-- A token that has come to its end ends there again. -/
theorem longest_of_closed (ho : Opens z o b) (hb : o.fence.read .inside b = .outside)
    (ht : Ends tail) : longest (z ++ tail) = (o.kind, z.length) := by
  have hlen : 2 ≤ z.length := by
    obtain ⟨p, hp, rfl⟩ := ho
    have hp := List.length_pos_iff.2 (opening_no_blank hp).1
    have hb : 0 < b.length := by
      cases b with
      | nil => cases hb
      | cons => exact Nat.succ_pos _
    rw [List.length_append]
    omega
  refine longest_append ?_ ht (firstOf_of_kind (exists_accepts_of_closed ho hb _) ?_) ?_
  · rintro rfl
    cases hlen
  · intro r hr ha
    exact (ha.of_opens hr ho (by omega)).1
  · intro v v' _ r hr ha
    have hlen' : (z ++ ' ' :: v).length ≠ 1 := by
      rw [List.length_append]
      omega
    rcases (ha.of_opens hr (ho.append _) hlen').2 with hl | hread
    · exact Fence.ne_line_of_read hb hl
    · rw [Fence.read_append, hb, Fence.read_cons, Fence.step_outside_space ho.sober,
        Fence.read_broken] at hread
      cases hread

/-- A token without an opening ends where it did. -/
theorem longest_of_not_opens (h : IsLongest (z ++ rest) k z.length) (hz : ¬∃ o b, Opens z o b)
    (ht : Ends tail) : longest (z ++ tail) = (k, z.length) := by
  have hpos := h.pos
  refine longest_append (List.length_pos_iff.1 hpos) ht (h.firstOf.congr fun r hr ↦ ?_) ?_
  · exact accepts_iff_of_not_line (fun b ho ↦ hz ⟨_, b, ho⟩) hr _ _
  · intro v v' _ r hr ha
    have hlen : (z ++ ' ' :: v).length ≠ 1 := by
      rw [List.length_append, List.length_cons]
      omega
    obtain ⟨o, b, ho⟩ := ha.opens_of_space hr (by simp) hlen
    obtain ⟨b', ho', -⟩ := ho.of_append_space
    exact hz ⟨o, b', ho'⟩

/-- Openings of one character are those of names and strings. -/
theorem closer_of_opens_singleton (ho : Opens [c] o b) :
    b = [] ∧ o.fence ≠ .line ∧ o.fence ≠ .block ∧
      ∃ d ∈ ['"', '\x60', ']', '\''], o.fence.closer = some d := by
  have hall : openings.all (fun x ↦ x.1.length != 1 ||
      (x.2.fence != .line && x.2.fence != .block &&
        ['"', '\x60', ']', '\''].any fun d ↦ x.2.fence.closer = some d)) = true := by
    decide
  obtain ⟨p, hp, he⟩ := ho
  have hx := List.all_eq_true.1 hall _ hp
  have hne := (opening_no_blank hp).1
  obtain ⟨q, p, rfl⟩ := List.exists_cons_of_ne_nil hne
  obtain ⟨rfl, hnil⟩ := List.cons.inj he
  obtain ⟨rfl, rfl⟩ := List.append_eq_nil_iff.1 hnil.symm
  simp only [List.length_singleton, bne_self_eq_false, Bool.false_or, Bool.and_eq_true,
    bne_iff_ne, List.any_eq_true, decide_eq_true_eq] at hx
  exact ⟨rfl, hx.1.1, hx.1.2, hx.2⟩

/-- A mark that opens and is a token of its own has nothing behind it that could end it. -/
theorem not_mem_of_unclosed (h : IsLongest (c :: rest) k 1) (ho : Opens [c] o [])
    (hd : o.fence.closer = some d) : d ∉ rest := by
  intro hm
  obtain ⟨-, -, hblock, -⟩ := closer_of_opens_singleton ho
  obtain ⟨x, y, rfl, hx⟩ := List.eq_append_cons_of_mem hm
  have hread := Fence.read_until hd hblock hx
  have hopens : Opens (c :: (x ++ [d])) o (x ++ [d]) := ho.append _
  obtain ⟨r, hr, ha⟩ := exists_accepts_of_closed hopens hread y
  have hlen : (c :: (x ++ [d])).length ≤ (c :: (x ++ d :: y)).length := by simp
  have hlt : 1 < (c :: (x ++ [d])).length := by simp
  refine h.none_longer _ hlt hlen r hr ?_
  have htake : c :: (x ++ d :: y) = (c :: (x ++ [d])) ++ y := by simp
  rw [htake, List.take_left, List.drop_left]
  exact ha

theorem longest_of_unclosed (h : IsLongest (c :: rest) k 1) (ho : Opens [c] o [])
    (ht : Ends tail) (hd : ∀ d ∈ tail, o.fence.closer ≠ some d) :
    longest (c :: tail) = (k, 1) := by
  obtain ⟨-, hline, -, -⟩ := closer_of_opens_singleton ho
  have hfirst : FirstOf all [c] rest k := h.first
  refine longest_append (z := [c]) (List.cons_ne_nil _ _) ht (hfirst.congr fun r hr ↦ ?_) ?_
  · refine accepts_iff_of_not_line (fun b hl ↦ ?_) hr _ _
    rw [(ho.unique hl).1] at hline
    exact hline rfl
  · intro v v' hv r hr ha
    rcases (ha.of_opens hr (ho.append (' ' :: v)) (by simp)).2 with hl | hread
    · exact hline hl
    · obtain ⟨d, hm, hc⟩ := Fence.closer_mem hread (by decide)
      refine hd d ?_ hc
      rw [hv]
      exact List.mem_append_left v' hm

/-- A comment to the end of the line takes all that follows it in one line. -/
theorem tokenKinds_of_line (ho : Opens z ⟨.line, .lineComment⟩ b)
    (hz : ∀ c ∈ z, c ≠ '\r' ∧ c ≠ '\n') : tokenKinds z = [.lineComment, .eof] := by
  have hb : z = '-' :: '-' :: b := by
    have h := opens_iff.1 ho
    simpa using h
  have hmatch : Matches lineStart z := by
    rw [hb] at hz ⊢
    have hstar : Matches (.star (noneOf ['\r', '\n'])) b := by
      rw [noneOf, matches_star_iff_forall]
      intro c hc
      have hc := hz c (by simp [hc])
      simp [hc]
    exact matches_all_cons.2 ⟨['-'], '-' :: b, matches_just.2 rfl,
      matches_all_cons.2 ⟨['-'], b, matches_just.2 rfl, hstar, rfl⟩, rfl⟩
  have hlen : z.length ≠ 1 := by
    rw [hb]
    simp
  have hfirst : FirstOf all z [] .lineComment :=
    firstOf_of_kind ⟨_, lineComment_mem_all, .inr ⟨rfl, hmatch⟩⟩
      fun r hr ha ↦ (ha.of_opens hr ho hlen).1
  have hne : z ≠ [] := by
    rw [hb]
    exact List.cons_ne_nil _ _
  have hlong := longest_append hne (.inl rfl) hfirst (by simp)
  rw [List.append_nil] at hlong
  rw [tokenKinds_of_ne_nil hne, hlong, List.drop_length, tokenKinds_nil]

theorem refused_congr (h : ∀ b, ¬Opens text ⟨.line, .lineComment⟩ b) (hr : Refused text rest)
    (rest' : List Char) : Refused text rest' := by
  intro r hm ha
  exact hr r hm ((accepts_iff_of_not_line h hm rest' rest).1 ha)

theorem longest_of_calm (hz : z ≠ []) (hcalm : ∀ c ∈ z, isCalm c = true) (ht : Ends tail) :
    longest (z ++ tail) = longest z ∧ (longest z).2 ≤ z.length := by
  obtain ⟨c, cs, rfl⟩ := List.exists_cons_of_ne_nil hz
  have h := isLongest_longest c cs
  refine ⟨?_, h.le⟩
  generalize c :: cs = z at h hcalm hz
  generalize longest z = found at h ⊢
  obtain ⟨k, n⟩ := found
  dsimp only at h
  have hno : ∀ m o b, ¬Opens (z.take m) o b := fun m o b ↦
    not_opens_of_calm fun d hd ↦ hcalm d (List.mem_of_mem_take hd)
  have htake : ∀ {m}, m ≤ z.length → (z ++ tail).take m = z.take m := fun hm ↦
    List.take_append_of_le_length hm
  apply IsLongest.longest_eq
  refine ⟨h.pos, Nat.le_trans h.le (by simp), ?_, fun m hlt hle ↦ ?_⟩
  · rw [htake h.le]
    exact h.first.congr fun r hr ↦ accepts_iff_of_not_line (hno n _) hr _ _
  · by_cases hm : m ≤ z.length
    · rw [htake hm]
      exact refused_congr (hno m _) (h.none_longer m hlt hm) _
    · -- a longer text has the space behind `z` in it
      intro r hr ha
      rcases ht with rfl | ⟨v, rfl⟩
      · rw [List.append_nil] at hle
        exact hm hle
      · obtain ⟨m, rfl⟩ : ∃ m', m = z.length + (m' + 1) := ⟨m - z.length - 1, by omega⟩
        rw [List.take_length_add_append, List.take_succ_cons] at ha
        have hlen : (z ++ ' ' :: v.take m).length ≠ 1 := by
          have hpos := List.length_pos_iff.2 hz
          rw [List.length_append, List.length_cons]
          omega
        obtain ⟨o, b, ho⟩ := ha.opens_of_space hr (by simp) hlen
        obtain ⟨b', ho', -⟩ := ho.of_append_space
        exact not_opens_of_calm hcalm ho'

/-- Bare texts give the kinds that they give alone, whatever follows. -/
theorem tokenKinds_of_calm (hcalm : ∀ c ∈ z, isCalm c = true) (ht : Ends tail) :
    tokenKinds (z ++ tail) = (tokenKinds z).dropLast ++ tokenKinds tail := by
  induction hn : z.length using Nat.strongRecOn generalizing z with
  | ind n ih =>
    by_cases hz : z = []
    · rw [hz, tokenKinds_nil]
      rfl
    · obtain ⟨hlong, hle⟩ := longest_of_calm hz hcalm ht
      have hpos := longest_pos z
      have hrest := ih ((z.drop (longest z).2).length) (by rw [List.length_drop]; omega)
        (fun c hc ↦ hcalm c (List.mem_of_mem_drop hc)) rfl
      have hz' : z ++ tail ≠ [] := fun h ↦ hz (List.append_eq_nil_iff.1 h).1
      rw [tokenKinds_of_ne_nil hz', hlong, tokenKinds_of_ne_nil hz,
        List.dropLast_cons_of_ne_nil (tokenKinds_ne_nil _), List.drop_append_of_le_length hle,
        hrest, List.cons_append]

/-- What may follow a token when the text `rest` behind it is written again: it is in one line, and
no mark that ends names or strings is in it that is not in `rest`. -/
structure Follows (tail rest : List Char) : Prop where
  ends : Ends tail
  line : ∀ c ∈ tail, c ≠ '\r' ∧ c ≠ '\n'
  marks : ∀ c ∈ tail, c ∈ ['"', '\x60', ']', '\''] → c ∈ rest

theorem Follows.nil : Follows [] rest := ⟨.inl rfl, nofun, nofun⟩

/-- What a token with the text `u` before `rest` is when it is written again with single spaces. -/
inductive Rewritten (u rest : List Char) (k : Kind) : Prop where
  /-- A comment to the end of the line. -/
  | line {b : List Char} : k = .lineComment →
      Opens (Text.squeeze u) ⟨.line, .lineComment⟩ b → Rewritten u rest k
  /-- The token that it was. -/
  | same : k ≠ .lineComment → (∀ tail, Follows tail rest →
      longest (Text.squeeze u ++ tail) = (k, (Text.squeeze u).length)) → Rewritten u rest k
  /-- A bare text that spaces may divide. -/
  | bare : k ∈ [.identifier, .parameter] → (∀ c ∈ Text.squeeze u, isCalm c = true) →
      Rewritten u rest k

/-- A mark that opens a name or a string and has no end stands alone as before. -/
theorem Rewritten.of_unclosed (h : IsLongest (c :: rest) k 1) (hc : Text.isBlank c = false)
    (ho : Opens [c] o b) : Rewritten [c] rest k := by
  obtain ⟨r, hr, hk, ha⟩ := h.first.exists_rule
  obtain ⟨rfl, hline, -, d, hd, hcloser⟩ := closer_of_opens_singleton ho
  have hs : Text.squeeze [c] = [c] := Text.squeeze_of_no_blank (by simpa using hc)
  refine .same ?_ fun tail hf ↦ ?_
  · rintro rfl
    rcases ha.kind_of_opens hr ho with he | he
    · exact hline (ho.line_iff.2 (he.symm.trans hk))
    · cases he.symm.trans hk
  · rw [hs]
    refine longest_of_unclosed h ho hf.ends fun d' hd' hc' ↦ ?_
    obtain rfl := Option.some.inj (hcloser.symm.trans hc')
    exact not_mem_of_unclosed h ho hcloser (hf.marks d hd' hd)

theorem Rewritten.of_opens (h : IsLongest (u ++ rest) k u.length) (hlen : u.length ≠ 1)
    (ho : Opens u o b) : Rewritten u rest k := by
  obtain ⟨r, hr, hk, ha⟩ := h.firstOf.exists_rule
  obtain ⟨hko, hend⟩ := ha.of_opens hr ho hlen
  rw [hk] at hko
  rcases hend with hl | hread
  · have hline : o.kind = .lineComment := ho.line_iff.1 hl
    have hopens := ho.squeeze
    obtain ⟨f, k'⟩ := o
    obtain rfl : f = .line := hl
    obtain rfl : k' = .lineComment := hline
    exact .line hko hopens
  · refine .same ?_ fun tail hf ↦ ?_
    · rw [hko, ne_eq, ← ho.line_iff]
      exact Fence.ne_line_of_read hread
    · rw [hko]
      exact longest_of_closed ho.squeeze (Fence.read_pack ho.sober false hread rfl) hf.ends

/-- A token that nothing encloses holds white space only as a bare text. -/
theorem Rewritten.of_not_opens (h : IsLongest (u ++ rest) k u.length)
    (hu : u.all Text.isBlank = false) (ho : ¬∃ o b, Opens u o b) : Rewritten u rest k := by
  obtain ⟨r, hr, hk, ha⟩ := h.firstOf.exists_rule
  have hline : k ≠ .lineComment := by
    rintro rfl
    obtain ⟨b, hb⟩ := ha.opens_of_lineComment hr hk
    exact ho ⟨_, b, hb⟩
  by_cases hb : ∃ c ∈ u, Text.isBlank c = true
  · obtain ⟨c, hc, hb⟩ := hb
    rcases ha.of_blank hr hc hb with hopens | ⟨-, rfl⟩ | ⟨hkind, hcalm⟩
    · exact absurd hopens ho
    · rw [List.all_cons, hb] at hu
      cases hu
    · rw [hk] at hkind
      refine .bare hkind fun d hd ↦ ?_
      rcases Text.mem_squeeze hd with rfl | ⟨hd, -⟩
      · rfl
      · exact (hcalm d hd).1
  · have hs : Text.squeeze u = u := by
      refine Text.squeeze_of_no_blank fun c hc ↦ ?_
      rw [Bool.eq_false_iff]
      exact fun hb' ↦ hb ⟨c, hc, hb'⟩
    refine .same hline fun tail hf ↦ ?_
    rw [hs]
    exact longest_of_not_opens h ho hf.ends

theorem IsLongest.rewritten (h : IsLongest (u ++ rest) k u.length)
    (hu : u.all Text.isBlank = false) : Rewritten u rest k := by
  by_cases ho : ∃ o b, Opens u o b
  · obtain ⟨o, b, ho⟩ := ho
    by_cases hlen : u.length = 1
    · obtain ⟨c, rfl⟩ := List.length_eq_one_iff.1 hlen
      exact .of_unclosed h (by simpa using hu) ho
    · exact .of_opens h hlen ho
  · exact .of_not_opens h hu ho

theorem tokenKinds_of_longest_eq (hz : z ≠ []) (h : longest (z ++ tail) = (k, z.length)) :
    tokenKinds (z ++ tail) = k :: tokenKinds tail := by
  have hne : z ++ tail ≠ [] := fun he ↦ hz (List.append_eq_nil_iff.1 he).1
  rw [tokenKinds_of_ne_nil hne, h, List.drop_left]

theorem squeeze_ne_nil (hu : u.all Text.isBlank = false) : Text.squeeze u ≠ [] := by
  induction u with
  | nil => cases hu
  | cons c u ih =>
    rw [Text.squeeze]
    cases hc : Text.isBlank c with
    | true =>
      rw [List.all_cons, hc, Bool.true_and] at hu
      exact ih hu
    | false => exact List.cons_ne_nil _ _

/-- A comment to the end of the line takes all that follows, written in one line. -/
theorem tokenKinds_squeeze_line (h : IsLongest (u ++ rest) .lineComment u.length)
    (hu : u.all Text.isBlank = false) (hf : Follows tail rest) :
    tokenKinds (Text.squeeze u ++ tail) = [.lineComment, .eof] := by
  cases h.rewritten hu with
  | line _ ho =>
    refine tokenKinds_of_line (ho.append tail) (List.forall_mem_append.2 ⟨fun c hc ↦ ?_, hf.line⟩)
    rcases Text.mem_squeeze hc with rfl | ⟨-, hb⟩
    · decide
    · constructor <;> rintro rfl <;> cases hb
  | same hne _ => exact absurd rfl hne
  | bare hk _ => exact absurd hk (by decide)

/-- Any other token gives the kinds that it gives alone. -/
theorem tokenKinds_squeeze (h : IsLongest (u ++ rest) k u.length) (hk : k ≠ .lineComment)
    (hu : u.all Text.isBlank = false) (hf : Follows tail rest) :
    tokenKinds (Text.squeeze u ++ tail) =
      (tokenKinds (Text.squeeze u)).dropLast ++ tokenKinds tail := by
  cases h.rewritten hu with
  | line hl _ => exact absurd hl hk
  | same _ hlong =>
    have halone := tokenKinds_of_longest_eq (squeeze_ne_nil hu) (hlong [] .nil)
    rw [List.append_nil, tokenKinds_nil] at halone
    rw [tokenKinds_of_longest_eq (squeeze_ne_nil hu) (hlong tail hf), halone]
    rfl
  | bare _ hcalm => exact tokenKinds_of_calm hcalm hf.ends

/-- A literal is read as a literal of its kind again. -/
theorem tokenKinds_squeeze_literal (h : IsLongest (u ++ rest) k u.length) (hk : k ∈ literals)
    (hu : u.all Text.isBlank = false) : tokenKinds (Text.squeeze u) = [k, .eof] := by
  cases h.rewritten hu with
  | line hl _ =>
    rw [hl] at hk
    exact absurd hk (by decide)
  | same _ hlong =>
    have halone := tokenKinds_of_longest_eq (squeeze_ne_nil hu) (hlong [] .nil)
    rwa [List.append_nil, tokenKinds_nil] at halone
  | bare hname _ =>
    simp only [List.mem_cons, List.not_mem_nil, or_false] at hname
    rcases hname with rfl | rfl <;> exact absurd hk (by decide)

/-- Literals are not blank. -/
theorem all_isBlank_of_literal (h : IsLongest (u ++ rest) k u.length) (hk : k ∈ literals) :
    u.all Text.isBlank = false := by
  obtain ⟨r, hr, rfl, ha⟩ := h.firstOf.exists_rule
  rw [Bool.eq_false_iff]
  intro hb
  rw [List.all_eq_true] at hb
  obtain ⟨c, u, rfl⟩ := List.exists_cons_of_length_pos h.pos
  rcases ha.of_blank hr List.mem_cons_self (hb c List.mem_cons_self) with
    ⟨o, b, p, hp, he⟩ | ⟨hkind, -⟩ | ⟨hkind, -⟩
  · obtain ⟨hne, hno⟩ := opening_no_blank hp
    obtain ⟨d, p, rfl⟩ := List.exists_cons_of_ne_nil hne
    have hd := hno d List.mem_cons_self
    rw [← (List.cons.inj he).1, hb c List.mem_cons_self] at hd
    cases hd
  · simp only [List.mem_cons, List.not_mem_nil, or_false] at hkind
    rcases hkind with hkind | hkind <;> rw [hkind] at hk <;> exact absurd hk (by decide)
  · simp only [List.mem_cons, List.not_mem_nil, or_false] at hkind
    rcases hkind with hkind | hkind <;> rw [hkind] at hk <;> exact absurd hk (by decide)

end LexRule

section Spaces

open LexRule

theorem longest_space : longest [' '] = (.blank, 1) := by decide +kernel

theorem longest_semicolon : longest [';'] = (.semicolon, 1) := by decide +kernel

theorem longest_space_cons (cs : List Char) : longest (' ' :: cs) = (.blank, 1) := by
  have hno : ∀ {v o b}, ¬Opens (' ' :: v) o b := by
    rintro v o b ⟨p, hp, he⟩
    obtain ⟨hne, hb⟩ := opening_no_blank hp
    obtain ⟨d, p, rfl⟩ := List.exists_cons_of_ne_nil hne
    have hd := hb d List.mem_cons_self
    rw [← (List.cons.inj he).1] at hd
    cases hd
  have halone := isLongest_longest ' ' []
  rw [longest_space] at halone
  apply IsLongest.longest_eq
  refine ⟨Nat.one_pos, by simp, ?_, fun m hlt hle r hr ha ↦ ?_⟩
  · exact halone.first.congr fun r hr ↦ accepts_iff_of_not_line (fun _ ↦ hno) hr _ _
  · obtain ⟨m, rfl⟩ : ∃ m', m = m' + 1 := ⟨m - 1, by omega⟩
    have hlen : ((' ' :: cs).take (m + 1)).length ≠ 1 := by
      rw [List.length_take]
      omega
    obtain ⟨o, b, ho⟩ := ha.opens_of_space hr (by simp) hlen
    exact hno ho

theorem tokenKinds_space (cs : List Char) : tokenKinds (' ' :: cs) = .blank :: tokenKinds cs := by
  rw [tokenKinds_of_ne_nil (List.cons_ne_nil _ _), longest_space_cons]
  rfl

/-- What stands behind a word that is followed by others. -/
def behind : List (List Char) → List Char
  | [] => []
  | w :: ws => ' ' :: Text.unwords (w :: ws)

theorem unwords_cons (w : List Char) (ws : List (List Char)) :
    Text.unwords (w :: ws) = w ++ behind ws := by
  cases ws with
  | nil => rw [Text.unwords_singleton, behind, List.append_nil]
  | cons v ws => exact Text.unwords_cons_cons w v ws

theorem tokenKinds_behind {ws vs : List (List Char)} (hlen : ws.length = vs.length)
    (h : tokenKinds (Text.unwords ws) = tokenKinds (Text.unwords vs)) :
    tokenKinds (behind ws) = tokenKinds (behind vs) := by
  cases ws with
  | nil =>
    obtain rfl := List.length_eq_zero_iff.1 hlen.symm
    rfl
  | cons w ws =>
    cases vs with
    | nil => cases hlen
    | cons v vs => rw [behind, behind, tokenKinds_space, tokenKinds_space, h]

end Spaces

/-- Tokens as they follow each other in a text, some of them left out. -/
inductive InOrder : List Token → Prop where
  | nil : InOrder []
  | eof {x : Token} : x.kind = .eof → InOrder [x]
  | cons {x : Token} {xs : List Token} {rest : List Char} :
      LexRule.IsLongest (x.text.toList ++ rest) x.kind x.text.toList.length →
      (∀ y ∈ xs, ∀ c ∈ y.text.toList, c ∈ rest ∨ c ∈ "<EOF>".toList) → InOrder xs →
      InOrder (x :: xs)

theorem InOrder.of_cons {x : Token} {xs : List Token} (h : InOrder (x :: xs)) :
    (x.kind = .eof ∧ xs = []) ∨
      ∃ rest, LexRule.IsLongest (x.text.toList ++ rest) x.kind x.text.toList.length ∧
        (∀ y ∈ xs, ∀ c ∈ y.text.toList, c ∈ rest ∨ c ∈ "<EOF>".toList) ∧ InOrder xs := by
  cases h with
  | eof hk => exact .inl ⟨hk, rfl⟩
  | cons hx hrest hxs => exact .inr ⟨_, hx, hrest, hxs⟩

theorem InOrder.sublist {xs ys : List Token} (h : InOrder xs) (hs : ys.Sublist xs) :
    InOrder ys := by
  induction h generalizing ys with
  | nil =>
    rw [List.sublist_nil.1 hs]
    exact .nil
  | eof hk =>
    cases hs with
    | cons _ hs =>
      rw [List.sublist_nil.1 hs]
      exact .nil
    | cons_cons _ hs =>
      rw [List.sublist_nil.1 hs]
      exact .eof hk
  | cons hx hrest _ ih =>
    cases hs with
    | cons _ hs => exact ih hs
    | cons_cons _ hs => exact .cons hx (fun y hy ↦ hrest y (hs.subset hy)) (ih hs)

theorem InOrder.isLongest {x : Token} {xs : List Token} (h : InOrder xs) (hx : x ∈ xs)
    (hk : x.kind ≠ .eof) :
    ∃ rest, LexRule.IsLongest (x.text.toList ++ rest) x.kind x.text.toList.length := by
  induction h with
  | nil => cases hx
  | eof he =>
    rw [List.mem_singleton.1 hx] at hk
    exact absurd he hk
  | cons hy _ _ ih =>
    rcases List.mem_cons.1 hx with rfl | hx
    · exact ⟨_, hy⟩
    · exact ih hx

theorem InOrder.pairwise_ne_eof {xs : List Token} (h : InOrder xs) :
    xs.Pairwise fun x _ ↦ x.kind ≠ .eof := by
  induction h with
  | nil => exact .nil
  | eof => exact List.pairwise_singleton _ _
  | cons hx _ _ ih => exact List.pairwise_cons.2 ⟨fun _ _ ↦ hx.ne_eof, ih⟩

theorem Token.mem_of_mem_scanFrom (p : Cursor) (cs : List Char) :
    ∀ y ∈ scanFrom p cs, ∀ c ∈ y.text.toList, c ∈ cs ∨ c ∈ "<EOF>".toList := by
  fun_induction scanFrom p cs with
  | case1 p =>
    intro y hy c hc
    rw [List.mem_singleton.1 hy] at hc
    exact .inr hc
  | case2 p c cs found text ih =>
    intro y hy d hd
    rcases List.mem_cons.1 hy with rfl | hy
    · rw [String.toList_ofList] at hd
      exact .inl (List.mem_of_mem_take hd)
    · exact (ih y hy d hd).imp_left List.mem_of_mem_drop

theorem Token.inOrder_scanFrom (p : Cursor) (cs : List Char) : InOrder (scanFrom p cs) := by
  fun_induction scanFrom p cs with
  | case1 p => exact .eof rfl
  | case2 p c cs found text ih =>
    have h := LexRule.isLongest_longest c cs
    have hlen : text.length = found.2 := by
      rw [List.length_take]
      exact Nat.min_eq_left h.le
    have hx : LexRule.IsLongest ((String.ofList text).toList ++ (c :: cs).drop found.2) found.1
        (String.ofList text).toList.length := by
      rw [String.toList_ofList, List.take_append_drop, hlen]
      exact h
    exact .cons hx (mem_of_mem_scanFrom _ _) ih

section Words

open LexRule

/-- The text of a token with single spaces. -/
def Token.word (x : Token) : List Char := Text.squeeze x.text.toList

theorem follows_behind {xs : List Token} {rest : List Char}
    (h : ∀ y ∈ xs, ∀ c ∈ y.text.toList, c ∈ rest ∨ c ∈ "<EOF>".toList) :
    Follows (behind (xs.map Token.word)) rest := by
  cases xs with
  | nil => exact .nil
  | cons x xs =>
    have hmem : ∀ c ∈ behind ((x :: xs).map Token.word), c = ' ' ∨
        (c ∈ rest ∨ c ∈ "<EOF>".toList) ∧ Text.isBlank c = false := by
      intro c hc
      rcases List.mem_cons.1 hc with hc | hc
      · exact .inl hc
      · rcases Text.mem_unwords hc with hc | ⟨w, hw, hc⟩
        · exact .inl hc
        · rw [← List.map_cons] at hw
          obtain ⟨y, hy, rfl⟩ := List.mem_map.1 hw
          exact (Text.mem_squeeze hc).imp_right fun ⟨hc, hb⟩ ↦ ⟨h y hy c hc, hb⟩
    refine ⟨.inr ⟨_, rfl⟩, fun c hc ↦ ?_, fun c hc hmark ↦ ?_⟩
    · rcases hmem c hc with rfl | ⟨-, hb⟩
      · decide
      · constructor <;> rintro rfl <;> cases hb
    · rcases hmem c hc with rfl | ⟨hr | he, -⟩
      · exact absurd hmark (by decide)
      · exact hr
      · have hno : "<EOF>".toList.all (fun c ↦ !(['"', '\x60', ']', '\''].contains c)) = true := by
          decide
        have hc := List.all_eq_true.1 hno c he
        rw [List.contains_iff_mem.2 hmark] at hc
        cases hc

/-- Two rows of words that differ in literals of the same kinds have the same kinds of tokens. -/
theorem tokenKinds_unwords_eq {zs : List (Token × Token)}
    (hx : InOrder (zs.map Prod.fst)) (hy : InOrder (zs.map Prod.snd))
    (hk : ∀ z ∈ zs, z.1.kind = z.2.kind)
    (ht : ∀ z ∈ zs, z.1.text = z.2.text ∨ z.1.kind ∈ literals)
    (hb : ∀ z ∈ zs, Text.allBlank z.1.text = false ∧ Text.allBlank z.2.text = false) :
    tokenKinds (Text.unwords ((zs.map Prod.fst).map Token.word)) =
      tokenKinds (Text.unwords ((zs.map Prod.snd).map Token.word)) := by
  induction zs with
  | nil => rfl
  | cons z zs ih =>
    obtain ⟨x, y⟩ := z
    rw [List.forall_mem_cons] at hk ht hb
    dsimp only at hk ht hb
    simp only [List.map_cons] at hx hy ⊢
    -- the mark of the end is the last word, and no literal
    have hend : x.kind = .eof → zs = [] →
        tokenKinds (Text.unwords (x.word :: (zs.map Prod.fst).map Token.word)) =
          tokenKinds (Text.unwords (y.word :: (zs.map Prod.snd).map Token.word)) := by
      rintro he rfl
      have hlit : x.kind ∉ literals := by
        rw [he]
        decide
      rw [Token.word, Token.word, ht.1.resolve_right hlit]
      rfl
    rcases hx.of_cons with ⟨he, hnil⟩ | ⟨rest, hlong, hrest, hxs⟩
    · exact hend he (List.map_eq_nil_iff.1 hnil)
    rcases hy.of_cons with ⟨he, hnil⟩ | ⟨rest', hlong', hrest', hys⟩
    · exact hend (hk.1.trans he) (List.map_eq_nil_iff.1 hnil)
    have htail := tokenKinds_behind (by simp) (ih hxs hys hk.2 ht.2 hb.2)
    have hf := follows_behind hrest
    have hf' := follows_behind hrest'
    rw [unwords_cons, unwords_cons, Token.word, Token.word]
    rw [← hk.1] at hlong'
    by_cases hl : x.kind = .lineComment
    · rw [hl] at hlong hlong'
      rw [tokenKinds_squeeze_line hlong hb.1.1 hf, tokenKinds_squeeze_line hlong' hb.1.2 hf']
    · rw [tokenKinds_squeeze hlong hl hb.1.1 hf, tokenKinds_squeeze hlong' hl hb.1.2 hf', htail]
      rcases ht.1 with he | hlit
      · rw [he]
      · rw [tokenKinds_squeeze_literal hlong hlit hb.1.1,
          tokenKinds_squeeze_literal hlong' hlit hb.1.2]

end Words

end PlanCache

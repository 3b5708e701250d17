import PlanCache.Proofs.Reading

/-!
How many steps lie between one token and the next. A sequence is ranked by the steps that reading it
can take before a token is read, and no rule comes back to itself without one. So the steps of a
parse are bounded by the tokens that are left.
-/

namespace PlanCache

mutual

/-- Whether a part may be read without passing a token. The mark of the end is never passed. -/
def Part.skips : Part → Bool
  | .token _ k _ => k == .eof
  | .oneOf _ ks _ => ks.contains .eof
  | .call _ r _ _ _ => r == .parse
  | .choice _ b => skipsBlock b
  | .loop _ shape again body => again || !shape.nonempty || skipsSeq body
  | .guard _ _ | .option _ _ | .operators _ _ _ => true

def skipsSeq : List Part → Bool
  | [] => true
  | p :: ps => p.skips && skipsSeq ps

def skipsBlock : List (List Part) → Bool
  | [] => false
  | s :: b => skipsSeq s || skipsBlock b

end

mutual

/-- Whether no operators stand in a part and each round of a loop passes a token. -/
def Part.plain : Part → Bool
  | .choice _ b | .option _ b => plainBlock b
  | .loop _ _ _ body => plainSeq body && !skipsSeq body
  | .operators _ _ _ => false
  | _ => true

def plainSeq : List Part → Bool
  | [] => true
  | p :: ps => p.plain && plainSeq ps

def plainBlock : List (List Part) → Bool
  | [] => true
  | s :: b => plainSeq s && plainBlock b

end

section Ranks

variable (ranks : Rule → Nat)

mutual

/-- The most steps that a part takes up to its first token, given those of the rules. -/
def Part.rank : Part → Nat
  | .token _ _ _ | .oneOf _ _ _ | .guard _ _ => 1
  | .call _ r _ _ _ => 1 + ranks r
  | .choice _ b | .option _ b | .operators _ _ b => 1 + rankBlock b
  | .loop _ _ _ body => 1 + rankSeq body

def rankSeq : List Part → Nat
  | [] => 0
  | p :: ps => p.rank + if p.skips then rankSeq ps else 0

def rankBlock : List (List Part) → Nat
  | [] => 0
  | s :: b => max (rankSeq s) (rankBlock b)

end

mutual

/-- A bound on the ranks of all sequences that come up while a part is read. -/
def Part.top : Part → Nat
  | .token _ _ _ | .oneOf _ _ _ | .guard _ _ => 1
  | .call _ r _ _ _ => 1 + ranks r
  | .choice _ b | .option _ b => 1 + topBlock b
  | .loop _ _ _ body => 1 + rankSeq ranks body + topSeq body
  | .operators _ _ b => 1 + rankBlock ranks b + topBlock b

def topSeq : List Part → Nat
  | [] => 0
  | p :: ps => max (p.top + rankSeq ranks ps) (topSeq ps)

def topBlock : List (List Part) → Nat
  | [] => 0
  | s :: b => max (topSeq s) (topBlock b)

end

end Ranks

section

variable {ranks : Rule → Nat} {p : Part} {s ps rest : List Part} {block : List (List Part)}

@[simp] theorem skipsSeq_cons : skipsSeq (p :: ps) = (p.skips && skipsSeq ps) := by rw [skipsSeq]

@[simp] theorem skipsSeq_append : skipsSeq (ps ++ rest) = (skipsSeq ps && skipsSeq rest) := by
  induction ps with
  | nil => simp [skipsSeq]
  | cons p ps ih => simp [ih, Bool.and_assoc]

theorem skipsBlock_of_mem (hs : s ∈ block) (h : skipsSeq s = true) : skipsBlock block = true := by
  induction block with
  | nil => cases hs
  | cons t b ih =>
    rw [skipsBlock, Bool.or_eq_true]
    rcases List.mem_cons.1 hs with rfl | hs
    · exact .inl h
    · exact .inr (ih hs)

theorem plainSeq_of_mem (hb : plainBlock block = true) (hs : s ∈ block) : plainSeq s = true := by
  induction block with
  | nil => cases hs
  | cons t b ih =>
    rw [plainBlock, Bool.and_eq_true] at hb
    rcases List.mem_cons.1 hs with rfl | hs
    · exact hb.1
    · exact ih hb.2 hs

theorem one_le_rank : 1 ≤ p.rank ranks := by
  cases p <;> simp [Part.rank]

theorem rankSeq_append_le : rankSeq ranks (ps ++ rest) ≤ rankSeq ranks ps + rankSeq ranks rest := by
  induction ps with
  | nil => simp [rankSeq]
  | cons p ps ih =>
    simp only [List.cons_append, rankSeq]
    split <;> omega

theorem rankSeq_append_of_skips (h : skipsSeq ps = false) :
    rankSeq ranks (ps ++ rest) = rankSeq ranks ps := by
  induction ps with
  | nil => cases h
  | cons p ps ih =>
    rw [List.cons_append, rankSeq, rankSeq]
    rw [skipsSeq_cons, Bool.and_eq_false_iff] at h
    rcases h with h | h
    · simp [h]
    · rw [ih h]

theorem rankSeq_le_rankBlock (ranks : Rule → Nat) (hs : s ∈ block) : rankSeq ranks s ≤ rankBlock ranks block := by
  induction block with
  | nil => cases hs
  | cons t b ih =>
    rw [rankBlock]
    rcases List.mem_cons.1 hs with rfl | hs
    · apply Nat.le_max_left
    · exact Nat.le_trans (ih hs) (Nat.le_max_right _ _)

theorem topSeq_le_topBlock (ranks : Rule → Nat) (hs : s ∈ block) : topSeq ranks s ≤ topBlock ranks block := by
  induction block with
  | nil => cases hs
  | cons t b ih =>
    rw [topBlock]
    rcases List.mem_cons.1 hs with rfl | hs
    · apply Nat.le_max_left
    · exact Nat.le_trans (ih hs) (Nat.le_max_right _ _)

theorem topSeq_append_le :
    topSeq ranks (ps ++ rest) ≤ max (topSeq ranks ps + rankSeq ranks rest) (topSeq ranks rest) := by
  induction ps with
  | nil => exact Nat.le_max_right _ _
  | cons p ps ih =>
    have hrank : rankSeq ranks (ps ++ rest) ≤ rankSeq ranks ps + rankSeq ranks rest := rankSeq_append_le
    simp only [List.cons_append, topSeq]
    omega

mutual

theorem Part.rank_le_top (p : Part) : p.rank ranks ≤ p.top ranks := by
  cases p with
  | token | oneOf | call | guard => exact Nat.le_refl _
  | choice p b => exact Nat.add_le_add_left (rankBlock_le_topBlock b) 1
  | option p b => exact Nat.add_le_add_left (rankBlock_le_topBlock b) 1
  | loop p shape again body => exact Nat.le_add_right _ _
  | operators p again b => exact Nat.le_add_right _ _

theorem rankSeq_le_topSeq (ps : List Part) : rankSeq ranks ps ≤ topSeq ranks ps := by
  cases ps with
  | nil => exact Nat.le_refl _
  | cons p ps =>
    have hp := p.rank_le_top
    rw [rankSeq, topSeq]
    split <;> omega

theorem rankBlock_le_topBlock (b : List (List Part)) : rankBlock ranks b ≤ topBlock ranks b := by
  cases b with
  | nil => exact Nat.le_refl _
  | cons s b =>
    have hs := rankSeq_le_topSeq s
    have hb := rankBlock_le_topBlock b
    rw [rankBlock, topBlock]
    omega

end

/-- What is left to read after a step that reads no token. -/
structure Nearer (ranks : Rule → Nat) (ps qs : List Part) : Prop where
  rank : rankSeq ranks qs < rankSeq ranks ps
  top : topSeq ranks qs ≤ topSeq ranks ps
  skips : skipsSeq qs = true → skipsSeq ps = true

namespace Nearer

variable {place : Place} {shape : Loop} {again : Bool}

theorem past (hp : p.skips = true) : Nearer ranks (p :: rest) rest where
  rank := by
    have hone : 1 ≤ p.rank ranks := one_le_rank
    rw [rankSeq, hp, if_pos rfl]
    omega
  top := Nat.le_max_right _ _
  skips h := by rw [skipsSeq_cons, hp, h]; rfl

/-- A sequence of a block before what follows the block. -/
theorem alternative (hs : s ∈ block) (hrank : p.rank ranks = 1 + rankBlock ranks block)
    (htop : p.top ranks = 1 + topBlock ranks block) (hskips : skipsSeq s = true → p.skips = true) :
    Nearer ranks (p :: rest) (s ++ rest) where
  rank := by
    have hle := rankSeq_le_rankBlock ranks hs
    rw [rankSeq]
    cases hp : p.skips with
    | true =>
      have happ : rankSeq ranks (s ++ rest) ≤ rankSeq ranks s + rankSeq ranks rest := rankSeq_append_le
      rw [if_pos rfl]
      omega
    | false =>
      rw [rankSeq_append_of_skips (by simpa [hp] using hskips), if_neg (by decide)]
      omega
  top := by
    have hle := topSeq_le_topBlock ranks hs
    have happ : topSeq ranks (s ++ rest) ≤ _ := topSeq_append_le
    rw [topSeq]
    omega
  skips h := by
    rw [skipsSeq_append, Bool.and_eq_true] at h
    rw [skipsSeq_cons, hskips h.1, h.2]
    rfl

theorem choice (hs : s ∈ block) : Nearer ranks (.choice place block :: rest) (s ++ rest) :=
  alternative hs rfl rfl (skipsBlock_of_mem hs)

theorem option (hs : s ∈ block) : Nearer ranks (.option place block :: rest) (s ++ rest) :=
  alternative hs rfl rfl fun _ ↦ rfl

/-- A round that passes a token, before more rounds. -/
theorem round {q : Part} (hs : skipsSeq s = false) (hrank : rankSeq ranks s < p.rank ranks)
    (hskips : q.skips = true) (htop : topSeq ranks s + q.rank ranks ≤ p.top ranks)
    (hq : q.top ranks ≤ p.top ranks) : Nearer ranks (p :: rest) (s ++ q :: rest) where
  rank := by
    rw [rankSeq_append_of_skips hs, rankSeq]
    omega
  top := by
    have happ : topSeq ranks (s ++ q :: rest) ≤ _ := topSeq_append_le
    rw [rankSeq, hskips, if_pos rfl, topSeq] at happ
    rw [topSeq]
    omega
  skips h := by
    rw [skipsSeq_append, hs] at h
    cases h

theorem loop (hs : skipsSeq s = false) :
    Nearer ranks (.loop place shape again s :: rest) (s ++ .loop place shape true s :: rest) :=
  round hs (by rw [Part.rank]; omega) rfl (by rw [Part.rank, Part.top]; omega) (Nat.le_refl _)

theorem operators (hs : s ∈ block) (hskips : skipsSeq s = false) :
    Nearer ranks (.operators place again block :: rest)
      (s ++ .operators place true block :: rest) := by
  have hrank := rankSeq_le_rankBlock ranks hs
  have htop := topSeq_le_topBlock ranks hs
  exact round hskips (by rw [Part.rank]; omega) rfl (by rw [Part.rank, Part.top]; omega)
    (Nat.le_refl _)

end Nearer

end

/-- The steps that the rules of a grammar take to their first tokens, and a bound on the ranks of
all sequences that come up. -/
structure Grammar.Paced (g : Grammar) (ranks : Rule → Nat) (most : Nat) : Prop where
  rank (r : Rule) : rankSeq ranks (g.body r) ≤ ranks r
  top (r : Rule) : topSeq ranks (g.body r) ≤ most
  skips (r : Rule) : skipsSeq (g.body r) = true → r = .parse

/-- Steps of a rule to its first token, through at most `n` calls. -/
def Rule.rank : Nat → Rule → Nat
  | 0, _ => 0
  | n + 1, r => rankSeq (Rule.rank n) r.body

theorem Rule.mem_all (r : Rule) : r ∈ Rule.all := List.mem_of_getElem? r.getElem?_all

/-- No rule calls itself, through others or not, before it has read a token. -/
theorem Grammar.sql_paced : Grammar.sql.Paced (Rule.rank 6) 4096 := by
  have hrules : Rule.all.all fun r ↦ decide (rankSeq (Rule.rank 6) r.body ≤ Rule.rank 6 r) &&
      decide (topSeq (Rule.rank 6) r.body ≤ 4096) && (!skipsSeq r.body || r == .parse) := by
    decide +kernel
  have hrule := fun r ↦ List.all_eq_true.1 hrules r r.mem_all
  simp only [Bool.and_eq_true, decide_eq_true_eq, Bool.or_eq_true, Bool.not_eq_true',
    beq_iff_eq] at hrule
  refine ⟨fun r ↦ ?_, fun r ↦ ?_, fun r ↦ ?_⟩ <;> rw [sql, body_ofBodies]
  · exact (hrule r).1.1
  · exact (hrule r).1.2
  · intro h
    exact (hrule r).2.resolve_left (by simp [h])

end PlanCache

import Mathlib.Computability.Language
import Mathlib.Order.CompletePartialOrder
import PlanCache.Sql.Grammar
import PlanCache.Sql.Symbols

/-!
The right-hand sides of the grammar as languages. A word lists the children of a node, tokens by
kind and nodes by rule. Where places are numbered or operands marked, the words stay the same.
-/

namespace PlanCache

open scoped Computability

mutual

/-- The words of a part. An operator adds no child to a node: it begins a node of its own. -/
def Part.words : Part → Language Symbol
  | .token _ k _ => {[.kind k]}
  | .oneOf _ ks _ => {w | ∃ k, ks.contains k = true ∧ w = [.kind k]}
  | .call _ r _ _ _ => {[.rule r]}
  | .guard _ _ => 1
  | .choice _ b => wordsBlock b
  | .option _ b => 1 + wordsBlock b
  | .loop _ shape again body =>
    if shape.nonempty && !again then wordsSeq body * (wordsSeq body)∗ else (wordsSeq body)∗
  | .operators _ _ _ => 1

def wordsSeq : List Part → Language Symbol
  | [] => 1
  | p :: ps => p.words * wordsSeq ps

def wordsBlock : List (List Part) → Language Symbol
  | [] => 0
  | s :: b => wordsSeq s + wordsBlock b

end

/-- The words of a rule. A node of an operator has its left operand as first child. -/
def Rule.words (r : Rule) : Language Symbol :=
  wordsBlock r.production.block + {[.rule r]} * wordsBlock r.production.operators

section Words

variable {p : Part} {s parts rest : List Part} {block : List (List Part)} {w : List Symbol}

@[simp] theorem wordsSeq_nil : wordsSeq [] = 1 := rfl

@[simp] theorem wordsSeq_cons : wordsSeq (p :: parts) = p.words * wordsSeq parts := rfl

@[simp] theorem wordsBlock_nil : wordsBlock [] = 0 := rfl

@[simp] theorem wordsBlock_cons : wordsBlock (s :: block) = wordsSeq s + wordsBlock block := rfl

@[simp] theorem wordsSeq_append : wordsSeq (parts ++ rest) = wordsSeq parts * wordsSeq rest := by
  induction parts with
  | nil => simp
  | cons p ps ih => simp [ih, mul_assoc]

theorem mem_wordsBlock : w ∈ wordsBlock block ↔ ∃ s ∈ block, w ∈ wordsSeq s := by
  induction block with
  | nil => simp
  | cons s b ih => rw [wordsBlock_cons, Language.mem_add, ih, List.exists_mem_cons_iff]

theorem wordsSeq_le_wordsBlock (hs : s ∈ block) : wordsSeq s ≤ wordsBlock block :=
  fun _ hw ↦ mem_wordsBlock.2 ⟨s, hs, hw⟩

variable {place : Place} {shape : Loop} {again : Bool}

theorem words_choice : (Part.choice place block).words = wordsBlock block := rfl

theorem words_option : (Part.option place block).words = 1 + wordsBlock block := rfl

theorem words_loop : (Part.loop place shape again parts).words =
    if shape.nonempty && !again then wordsSeq parts * (wordsSeq parts)∗ else (wordsSeq parts)∗ := rfl

theorem words_operators : (Part.operators place again block).words = 1 := rfl

theorem words_choice_le (hs : s ∈ block) :
    wordsSeq (s ++ rest) ≤ wordsSeq (.choice place block :: rest) := by
  rw [wordsSeq_append, wordsSeq_cons, words_choice]
  gcongr
  exact wordsSeq_le_wordsBlock hs

theorem words_option_le (hs : s ∈ block) :
    wordsSeq (s ++ rest) ≤ wordsSeq (.option place block :: rest) := by
  rw [wordsSeq_append, wordsSeq_cons, words_option]
  gcongr
  exact le_add_left (wordsSeq_le_wordsBlock hs)

theorem words_rest_le_option : wordsSeq rest ≤ wordsSeq (.option place block :: rest) := by
  rw [wordsSeq_cons, words_option, add_mul, one_mul]
  exact le_add_right le_rfl

theorem words_round_le :
    wordsSeq (parts ++ .loop place shape true parts :: rest) ≤
      wordsSeq (.loop place shape again parts :: rest) := by
  simp only [wordsSeq_append, wordsSeq_cons, words_loop, Bool.not_true, Bool.and_false,
    Bool.false_eq_true, if_false, ← mul_assoc]
  gcongr
  split
  · exact le_rfl
  · exact mul_kstar_le_kstar

theorem words_rest_le_loop (h : (shape.nonempty && !again) = false) :
    wordsSeq rest ≤ wordsSeq (.loop place shape again parts :: rest) := by
  rw [wordsSeq_cons, words_loop, h, if_neg (by decide)]
  exact le_mul_of_one_le_left' one_le_kstar

end Words

section Numbered

mutual

theorem Part.words_numbered (p : Part) (n : Nat) : (p.numbered n).1.words = p.words := by
  cases p with
  | token | oneOf | call | guard => rfl
  | choice p b => simp only [Part.numbered, words_choice, wordsBlock_numbered b]
  | option p b => simp only [Part.numbered, words_option, wordsBlock_numbered b]
  | loop p shape again body => simp only [Part.numbered, words_loop, wordsSeq_numbered body]
  | operators p again b => rfl

theorem wordsSeq_numbered (ps : List Part) (n : Nat) : wordsSeq (numberedSeq n ps).1 = wordsSeq ps := by
  cases ps with
  | nil => rw [numberedSeq]
  | cons p ps => simp only [numberedSeq, wordsSeq_cons, p.words_numbered, wordsSeq_numbered ps]

theorem wordsBlock_numbered (b : List (List Part)) (n : Nat) :
    wordsBlock (numberedBlock n b).1 = wordsBlock b := by
  cases b with
  | nil => rw [numberedBlock]
  | cons s b => simp only [numberedBlock, wordsBlock_cons, wordsSeq_numbered s, wordsBlock_numbered b]

end

theorem numberedSeq_append (ps qs : List Part) (n : Nat) :
    (numberedSeq n (ps ++ qs)).1 =
      (numberedSeq n ps).1 ++ (numberedSeq (numberedSeq n ps).2 qs).1 := by
  induction ps generalizing n with
  | nil => rfl
  | cons p ps ih => simp only [List.cons_append, numberedSeq, ih]

theorem wordsSeq_markTail (r : Rule) (ps : List Part) : wordsSeq (markTail r ps) = wordsSeq ps := by
  fun_induction markTail r ps with
  | case1 => rfl
  | case2 p q lv t l => rfl
  | case3 p ps _ ih => rw [wordsSeq_cons, wordsSeq_cons, ih]

theorem wordsBlock_markTail (r : Rule) (b : List (List Part)) :
    wordsBlock (b.map (markTail r)) = wordsBlock b := by
  induction b with
  | nil => rfl
  | cons s b ih => rw [List.map_cons, wordsBlock_cons, wordsBlock_cons, wordsSeq_markTail, ih]

end Numbered

namespace Production

/-- What is read before the operators. -/
def start (p : Production) : List Part :=
  match p.block with
  | [only] => only
  | block => [Part.choice 0 block]

theorem wordsSeq_start (p : Production) : wordsSeq p.start = wordsBlock p.block := by
  unfold start
  split
  · rename_i only h
    rw [h, wordsBlock_cons, wordsBlock_nil, add_zero]
  · rw [wordsSeq_cons, words_choice, wordsSeq_nil, mul_one]

/-- A right-hand side with the operands that end a sequence of `r` marked. -/
def marked (p : Production) (r : Rule) : Production :=
  if p.operators.isEmpty then p else ⟨p.block.map (markTail r), p.operators.map (markTail r)⟩

theorem wordsBlock_marked (p : Production) (r : Rule) :
    wordsBlock (p.marked r).block = wordsBlock p.block := by
  unfold marked
  split
  · rfl
  · exact wordsBlock_markTail r p.block

theorem wordsBlock_operators_marked (p : Production) (r : Rule) :
    wordsBlock (p.marked r).operators = wordsBlock p.operators := by
  unfold marked
  split
  · rfl
  · exact wordsBlock_markTail r p.operators

end Production

namespace Rule

/-- What a rule reads before its operators. -/
def lead (r : Rule) : List Part :=
  (numberedSeq (r.ctorIdx * Place.span) (r.production.marked r).start).1

theorem wordsSeq_lead (r : Rule) : wordsSeq r.lead = wordsBlock r.production.block := by
  rw [lead, wordsSeq_numbered, Production.wordsSeq_start, Production.wordsBlock_marked]

theorem body_cases (r : Rule) :
    r.body = r.lead ∨ ∃ p block, r.body = r.lead ++ [.operators p false block] ∧
      wordsBlock block = wordsBlock r.production.operators := by
  have hbody : r.body = (numberedSeq (r.ctorIdx * Place.span) (r.production.marked r).parts).1 := rfl
  have hparts : (r.production.marked r).parts =
      if (r.production.marked r).operators.isEmpty then (r.production.marked r).start else
        (r.production.marked r).start ++ [.operators 0 false (r.production.marked r).operators] := rfl
  rw [hbody, hparts, ← r.production.wordsBlock_operators_marked r]
  split
  · exact .inl rfl
  · rw [numberedSeq_append]
    exact .inr ⟨_, _, rfl, wordsBlock_numbered _ _⟩

theorem wordsSeq_body_le (r : Rule) : wordsSeq r.body ≤ r.words := by
  have hlead : wordsSeq r.lead ≤ r.words := by
    rw [wordsSeq_lead]
    exact le_add_right le_rfl
  obtain h | ⟨p, block, h, -⟩ := r.body_cases
  · rw [h]
    exact hlead
  · rw [h, wordsSeq_append, wordsSeq_cons, words_operators, wordsSeq_nil, mul_one, mul_one]
    exact hlead

end Rule

end PlanCache

import PlanCache.Sql.Kind

/-!
Sets of token kinds, one bit a kind.
-/

namespace PlanCache

/-- Bit `i` says whether the `i`-th kind belongs to the set. -/
structure KindSet where
  bits : Nat
deriving DecidableEq, Repr, Inhabited

namespace KindSet

def empty : KindSet := ⟨0⟩

def single (k : Kind) : KindSet := ⟨1 <<< k.ctorIdx⟩

def union (s t : KindSet) : KindSet := ⟨s.bits ||| t.bits⟩

def inter (s t : KindSet) : KindSet := ⟨s.bits &&& t.bits⟩

def contains (s : KindSet) (k : Kind) : Bool := s.bits.testBit k.ctorIdx

def isEmpty (s : KindSet) : Bool := s.bits == 0

def ofList (ks : List Kind) : KindSet := ks.foldl (fun s k ↦ s.union (single k)) empty

def toList (s : KindSet) : List Kind := Kind.all.filter s.contains

def first? (s : KindSet) : Option Kind := Kind.all.find? s.contains

/-- A set as it is listed in a message: bare if it is one kind, in braces otherwise. -/
def listed (s : KindSet) : String :=
  match s.toList.map Kind.listed with
  | [k] => k
  | ks => "\x7b" ++ String.intercalate ", " ks ++ "\x7d"

end KindSet

end PlanCache

import MountRegistry.Text.Cut

/-
  Paths to the nodes of a data tree. In text the segments stand between slashes, and slashes at the
  ends or next to one another count for nothing. Two paths overlap when one begins with the other,
  that is, when the node of one contains the node of the other.
-/

namespace MountRegistry

/-- A place in the data of a store, by the names that lead to it from the root. -/
structure DataPath where
  segments : List String
  deriving DecidableEq, Repr, Inhabited

namespace DataPath

/-- The path of the whole tree. -/
def root : DataPath := ⟨[]⟩

/-- Whether no name leads from the root. -/
def isRoot (p : DataPath) : Bool := p.segments.isEmpty

/-- Reads a path. Slashes at either end and doubled ones do not count. -/
def parse (text : String) : DataPath :=
  ⟨((Text.fields '/' text.toList).filter (!·.isEmpty)).map String.ofList⟩

/-- The path as answers and failures write it, always with a slash before it. -/
def toString (p : DataPath) : String := "/" ++ String.intercalate "/" p.segments

/-- The first segment, which names a data node at the top. -/
def top? (p : DataPath) : Option String := p.segments.head?

/-- The path with another first segment; the root has none. -/
def withTop (p : DataPath) (name : String) : DataPath :=
  match p.segments with
  | [] => p
  | _ :: rest => ⟨name :: rest⟩

/-- Whether the node of `p` is or contains the node of `q`. -/
def isAbove (p q : DataPath) : Bool := p.segments.isPrefixOf q.segments

/-- Whether one of the paths is above the other, or they are the same. -/
def overlaps (p q : DataPath) : Bool := p.isAbove q || q.isAbove p

/-- Segment by segment, a path before the paths that it begins. -/
def order (p q : DataPath) : Ordering := compareLex p.segments q.segments
where
  compareLex : List String → List String → Ordering
  | [], [] => .eq
  | [], _ :: _ => .lt
  | _ :: _, [] => .gt
  | a :: p, b :: q => (compare a b).then (compareLex p q)

theorem overlaps_comm (p q : DataPath) : p.overlaps q = q.overlaps p := by
  simp [overlaps, Bool.or_comm]

end DataPath

end MountRegistry

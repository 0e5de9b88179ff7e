import DualDynamic.CutPool

/-!
# Walking through a pool

A cursor yields the active cuts of a pool one by one while cuts are being stored. It decides when
it is opened whether it skips cuts at all: not if every cut was active then. It looks at a cut only
when it comes to it, so that it sees cuts stored after it was opened. Once it has come to the
end it stays there.
-/

namespace DualDynamic.CutPool

/-- A position in a pool that may grow. -/
structure Cursor where
  /-- Whether retired cuts are passed over. -/
  skips : Bool
  /-- The position of the cut to look at next. -/
  position : Nat
  /-- Whether the end has been reached. -/
  ended : Bool
  deriving Repr, DecidableEq

namespace Cursor

variable {K : Type} [Scalar K]

/-- A cursor in front of the first cut. -/
def onto (p : CutPool K) : Cursor := ⟨p.isSelective, 0, false⟩

/-- The positions from `start` on at which the cursor stops. -/
def stops (p : CutPool K) (skips : Bool) (start : Nat) : List Nat :=
  (List.range p.size).filter fun i => start ≤ i && (!skips || p.isBest i)

/-- The position and the cut that come next, and the cursor behind it. -/
def next (p : CutPool K) (c : Cursor) : Option (Nat × Cut K) × Cursor :=
  if c.ended then (none, c)
  else
    match (stops p c.skips c.position).head? with
    | none => (none, { c with position := p.size, ended := true })
    | some i =>
      match p.cuts[i]? with
      | none => (none, { c with position := p.size, ended := true })
      | some cut => (some (i, cut), { c with position := i + 1 })

end Cursor

end DualDynamic.CutPool

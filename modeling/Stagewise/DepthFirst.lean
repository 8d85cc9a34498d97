/-
Depth-first order. From each of some starting points a search goes along
`next` to everything not met yet, and puts a point before all that was
completed until then once it has gone everywhere from it. So a point comes
before whatever is found behind it, unless that was completed earlier.
-/
namespace Stagewise.DepthFirst

variable {α : Type} [BEq α]

/-- The points met so far, and those completed, the last one first. -/
structure Trail (α : Type) where
  met : List α := []
  order : List α := []

/-- Search from a point. `fuel` bounds the depth. -/
def search (next : α → List α) : Nat → Trail α → α → Trail α
  | 0, p, _ => p
  | fuel + 1, p, a =>
      if p.met.contains a then p
      else
        let p := (next a).foldl (search next fuel) { p with met := a :: p.met }
        { p with order := a :: p.order }

/-- The points found from `starts`, each before those found behind it.
`size` is the number of points there are. -/
def order (next : α → List α) (size : Nat) (starts : List α) : List α :=
  (starts.foldl (search next (size + 1)) {}).order

end Stagewise.DepthFirst

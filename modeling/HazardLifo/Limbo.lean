import HazardLifo.Address

/-!
# Limbo

Nodes that were unlinked from a stack while some slot published them wait in limbo. The list of
entries grows at its head. A sweep detaches the whole list and walks it from its head: a node that
nothing publishes any more is freed, any other is put back on the head of the (by then empty) list.
So what stays behind comes out reversed, and two sweeps restore the order.

The length is counted beside the list, in a machine word.
-/

namespace HazardLifo

structure Limbo where
  entries : List Block := []
  /-- The number of waiting nodes, as counted. -/
  gauge : UInt64 := 0
  deriving DecidableEq, Repr, Inhabited

namespace Limbo

/-- Puts a node on the head of the list and counts it. -/
def retire (L : Limbo) (b : Block) : Limbo := ⟨b :: L.entries, L.gauge + 1⟩

/-- What a sweep has done so far. -/
structure Progress where
  kept : List Block := []
  /-- The freed nodes, the latest first. -/
  freed : List Block := []
  deriving DecidableEq, Repr, Inhabited

def Progress.visit (published : Block → Bool) (p : Progress) (b : Block) : Progress :=
  if published b then { p with kept := b :: p.kept } else { p with freed := b :: p.freed }

/-- Walks a detached list from its head. -/
def walk (published : Block → Bool) (entries : List Block) : Progress :=
  entries.foldl (·.visit published) {}

/-- The list after a sweep, and the nodes it freed in the order of freeing. -/
def sweep (L : Limbo) (published : Block → Bool) : Limbo × List Block :=
  let p := walk published L.entries
  (⟨p.kept, L.gauge - UInt64.ofNat p.freed.length⟩, p.freed.reverse)

theorem foldl_visit (published : Block → Bool) (entries : List Block) (p : Progress) :
    entries.foldl (·.visit published) p =
      ⟨(entries.filter published).reverse ++ p.kept,
        (entries.filter (!published ·)).reverse ++ p.freed⟩ := by
  induction entries generalizing p with
  | nil => simp
  | cons b rest ih =>
    rw [List.foldl_cons, ih]
    by_cases h : published b <;> simp [Progress.visit, h]

theorem walk_eq (published : Block → Bool) (entries : List Block) :
    walk published entries =
      ⟨(entries.filter published).reverse, (entries.filter (!published ·)).reverse⟩ := by
  simp [walk, foldl_visit]

/-- A sweep keeps what is published, reversed, and frees the rest in order. -/
theorem sweep_eq (L : Limbo) (published : Block → Bool) :
    L.sweep published =
      (⟨(L.entries.filter published).reverse,
        L.gauge - UInt64.ofNat (L.entries.filter (!published ·)).length⟩,
        L.entries.filter (!published ·)) := by
  simp [sweep, walk_eq]

end Limbo

end HazardLifo

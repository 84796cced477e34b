/-
Trees of blocks that grow, move their head and are cut. General library: nothing here names a program.

A tree is a set of blocks with a head among them (`BlockTree`). A block that is valid on one of its blocks is added, a
block that may be taken on trust is added as the new head, a block of the tree becomes the head, and the blocks below
one of its blocks are cut off. `Moves` is a sequence of such steps.

- `Moves.kept`: a block stays as long as the tree is not cut above it.
- `Moves.rooted`: every block descends, each block valid on the one before, from one of the first tree or one taken on
  trust.
-/
import Mathlib.Tactic
import Mathlib.Logic.Relation

/-- a set of blocks with a head among them -/
structure BlockTree (B : Type*) where
  blocks : Set B
  head : B
  head_mem : head ∈ blocks

namespace BlockTree

variable {B : Type*}

/-- what a tree may be extended by, and where it may be cut -/
structure Rules (B : Type*) where
  height : B → ℕ
  /-- the second block is valid on the first -/
  Valid : B → B → Prop
  Trusted : B → Prop
  CutsAt : B → Prop

def extend (t : BlockTree B) (block : B) : BlockTree B :=
  ⟨insert block t.blocks, t.head, Set.mem_insert_of_mem block t.head_mem⟩

def adopt (t : BlockTree B) (block : B) : BlockTree B := ⟨insert block t.blocks, block, Set.mem_insert block t.blocks⟩

/-- the blocks from a height on -/
def cut (t : BlockTree B) (height : B → ℕ) (n : ℕ) (h : n ≤ height t.head) : BlockTree B :=
  ⟨{block ∈ t.blocks | n ≤ height block}, t.head, t.head_mem, h⟩

inductive Step (R : Rules B) (t : BlockTree B) : BlockTree B → Prop
  | extend {parent block : B} (hp : parent ∈ t.blocks) (hv : R.Valid parent block) : Step R t (t.extend block)
  | adopt {block : B} (htrusted : R.Trusted block) : Step R t (t.adopt block)
  | choose {block : B} (h : block ∈ t.blocks) : Step R t ⟨t.blocks, block, h⟩
  | cut {root : B} (hroot : root ∈ t.blocks) (hcut : R.CutsAt root) (hle : R.height root ≤ R.height t.head) :
      Step R t (t.cut R.height (R.height root) hle)

/-- a sequence of steps -/
abbrev Moves (R : Rules B) : BlockTree B → BlockTree B → Prop := Relation.ReflTransGen (Step R)

variable {R : Rules B} {t t' : BlockTree B}

/-- **A block stays** as long as the tree is not cut above it. -/
theorem Moves.kept (h : Moves R t t') {block : B} (hcut : ∀ root, R.CutsAt root → R.height root ≤ R.height block)
    (hmem : block ∈ t.blocks) : block ∈ t'.blocks := by
  induction h with
  | refl => exact hmem
  | tail _ hstep ih =>
    cases hstep with
    | extend => exact Set.mem_insert_of_mem _ ih
    | adopt => exact Set.mem_insert_of_mem _ ih
    | choose => exact ih
    | cut _ hat => exact ⟨ih, hcut _ hat⟩

/-- **Every block has its origin** in the first tree or in a block taken on trust. -/
theorem Moves.rooted (h : Moves R t t') {block : B} (hmem : block ∈ t'.blocks) :
    ∃ root, (root ∈ t.blocks ∨ R.Trusted root) ∧ Relation.ReflTransGen R.Valid root block := by
  induction h generalizing block with
  | refl => exact ⟨block, Or.inl hmem, .refl⟩
  | tail _ hstep ih =>
    cases hstep with
    | extend hp hv =>
      rcases hmem with rfl | hmem
      · obtain ⟨root, hroot, hpath⟩ := ih hp
        exact ⟨root, hroot, hpath.tail hv⟩
      · exact ih hmem
    | adopt htrusted =>
      rcases hmem with rfl | hmem
      · exact ⟨block, Or.inr htrusted, .refl⟩
      · exact ih hmem
    | choose => exact ih hmem
    | cut => exact ih hmem.1

end BlockTree

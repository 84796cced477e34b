/-
Finite maps and the order in which sets are iterated. General library: nothing here names a program.

- `FMap K V`: a finite map, over Mathlib's `Finmap`, with `get`, `set`, `del` and one `get` lemma for each operation.
  Two maps with the same `get` are equal (`FMap.ext`), so a statement about `get` is a statement about the map.
- `retain`: keep and rewrite entries, key by key. `delAll`: delete a set of keys.
- `firstKey`: the least key of an ordered map.
- `weight`: a measure summed over the entries, for loops that consume a map.
- `Enumeration`: an order in which finite sets are iterated. Hash sets have no order of their own, so a result about
  code that loops over one is stated for every `Enumeration`.
-/
import Mathlib.Data.Finmap
import Mathlib.Data.Finset.Max
import Mathlib.Data.List.Sort
import Mathlib.Algebra.BigOperators.Group.Finset.Basic
import Mathlib.Algebra.Order.BigOperators.Group.Finset
import Mathlib.Tactic

/-! ## Finite maps -/

/-- a finite map from `K` to `V` -/
structure FMap (K V : Type) where
  toFinmap : Finmap fun _ : K => V

namespace FMap

variable {K V : Type} [DecidableEq K]

def get (m : FMap K V) (k : K) : Option V := m.toFinmap.lookup k

def keys (m : FMap K V) : Finset K := m.toFinmap.keys

def set (m : FMap K V) (k : K) (v : V) : FMap K V := ⟨m.toFinmap.insert k v⟩

def del (m : FMap K V) (k : K) : FMap K V := ⟨m.toFinmap.erase k⟩

instance : EmptyCollection (FMap K V) := ⟨⟨∅⟩⟩

omit [DecidableEq K] in
theorem ext_toFinmap {m m' : FMap K V} (h : m.toFinmap = m'.toFinmap) : m = m' := by
  cases m; cases m'; exact congrArg _ h

/-- maps with the same lookups are equal -/
@[ext] theorem ext {m m' : FMap K V} (h : ∀ k, m.get k = m'.get k) : m = m' :=
  ext_toFinmap (Finmap.ext_lookup h)

theorem mem_keys {m : FMap K V} {k : K} : k ∈ m.keys ↔ ∃ v, m.get k = some v := by
  simp only [keys, get]
  rw [Finmap.mem_keys, Finmap.mem_iff]

theorem mem_keys_of_get {m : FMap K V} {k : K} {v : V} (h : m.get k = some v) : k ∈ m.keys := mem_keys.2 ⟨v, h⟩

theorem get_of_notMem_keys {m : FMap K V} {k : K} (h : k ∉ m.keys) : m.get k = none := by
  cases hk : m.get k with
  | none => rfl
  | some v => exact absurd (mem_keys_of_get hk) h

theorem retain_keys (f : K → V → Option V) (m : FMap K V) (k : K) :
    ((m.get k).bind (f k)).isSome ↔ k ∈ m.keys.filter fun k => ((m.get k).bind (f k)).isSome := by
  refine ⟨fun h => Finset.mem_filter.2 ⟨?_, h⟩, fun h => (Finset.mem_filter.1 h).2⟩
  cases hk : m.get k with
  | none => simp [hk] at h
  | some v => exact mem_keys_of_get hk

/-- keep the entries on which `f` answers, with the value it answers -/
def retain (f : K → V → Option V) (m : FMap K V) : FMap K V :=
  ⟨Finmap.keysLookupEquiv.symm
    ⟨(m.keys.filter fun k => ((m.get k).bind (f k)).isSome, fun k => (m.get k).bind (f k)), retain_keys f m⟩⟩

/-- delete every key of a set -/
def delAll (m : FMap K V) (s : Finset K) : FMap K V := m.retain fun k v => if k ∈ s then none else some v

@[simp] theorem get_empty (k : K) : (∅ : FMap K V).get k = none := Finmap.lookup_empty k

omit [DecidableEq K] in
@[simp] theorem keys_empty : (∅ : FMap K V).keys = ∅ := Finmap.keys_empty

theorem get_set (m : FMap K V) (k k' : K) (v : V) : (m.set k v).get k' = if k' = k then some v else m.get k' := by
  split_ifs with h
  · subst h; exact Finmap.lookup_insert _
  · exact Finmap.lookup_insert_of_ne _ h

@[simp] theorem get_set_self (m : FMap K V) (k : K) (v : V) : (m.set k v).get k = some v := by simp [get_set]

theorem get_set_ne (m : FMap K V) {k k' : K} (v : V) (h : k' ≠ k) : (m.set k v).get k' = m.get k' := by
  simp [get_set, h]

theorem get_del (m : FMap K V) (k k' : K) : (m.del k).get k' = if k' = k then none else m.get k' := by
  split_ifs with h
  · subst h; exact Finmap.lookup_erase _ _
  · exact Finmap.lookup_erase_ne h

@[simp] theorem get_del_self (m : FMap K V) (k : K) : (m.del k).get k = none := by simp [get_del]

theorem get_del_ne (m : FMap K V) {k k' : K} (h : k' ≠ k) : (m.del k).get k' = m.get k' := by simp [get_del, h]

theorem set_comm (m : FMap K V) {k k' : K} (v v' : V) (h : k ≠ k') : (m.set k v).set k' v' = (m.set k' v').set k v := by
  ext1 j
  simp only [get_set]
  split_ifs with hk' hk
  · exact absurd (hk.symm.trans hk') h
  all_goals rfl

theorem del_comm (m : FMap K V) (k k' : K) : (m.del k).del k' = (m.del k').del k := by
  ext1 j
  simp only [get_del]
  split_ifs <;> rfl

theorem get_del_some {m : FMap K V} {k k' : K} {v : V} (h : (m.del k).get k' = some v) :
    k' ≠ k ∧ m.get k' = some v := by
  rw [get_del] at h
  split_ifs at h with hk
  exact ⟨hk, h⟩

@[simp] theorem get_retain (f : K → V → Option V) (m : FMap K V) (k : K) :
    (m.retain f).get k = (m.get k).bind (f k) := by
  simp [retain, get]

theorem get_delAll (m : FMap K V) (s : Finset K) (k : K) :
    (m.delAll s).get k = if k ∈ s then none else m.get k := by
  simp only [delAll]
  rw [get_retain]
  cases m.get k <;> split_ifs <;> simp_all

theorem get_delAll_some {m : FMap K V} {s : Finset K} {k : K} {v : V} (h : (m.delAll s).get k = some v) :
    k ∉ s ∧ m.get k = some v := by
  rw [get_delAll] at h
  split_ifs at h with hk
  exact ⟨hk, h⟩

@[simp] theorem keys_set (m : FMap K V) (k : K) (v : V) : (m.set k v).keys = insert k m.keys := by
  ext k'
  simp only [mem_keys, get_set, Finset.mem_insert]
  by_cases h : k' = k <;> simp [h]

@[simp] theorem keys_del (m : FMap K V) (k : K) : (m.del k).keys = m.keys.erase k := Finmap.keys_erase _ _

/-! ## The first key of an ordered map -/

section FirstKey

variable {K V : Type} [LinearOrder K]

/-- the least key -/
def firstKey (m : FMap K V) : Option K := if h : m.keys.Nonempty then some (m.keys.min' h) else none

theorem firstKey_some {m : FMap K V} {k : K} (h : m.firstKey = some k) : k ∈ m.keys ∧ ∀ k' ∈ m.keys, k ≤ k' := by
  simp only [firstKey] at h
  split_ifs at h with hne
  simp only [Option.some.injEq] at h
  subst h
  exact ⟨Finset.min'_mem _ _, fun k' hk' => Finset.min'_le _ _ hk'⟩

theorem firstKey_none {m : FMap K V} (h : m.firstKey = none) : m.keys = ∅ := by
  simp only [firstKey] at h
  split_ifs at h with hne
  exact Finset.not_nonempty_iff_eq_empty.1 hne

end FirstKey

/-! ## A measure over the entries -/

/-- the sum of `f` over the values -/
def weight (f : V → ℕ) (m : FMap K V) : ℕ := ∑ k ∈ m.keys, ((m.get k).elim 0 f)

theorem weight_del (f : V → ℕ) {m : FMap K V} {k : K} {v : V} (h : m.get k = some v) :
    f v + (m.del k).weight f = m.weight f := by
  simp only [weight]
  rw [keys_del, ← Finset.add_sum_erase m.keys (fun k => (m.get k).elim 0 f) (mem_keys_of_get h)]
  congr 1
  · simp [h]
  · refine Finset.sum_congr rfl fun k' hk' => ?_
    rw [get_del_ne _ (Finset.ne_of_mem_erase hk')]

/-- the measure of a map whose entries shrink does not grow -/
theorem weight_le (f : V → ℕ) {m m' : FMap K V}
    (h : ∀ k v', m'.get k = some v' → ∃ v, m.get k = some v ∧ f v' ≤ f v) : m'.weight f ≤ m.weight f := by
  have hsub : m'.keys ⊆ m.keys := by
    intro k hk
    obtain ⟨v', hv'⟩ := mem_keys.1 hk
    obtain ⟨v, hv, -⟩ := h k v' hv'
    exact mem_keys_of_get hv
  refine (Finset.sum_le_sum fun k hk => ?_).trans (Finset.sum_le_sum_of_subset hsub)
  obtain ⟨v', hv'⟩ := mem_keys.1 hk
  obtain ⟨v, hv, hle⟩ := h k v' hv'
  simpa [hv, hv'] using hle

end FMap

/-! ## Iteration order -/

/-- an order in which every finite set can be iterated: each member once -/
structure Enumeration (α : Type) where
  list : Finset α → List α
  nodup : ∀ s, (list s).Nodup
  mem : ∀ s a, a ∈ list s ↔ a ∈ s

namespace Enumeration

variable {α : Type}

theorem list_singleton (o : Enumeration α) (a : α) : o.list {a} = [a] := by
  have hperm : (o.list {a}).Perm [a] :=
    (List.perm_ext_iff_of_nodup (o.nodup {a}) (List.nodup_singleton a)).2 fun x => by
      rw [o.mem, Finset.mem_singleton, List.mem_singleton]
  exact List.perm_singleton.1 hperm

theorem length_eq (o : Enumeration α) (s : Finset α) : (o.list s).length = s.card := by
  classical
  have h : (o.list s).toFinset = s := by ext a; simp [o.mem]
  rw [← List.toFinset_card_of_nodup (o.nodup s), h]

/-- iterate in increasing order of a key -/
def byKey (key : α → ℕ) (hkey : Function.Injective key) : Enumeration α where
  list s := Quot.lift (fun l : List α => l.insertionSort fun a b => key a ≤ key b)
    (fun l₁ l₂ h => List.Perm.eq_of_pairwise (fun _ _ _ _ hab hba => hkey (le_antisymm hab hba))
      (haveI : Std.Total fun a b : α => key a ≤ key b := ⟨fun a b => le_total (key a) (key b)⟩
       haveI : IsTrans α fun a b => key a ≤ key b := ⟨fun _ _ _ => le_trans⟩
       List.pairwise_insertionSort _ _)
      (haveI : Std.Total fun a b : α => key a ≤ key b := ⟨fun a b => le_total (key a) (key b)⟩
       haveI : IsTrans α fun a b => key a ≤ key b := ⟨fun _ _ _ => le_trans⟩
       List.pairwise_insertionSort _ _)
      (((List.perm_insertionSort _ l₁).trans h).trans (List.perm_insertionSort _ l₂).symm)) s.val
  nodup s := by
    obtain ⟨⟨l⟩, hs⟩ := s
    exact (List.perm_insertionSort _ l).nodup_iff.2 hs
  mem s a := by
    obtain ⟨⟨l⟩, hs⟩ := s
    exact (List.perm_insertionSort _ l).mem_iff

end Enumeration

/-
Lists of keyed writes. General library: nothing here names a program.

A store is written entry by entry, and a write may fail. `Holds s m` says that the store `s` has the content `m`. When
every key is written once and each write that succeeds puts its own value at its key, a whole list that succeeds puts
every entry's value at its key and leaves every other key alone (`foldlM_writes`). `foldlM_ok` is for lists of which
every write is known to succeed. Writes of which any two may change places may come in any order (`foldlM_perm`).

`entries` lists the entries of a finite map in a given order: each key once, with its value.
-/
import Ress.Lib.FiniteMap

namespace Writes

section Fold

variable {σ ε K V W : Type} [DecidableEq K]

/-- **Keyed writes.** The content after a list of writes that all succeed. A write is only asked about a store in which
its key still has the content that it had at the start. -/
theorem foldlM_writes {write : σ → K × V → Except ε σ} (Holds : σ → (K → W) → Prop) (value : K × V → W)
    (m₀ : K → W) {l : List (K × V)} (hnodup : (l.map Prod.fst).Nodup) {s s' : σ} {m : K → W}
    (hwrite : ∀ s s' m, ∀ e ∈ l, Holds s m → m e.1 = m₀ e.1 → write s e = .ok s' →
      Holds s' (Function.update m e.1 (value e)))
    (hm : ∀ e ∈ l, m e.1 = m₀ e.1) (hs : Holds s m) (h : l.foldlM write s = .ok s') :
    ∃ m', Holds s' m' ∧ (∀ e ∈ l, m' e.1 = value e) ∧ ∀ k ∉ l.map Prod.fst, m' k = m k := by
  induction l generalizing s m with
  | nil =>
    cases h
    exact ⟨m, hs, by simp, fun _ _ => rfl⟩
  | cons e l ih =>
    rw [List.map_cons, List.nodup_cons] at hnodup
    rw [List.foldlM_cons] at h
    cases hw : write s e with
    | error error => rw [hw] at h; cases h
    | ok s₁ =>
      rw [hw] at h
      have hs₁ := hwrite s s₁ m e (List.mem_cons_self ..) hs (hm e (List.mem_cons_self ..)) hw
      have hm₁ : ∀ x ∈ l, Function.update m e.1 (value e) x.1 = m₀ x.1 := by
        intro x hx
        have hne : x.1 ≠ e.1 := fun heq => hnodup.1 (heq ▸ List.mem_map_of_mem hx)
        rw [Function.update_of_ne hne]
        exact hm x (List.mem_cons_of_mem _ hx)
      obtain ⟨m', hs', hvalue, hother⟩ := ih hnodup.2
        (fun s s' m x hx => hwrite s s' m x (List.mem_cons_of_mem _ hx)) hm₁ hs₁ h
      refine ⟨m', hs', ?_, ?_⟩
      · intro x hx
        rcases List.mem_cons.1 hx with rfl | hx
        · rw [hother _ hnodup.1, Function.update_self]
        · exact hvalue x hx
      · intro k hk
        rw [List.map_cons, List.mem_cons, not_or] at hk
        rw [hother k hk.2, Function.update_of_ne hk.1]

/-- where every write succeeds, so does the list -/
theorem foldlM_ok {write : σ → K × V → Except ε σ} (Holds : σ → (K → W) → Prop) (value : K × V → W) (m₀ : K → W)
    {l : List (K × V)} (hnodup : (l.map Prod.fst).Nodup) {s : σ} {m : K → W}
    (hwrite : ∀ s m, ∀ e ∈ l, Holds s m → m e.1 = m₀ e.1 →
      ∃ s', write s e = .ok s' ∧ Holds s' (Function.update m e.1 (value e)))
    (hm : ∀ e ∈ l, m e.1 = m₀ e.1) (hs : Holds s m) : ∃ s' m', l.foldlM write s = .ok s' ∧ Holds s' m' := by
  induction l generalizing s m with
  | nil => exact ⟨s, m, rfl, hs⟩
  | cons e l ih =>
    rw [List.map_cons, List.nodup_cons] at hnodup
    obtain ⟨s₁, hw, hs₁⟩ := hwrite s m e (List.mem_cons_self ..) hs (hm e (List.mem_cons_self ..))
    have hm₁ : ∀ x ∈ l, Function.update m e.1 (value e) x.1 = m₀ x.1 := by
      intro x hx
      have hne : x.1 ≠ e.1 := fun heq => hnodup.1 (heq ▸ List.mem_map_of_mem hx)
      rw [Function.update_of_ne hne]
      exact hm x (List.mem_cons_of_mem _ hx)
    obtain ⟨s', m', hfold, hs'⟩ := ih hnodup.2
      (fun s m x hx => hwrite s m x (List.mem_cons_of_mem _ hx)) hm₁ hs₁
    refine ⟨s', m', ?_, hs'⟩
    rw [List.foldlM_cons, hw]
    exact hfold

end Fold

section Order

variable {σ α β ε ε' : Type} {P : ε → Prop} {r r' r'' : Except ε α}

/-- the same result, or on both sides an error that satisfies `P` -/
def Agrees (P : ε → Prop) (r r' : Except ε α) : Prop :=
  r' = r ∨ (∃ e, r = .error e ∧ P e) ∧ ∃ e, r' = .error e ∧ P e

theorem Agrees.refl (P : ε → Prop) (r : Except ε α) : Agrees P r r := Or.inl rfl

theorem Agrees.symm (h : Agrees P r r') : Agrees P r' r := h.imp Eq.symm And.symm

theorem Agrees.trans (h : Agrees P r r') (h' : Agrees P r' r'') : Agrees P r r'' := by
  rcases h with rfl | ⟨hr, hr'⟩
  · exact h'
  · rcases h' with rfl | ⟨-, hr''⟩
    · exact Or.inr ⟨hr, hr'⟩
    · exact Or.inr ⟨hr, hr''⟩

theorem Agrees.ok {a : α} (h : Agrees P r r') (hr : r = .ok a) : r' = .ok a := by
  rcases h with rfl | ⟨⟨e, he, -⟩, -⟩
  · exact hr
  · cases hr.symm.trans he

theorem Agrees.bind {f f' : α → Except ε β} (h : Agrees P r r') (hf : ∀ a, Agrees P (f a) (f' a)) :
    Agrees P (r >>= f) (r' >>= f') := by
  rcases h with rfl | ⟨⟨e, rfl, he⟩, e', rfl, he'⟩
  · cases r' with
    | ok a => exact hf a
    | error e => exact Agrees.refl P _
  · exact Or.inr ⟨⟨e, rfl, he⟩, e', rfl, he'⟩

theorem Agrees.mapError {Q : ε' → Prop} (h : Agrees P r r') {g : ε → ε'} (hg : ∀ e, P e → Q (g e)) :
    Agrees Q (r.mapError g) (r'.mapError g) := by
  rcases h with rfl | ⟨⟨e, rfl, he⟩, e', rfl, he'⟩
  · exact Agrees.refl Q _
  · exact Or.inr ⟨⟨g e, rfl, hg e he⟩, g e', rfl, hg e' he'⟩

/-- **Writes in two orders.** A list of writes of which any two may change places may be permuted. -/
theorem foldlM_perm {write : σ → α → Except ε σ} {l l' : List α} (hl : l.Perm l')
    (hcomm : l.Pairwise fun x y => ∀ s, Agrees P (write s x >>= (write · y)) (write s y >>= (write · x))) (s : σ) :
    Agrees P (l.foldlM write s) (l'.foldlM write s) := by
  induction hl generalizing s with
  | nil => exact Agrees.refl P _
  | cons x _ ih =>
    obtain ⟨-, hrest⟩ := List.pairwise_cons.1 hcomm
    simp only [List.foldlM_cons]
    exact (Agrees.refl P (write s x)).bind (ih hrest)
  | swap x y l =>
    obtain ⟨hy, -⟩ := List.pairwise_cons.1 hcomm
    simp only [List.foldlM_cons, ← bind_assoc]
    exact (hy x List.mem_cons_self s).bind fun s => Agrees.refl P _
  | trans h _ ih ih' =>
    exact (ih hcomm s).trans (ih' ((h.pairwise_iff fun hxy s => (hxy s).symm).1 hcomm) s)

end Order

section Entries

variable {K V : Type} [DecidableEq K]

/-- the entries of a map, in the order in which its keys are iterated -/
def entries (o : Enumeration K) (m : FMap K V) : List (K × V) :=
  (o.list m.keys).filterMap fun k => (m.get k).map (k, ·)

variable {o : Enumeration K} {m : FMap K V}

theorem mem_entries {k : K} {v : V} : (k, v) ∈ entries o m ↔ m.get k = some v := by
  simp only [entries]
  rw [List.mem_filterMap]
  constructor
  · rintro ⟨k', -, h⟩
    obtain ⟨v', hv', heq⟩ := Option.map_eq_some_iff.1 h
    cases heq
    exact hv'
  · intro h
    exact ⟨k, (o.mem _ _).2 (FMap.mem_keys_of_get h), by rw [h]; rfl⟩

theorem map_fst_filterMap (m : FMap K V) (l : List K) (hl : ∀ k ∈ l, k ∈ m.keys) :
    (l.filterMap fun k => (m.get k).map (k, ·)).map Prod.fst = l := by
  induction l with
  | nil => rfl
  | cons k l ih =>
    obtain ⟨v, hv⟩ := FMap.mem_keys.1 (hl k (List.mem_cons_self ..))
    rw [List.filterMap_cons_some (b := (k, v)) (by rw [hv]; rfl), List.map_cons,
      ih fun k hk => hl k (List.mem_cons_of_mem _ hk)]

theorem entries_keys : (entries o m).map Prod.fst = o.list m.keys :=
  map_fst_filterMap m _ fun k hk => (o.mem _ k).1 hk

theorem entries_nodup : ((entries o m).map Prod.fst).Nodup := by
  rw [entries_keys]
  exact o.nodup _

theorem entries_perm (o o' : Enumeration K) (m : FMap K V) : (entries o m).Perm (entries o' m) :=
  (List.perm_ext_iff_of_nodup (List.Nodup.of_map _ entries_nodup) (List.Nodup.of_map _ entries_nodup)).2
    fun _ => mem_entries.trans mem_entries.symm

theorem not_mem_entries {k : K} : k ∉ (entries o m).map Prod.fst ↔ m.get k = none := by
  rw [entries_keys, o.mem, FMap.mem_keys, ← Option.ne_none_iff_exists', not_not]

end Entries

end Writes

/-
Ancestors along a parent relation with heights. General library: nothing here names a program.

`up a b` reads "b is the parent of a". The parent is unique (`hfun`) and one lower (`hnum`). Ancestor-or-self is
Mathlib's `Relation.ReflTransGen up`.

- `num_le`, `num_lt_of_ne`: ancestors are lower;
- `unique`: there is at most one ancestor at a height;
- `of_le`: the ancestors of a node form a chain;
- `SegmentOf`: the list of nodes of a downward path, with the ancestors it splits off (`segment_split`);
- `First`, `FirstIn`: the first proper ancestor at which a walk stops, with every node passed before it, and their number.
  No heights are needed.
-/
import Mathlib.Logic.Relation
import Mathlib.Tactic

namespace Ancestry

variable {H : Type} {up : H → H → Prop} {num : H → ℕ}

open Relation

theorem num_le (hnum : ∀ a b, up a b → num a = num b + 1) {d a : H} (h : ReflTransGen up d a) : num a ≤ num d := by
  induction h with
  | refl => exact le_rfl
  | tail _ hbc ih => have := hnum _ _ hbc; omega

theorem num_lt_of_ne (hnum : ∀ a b, up a b → num a = num b + 1) {d a : H} (h : ReflTransGen up d a) (hne : a ≠ d) :
    num a < num d := by
  rcases ReflTransGen.cases_head h with rfl | ⟨c, hdc, hca⟩
  · exact absurd rfl hne
  · have h1 := hnum _ _ hdc
    have h2 := num_le hnum hca
    omega

/-- an ancestor at the same height is the node itself -/
theorem eq_of_num (hnum : ∀ a b, up a b → num a = num b + 1) {d a : H} (h : ReflTransGen up d a)
    (hn : num a = num d) : a = d := by
  by_contra hne
  have := num_lt_of_ne hnum h hne
  omega

/-- **The ancestors of a node form a chain**: of two, the lower one is an ancestor of the higher one -/
theorem of_le (hfun : ∀ a b c, up a b → up a c → b = c) (hnum : ∀ a b, up a b → num a = num b + 1) {d a b : H}
    (ha : ReflTransGen up d a) (hb : ReflTransGen up d b) (hle : num b ≤ num a) : ReflTransGen up a b := by
  rcases ReflTransGen.total_of_right_unique (fun x y z => hfun x y z) ha hb with h | h
  · exact h
  · have := num_le hnum h
    rw [eq_of_num hnum h (by omega)]

/-- at most one ancestor at a height -/
theorem unique (hfun : ∀ a b c, up a b → up a c → b = c) (hnum : ∀ a b, up a b → num a = num b + 1) {d a b : H}
    (ha : ReflTransGen up d a) (hb : ReflTransGen up d b) (hn : num a = num b) : a = b :=
  (eq_of_num hnum (of_le hfun hnum ha hb hn.ge) hn.symm).symm

/-- `l` is the rising list of the nodes strictly above `base` on the way down from `top`: empty when they are equal,
otherwise it ends in `top` and each node's parent is the one before it (the first one's is `base`) -/
inductive SegmentOf (up : H → H → Prop) (base : H) : List H → H → Prop
  | nil : SegmentOf up base [] base
  | snoc {l : List H} {x y : H} : SegmentOf up base l x → up y x → SegmentOf up base (l ++ [y]) y

theorem SegmentOf.anc {base top : H} {l : List H} (h : SegmentOf up base l top) : ReflTransGen up top base := by
  induction h with
  | nil => exact ReflTransGen.refl
  | snoc _ hyx ih => exact ReflTransGen.head hyx ih

theorem SegmentOf.mem_anc {base top : H} {l : List H} (h : SegmentOf up base l top) :
    ∀ x ∈ l, ReflTransGen up top x := by
  induction h with
  | nil => intro x hx; simp at hx
  | snoc _ hyx ih =>
    intro z hz
    rcases List.mem_append.1 hz with hz | hz
    · exact ReflTransGen.head hyx (ih z hz)
    · simp only [List.mem_singleton] at hz; subst hz; exact ReflTransGen.refl

theorem SegmentOf.nil_inv {base top : H} (h : SegmentOf up base [] top) : top = base := by
  generalize hm : ([] : List H) = m at h
  cases h with
  | nil => rfl
  | snoc => simp at hm

theorem SegmentOf.concat_inv {base top y : H} {l : List H} (h : SegmentOf up base (l ++ [y]) top) :
    top = y ∧ ∃ x, SegmentOf up base l x ∧ up y x := by
  generalize hm : l ++ [y] = m at h
  cases h with
  | nil => simp at hm
  | snoc hseg hyx =>
    obtain ⟨rfl, hy⟩ := List.append_inj' hm rfl
    cases List.singleton_inj.1 hy
    exact ⟨rfl, _, hseg, hyx⟩

/-- a segment has a node at every height above its base, up to its top -/
theorem SegmentOf.exists_num (hnum : ∀ a b, up a b → num a = num b + 1) {base top : H} {l : List H}
    (h : SegmentOf up base l top) {n : ℕ} (hlo : num base < n) (hhi : n ≤ num top) : ∃ x ∈ l, num x = n := by
  induction h with
  | nil => omega
  | @snoc l x y _ hyx ih =>
    have hstep := hnum _ _ hyx
    by_cases hn : n = num y
    · exact ⟨y, List.mem_append_right _ (List.mem_singleton_self _), hn.symm⟩
    · obtain ⟨z, hz, hzn⟩ := ih (by omega)
      exact ⟨z, List.mem_append_left _ hz, hzn⟩

/-- the nodes of a segment are above its base -/
theorem SegmentOf.num_lt (hnum : ∀ a b, up a b → num a = num b + 1) {base top : H} {l : List H}
    (h : SegmentOf up base l top) : ∀ x ∈ l, num base < num x := by
  induction h with
  | nil => simp
  | snoc hseg hyx ih =>
    have hstep := hnum _ _ hyx
    have hle := num_le hnum hseg.anc
    intro z hz
    rcases List.mem_append.1 hz with hz | hz
    · exact ih z hz
    · rw [List.mem_singleton.1 hz]
      omega

/-- no node is on a segment twice -/
theorem SegmentOf.nodup (hnum : ∀ a b, up a b → num a = num b + 1) {base top : H} {l : List H}
    (h : SegmentOf up base l top) : l.Nodup := by
  induction h with
  | nil => exact List.nodup_nil
  | @snoc l x y hseg hyx ih =>
    rw [List.nodup_append]
    refine ⟨ih, List.nodup_singleton y, ?_⟩
    intro z hz w hw
    have hstep := hnum _ _ hyx
    have hle := num_le hnum (hseg.mem_anc z hz)
    rw [List.mem_singleton.1 hw]
    rintro rfl
    omega

/-- an ancestor of the top of a segment is on the segment, or is an ancestor of its base -/
theorem segment_split (hfun : ∀ a b c, up a b → up a c → b = c) {base top a : H} {l : List H}
    (h : SegmentOf up base l top) (ha : ReflTransGen up top a) : a ∈ l ∨ ReflTransGen up base a := by
  induction h with
  | nil => exact Or.inr ha
  | @snoc l x y _ hyx ih =>
    rcases ReflTransGen.cases_head ha with rfl | ⟨c, hyc, hca⟩
    · exact Or.inl (List.mem_append_right _ (List.mem_singleton.2 rfl))
    · have hcx : c = x := hfun _ _ _ hyc hyx
      subst hcx
      exact (ih hca).imp (List.mem_append_left _) id

/-- the parent of the lowest node extends a segment downwards -/
theorem SegmentOf.cons {base x top : H} {l : List H} (h : SegmentOf up x l top) (hx : up x base) :
    SegmentOf up base (x :: l) top := by
  induction h with
  | nil => exact SegmentOf.snoc (l := []) SegmentOf.nil hx
  | snoc _ hyx ih => exact SegmentOf.snoc ih hyx

/-! ## The first ancestor that stops a walk -/

/-- `a` is the first proper ancestor of the node that stops, and those before it may be passed -/
inductive First (up : H → H → Prop) (stop pass : H → Prop) : H → H → Prop
  | parent {d p : H} (hp : up d p) (hs : stop p) : First up stop pass d p
  | above {d p a : H} (hp : up d p) (hs : ¬ stop p) (hq : pass p) (h : First up stop pass p a) : First up stop pass d a

variable {stop pass pass' : H → Prop} {d p a b e : H}

theorem First.stops (h : First up stop pass d a) : stop a := by
  induction h with
  | parent _ hs => exact hs
  | above _ _ _ _ ih => exact ih

theorem First.unique (hfun : ∀ a b c, up a b → up a c → b = c) (ha : First up stop pass d a)
    (hb : First up stop pass' d b) : a = b := by
  induction ha with
  | parent hp hs =>
    cases hb with
    | parent hp' _ => exact hfun _ _ _ hp hp'
    | above hp' hs' _ _ => exact absurd (hfun _ _ _ hp hp' ▸ hs) hs'
  | above hp hs _ _ ih =>
    cases hb with
    | parent hp' hs' => exact absurd (hfun _ _ _ hp' hp ▸ hs') hs
    | above hp' _ _ h' => exact ih (hfun _ _ _ hp' hp ▸ h')

/-- `First` with the number of nodes that are passed -/
inductive FirstIn (up : H → H → Prop) (stop pass : H → Prop) : ℕ → H → H → Prop
  | parent {d p : H} (hp : up d p) (hs : stop p) : FirstIn up stop pass 0 d p
  | above {n : ℕ} {d p a : H} (hp : up d p) (hs : ¬ stop p) (hq : pass p) (h : FirstIn up stop pass n p a) :
      FirstIn up stop pass (n + 1) d a

theorem First.exists_count (h : First up stop pass d a) : ∃ n, FirstIn up stop pass n d a := by
  induction h with
  | parent hp hs => exact ⟨0, FirstIn.parent hp hs⟩
  | above hp hs hq _ ih =>
    obtain ⟨n, hn⟩ := ih
    exact ⟨n + 1, FirstIn.above hp hs hq hn⟩

theorem FirstIn.stops {n : ℕ} (h : FirstIn up stop pass n d a) : stop a := by
  induction h with
  | parent _ hs => exact hs
  | above _ _ _ _ ih => exact ih

/-- a node is at one distance only: on the way to a node that stops none is met twice -/
theorem FirstIn.count_unique {n m : ℕ} (hfun : ∀ a b c, up a b → up a c → b = c) (h : FirstIn up stop pass n d a)
    (h' : FirstIn up stop pass m d b) : n = m := by
  induction h generalizing m with
  | parent hp hs =>
    cases h' with
    | parent => rfl
    | above hp' hs' => exact absurd (hfun _ _ _ hp hp' ▸ hs) hs'
  | above hp hs _ _ ih =>
    cases h' with
    | parent hp' hs' => exact absurd (hfun _ _ _ hp' hp ▸ hs') hs
    | above hp' _ _ h' => rw [ih (hfun _ _ _ hp' hp ▸ h')]

/-- an ancestor of the node is the node, one that is passed, or an ancestor of the first that stops -/
theorem FirstIn.split {n : ℕ} {x : H} (hfun : ∀ a b c, up a b → up a c → b = c) (h : FirstIn up stop pass n d a)
    (hx : ReflTransGen up d x) : (∃ m ≤ n, FirstIn up stop pass m x a) ∨ ReflTransGen up a x := by
  induction h with
  | parent hp hs =>
    rcases ReflTransGen.cases_head hx with rfl | ⟨q, hq, hrest⟩
    · exact Or.inl ⟨0, le_rfl, FirstIn.parent hp hs⟩
    · exact Or.inr (hfun _ _ _ hq hp ▸ hrest)
  | @above n d p a hp hs hpass h ih =>
    rcases ReflTransGen.cases_head hx with rfl | ⟨q, hq, hrest⟩
    · exact Or.inl ⟨n + 1, le_rfl, FirstIn.above hp hs hpass h⟩
    · rcases ih (hfun _ _ _ hq hp ▸ hrest) with ⟨m, hm, hfirst⟩ | hbelow
      · exact Or.inl ⟨m, Nat.le_succ_of_le hm, hfirst⟩
      · exact Or.inr hbelow

/-- the parent of an ancestor that is not at or behind the first that stops is that one, or is passed and is nearer -/
theorem FirstIn.next {n : ℕ} {x : H} (hfun : ∀ a b c, up a b → up a c → b = c) (h : FirstIn up stop pass n d a)
    (hx : ReflTransGen up d x) (hbefore : ¬ ReflTransGen up a x) (hp : up x p) :
    p = a ∨ ∃ m < n, FirstIn up stop pass m p a ∧ ¬ stop p ∧ pass p := by
  obtain ⟨m, hm, hfirst⟩ := (h.split hfun hx).resolve_right hbefore
  cases hfirst with
  | parent hp' => exact Or.inl (hfun _ _ _ hp hp')
  | @above k d q a hp' hs hq hrest =>
    cases hfun _ _ _ hp hp'
    exact Or.inr ⟨k, hm, hrest, hs, hq⟩

/-- a path over nodes that may be passed, to a node that stops, has a first one -/
theorem exists_first (hd : up d p) (hpath : ReflTransGen (fun x y => up x y ∧ pass x) p e) (hs : stop e) :
    ∃ a, First up stop pass d a := by
  induction hpath using ReflTransGen.head_induction_on generalizing d with
  | refl => exact ⟨e, First.parent hd hs⟩
  | @head p q hpq _ ih =>
    by_cases hp : stop p
    · exact ⟨p, First.parent hd hp⟩
    · obtain ⟨a, ha⟩ := ih hpq.1
      exact ⟨a, First.above hd hp hpq.2 ha⟩

end Ancestry

/-
Runs of a deterministic step function and the invariant rule. General library: nothing here names a program.

`run step s es` handles the events `es` in order. `AllSteps step Ok s es` says that every event of the run meets `Ok`
in the state in which it is handled. An invariant that every such step preserves holds in every state the run reaches
(`run_invariant`), and so does every property the invariant gives (`run_always`). Where it is known which steps break a
property, the runs that keep it throughout are known as well (`always_iff_allSteps`). What is left to be done shrinks
with the steps that do some of it (`run_variant`).
-/
import Mathlib.Tactic

namespace Run

variable {σ ε : Type*}

def run (step : σ → ε → σ) (s : σ) (es : List ε) : σ := es.foldl step s

variable {step : σ → ε → σ}

@[simp] theorem run_nil (s : σ) : run step s [] = s := rfl

@[simp] theorem run_cons (s : σ) (e : ε) (es : List ε) : run step s (e :: es) = run step (step s e) es := rfl

theorem run_append (s : σ) (es fs : List ε) : run step s (es ++ fs) = run step (run step s es) fs :=
  List.foldl_append

/-- every event meets `Ok` in the state in which it is handled -/
def AllSteps (step : σ → ε → σ) (Ok : σ → ε → Prop) : σ → List ε → Prop
  | _, [] => True
  | s, e :: es => Ok s e ∧ AllSteps step Ok (step s e) es

theorem allSteps_append {Ok : σ → ε → Prop} {s : σ} {es fs : List ε} :
    AllSteps step Ok s (es ++ fs) ↔ AllSteps step Ok s es ∧ AllSteps step Ok (run step s es) fs := by
  induction es generalizing s with
  | nil => simp [AllSteps]
  | cons e es ih => simp [AllSteps, ih, and_assoc]

/-- **Invariant rule.** What holds at the start and is preserved by every step that meets `Ok` holds at the end of
every run whose steps meet `Ok`. -/
theorem run_invariant {Ok : σ → ε → Prop} {I : σ → Prop} (hstep : ∀ s e, I s → Ok s e → I (step s e)) {s : σ}
    {es : List ε} (h0 : I s) (hes : AllSteps step Ok s es) : I (run step s es) := by
  induction es generalizing s with
  | nil => exact h0
  | cons e es ih => exact ih (hstep s e h0 hes.1) hes.2

/-- the invariant rule where every step preserves it -/
theorem run_preserves {I : σ → Prop} (hstep : ∀ s e, I s → I (step s e)) {s : σ} (es : List ε) (h0 : I s) :
    I (run step s es) := by
  induction es generalizing s with
  | nil => exact h0
  | cons e es ih => exact ih (hstep s e h0)

/-- `P` holds in every state of the run: after every prefix of the events -/
def Always (step : σ → ε → σ) (P : σ → Prop) (s : σ) (es : List ε) : Prop :=
  ∀ pre post, es = pre ++ post → P (run step s pre)

/-- the invariant rule, for every state reached -/
theorem run_always {Ok : σ → ε → Prop} {I P : σ → Prop} (hstep : ∀ s e, I s → Ok s e → I (step s e))
    (hP : ∀ s, I s → P s) {s : σ} {es : List ε} (h0 : I s) (hes : AllSteps step Ok s es) :
    Always step P s es := by
  rintro pre post rfl
  exact hP _ (run_invariant hstep h0 (allSteps_append.1 hes).1)

theorem always_concat {P : σ → Prop} {s : σ} {es : List ε} {e : ε} :
    Always step P s (es ++ [e]) ↔ Always step P s es ∧ P (run step s (es ++ [e])) := by
  constructor
  · intro h
    refine ⟨?_, h (es ++ [e]) [] (by simp)⟩
    rintro pre post rfl
    exact h pre (post ++ [e]) (by simp)
  · rintro ⟨hes, hlast⟩ pre post hsplit
    cases post using List.reverseRecOn with
    | nil => rw [List.append_nil] at hsplit; rw [← hsplit]; exact hlast
    | append_singleton post e' =>
      rw [← List.append_assoc] at hsplit
      exact hes pre post (List.append_inj_left' hsplit rfl)

theorem always_cons {P : σ → Prop} {s : σ} {e : ε} {es : List ε} :
    Always step P s (e :: es) ↔ P s ∧ Always step P (step s e) es := by
  constructor
  · intro h
    refine ⟨h [] (e :: es) rfl, ?_⟩
    rintro pre post rfl
    exact h (e :: pre) post rfl
  · rintro ⟨hs, hes⟩ pre post hsplit
    cases pre with
    | nil => exact hs
    | cons e' pre =>
      rw [List.cons_append, List.cons.injEq] at hsplit
      obtain ⟨rfl, hsplit⟩ := hsplit
      exact hes pre post hsplit

/-- **Exact condition of a property of runs.** Where a step keeps `P` just when it meets `Fits`, `P` holds in every
state of a run just when every step of the run meets `Fits`. -/
theorem always_iff_allSteps {Ok Fits : σ → ε → Prop} {I P : σ → Prop} (hstep : ∀ s e, I s → Ok s e → I (step s e))
    (hP : ∀ s e, I s → P s → Ok s e → (P (step s e) ↔ Fits s e)) {s : σ} {es : List ε} (h0 : I s) (hp0 : P s)
    (hes : AllSteps step Ok s es) : Always step P s es ↔ AllSteps step Fits s es := by
  induction es generalizing s with
  | nil =>
    refine ⟨fun _ => trivial, fun _ pre post hsplit => ?_⟩
    rw [(List.append_eq_nil_iff.1 hsplit.symm).1]
    exact hp0
  | cons e es ih =>
    obtain ⟨hok, hrest⟩ := hes
    have hiff := hP s e h0 hp0 hok
    have hinv := hstep s e h0 hok
    rw [always_cons]
    constructor
    · rintro ⟨-, hes⟩
      have hp := hes [] es rfl
      exact ⟨hiff.1 hp, (ih hinv hp hrest).1 hes⟩
    · rintro ⟨hfits, hes⟩
      exact ⟨hp0, (ih hinv (hiff.2 hfits) hrest).2 hes⟩

/-- **Variant rule.** `I m` says that at most `m` remains to be done. A step never adds to it, and a step that meets `P`
takes something off while there is something left. So every run takes off as much as it has steps that meet `P`. -/
theorem run_variant {Ok : σ → ε → Prop} {I : ℕ → σ → Prop} {P : ε → Prop}
    (hstep : ∀ m s e, I m s → Ok s e → ∃ m' ≤ m, I m' (step s e) ∧ (P e → m' ≤ m - 1)) {m : ℕ} {s : σ}
    {es fs : List ε} (h0 : I m s) (hes : AllSteps step Ok s es) (hsub : fs.Sublist es) (hP : ∀ e ∈ fs, P e) :
    ∃ m' ≤ m - fs.length, I m' (run step s es) := by
  induction es generalizing m s fs with
  | nil =>
    rw [List.sublist_nil.1 hsub]
    exact ⟨m, le_rfl, h0⟩
  | cons e es ih =>
    obtain ⟨m', hle, hnext, hless⟩ := hstep m s e h0 hes.1
    cases hsub with
    | cons _ hsub =>
      obtain ⟨m'', hle', hend⟩ := ih hnext hes.2 hsub hP
      exact ⟨m'', by omega, hend⟩
    | cons_cons _ hsub =>
      obtain ⟨m'', hle', hend⟩ := ih hnext hes.2 hsub fun e' he' => hP e' (List.mem_cons_of_mem _ he')
      have hone := hless (hP e List.mem_cons_self)
      refine ⟨m'', ?_, hend⟩
      rw [List.length_cons]
      omega

/-- a condition on the events alone is met at every step -/
theorem allSteps_of_mem {C : ε → Prop} {es : List ε} (hC : ∀ e ∈ es, C e) (s : σ) :
    AllSteps step (fun _ e => C e) s es := by
  induction es generalizing s with
  | nil => trivial
  | cons e es ih => exact ⟨hC e List.mem_cons_self, ih (fun e' he' => hC e' (List.mem_cons_of_mem e he')) _⟩

theorem AllSteps.mono {Ok Ok' : σ → ε → Prop} (himp : ∀ s e, Ok s e → Ok' s e) {s : σ} {es : List ε}
    (h : AllSteps step Ok s es) : AllSteps step Ok' s es := by
  induction es generalizing s with
  | nil => trivial
  | cons e es ih => exact ⟨himp s e h.1, ih h.2⟩

theorem AllSteps.and {Ok Ok' : σ → ε → Prop} {s : σ} {es : List ε} (h : AllSteps step Ok s es)
    (h' : AllSteps step Ok' s es) : AllSteps step (fun s e => Ok s e ∧ Ok' s e) s es := by
  induction es generalizing s with
  | nil => trivial
  | cons e es ih => exact ⟨⟨h.1, h'.1⟩, ih h.2 h'.2⟩

end Run

/-
Programs that read from an oracle.

A program asks one query after the other, and the next query may depend on the answers so far. `run` answers the queries
by an oracle, and `trail` lists the queries asked. What a program does is decided by the answers on its trail: an oracle
that gives the same answers there, or bad ones, runs it alike or meets a bad one (`run_or`).
-/
import Mathlib.Tactic

namespace Reading

universe u v w

inductive Program (Q : Type u) (A : Q → Type v) (R : Type w)
  | done (result : R)
  | ask (query : Q) (next : A query → Program Q A R)

namespace Program

variable {Q : Type u} {A : Q → Type v} {R : Type w}

def run (oracle : ∀ query, A query) : Program Q A R → R
  | .done result => result
  | .ask query next => (next (oracle query)).run oracle

/-- the queries that are asked, in order -/
def trail (oracle : ∀ query, A query) : Program Q A R → List Q
  | .done _ => []
  | .ask query next => query :: (next (oracle query)).trail oracle

variable {o o' : ∀ query, A query}

/-- **Only the trail matters.** Where every answer on the trail is the same or a bad one, the run is the same, or both
trails meet a query with a bad answer. -/
theorem run_or (Bad : ∀ query, A query → Prop) (p : Program Q A R)
    (h : ∀ query ∈ p.trail o, o' query = o query ∨ Bad query (o' query)) :
    (p.run o' = p.run o ∧ p.trail o' = p.trail o) ∨ ∃ query ∈ p.trail o, query ∈ p.trail o' ∧ Bad query (o' query) := by
  induction p with
  | done result => exact Or.inl ⟨rfl, rfl⟩
  | ask query next ih =>
    rcases h query List.mem_cons_self with hquery | hbad
    · have hrest := ih (o query) fun q hq => h q (List.mem_cons_of_mem _ hq)
      simp only [run, trail, hquery]
      rcases hrest with ⟨hrun, htrail⟩ | ⟨q, hq, hq', hbad⟩
      · exact Or.inl ⟨hrun, congrArg _ htrail⟩
      · exact Or.inr ⟨q, List.mem_cons_of_mem _ hq, List.mem_cons_of_mem _ hq', hbad⟩
    · exact Or.inr ⟨query, List.mem_cons_self, List.mem_cons_self, hbad⟩

end Program

end Reading

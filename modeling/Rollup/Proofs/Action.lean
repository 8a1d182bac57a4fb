import Rollup.Proofs.Ingest.Processing

/-!
# What computations keep and give

An invariant of a computation holds of its local state and of the store; where the computation succeeds, what it
gives may be known to have a property (`Action.Yields`).  Neither depends on what the store refuses or on how the
computation ends, and there is a rule for every way to compose computations.
-/

namespace Rollup.Action

open Ingest

variable {ε δ σ α β : Type}

/-- However a computation ends, it keeps what holds of the local state and the store, and what it gives has a
property. -/
def Yields (act : Action ε σ α) (P : σ → Store → Prop) (Q : α → Prop) : Prop :=
  ∀ l w, P l w.store → P (act.run l w).2.1 (act.run l w).2.2.store ∧ ∀ x, (act.run l w).1 = .ok x → Q x

/-- However a computation ends, it keeps what holds of the local state and the store. -/
abbrev Keeps (act : Action ε σ α) (P : σ → Store → Prop) : Prop := act.Yields P fun _ => True

variable {P : σ → Store → Prop} {Q : α → Prop} {R : β → Prop} {act : Action ε σ α}

theorem Keeps.of_run (kept : ∀ l w, P l w.store → P (act.run l w).2.1 (act.run l w).2.2.store) : act.Keeps P :=
  fun l w holds => ⟨kept l w holds, fun _ _ => trivial⟩

theorem yields_pure {x : α} (holds : Q x) : (pure x : Action ε σ α).Yields P Q := fun _ _ kept =>
  ⟨kept, fun _ same => by cases same; exact holds⟩

theorem keeps_pure (x : α) : (pure x : Action ε σ α).Keeps P := yields_pure trivial

theorem yields_fail (f : Failure ε) : (fail f : Action ε σ α).Yields P Q := fun _ _ kept =>
  ⟨kept, fun _ same => by cases same⟩

theorem yields_getLocal {Q : σ → Prop} (holds : ∀ l s, P l s → Q l) : (getLocal : Action ε σ σ).Yields P Q :=
  fun l w kept => ⟨kept, fun _ same => by cases same; exact holds l w.store kept⟩

theorem keeps_getLocal : (getLocal : Action ε σ σ).Keeps P := yields_getLocal fun _ _ _ => trivial

theorem keeps_getWorld : (getWorld : Action ε σ World).Keeps P := .of_run fun _ _ => id

theorem keeps_modifyLocal {f : σ → σ} (kept : ∀ l s, P l s → P (f l) s) :
    (modifyLocal f : Action ε σ Unit).Keeps P := .of_run fun l w => kept l w.store

theorem keeps_record (e : Event) : (record e : Action ε σ Unit).Keeps P := .of_run fun _ _ => id

theorem keeps_call (kind : CallKind) (scope : ScopeId) (key? : Option Key) :
    (Access.call kind scope key? : Action Error σ Unit).Keeps P := by
  refine .of_run fun l w holds => ?_
  rcases run_call kind scope key? l w with ⟨f, -, ran⟩ | ⟨-, ran⟩ <;> rw [ran] <;> exact holds

theorem Yields.attempt (yields : act.Yields P Q) :
    (attempt act : Action δ σ _).Yields P fun ended => ∀ x, ended = .ok x → Q x := fun l w kept =>
  ⟨(yields l w kept).1, fun _ same => by cases same; exact (yields l w kept).2⟩

theorem Yields.mapError (yields : act.Yields P Q) (f : ε → δ) : (act.mapError f).Yields P Q := by
  intro l w holds
  have begun := yields l w holds
  rw [Action.mapError, run_ofRun]
  revert begun
  rcases act.run l w with ⟨(e | _) | x, m, v⟩ <;> rintro ⟨kept, given⟩
  · exact ⟨kept, fun _ same => by cases same⟩
  · exact ⟨kept, fun _ same => by cases same⟩
  · exact ⟨kept, fun _ same => given _ (by cases same; rfl)⟩

theorem Yields.bind {next : α → Action ε σ β} (first : act.Yields P Q)
    (later : ∀ x, Q x → (next x).Yields P R) : (act >>= next).Yields P R := by
  intro l w holds
  have begun := first l w holds
  rw [run_bind]
  revert begun
  rcases act.run l w with ⟨f | x, m, v⟩ <;> rintro ⟨kept, given⟩
  · exact ⟨kept, fun _ same => by cases same⟩
  · exact later x (given x rfl) m v kept

/-- The rest of a computation may not care what the first part gives. -/
theorem Keeps.bind {next : α → Action ε σ β} (first : act.Keeps P) (later : ∀ x, (next x).Yields P R) :
    (act >>= next).Yields P R := Yields.bind first fun x _ => later x

end Rollup.Action

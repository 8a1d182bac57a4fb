import Rollup.Proofs.Action
import Rollup.Proofs.Aggregation.Calls

/-!
# What calls keep

A call works with the ingestor, with the log that it opens, or resets the aggregation.  What these parts
keep a call keeps (`keeps_perform_of`), whatever the store refuses and however the call ends.
-/

namespace Rollup.Aggregation

open Ingest Ingestor Rollup.Action

/-! ## How calls on the log run -/

/-- The log is opened, or the store refuses. -/
theorem run_openLog_cases (a : Aggregation) (w : World) :
    (∃ f, openLog.run a w = (.error f, a, { w with calls := w.calls + 1 })) ∨
    openLog.run a w =
      (.ok (Session.log (a, w)), a, { w with calls := w.calls + 1, store := Session.withLog (a, w) }) := by
  rw [openLog, Action.run_bind, Action.run_getLocal]
  rcases run_openChild_cases a.ingestor.rootScope (.named logName) a w with ⟨f, -, ran⟩ | ran
  · exact .inl ⟨f, ran⟩
  · exact .inr ran

/-- A document is appended, or nothing changes. -/
theorem run_append_cases {σ : Type} (scope : ScopeId) (doc : Document) (l : σ) (w : World) :
    (∃ f, (Access.append scope doc).run l w = (.error f, l, { w with calls := w.calls + 1 })) ∨
    ∃ m s', w.store.append? scope doc = some (m, s') ∧
      (Access.append scope doc).run l w = (.ok m, l, { w with calls := w.calls + 1, store := s' }) := by
  rw [Access.append, Action.run_bind]
  rcases run_call .append scope none l w with ⟨f, -, ran⟩ | ⟨-, ran⟩
  · exact .inl ⟨f, by rw [ran]⟩
  · simp only [ran, Action.run_bind, Action.run_getWorld]
    cases appended : w.store.append? scope doc with
    | none => exact .inl ⟨_, rfl⟩
    | some made => exact .inr ⟨made.1, made.2, rfl, rfl⟩

/-! ## The parts of calls -/

section Parts

variable {P : Aggregation → Store → Prop} {Q : ScopeId → Prop}
  (pushes : ∀ which doc, (onIngestor (Ingestor.push which doc) : Action Report Aggregation Unit).Keeps P)

include pushes

theorem keeps_ingestAll_of (docs : List Document) :
    (docs.forM fun d => ingest d : Action Report Aggregation Unit).Keeps P := by
  induction docs with
  | nil => exact keeps_pure _
  | cons d rest ih =>
    rw [List.forM_eq_forM, List.forM_cons]
    exact (pushes .add d).bind fun _ => ih

variable (commits : commit.Keeps P) (opens : openLog.Yields P Q)
  (appends : ∀ log, Q log → ∀ doc, (Access.append log doc : Action Error Aggregation Int64).Keeps P)
  (drops : ∀ log, Q log → ∀ key, (Access.set log key none : Action Error Aggregation Unit).Keeps P)

include commits opens appends drops

theorem keeps_perform_of (c : Call) (resets : c = .reset → reset.Keeps P) : (perform c).Keeps P := by
  cases c with
  | ingest doc => exact (pushes .add doc).bind fun _ => keeps_pure _
  | uningest doc => exact (pushes .retract doc).bind fun _ => keeps_pure _
  | commit => exact commits.bind fun _ => keeps_pure _
  | queued => exact keeps_getLocal.bind fun _ => keeps_pure _
  | results =>
    refine Keeps.bind (keeps_getLocal.bind fun a => ?_) fun _ => keeps_pure _
    refine Keeps.bind (Yields.mapError ?_ _) fun _ => keeps_pure _
    exact (keeps_call .all _ none).bind fun _ => keeps_getWorld.bind fun _ => keeps_pure _
  | lookup values =>
    refine Keeps.bind (keeps_getLocal.bind fun a => ?_) fun _ => keeps_pure _
    split
    · exact yields_fail _
    · split
      · exact yields_fail _
      · refine Keeps.bind (Yields.mapError ?_ _) fun _ => keeps_pure _
        exact (keeps_call .under _ _).bind fun _ => keeps_getWorld.bind fun _ => keeps_pure _
  | record doc =>
    refine Keeps.bind (Keeps.bind (Yields.mapError ?_ _) fun m => ?_) fun _ => keeps_pure _
    · exact opens.bind fun log own => appends log own doc
    · exact (pushes .add doc).bind fun _ => keeps_pure _
  | retract m =>
    refine Keeps.bind ((opens.mapError _).bind fun log own => ?_) fun _ => keeps_pure _
    refine Keeps.bind (Yields.mapError ?_ _) fun stored => ?_
    · exact (keeps_call .get log _).bind fun _ => keeps_getWorld.bind fun _ => keeps_pure _
    · cases stored with
      | none => exact keeps_pure _
      | some doc =>
        exact (pushes .retract doc).bind fun _ => ((drops log own _).mapError _).bind fun _ _ => keeps_pure _
  | replay m =>
    refine Keeps.bind (Keeps.bind (Yields.mapError ?_ _) fun entries => ?_) fun _ => keeps_pure _
    · exact opens.bind fun log _ =>
        (keeps_call .since log none).bind fun _ => keeps_getWorld.bind fun _ => keeps_pure _
    · have queued := keeps_ingestAll_of pushes (entries.map Prod.snd)
      rw [List.forM_eq_forM, List.forM_map] at queued
      exact queued.bind fun _ => keeps_pure _
  | reset => exact (resets rfl).bind fun _ => keeps_pure _

end Parts

end Rollup.Aggregation

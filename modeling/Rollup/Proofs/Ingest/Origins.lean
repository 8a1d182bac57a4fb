import Rollup.Proofs.Ingest.Footprints
import Rollup.Proofs.Ingest.Provenance

/-!
# What the root stage stores

Several ingestors may share scopes, and then none of them knows what its chained stages have stored.  Its
root tells all the same where its own buckets come from: whatever the store refuses, all that waits for it
and all that an ingestor stores there is made of events (`RootTraced`), whatever happens to the stages
behind.
-/

namespace Rollup

open Ingest Rollup.Action

/-- What can be emitted for the root of a pipeline; of the stages behind it nothing is said. -/
def Pipeline.EmitsRoot (p : Pipeline) : Nat → Key → Document → Prop
  | 0 => p.Emits 0
  | _ + 1 => fun _ _ => True

namespace Ingest

variable {p : Pipeline} {root : Site} {behindSites : List Site}

theorem fed_behind_root (n : Nat) (qs : List Queues) : Fed p.EmitsRoot (n + 1) qs := by
  induction qs generalizing n with
  | nil => trivial
  | cons q rest ih => exact ⟨fun _ _ _ => trivial, ih (n + 1)⟩

variable (own : root.stage = p.root)

include own

theorem lineage_root : Lineage p.EmitsRoot [root] where
  apart := List.nodup_singleton _
  enters site event key d at_ mapped := by
    obtain rfl : root = site := Option.some.inj at_
    exact ⟨event, own ▸ mapped⟩
  forwards n site next key d _ at_next _ := by cases at_next

variable (apart : root.scope ∉ behindSites.map Site.scope)

include apart

/-- A commit keeps the root traced. -/
theorem keeps_commit_root (workers : Nat) :
    (commit workers (root :: behindSites)).Keeps (TracedFrom p.EmitsRoot [root] 0) := by
  refine keeps_commit_cons (lineage_root own) rfl (fun _ _ _ _ _ => trivial) (.of_run ?_)
  -- The stages behind work neither on the queues of the root nor in its scope.
  rintro qs w ⟨fed, sourced⟩
  have frame := takes_commit (Frame.path (behindSites.map Site.scope)) workers
    (fun site mem => Frame.writes (List.mem_map_of_mem mem)) qs.tail w
  rw [behind, Action.run_zoom]
  refine ⟨⟨fed.head, fed_behind_root 0 _⟩, fun n site key d at_ found => ?_⟩
  have same : site = root := List.mem_singleton.1 (List.mem_of_getElem? at_)
  rw [frame.buckets _ (same ▸ apart)] at found
  exact sourced n site key d at_ found

end Ingest

namespace Ingestor

variable {ε : Type} {p : Pipeline} {root : Site} {behindSites : List Site}

/-- All that waits for the root of an ingestor and all that is stored there is made of events. -/
abbrev RootTraced (p : Pipeline) (root : Site) (behindSites : List Site) : Ingestor → Store → Prop :=
  Carries (root :: behindSites) (TracedFrom p.EmitsRoot [root] 0)

theorem RootTraced.stores {i : Ingestor} {s : Store} (traced : RootTraced p root behindSites i s) {key : Key}
    {d : Document} (found : (s.buckets root.scope).get? key = some d) : root.stage.Stores (p.Emits 0) key d :=
  traced.holds.2 0 root key d rfl found

theorem RootTraced.of_buckets {i : Ingestor} {s s' : Store} (traced : RootTraced p root behindSites i s)
    (stores : ∀ key d, (s'.buckets root.scope).get? key = some d → root.stage.Stores (p.Emits 0) key d) :
    RootTraced p root behindSites i s' := by
  refine ⟨traced.sites, traced.holds.1, fun n site key d at_ found => ?_⟩
  match n with
  | 0 =>
    obtain rfl : root = site := Option.some.inj at_
    exact stores key d found
  | n + 1 => cases at_

variable (own : root.stage = p.root) (apart : root.scope ∉ behindSites.map Site.scope)

include own apart

theorem keeps_commit_root : Ingestor.commit.Keeps (RootTraced p root behindSites) :=
  keeps_commit fun workers => Ingest.keeps_commit_root own apart workers

theorem keeps_push_root (which : Phase) (doc : Document) :
    (Ingestor.push which doc : Action ε Ingestor Unit).Keeps (RootTraced p root behindSites) := by
  refine keeps_push (fun workers => Ingest.keeps_commit_root own apart workers) which fun site head => ?_
  obtain rfl : root = site := Option.some.inj head
  exact yields_here (keeps_enqueue which fun key d mapped => ⟨doc, own ▸ mapped⟩)

end Ingestor

end Rollup

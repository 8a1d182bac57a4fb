import Rollup.Proofs.Concurrent.Dealing
import Rollup.Proofs.Concurrent.Threads
import Rollup.Proofs.Ingest.Batches

/-!
# Chains behind threads

While a leader goes through its cycle, the whole chain is as its steps leave it (`Traced`): the phases
that are over have revised the root and handed on what they revised, and the stages behind wait until the
flush.  A cycle that has ended has worked off its batch at every stage.  So at any moment a run has made
of the store what the batches of its cycles make of it, one after the other, and without a leader
nothing else (`Charted`).
-/

namespace Rollup.Concurrent

open Ingest

/-! ## Crews -/

/-- A crew is at work on groups, every worker on a part of its own. -/
structure Busy (site : Site) (phase : Phase) (before : Store) (groups : List Group) (c : Crew) (s : Store) : Prop where
  dealt : ∃ parts, parts.flatten.Perm groups ∧ Dealt site phase before groups parts { c with divided := true } s
  single : c.divided = false → c.workers.length = 1

namespace Busy

variable {site : Site} {phase : Phase} {before s s' : Store} {groups : List Group} {c c' : Crew}

theorem ofGroups (workers : Nat) (nodup : (groups.map Prod.fst).Nodup) :
    Busy site phase before groups (.ofGroups workers groups) before := by
  rw [Crew.ofGroups]
  split
  · have perm := flatten_partitions_perm workers groups
    exact ⟨⟨_, perm, .start site phase before nodup perm⟩, fun alone => by cases alone⟩
  · have perm : [groups].flatten.Perm groups := List.Perm.of_eq (by simp)
    exact ⟨⟨_, perm, .start site phase before nodup perm⟩, fun _ => rfl⟩

theorem call {plan : FaultPlan} {i : Nat} (busy : Busy site phase before groups c s)
    (nodup : (groups.map Prod.fst).Nodup) (open_ : site.scope < before.scopes.length) (spares : plan.Spares site.scope)
    (call : Crew.Call site phase plan i s c s' c') : Busy site phase before groups c' s' := by
  obtain ⟨⟨parts, perm, dealt⟩, single⟩ := busy
  cases call with
  | nobody absent => exact ⟨⟨parts, perm, dealt⟩, single⟩
  | one divided front back place call =>
    refine ⟨⟨parts, perm, dealt.call nodup open_ spares (.one true front back place call)⟩, fun alone => ?_⟩
    have length := single alone
    simp only [List.length_append, List.length_cons] at length ⊢
    exact length

/-- What a crew reports in the end is in the scope of the site and is all that there was to do. -/
theorem ended {p : Progress} (busy : Busy site phase before groups c s) (nodup : (groups.map Prod.fst).Nodup)
    (sorted : (before.buckets site.scope).Sorted) (finished : c.result? = some (.ok p)) :
    ∃ groups', groups'.Perm groups ∧ p.revisions = revisions site.stage phase (before.buckets site.scope) groups' ∧
      s = storeAll site.scope p.revisions before := by
  obtain ⟨⟨parts, perm, dealt⟩, single⟩ := busy
  have sound : ∀ w ∈ c.workers, w.crashed = false := fun w mem => (dealt.work.sane w mem).1
  obtain ⟨q, ended, same⟩ := Crew.revisions_of_result? sound single finished
  obtain rfl : p = q := Except.ok.inj ended
  have done : c.isDone = true := Crew.isDone_of_result? finished
  have written := dealt.written_eq done
  refine ⟨parts.flatten, perm, same.trans written, ?_⟩
  obtain ⟨rs, wrote, notes⟩ := dealt.wrote
  have keys : (rs.map Revision.key).Nodup := by
    refine (notes.map Revision.key).nodup_iff.2 ?_
    rw [written]
    exact ((perm.map Prod.fst).nodup_iff.2 nodup).sublist (keys_revisions_sublist _ _ _ _)
  rw [wrote, same]
  exact storeAll_perm notes keys sorted

/-- A crew without groups changes nothing. -/
theorem eq_of_no_groups (busy : Busy site phase before [] c s) : s = before := by
  obtain ⟨⟨parts, perm, dealt⟩, -⟩ := busy
  obtain ⟨rs, rfl, notes⟩ := dealt.wrote
  have none : ∀ part ∈ parts, part = [] := List.flatten_eq_nil_iff.1 perm.eq_nil
  have unwritten : Crew.written { c with divided := true } = [] := by
    rw [Crew.written, List.flatMap_eq_nil_iff]
    intro w mem
    have account : w.account site.stage phase (before.buckets site.scope) ∈
        parts.map (revisions site.stage phase (before.buckets site.scope)) := by
      rw [← dealt.accounts]
      exact List.mem_map_of_mem mem
    obtain ⟨part, listed, same⟩ := List.mem_map.1 account
    rw [none part listed] at same
    exact (List.append_eq_nil_iff.1 same.symm).1
  rw [unwritten] at notes
  rw [notes.eq_nil]
  rfl

end Busy

/-! ## Cycles -/

section Traces

variable {site : Site} {behindSites : List Site}

/-- A phase is over: what it has revised is in the scope of the site and was handed on. -/
def Gone (site : Site) (behindSites : List Site) (phase : Phase) (entries : List (Key × Document)) (s : Store)
    (qs : List Queues) (s' : Store) (qs' : List Queues) : Prop :=
  ∃ groups rs, groups.Perm (groupByKey entries) ∧ rs = revisions site.stage phase (s.buckets site.scope) groups ∧
    s' = storeAll site.scope rs s ∧ qs' = handOn behindSites rs qs

theorem Gone.nothing (phase : Phase) (s : Store) (qs : List Queues) : Gone site behindSites phase [] s qs s qs :=
  ⟨[], [], List.Perm.refl _, rfl, rfl, (handOn_nil behindSites qs).symm⟩

theorem Gone.eq_of_nil {phase : Phase} {s s' : Store} {qs qs' : List Queues}
    (gone : Gone site behindSites phase [] s qs s' qs') : s' = s ∧ qs' = qs := by
  obtain ⟨groups, rs, whole, rfl, rfl, rfl⟩ := gone
  rw [show groups = [] from whole.eq_nil]
  exact ⟨rfl, handOn_nil behindSites qs⟩

/-- A phase of a batch begins with what the phase before it left. -/
def Begun (site : Site) (behindSites : List Site) (start : Store) (batch : Queues) : Phase → Store → List Queues → Prop
  | .retract, s, qs => s = start ∧ qs = idle behindSites
  | .add, s, qs => Gone site behindSites .retract batch.retractions start (idle behindSites) s qs

/-- How far a cycle has come with a chain, that has drained a batch so far. -/
inductive Traced (site : Site) (behindSites : List Site) (start : Store) (batch : Queues) :
    Cycle → Store → List Queues → Prop
  | draining {phase : Phase} (touched : Nat) {s : Store} {qs : List Queues}
      (begun : Begun site behindSites start batch phase s qs) :
      Traced site behindSites start batch (.draining phase touched) s qs
  | revising {phase : Phase} (touched : Nat) {crew : Crew} {before s : Store} {qs : List Queues}
      (begun : Begun site behindSites start batch phase before qs)
      (busy : Busy site phase before (groupByKey (batch.entries phase)) crew s) :
      Traced site behindSites start batch (.revising phase touched crew) s qs
  | flushing (touched : Nat) {middle s : Store} {qs qs' : List Queues}
      (begun : Begun site behindSites start batch .add middle qs)
      (gone : Gone site behindSites .add batch.additions middle qs s qs') :
      Traced site behindSites start batch (.flushing touched) s qs'
  | ending (touched : Nat) {s : Store} {qs : List Queues}
      (settled : Settled (site :: behindSites) (batch :: idle behindSites) start ({} :: qs) s) :
      Traced site behindSites start batch (.ending (.ok touched)) s qs

theorem Begun.sorted {start s : Store} {batch : Queues} {phase : Phase} {qs : List Queues}
    (begun : Begun site behindSites start batch phase s qs) (open_ : site.scope < start.scopes.length)
    (sorted : (start.buckets site.scope).Sorted) :
    (s.buckets site.scope).Sorted ∧ s.scopes.length = start.scopes.length := by
  cases phase with
  | retract =>
    obtain ⟨rfl, -⟩ := begun
    exact ⟨sorted, rfl⟩
  | add =>
    obtain ⟨groups, rs, -, -, rfl, -⟩ := begun
    rw [buckets_storeAll_self rs open_]
    exact ⟨sorted_applyAll sorted rs, length_storeAll _ _ _⟩

/-- Draining the next queue leaves the beginning of its phase as it is. -/
theorem Begun.draw {start s : Store} {batch : Queues} {phase : Phase} {qs : List Queues}
    (begun : Begun site behindSites start batch phase s qs) (q : Queues) :
    Begun site behindSites start (batch.draw q phase) phase s qs := by
  cases phase <;> exact begun

namespace Traced

variable {start s s' : Store} {batch : Queues} {cycle cycle' : Cycle} {qs qs' : List Queues}

theorem after {phase : Phase} (touched : Nat) {before : Store}
    (begun : Begun site behindSites start batch phase before qs)
    (gone : Gone site behindSites phase (batch.entries phase) before qs s qs') :
    Traced site behindSites start batch (.after phase touched) s qs' := by
  cases phase with
  | retract =>
    obtain ⟨rfl, rfl⟩ := begun
    exact .draining touched gone
  | add => exact .flushing touched begun gone

/-- Every turn of a cycle takes the chain further. -/
theorem turn {plan : FaultPlan} {workers worker : Nat} {q : Queues} {base : Buckets}
    (traced : Traced site behindSites start batch cycle s qs)
    (underway : Underway site.stage base (s.buckets site.scope) batch cycle) (open_ : site.scope < start.scopes.length)
    (sorted : (start.buckets site.scope).Sorted) (spares : plan.Spares site.scope)
    (turn : Cycle.Turn workers worker site behindSites plan q cycle qs s cycle' qs' s') :
    Traced site behindSites start (cycle.drawn batch q) cycle' s' qs' := by
  -- A turn of one kind leads from one place in a cycle, so the trace that leads there is known.
  cases turn with
  | drains phase touched =>
    cases traced with
    | draining _ begun =>
      have entries : (batch.draw q phase).entries phase = q.entries phase := by
        cases underway with
        | draining _ blank _ => exact (blank.draw q).1
      show Traced site behindSites start (batch.draw q phase) _ _ _
      rw [Cycle.onward]
      split
      · next none =>
        rw [List.isEmpty_iff] at none
        refine after touched (begun.draw q) ?_
        rw [entries, none]
        exact .nothing phase s qs
      · refine .revising touched (begun.draw q) ?_
        rw [entries]
        exact .ofGroups workers (nodup_groupByKey _)
  | works phase touched call =>
    cases traced with
    | revising _ begun busy =>
      have length := (begun.sorted open_ sorted).2
      exact .revising touched begun (busy.call (nodup_groupByKey _) (length ▸ open_) spares call)
  | forwards phase touched finished =>
    cases traced with
    | revising _ begun busy =>
      obtain ⟨groups, whole, revised, wrote⟩ := busy.ended (nodup_groupByKey _) (begun.sorted open_ sorted).1 finished
      exact after _ begun ⟨groups, _, whole, revised, wrote, rfl⟩
  | flushes touched settled =>
    cases traced with
    | flushing _ begun gone =>
      obtain ⟨first, retracted, whole, retract, rfl, rfl⟩ := begun
      obtain ⟨second, added, whole', add, rfl, rfl⟩ := gone
      rw [buckets_storeAll_self retracted open_] at add
      exact .ending touched (.cons whole whole' retract add settled)
  | rests ended => exact traced

/-- A cycle that has drained nothing has changed nothing. -/
theorem eq_of_blank (traced : Traced site behindSites start {} cycle s qs) : s = start := by
  have begins {phase : Phase} {before : Store} {qs : List Queues}
      (begun : Begun site behindSites start {} phase before qs) : before = start := by
    cases phase with
    | retract => exact begun.1
    | add => exact (Gone.eq_of_nil begun).1
  cases traced with
  | draining touched begun => exact begins begun
  | revising touched begun busy =>
    rw [← begins begun]
    rename_i phase crew before
    cases phase <;> exact busy.eq_of_no_groups
  | flushing touched begun gone => rw [gone.eq_of_nil.1, begins begun]
  | ending touched settled => exact settled.eq_of_idle

end Traced

end Traces

/-! ## Floors -/

/-- The store is what the batches of the finished cycles make of the one at the start, but for what the
cycle has done that is led. -/
def Charted (root : Site) (behindSites : List Site) (start : Store) (j : Journal) (f : Floor) : Prop :=
  ∃ s, Batched root behindSites start j.finished s ∧
    (∀ i cycle, f.cycle? i = some cycle → Traced root behindSites s j.running cycle f.world.store f.behindQueues) ∧
    ((∀ i, f.cycle? i = none) → f.world.store = s ∧ f.behindQueues = idle behindSites)

namespace Charted

variable {root : Site} {behindSites : List Site} {start : Store} {base : Buckets} {leader? : Option (Nat × Cycle)}
  {j j' : Journal} {f g : Floor} {i worker : Nat}

/-- A step that has nothing to do with cycles. -/
theorem quiet (charted : Charted root behindSites start j f) (finished : j'.finished = j.finished)
    (running : j'.running = j.running) (store : g.world.store = f.world.store)
    (behind : g.behindQueues = f.behindQueues) (cycles : ∀ k, g.cycle? k = f.cycle? k) :
    Charted root behindSites start j' g := by
  obtain ⟨s, batched, led, idle⟩ := charted
  refine ⟨s, finished ▸ batched, fun k cycle leads => ?_, fun none => ?_⟩
  · rw [running, store, behind]
    exact led k cycle (cycles k ▸ leads)
  · rw [store, behind]
    exact idle fun k => (cycles k).symm.trans (none k)

/-- A step of the leader takes the trace of its cycle further. -/
theorem lead (charted : Charted root behindSites start j f) (manned : Manned root behindSites base leader? j f)
    (placed : Placed (root :: behindSites) start) (sorted : ∀ id, (start.buckets id).Sorted) {background : Bool}
    {cycle : Cycle} (found : f.threads[i]? = some (.leading background cycle)) (goes : ∀ ended, cycle ≠ .ending ended) :
    Charted root behindSites start (j.note f i)
      ((f.cycleStep worker cycle).2.put i (.leading background (f.cycleStep worker cycle).1)) := by
  have present := (List.getElem?_eq_some_iff.1 found).1
  have led : leader? = some (i, cycle) := (manned.leads i _).1 (by rw [Floor.cycle?_eq, found]; rfl)
  obtain ⟨cycle', qs', w', moved, -, -, turn, underway⟩ := manned.turn found worker
  obtain ⟨s, batched, traces, -⟩ := charted
  have length := batched.sameTree.length_scopes
  have traced := (traces i cycle ((manned.leads i cycle).2 led)).turn underway
    (length ▸ placed.open_ root List.mem_cons_self) (batched.sorted placed sorted root.scope)
    (manned.plan ▸ FaultPlan.never_spares _) turn
  have leads := Floor.leads_set (f := f) (t := .leading background cycle')
    (g := ({ f with
      ingestor := { f.ingestor with queues := cycle.left f.rootQueues :: qs' }
      world := w' } : Floor).put i (.leading background cycle'))
    present (fun k other => manned.others k (by simpa [led] using Ne.symm other)) rfl
  rw [Journal.note_leading found goes, moved]
  refine ⟨s, batched, fun k other leading => ?_, fun none => ?_⟩
  · obtain ⟨rfl, rfl⟩ := Prod.mk.inj (Option.some.inj ((leads k other).1 leading))
    exact traced
  · exact absurd ((leads i cycle').2 rfl) (by simp [none])

/-- The batch of a cycle that ends comes to those that the store is made of. -/
theorem land (charted : Charted root behindSites start j f) (manned : Manned root behindSites base leader? j f)
    {background : Bool} {ended : Except (Failure Error) Nat}
    (found : f.threads[i]? = some (.leading background (.ending ended))) :
    Charted root behindSites start (j.note f i) ((f.land background ended).2.put i (f.land background ended).1) := by
  have led : leader? = some (i, .ending ended) := (manned.leads i _).1 (by rw [Floor.cycle?_eq, found]; rfl)
  obtain ⟨⟨n, rfl⟩, manned'⟩ := manned.land found
  obtain ⟨s, batched, traces, -⟩ := charted
  have traced := traces i _ ((manned.leads i _).2 led)
  rw [Journal.note_ending found] at manned' ⊢
  cases traced with
  | ending touched settled =>
    have drained := (List.cons.inj settled.eq_idle).2
    rw [drained] at settled
    refine ⟨f.world.store, batched.next settled, fun k cycle leads => ?_, fun _ => ⟨rfl, drained⟩⟩
    cases (manned'.leads k cycle).1 leads

/-- Every step of every thread preserves the chart. -/
theorem step (charted : Charted root behindSites start j f) (manned : Manned root behindSites base leader? j f)
    (placed : Placed (root :: behindSites) start) (sorted : ∀ id, (start.buckets id).Sorted)
    (stepped : f.step? i worker = some g) : Charted root behindSites start (j.note f i) g := by
  obtain ⟨t, found, moves⟩ := Floor.moves_of_step? stepped
  cases moves.acts found with
  | idles idle idles =>
    rw [Journal.note_idle found idle]
    exact charted.quiet rfl rfl (by rw [idles.world]) (by rw [Floor.behindQueues, idles.queues]; rfl) idles.cycles
  | push phase doc =>
    obtain ⟨q, qs, queues⟩ := List.exists_cons_of_length_eq_add_one manned.queues
    obtain ⟨n, w', -, store, pushed⟩ := Floor.push_eq manned.sites queues phase doc
    have behind : f.behindQueues = qs := by rw [Floor.behindQueues, queues, List.tail_cons]
    rw [Journal.note_pushing found, pushed]
    refine charted.quiet rfl rfl store behind.symm (Floor.cycle?_of_quiet found rfl rfl ?_)
    cases root.stage.map? doc <;> rfl
  | leads background free =>
    -- Nobody has led, so the store was what the finished batches make of it.
    obtain rfl := manned.leaderless free
    have leads := (manned.start_cycle found).leads
    obtain ⟨s, batched, -, idle⟩ := charted
    obtain ⟨store, behind⟩ := idle fun k => manned.others k (by simp)
    rw [Journal.note_idle found trivial]
    refine ⟨s, batched, fun k cycle led => ?_, fun none => ?_⟩
    · obtain ⟨rfl, rfl⟩ := Prod.mk.inj (Option.some.inj ((leads k cycle).1 led))
      exact .draining 0 ⟨store, behind⟩
    · exact absurd ((leads i .start).2 rfl) (by simp [none])
  | lead background goes => exact charted.lead manned placed sorted found goes
  | land background ended => exact charted.land manned found

/-- A floor that has not begun is charted. -/
theorem fresh {t : Ingestor.Session} {calls : List Thread} (queues : t.1.queues = {} :: idle behindSites)
    (fresh : ∀ call ∈ calls, call.IsCall) : Charted root behindSites t.2.store {} (.start t calls) := by
  refine ⟨t.2.store, .start, fun i cycle leads => ?_, fun _ => ⟨rfl, ?_⟩⟩
  · rw [Floor.cycle?_start fresh] at leads
    cases leads
  · rw [Floor.behindQueues, Floor.start, queues]
    rfl

/-- While the running cycle has drained nothing, the store is what the finished batches make of it. -/
theorem store_of_blank (charted : Charted root behindSites start j f) (blank : j.running = {}) :
    Batched root behindSites start j.finished f.world.store := by
  obtain ⟨s, batched, led, idle⟩ := charted
  suffices f.world.store = s by rwa [this]
  by_cases leads : ∀ i, f.cycle? i = none
  · exact (idle leads).1
  · obtain ⟨i, leads⟩ := not_forall.1 leads
    obtain ⟨cycle, leads⟩ := Option.ne_none_iff_exists'.1 leads
    have traced := led i cycle leads
    rw [blank] at traced
    exact traced.eq_of_blank

end Charted

end Rollup.Concurrent

import Rollup.Proofs.Aggregation.Engines
import Rollup.Proofs.Store.Territories

/-!
# Aggregations at home

An aggregation is `Homed` while its scopes are in the territory of its name, and stays so under its own
calls (`homed_call`).  Another one of its name may take the territory away by a reset; it then has scopes
that hang nowhere.  Either way it is `Foreign` to the territories of all other names, and no call on it
does anything there (`spared_call`).
-/

namespace Rollup

open Ingest

/-! ## Opening -/

namespace Ingestor.Descends

variable {chainStore : String} {scope : ScopeId} {s s' : Store} {sites : List Site}
  (descends : Descends chainStore scope s sites s')

include descends

/-- The scopes of stages hang below the first of them. -/
theorem within : ∀ site ∈ sites, s'.Within scope site.scope := by
  induction descends with
  | none => exact fun site mem => absurd mem List.not_mem_nil
  | last =>
    intro site mem
    rw [List.mem_singleton.1 mem]
    exact .self
  | @under stage scope s s' next rest tree here head hangs deeper ih =>
    intro other mem
    rcases List.mem_cons.1 mem with rfl | after
    · exact .self
    · exact .trans (.under (head ▸ hangs) .self) (ih other after)

/-- Below a scope outside of a territory, stages get scopes outside. -/
theorem spared {name : String} (outside : s.Outside name scope) :
    s.Spared s' name ∧ ∀ site ∈ sites, s'.Outside name site.scope := by
  induction descends with
  | none => exact ⟨.refl _ _, fun site mem => absurd mem List.not_mem_nil⟩
  | last =>
    refine ⟨.refl _ _, fun site mem => ?_⟩
    rw [List.mem_singleton.1 mem]
    exact outside
  | @under stage scope s s' next rest tree here head hangs deeper ih =>
    obtain ⟨spared, child⟩ := outside.opens tree here (.named chainStore)
    obtain ⟨spared', later⟩ := ih child
    have both := spared.trans spared'
    refine ⟨both, fun other mem => ?_⟩
    rcases List.mem_cons.1 mem with rfl | after
    · exact outside.spared both
    · exact later other after

end Ingestor.Descends

namespace Aggregation

open Ingestor Session

/-- An aggregation has its scopes in the territory of its name. -/
structure Homed (s : Store) (a : Aggregation) : Prop where
  root : s.child? Store.root (.named a.name) = some a.ingestor.rootScope
  sites : ∀ site ∈ a.ingestor.sites, s.Within a.ingestor.rootScope site.scope

/-- An aggregation has its scopes outside of the territory of another name. -/
structure Foreign (s : Store) (name : String) (a : Aggregation) : Prop where
  differ : a.name ≠ name
  sites : ∀ site ∈ a.ingestor.sites, s.Outside name site.scope

theorem run_of_reported {σ α : Type} {act : Action Error σ α} {l : σ} {w : World} {x : α} {rest : σ × World}
    (ran : (reported act).run l w = (.ok x, rest)) : act.run l w = (.ok x, rest) := by
  rw [reported, Action.mapError, Action.run_ofRun] at ran
  split at ran
  · next acted =>
    rw [acted]
    cases ran
    rfl
  · cases ran
  · cases ran

theorem run_of_ofExcept {σ α : Type} {r : Except Report α} {l : σ} {w : World} {x : α} {rest : σ × World}
    (ran : (Action.ofExcept r : Action Report σ α).run l w = (.ok x, rest)) : rest = (l, w) := by
  cases r with
  | error e => cases ran
  | ok y => cases ran; rfl

theorem bind_ok {ε σ α β : Type} {act : Action ε σ α} {next : α → Action ε σ β} {l : σ} {w : World} {y : β}
    {rest : σ × World} (ran : (act >>= next).run l w = (.ok y, rest)) :
    ∃ x l' w', act.run l w = (.ok x, l', w') ∧ (next x).run l' w' = (.ok y, rest) := by
  rw [Action.run_bind] at ran
  split at ran
  · next x l' w' acted => exact ⟨x, l', w', acted, ran⟩
  · cases ran

/-- What is opened under a name is an ingestor below the scope of that name. -/
theorem openIngestor_of_openNamed {σ : Type} {config : Config} {name : String} {q : Query} {l l' : σ} {w w' : World}
    {a : Aggregation} (ran : (openNamed config name q).run l w = (.ok a, l', w')) :
    a.name = name ∧ (openIngestor config name a.pipeline).run l w = (.ok a.ingestor, l', w') := by
  rw [openNamed] at ran
  obtain ⟨_, l₁, w₁, validated, ran₁⟩ := bind_ok ran
  obtain ⟨_, l₂, w₂, checked, ran₂⟩ := bind_ok ran₁
  obtain ⟨pipeline, l₃, w₃, compiled, ran₃⟩ := bind_ok ran₂
  obtain ⟨i, l₄, w₄, opened, ran₄⟩ := bind_ok ran₃
  obtain ⟨rfl, rfl⟩ := Prod.mk.inj (run_of_ofExcept compiled)
  obtain ⟨rfl, rfl⟩ := Prod.mk.inj (run_of_ofExcept checked)
  obtain ⟨rfl, rfl⟩ := Prod.mk.inj (run_of_ofExcept validated)
  cases ran₄
  exact ⟨rfl, run_of_reported opened⟩

section Opening

variable {σ : Type} {config : Config} {name other : String} {pipeline : Pipeline} {l l' : σ} {w w' : World}
  {i : Ingestor} (never : w.plan = .never) (tree : w.store.Tree)

include never tree

theorem homed_of_openIngestor (ran : (openIngestor config name pipeline).run l w = (.ok i, l', w')) :
    Homed w'.store { name, pipeline, ingestor := i } := by
  have launched := Launched.of_run never tree ran
  constructor
  case root =>
    show _ = some i.rootScope
    rw [launched.tree.child?_eq_some, launched.root, launched.widened.old _ (w.store.openChild_lt _ _)]
    exact w.store.place_openChild Store.root (.named name)
  case sites =>
    show ∀ site ∈ i.sites, w'.store.Within i.rootScope site.scope
    rw [launched.root]
    exact launched.descends.within

theorem foreign_of_openIngestor (differ : other ≠ name)
    (ran : (openIngestor config other pipeline).run l w = (.ok i, l', w')) :
    w.store.Spared w'.store name ∧ Foreign w'.store name { name := other, pipeline, ingestor := i } := by
  obtain ⟨spared, outside⟩ := Store.Outside.opens_other tree differ
  obtain ⟨spared', sites⟩ := (Launched.of_run never tree ran).descends.spared outside
  exact ⟨spared.trans spared', differ, sites⟩

end Opening

/-- In a territory where nothing was, all is new. -/
theorem Opened.le_of_territory {config : Config} {name : String} {pipeline : Pipeline} {s : Store} {i : Ingestor}
    {w : World} (opened : Opened config pipeline s i w) (homed : Homed w.store { name, pipeline, ingestor := i })
    {id : ScopeId} (territory : w.store.Territory name id) : s.scopes.length ≤ id := by
  obtain ⟨child, found, within⟩ := territory
  obtain rfl : i.rootScope = child := Option.some.inj (homed.root.symm.trans found)
  obtain ⟨site, listed, own⟩ := List.mem_map.1 (opened.housed name).rootScope_mem
  have behind : s.scopes.length ≤ i.rootScope := own ▸ opened.behind site listed
  exact Nat.le_trans behind (within.le opened.tree.nested)

/-! ## Calls on others -/

theorem Foreign.spared {s s' : Store} {name : String} {a : Aggregation} (foreign : Foreign s name a)
    (spared : s.Spared s' name) : Foreign s' name a :=
  ⟨foreign.differ, fun site mem => (foreign.sites site mem).spared spared⟩

section Others

variable {config : Config} {t t' : Session} {name : String} (resident : Resident config t)
  (foreign : Foreign t.2.store name t.1)

include foreign

/-- The work of its ingestor spares the territory of another name. -/
theorem Foreign.worked (worked : Worked t t') : t.2.store.Spared t'.2.store name ∧ Foreign t'.2.store name t'.1 := by
  have spared : t.2.store.Spared t'.2.store name := by
    apply Store.Spared.of_places worked.frame.tree.places worked.frame.tree.marker.ge
    case buckets =>
      refine fun id territory => worked.frame.buckets id fun mem => ?_
      obtain ⟨site, listed, rfl⟩ := List.mem_map.1 mem
      exact (foreign.sites site listed).foreign territory
    case appended => exact fun id _ => worked.frame.appended id
  refine ⟨spared, ?_, fun site mem => ?_⟩
  · rw [worked.own]
    exact foreign.differ
  · rw [worked.later.sites] at mem
    exact (foreign.sites site mem).spared spared

include resident

/-- Its log is made outside. -/
theorem Foreign.opens_log : t.2.store.Spared t.withLog name ∧ t.withLog.Outside name t.log := by
  obtain ⟨site, listed, own⟩ := List.mem_map.1 resident.housed.rootScope_mem
  have outside : t.2.store.Outside name t.1.ingestor.rootScope := own ▸ foreign.sites site listed
  exact outside.opens resident.tree resident.housed.rootScope_lt _

/-- A call spares the territory of another name. -/
theorem Foreign.of_does {c : Call} {r : Except (Failure Report) Reply} (does : Does config t c r t')
    (stays : c ≠ .reset) : t.2.store.Spared t'.2.store name ∧ Foreign t'.2.store name t'.1 := by
  obtain ⟨opens, log⟩ := foreign.opens_log resident
  have logged {w : World} (store : w.store = t.withLog) : t.2.store.Spared w.store name := store ▸ opens
  cases does with
  | works plain worked => exact foreign.worked worked
  | @recorded d m s' w t' never appended store worked =>
    obtain ⟨places, -, -, next⟩ := Store.append?_kept appended
    -- The document is written to the log, which is outside of the territory.
    have writes : t.withLog.Spared w.store name := by
      rw [store]
      have other {id : ScopeId} (territory : t.withLog.Territory name id) : s'.scope id = t.withLog.scope id :=
        Store.scope_append?_of_ne appended fun same => log.foreign (same ▸ territory)
      exact .of_places places (by omega) (fun id territory => congrArg Scope.values (other territory))
        fun id territory => congrArg Scope.appended (other territory)
    have before := opens.trans writes
    obtain ⟨spared, foreign'⟩ := Foreign.worked (t := (t.1, w)) (foreign.spared before) worked
    exact ⟨before.trans spared, foreign'⟩
  | exhausted never none store => exact ⟨logged store, foreign.spared (logged store)⟩
  | @dropped m d w w' t₁ never found store worked never' store' =>
    obtain ⟨spared, foreign'⟩ := Foreign.worked (t := (t.1, w)) (foreign.spared (logged store)) worked
    have before := (logged store).trans spared
    have away : t₁.2.store.Outside name t.log := (store ▸ log : w.store.Outside name t.log).spared spared
    have tree := t₁.2.store.sameTree_set t.log (.numbered m) none
    have writes : t₁.2.store.Spared w'.store name := by
      rw [store']
      exact .of_places tree.places tree.marker.ge
        (fun id territory =>
          t₁.2.store.buckets_set_of_ne (fun same : id = t.log => away.foreign (same ▸ territory)) _ _)
        fun id _ => t₁.2.store.appended_set _ _ _ id
    exact ⟨before.trans writes, foreign'.spared writes⟩
  | missing never none store => exact ⟨logged store, foreign.spared (logged store)⟩
  | @replayed m w t' never store worked =>
    obtain ⟨spared, foreign'⟩ := Foreign.worked (t := (t.1, w)) (foreign.spared (logged store)) worked
    exact ⟨(logged store).trans spared, foreign'⟩
  | reset opened => exact absurd rfl stays

variable (valid : config.validate = .ok ()) (chained : config.chainStore ≠ logName)

include valid chained

omit foreign in
/-- A reset opens the ingestor where the scope of the name was deleted. -/
theorem Resident.reset : ∃ i w', t.call .reset = ({ t.1 with ingestor := i }, w') ∧
    (openIngestor config t.1.name t.1.pipeline).run t.1 { t.2 with
        calls := t.2.calls + 1
        store := t.2.store.deleteChild Store.root (.named t.1.name) } = (.ok i, t.1, w') ∧
      Opened config t.1.pipeline (t.2.store.deleteChild Store.root (.named t.1.name)) i w' := by
  obtain ⟨i, w', ran, opened⟩ := run_openIngestor valid chained t.1.name t.1.pipeline t.1
    (w := { t.2 with calls := t.2.calls + 1, store := t.2.store.deleteChild Store.root (.named t.1.name) })
    resident.never (resident.tree.deleteChild _ _) (resident.tree.child?_deleteChild _ _)
  refine ⟨i, w', ?_, ran, opened⟩
  have reset := run_reset_of_opened resident.never (resident.config ▸ ran)
  rw [Session.call, perform, Action.run_bind, reset]
  rfl

theorem spared_call (c : Call) :
    t.2.store.Spared (t.call c).2.store name ∧ Foreign (t.call c).2.store name (t.call c).1 := by
  by_cases reset : c = .reset
  · subst reset
    obtain ⟨i, w', called, ran, -⟩ := resident.reset valid chained
    rw [called]
    have deleted := Store.Spared.deletes resident.tree foreign.differ
    obtain ⟨spared, foreign'⟩ := foreign_of_openIngestor
      (w := { t.2 with calls := t.2.calls + 1, store := t.2.store.deleteChild Store.root (.named t.1.name) })
      resident.never (resident.tree.deleteChild _ _) foreign.differ ran
    exact ⟨deleted.trans spared, foreign'.differ, foreign'.sites⟩
  · exact foreign.of_does resident (does valid chained resident c) reset

end Others

/-! ## Own calls -/

section Own

variable {config : Config} {t t' : Session} (resident : Resident config t) (homed : Homed t.2.store t.1)

/-- No call but a reset takes a scope out of the tree. -/
theorem extended_of_does {c : Call} {r : Except (Failure Report) Reply} (does : Does config t c r t')
    (stays : c ≠ .reset) : t.2.store.Extended t'.2.store ∧ t'.1.ingestor.sites = t.1.ingestor.sites := by
  have opens {w : World} (store : w.store = t.withLog) : t.2.store.Extended w.store :=
    store ▸ (t.2.store.widened_openChild _ _).extended
  have works {u u' : Session} (worked : Worked u u') : u.2.store.Extended u'.2.store :=
    .of_places worked.frame.tree.places
  cases does with
  | works plain worked => exact ⟨works worked, worked.later.sites⟩
  | @recorded d m s' w t' never appended store worked =>
    have appends : t.withLog.Extended w.store := .of_places (store ▸ (Store.append?_kept appended).1)
    exact ⟨((opens (w := { w with store := t.withLog }) rfl).trans appends).trans (works worked), worked.later.sites⟩
  | exhausted never none store => exact ⟨opens store, rfl⟩
  | @dropped m d w w' t₁ never found store worked never' store' =>
    have drops : t₁.2.store.Extended w'.store := .of_places (store' ▸ (t₁.2.store.sameTree_set _ _ _).places)
    exact ⟨((opens store).trans (works worked)).trans drops, worked.later.sites⟩
  | missing never none store => exact ⟨opens store, rfl⟩
  | replayed never store worked => exact ⟨(opens store).trans (works worked), worked.later.sites⟩
  | reset opened => exact absurd rfl stays

variable (valid : config.validate = .ok ()) (chained : config.chainStore ≠ logName)

include resident homed valid chained

/-- An aggregation at home stays so under its own calls, and takes no old scope into its territory. -/
theorem homed_call (c : Call) : Homed (t.call c).2.store (t.call c).1 ∧
    ∀ id < t.2.store.scopes.length, (t.call c).2.store.Territory t.1.name id → t.2.store.Territory t.1.name id := by
  have done := does valid chained resident c
  obtain ⟨resident', name, -⟩ := resident.of_does done
  by_cases reset : c = .reset
  · subst reset
    obtain ⟨i, w', called, ran, opened⟩ := resident.reset valid chained
    rw [called]
    have home : Homed w'.store { t.1 with ingestor := i } := homed_of_openIngestor
      (w := { t.2 with calls := t.2.calls + 1, store := t.2.store.deleteChild Store.root (.named t.1.name) })
      resident.never (resident.tree.deleteChild _ _) ran
    -- The scopes that it is reset to are new, and so is all in its territory.
    refine ⟨home, fun id here territory => absurd (opened.le_of_territory home territory) (Nat.not_le_of_lt ?_)⟩
    rw [Store.length_deleteChild]
    exact here
  -- Any other call only hangs the log below the root, if it is not there.
  · obtain ⟨extended, sites⟩ := extended_of_does done reset
    have top : (t.call c).1.ingestor.rootScope = t.1.ingestor.rootScope := by rw [rootScope, rootScope, sites]
    have root := extended.child?_of_some resident'.tree homed.root
    refine ⟨⟨?_, ?_⟩, ?_⟩
    · rw [name, top]
      exact root
    · rw [sites, top]
      exact fun site mem => extended.within (homed.sites site mem)
    · rintro id here ⟨child, found, within⟩
      obtain rfl : t.1.ingestor.rootScope = child := Option.some.inj (root.symm.trans found)
      exact ⟨_, homed.root, within.of_kept extended.kept resident.tree.nested here⟩

end Own

end Aggregation

end Rollup

import MigrationStudio.Datasets.Provenance
import MigrationStudio.Storage.MemberStore

/-!
# Provenance over whole runs

* `rowAfter`, `rowsAfter`: the row that a member's row has become after a step, after a run.
* `Good.provenanceOfMembers_step`, `Good.sources_step`: what one step does to provenance.
* `SourcesExact`: the rows of a combined dataset have provenance from exactly the sources that
  contained them.
* `provenance_of_members_iff`: the runs in which provenance is of members only.
-/

namespace MigrationStudio
namespace Storage

open Foundations MigrationStudio.Core Members Migration

namespace MemberStore

variable {pyLower : String → String} {s s' u v : MemberStore} {l : StoreLabel}
  {ls mid : List StoreLabel} {a b new : DatasetId} {op : SetOperation}

/-! ## One step -/

/-- The row that the row of a member is after a step: a batch that is committed may have merged it
into another, see `mergedInto_settle`. -/
def rowAfter (s : MemberStore) : StoreLabel → MemberId → MemberId
  | .ingest into ms, id =>
      match s.tables.submitIngestBatch into ms, s.tables.members.find? fun r => r.id = id with
      | .ok (_, t'), some r => t'.settle ms r
      | _, _ => id
  | _, id => id

/-- The row that the row of a member is after a run. -/
def rowsAfter (pyLower : String → String) : MemberStore → List StoreLabel → MemberId → MemberId
  | _, [], id => id
  | s, l :: ls, id =>
      match s.step pyLower l with
      | some s' => rowsAfter pyLower s' ls (s.rowAfter l id)
      | none => id

/-- A combination selects every member of its two sources. -/
def SelectsSources (s : MemberStore) : StoreLabel → Prop
  | .combine a b op => s.tables.SelectsBoth a b op
  | _ => True

/-- What a step does to provenance: it leaves the tables of datasets alone, it commits a batch, or
it commits a combination. -/
inductive Rewrites (s : MemberStore) : StoreLabel → MemberStore → Prop
  | same {l : StoreLabel} {s' : MemberStore} (hp : s'.tables.provenance = s.tables.provenance)
      (hm : s'.tables.memberships = s.tables.memberships) (hrow : ∀ id, s.rowAfter l id = id)
      (hsel : ∀ a b op, l ≠ .combine a b op) : Rewrites s l s'
  | batch {into : IngestInto} {ms : List Members.Member} {s' : MemberStore}
      {summary : IngestSummary}
      (hrun : s.tables.submitIngestBatch into ms = .ok (summary, s'.tables)) :
      Rewrites s (.ingest into ms) s'
  | combined {a b new : DatasetId} {op : SetOperation} {s' : MemberStore}
      (hrun : s.tables.combine a b op = .ok (new, s'.tables)) : Rewrites s (.combine a b op) s'

/-- **One step**, as far as provenance goes. -/
theorem Good.rewrites (h : s.Good) (hstep : s.step pyLower l = some s') : Rewrites s l s' := by
  have hcommit : ∀ {r : Except IntegrityError MemberTables},
      (∀ t', r = .ok t' → t'.provenance = s.tables.provenance ∧
        t'.memberships = s.tables.memberships) →
      (s.commit r).tables.provenance = s.tables.provenance ∧
        (s.commit r).tables.memberships = s.tables.memberships := by
    intro r hr
    show (committed s.tables r).provenance = _ ∧ (committed s.tables r).memberships = _
    rcases committed_cases (t := s.tables) r with heq | heq
    · rw [heq]
      exact ⟨rfl, rfl⟩
    · exact hr _ heq
  cases l with
  | createDataset =>
      obtain rfl := Option.some.inj hstep
      exact .same rfl rfl (fun _ => rfl) (by simp)
  | createGroup =>
      obtain rfl := Option.some.inj hstep
      exact .same rfl rfl (fun _ => rfl) (by simp)
  | createAccount a =>
      obtain rfl := Option.some.inj hstep
      exact .same rfl rfl (fun _ => rfl) (by simp)
  | deleteAccount a =>
      obtain rfl := Option.some.inj hstep
      exact .same rfl rfl (fun _ => rfl) (by simp)
  | cachePeers peers =>
      obtain rfl := Option.some.inj hstep
      obtain ⟨hp, hm⟩ := hcommit (r := peers.foldlM MemberTables.insertPeer s.tables) (by
        intro t' ht'
        rw [foldlM_insertPeer_ok ht']
        exact ⟨rfl, rfl⟩)
      exact .same hp hm (fun _ => rfl) (by simp)
  | ingest into ms =>
      obtain rfl := Option.some.inj hstep
      cases hrun : s.tables.submitIngestBatch into ms with
      | ok p => exact .batch hrun
      | error e =>
          exact .same rfl rfl (fun id => by simp only [rowAfter, hrun]) (by simp)
  | combine a b op =>
      obtain rfl := Option.some.inj hstep
      obtain ⟨p, hrun⟩ := h.sound.combine_commits a b op
      rw [hrun]
      exact .combined hrun
  | selectInvite account dataset processed precheck spec =>
      obtain rfl := Option.some.inj hstep
      exact .same rfl rfl (fun _ => rfl) (by simp)
  | selectRemove account dataset precheck spec =>
      obtain ⟨p, -, rfl⟩ := Option.map_eq_some_iff.mp hstep
      exact .same rfl rfl (fun _ => rfl) (by simp)
  | addItems job selection =>
      obtain ⟨members, hmembers, rfl⟩ := Option.map_eq_some_iff.mp hstep
      obtain ⟨hp, hm⟩ := hcommit (r := Storage.addItemRefs s.tables job members) (by
        intro t' ht'
        rw [(h.addItemRefs hmembers ht').2]
        exact ⟨rfl, rfl⟩)
      exact .same hp hm (fun _ => rfl) (by simp)

/-- **One step** keeps provenance to members exactly when it meets the condition. -/
theorem Good.provenanceOfMembers_step (h : s.Good) (hp : s.tables.ProvenanceOfMembers)
    (hstep : s.step pyLower l = some s') :
    s'.tables.ProvenanceOfMembers ↔ s.SelectsSources l := by
  cases h.rewrites hstep with
  | same hps hms hrow hsel =>
      refine iff_of_true ?_ ?_
      · unfold MemberTables.ProvenanceOfMembers MemberTables.InDataset
        rw [hps, hms]
        exact hp
      · cases l with
        | combine a b op => exact absurd rfl (hsel a b op)
        | _ => trivial
  | batch hrun =>
      refine iff_of_true ?_ trivial
      obtain ⟨t₁, h₁, hturns, heq⟩ := h.sound.submitIngestBatch_ok hrun
      rw [heq]
      exact hturns.provenanceOfMembers h.sound hp
  | combined hrun => exact h.sound.provenanceOfMembers_combine hp hrun

/-- **One step** takes the sources of a row along: afterwards they are those of the rows that have
become it, and a combination adds those of its new dataset. -/
theorem Good.sources_step (h : s.Good) (hstep : s.step pyLower l = some s')
    {d src : DatasetId} {id : MemberId} (hd : s.tables.hasDataset d = true) :
    s'.tables.HasSource d id src ↔
      ∃ id₀, s.tables.HasSource d id₀ src ∧ s.rowAfter l id₀ = id := by
  cases h.rewrites hstep with
  | same hps hms hrow hsel =>
      have hsame : s'.tables.HasSource d id src ↔ s.tables.HasSource d id src := by
        unfold MemberTables.HasSource
        rw [hps]
      rw [hsame]
      constructor
      · exact fun hs => ⟨id, hs, hrow id⟩
      · rintro ⟨id₀, hs, rfl⟩
        rwa [hrow]
  | @batch into ms _ summary hrun =>
      obtain ⟨t₁, h₁, hturns, heq⟩ := h.sound.submitIngestBatch_ok hrun
      have hsourced := hturns.sourced h.sound h.sound h.sound.sourced_nil
      have hrow : ∀ r ∈ s.tables.members,
          s.rowAfter (.ingest into ms) r.id = t₁.settle ms r := by
        intro r hr
        simp only [rowAfter, hrun, h.sound.find?_row hr, heq]
        rfl
      have hsame : s'.tables.HasSource d id src ↔ t₁.HasSource d id src := by
        rw [heq]
        rfl
      rw [hsame, hsourced.sources]
      constructor
      · rintro ⟨r, hr, hs, rfl⟩
        exact ⟨r.id, hs, hrow r hr⟩
      · rintro ⟨id₀, hs, rfl⟩
        obtain ⟨p, hp, -, hpid, -⟩ := id hs
        obtain ⟨r, hr, rfl⟩ :=
          MemberTables.hasMember_iff.mp (hpid ▸ (h.sound.provenanceRefs p hp).2.1)
        exact ⟨r, hr, hs, (hrow r hr).symm⟩
  | @combined a b new op _ hrun =>
      have hne : d ≠ new := by
        rw [(h.sound.combine_ok hrun).1]
        exact Nat.ne_of_lt (of_decide_eq_true hd)
      have hsame : s'.tables.HasSource d id src ↔ s.tables.HasSource d id src := by
        simp only [MemberTables.hasSource_iff, MemberTables.hasOrigin_combine hrun, hne, false_and,
          or_false]
      rw [hsame]
      exact ⟨fun hs => ⟨id, hs, rfl⟩, fun ⟨_, hs, heq⟩ => heq ▸ hs⟩

theorem Good.hasDataset_step (h : s.Good) (hstep : s.step pyLower l = some s') {d : DatasetId}
    (hd : s.tables.hasDataset d = true) : s'.tables.hasDataset d = true := by
  have hlt : d < s.tables.datasets.length := of_decide_eq_true hd
  have hsame : ∀ {r : Except IntegrityError MemberTables},
      (∀ t', r = .ok t' → t'.datasets = s.tables.datasets) →
      (s.commit r).tables.hasDataset d = true := by
    intro r hr
    rcases committed_cases (t := s.tables) r with heq | heq
    · show (committed s.tables r).hasDataset d = true
      rwa [heq]
    · refine decide_eq_true ?_
      show d < (committed s.tables r).datasets.length
      rwa [hr _ heq]
  cases l with
  | createDataset =>
      obtain rfl := Option.some.inj hstep
      exact MemberTables.hasDataset_createDataset hd
  | cachePeers peers =>
      obtain rfl := Option.some.inj hstep
      refine hsame fun t' ht' => ?_
      rw [foldlM_insertPeer_ok ht']
  | ingest into ms =>
      rcases ingest_cases hstep with rfl | ⟨summary, hrun⟩
      · exact hd
      · obtain ⟨t₁, -, hturns, heq⟩ := h.sound.submitIngestBatch_ok hrun
        refine decide_eq_true ?_
        rw [heq]
        show d < (t₁.datasets.modify _ _).length
        rwa [List.length_modify, hturns.frame.1]
  | combine a b op =>
      obtain rfl := Option.some.inj hstep
      obtain ⟨⟨new, t'⟩, hrun⟩ := h.sound.combine_commits a b op
      refine decide_eq_true ?_
      show d < (committed s.tables ((s.tables.combine a b op).map Prod.snd)).datasets.length
      obtain ⟨-, -, -, -, -, hds⟩ := h.sound.combine_ok hrun
      rw [hrun]
      show d < t'.datasets.length
      rw [hds, List.length_append]
      exact Nat.lt_of_lt_of_le hlt (Nat.le_add_right _ _)
  | selectRemove account dataset precheck spec =>
      obtain ⟨p, -, rfl⟩ := Option.map_eq_some_iff.mp hstep
      exact hd
  | addItems job selection =>
      obtain ⟨members, hmembers, rfl⟩ := Option.map_eq_some_iff.mp hstep
      refine hsame fun t' ht' => ?_
      rw [(h.addItemRefs hmembers ht').2]
  | _ =>
      obtain rfl := Option.some.inj hstep
      exact hd

/-! ## Whole runs -/

/-- **A run** takes the sources of a row along. -/
theorem Good.sources_run (h : s.Good)
    (hrun : runLabels (MemberStore.step pyLower) s ls = some s') {d src : DatasetId}
    {id : MemberId} (hd : s.tables.hasDataset d = true) :
    s'.tables.HasSource d id src ↔
      ∃ id₀, s.tables.HasSource d id₀ src ∧ rowsAfter pyLower s ls id₀ = id := by
  induction ls generalizing s with
  | nil =>
      obtain rfl := Option.some.inj hrun
      exact ⟨fun hs => ⟨id, hs, rfl⟩, fun ⟨_, hs, heq⟩ => heq ▸ hs⟩
  | cons l ls ih =>
      obtain ⟨t, ht, hrest⟩ := runLabels_cons_eq_some.mp hrun
      rw [ih (h.step ht).1 hrest (h.hasDataset_step ht hd)]
      have hrows : ∀ id₀, rowsAfter pyLower s (l :: ls) id₀ =
          rowsAfter pyLower t ls (s.rowAfter l id₀) := by
        intro id₀
        simp only [rowsAfter, ht]
      constructor
      · rintro ⟨id₁, hs, hid⟩
        obtain ⟨id₀, hs₀, rfl⟩ := (h.sources_step ht hd).mp hs
        exact ⟨id₀, hs₀, (hrows id₀).trans hid⟩
      · rintro ⟨id₀, hs₀, hid⟩
        exact ⟨s.rowAfter l id₀, (h.sources_step ht hd).mpr ⟨id₀, hs₀, rfl⟩,
          (hrows id₀).symm.trans hid⟩

/-- The sources of the members of a combination, right after it. -/
theorem Good.sources_combine (h : s.Good) {t' : MemberTables}
    (hrun : s.tables.combine a b op = .ok (new, t')) {src : DatasetId} {m : MemberId}
    (hsrc : s.tables.hasDataset src = true) :
    t'.HasSource new m src ↔ (src = a ∨ src = b) ∧ s.tables.InDataset src m := by
  have hfresh : ¬ s.tables.hasDataset new = true := by
    rw [(h.sound.combine_ok hrun).1]
    simp [MemberTables.hasDataset]
  have hold : ∀ o, ¬ s.tables.HasOrigin new m o := by
    intro o ho
    obtain ⟨p, hp, hkey⟩ := List.mem_map.mp ho
    have hd := (h.sound.provenanceRefs p hp).1
    rw [(Prod.mk.inj hkey).1] at hd
    exact hfresh hd
  have hin : ∀ {c}, s.tables.hasDataset c = true →
      (t'.InDataset c m ↔ s.tables.InDataset c m) := by
    intro c hc
    have hne : c ≠ new := fun heq => hfresh (heq ▸ hc)
    simp only [h.sound.inDataset_combine hrun, hne, false_and, or_false]
  simp only [MemberTables.hasSource_iff, MemberTables.hasOrigin_combine hrun, hold, false_or,
    true_and, Prod.mk.injEq, Option.some.injEq]
  constructor
  · rintro ⟨g, k, ⟨hm, rfl, -⟩ | ⟨hm, rfl, -⟩⟩
    · exact ⟨Or.inl rfl, (hin hsrc).mp hm⟩
    · exact ⟨Or.inr rfl, (hin hsrc).mp hm⟩
  · rintro ⟨rfl | rfl, hm⟩
    · exact ⟨none, "A", Or.inl ⟨(hin hsrc).mpr hm, rfl, rfl, rfl⟩⟩
    · exact ⟨none, "B", Or.inr ⟨(hin hsrc).mpr hm, rfl, rfl, rfl⟩⟩

/-- The rows of the dataset `new`, which the store `v` has combined from `a` and `b` and which the
store `u` has after the steps `mid`, have provenance from exactly those of the two that contained
them in `v`, or rows that have become them. -/
def SourcesExact (pyLower : String → String) (v u : MemberStore) (a b new : DatasetId)
    (op : SetOperation) (mid : List StoreLabel) : Prop :=
  ∀ m src, v.tables.hasDataset src = true →
    (u.tables.HasSource new m src ↔
      (src = a ∨ src = b) ∧
        ∃ m₀, v.tables.InDataset src m₀ ∧ rowsAfter pyLower v (.combine a b op :: mid) m₀ = m)

theorem Good.sourcesExact (h : v.Good) {t' : MemberTables}
    (hcombine : v.tables.combine a b op = .ok (new, t'))
    (hrun : runLabels (MemberStore.step pyLower) v (.combine a b op :: mid) = some u) :
    SourcesExact pyLower v u a b new op mid := by
  obtain ⟨w, hw, hrest⟩ := runLabels_cons_eq_some.mp hrun
  have htables : w.tables = t' := by
    have heq : w = v.commit ((v.tables.combine a b op).map Prod.snd) :=
      (Option.some.inj hw).symm
    rw [heq, hcombine]
    rfl
  have hd : w.tables.hasDataset new = true := by
    obtain ⟨hnew, -, -, -, -, hds⟩ := h.sound.combine_ok hcombine
    refine decide_eq_true ?_
    rw [htables, hds, hnew, List.length_append, List.length_singleton]
    exact Nat.lt_succ_self _
  have hrows : ∀ m, rowsAfter pyLower v (.combine a b op :: mid) m = rowsAfter pyLower w mid m := by
    intro m
    simp only [rowsAfter, hw]
    rfl
  intro m src hsrc
  rw [(h.step hw).1.sources_run hrest hd, htables]
  simp only [h.sources_combine hcombine hsrc, hrows, and_assoc, exists_and_left]

/-- **Provenance over whole runs.**  In every state of a run provenance is of members only if and
only if every combination selects every member of its two sources: it is a union, or the
intersection of two different datasets with the same members, or of two empty ones, or the
difference of a dataset and an empty one.  In any case the rows of a combined dataset have
provenance from exactly the sources that contained them. -/
theorem provenance_of_members_iff (hrun : runLabels (step pyLower) start ls = some s) :
    (∀ pre post u, ls = pre ++ post → runLabels (step pyLower) start pre = some u →
      u.tables.ProvenanceOfMembers ∧
        ∀ before a b op mid v new t', pre = before ++ .combine a b op :: mid →
          runLabels (step pyLower) start before = some v →
          v.tables.combine a b op = .ok (new, t') → SourcesExact pyLower v u a b new op mid) ↔
      Along (step pyLower) SelectsSources start ls := by
  constructor
  · intro hprov
    by_contra hnot
    obtain ⟨pre, l, post, t, t', rfl, hpre, -, hfails, hstep⟩ := exists_first_failure hrun hnot
    have hgood := (good_of_run good_start hpre).1
    refine hfails ((hgood.provenanceOfMembers_step (hprov pre _ t rfl hpre).1 hstep).mp ?_)
    refine (hprov (pre ++ [l]) post t' (by simp) ?_).1
    exact runLabels_append_eq_some.mpr ⟨t, hpre, runLabels_cons_eq_some.mpr ⟨t', hstep, rfl⟩⟩
  · rintro halong pre post u rfl hpre
    refine ⟨?_, fun before a b op mid v new t' hsplit hbefore hcombine => ?_⟩
    · have hinv : u.Good ∧ u.tables.ProvenanceOfMembers := by
        refine invariant_runLabels (I := fun u => u.Good ∧ u.tables.ProvenanceOfMembers) ?_
          ⟨good_start, fun p hp => absurd hp (by simp [start, emptyTables])⟩
          ((along_append hpre).mp halong).1 hpre
        rintro t l t' ⟨hgood, hp⟩ hC hstep
        exact ⟨(hgood.step hstep).1, (hgood.provenanceOfMembers_step hp hstep).mpr hC⟩
      exact hinv.2
    · subst hsplit
      obtain ⟨v', hv', hrest⟩ := runLabels_append_eq_some.mp hpre
      obtain rfl := Option.some.inj (hv'.symm.trans hbefore)
      exact (good_of_run good_start hbefore).1.sourcesExact hcombine hrest

/-- Two datasets with a member in common, and one member each. -/
def overlapping : List StoreLabel :=
  [.createDataset, .createDataset,
    .ingest { datasetId := 0 } [{ telegramUserId := some 1 }, { telegramUserId := some 2 }],
    .ingest { datasetId := 1 } [{ telegramUserId := some 2 }, { telegramUserId := some 3 }]]

theorem provenance_of_members_union :
    ∃ s, runLabels (step id) start (overlapping ++ [.combine 0 1 .union]) = some s ∧
      ∀ pre post u, overlapping ++ [.combine 0 1 .union] = pre ++ post →
        runLabels (step id) start pre = some u → u.tables.ProvenanceOfMembers := by
  have hsome : (runLabels (step id) start
      (overlapping ++ [.combine 0 1 .union])).isSome = true := by decide +kernel
  obtain ⟨s, hs⟩ := Option.isSome_iff_exists.mp hsome
  refine ⟨s, hs, fun pre post u hsplit hpre => ?_⟩
  refine ((provenance_of_members_iff hs).mpr ?_ pre post u hsplit hpre).1
  refine ⟨trivial, fun _ _ => ⟨trivial, fun _ _ => ⟨trivial, fun _ _ => ⟨trivial, fun _ _ => ?_⟩⟩⟩⟩
  exact ⟨trivial, fun _ _ => trivial⟩

/-- The intersection of the two has the second member alone, and provenance of all three. -/
theorem provenance_of_intersection :
    ∃ s, runLabels (step id) start (overlapping ++ [.combine 0 1 .intersection]) = some s ∧
      ¬ s.tables.ProvenanceOfMembers := by
  have hrows : (runLabels (step id) start (overlapping ++ [.combine 0 1 .intersection])).map
      (fun s => (s.tables.provenance.any fun p => p.datasetId = 2 && p.memberId = 1,
        s.tables.memberships.any fun r => r.datasetId = 2 && r.memberId = 1)) =
      some (true, false) := by decide +kernel
  obtain ⟨s, hs, hpair⟩ := Option.map_eq_some_iff.mp hrows
  obtain ⟨hps, hms⟩ := Prod.mk.inj hpair
  refine ⟨s, hs, fun hp => ?_⟩
  obtain ⟨p, hmem, hrow⟩ := List.any_eq_true.mp hps
  obtain ⟨hd, hm⟩ : p.datasetId = 2 ∧ p.memberId = 1 := by simpa using hrow
  obtain ⟨r, hr, hkey⟩ := List.mem_map.mp (hp p hmem)
  rw [hd, hm] at hkey
  obtain ⟨hrd, hrm⟩ := Prod.mk.inj hkey
  refine absurd hms (Bool.not_eq_false _ |>.mpr (List.any_eq_true.mpr ⟨r, hr, ?_⟩))
  simp [hrd, hrm]

end MemberStore
end Storage
end MigrationStudio

import MigrationStudio.Members.Orders
import MigrationStudio.Storage.MemberStore

/-!
# A batch in two orders

* `OrderIndependent`: every two orders of a list leave the same identities, and a username-only
  member is in the row of the member with its username and a Telegram id.
* `order_independent_iff`: for a list whose usernames go with at most one Telegram id each, exactly
  when no username-only member has the username of a member with a Telegram id.
* `username_after_id`: the order of the two that makes two rows.
-/

namespace MigrationStudio
namespace Storage

open Foundations MigrationStudio.Core Members

namespace MemberStore

variable {pyLower : String → String} {ls : List StoreLabel} {s : MemberStore} {b : IngestInto}
  {t : MemberTables} {ms : List Members.Member} {xs ys : List (Members.Member × ℕ)}

/-- A username-only member and one with that username and a Telegram id are in one row. -/
def OneRow (ms : List Members.Member) (trace : MemberTables.Trace) : Prop :=
  ∀ m i m' j k, (m, i) ∈ ms.zipIdx → (m', j) ∈ ms.zipIdx → m.telegramUserId = none →
    m'.telegramUserId.isSome → Names m k → Names m' k → MemberTables.Together trace i j

/-- The order of a list makes no difference to the identities that it leaves. -/
def OrderIndependent (b : IngestInto) (t : MemberTables) (ms : List Members.Member) : Prop :=
  ∀ xs ys, xs.Perm ms.zipIdx → ys.Perm ms.zipIdx →
    ∃ trace u trace' u', t.ingestInOrder b xs = .ok (trace, u) ∧
      t.ingestInOrder b ys = .ok (trace', u') ∧
      MemberTables.SameIdentities trace u trace' u' ∧ OneRow ms trace ∧ OneRow ms trace'

/-- **Every order commits**, and is the events of its inputs. -/
theorem committed_in_order (h : t.Sound) (hrefers : ∀ m ∈ ms, b.Refers t m)
    (hxs : xs.Perm ms.zipIdx) :
    ∃ trace u, t.ingestInOrder b xs = .ok (trace, u) ∧
      MemberTables.Traced b xs [] t trace u := by
  have hrefers' : ∀ m ∈ xs.map Prod.fst, b.Refers t m := by
    intro m hm
    obtain ⟨x, hx, rfl⟩ := List.mem_map.mp hm
    exact hrefers x.1 (List.fst_mem_of_mem_zipIdx (hxs.subset hx))
  obtain ⟨p, hp⟩ := (h.submitIngestBatch_committed_iff _).mpr hrefers'
  have hsame := MemberTables.ingestInOrder_submit (b := b) t xs
  unfold MemberTables.ingestInOrder at hsame ⊢
  simp only [bind, Except.bind] at hsame ⊢
  cases hloop : xs.foldlM (MemberTables.ingestTraced b) ([], t) with
  | error e =>
      rw [hloop, hp] at hsame
      exact absurd hsame (by simp [Except.map])
  | ok q =>
      obtain ⟨trace, t₁⟩ := q
      have ht := h.traced (fun p hp => absurd hp List.not_mem_nil) hloop
      exact ⟨trace, _, rfl, ht.sound.setMemberCount _ _, ht.there, ht.rows, ht.datasets, ht.inputs⟩

/-- The order with one element after another at the end of the list. -/
theorem exists_order {x y : Members.Member × ℕ} (hx : x ∈ ms.zipIdx) (hy : y ∈ ms.zipIdx)
    (hne : x ≠ y) : ∃ rest : List (Members.Member × ℕ), (rest ++ [y, x]).Perm ms.zipIdx := by
  refine ⟨(ms.zipIdx.erase x).erase y, ?_⟩
  have hy' : y ∈ ms.zipIdx.erase x := (List.mem_erase_of_ne hne.symm).mpr hy
  have hends : ((ms.zipIdx.erase x).erase y ++ [y, x]).Perm
      (x :: y :: (ms.zipIdx.erase x).erase y) :=
    List.perm_append_comm.trans (List.Perm.swap _ _ _)
  have hfirst : (x :: y :: (ms.zipIdx.erase x).erase y).Perm (x :: ms.zipIdx.erase x) :=
    (List.perm_cons_erase hy').symm.cons x
  exact (hends.trans hfirst).trans (List.perm_cons_erase hx).symm

/-- **Where a list mixes**, one of its orders makes two rows. -/
theorem not_oneRow_of_mixes (h : t.Sound) (hrefers : ∀ m ∈ ms, b.Refers t m)
    (hmix : MemberTables.Mixes ms) :
    ∃ xs, xs.Perm ms.zipIdx ∧
      ∀ trace u, t.ingestInOrder b xs = .ok (trace, u) → ¬ OneRow ms trace := by
  obtain ⟨m, hm, m', hm', k, hn, hn', hnone, hsome⟩ := hmix
  obtain ⟨i, hi, rfl⟩ := List.mem_iff_getElem.mp hm
  obtain ⟨j, hj, rfl⟩ := List.mem_iff_getElem.mp hm'
  have hx : (ms[i], i) ∈ ms.zipIdx := List.mk_mem_zipIdx_iff_getElem?.mpr (by simp [hi])
  have hy : (ms[j], j) ∈ ms.zipIdx := List.mk_mem_zipIdx_iff_getElem?.mpr (by simp [hj])
  have hne : (ms[i], i) ≠ (ms[j], j) := by
    intro heq
    rw [← (Prod.mk.inj heq).1, hnone] at hsome
    exact absurd hsome (by simp)
  obtain ⟨rest, hperm⟩ := exists_order hx hy hne
  refine ⟨_, hperm, fun trace u hrun hone => ?_⟩
  obtain ⟨trace', u', hrun', ht⟩ := committed_in_order h hrefers hperm
  obtain ⟨rfl, rfl⟩ := Prod.mk.inj (Except.ok.inj (hrun'.symm.trans hrun))
  have hnodup : ((rest ++ [(ms[j], j), (ms[i], i)]).map Prod.snd).Nodup := by
    refine (hperm.map Prod.snd).nodup_iff.mpr ?_
    rw [List.zipIdx_map_snd]
    exact List.nodup_range'
  exact ht.apart hnodup hn hnone hsome (hone _ _ _ _ k hx hy hnone hsome hn hn')

/-- **The order of a list makes no difference** exactly when no member without Telegram id has the
username of one with it. -/
theorem order_independent_iff (hrun : runLabels (step pyLower) start ls = some s)
    (hrefers : ∀ m ∈ ms, b.Refers s.tables m) (hone : MemberTables.OneIdPerName ms) :
    OrderIndependent b s.tables ms ↔ ¬ MemberTables.Mixes ms := by
  have h := (good_of_run good_start hrun).1.sound
  constructor
  · intro hall hmix
    obtain ⟨xs, hxs, hnot⟩ := not_oneRow_of_mixes h hrefers hmix
    obtain ⟨trace, u, -, -, hrun', -, -, hrow, -⟩ := hall xs xs hxs hxs
    exact hnot trace u hrun' hrow
  · intro hmix xs ys hxs hys
    have hrow : ∀ trace, OneRow ms trace := by
      intro trace m i m' j k hm hm' hnone hsome hn hn'
      exact absurd ⟨m, List.fst_mem_of_mem_zipIdx hm, m', List.fst_mem_of_mem_zipIdx hm', k, hn,
        hn', hnone, hsome⟩ hmix
    obtain ⟨trace, u, hrun₁, ht⟩ := committed_in_order h hrefers hxs
    obtain ⟨trace', u', hrun₂, ht'⟩ := committed_in_order h hrefers hys
    exact ⟨trace, u, trace', u', hrun₁, hrun₂, ht.sameIdentities ht' fun bring S =>
      MemberTables.applyAll_eventsOf_perm hone hmix hxs hys bring S, hrow _, hrow _⟩

/-- A username, and a Telegram id with another one, each of them twice. -/
def bobAndAlice : List Members.Member :=
  [{ telegramUserId := none, username := some "Bob" },
    { telegramUserId := some 5, username := some "alice" },
    { telegramUserId := none, username := some "@bob" },
    { telegramUserId := some 5, username := some "Alice" }]

/-- The 24 orders of a list that does not mix. -/
theorem order_independent_bobAndAlice :
    ∃ s, runLabels (step id) start [.createDataset] = some s ∧
      ¬ MemberTables.Mixes bobAndAlice ∧
      OrderIndependent { datasetId := 0 } s.tables bobAndAlice := by
  have hall : (runLabels (step id) start [.createDataset]).map
      (fun s => (s.tables.hasDataset 0, s.tables.hasGroup none)) = some (true, true) := by
    decide +kernel
  obtain ⟨s, hs, hboth⟩ := Option.map_eq_some_iff.mp hall
  obtain ⟨hdataset, hgroup⟩ := Prod.mk.inj hboth
  have hids : ∀ m ∈ bobAndAlice, m.telegramUserId.isSome → m.telegramUserId = some 5 := by
    decide +kernel
  have hbob : ∀ m ∈ bobAndAlice, m.telegramUserId = none → Names m "bob" := by decide +kernel
  have halice : ∀ m ∈ bobAndAlice, m.telegramUserId.isSome → Names m "alice" := by
    decide +kernel
  have hmix : ¬ MemberTables.Mixes bobAndAlice := by
    rintro ⟨m, hm, m', hm', k, hn, hn', hnone, hsome⟩
    have hk := Option.some.inj (hn.symm.trans (hbob m hm hnone))
    have hk' := Option.some.inj (hn'.symm.trans (halice m' hm' hsome))
    exact absurd (hk.symm.trans hk') (by decide)
  refine ⟨s, hs, hmix, (order_independent_iff hs ?_ ?_).mpr hmix⟩
  · intro m hm _
    exact ⟨hdataset, hgroup, fun p hp => absurd hp (by simp [Telegram.ingestRecord])⟩
  · intro m hm m' hm' k _ _ hsome hsome'
    rw [hids m hm hsome, hids m' hm' hsome']

/-- A username and a Telegram id with it. -/
def nameAndId : List Members.Member :=
  [{ telegramUserId := none, username := some "alice" },
    { telegramUserId := some 5, username := some "alice" }]

/-- The username first makes one row, the Telegram id first makes two. -/
theorem username_after_id :
    ∃ s, runLabels (step id) start [.createDataset] = some s ∧
      (∀ m ∈ nameAndId, IngestInto.Refers { datasetId := 0 } s.tables m) ∧
      MemberTables.OneIdPerName nameAndId ∧
      ((s.tables.ingestInOrder { datasetId := 0 } nameAndId.zipIdx).toOption.map fun p =>
        p.2.members.map Row.telegramUserId) = some [some 5] ∧
      ((s.tables.ingestInOrder { datasetId := 0 } nameAndId.zipIdx.reverse).toOption.map fun p =>
        p.2.members.map Row.telegramUserId) = some [some 5, none] ∧
      ¬ OrderIndependent { datasetId := 0 } s.tables nameAndId := by
  have hall : (runLabels (step id) start [.createDataset]).map
      (fun s => (s.tables.hasDataset 0, s.tables.hasGroup none)) = some (true, true) := by
    decide +kernel
  have hforward : (runLabels (step id) start [.createDataset]).map (fun s =>
      (s.tables.ingestInOrder { datasetId := 0 } nameAndId.zipIdx).toOption.map fun p =>
        p.2.members.map Row.telegramUserId) = some (some [some 5]) := by decide +kernel
  have hbackward : (runLabels (step id) start [.createDataset]).map (fun s =>
      (s.tables.ingestInOrder { datasetId := 0 } nameAndId.zipIdx.reverse).toOption.map fun p =>
        p.2.members.map Row.telegramUserId) = some (some [some 5, none]) := by decide +kernel
  obtain ⟨s, hs, hboth⟩ := Option.map_eq_some_iff.mp hall
  obtain ⟨hdataset, hgroup⟩ := Prod.mk.inj hboth
  rw [hs, Option.map_some, Option.some.injEq] at hforward hbackward
  refine ⟨s, hs, fun m hm _ => ⟨hdataset, hgroup, fun p hp => ?_⟩, ?_, hforward, hbackward, ?_⟩
  · exact absurd hp (by simp [Telegram.ingestRecord])
  · intro m hm m' hm' k hn hn' hsome hsome'
    simp only [nameAndId, List.mem_cons, List.not_mem_nil, or_false] at hm hm'
    rcases hm with rfl | rfl
    · exact absurd hsome (by simp)
    · rcases hm' with rfl | rfl
      · exact absurd hsome' (by simp)
      · rfl
  · intro hsame
    obtain ⟨trace, u, trace', u', hrun, hrun', hident, -⟩ :=
      hsame _ _ (List.Perm.refl _) (List.reverse_perm _)
    rw [hrun] at hforward
    rw [hrun'] at hbackward
    have hone : u.members.length = 1 := by
      simpa using congrArg List.length (Option.some.inj hforward)
    have htwo : u'.members.length = 2 := by
      simpa using congrArg List.length (Option.some.inj hbackward)
    rw [hident.count, htwo] at hone
    omega

end MemberStore
end Storage
end MigrationStudio

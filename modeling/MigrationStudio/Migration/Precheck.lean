import Mathlib.Data.Finset.Lattice.Lemmas
import MigrationStudio.Telegram.ParticipantPages

/-!
# `migration/precheck.py`

`TargetPrecheck.run` collects the ids of the target's participants from the pages of the gateway.
The result is `COMPLETE` when no exception has escaped, which is also so when the gateway has
stopped at a page shorter than the limit; the server may return such a page anywhere in the list.

* `run`: the result for what the gateway has yielded.
* `precheck_reports_truth_iff`: `COMPLETE` means all participants exactly when no participant is
  left behind the first short page.
-/

namespace MigrationStudio
namespace Migration

open MigrationStudio.Core Members Telegram

/-- `PrecheckResult`. -/
structure PrecheckResult where
  targetIds : Finset ℤ
  coverage : TargetCoverage
  deriving DecidableEq

namespace TargetPrecheck

/-- The ids of the members of a page. -/
def pageIds (page : List Member) : Finset ℤ := (page.filterMap Member.telegramUserId).toFinset

/-- `TargetPrecheck.run` over what the gateway yields. -/
def run (y : Yielded) : PrecheckResult :=
  let ids := y.pages.foldl (fun ids page => ids ∪ pageIds page) ∅
  { targetIds := ids
    coverage :=
      if y.raised then if ids.Nonempty then .partly else .unavailable else .complete }

/-! ## The ids -/

/-- The ids of a list of participants. -/
def participantIds (users : List RawUser) : Finset ℤ := (users.filterMap RawUser.id).toFinset

theorem pageIds_map (users : List RawUser) :
    pageIds (users.map normalizeMember) = participantIds users := by
  unfold pageIds participantIds
  rw [List.filterMap_map]
  rfl

theorem participantIds_append (users users' : List RawUser) :
    participantIds (users ++ users') = participantIds users ∪ participantIds users' := by
  unfold participantIds
  rw [List.filterMap_append, List.toFinset_append]

theorem targetIds_run (y : Yielded) : (run y).targetIds = pageIds y.pages.flatten := by
  have hfold : ∀ ids : Finset ℤ, y.pages.foldl (fun ids page => ids ∪ pageIds page) ids =
      ids ∪ pageIds y.pages.flatten := by
    induction y.pages with
    | nil =>
        intro ids
        exact (Finset.union_empty ids).symm
    | cons page pages ih =>
        intro ids
        rw [List.foldl_cons, ih, List.flatten_cons, Finset.union_assoc]
        unfold pageIds
        rw [List.filterMap_append, List.toFinset_append]
  show y.pages.foldl (fun ids page => ids ∪ pageIds page) ∅ = _
  rw [hfold, Finset.empty_union]

theorem participantIds_take_subset (users : List RawUser) (n : ℕ) :
    participantIds (users.take n) ⊆ participantIds users := by
  have hsplit := participantIds_append (users.take n) (users.drop n)
  rw [List.take_append_drop] at hsplit
  rw [hsplit]
  exact Finset.subset_union_left

theorem participantIds_take_eq_iff (users : List RawUser) (n : ℕ) :
    participantIds (users.take n) = participantIds users ↔
      participantIds (users.drop n) ⊆ participantIds (users.take n) := by
  have hsplit := participantIds_append (users.take n) (users.drop n)
  rw [List.take_append_drop] at hsplit
  rw [hsplit, eq_comm, Finset.union_eq_left]

/-! ## What the result says -/

/-- The result is true: `COMPLETE` comes with the ids of all participants, the other coverages with
ids of participants, `UNAVAILABLE` with none. -/
structure ReportsTruth (c : Channel) (r : PrecheckResult) : Prop where
  complete : r.coverage = .complete → r.targetIds = participantIds c.participants
  incomplete : r.coverage ≠ .complete → r.targetIds ⊆ participantIds c.participants
  unavailable : r.coverage = .unavailable → r.targetIds = ∅

/-- No participant is left behind a page at which the gateway stops: all who stand in the list
after it stand before it too. -/
def NobodyBehindShortPage (c : Channel) (limit : ℕ) : Prop :=
  ∀ i stop, c.StopsAt limit i stop →
    participantIds (c.participants.drop stop) ⊆ participantIds (c.participants.take stop)

theorem reportsTruth_of_raised {c : Channel} {y : Yielded} (hraised : y.raised = true)
    (hsub : (run y).targetIds ⊆ participantIds c.participants) : ReportsTruth c (run y) where
  complete := by
    intro h
    simp only [run, hraised, if_true] at h
    split_ifs at h
  incomplete := fun _ => hsub
  unavailable := by
    intro h
    simp only [run, hraised, if_true] at h
    split_ifs at h with hne
    exact Finset.not_nonempty_iff_eq_empty.mp hne

/-- **`COMPLETE` can be wrong.**  For every channel, every way its server cuts the list into
replies and every failure, `TargetPrecheck.run` ends, and its result is true exactly when no
participant is left behind a page that is shorter than the limit. -/
theorem precheck_reports_truth_iff (c : Channel) (limit : ℤ) :
    ∃ y, (∀ fuel, c.participants.length < fuel →
        iterParticipantPages fuel 0 limit (.channel c) = some y) ∧
      (ReportsTruth c (run y) ↔
        (c.connected = true → NobodyBehindShortPage c (pageLimit limit))) := by
  cases hconn : c.connected with
  | false =>
      refine ⟨⟨[], true⟩, fun fuel _ => by simp [iterParticipantPages, hconn], ?_⟩
      refine iff_of_true (reportsTruth_of_raised rfl ?_) (fun h => absurd h (by simp))
      rw [targetIds_run]
      exact Finset.empty_subset _
  | true =>
      obtain ⟨y, hy, hends⟩ := iterParticipantPages_terminates c limit hconn
      refine ⟨y, hy, ?_⟩
      rw [imp_iff_right rfl]
      rcases hends with ⟨hdone, k, stop, hstop, hpages⟩ | ⟨hraised, k, hfail, hpages⟩
      · have hids : (run y).targetIds = participantIds (c.participants.take stop) := by
          rw [targetIds_run, hpages, pageIds_map]
        have hcomplete : (run y).coverage = .complete := by simp [run, hdone]
        have hcond : NobodyBehindShortPage c (pageLimit limit) ↔
            (run y).targetIds = participantIds c.participants := by
          rw [hids, participantIds_take_eq_iff]
          constructor
          · exact fun h => h k stop hstop
          · intro h i stop' hstop'
            rwa [← hstop.unique hstop']
        rw [hcond]
        constructor
        · exact fun h => h.complete hcomplete
        · exact fun h => ⟨fun _ => h, fun hne => absurd hcomplete hne,
            fun hun => absurd (hcomplete.symm.trans hun) (by simp)⟩
      · refine iff_of_true (reportsTruth_of_raised hraised ?_)
          fun i stop hstop => absurd hfail hstop.not_failsAt
        rw [targetIds_run, hpages, pageIds_map]
        exact participantIds_take_subset _ _

/-! ## A server that answers two at a time -/

/-- A channel whose server answers at most two users, whatever is asked, and never fails. -/
def twoAtATime (participants : List RawUser) : Channel where
  connected := true
  participants := participants
  reply := fun _ offset limit => some ((participants.drop offset).take (min 2 limit))
  slice := by
    rintro i offset limit users h
    rw [Option.some.injEq] at h
    exact h ▸ List.take_prefix _ _
  atMost := by
    rintro i offset limit users h
    rw [Option.some.injEq] at h
    rw [← h, List.length_take]
    omega
  nonempty := by
    rintro i offset limit users h hlimit hoffset
    rw [Option.some.injEq] at h
    rw [← h, ← List.length_pos_iff, List.length_take, List.length_drop]
    omega

/-- The users of these ids. -/
def usersOf (ids : List ℤ) : List RawUser := ids.map fun n => { id := some n }

/-- Three participants, a limit of 200: the gateway stops after the first reply and the result is
`COMPLETE` without the third. -/
theorem complete_without_the_third :
    ∃ y, iterParticipantPages 4 0 200 (.channel (twoAtATime (usersOf [1, 2, 3]))) = some y ∧
      run y = ⟨{1, 2}, .complete⟩ ∧
      ¬ ReportsTruth (twoAtATime (usersOf [1, 2, 3])) (run y) := by
  have hrun : run ⟨[(usersOf [1, 2]).map normalizeMember], false⟩ = ⟨{1, 2}, .complete⟩ := by
    decide
  refine ⟨⟨[(usersOf [1, 2]).map normalizeMember], false⟩, rfl, hrun, fun h => ?_⟩
  have hids := h.complete (by rw [hrun])
  rw [hrun] at hids
  exact absurd hids (by decide)

end TargetPrecheck
end Migration
end MigrationStudio

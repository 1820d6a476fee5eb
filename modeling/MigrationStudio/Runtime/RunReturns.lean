import MigrationStudio.Runtime.ReferenceRun

/-!
# A run returns

Every move of a run takes something of the effort that it has left, and only the outcome of an RPC
adds to it.  And a run is never stuck: its executor can move, or it waits for the writer, which can
move too, or it waits for the outcome of an RPC.

* `effort_of_run`: the number of moves, by the number of outcomes.
* `progress`: the executor or the writer can move, and that brings the run on.
* `reaches_rpc`: a run comes to an RPC or to its return by itself.
* `exists_completion`: with the outcomes that end the reference run, a run can be brought to its
  return.
* `run_behaves_as_reference`: the run and its reference.
-/

namespace MigrationStudio

open Foundations MigrationStudio.Core Accounts Jobs Telegram Storage Migration

namespace Migration
namespace Executor

variable {e : Executor}

/-- **An executor that awaits nothing can move**, unless its RPC is in flight: at an instant after
its sleep, and with the mutation lock free. -/
theorem Undisturbed.can_move (h : e.Undisturbed) (haw : e.awaiting = none)
    (hrpc : ∀ a, e.point ≠ .rpc a) (db : Database) (future : ℕ) :
    ∃ m now, (m = .execute ∨ m = .advance ∨ m = .read) ∧
      (e.step ⟨now, 0, 0, db, true, future⟩ m).isSome := by
  cases htodo : e.todo with
  | cons st todo =>
      refine ⟨.execute, 0, Or.inl rfl, ?_⟩
      rw [Executor.step, execute, haw, htodo]
      cases st with
      | flush force =>
          simp only
          split <;> rfl
      | write w => rfl
      | pauseAccount => rfl
  | nil =>
      by_cases hload : e.buffer.loading = some .requested
      · refine ⟨.read, 0, Or.inr (Or.inr rfl), ?_⟩
        simp [Executor.step, Executor.read, CandidateBuffer.read, hload]
      · have hadvance : ∀ now, (e.advance ⟨now, 0, 0, db, true, future⟩).isSome →
            ∃ m now, (m = .execute ∨ m = .advance ∨ m = .read) ∧
              (e.step ⟨now, 0, 0, db, true, future⟩ m).isSome :=
          fun now hnow => ⟨.advance, now, Or.inr (Or.inl rfl), hnow⟩
        have hset : (e.awaiting.isSome || !e.todo.isEmpty) = false := by rw [haw, htodo]; rfl
        cases hpoint : e.point with
        | rpc a => exact absurd hpoint (hrpc a)
        | sleeping deadline k a =>
            -- the sleep is over at its deadline
            refine hadvance deadline ?_
            simp [advance, hset, hpoint, wake, h.realClock, h.control]
        | prime =>
            refine hadvance 0 ?_
            rw [advance, hset, hpoint]
            simp only [Bool.false_eq_true, if_false, advancePrime, Option.isSome_map]
            split
            · split
              · rfl
              · rename_i hrequested
                exact absurd hrequested hload
              · rfl
            · rfl
        | pop =>
            refine hadvance 0 ?_
            rw [advance, hset, hpoint]
            simp only [Bool.false_eq_true, if_false, advancePop, Option.isSome_map]
            split
            · rfl
            · split
              · rename_i hrequested
                exact absurd hrequested hload
              · rfl
              · split <;> rfl
        | loop =>
            refine hadvance 0 ?_
            simp [advance, hset, hpoint, h.control]
        | attempted u =>
            refine hadvance 0 ?_
            cases u <;> simp [advance, hset, hpoint]
        | _ =>
            refine hadvance 0 ?_
            simp [advance, hset, hpoint]

end Executor
end Migration

namespace Runtime

/-- The moves of the writer thread until its queue and its batch are empty. -/
def laneWork (w : Lane) : ℕ := 2 * w.queue.length + w.pending.length

theorem laneWork_submit (w : Lane) (t : WriteTask) : laneWork (w.submit t) = laneWork w + 2 := by
  simp only [laneWork, DBWriter.submit, List.length_append, List.length_singleton]
  omega

/-- **The writer thread can move** while something waits. -/
theorem lane_progress {w : Lane} (h : w.waiting ≠ []) :
    ∃ wl w', (wl = .get ∨ wl = .timeout) ∧ w.step lane wl = some w' ∧
      laneWork w' < laneWork w := by
  cases hqueue : w.queue with
  | nil =>
      refine ⟨.timeout, _, Or.inr rfl, by rw [DBWriter.step, DBWriter.timeout, hqueue], ?_⟩
      rw [DBWriter.waiting, hqueue, List.append_nil] at h
      have hpos := List.length_pos_iff.mpr h
      simp only [laneWork, DBWriter.commitBatch_queue, hqueue, List.length_nil]
      omega
  | cons item rest =>
      have hget : ∃ w', w.get lane = some w' ∧ w'.queue = rest ∧
          w'.pending.length ≤ w.pending.length + 1 := by
        rw [DBWriter.get, hqueue]
        simp only
        split_ifs
        · exact ⟨_, rfl, rfl, Nat.zero_le _⟩
        · exact ⟨_, rfl, rfl, Nat.zero_le _⟩
        · exact ⟨_, rfl, rfl, by simp⟩
      obtain ⟨w', hw', hrest, hle⟩ := hget
      refine ⟨.get, w', Or.inl rfl, hw', ?_⟩
      rw [laneWork, laneWork, hrest, hqueue, List.length_cons]
      omega

/-- While a future is pending, something waits. -/
theorem waiting_of_pending {w : Lane} (h : Numbered lane w) {k : ℕ} (hk : k < w.submitted.length)
    (hfuture : w.future k = none) : w.waiting ≠ [] := by
  obtain ⟨db₀, bs, hbs⟩ := h
  intro hnil
  rw [hbs.future_eq, List.getElem?_eq_none_iff, length_commitBatches] at hfuture
  rw [hbs.submitted, hnil, List.map_nil, List.append_nil] at hk
  omega

namespace Solo

variable {id : JobId} {s s' : Solo} {account : AccountId} {db₀ : Database} {job : Job}
  {r : Reference} {e : Executor} {m : Move} {o : Outside} {out : Outcome}

/-! ## The effort of a run -/

/-- The committed pending ordinals. -/
def pendingOf (id : JobId) (s : Solo) : List ℕ := (s.writer.database.jobs[id]?).elim [] Job.pending

theorem pendingOf_eq {job' : Job} (h : s.writer.database.jobs[id]? = some job') :
    pendingOf id s = job'.pending := by
  rw [pendingOf, h]
  rfl

/-- What the executor has still to do. -/
def effort (id : JobId) (s : Solo) : ℕ := s.executor.elim 0 (Executor.effort (pendingOf id s))

theorem effort_eq (he : s.executor = some e) : effort id s = e.effort (pendingOf id s) := by
  rw [effort, he]
  rfl

/-- The moves of the executor. -/
def moves (ls : List SoloLabel) : ℕ :=
  ls.countP fun
    | .move _ _ => true
    | _ => false

theorem sorted_pendingOf (id : JobId) (s : Solo) : (pendingOf id s).Pairwise (· < ·) := by
  rw [pendingOf]
  cases s.writer.database.jobs[id]? with
  | none => exact List.Pairwise.nil
  | some job' => exact job'.items.pairwise_pendingOrdinals

theorem pendingOf_after (s : Solo) (out : Outcome) :
    pendingOf id (s.after out) = pendingOf id s := by
  rw [pendingOf, database_after, pendingOf]

/-- The window is right where a chunk is received. -/
theorem faithful_of_settled (hs : Steady id s) (he : s.executor = some e) (hset : e.Settled)
    (hpoint : e.point = .prime ∨ e.point = .pop) : e.buffer.Faithful (pendingOf id s) := by
  rcases hs.running_or_starting he with ⟨job', rest, hjob', hrunning⟩ | hstart
  · have hcurrent : e.point.current = some [] := by
      rcases hpoint with hp | hp <;> (rw [hp]; rfl)
    rw [pendingOf_eq hjob']
    exact (hrunning.window [] hcurrent).2
  · rcases hstart.phase with ⟨hp, -⟩ | ⟨-, htodo, -⟩ | ⟨-, htodo, -⟩
    · rcases hpoint with hpoint | hpoint <;> exact absurd (hp.symm.trans hpoint) (by simp)
    · exact absurd (htodo.symm.trans hset.2) (by simp)
    · exact absurd (htodo.symm.trans hset.2) (by simp)

/-- The moves of an undisturbed executor. -/
theorem move_cases (hs : Steady id s) (hquiet : e.Undisturbed) (htold : s.told e m)
    (hstep : e.step (s.env o) m = some out) (hplain : Plain (.move m o)) :
    (∃ outcome, m = .answer outcome) ∨
      (outcomeOf (.move m o) = none ∧
        (m = .execute ∨ m = .resumed (.ok ()) ∨ m = .advance ∨ m = .read)) := by
  obtain ⟨hdelayed, hdone⟩ := hquiet.move hstep
  cases m with
  | answer outcome => exact Or.inl ⟨outcome, rfl⟩
  | resumed result =>
      cases result with
      | ok u => exact Or.inr ⟨rfl, by simp⟩
      | error message => exact absurd rfl (hs.not_raised htold message)
  | execute | advance | read => exact Or.inr ⟨rfl, by simp⟩
  | delayed => exact absurd rfl hdelayed
  | delayedDone result => exact absurd rfl (hdone result)
  | pause | stop => exact hplain.elim

/-- **A move takes something** of the effort, but for the outcome of an RPC. -/
theorem effort_after (hs : Steady id s) (hquiet : e.Undisturbed) (he : s.executor = some e)
    (htold : s.told e m) (hstep : e.step (s.env o) m = some out) (hplain : Plain (.move m o)) :
    effort id (s.after out) + 1 ≤
      effort id s + 28 * (outcomeOf (.move m o)).toList.length := by
  have htr := Executor.transition_of_step hstep
  have hself : (s.after out).executor = out.executor := rfl
  rw [effort, hself, pendingOf_after, effort_eq he]
  rcases move_cases hs hquiet htold hstep hplain with ⟨outcome, rfl⟩ | ⟨hnone, hm⟩
  · cases hout : out.executor with
    | none => simp [outcomeOf]
    | some e' =>
        have hle := htr.effort_answer (pendingOf id s)
          (fun a => hs.settled_of_rpc he) hout
        simp only [Option.elim_some, outcomeOf, Option.toList_some, List.length_singleton]
        omega
  · rw [hnone]
    cases hout : out.executor with
    | none =>
        obtain ⟨-, -, hpoint⟩ := htr.ends (hs.not_raised htold) (hs.alive e he) hout
        have hpos := Executor.effort_pos e (pendingOf id s) fun a ha => by
          rcases hpoint with hp | ⟨summary, final, hp⟩ <;>
            exact absurd (ha.symm.trans hp) (by simp)
        simp only [Option.elim_none, Option.toList_none, List.length_nil]
        omega
    | some e' =>
        have hlt := htr.effort_lt hm hquiet.control (sorted_pendingOf id s)
          (fun hset hpoint => faithful_of_settled hs he hset hpoint) hout
        simp only [Option.elim_some, Option.toList_none, List.length_nil]
        omega

/-- A suffix has fewer candidates to read. -/
theorem effort_of_suffix {p q : List ℕ} (h : q <:+ p) (e : Executor) : e.effort q ≤ e.effort p := by
  have hle : (e.buffer.unread q).length ≤ (e.buffer.unread p).length :=
    (h.sublist.filter _).length_le
  rw [Executor.effort, Executor.effort]
  omega

/-- The writer thread adds nothing. -/
theorem effort_lane (hs : Steady id s) {wl : WriterLabel WriteTask} {w : Lane}
    (hne : ∀ t, wl ≠ .submit t) (hw : s.writer.step lane wl = some w) :
    effort id { s with writer := w } ≤ effort id s := by
  obtain ⟨job', row, hjob', -, hdrains⟩ := hs.settled
  have hrule := nothing_rule (w := s.writer)
    (I := fun db waiting => ∃ job₁ q, db.jobs[id]? = some job₁ ∧ job₁.pending <:+ job'.pending ∧
      Drains (laneOf id waiting) job₁.pending q) ?_ hs.nothing hne hw
    ⟨job', _, hjob', List.suffix_refl _, hdrains⟩
  · obtain ⟨job₁, q, hjob₁, hsuffix, -⟩ := hrule
    rw [effort, effort, pendingOf_eq hjob', pendingOf_eq (s := { s with writer := w }) hjob₁]
    cases s.executor with
    | none => exact le_rfl
    | some e => exact effort_of_suffix hsuffix e
  · rintro db p rest ⟨job₁, q, hjob₁, hsuffix, hdrains⟩
    rw [laneOf_cons] at hdrains
    rw [Database.jobs_apply]
    cases hp : p.2.write.ofJob id with
    | none =>
        rw [hp] at hdrains
        exact ⟨job₁, q, hjob₁, hsuffix, hdrains⟩
    | some jw =>
        rw [hp] at hdrains
        obtain ⟨q', hconsumes, hdrains'⟩ := hdrains
        have hpending := hconsumes.pending_apply
        refine ⟨job₁.apply jw, q, by rw [hjob₁]; rfl, ?_, hpending.symm ▸ hdrains'⟩
        exact hpending.symm ▸ hconsumes.suffix.trans hsuffix

/-- **One step** of a run. -/
theorem effort_step (hm : Mirror id account db₀ job r s) (hs : Steady id s) {l : SoloLabel}
    (hplain : Plain l) (hstep : s.step id l = some s') :
    effort id s' + moves [l] ≤ effort id s + 28 * (outcomeOf l).toList.length := by
  cases step_cases hstep with
  | @lane l wl w hl hne hw =>
      have hmoves : moves [l] = 0 := by
        cases l with
        | move m o => exact absurd rfl (hl m o)
        | _ => rfl
      have hle := effort_lane hs hne hw
      omega
  | foreign hown => exact Nat.le_add_right _ _
  | @resume e he =>
      rw [(hm.going e he).quiet.requestResume, ← he]
      exact Nat.le_add_right _ _
  | @moved m o e out he htold hout =>
      exact effort_after hs (hm.going e he).quiet he htold hout hplain

/-- **The number of moves of a run**, by the number of outcomes. -/
theorem effort_of_run (hm : Mirror id account db₀ job r s) (hs : Steady id s)
    (hjob : db₀.jobs[id]? = some job) {ls : List SoloLabel} (hplain : ∀ l ∈ ls, Plain l)
    (hrun : runLabels (step id) s ls = some s') :
    effort id s' + moves ls ≤ effort id s + 28 * (outcomes ls).length := by
  induction ls generalizing s r with
  | nil =>
      obtain rfl := Option.some.inj hrun
      exact le_rfl
  | cons l ls ih =>
      obtain ⟨t, ht, hrest⟩ := runLabels_cons_eq_some.mp hrun
      have hl := hplain l (List.mem_cons_self ..)
      have hone := effort_step hm hs hl ht
      have hall := ih (hm.step hs hjob hl ht) (hs.step ht)
        (fun l' hl' => hplain l' (List.mem_cons_of_mem _ hl')) hrest
      have hmoves : moves (l :: ls) = moves [l] + moves ls := by
        rw [moves, moves, moves, ← List.countP_append]
        rfl
      have hlength : (outcomes (l :: ls)).length =
          (outcomeOf l).toList.length + (outcomes ls).length := by
        rw [outcomes, List.filterMap_cons]
        cases outcomeOf l <;> simp [outcomes, Nat.add_comm]
      omega

/-! ## A run is never stuck -/

/-- What the executor and the writer thread have still to do.  A move of the executor submits one
task at most. -/
def work (id : JobId) (s : Solo) : ℕ := 3 * effort id s + laneWork s.writer

theorem laneWork_after (s : Solo) (out : Outcome) :
    laneWork (s.after out).writer ≤ laneWork s.writer + 2 := by
  rw [Solo.after]
  cases out.write with
  | none => exact Nat.le_add_right _ _
  | some w => exact (laneWork_submit _ _).le

/-- The executor can move. -/
theorem progress_move (hm : Mirror id account db₀ job r s) (hs : Steady id s)
    (he : s.executor = some e) (htold : s.told e m) (hstep : (e.step (s.env o) m).isSome)
    (hplain : Plain (.move m o)) (hsilent : outcomeOf (.move m o) = none) :
    ∃ s', s.step id (.move m o) = some s' ∧ work id s' < work id s := by
  obtain ⟨out, hout⟩ := Option.isSome_iff_exists.mp hstep
  refine ⟨s.after out, ?_, ?_⟩
  · rw [Solo.step, he, Option.bind_some, if_pos htold, hout]
    rfl
  · have heffort := effort_after hs (hm.going e he).quiet he htold hout hplain
    have hlane := laneWork_after s out
    rw [hsilent] at heffort
    simp only [Option.toList_none, List.length_nil] at heffort
    rw [work, work]
    omega

/-- **The executor or the writer can move**, unless an RPC is in flight, and that brings the run
on. -/
theorem progress (hm : Mirror id account db₀ job r s) (hs : Steady id s)
    (he : s.executor = some e) (hrpc : ∀ a, e.point ≠ .rpc a) :
    ∃ l s', Plain l ∧ outcomeOf l = none ∧ s.step id l = some s' ∧ work id s' < work id s := by
  cases haw : e.awaiting with
  | none =>
      obtain ⟨m, now, hmove, hstep⟩ := (hm.going e he).quiet.can_move haw hrpc s.writer.database
        s.writer.submitted.length
      have hlabel : s.told e m ∧ Plain (.move m ⟨now, 0, 0, true⟩) ∧
          outcomeOf (.move m ⟨now, 0, 0, true⟩) = none := by
        rcases hmove with rfl | rfl | rfl <;> exact ⟨trivial, trivial, rfl⟩
      obtain ⟨htold, hplain, hsilent⟩ := hlabel
      obtain ⟨s', hs', hlt⟩ := progress_move (o := ⟨now, 0, 0, true⟩) hm hs he htold hstep hplain
        hsilent
      exact ⟨_, s', hplain, hsilent, hs', hlt⟩
  | some a =>
      cases hfuture : s.writer.future a.future with
      | some result =>
          -- the future is resolved
          obtain rfl := hs.futures.future hfuture
          have hstep : (e.step (s.env ⟨0, 0, 0, true⟩) (.resumed (.ok ()))).isSome := by
            rw [Executor.step, Executor.resumed, haw]
            rfl
          have htold : s.told e (.resumed (.ok ())) := ⟨a, haw, hfuture⟩
          have hplain : Plain (.move (.resumed (.ok ())) ⟨0, 0, 0, true⟩) := trivial
          obtain ⟨s', hs', hlt⟩ := progress_move hm hs he htold hstep hplain rfl
          exact ⟨_, s', hplain, rfl, hs', hlt⟩
      | none =>
          -- the writer has something to do
          have hawaited := hm.awaited
          rw [Awaited, he, Option.bind_some, haw] at hawaited
          obtain ⟨wl, w, hwl, hw, hlt⟩ :=
            lane_progress (waiting_of_pending hs.numbered hawaited.1 hfuture)
          have hne : ∀ t, wl ≠ .submit t := by
            rcases hwl with rfl | rfl <;> simp
          have hle := effort_lane hs hne hw
          have hwork : work id { s with writer := w } < work id s := by
            simp only [work]
            omega
          rcases hwl with rfl | rfl
          · refine ⟨.get, { s with writer := w }, trivial, rfl, ?_, hwork⟩
            rw [DBWriter.step] at hw
            rw [Solo.step, hw]
            rfl
          · refine ⟨.timeout, { s with writer := w }, trivial, rfl, ?_, hwork⟩
            rw [DBWriter.step] at hw
            rw [Solo.step, hw]
            rfl

/-- **A run comes to an RPC or to its return by itself.** -/
theorem reaches_rpc (hm : Mirror id account db₀ job r s) (hs : Steady id s)
    (hjob : db₀.jobs[id]? = some job) :
    ∃ ls s', (∀ l ∈ ls, Plain l) ∧ outcomes ls = [] ∧ runLabels (step id) s ls = some s' ∧
      Mirror id account db₀ job r s' ∧ Steady id s' ∧
      (s'.executor = none ∨ ∃ e a, s'.executor = some e ∧ e.point = .rpc a) := by
  induction hn : work id s using Nat.strong_induction_on generalizing s with
  | _ n ih =>
      subst hn
      cases he : s.executor with
      | none => exact ⟨[], s, by simp, rfl, rfl, hm, hs, Or.inl he⟩
      | some e =>
          by_cases hrpc : ∃ a, e.point = .rpc a
          · obtain ⟨a, ha⟩ := hrpc
            exact ⟨[], s, by simp, rfl, rfl, hm, hs, Or.inr ⟨e, a, he, ha⟩⟩
          · obtain ⟨l, t, hplain, hsilent, ht, hlt⟩ :=
              progress hm hs he fun a ha => hrpc ⟨a, ha⟩
            have hmirror := hm.step hs hjob hplain ht
            rw [follow, hsilent] at hmirror
            obtain ⟨ls, s', hall, houtcomes, hrun, hm', hs', hend⟩ :=
              ih _ hlt hmirror (hs.step ht) rfl
            refine ⟨l :: ls, s', ?_, ?_, runLabels_cons_eq_some.mpr ⟨t, ht, hrun⟩, hm', hs', hend⟩
            · intro l' hl'
              rcases List.mem_cons.mp hl' with rfl | hl'
              · exact hplain
              · exact hall l' hl'
            · rw [outcomes, List.filterMap_cons, hsilent]
              exact houtcomes

/-- The RPC in flight is the one of the reference. -/
theorem Mirror.current (hm : Mirror id account db₀ job r s) (he : s.executor = some e)
    {a : Attempt} (hpoint : e.point = .rpc a) : r.current = some a := by
  obtain ⟨row, updates, ahead, hf⟩ := (hm.going e he).facing
  have hreference := hf.mirrors.reference
  rw [hpoint] at hreference
  rw [hreference]
  rfl

variable (id) in
/-- The RPC in flight has an outcome. -/
theorem answer_step (he : s.executor = some e) {a : Attempt} (hpoint : e.point = .rpc a)
    (outcome : Option DomainError) :
    ∃ t, s.step id (.move (.answer outcome) ⟨0, 0, 0, true⟩) = some t := by
  have hanswer : (e.step (s.env ⟨0, 0, 0, true⟩) (.answer outcome)).isSome := by
    rw [Executor.step, Executor.answer, hpoint]
    rfl
  obtain ⟨out, hout⟩ := Option.isSome_iff_exists.mp hanswer
  have htold : s.told e (.answer outcome) := trivial
  refine ⟨s.after out, ?_⟩
  rw [Solo.step, he, Option.bind_some, if_pos htold, hout]
  rfl

/-- **A run can be brought to its return** with any outcomes that end the reference run; it takes
the first of them. -/
theorem exists_completion (hm : Mirror id account db₀ job r s) (hs : Steady id s)
    (hjob : db₀.jobs[id]? = some job) {more : List (Option DomainError)}
    (hmore : (more.foldl Reference.answer r).current = none) :
    ∃ ls s', (∀ l ∈ ls, Plain l) ∧ outcomes ls <+: more ∧
      runLabels (step id) s ls = some s' ∧ s'.executor = none := by
  induction more generalizing s r with
  | nil =>
      obtain ⟨ls, s', hall, houtcomes, hrun, hm', -, hend⟩ := reaches_rpc hm hs hjob
      rcases hend with hnone | ⟨e, a, he, hpoint⟩
      · exact ⟨ls, s', hall, houtcomes ▸ List.nil_prefix, hrun, hnone⟩
      · exact absurd (hmore.symm.trans (hm'.current he hpoint)) (by simp)
  | cons outcome more ih =>
      obtain ⟨ls, t, hall, houtcomes, hrun, hm', hs', hend⟩ := reaches_rpc hm hs hjob
      rcases hend with hnone | ⟨e, a, he, hpoint⟩
      · exact ⟨ls, t, hall, houtcomes ▸ List.nil_prefix, hrun, hnone⟩
      · obtain ⟨u, hu⟩ := answer_step id he hpoint outcome
        obtain ⟨ls', s', hall', hpre, hrun', hnone⟩ :=
          ih (hm'.step hs' hjob (l := .move (.answer outcome) ⟨0, 0, 0, true⟩) trivial hu)
            (hs'.step hu) hmore
        refine ⟨ls ++ .move (.answer outcome) ⟨0, 0, 0, true⟩ :: ls', s', ?_, ?_, ?_, hnone⟩
        · intro l hl
          rcases List.mem_append.mp hl with hl | hl
          · exact hall l hl
          · rcases List.mem_cons.mp hl with rfl | hl
            · exact trivial
            · exact hall' l hl
        · have hsplit : outcomes (ls ++ .move (.answer outcome) ⟨0, 0, 0, true⟩ :: ls') =
              outcome :: outcomes ls' := by
            rw [outcomes, List.filterMap_append]
            exact congrArg (· ++ outcome :: outcomes ls') houtcomes
          rw [hsplit]
          exact List.cons_prefix_cons.mpr ⟨rfl, hpre⟩
        · exact runLabels_append_eq_some.mpr
            ⟨t, hrun, runLabels_cons_eq_some.mpr ⟨u, hu, hrun'⟩⟩

/-! ## The run and its reference -/

/-- The executor and its RPCs have the arguments of `run`. -/
structure Called (id : JobId) (account : AccountId) (target : Telegram.GroupContext)
    (action : Action) (s : Solo) : Prop where
  executor : ∀ e, s.executor = some e →
    e.jobId = id ∧ e.accountId = account ∧ e.target = target ∧ e.action = action
  rpcs : ∀ rpc ∈ s.rpcs,
    rpc.job = id ∧ rpc.account = account ∧ rpc.target = target ∧ rpc.action = action

theorem Called.step {target : Telegram.GroupContext} {action : Action}
    (h : Called id account target action s) {l : SoloLabel} (hstep : s.step id l = some s') :
    Called id account target action s' := by
  cases step_cases hstep with
  | lane | foreign => exact ⟨h.executor, h.rpcs⟩
  | @resume e he =>
      refine ⟨fun e' he' => ?_, h.rpcs⟩
      obtain rfl := Option.some.inj he'
      have hsame := h.executor e he
      rw [Executor.requestResume]
      split <;> exact hsame
  | @moved m o e out he htold hout =>
      have htr := Executor.transition_of_step hout
      obtain ⟨hid, haccount, htarget, haction⟩ := h.executor e he
      refine ⟨fun e' he' => ?_, fun rpc hrpc => ?_⟩
      · have hsame := htr.same he'
        exact ⟨hsame.jobId.trans hid, hsame.accountId.trans haccount, hsame.target.trans htarget,
          hsame.action.trans haction⟩
      · rw [Solo.rpcs, Solo.after, List.filterMap_append] at hrpc
        rcases List.mem_append.mp hrpc with hold | hnew
        · exact h.rpcs rpc hold
        · obtain ⟨event, hevent, hsent⟩ := List.mem_filterMap.mp hnew
          cases event with
          | sent rpc' =>
              obtain rfl := Option.some.inj hsent
              obtain ⟨deadline, a, -, -, rfl⟩ := htr.sent_eq (Option.mem_toList.mp hevent)
              exact ⟨hid, haccount, htarget, haction⟩
          | _ => exact absurd hsent (by simp)

theorem called_of_run {target : Telegram.GroupContext} {action : Action}
    (h : Called id account target action s) {ls : List SoloLabel}
    (hrun : runLabels (Solo.step id) s ls = some s') : Called id account target action s' :=
  invariant_runLabels (C := fun _ _ => True) (fun _ _ _ hI _ hstep => hI.step hstep) h
    (along_of_forall_mem (D := fun _ => True) fun _ _ => trivial) hrun

/-- What has been sent is the beginning of what the reference sends. -/
theorem prefix_reference (p : Point) (rpcs : List Subject) (updates : List ItemUpdate)
    (ahead : List BufferedCandidate) (state : JobState) :
    rpcs <+: (p.reference rpcs updates ahead state).rpcs := by
  have hnext : ∀ us cs, rpcs <+: (Reference.next rpcs us cs).rpcs := by
    intro us cs
    rcases Reference.rpcs_next rpcs us cs with hsame | ⟨x, hone⟩
    · rw [hsame]
    · rw [hone]
      exact List.prefix_append _ _
  have hsleep : ∀ (k : SleepFor) (a : Attempt),
      rpcs <+: (k.reference a rpcs updates ahead).rpcs := by
    intro k a
    cases k with
    | transient error =>
        simp only [SleepFor.reference]
        split
        · exact hnext _ _
        · exact List.prefix_append _ _
    | attempt | serverWait => exact List.prefix_append _ _
  cases p with
  | wait k a | sleeping deadline k a => exact hsleep k a
  | returned u | attempted u =>
      cases u with
      | none => exact List.prefix_refl _
      | some u => exact hnext _ _
  | rpc a | leave => exact List.prefix_refl _
  | _ => exact hnext _ _

/-- **The run behaves as the reference run `r`.**  The candidates are taken in increasing order, and
`r` accounts for all of them; every RPC is the one that `r` sends; and when `run` has returned, all
RPCs of `r` have been sent, the committed items are those of the beginning with the updates of `r`,
and the job is in the state that `r` leaves it in. -/
structure BehavesAs (id : JobId) (account : AccountId) (target : Telegram.GroupContext)
    (action : Action) (db₀ : Database) (job : Job) (r : Reference) (s : Solo) : Prop where
  ordered : ((candidates db₀ id account).map BufferedCandidate.ordinal).Pairwise (· < ·)
  accounted : Reference.Accounted (candidates db₀ id account) r
  called : ∀ rpc ∈ s.rpcs,
    rpc.job = id ∧ rpc.account = account ∧ rpc.target = target ∧ rpc.action = action
  sent : s.subjects <+: r.rpcs
  returned : s.executor = none → r.current = none ∧ s.subjects = r.rpcs ∧
    ∃ row, s.writer.database.jobs[id]? = some row ∧
      row.items.forget = job.items.forget.updateItems r.updates ∧
      (∀ q ∈ row.items.rows, q.ordinal ∉ r.updates.map ItemUpdate.ordinal → q ∈ job.items.rows) ∧
      row.state = r.jobState row.items

/-- The end of a run, on the committed row. -/
theorem Mirror.committed (hm : Mirror id account db₀ job r s) (hnone : s.executor = none)
    (hjob : db₀.jobs[id]? = some job)
    (haccounted : Reference.Accounted (candidates db₀ id account) r) :
    r.current = none ∧ s.subjects = r.rpcs ∧ ∃ row, s.writer.database.jobs[id]? = some row ∧
      row.items.forget = job.items.forget.updateItems r.updates ∧
      (∀ q ∈ row.items.rows, q.ordinal ∉ r.updates.map ItemUpdate.ordinal → q ∈ job.items.rows) ∧
      row.state = r.jobState row.items := by
  obtain ⟨hover, hrpcs, row, hrow, hitems, hstate, haside⟩ := hm.returned hnone
  have hlane := hm.awaited.of_none (by rw [hnone, Option.bind_none])
  rw [Solo.row, jobs_settled_of_nil hlane] at hrow
  refine ⟨hover, hrpcs, row, hrow, hitems, fun q hq hnot => haside q hq ?_, hstate⟩
  by_cases hpending : q.ordinal ∈ job.pending
  · -- the reference accounts for all candidates
    rw [← ordinals_candidates hjob account, ← haccounted.ordinals, hover] at hpending
    simp only [Option.map_none, Option.toList_none, List.append_nil] at hpending
    exact Or.inl ((List.mem_append.mp hpending).resolve_left hnot)
  · exact Or.inr hpending

/-- **A run is its reference run.**  On a clock that is not the real one, without a request and
without a failing write, `MigrationExecutor.run` behaves as the reference on the outcomes of its
RPCs, whatever they are; it makes a bounded number of moves between them; and it can always be
brought to its return by outcomes that end the reference run. -/
theorem run_behaves_as_reference (hjob : db₀.jobs[id]? = some job) (hright : FailedRight job)
    (account : AccountId) (target : Telegram.GroupContext) (action : Action)
    (scheduler : InviteScheduler)
    {ls : List SoloLabel} (hplain : ∀ l ∈ ls, Plain l)
    (hrun : runLabels (step id) (start id account target action false scheduler db₀) ls = some s) :
    BehavesAs id account target action db₀ job
        (reference (candidates db₀ id account) (outcomes ls)) s ∧
      moves ls ≤ 13 * job.pending.length + 20 + 28 * (outcomes ls).length ∧
      ∀ more, (reference (candidates db₀ id account) (outcomes ls ++ more)).current = none →
        ∃ ls' s', (∀ l ∈ ls', Plain l) ∧ outcomes ls' <+: more ∧
          runLabels (step id) s ls' = some s' ∧ s'.executor = none := by
  have hstart := mirror_start hjob hright account target action scheduler
  have hsteady := steady_start id account target action false scheduler hjob
  have hmirror : Mirror id account db₀ job
      (reference (candidates db₀ id account) (outcomes ls)) s :=
    mirror_of_run hstart hsteady hjob hplain hrun
  have hs := steady_of_run hsteady hrun
  refine ⟨⟨?_, reference_accounted _ _, ?_, ?_, fun hnone => ?_⟩, ?_, fun more hmore => ?_⟩
  · rw [ordinals_candidates hjob]
    exact job.items.pairwise_pendingOrdinals
  · have hcalled : Called id account target action
        (start id account target action false scheduler db₀) := by
      refine ⟨fun e he => ?_, fun rpc hrpc => ?_⟩
      · obtain rfl := Option.some.inj he
        exact ⟨rfl, rfl, rfl, rfl⟩
      · exact absurd hrpc (by simp [Solo.rpcs, start])
    exact (called_of_run hcalled hrun).rpcs
  · cases he : s.executor with
    | none => exact (hmirror.returned he).rpcs ▸ List.prefix_refl _
    | some e =>
        obtain ⟨row, updates, ahead, hf⟩ := (hmirror.going e he).facing
        rw [hf.mirrors.reference]
        exact prefix_reference _ _ _ _ _
  · exact hmirror.committed hnone hjob (reference_accounted _ _)
  · have heffort := effort_of_run hstart hsteady hjob hplain hrun
    have hunread : ({} : CandidateBuffer).unread job.pending = job.pending := by
      rw [CandidateBuffer.unread, List.filter_eq_self]
      exact fun o _ => decide_eq_true (lt_of_lt_of_le (by decide) (Int.natCast_nonneg o))
    have hzero : effort id (start id account target action false scheduler db₀) =
        13 * job.pending.length + 20 := by
      have hpending : pendingOf id (start id account target action false scheduler db₀) =
          job.pending := pendingOf_eq hjob
      rw [effort_eq rfl, hpending, Executor.effort, hunread]
      simp [CandidateBuffer.effort, Point.effort]
    omega
  · refine exists_completion hmirror hs hjob ?_
    rw [reference, List.foldl_append] at hmore
    exact hmore

/-- At the end of the candidates: the last chunk, the last results, and the final state. -/
def finish : List SoloLabel :=
  [.move .advance quiet, .move .read quiet, .move .advance quiet, .move .advance quiet] ++
    resultWrite ++ [.move .advance quiet] ++ criticalWrite ++ criticalWrite ++
    [.move .advance quiet]

/-- The removal of one member, which succeeds. -/
theorem run_behaves_as_reference_removal :
    ∃ s, runLabels (step 0) (start 0 1 ⟨500, some 600, .channel, 1⟩ .remove false
          ⟨3 * second, 3 * second, none, 0, []⟩ (smallDatabase [persist 1 1 [1] .remove]))
        (enterLoop ++ sendRpc ++ keepResult ++ finish) = some s ∧ s.executor = none ∧
      BehavesAs 0 1 ⟨500, some 600, .channel, 1⟩ .remove (smallDatabase [persist 1 1 [1] .remove])
        (persist 1 1 [1] .remove)
        (reference (candidates (smallDatabase [persist 1 1 [1] .remove]) 0 1) [none]) s := by
  have h : (runLabels (step 0) (start 0 1 ⟨500, some 600, .channel, 1⟩ .remove false
      ⟨3 * second, 3 * second, none, 0, []⟩ (smallDatabase [persist 1 1 [1] .remove]))
      (enterLoop ++ sendRpc ++ keepResult ++ finish)).map (fun s => s.executor.isNone) =
        some true := by
    decide +kernel
  have hright : FailedRight (persist 1 1 [1] .remove) := rfl
  obtain ⟨s, hs, hnone⟩ := Option.map_eq_some_iff.mp h
  exact ⟨s, hs, Option.isNone_iff_eq_none.mp hnone,
    (run_behaves_as_reference rfl hright 1 _ .remove _ (by decide) hs).1⟩

end Solo
end Runtime
end MigrationStudio
